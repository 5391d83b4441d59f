import RecordQuery.Proofs.Causes
import RecordQuery.Proofs.Reading

/-!
What limits do to queries. Limits admit a query or they do not: if they do, the outcome and the
error are those under all other limits that admit it, and if they do not, there is no outcome
(`evaluate_of_admits`). The depth of a query is measured from below and the room of an evaluation
counts from above, so a query that is read under some limits is never too deep for them.
-/

namespace RecordQuery

/-- The limits permit the depth of a query and the length of each of its paths. -/
def Limits.Admits (limits : Limits) (q : Query) : Prop :=
  q.depth ≤ limits.maxDepth ∧ ∀ path ∈ q.paths, path.length ≤ limits.maxPathLength

theorem Limits.not_admits_iff {limits : Limits} {q : Query} : ¬ limits.Admits q ↔
    limits.maxDepth < q.depth ∨ ∃ path ∈ q.paths, limits.maxPathLength < path.length := by
  simp only [Admits, not_and_or, not_forall, Nat.not_le, exists_prop]

namespace Query

section

variable {limits limits' : Limits} {data : Value} {schema : Schema} {q : Query} {o : Outcome}

theorem resolvePath_eq_walk {path : List Step} (h : path.length ≤ limits.maxPathLength) :
    resolvePath limits path data schema = walk [] schema (.scalar data) path := by
  rw [resolvePath, if_neg (Nat.not_lt.mpr h)]

theorem length_le_of_resolvePath {path : List Step}
    (h : resolvePath limits path data schema = .ok o) : path.length ≤ limits.maxPathLength := by
  unfold resolvePath at h
  split at h
  · cases h
  · rename_i hlength
    exact Nat.not_lt.mp hlength

theorem admits_of_evaluateWithin {room : Nat}
    (h : evaluateWithin limits data schema room q = .ok o) :
    q.depth ≤ room ∧ ∀ path ∈ q.paths, path.length ≤ limits.maxPathLength := by
  obtain ⟨hdepth, hpaths⟩ := resolves_of_evaluateWithin h
  refine ⟨hdepth, fun path hpath => ?_⟩
  obtain ⟨there, hthere⟩ := hpaths path hpath
  exact length_le_of_resolvePath hthere

/-- Where the room suffices its size does not matter, and limits matter at paths only. -/
theorem evaluateWithin_congr {room room' : Nat} (hroom : q.depth ≤ room)
    (hroom' : q.depth ≤ room') (hpaths : ∀ path ∈ q.paths,
      resolvePath limits path data schema = resolvePath limits' path data schema) :
    evaluateWithin limits data schema room q = evaluateWithin limits' data schema room' q := by
  induction q generalizing room room' with
  | literal v =>
    obtain ⟨room, rfl⟩ := Nat.exists_eq_add_of_le' hroom
    obtain ⟨room', rfl⟩ := Nat.exists_eq_add_of_le' hroom'
    rfl
  | not operand ih =>
    obtain ⟨room, rfl⟩ := Nat.exists_eq_add_of_le' (Nat.le_of_add_left_le hroom)
    obtain ⟨room', rfl⟩ := Nat.exists_eq_add_of_le' (Nat.le_of_add_left_le hroom')
    rw [evaluateWithin, evaluateWithin,
      ih (Nat.le_of_succ_le_succ hroom) (Nat.le_of_succ_le_succ hroom') hpaths]
  | binary op left right ihl ihr =>
    obtain ⟨room, rfl⟩ := Nat.exists_eq_add_of_le' (Nat.le_of_add_left_le hroom)
    obtain ⟨room', rfl⟩ := Nat.exists_eq_add_of_le' (Nat.le_of_add_left_le hroom')
    obtain ⟨hl, hr⟩ := Nat.max_le.mp (Nat.le_of_succ_le_succ hroom)
    obtain ⟨hl', hr'⟩ := Nat.max_le.mp (Nat.le_of_succ_le_succ hroom')
    obtain ⟨hpl, hpr⟩ := List.forall_mem_append.mp hpaths
    rw [evaluateWithin, evaluateWithin, ihl hl hl' hpl, ihr hr hr' hpr]
  | resolve path =>
    obtain ⟨room, rfl⟩ := Nat.exists_eq_add_of_le' hroom
    obtain ⟨room', rfl⟩ := Nat.exists_eq_add_of_le' hroom'
    exact hpaths path (List.mem_singleton_self path)

theorem evaluate_resolve {path : List Step} (h : 0 < limits.maxDepth) :
    (Query.resolve path).evaluate limits data schema = resolvePath limits path data schema := by
  rw [evaluate, ← Nat.sub_add_cancel h, evaluateWithin]

/-- Operands are evaluated as if they stood alone, since they need less room than the call has. -/
theorem evaluate_not (h : (Query.not q).depth ≤ limits.maxDepth) :
    (Query.not q).evaluate limits data schema = do
      let x ← q.evaluate limits data schema
      return .ofBool !x.anyTrue := by
  have hroom : q.depth ≤ limits.maxDepth - 1 := Nat.le_sub_one_of_lt h
  have hoperand : evaluateWithin limits data schema (limits.maxDepth - 1) q =
      q.evaluate limits data schema :=
    evaluateWithin_congr hroom (Nat.le_of_succ_le h) fun _ _ => rfl
  rw [evaluate, ← Nat.sub_add_cancel (Nat.le_of_add_left_le h), evaluateWithin, hoperand]

theorem evaluate_binary {op : BinaryOp} {left right : Query}
    (h : (Query.binary op left right).depth ≤ limits.maxDepth) :
    (Query.binary op left right).evaluate limits data schema = do
      let l ← left.evaluate limits data schema
      let r ← right.evaluate limits data schema
      return .ofBool (← l.anyPair op.apply r) := by
  have hroom : max left.depth right.depth ≤ limits.maxDepth - 1 := Nat.le_sub_one_of_lt h
  have hoperand (s : Query) (hs : s.depth ≤ max left.depth right.depth) :
      evaluateWithin limits data schema (limits.maxDepth - 1) s =
        s.evaluate limits data schema :=
    evaluateWithin_congr (hs.trans hroom) (hs.trans (Nat.le_of_succ_le h)) fun _ _ => rfl
  rw [evaluate, ← Nat.sub_add_cancel (Nat.le_of_add_left_le h), evaluateWithin,
    hoperand left (Nat.le_max_left ..), hoperand right (Nat.le_max_right ..)]

/-- A call whose operands have outcomes says what the search through their values says. -/
theorem evaluate_binary_of_ok {op : BinaryOp} {left right : Query} {l r : Outcome}
    (h : (Query.binary op left right).depth ≤ limits.maxDepth)
    (hl : left.evaluate limits data schema = .ok l)
    (hr : right.evaluate limits data schema = .ok r) :
    (Query.binary op left right).evaluate limits data schema =
      (l.anyPair op.apply r).map .ofBool := by
  rw [evaluate_binary h, hl, hr]
  exact bind_pure_comp Outcome.ofBool (l.anyPair op.apply r)

/-- Where no pair of the values fails, the call says whether some pair passes. -/
theorem evaluate_binary_eq_any {op : BinaryOp} {left right : Query} {l r : Outcome}
    {f : Value → Value → Bool} (h : (Query.binary op left right).depth ≤ limits.maxDepth)
    (hl : left.evaluate limits data schema = .ok l)
    (hr : right.evaluate limits data schema = .ok r)
    (happly : ∀ v ∈ l.values, ∀ w ∈ r.values, op.apply v w = .ok (f v w)) :
    (Query.binary op left right).evaluate limits data schema =
      .ok (.ofBool (l.values.any fun v => r.values.any (f v))) := by
  rw [evaluate_binary_of_ok h hl hr, Outcome.anyPair_eq_any happly]
  rfl

theorem evaluate_congr_of_admits (h : limits.Admits q) (h' : limits'.Admits q) :
    q.evaluate limits data schema = q.evaluate limits' data schema := by
  refine evaluateWithin_congr h.1 h'.1 fun path hpath => ?_
  rw [resolvePath_eq_walk (h.2 path hpath), resolvePath_eq_walk (h'.2 path hpath)]

/-- The greatest depth counts for nothing where it is not exceeded, also for paths that are too
long. -/
theorem evaluate_of_maxDepth (h : q.depth ≤ limits.maxDepth) {n : Nat} (hn : q.depth ≤ n) :
    q.evaluate { limits with maxDepth := n } data schema = q.evaluate limits data schema :=
  evaluateWithin_congr hn h fun _ _ => rfl

theorem resolvePath_ne_nesting {path : List Step} {n : Nat} :
    resolvePath limits path data schema ≠ .error (.tooComplex (.nesting n)) := by
  intro h
  rcases resolvePath_eq_error h with hroute | ⟨cause, hcause⟩
  · exact (ofRoute_of_destination hroute).ne_nesting n rfl
  · cases hcause

theorem evaluate_ne_nesting (h : q.depth ≤ limits.maxDepth) {n : Nat} :
    q.evaluate limits data schema ≠ .error (.tooComplex (.nesting n)) := by
  intro he
  cases evaluateWithin_eq_error he with
  | nesting hroom => exact absurd h (Nat.not_le.mpr hroom)
  | path _ hpath => exact resolvePath_ne_nesting hpath

end

/-- **Limits only cut.** Under limits that a query exceeds in its depth or at one of its paths there
is no outcome. Under all limits that admit the query the result is the same, outcome or error. So a
query that was read under some limits gives the same result under these with any other depth that
it does not exceed, and is never found too deep. -/
theorem evaluate_of_admits (q : Query) (data : Value) (schema : Schema) (limits : Limits) :
    (limits.maxDepth < q.depth ∨ (∃ path ∈ q.paths, limits.maxPathLength < path.length) →
      ∃ e, q.evaluate limits data schema = .error e) ∧
    (limits.Admits q → ∀ limits' : Limits, limits'.Admits q →
      q.evaluate limits data schema = q.evaluate limits' data schema) ∧
    ∀ document, ofJson limits document = .ok q →
      (∀ n, q.depth ≤ n →
        q.evaluate { limits with maxDepth := n } data schema = q.evaluate limits data schema) ∧
      ∀ n, q.evaluate limits data schema ≠ .error (.tooComplex (.nesting n)) := by
  refine ⟨fun hexceeds => ?_, fun h limits' h' => evaluate_congr_of_admits h h',
    fun document hread => ?_⟩
  · cases hq : q.evaluate limits data schema with
    | error e => exact ⟨e, rfl⟩
    | ok o => exact absurd (admits_of_evaluateWithin hq) (Limits.not_admits_iff.mpr hexceeds)
  · have hdepth : q.depth ≤ limits.maxDepth := (readWithin_eq_ok_iff.mp hread).2
    exact ⟨fun n hn => evaluate_of_maxDepth hdepth hn, fun n => evaluate_ne_nesting hdepth⟩

end Query

end RecordQuery
