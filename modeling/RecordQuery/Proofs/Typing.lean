import RecordQuery.Proofs.Kinds
import RecordQuery.Proofs.Parts
import RecordQuery.Query.Decision

/-!
Typing of queries. A query has a kind when the schema accepts its paths and each operator admits the
kinds of its operands. On accepted records such queries do not go wrong: they yield values of their
kind, and without NaN in the record there is no error (`evaluate_of_hasKind`).
-/

namespace RecordQuery

/-! ## Paths and kinds -/

/-- A schema leads to a node along a path of declared properties and items of arrays. -/
inductive Schema.Reaches : Schema → List Query.Step → Schema → Prop
  | here {node : Schema} : Reaches node [] node
  | property {properties : List (String × Schema)} {required : List String} {name : String}
      {child target : Schema} {path : List Query.Step}
      (declared : (object properties required).property? name = some child)
      (below : Reaches child path target) :
      Reaches (.object properties required) (.property name :: path) target
  | item {items target : Schema} {path : List Query.Step} (below : Reaches items path target) :
      Reaches (.array items) (.item :: path) target

theorem Schema.Reaches.append {schema node target : Schema} {path rest : List Query.Step}
    (h : schema.Reaches path node) (hrest : node.Reaches rest target) :
    schema.Reaches (path ++ rest) target := by
  induction h with
  | here => exact hrest
  | property declared _ ih => exact .property declared (ih hrest)
  | item _ ih => exact .item (ih hrest)

theorem Schema.Reaches.unique {schema node node' : Schema} {path : List Query.Step}
    (h : schema.Reaches path node) (h' : schema.Reaches path node') : node = node' := by
  induction h with
  | here =>
    cases h'
    rfl
  | property declared _ ih =>
    cases h' with
    | property declared' below =>
      cases declared.symm.trans declared'
      exact ih below
  | item _ ih =>
    cases h' with
    | item below => exact ih below

namespace Query

/-- A query is well typed, and yields values of a kind, under a schema. -/
inductive HasKind (schema : Schema) : Query → Kind → Prop
  | literal (v : Value) : HasKind schema (.literal v) (.ofValue v)
  | not {operand : Query} {a : Kind} (typed : HasKind schema operand a) :
      HasKind schema (.not operand) .boolean
  | binary {op : BinaryOp} {left right : Query} {a b : Kind} (typedLeft : HasKind schema left a)
      (typedRight : HasKind schema right b) (admits : op.Admits a b) :
      HasKind schema (.binary op left right) .boolean
  | resolve {path : List Step} {node : Schema} (reaches : schema.Reaches path node)
      (once : path.count .item ≤ 1) : HasKind schema (.resolve path) (.ofSchema node)

theorem route_of_reaches {walked : List Step} {crossed : Bool} {schema node : Schema}
    {path : List Step} (h : schema.Reaches path node)
    (hcount : path.count .item + crossed.toNat ≤ 1) :
    route walked crossed schema path = .ok node := by
  induction h generalizing walked crossed with
  | here => rfl
  | property declared below ih =>
    simp only [route, advance, declared]
    exact ih (by simpa using hcount)
  | item below ih =>
    rw [List.count_cons_self] at hcount
    cases crossed with
    | true => simp at hcount
    | false => exact ih (by simpa using hcount)

theorem destination_of_reaches {limits : Limits} {schema node : Schema} {path : List Step}
    (h : schema.Reaches path node) (hcount : path.count .item ≤ 1)
    (hlength : path.length ≤ limits.maxPathLength) :
    destination limits path schema = .ok node := by
  rw [destination, if_neg (Nat.not_lt.mpr hlength)]
  exact route_of_reaches h hcount

end Query

open Query (Kind)

/-! ## Evaluation -/

/-- An outcome holds values that stand where a kind is expected, and NaN is from the record. -/
def Outcome.Covered (data : Value) (k : Kind) (o : Outcome) : Prop :=
  ∀ v ∈ o.values, k.Covers v ∧ (data.nanFree = true → v = .null ∨ Kind.ofValue v = k)

/-- The one thing that goes wrong in well-typed queries: NaN in the record reaches an ordering. -/
def Query.OrdersNaN (data : Value) (e : Query.Error) : Prop :=
  data.nanFree = false ∧ ∃ c left right, e = .typeMismatch (.notOrdered c left right)

section

variable {limits : Limits} {data : Value} {schema : Schema} {a b : Kind} {l r : Outcome}

theorem Outcome.covered_ofBool (b : Bool) : Covered data .boolean (ofBool b) := by
  intro v hv
  cases List.mem_singleton.mp hv
  exact ⟨Or.inr (Or.inl rfl), fun _ => Or.inr rfl⟩

/-- A value without NaN that stands where a kind is expected is null or of that kind. -/
theorem Query.Kind.Covers.of_nanFree {v : Value} (h : a.Covers v) (hv : v.nanFree = true) :
    v = .null ∨ ofValue v = a := by
  rcases h with h | h | ⟨_, h⟩
  · exact Or.inl h
  · exact Or.inr h
  · exact absurd h (Value.ofValue_ne_nan hv)

theorem Query.resolvePath_covered {path : List Step} {node : Schema} (h : schema.Conforms data)
    (hnode : destination limits path schema = .ok node) :
    ∃ o, resolvePath limits path data schema = .ok o ∧ o.Covered data (.ofSchema node) := by
  obtain ⟨o, ho, hfits⟩ := (resolvePath_of_conforms h).2 node hnode
  refine ⟨o, ho, fun v hv => ⟨(hfits v hv).covers, fun hnan => ?_⟩⟩
  have hmem : v ∈ targets path data := (resolvePath_eq_ok ho).1 ▸ hv
  exact (hfits v hv).covers.of_nanFree (Value.allFloats_of_mem_targets hnan v hmem)

/-- A path of properties ends at one value, which fits the node where the schema leads. -/
theorem Query.resolvePath_properties {path : List Step} {node : Schema} (h : schema.Conforms data)
    (hpath : .item ∉ path) (hnode : schema.Reaches path node)
    (hlength : path.length ≤ limits.maxPathLength) :
    ∃ v, resolvePath limits path data schema = .ok (.scalar v) ∧ node.Fits v := by
  have hcount : path.count .item ≤ 1 := by
    rw [List.count_eq_zero.mpr hpath]
    exact Nat.zero_le 1
  have hdestination := destination_of_reaches hnode hcount hlength
  obtain ⟨o, ho, hfits⟩ := (resolvePath_of_conforms h).2 node hdestination
  cases o with
  | scalar v => exact ⟨v, ho, hfits v (List.mem_singleton_self v)⟩
  | broadcast vs => exact absurd ((resolvePath_eq_ok ho).2.mp rfl) hpath

/-- Operators do not fail on pairs of the kinds they admit. -/
theorem BinaryOp.Admits.anyPair {op : BinaryOp} (h : op.Admits a b) (hl : l.Covered data a)
    (hr : r.Covered data b) : (∃ found, l.anyPair op.apply r = .ok found) ∨
      ∃ e, l.anyPair op.apply r = .error e ∧ Query.OrdersNaN data e := by
  cases hpair : l.anyPair op.apply r with
  | ok found => exact Or.inl ⟨found, rfl⟩
  | error e =>
    refine Or.inr ⟨e, rfl, ?_⟩
    obtain ⟨v, hv, w, hw, happly⟩ := Outcome.anyPair_eq_error hpair
    rcases h.of_covers (hl v hv).1 (hr w hw).1 with hadmits | ⟨hnan, c, rfl, hc⟩
    · obtain ⟨found, hfound⟩ := exists_apply_eq_ok_iff.mpr hadmits
      rw [happly] at hfound
      cases hfound
    · constructor
      · refine Bool.eq_false_iff.mpr fun hfree => ?_
        rcases hnan with ⟨rfl, hnan⟩ | ⟨rfl, hnan⟩
        · rcases (hl v hv).2 hfree with rfl | h <;> simp_all
        · rcases (hr w hw).2 hfree with rfl | h <;> simp_all
      · exact ⟨c, _, _, compare_apply_eq_error (apply_compare hc ▸ happly)⟩

namespace Query

variable {q : Query} {k : Kind}

theorem evaluateWithin_of_hasKind {room : Nat} (h : HasKind schema q k)
    (hdata : schema.Conforms data) (hroom : q.depth ≤ room)
    (hpaths : ∀ path ∈ q.paths, path.length ≤ limits.maxPathLength) :
    (∃ o, evaluateWithin limits data schema room q = .ok o ∧ o.Covered data k) ∨
      ∃ e, evaluateWithin limits data schema room q = .error e ∧ OrdersNaN data e := by
  induction h generalizing room with
  | literal v =>
    cases room with
    | zero => cases hroom
    | succ room =>
      refine Or.inl ⟨.scalar v, rfl, fun w hw => ?_⟩
      cases List.mem_singleton.mp hw
      exact ⟨Or.inr (Or.inl rfl), fun _ => Or.inr rfl⟩
  | not typed ih =>
    cases room with
    | zero => cases hroom
    | succ room =>
      rcases ih (Nat.le_of_succ_le_succ hroom) hpaths with ⟨o, ho, _⟩ | ⟨e, he, hnan⟩
      · exact Or.inl ⟨_, bind_eq_ok.mpr ⟨o, ho, rfl⟩, Outcome.covered_ofBool _⟩
      · exact Or.inr ⟨e, bind_eq_error.mpr (Or.inl he), hnan⟩
  | binary typedLeft typedRight admits ihl ihr =>
    cases room with
    | zero => cases hroom
    | succ room =>
      have hdepth := Nat.max_le.mp (Nat.le_of_succ_le_succ hroom)
      obtain ⟨hpl, hpr⟩ := List.forall_mem_append.mp hpaths
      rcases ihl hdepth.1 hpl with ⟨l, hl, hlk⟩ | ⟨e, he, hnan⟩
      · rcases ihr hdepth.2 hpr with ⟨r, hr, hrk⟩ | ⟨e, he, hnan⟩
        · rw [evaluateWithin_binary hl hr]
          rcases admits.anyPair hlk hrk with ⟨found, hb⟩ | ⟨e, he, hnan⟩
          · rw [hb]
            exact Or.inl ⟨_, rfl, Outcome.covered_ofBool found⟩
          · rw [he]
            exact Or.inr ⟨e, rfl, hnan⟩
        · exact Or.inr ⟨e, bind_eq_error.mpr (Or.inr ⟨l, hl, bind_eq_error.mpr (Or.inl he)⟩), hnan⟩
      · exact Or.inr ⟨e, bind_eq_error.mpr (Or.inl he), hnan⟩
  | resolve reaches once =>
    cases room with
    | zero => cases hroom
    | succ room =>
      have hlength := hpaths _ (List.mem_singleton_self _)
      exact Or.inl (resolvePath_covered hdata (destination_of_reaches reaches once hlength))

/-- On an accepted record without NaN the values of an outcome are of one kind, next to nulls. -/
theorem exists_kind_of_evaluateWithin {room : Nat} {o : Outcome} (hdata : schema.Conforms data)
    (hfree : data.nanFree = true) (h : evaluateWithin limits data schema room q = .ok o) :
    ∃ k, ∀ v ∈ o.values, v = .null ∨ Kind.ofValue v = k := by
  cases room with
  | zero => cases h
  | succ room =>
    cases q with
    | literal v =>
      cases h
      exact ⟨.ofValue v, fun w hw => Or.inr (congrArg _ (List.mem_singleton.mp hw))⟩
    | not operand =>
      obtain ⟨b, rfl⟩ := (evaluateWithin_shape h).1 .not rfl nofun
      exact ⟨.boolean, fun v hv => Or.inr (congrArg Kind.ofValue (List.mem_singleton.mp hv))⟩
    | binary op left right =>
      obtain ⟨b, rfl⟩ := (evaluateWithin_shape h).1 (.binary op) rfl nofun
      exact ⟨.boolean, fun v hv => Or.inr (congrArg Kind.ofValue (List.mem_singleton.mp hv))⟩
    | resolve path =>
      cases hnode : destination limits path schema with
      | error e => cases h.symm.trans ((resolvePath_of_conforms hdata).1 e hnode)
      | ok node =>
        obtain ⟨o', ho', hk⟩ := resolvePath_covered hdata hnode
        cases h.symm.trans ho'
        exact ⟨.ofSchema node, fun v hv => (hk v hv).2 hfree⟩

/-- **Well-typed queries do not go wrong.** Within the limits, and on a record that is accepted, a
well-typed query yields values of its kind, next to nulls. The one error there is comes from NaN in
the record. -/
theorem evaluate_of_hasKind (h : HasKind schema q k) (hdepth : q.depth ≤ limits.maxDepth)
    (hpaths : ∀ path ∈ q.paths, path.length ≤ limits.maxPathLength)
    (haccepted : Schema.structural data schema = .ok ()) :
    (data.nanFree = true → ∃ o, q.evaluate limits data schema = .ok o ∧
      (∀ v ∈ o.values, v = .null ∨ Kind.ofValue v = k) ∧
      q.holds Schema.structural limits data schema = .ok o.anyTrue) ∧
    ∀ e, q.evaluate limits data schema = .error e →
      data.nanFree = false ∧ ∃ c left right, e = .typeMismatch (.notOrdered c left right) := by
  have hdata := Schema.structural_eq_ok_iff.mp haccepted
  rcases evaluateWithin_of_hasKind h hdata hdepth hpaths with ⟨o, ho, hk⟩ | ⟨e, he, hnan⟩
  · refine ⟨fun hfree => ⟨o, ho, fun v hv => (hk v hv).2 hfree, ?_⟩, fun e he => ?_⟩
    · rw [holds_of_accepted haccepted]
      exact congrArg (Except.map Outcome.anyTrue) ho
    · cases ho.symm.trans he
  · refine ⟨fun hfree => ?_, fun e' he' => ?_⟩
    · rw [hnan.1] at hfree
      cases hfree
    · cases he.symm.trans he'
      exact hnan

/-- An ordering over a broadcast with an absent value is well typed and has an outcome. -/
theorem evaluate_of_hasKind_prices :
    let data : Value := .object (.ofList [("items", .array
      [.object .nil, .object (.ofList [("price", .integer 3)])])])
    let schema : Schema := .object [("items", .array (.object [("price", .scalar .number)] []))] []
    let q : Query := .binary (.compare .gt)
      (.resolve [.property "items", .item, .property "price"]) (.literal (.integer 1))
    HasKind schema q .boolean ∧ Schema.structural data schema = .ok () ∧ data.nanFree = true ∧
      ∃ o, q.evaluate {} data schema = .ok o := by
  intro data schema q
  have hk : HasKind schema q .boolean :=
    .binary (.resolve (.property rfl (.item (.property rfl .here))) (by decide)) (.literal _)
      (Or.inr (Or.inr ⟨rfl, Or.inl rfl⟩))
  have haccepted : Schema.structural data schema = .ok () := rfl
  have hpaths : ∀ path ∈ q.paths, path.length ≤ ({} : Limits).maxPathLength := by decide
  obtain ⟨o, ho, _⟩ := (evaluate_of_hasKind hk (by decide) hpaths haccepted).1 rfl
  exact ⟨hk, haccepted, rfl, o, ho⟩

end Query

end

end RecordQuery
