import RecordQuery.Proofs.Pairs
import RecordQuery.Proofs.Replacement
import RecordQuery.Proofs.Typing

/-!
The order of the items of an array. A broadcast over a record that is accepted says the same in
every order, with one exception: an `or` call whose operands hold both a pair it relates and a pair
it refuses stops at the one it comes to first. The order matters for a query or one of its parts
exactly when such a call wavers, that is when some item in front lets it succeed and another one
lets it fail (`holds_replaceAt_iff`).
-/

namespace RecordQuery

open Query

/-! ## Decisions that agree -/

inductive Query.Error.Variant where
  | invalidData
  | malformed
  | unknownOperator
  | unknownProperty
  | arrayAccess
  | intoScalar
  | typeMismatch
  | tooComplex
  deriving DecidableEq

def Query.Error.variant : Query.Error → Variant
  | .invalidData _ => .invalidData
  | .malformed _ => .malformed
  | .unknownOperator _ => .unknownOperator
  | .unknownProperty _ => .unknownProperty
  | .arrayAccess _ => .arrayAccess
  | .intoScalar _ => .intoScalar
  | .typeMismatch _ => .typeMismatch
  | .tooComplex _ => .tooComplex

namespace Query

/-- The same boolean, or errors of one variant. -/
def Agree : Except Error Bool → Except Error Bool → Prop
  | .ok a, .ok b => a = b
  | .error e, .error f => e.variant = f.variant
  | _, _ => False

/-- The paths of a query go on to the items of the array at the end of a chain of properties, or
they do not select a value that holds this array. -/
def TakesItems (p : List String) (q : Query) : Prop :=
  ∀ path ∈ q.paths, along p ++ [.item] <+: path ∨ ¬ path <+: along p

/-- How a path goes on from the items of an array. -/
def below? (p : List String) : Query → Option (List Step)
  | .resolve path => path.dropPrefix? (along p ++ [.item])
  | _ => none

/-- The values of an outcome when an array holds the given items. -/
def spread (p : List String) (items : List Value) (q : Query) (o : Outcome) : List Value :=
  match q.below? p with
  | some rest => items.flatMap (targets rest)
  | none => o.values

/-- With an item in front of the array, `or` comes to a pair that it relates before one that it
refuses. -/
def Favors (p : List String) (left right : Query) (l r : Outcome) (item : Value) : Prop :=
  ∃ v ∈ (left.spread p [item] l).head?, ∃ w ∈ (right.spread p [item] r).head?,
    BinaryOp.Prevails v w r.values

/-- Whether an `or` call succeeds depends on the item in front of the array. -/
def Wavers (limits : Limits) (data : Value) (schema : Schema) (p : List String)
    (items : List Value) (left right : Query) : Prop :=
  ∃ l r, evaluateWithin limits data schema (limits.maxDepth - 1) left = .ok l ∧
    evaluateWithin limits data schema (limits.maxDepth - 1) right = .ok r ∧ l.Mixed r ∧
    (∃ e ∈ items, Favors p left right l r e) ∧ ∃ e ∈ items, ¬ Favors p left right l r e

/-! ## Outcomes in another order -/

variable {limits : Limits} {data : Value} {schema : Schema} {p : List String}
  {es es' items : List Value} {q : Query} {o o' : Outcome} {room : Nat}

theorem below?_eq_some_iff {rest : List Step} :
    q.below? p = some rest ↔ q = .resolve (along p ++ .item :: rest) := by
  cases q with
  | resolve path =>
    rw [below?, List.dropPrefix?_eq_some_iff]
    constructor
    · rintro ⟨p', rfl, h⟩
      rw [eq_of_beq h, List.append_assoc]
      rfl
    · intro h
      cases h
      exact ⟨_, (List.append_assoc (along p) [.item] rest).symm, beq_self_eq_true _⟩
  | literal | not | binary => simp [below?]

theorem spread_perm (h : es'.Perm es) : (q.spread p es' o).Perm (q.spread p es o) := by
  unfold spread
  split
  · exact h.flatMap_right _
  · exact List.Perm.refl _

theorem anyTrue_of_perm (h : o'.values.Perm o.values) : o'.anyTrue = o.anyTrue := by
  rw [Bool.eq_iff_iff, anyTrue_iff (Multiset.coe_eq_coe.mpr h), anyTrue_iff rfl]

/-- The item in front decides which value comes first. -/
theorem head?_spread {e : Value} (hdata : schema.Conforms data)
    (hat : data.at? p = some (.array es))
    (h : evaluateWithin limits data schema room q = .ok o) (he : e ∈ es) :
    (q.spread p (e :: items) o).head? = (q.spread p [e] o).head? := by
  unfold spread
  cases hbelow : q.below? p with
  | none => rfl
  | some rest =>
    cases room with
    | zero => cases h
    | succ room =>
      obtain rfl := below?_eq_some_iff.mp hbelow
      obtain ⟨w, hw⟩ := targets_item_of_resolvePath hdata hat h e he
      simp only [List.flatMap_cons, hw]
      rfl

theorem values_eq_spread (hat : data.at? p = some (.array es))
    (h : evaluateWithin limits data schema room q = .ok o) : o.values = q.spread p es o := by
  unfold spread
  cases hbelow : q.below? p with
  | none => rfl
  | some rest =>
    cases room with
    | zero => cases h
    | succ room =>
      obtain rfl := below?_eq_some_iff.mp hbelow
      exact (resolvePath_eq_ok h).1.trans (targets_append_item hat)

theorem perm_of_spread (hat : data.at? p = some (.array es)) (hperm : es'.Perm es)
    (h : evaluateWithin limits data schema room q = .ok o) (h' : o'.values = q.spread p es' o) :
    o'.values.Perm o.values := by
  rw [h', values_eq_spread hat h]
  exact spread_perm hperm

/-- A path that goes on to the items of the array or leads elsewhere fails with the same error in
another order, or its values are spread as the items are. -/
theorem resolvePath_replaceAt {path : List Step} (hdata : schema.Conforms data)
    (hat : data.at? p = some (.array es)) (hperm : es'.Perm es)
    (hpath : along p ++ [.item] <+: path ∨ ¬ path <+: along p) :
    (∃ o o', resolvePath limits path data schema = .ok o ∧
      resolvePath limits path (data.replaceAt p (.array es')) schema = .ok o' ∧
      o'.values = (resolve path).spread p es' o) ∨
    ∃ e, resolvePath limits path data schema = .error e ∧
      resolvePath limits path (data.replaceAt p (.array es')) schema = .error e := by
  have hdata' := hdata.replaceAt hat fun v hv => hperm.mem_iff.mp hv
  cases hnode : destination limits path schema with
  | error e =>
    exact Or.inr ⟨e, (resolvePath_of_conforms hdata).1 e hnode,
      (resolvePath_of_conforms hdata').1 e hnode⟩
  | ok node =>
    obtain ⟨o, ho, _⟩ := (resolvePath_of_conforms hdata).2 node hnode
    obtain ⟨o', ho', _⟩ := (resolvePath_of_conforms hdata').2 node hnode
    refine Or.inl ⟨o, o', ho, ho', ?_⟩
    rw [(resolvePath_eq_ok ho').1]
    by_cases hbelow : along p ++ [.item] <+: path
    · obtain ⟨rest, rfl⟩ := hbelow
      have hsome : (resolve (along p ++ [.item] ++ rest)).below? p = some rest :=
        below?_eq_some_iff.mpr (congrArg resolve (List.append_assoc ..))
      rw [spread, hsome, List.append_assoc]
      exact targets_append_item (Value.at?_replaceAt hat)
    · have hnone : (resolve path).below? p = none := by
        rw [Option.eq_none_iff_forall_ne_some]
        intro rest hrest
        cases below?_eq_some_iff.mp hrest
        exact hbelow ⟨rest, List.append_assoc ..⟩
      rw [spread, hnone, (resolvePath_eq_ok ho).1]
      exact targets_replaceAt hat hbelow (hpath.resolve_left hbelow)

theorem structural_replaceAt (hdata : schema.Conforms data)
    (hat : data.at? p = some (.array es)) (hperm : es'.Perm es) :
    Schema.structural (data.replaceAt p (.array es')) schema = .ok () :=
  Schema.structural_eq_ok_iff.mpr (hdata.replaceAt hat fun _ hv => hperm.mem_iff.mp hv)

/-! ## Calls in another order -/

section Record

variable (hdata : schema.Conforms data) (hfree : data.nanFree = true)
  (hat : data.at? p = some (.array es))

include hdata hfree hat

section Calls

variable {op : BinaryOp} {left right : Query} {l r l' r' : Outcome}

/-- With an item in front a mixed `or` call is true or fails, as the item favors it or not. -/
theorem anyPair_or_of_item {e : Value}
    (hl : evaluateWithin limits data schema room left = .ok l)
    (hr : evaluateWithin limits data schema room right = .ok r) (hmixed : l.Mixed r)
    (hitems : (e :: items).Perm es) (hl' : l'.values = left.spread p (e :: items) l)
    (hr' : r'.values = right.spread p (e :: items) r) :
    (Favors p left right l r e → l'.anyPair BinaryOp.or.apply r' = .ok true) ∧
      (¬ Favors p left right l r e →
        ∃ cause, l'.anyPair BinaryOp.or.apply r' = .error (.typeMismatch cause)) := by
  have he : e ∈ es := hitems.mem_iff.mp (List.mem_cons_self ..)
  have hpl := perm_of_spread hat hitems hl hl'
  have hpr := perm_of_spread hat hitems hr hr'
  obtain ⟨a, hla⟩ := exists_kind_of_evaluateWithin hdata hfree hl
  obtain ⟨b, hrb⟩ := exists_kind_of_evaluateWithin hdata hfree hr
  have hmixed' : l'.Mixed r' := by
    simpa only [Outcome.Mixed, hpl.mem_iff, hpr.mem_iff] using hmixed
  simp only [← hpl.mem_iff, ← hpr.mem_iff] at hla hrb
  obtain ⟨v, hv, w, hw, hok, herror⟩ := Outcome.anyPair_or_of_front hla hrb hmixed'
  rw [hl', head?_spread hdata hat hl he] at hv
  rw [hr', head?_spread hdata hat hr he] at hw
  simp only [BinaryOp.Prevails, hpr.mem_iff] at hok herror
  constructor
  · rintro ⟨v', hv', w', hw', h⟩
    cases Option.mem_unique hv hv'
    cases Option.mem_unique hw hw'
    exact hok h
  · intro h
    exact herror fun hprevails => h ⟨v, hv, w, hw, hprevails⟩

/-- A mixed `or` call ends in the same way in another order, unless it wavers. -/
theorem anyPair_or_replaceAt (hperm : es'.Perm es)
    (hl : evaluateWithin limits data schema (limits.maxDepth - 1) left = .ok l)
    (hr : evaluateWithin limits data schema (limits.maxDepth - 1) right = .ok r)
    (hl' : l'.values = left.spread p es' l) (hr' : r'.values = right.spread p es' r)
    (hmixed : l.Mixed r) (hsteady : ¬ Wavers limits data schema p es left right) :
    (l.anyPair BinaryOp.or.apply r = .ok true ∧ l'.anyPair BinaryOp.or.apply r' = .ok true) ∨
      ∃ cause cause', l.anyPair BinaryOp.or.apply r = .error (.typeMismatch cause) ∧
        l'.anyPair BinaryOp.or.apply r' = .error (.typeMismatch cause') := by
  have hlh := values_eq_spread hat hl
  have hrh := values_eq_spread hat hr
  cases es with
  | nil =>
    -- without items nothing changes
    obtain rfl := hperm.eq_nil
    obtain ⟨a, hla⟩ := exists_kind_of_evaluateWithin hdata hfree hl
    obtain ⟨b, hrb⟩ := exists_kind_of_evaluateWithin hdata hfree hr
    obtain ⟨v, _, w, _, hok, herror⟩ := Outcome.anyPair_or_of_front hla hrb hmixed
    have hsame : l'.anyPair BinaryOp.or.apply r' = l.anyPair BinaryOp.or.apply r := by
      simp only [Outcome.anyPair, hl', hr', ← hlh, ← hrh]
    rw [hsame]
    by_cases h : BinaryOp.Prevails v w r.values
    · exact Or.inl ⟨hok h, hok h⟩
    · obtain ⟨cause, h⟩ := herror h
      exact Or.inr ⟨cause, cause, h, h⟩
  | cons e t =>
    cases es' with
    | nil => cases hperm.symm.eq_nil
    | cons e' t' =>
      obtain ⟨hok, herror⟩ := anyPair_or_of_item hdata hfree hat hl hr hmixed (.refl _) hlh hrh
      obtain ⟨hok', herror'⟩ := anyPair_or_of_item hdata hfree hat hl hr hmixed hperm hl' hr'
      have he : e ∈ e :: t := List.mem_cons_self ..
      have he' : e' ∈ e :: t := hperm.mem_iff.mp (List.mem_cons_self ..)
      by_cases h : Favors p left right l r e
      · by_cases h' : Favors p left right l r e'
        · exact Or.inl ⟨hok h, hok' h'⟩
        · exact absurd ⟨l, r, hl, hr, hmixed, ⟨e, he, h⟩, e', he', h'⟩ hsteady
      · by_cases h' : Favors p left right l r e'
        · exact absurd ⟨l, r, hl, hr, hmixed, ⟨e', he', h'⟩, e, he, h⟩ hsteady
        · obtain ⟨cause, h⟩ := herror h
          obtain ⟨cause', h'⟩ := herror' h'
          exact Or.inr ⟨cause, cause', h, h'⟩

/-- One call ends in the same way in another order, unless it is an `or` that wavers. -/
theorem anyPair_replaceAt (hperm : es'.Perm es)
    (hl : evaluateWithin limits data schema (limits.maxDepth - 1) left = .ok l)
    (hr : evaluateWithin limits data schema (limits.maxDepth - 1) right = .ok r)
    (hl' : l'.values = left.spread p es' l) (hr' : r'.values = right.spread p es' r)
    (hsteady : op = .or → ¬ Wavers limits data schema p es left right) :
    (∃ found, l.anyPair op.apply r = .ok found ∧ l'.anyPair op.apply r' = .ok found) ∨
      ∃ cause cause', l.anyPair op.apply r = .error (.typeMismatch cause) ∧
        l'.anyPair op.apply r' = .error (.typeMismatch cause') := by
  have hpl := perm_of_spread hat hperm hl hl'
  have hpr := perm_of_spread hat hperm hr hr'
  by_cases hrefused : ∃ v ∈ l.values, ∃ w ∈ r.values, ¬ op.Admits (.ofValue v) (.ofValue w)
  · by_cases hrelates : ∃ v ∈ l.values, ∃ w ∈ r.values, op.Relates v w
    · have hor : op = .or := by
        by_contra hor
        obtain ⟨a, hla⟩ := exists_kind_of_evaluateWithin hdata hfree hl
        obtain ⟨b, hrb⟩ := exists_kind_of_evaluateWithin hdata hfree hr
        obtain ⟨v, hv, w, hw, h⟩ := hrelates
        obtain ⟨v', hv', w', hw', hadmits⟩ := hrefused
        exact hadmits (h.admits hor (hla v hv) (hrb w hw) (hla v' hv') (hrb w' hw'))
      subst hor
      simp only [BinaryOp.admits_or_iff] at hrefused
      rcases anyPair_or_replaceAt hdata hfree hat hperm hl hr hl' hr' ⟨hrelates, hrefused⟩
        (hsteady rfl) with h | h
      · exact Or.inl ⟨true, h⟩
      · exact Or.inr h
    · obtain ⟨cause, h⟩ := Outcome.anyPair_of_not_relates hrefused hrelates
      simp only [← hpl.mem_iff, ← hpr.mem_iff] at hrefused hrelates
      obtain ⟨cause', h'⟩ := Outcome.anyPair_of_not_relates hrefused hrelates
      exact Or.inr ⟨cause, cause', h, h'⟩
  · have hadmits : ∀ v ∈ l.values, ∀ w ∈ r.values, op.Admits (.ofValue v) (.ofValue w) := by
      simpa using hrefused
    obtain ⟨found, h, hfound⟩ := Outcome.anyPair_of_admits hadmits
    simp only [← hpl.mem_iff, ← hpr.mem_iff] at hadmits hfound
    obtain ⟨found', h', hfound'⟩ := Outcome.anyPair_of_admits hadmits
    obtain rfl : found = found' := Bool.eq_iff_iff.mpr (hfound.trans hfound'.symm)
    exact Or.inl ⟨found, h, h'⟩

end Calls

/-! ## The law and its exception -/

/-- A query without a wavering `or` ends in the same way in another order: with values that are
spread as the items are, or with an error of the same variant. -/
theorem evaluateWithin_replaceAt (hperm : es'.Perm es) (htakes : q.TakesItems p)
    (hsteady : ∀ left right, .binary .or left right ∈ q.parts →
      ¬ Wavers limits data schema p es left right) (hroom : room ≤ limits.maxDepth) :
    (∃ o o', evaluateWithin limits data schema room q = .ok o ∧
      evaluateWithin limits (data.replaceAt p (.array es')) schema room q = .ok o' ∧
      o'.values = q.spread p es' o) ∨
    ∃ e f, evaluateWithin limits data schema room q = .error e ∧
      evaluateWithin limits (data.replaceAt p (.array es')) schema room q = .error f ∧
      e.variant = f.variant := by
  induction q generalizing room with
  | literal v =>
    cases room with
    | zero => exact Or.inr ⟨_, _, rfl, rfl, rfl⟩
    | succ room => exact Or.inl ⟨.scalar v, .scalar v, rfl, rfl, rfl⟩
  | not operand ih =>
    cases room with
    | zero => exact Or.inr ⟨_, _, rfl, rfl, rfl⟩
    | succ room =>
      have hin : ∀ left right, binary .or left right ∈ operand.parts →
          ¬ Wavers limits data schema p es left right :=
        fun left right h => hsteady left right (List.mem_cons_of_mem _ h)
      rcases ih htakes hin (Nat.le_of_succ_le hroom) with
        ⟨o, o', ho, ho', hspread⟩ | ⟨e, f, he, hf, hsame⟩
      · refine Or.inl ⟨_, _, bind_eq_ok.mpr ⟨o, ho, rfl⟩, bind_eq_ok.mpr ⟨o', ho', rfl⟩, ?_⟩
        rw [anyTrue_of_perm (perm_of_spread hat hperm ho hspread)]
        rfl
      · exact Or.inr ⟨e, f, bind_eq_error.mpr (Or.inl he), bind_eq_error.mpr (Or.inl hf), hsame⟩
  | binary op left right ihl ihr =>
    cases room with
    | zero => exact Or.inr ⟨_, _, rfl, rfl, rfl⟩
    | succ room =>
      have hless : room ≤ limits.maxDepth - 1 := Nat.le_sub_one_of_lt hroom
      obtain ⟨htl, htr⟩ := List.forall_mem_append.mp htakes
      have hinl := fun a b h =>
        hsteady a b (List.mem_cons_of_mem _ (List.mem_append_left right.parts h))
      have hinr := fun a b h =>
        hsteady a b (List.mem_cons_of_mem _ (List.mem_append_right left.parts h))
      rcases ihl htl hinl (Nat.le_of_succ_le hroom) with
        ⟨l, l', hl, hl', hls⟩ | ⟨e, f, he, hf, hsame⟩
      · rcases ihr htr hinr (Nat.le_of_succ_le hroom) with
          ⟨r, r', hr, hr', hrs⟩ | ⟨e, f, he, hf, hsame⟩
        · rw [evaluateWithin_binary hl hr, evaluateWithin_binary hl' hr']
          have hor : op = .or → ¬ Wavers limits data schema p es left right :=
            fun h => hsteady left right (h ▸ List.mem_cons_self ..)
          rcases anyPair_replaceAt hdata hfree hat hperm (evaluateWithin_mono hless hl)
            (evaluateWithin_mono hless hr) hls hrs hor with
            ⟨found, h, h'⟩ | ⟨cause, cause', h, h'⟩
          · rw [h, h']
            exact Or.inl ⟨_, _, rfl, rfl, rfl⟩
          · rw [h, h']
            exact Or.inr ⟨_, _, rfl, rfl, rfl⟩
        · exact Or.inr ⟨e, f, bind_eq_error.mpr (Or.inr ⟨l, hl, bind_eq_error.mpr (Or.inl he)⟩),
            bind_eq_error.mpr (Or.inr ⟨l', hl', bind_eq_error.mpr (Or.inl hf)⟩), hsame⟩
      · exact Or.inr ⟨e, f, bind_eq_error.mpr (Or.inl he), bind_eq_error.mpr (Or.inl hf), hsame⟩
  | resolve path =>
    cases room with
    | zero => exact Or.inr ⟨_, _, rfl, rfl, rfl⟩
    | succ room =>
      rcases resolvePath_replaceAt hdata hat hperm (htakes path (List.mem_singleton_self _)) with
        h | ⟨e, he, he'⟩
      · exact Or.inl h
      · exact Or.inr ⟨e, e, he, he', rfl⟩

/-- Queries without a wavering `or` are decided alike in another order. -/
theorem agree_of_steady (hperm : es'.Perm es) (htakes : q.TakesItems p)
    (hsteady : ∀ left right, .binary .or left right ∈ q.parts →
      ¬ Wavers limits data schema p es left right) :
    Agree (q.holds Schema.structural limits data schema)
      (q.holds Schema.structural limits (data.replaceAt p (.array es')) schema) := by
  rw [holds_of_accepted (Schema.structural_eq_ok_iff.mpr hdata),
    holds_of_accepted (structural_replaceAt hdata hat hperm), evaluate, evaluate]
  rcases evaluateWithin_replaceAt hdata hfree hat hperm htakes hsteady (Nat.le_refl _) with
    ⟨o, o', ho, ho', hspread⟩ | ⟨e, f, he, hf, hsame⟩
  · rw [ho, ho']
    exact (anyTrue_of_perm (perm_of_spread hat hperm ho hspread)).symm
  · rw [he, hf]
    exact hsame

/-- With an item brought to the front of the array a mixed `or` call is decided by whether the item
favors it, when the order does not matter within its operands. -/
theorem holds_or_of_item {left right : Query} {l r : Outcome} {e : Value}
    (htl : left.TakesItems p) (htr : right.TakesItems p)
    (hinl : ∀ a b, .binary .or a b ∈ left.parts → ¬ Wavers limits data schema p es a b)
    (hinr : ∀ a b, .binary .or a b ∈ right.parts → ¬ Wavers limits data schema p es a b)
    (hl : evaluateWithin limits data schema (limits.maxDepth - 1) left = .ok l)
    (hr : evaluateWithin limits data schema (limits.maxDepth - 1) right = .ok r)
    (hmixed : l.Mixed r) (he : e ∈ es) :
    ∃ items, items.Perm es ∧
      (Favors p left right l r e → (binary .or left right).holds Schema.structural limits
        (data.replaceAt p (.array items)) schema = .ok true) ∧
      (¬ Favors p left right l r e → ∃ error, (binary .or left right).holds Schema.structural
        limits (data.replaceAt p (.array items)) schema = .error error) := by
  obtain ⟨before, after, rfl⟩ := List.append_of_mem he
  have hperm : (e :: (before ++ after)).Perm (before ++ e :: after) := List.perm_middle.symm
  refine ⟨_, hperm, ?_⟩
  cases hmax : limits.maxDepth with
  | zero =>
    rw [hmax] at hl
    cases hl
  | succ room =>
    have hle : limits.maxDepth - 1 ≤ limits.maxDepth := Nat.sub_le ..
    rcases evaluateWithin_replaceAt hdata hfree hat hperm htl hinl hle with
      ⟨_, l', h, hl', hls⟩ | ⟨_, _, h, _⟩
    · cases hl.symm.trans h
      rcases evaluateWithin_replaceAt hdata hfree hat hperm htr hinr hle with
        ⟨_, r', h, hr', hrs⟩ | ⟨_, _, h, _⟩
      · cases hr.symm.trans h
        obtain ⟨hok, herror⟩ := anyPair_or_of_item hdata hfree hat hl hr hmixed hperm hls hrs
        rw [holds_of_accepted (structural_replaceAt hdata hat hperm), evaluate, hmax]
        rw [hmax, Nat.add_sub_cancel] at hl' hr'
        rw [evaluateWithin_binary hl' hr']
        constructor
        · intro h
          rw [hok h]
          rfl
        · intro h
          obtain ⟨cause, h⟩ := herror h
          rw [h]
          exact ⟨_, rfl⟩
      · cases hr.symm.trans h
    · cases hl.symm.trans h

/-- Where the law holds for a query and all its parts no `or` wavers. -/
theorem steady_of_agree (htakes : q.TakesItems p)
    (hagree : ∀ s ∈ q.parts, ∀ items : List Value, items.Perm es →
      Agree (s.holds Schema.structural limits data schema)
        (s.holds Schema.structural limits (data.replaceAt p (.array items)) schema)) :
    ∀ left right, .binary .or left right ∈ q.parts →
      ¬ Wavers limits data schema p es left right := by
  induction q with
  | literal v | resolve path =>
    intro left right h
    cases List.mem_singleton.mp h
  | not operand ih =>
    intro left right h
    rcases List.mem_cons.mp h with h | h
    · cases h
    · exact ih htakes (fun s hs => hagree s (List.mem_cons_of_mem _ hs)) left right h
  | binary op a b iha ihb =>
    obtain ⟨hta, htb⟩ := List.forall_mem_append.mp htakes
    have hina := iha hta fun s hs =>
      hagree s (List.mem_cons_of_mem _ (List.mem_append_left b.parts hs))
    have hinb := ihb htb fun s hs =>
      hagree s (List.mem_cons_of_mem _ (List.mem_append_right a.parts hs))
    intro left right h
    rcases List.mem_cons.mp h with h | h
    · cases h
      rintro ⟨l, r, hl, hr, hmixed, ⟨e, he, hfavors⟩, e', he', hfails⟩
      -- one order lets the call succeed and another one lets it fail, and the law ties both to the
      -- record as it is
      obtain ⟨items, hitems, hok, _⟩ :=
        holds_or_of_item hdata hfree hat hta htb hina hinb hl hr hmixed he
      obtain ⟨items', hitems', _, herror⟩ :=
        holds_or_of_item hdata hfree hat hta htb hina hinb hl hr hmixed he'
      obtain ⟨error, herror⟩ := herror hfails
      have hthis := hagree _ (List.mem_cons_self ..) items hitems
      have hother := hagree _ (List.mem_cons_self ..) items' hitems'
      rw [hok hfavors] at hthis
      rw [herror] at hother
      cases hholds : (binary .or a b).holds Schema.structural limits data schema with
      | ok found =>
        rw [hholds] at hother
        exact hother
      | error _ =>
        rw [hholds] at hthis
        exact hthis
    · rcases List.mem_append.mp h with h | h
      · exact hina left right h
      · exact hinb left right h

end Record

/-- **The order of an array.** On an accepted record without NaN, the decisions of a query and of
all its parts are the same in every order of an array exactly when no `or` among the parts wavers;
the query looks at the array only through its items. -/
theorem holds_replaceAt_iff (haccepted : Schema.structural data schema = .ok ())
    (hfree : data.nanFree = true) (hat : data.at? p = some (.array es))
    (htakes : q.TakesItems p) :
    (∀ s ∈ q.parts, ∀ items : List Value, items.Perm es →
      Agree (s.holds Schema.structural limits data schema)
        (s.holds Schema.structural limits (data.replaceAt p (.array items)) schema)) ↔
    ∀ left right, .binary .or left right ∈ q.parts →
      ¬ Wavers limits data schema p es left right := by
  have hdata := Schema.structural_eq_ok_iff.mp haccepted
  constructor
  · exact steady_of_agree hdata hfree hat htakes
  · intro hsteady s hs items hperm
    exact agree_of_steady hdata hfree hat hperm
      (fun path hpath => htakes path (mem_paths_of_mem_parts hs hpath))
      (fun left right h => hsteady left right (parts_trans hs h))

/-- An `or` over booleans, one of them absent, does not waver. -/
theorem holds_replaceAt_iff_flags :
    let here : Value := .object (.ofList [("ok", .boolean true)])
    let data : Value := .object (.ofList [("items", .array [here, .object .nil])])
    let schema : Schema := .object [("items", .array (.object [("ok", .scalar .boolean)] []))] []
    let flags : Query := .resolve [.property "items", .item, .property "ok"]
    let q : Query := .binary .or flags (.literal (.boolean false))
    Schema.structural data schema = .ok () ∧ data.nanFree = true ∧
      data.at? ["items"] = some (.array [here, .object .nil]) ∧ q.TakesItems ["items"] ∧
      ∀ items : List Value, items.Perm [here, .object .nil] →
        Agree (q.holds Schema.structural {} data schema)
          (q.holds Schema.structural {} (data.replaceAt ["items"] (.array items)) schema) := by
  intro here data schema flags q
  have haccepted : Schema.structural data schema = .ok () := rfl
  have hat : data.at? ["items"] = some (.array [here, .object .nil]) := rfl
  have htakes : q.TakesItems ["items"] := by
    intro path hpath
    cases List.mem_singleton.mp hpath
    exact Or.inl ⟨[.property "ok"], rfl⟩
  refine ⟨haccepted, rfl, hat, htakes, fun items hitems => ?_⟩
  refine (holds_replaceAt_iff haccepted rfl hat htakes).mpr ?_ q mem_parts_self items hitems
  rintro left right h ⟨l, r, hl, hr, ⟨_, v, hv, w, hw, hrefused⟩, _⟩
  obtain ⟨rfl, rfl⟩ : left = flags ∧ right = .literal (.boolean false) := by
    simpa [q, flags, parts] using h
  cases hl
  cases hr
  refine hrefused ⟨?_, Or.inr (List.mem_singleton.mp hw ▸ rfl)⟩
  rcases List.mem_pair.mp hv with rfl | rfl
  · exact Or.inr rfl
  · exact Or.inl rfl

/-- An `or` over strings, one of them absent, says `true` or fails. -/
theorem not_agree_labels :
    let here : Value := .object (.ofList [("label", .string "a")])
    let data : Value := .object (.ofList [("items", .array [.object .nil, here])])
    let schema : Schema := .object [("items", .array (.object [("label", .scalar .string)] []))] []
    let q : Query := .binary .or (.resolve [.property "items", .item, .property "label"])
      (.literal (.boolean true))
    Schema.structural data schema = .ok () ∧ data.nanFree = true ∧
      data.at? ["items"] = some (.array [.object .nil, here]) ∧ q.TakesItems ["items"] ∧
      List.Perm [here, .object .nil] [.object .nil, here] ∧
      ¬ Agree (q.holds Schema.structural {} data schema)
        (q.holds Schema.structural {} (data.replaceAt ["items"] (.array [here, .object .nil]))
          schema) := by
  intro here data schema q
  refine ⟨rfl, rfl, rfl, fun path hpath => ?_, .swap .., ?_⟩
  · cases List.mem_singleton.mp hpath
    exact Or.inl ⟨[.property "label"], rfl⟩
  · have hfirst : q.holds Schema.structural {} data schema = .ok true := rfl
    have hswapped : data.replaceAt ["items"] (.array [here, .object .nil]) =
        .object (.ofList [("items", .array [here, .object .nil])]) :=
      congrArg Value.object Fields.insert_first
    have hsecond : q.holds Schema.structural {}
        (.object (.ofList [("items", .array [here, .object .nil])])) schema =
        .error (.typeMismatch (.notBoolean .or .string)) := rfl
    rw [hfirst, hswapped, hsecond]
    exact id

end Query

end RecordQuery
