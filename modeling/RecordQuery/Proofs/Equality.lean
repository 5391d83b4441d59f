import Mathlib.Data.List.Forall2
import RecordQuery.Proofs.Points
import RecordQuery.Proofs.Traversal
import RecordQuery.Proofs.Values

/-!
Equality of values. One layer of it is equality of scalars, of the points where numbers lie, or of
the contents (`equals_iff`). So it is symmetric and transitive, though not reflexive on NaN
(`equals_symm`, `equals_trans`), and equal values compare with all others and contain others in the
same way (`compare_congr`, `contains_congr`).
-/

namespace RecordQuery.Value

/-! ## Related entries -/

section

variable {R S T : Value → Value → Prop}

theorem isSome_eq_of_rel {a b : Option Value} (h : Option.Rel R a b) : a.isSome = b.isSome := by
  cases h <;> rfl

theorem exists_of_rel_left {a b : Option Value} {v : Value} (h : Option.Rel R a b)
    (hv : a = some v) : ∃ w, b = some w ∧ R v w := by
  subst hv
  cases h with
  | some h => exact ⟨_, rfl, h⟩

theorem exists_of_rel_right {a b : Option Value} {w : Value} (h : Option.Rel R a b)
    (hw : b = some w) : ∃ v, a = some v ∧ R v w := by
  subst hw
  cases h with
  | some h => exact ⟨_, rfl, h⟩

theorem eq_none_of_rel {a b : Option Value} (h : Option.Rel R a b) (ha : a = none) : b = none := by
  subst ha
  cases h with
  | none => rfl

theorem rel_imp {a b : Option Value} (h : Option.Rel R a b)
    (hRS : ∀ v w, a = some v → b = some w → R v w → S v w) : Option.Rel S a b := by
  cases h with
  | none => exact .none
  | some h => exact .some (hRS _ _ rfl rfl h)

theorem rel_flip {a b : Option Value} (h : Option.Rel (flip R) a b) : Option.Rel R b a := by
  cases h with
  | none => exact .none
  | some h => exact .some h

theorem rel_trans {a b c : Option Value} (h : Option.Rel R a b) (h' : Option.Rel S b c)
    (hT : ∀ u v w, a = some u → R u v → S v w → T u w) : Option.Rel T a c := by
  cases h with
  | none =>
    cases h' with
    | none => exact .none
  | some h =>
    cases h' with
    | some h' => exact .some (hT _ _ _ rfl h h')

theorem forall₂_imp {vs ws : List Value} (h : List.Forall₂ R vs ws)
    (hRS : ∀ (i : Nat) v w, vs[i]? = some v → ws[i]? = some w → R v w → S v w) :
    List.Forall₂ S vs ws := by
  induction h with
  | nil => exact .nil
  | cons h _ ih =>
    exact .cons (hRS 0 _ _ rfl rfl h) (ih fun i v w hv hw => hRS (i + 1) v w hv hw)

theorem forall₂_trans {us vs ws : List Value} (h : List.Forall₂ R us vs)
    (h' : List.Forall₂ S vs ws) (hT : ∀ u ∈ us, ∀ v w, R u v → S v w → T u w) :
    List.Forall₂ T us ws := by
  induction h generalizing ws with
  | nil =>
    cases h' with
    | nil => exact .nil
  | cons h _ ih =>
    cases h' with
    | cons h' rest' =>
      obtain ⟨hu, hus⟩ := List.forall_mem_cons.mp hT
      exact .cons (hu _ _ h h') (ih rest' hus)

end

/-! ## One layer -/

/-- One layer of a comparison of values, with numbers compared by `N` and what stands below them
by `R`. -/
inductive Layer (N R : Value → Value → Prop) : Value → Value → Prop
  | null : Layer N R .null .null
  | boolean (b : Bool) : Layer N R (.boolean b) (.boolean b)
  | string (s : String) : Layer N R (.string s) (.string s)
  | array {vs ws : List Value} (items : List.Forall₂ R vs ws) : Layer N R (.array vs) (.array ws)
  | object {vs ws : Fields none} (fields : ∀ name, Option.Rel R (vs.get? name) (ws.get? name)) :
      Layer N R (.object vs) (.object ws)
  | number {v w : Value} (numbers : N v w) : Layer N R v w

section

variable {numbers : Value → Value → Bool} {v w : Value}

theorem equalItemsBy_iff {vs ws : List Value} : equalItemsBy numbers vs ws = true ↔
    List.Forall₂ (fun v w => equalBy numbers v w = true) vs ws := by
  induction vs generalizing ws with
  | nil => cases ws <;> simp [equalItemsBy]
  | cons v vs ih => cases ws <;> simp [equalItemsBy, ih]

theorem equalFieldsBy_iff {ws : Fields none} : ∀ {low : Option String} {vs : Fields low},
    equalFieldsBy numbers vs ws = true ↔
      ∀ f ∈ vs.toList, ∃ w, ws.get? f.1 = some w ∧ equalBy numbers f.2 w = true
  | _, .nil => by simp [equalFieldsBy, Fields.toList]
  | _, .cons name _ v vs => by
    rw [equalFieldsBy, Fields.toList, List.forall_mem_cons, Bool.and_eq_true, equalFieldsBy_iff,
      Option.any_eq_true]

/-- Equal sizes and equal fields of the one object leave no other fields to the other one. -/
theorem equalObjectsBy_iff {vs ws : Fields none} :
    (vs.size == ws.size && equalFieldsBy numbers vs ws) = true ↔
      ∀ name, Option.Rel (fun v w => equalBy numbers v w = true) (vs.get? name) (ws.get? name) := by
  rw [Bool.and_eq_true, beq_iff_eq, equalFieldsBy_iff]
  constructor
  · rintro ⟨hsize, hfields⟩ name
    have hfield : ∀ name v, vs.get? name = some v →
        ∃ w, ws.get? name = some w ∧ equalBy numbers v w = true :=
      fun name v hv => hfields (name, v) (Fields.get?_eq_some_iff.mp hv)
    have hnames : ∀ name, (vs.get? name).isSome → (ws.get? name).isSome := by
      intro name hname
      obtain ⟨v, hv⟩ := Option.isSome_iff_exists.mp hname
      obtain ⟨w, hw, _⟩ := hfield name v hv
      rw [hw]
      rfl
    cases hv : vs.get? name with
    | some v =>
      obtain ⟨w, hw, h⟩ := hfield name v hv
      rw [hw]
      exact .some h
    | none =>
      have hnone : ws.get? name = none := by
        rw [← Option.not_isSome_iff_eq_none]
        intro hname
        have hsome := Fields.isSome_get?_of_size_eq hsize hnames name hname
        rw [hv] at hsome
        cases hsome
      rw [hnone]
      exact .none
  · intro h
    refine ⟨Fields.size_eq_of_isSome_get? fun name => isSome_eq_of_rel (h name), fun f hf => ?_⟩
    exact exists_of_rel_left (h f.1) (Fields.get?_eq_some_iff.mpr hf)

theorem equalBy_iff : equalBy numbers v w = true ↔
    Layer (fun v w => (v.isNumber && w.isNumber && numbers v w) = true)
      (fun v w => equalBy numbers v w = true) v w := by
  constructor
  · intro h
    unfold equalBy at h
    split at h
    · exact .null
    · rw [eq_of_beq h]
      exact .boolean _
    · rw [eq_of_beq h]
      exact .string _
    · exact .array (equalItemsBy_iff.mp h)
    · exact .object (equalObjectsBy_iff.mp h)
    · exact .number h
  · intro h
    cases h with
    | null => rfl
    | boolean b => exact beq_self_eq_true b
    | string s => exact beq_self_eq_true s
    | array items => exact equalItemsBy_iff.mpr items
    | object fields => exact equalObjectsBy_iff.mpr fields
    | number h =>
      cases v with
      | integer | float => exact h
      | null | boolean | string | array | object => cases h

end

/-- Two values stand at the same position, one step below two others. -/
inductive Beside : Value → Value → Value → Value → Prop
  | item {vs ws : List Value} {v w : Value} (i : Nat) (left : vs[i]? = some v)
      (right : ws[i]? = some w) : Beside v w (.array vs) (.array ws)
  | field {vs ws : Fields none} {v w : Value} (name : String) (left : vs.get? name = some v)
      (right : ws.get? name = some w) : Beside v w (.object vs) (.object ws)

theorem Beside.below {v w v' w' : Value} (h : Beside v w v' w') : v.Below v' ∧ w.Below w' := by
  cases h with
  | item i left right =>
    exact ⟨.item (List.mem_of_getElem? left), .item (List.mem_of_getElem? right)⟩
  | field name left right => exact ⟨.field left, .field right⟩

theorem Layer.imp {N N' R R' : Value → Value → Prop} {v w : Value} (h : Layer N R v w)
    (hN : N v w → N' v w) (hR : ∀ v' w', Beside v' w' v w → R v' w' → R' v' w') :
    Layer N' R' v w := by
  cases h with
  | null => exact .null
  | boolean b => exact .boolean b
  | string s => exact .string s
  | array items => exact .array (forall₂_imp items fun i v w hv hw => hR v w (.item i hv hw))
  | object fields =>
    exact .object fun name => rel_imp (fields name) fun v w hv hw => hR v w (.field name hv hw)
  | number h => exact .number (hN h)

/-! ## Symmetry and transitivity -/

/-- Two numbers lie at one point. -/
def SamePoint (v w : Value) : Prop := ∃ p, v.point? = some p ∧ w.point? = some p

variable {u v v' w w' : Value}

theorem isNumber_of_point? {p : Point} (h : v.point? = some p) : v.isNumber = true := by
  cases v with
  | integer | float => rfl
  | null | boolean | string | array | object => cases h

theorem equals_iff : v.equals w = true ↔ Layer SamePoint (fun v w => v.equals w = true) v w := by
  have hnumbers : (v.isNumber && w.isNumber && v.compareNumbers w == some .eq) = true ↔
      SamePoint v w := by
    rw [Bool.and_eq_true, beq_iff_eq, compareNumbers_eq_iff, SamePoint]
    constructor
    · exact And.right
    · rintro ⟨p, hv, hw⟩
      rw [isNumber_of_point? hv, isNumber_of_point? hw]
      exact ⟨rfl, p, hv, hw⟩
  rw [equals, equalBy_iff]
  exact ⟨fun h => h.imp hnumbers.mp fun _ _ _ => id, fun h => h.imp hnumbers.mpr fun _ _ _ => id⟩

theorem equals_symm (h : v.equals w = true) : w.equals v = true := by
  induction v using below_induction generalizing w with
  | step v ih =>
    cases equals_iff.mp h with
    | null | boolean | string => exact h
    | array items =>
      refine equals_iff.mpr (.array (.flip (forall₂_imp items fun i v w hv _ h => ?_)))
      exact ih v (.item (List.mem_of_getElem? hv)) h
    | object fields =>
      refine equals_iff.mpr (.object fun name => rel_flip (rel_imp (fields name) ?_))
      exact fun v w hv _ h => ih v (.field hv) h
    | number h =>
      obtain ⟨p, hv, hw⟩ := h
      exact equals_iff.mpr (.number ⟨p, hw, hv⟩)

theorem equals_of_point? {p : Point} (hv : v.point? = some p) :
    v.equals w = true ↔ w.point? = some p := by
  constructor
  · intro h
    cases equals_iff.mp h with
    | number h =>
      obtain ⟨q, hv', hw⟩ := h
      rw [hw, ← hv', hv]
    | null | boolean | string | array | object => cases hv
  · exact fun hw => equals_iff.mpr (.number ⟨p, hv, hw⟩)

theorem exists_of_equals_array {vs : List Value} (h : (array vs).equals w = true) :
    ∃ ws, w = array ws ∧ List.Forall₂ (fun v w => v.equals w = true) vs ws := by
  cases equals_iff.mp h with
  | array items => exact ⟨_, rfl, items⟩
  | number h =>
    obtain ⟨p, hp, -⟩ := h
    cases hp

theorem exists_of_equals_object {vs : Fields none} (h : (object vs).equals w = true) :
    ∃ ws, w = object ws ∧
      ∀ name, Option.Rel (fun v w => v.equals w = true) (vs.get? name) (ws.get? name) := by
  cases equals_iff.mp h with
  | object fields => exact ⟨_, rfl, fields⟩
  | number h =>
    obtain ⟨p, hp, -⟩ := h
    cases hp

theorem equals_trans (hv : u.equals v = true) (hw : v.equals w = true) : u.equals w = true := by
  induction u using below_induction generalizing v w with
  | step u ih =>
    cases equals_iff.mp hv with
    | null | boolean | string => exact hw
    | array items =>
      obtain ⟨ws, rfl, items'⟩ := exists_of_equals_array hw
      refine equals_iff.mpr (.array (forall₂_trans items items' fun u hu v w hv hw => ?_))
      exact ih u (.item hu) hv hw
    | object fields =>
      obtain ⟨ws, rfl, fields'⟩ := exists_of_equals_object hw
      refine equals_iff.mpr (.object fun name => rel_trans (fields name) (fields' name) ?_)
      exact fun u v w hu hv hw => ih u (.field hu) hv hw
    | number h =>
      obtain ⟨p, hu, hv⟩ := h
      exact equals_iff.mpr (.number ⟨p, hu, (equals_of_point? hv).mp hw⟩)

/-- Equal values are equal to the same values. -/
theorem equals_congr (hv : v.equals v' = true) (hw : w.equals w' = true) :
    v.equals w = v'.equals w' := by
  rw [Bool.eq_iff_iff]
  constructor
  · intro h
    exact equals_trans (equals_symm hv) (equals_trans h hw)
  · intro h
    exact equals_trans hv (equals_trans h (equals_symm hw))

/-! ## Below and beside equal values -/

theorem boolean?_of_point? {p : Point} (h : v.point? = some p) : v.boolean? = none := by
  cases v with
  | boolean => cases h
  | null | integer | float | string | array | object => rfl

theorem string?_of_point? {p : Point} (h : v.point? = some p) : v.string? = none := by
  cases v with
  | string => cases h
  | null | boolean | integer | float | array | object => rfl

theorem boolean?_of_equals (h : v.equals w = true) : v.boolean? = w.boolean? := by
  cases equals_iff.mp h with
  | null | boolean | string | array | object => rfl
  | number h =>
    obtain ⟨p, hv, hw⟩ := h
    rw [boolean?_of_point? hv, boolean?_of_point? hw]

theorem string?_of_equals (h : v.equals w = true) : v.string? = w.string? := by
  cases equals_iff.mp h with
  | null | boolean | string | array | object => rfl
  | number h =>
    obtain ⟨p, hv, hw⟩ := h
    rw [string?_of_point? hv, string?_of_point? hw]

theorem point?_of_equals (h : v.equals w = true) : v.point? = w.point? := by
  cases equals_iff.mp h with
  | null | boolean | string | array | object => rfl
  | number h =>
    obtain ⟨p, hv, hw⟩ := h
    exact hv.trans hw.symm

/-! ## Order and membership -/

theorem compare_of_point?_left {p : Point} (hv : v.point? = some p) :
    v.compare w = w.point?.map p.compare := by
  cases v with
  | integer | float =>
    rw [Value.compare, compareNumbers_eq, hv, Option.bind_some]
    all_goals exact nofun
  | null | boolean | string | array | object => cases hv

theorem compare_of_point?_right {p : Point} (hw : w.point? = some p) :
    v.compare w = v.point?.map fun q => q.compare p := by
  have hcompare : v.compare w = v.compareNumbers w := by
    cases w with
    | integer | float => cases v <;> rfl
    | null | boolean | string | array | object => cases hw
  rw [hcompare, compareNumbers_eq, hw]
  cases v.point? <;> rfl

theorem compare_congr (hv : v.equals v' = true) (hw : w.equals w' = true) :
    v.compare w = v'.compare w' := by
  have hpoint := point?_of_equals hw
  cases equals_iff.mp hv with
  | number h =>
    obtain ⟨p, hv, hv'⟩ := h
    rw [compare_of_point?_left hv, compare_of_point?_left hv', hpoint]
  | null | boolean | string | array | object =>
    cases equals_iff.mp hw with
    | number h =>
      obtain ⟨p, hw, hw'⟩ := h
      exact (compare_of_point?_right hw).trans (compare_of_point?_right hw').symm
    | null | boolean | string | array | object => rfl

theorem contains_string {s : String} : (string s).contains w =
    w.string?.map fun sought => occursIn sought.toList s.toList := by
  cases w <;> rfl

theorem contains_object {fields : Fields none} : (object fields).contains w =
    w.string?.map fun name => (fields.get? name).isSome := by
  cases w <;> rfl

theorem contains_of_point? {p : Point} (hv : v.point? = some p) : v.contains w = none := by
  cases v with
  | null | boolean | integer | float => rfl
  | string | array | object => cases hv

theorem contains_congr (hv : v.equals v' = true) (hw : w.equals w' = true) :
    v.contains w = v'.contains w' := by
  have hstring := string?_of_equals hw
  cases equals_iff.mp hv with
  | null | boolean => rfl
  | string s => rw [contains_string, contains_string, hstring]
  | array items =>
    exact congrArg some (any_eq_any items fun item item' h => equals_congr h hw)
  | object fields =>
    rw [contains_object, contains_object, hstring]
    congr 1
    funext name
    exact isSome_eq_of_rel (fields name)
  | number h =>
    obtain ⟨p, hv, hv'⟩ := h
    rw [contains_of_point? hv, contains_of_point? hv']

end RecordQuery.Value
