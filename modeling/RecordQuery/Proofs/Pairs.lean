import RecordQuery.Proofs.Kinds

/-!
Searches for a pair, apart from the order of the values. A search for a pair that an operator
relates fails when there is none and some pair is refused (`anyPair_of_not_relates`), and it has an
answer when no pair is refused (`anyPair_of_admits`). On values of two kinds only `or` may relate
one pair and refuse another one (`Relates.admits`). The values in front then decide
(`anyPair_or_of_front`).
-/

namespace RecordQuery

open Query (Kind)

/-! ## Pairs in any order -/

section

variable {op : BinaryOp} {a b : Kind} {l r : Outcome}

theorem Outcome.anyPair_of_admits
    (h : ∀ v ∈ l.values, ∀ w ∈ r.values, op.Admits (.ofValue v) (.ofValue w)) :
    ∃ found, l.anyPair op.apply r = .ok found ∧
      (found = true ↔ ∃ v ∈ l.values, ∃ w ∈ r.values, op.Relates v w) := by
  cases hpair : l.anyPair op.apply r with
  | ok found =>
    refine ⟨found, rfl, ?_⟩
    simp only [anyPair_eq_ok hpair, BinaryOp.apply_eq_true_iff]
  | error e =>
    obtain ⟨v, hv, w, hw, happly⟩ := anyPair_eq_error hpair
    obtain ⟨found, hfound⟩ := BinaryOp.exists_apply_eq_ok_iff.mpr (h v hv w hw)
    rw [happly] at hfound
    cases hfound

theorem Outcome.anyPair_of_not_relates
    (hrefused : ∃ v ∈ l.values, ∃ w ∈ r.values, ¬ op.Admits (.ofValue v) (.ofValue w))
    (hrelates : ¬ ∃ v ∈ l.values, ∃ w ∈ r.values, op.Relates v w) :
    ∃ cause, l.anyPair op.apply r = .error (.typeMismatch cause) := by
  cases hpair : l.anyPair op.apply r with
  | ok found =>
    obtain ⟨v, hv, w, hw, hadmits⟩ := hrefused
    refine absurd (BinaryOp.exists_apply_eq_ok_iff.mp ?_) hadmits
    cases found with
    | true =>
      obtain ⟨v, hv, w, hw, happly⟩ := anyPair_eq_true hpair
      exact absurd ⟨v, hv, w, hw, BinaryOp.apply_eq_true_iff.mp happly⟩ hrelates
    | false => exact ⟨false, anyPair_eq_false_iff.mp hpair v hv w hw⟩
  | error e =>
    obtain ⟨v, _, w, _, happly⟩ := anyPair_eq_error hpair
    obtain ⟨cause, rfl⟩ := BinaryOp.apply_eq_error happly
    exact ⟨cause, rfl⟩

theorem BinaryOp.Relates.ne_null {v w : Value} (h : op.Relates v w) (hor : op ≠ .or)
    (heq : op ≠ .compare .eq) : v ≠ .null ∧ w ≠ .null := by
  cases op with
  | and =>
    obtain ⟨rfl, rfl⟩ := h
    exact ⟨nofun, nofun⟩
  | or => exact absurd rfl hor
  | compare c =>
    cases c with
    | eq => exact absurd rfl heq
    | lt | le | gt | ge => exact ⟨h.1, h.2.1⟩
  | contains => exact ⟨h.1, h.2.1⟩

/-- On values of two kinds no operator but `or` relates a pair and refuses another one. -/
theorem BinaryOp.Relates.admits {v w v' w' : Value} (h : op.Relates v w) (hor : op ≠ .or)
    (hv : v = .null ∨ Kind.ofValue v = a) (hw : w = .null ∨ Kind.ofValue w = b)
    (hv' : v' = .null ∨ Kind.ofValue v' = a) (hw' : w' = .null ∨ Kind.ofValue w' = b) :
    op.Admits (.ofValue v') (.ofValue w') := by
  by_cases heq : op = .compare .eq
  · subst heq
    trivial
  · have hadmits := exists_apply_eq_ok_iff.mp ⟨true, apply_eq_true_iff.mpr h⟩
    obtain ⟨hvn, hwn⟩ := h.ne_null hor heq
    rw [hv.resolve_left hvn, hw.resolve_left hwn] at hadmits
    rcases hadmits.of_covers (hv'.imp_right Or.inl) (hw'.imp_right Or.inl) with h | ⟨hnan, _⟩
    · exact h
    · rcases hnan with ⟨rfl, hnan⟩ | ⟨rfl, hnan⟩
      · rcases hv' with rfl | hv' <;> simp_all
      · rcases hw' with rfl | hw' <;> simp_all

end

/-! ## Pairs in front -/

/-- `or` relates some pair of values and refuses another one. -/
def Outcome.Mixed (l r : Outcome) : Prop :=
  (∃ v ∈ l.values, ∃ w ∈ r.values, BinaryOp.or.Relates v w) ∧
    ∃ v ∈ l.values, ∃ w ∈ r.values, ¬ (v.IsLogical ∧ w.IsLogical)

/-- With these two values in front of the operands, `or` comes to a pair that it relates before one
that it refuses. -/
def BinaryOp.Prevails (v w : Value) (rights : List Value) : Prop :=
  v.IsLogical ∧ ((∀ u ∈ rights, u.IsLogical) ∨ (v = .boolean true ∧ w.IsLogical))

variable {a b : Kind} {l r : Outcome} {v w : Value} {vs ws : List Value}

/-- Next to a value that `or` refuses it takes no value of the same kind, hence nothing but null. -/
theorem BinaryOp.eq_null_of_isLogical {u : Value} (hu : ¬ u.IsLogical)
    (hua : u = .null ∨ Kind.ofValue u = a) (hva : v = .null ∨ Kind.ofValue v = a)
    (hv : v.IsLogical) : v = .null := by
  rcases hva with h | hva
  · exact h
  · rcases hua with rfl | hua
    · exact absurd (Or.inl rfl) hu
    · rw [← Kind.isLogical_ofValue_iff, hua, ← hva, Kind.isLogical_ofValue_iff] at hu
      exact absurd hv hu

namespace Outcome

/-- When all right values are operands that `or` takes, the first left value decides. -/
theorem anyPair_or_of_right (hl : l.values = v :: vs) (hr : r.values = w :: ws)
    (hright : ∀ u ∈ r.values, u.IsLogical) (htrue : .boolean true ∈ r.values) :
    (v.IsLogical → l.anyPair BinaryOp.or.apply r = .ok true) ∧
      (¬ v.IsLogical → ∃ cause, l.anyPair BinaryOp.or.apply r = .error (.typeMismatch cause)) := by
  unfold anyPair
  constructor
  · intro hv
    rw [hl]
    refine anyM_cons_of_true (anyM_of_forall_ok (fun u hu => ?_) ⟨_, htrue, ?_⟩)
    · exact BinaryOp.exists_apply_eq_ok_iff.mpr (BinaryOp.admits_or_iff.mpr ⟨hv, hright u hu⟩)
    · exact BinaryOp.apply_eq_true_iff.mpr ⟨hv, Or.inr rfl, Or.inr rfl⟩
  · intro hv
    have hvw : ¬ (v.IsLogical ∧ w.IsLogical) := fun h => hv h.1
    obtain ⟨cause, hcause⟩ := BinaryOp.apply_or_of_not_isLogical hvw
    rw [hl, hr]
    exact ⟨cause, anyM_cons_of_error (anyM_cons_of_error hcause)⟩

/-- When `or` refuses some right value, the first pair decides. -/
theorem anyPair_or_of_left (hl : l.values = v :: vs) (hr : r.values = w :: ws)
    (hv : v.IsLogical) (hright : ∃ u ∈ r.values, ¬ u.IsLogical)
    (htrue : .boolean true ∉ r.values) :
    (v = .boolean true ∧ w.IsLogical → l.anyPair BinaryOp.or.apply r = .ok true) ∧
      (¬ (v = .boolean true ∧ w.IsLogical) →
        ∃ cause, l.anyPair BinaryOp.or.apply r = .error (.typeMismatch cause)) := by
  unfold anyPair
  constructor
  · rintro ⟨rfl, hw⟩
    rw [hl, hr]
    exact anyM_cons_of_true (anyM_cons_of_true
      (BinaryOp.apply_eq_true_iff.mpr ⟨hv, hw, Or.inl rfl⟩))
  · intro hne
    by_cases hw : w.IsLogical
    · obtain ⟨u, hu, hul⟩ := hright
      have hvu : ¬ (v.IsLogical ∧ u.IsLogical) := fun h => hul h.2
      obtain ⟨cause, hcause⟩ := BinaryOp.apply_or_of_not_isLogical hvu
      have hrow : ∀ x ∈ r.values, BinaryOp.or.apply v x ≠ .ok true := by
        intro x hx h
        obtain ⟨_, _, h | h⟩ := BinaryOp.apply_eq_true_iff.mp h
        · exact hne ⟨h, hw⟩
        · exact htrue (h ▸ hx)
      obtain ⟨x, _, e, hx, he⟩ := anyM_of_forall_ne_true hrow ⟨u, hu, _, hcause⟩
      obtain ⟨cause, rfl⟩ := BinaryOp.apply_eq_error hx
      rw [hl]
      exact ⟨cause, anyM_cons_of_error he⟩
    · have hvw : ¬ (v.IsLogical ∧ w.IsLogical) := fun h => hw h.2
      obtain ⟨cause, hcause⟩ := BinaryOp.apply_or_of_not_isLogical hvw
      rw [hl, hr]
      exact ⟨cause, anyM_cons_of_error (anyM_cons_of_error hcause)⟩

/-- Where `or` relates one pair and refuses another one, the values in front decide. -/
theorem anyPair_or_of_front (hla : ∀ v ∈ l.values, v = .null ∨ Kind.ofValue v = a)
    (hrb : ∀ w ∈ r.values, w = .null ∨ Kind.ofValue w = b) (hmixed : l.Mixed r) :
    ∃ v ∈ l.values.head?, ∃ w ∈ r.values.head?,
      (BinaryOp.Prevails v w r.values → l.anyPair BinaryOp.or.apply r = .ok true) ∧
      (¬ BinaryOp.Prevails v w r.values →
        ∃ cause, l.anyPair BinaryOp.or.apply r = .error (.typeMismatch cause)) := by
  obtain ⟨⟨x, hx, y, hy, hxl, hyl, htrue⟩, x', hx', y', hy', hlogical⟩ := hmixed
  cases hl : l.values with
  | nil => rw [hl] at hx; cases hx
  | cons v vs =>
    cases hr : r.values with
    | nil => rw [hr] at hy; cases hy
    | cons w ws =>
      refine ⟨v, rfl, w, rfl, ?_⟩
      rw [← hr]
      by_cases hright : ∀ u ∈ r.values, u.IsLogical
      · have hx'l : ¬ x'.IsLogical := fun h => hlogical ⟨h, hright y' hy'⟩
        obtain rfl := BinaryOp.eq_null_of_isLogical hx'l (hla x' hx') (hla x hx) hxl
        have ht : .boolean true ∈ r.values := htrue.resolve_left nofun ▸ hy
        obtain ⟨hok, herror⟩ := anyPair_or_of_right hl hr hright ht
        exact ⟨fun h => hok h.1, fun h => herror fun hv => h ⟨hv, Or.inl hright⟩⟩
      · have hexists : ∃ u ∈ r.values, ¬ u.IsLogical := by simpa using hright
        obtain ⟨u, hu, hul⟩ := hexists
        obtain rfl := BinaryOp.eq_null_of_isLogical hul (hrb u hu) (hrb y hy) hyl
        obtain rfl := htrue.resolve_right nofun
        have hv : v.IsLogical := by
          have hva := hla v (hl ▸ List.mem_cons_self ..)
          by_contra h
          cases BinaryOp.eq_null_of_isLogical h hva (hla _ hx) hxl
        have ht : .boolean true ∉ r.values := by
          intro ht
          cases BinaryOp.eq_null_of_isLogical hul (hrb u hu) (hrb _ ht) (Or.inr rfl)
        obtain ⟨hok, herror⟩ := anyPair_or_of_left hl hr hv ⟨u, hu, hul⟩ ht
        constructor
        · rintro ⟨_, h | h⟩
          · exact absurd h hright
          · exact hok h
        · exact fun h => herror fun hvw => h ⟨hv, Or.inr hvw⟩

end Outcome

end RecordQuery
