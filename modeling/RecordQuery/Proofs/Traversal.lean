import Mathlib.Data.List.Forall2
import RecordQuery.Outcome

/-!
Passes over values that stop at the first failure. A pass that maps succeeds when every single call
does (`exists_mapM_eq_ok`) and then holds the results of these calls in place (`mapM_eq_ok`). A
search for a pair tells what it met: a pair that satisfies the test (`anyPair_eq_true`), a pair that
fails it with the error that is reported (`anyPair_eq_error`), or none of both
(`anyPair_eq_false_iff`).
-/

namespace RecordQuery

variable {ε α β : Type}

theorem bind_eq_ok {x : Except ε α} {f : α → Except ε β} {b : β} :
    x >>= f = .ok b ↔ ∃ a, x = .ok a ∧ f a = .ok b := by
  constructor
  · intro h
    cases x with
    | error e => cases h
    | ok a => exact ⟨a, rfl, h⟩
  · rintro ⟨a, rfl, hf⟩
    exact hf

theorem bind_eq_error {x : Except ε α} {f : α → Except ε β} {e : ε} :
    x >>= f = .error e ↔ x = .error e ∨ ∃ a, x = .ok a ∧ f a = .error e := by
  constructor
  · intro h
    cases x with
    | error e' => exact Or.inl (by cases h; rfl)
    | ok a => exact Or.inr ⟨a, rfl, h⟩
  · rintro (rfl | ⟨a, rfl, hf⟩)
    · rfl
    · exact hf

theorem map_eq_error {x : Except ε α} {f : α → β} {e : ε} :
    x.map f = .error e ↔ x = .error e := by
  cases x with
  | error e' => simp only [Except.map, Except.error.injEq]
  | ok a => exact ⟨nofun, nofun⟩

theorem mapError_eq_ok {ε' : Type} {x : Except ε α} {f : ε → ε'} {a : α} :
    x.mapError f = .ok a ↔ x = .ok a := by
  cases x with
  | error e => exact ⟨nofun, nofun⟩
  | ok b => simp only [Except.mapError, Except.ok.injEq]

theorem mapError_eq_error {ε' : Type} {x : Except ε α} {f : ε → ε'} {e' : ε'} :
    x.mapError f = .error e' ↔ ∃ e, x = .error e ∧ f e = e' := by
  cases x with
  | error e => simp only [Except.mapError, Except.error.injEq, exists_eq_left']
  | ok a => exact ⟨nofun, nofun⟩

theorem exists_of_mem_right {R : α → β → Prop} {l : List α} {l' : List β}
    (h : List.Forall₂ R l l') : ∀ b ∈ l', ∃ a ∈ l, R a b := by
  induction h with
  | nil => exact fun b hb => nomatch hb
  | cons h _ ih =>
    intro b hb
    rcases List.mem_cons.mp hb with rfl | hb
    · exact ⟨_, List.mem_cons_self .., h⟩
    · obtain ⟨a, ha, hab⟩ := ih b hb
      exact ⟨a, List.mem_cons_of_mem _ ha, hab⟩

/-! ## Searching a list -/

theorem anyM_eq_true {p : α → Except ε Bool} {l : List α} (h : l.anyM p = .ok true) :
    ∃ x ∈ l, p x = .ok true := by
  induction l with
  | nil => cases h
  | cons x l ih =>
    obtain ⟨b, hx, hl⟩ := bind_eq_ok.mp h
    cases b with
    | true => exact ⟨x, List.mem_cons_self .., hx⟩
    | false =>
      obtain ⟨y, hy, e⟩ := ih hl
      exact ⟨y, List.mem_cons_of_mem _ hy, e⟩

theorem anyM_eq_false_iff {p : α → Except ε Bool} {l : List α} :
    l.anyM p = .ok false ↔ ∀ x ∈ l, p x = .ok false := by
  induction l with
  | nil => simp [pure, Except.pure]
  | cons x l ih =>
    rw [List.forall_mem_cons, ← ih]
    constructor
    · intro h
      obtain ⟨b, hx, hl⟩ := bind_eq_ok.mp h
      cases b with
      | true => cases hl
      | false => exact ⟨hx, hl⟩
    · rintro ⟨hx, hl⟩
      exact bind_eq_ok.mpr ⟨false, hx, hl⟩

theorem anyM_eq_error {p : α → Except ε Bool} {l : List α} {e : ε} (h : l.anyM p = .error e) :
    ∃ x ∈ l, p x = .error e := by
  induction l with
  | nil => cases h
  | cons x l ih =>
    cases hx : p x with
    | error e' =>
      rw [List.anyM, hx] at h
      cases h
      exact ⟨x, List.mem_cons_self .., hx⟩
    | ok b =>
      rw [List.anyM, hx] at h
      cases b with
      | true => cases h
      | false =>
        obtain ⟨y, hy, e'⟩ := ih h
        exact ⟨y, List.mem_cons_of_mem _ hy, e'⟩

theorem anyM_of_forall_ok {p : α → Except ε Bool} {l : List α} (hok : ∀ x ∈ l, ∃ b, p x = .ok b)
    (htrue : ∃ x ∈ l, p x = .ok true) : l.anyM p = .ok true := by
  obtain ⟨x, hx, ht⟩ := htrue
  cases h : l.anyM p with
  | ok b =>
    cases b with
    | true => rfl
    | false =>
      rw [anyM_eq_false_iff.mp h x hx] at ht
      cases ht
  | error e =>
    obtain ⟨y, hy, he⟩ := anyM_eq_error h
    obtain ⟨b, hb⟩ := hok y hy
    rw [he] at hb
    cases hb

theorem anyM_of_forall_ne_true {p : α → Except ε Bool} {l : List α}
    (hne : ∀ x ∈ l, p x ≠ .ok true) (herror : ∃ x ∈ l, ∃ e, p x = .error e) :
    ∃ x ∈ l, ∃ e, p x = .error e ∧ l.anyM p = .error e := by
  obtain ⟨x, hx, e, he⟩ := herror
  cases h : l.anyM p with
  | ok b =>
    cases b with
    | true =>
      obtain ⟨y, hy, ht⟩ := anyM_eq_true h
      exact absurd ht (hne y hy)
    | false =>
      rw [anyM_eq_false_iff.mp h x hx] at he
      cases he
  | error f =>
    obtain ⟨y, hy, hf⟩ := anyM_eq_error h
    exact ⟨y, hy, f, hf, rfl⟩

theorem anyM_cons_of_true {p : α → Except ε Bool} {x : α} {l : List α} (h : p x = .ok true) :
    (x :: l).anyM p = .ok true := by
  rw [List.anyM, h]
  rfl

theorem anyM_cons_of_error {p : α → Except ε Bool} {x : α} {l : List α} {e : ε}
    (h : p x = .error e) : (x :: l).anyM p = .error e := by
  rw [List.anyM, h]
  rfl

theorem anyM_singleton {p : α → Except ε Bool} (x : α) : [x].anyM p = p x := by
  rw [List.anyM]
  cases p x with
  | error e => rfl
  | ok b => cases b <;> rfl

/-- A test that never fails is searched for as a plain one. -/
theorem anyM_eq_any {p : α → Except ε Bool} {f : α → Bool} {l : List α}
    (h : ∀ x ∈ l, p x = .ok (f x)) : l.anyM p = .ok (l.any f) := by
  induction l with
  | nil => rfl
  | cons x l ih =>
    obtain ⟨hx, hl⟩ := List.forall_mem_cons.mp h
    rw [List.anyM, hx, List.any_cons]
    cases f x with
    | true => rfl
    | false => exact ih hl

theorem any_eq_any {α' : Type} {R : α → α' → Prop} {p : α → Bool} {p' : α' → Bool} {l : List α}
    {l' : List α'} (h : List.Forall₂ R l l') (hp : ∀ a a', R a a' → p a = p' a') :
    l.any p = l'.any p' := by
  induction h with
  | nil => rfl
  | cons h _ ih => rw [List.any_cons, List.any_cons, hp _ _ h, ih]

/-! ## Mapping a list -/

theorem mapM_eq_ok {f : α → Except ε β} {l : List α} {l' : List β} (h : l.mapM f = .ok l') :
    List.Forall₂ (fun a b => f a = .ok b) l l' := by
  induction l generalizing l' with
  | nil =>
    cases h
    exact .nil
  | cons a l ih =>
    rw [List.mapM_cons] at h
    obtain ⟨b, ha, h⟩ := bind_eq_ok.mp h
    obtain ⟨r, hl, h⟩ := bind_eq_ok.mp h
    cases h
    exact .cons ha (ih hl)

theorem mapM_eq_error {f : α → Except ε β} {l : List α} {e : ε} (h : l.mapM f = .error e) :
    ∃ a ∈ l, f a = .error e := by
  induction l with
  | nil => cases h
  | cons a l ih =>
    rw [List.mapM_cons] at h
    rcases bind_eq_error.mp h with ha | ⟨_, _, h⟩
    · exact ⟨a, List.mem_cons_self .., ha⟩
    · rcases bind_eq_error.mp h with hl | ⟨_, _, h⟩
      · obtain ⟨x, hx, he⟩ := ih hl
        exact ⟨x, List.mem_cons_of_mem _ hx, he⟩
      · cases h

theorem exists_mapM_eq_ok {f : α → Except ε β} {P : β → Prop} {l : List α}
    (h : ∀ a ∈ l, ∃ b, f a = .ok b ∧ P b) : ∃ l', l.mapM f = .ok l' ∧ ∀ b ∈ l', P b := by
  induction l with
  | nil => exact ⟨[], rfl, fun b hb => nomatch hb⟩
  | cons a l ih =>
    obtain ⟨b, ha, hb⟩ := h a (List.mem_cons_self ..)
    obtain ⟨l', hl, hP⟩ := ih fun x hx => h x (List.mem_cons_of_mem _ hx)
    refine ⟨b :: l', ?_, List.forall_mem_cons.mpr ⟨hb, hP⟩⟩
    rw [List.mapM_cons, ha, hl]
    rfl

namespace Outcome

@[simp] theorem values_ofBool (b : Bool) : (ofBool b).values = [.boolean b] := rfl

@[simp] theorem isBroadcast_ofBool (b : Bool) : (ofBool b).isBroadcast = false := rfl

/-! ## Searching for a pair -/

section Pairs

variable {p : Value → Value → Except ε Bool} {left right : Outcome}

theorem anyPair_eq_true (h : left.anyPair p right = .ok true) :
    ∃ v ∈ left.values, ∃ w ∈ right.values, p v w = .ok true := by
  obtain ⟨v, hv, hr⟩ := anyM_eq_true h
  obtain ⟨w, hw, e⟩ := anyM_eq_true hr
  exact ⟨v, hv, w, hw, e⟩

theorem anyPair_eq_false_iff : left.anyPair p right = .ok false ↔
    ∀ v ∈ left.values, ∀ w ∈ right.values, p v w = .ok false := by
  simp only [anyPair, anyM_eq_false_iff]

theorem anyPair_eq_error {e : ε} (h : left.anyPair p right = .error e) :
    ∃ v ∈ left.values, ∃ w ∈ right.values, p v w = .error e := by
  obtain ⟨v, hv, hr⟩ := anyM_eq_error h
  obtain ⟨w, hw, e⟩ := anyM_eq_error hr
  exact ⟨v, hv, w, hw, e⟩

/-- A search that ends found what some pair shows. -/
theorem anyPair_eq_ok {b : Bool} (h : left.anyPair p right = .ok b) :
    b = true ↔ ∃ v ∈ left.values, ∃ w ∈ right.values, p v w = .ok true := by
  cases b with
  | true => exact ⟨fun _ => anyPair_eq_true h, fun _ => rfl⟩
  | false =>
    constructor
    · intro hb
      cases hb
    · rintro ⟨v, hv, w, hw, e⟩
      rw [anyPair_eq_false_iff.mp h v hv w hw] at e
      cases e

theorem anyPair_eq_any {f : Value → Value → Bool}
    (h : ∀ v ∈ left.values, ∀ w ∈ right.values, p v w = .ok (f v w)) :
    left.anyPair p right = .ok (left.values.any fun v => right.values.any (f v)) :=
  anyM_eq_any fun v hv => anyM_eq_any (h v hv)

end Pairs

/-! ## Mapping the values -/

theorem mapM_eq_ok {f : Value → Except ε Value} {here there : Outcome}
    (h : here.mapM f = .ok there) : there.isBroadcast = here.isBroadcast ∧
      List.Forall₂ (fun v w => f v = .ok w) here.values there.values := by
  cases here with
  | scalar v =>
    obtain ⟨w, hv, h⟩ := bind_eq_ok.mp h
    cases h
    exact ⟨rfl, .cons hv .nil⟩
  | broadcast vs =>
    obtain ⟨ws, hvs, h⟩ := bind_eq_ok.mp h
    cases h
    exact ⟨rfl, RecordQuery.mapM_eq_ok hvs⟩

theorem mapM_eq_error {f : Value → Except ε Value} {here : Outcome} {e : ε}
    (h : here.mapM f = .error e) : ∃ v ∈ here.values, f v = .error e := by
  cases here with
  | scalar v =>
    rcases bind_eq_error.mp h with hv | ⟨_, _, h⟩
    · exact ⟨v, List.mem_singleton_self v, hv⟩
    · cases h
  | broadcast vs =>
    rcases bind_eq_error.mp h with hvs | ⟨_, _, h⟩
    · exact RecordQuery.mapM_eq_error hvs
    · cases h

theorem exists_mapM_eq_ok {f : Value → Except ε Value} {P : Value → Prop} {here : Outcome}
    (h : ∀ v ∈ here.values, ∃ w, f v = .ok w ∧ P w) : ∃ there, here.mapM f = .ok there ∧
      there.isBroadcast = here.isBroadcast ∧ ∀ w ∈ there.values, P w := by
  cases here with
  | scalar v =>
    obtain ⟨w, hv, hw⟩ := h v (List.mem_singleton_self v)
    refine ⟨.scalar w, ?_, rfl, fun u hu => List.mem_singleton.mp hu ▸ hw⟩
    rw [mapM, hv]
    rfl
  | broadcast vs =>
    obtain ⟨ws, hvs, hP⟩ := RecordQuery.exists_mapM_eq_ok h
    refine ⟨.broadcast ws, ?_, rfl, hP⟩
    simp only [values] at hvs
    rw [mapM, hvs]
    rfl

end Outcome

end RecordQuery
