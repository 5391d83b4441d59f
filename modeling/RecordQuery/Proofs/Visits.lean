import Mathlib.Data.List.ProdSigma
import RecordQuery.Outcome

/-!
The pairs that a search for a pair visits. A search through two outcomes is one pass over their
pairs, all right values for the first left one before the next (`anyPair_eq_anyM_product`). A test
that keeps a state and may fail is called on them one after the other, each time in the state that
the call before left, up to the first pair that satisfies it or on which it fails
(`anyPair_visits`).
-/

namespace RecordQuery

variable {α β ε σ : Type}

/-- A test that keeps a state and may fail. The state remains as the failing call left it. -/
abbrev StatefulTest (α ε σ : Type) : Type := α → ExceptT ε (StateM σ) Bool

namespace StatefulTest

/-- A test that leaves every state as it is. -/
def stateless (q : α → Except ε Bool) : StatefulTest α ε σ := fun a s => (q a, s)

/-- The test, which also keeps a list of its calls. -/
def recording (p : StatefulTest α ε σ) : StatefulTest α ε (σ × List α) := fun a (s, calls) =>
  ((p a s).1, (p a s).2, calls ++ [a])

/-- The test refuses all items, and each call starts in the state that the call before left. -/
inductive Refuses (p : StatefulTest α ε σ) : σ → List α → σ → Prop
  | nil (s : σ) : Refuses p s [] s
  | cons {a : α} {items : List α} {s t u : σ} (call : p a s = (.ok false, t))
      (rest : Refuses p t items u) : Refuses p s (a :: items) u

/-- From a state and through a list of items: the calls of a search, its result and the state in
which it ends. -/
inductive Visits (p : StatefulTest α ε σ) (s : σ) :
    List α → List α → Except ε Bool → σ → Prop
  | all {items : List α} {t : σ} (refused : p.Refuses s items t) :
      Visits p s items items (.ok false) t
  | found {before after : List α} {a : α} {t u : σ} (refused : p.Refuses s before t)
      (call : p a t = (.ok true, u)) :
      Visits p s (before ++ a :: after) (before ++ [a]) (.ok true) u
  | failed {before after : List α} {a : α} {e : ε} {t u : σ} (refused : p.Refuses s before t)
      (call : p a t = (.error e, u)) :
      Visits p s (before ++ a :: after) (before ++ [a]) (.error e) u

section

variable {p : StatefulTest α ε σ} {a : α} {items calls : List α} {b : Bool} {e : ε} {s t u : σ}
  {result : Except ε Bool}

theorem Visits.cons (call : p a s = (.ok false, t)) (h : p.Visits t items calls result u) :
    p.Visits s (a :: items) (a :: calls) result u := by
  cases h with
  | all refused => exact .all (.cons call refused)
  | found refused last => exact .found (.cons call refused) last
  | failed refused last => exact .failed (.cons call refused) last

/-! ## One call -/

/-- A computation goes on in the state that its first call left, unless that call failed. -/
theorem bind_apply (call : ExceptT ε (StateM σ) Bool) (next : Bool → ExceptT ε (StateM σ) Bool)
    (s : σ) : (call >>= next) s = match call s with
      | (.ok b, t) => next b t
      | (.error e, t) => (.error e, t) := by
  change (match call s with | (x, t) => ExceptT.bindCont next x t) = _
  rcases call s with ⟨_ | _, t⟩
  · rfl
  · rfl

theorem anyM_cons_of_ok (call : p a s = (.ok b, t)) :
    (a :: items).anyM p s = if b then (.ok true, t) else items.anyM p t := by
  rw [List.anyM_cons, bind_apply, call]
  cases b <;> rfl

theorem anyM_cons_of_error (call : p a s = (.error e, t)) :
    (a :: items).anyM p s = (.error e, t) := by
  rw [List.anyM_cons, bind_apply, call]

theorem recording_eq (call : p a s = (result, t)) :
    p.recording a (s, calls) = (result, t, calls ++ [a]) := by
  rw [recording, call]

end

/-! ## A whole search -/

/-- A search ends as its calls show, and so does the search that records them. -/
theorem exists_visits (p : StatefulTest α ε σ) (items : List α) (s : σ) :
    ∃ calls result t, items.anyM p s = (result, t) ∧
      (∀ earlier, items.anyM p.recording (s, earlier) = (result, t, earlier ++ calls)) ∧
      p.Visits s items calls result t := by
  induction items generalizing s with
  | nil =>
    refine ⟨[], .ok false, s, rfl, fun earlier => ?_, .all (.nil s)⟩
    rw [List.append_nil]
    rfl
  | cons a items ih =>
    rcases call : p a s with ⟨e | found, t⟩
    · refine ⟨[a], .error e, t, anyM_cons_of_error call, fun earlier => ?_, ?_⟩
      · exact anyM_cons_of_error (recording_eq call)
      · exact .failed (.nil s) call
    · cases found with
      | true =>
        refine ⟨[a], .ok true, t, anyM_cons_of_ok call, fun earlier => ?_, ?_⟩
        · exact anyM_cons_of_ok (recording_eq call)
        · exact .found (.nil s) call
      | false =>
        obtain ⟨calls, result, u, hrun, hrecording, hvisits⟩ := ih t
        refine ⟨a :: calls, result, u, (anyM_cons_of_ok call).trans hrun, fun earlier => ?_, ?_⟩
        · rw [List.append_cons earlier a calls]
          exact (anyM_cons_of_ok (recording_eq call)).trans (hrecording _)
        · exact hvisits.cons call

/-- A search with a test that keeps no state has the result of the plain search and leaves the
state. -/
theorem anyM_stateless (q : α → Except ε Bool) (items : List α) (s : σ) :
    items.anyM (stateless q) s = (items.anyM q, s) := by
  induction items with
  | nil => rfl
  | cons a items ih =>
    rw [List.anyM_cons, List.anyM_cons, bind_apply, stateless]
    cases q a with
    | error e => rfl
    | ok found =>
      cases found with
      | true => rfl
      | false => exact ih

end StatefulTest

/-! ## Pairs -/

section

variable {m : Type → Type} [Monad m]

theorem anyM_map (p : β → m Bool) (f : α → β) (l : List α) :
    (l.map f).anyM p = l.anyM fun a => p (f a) := by
  induction l with
  | nil => rfl
  | cons a l ih => rw [List.map_cons, List.anyM_cons, List.anyM_cons, ih]

variable [LawfulMonad m]

theorem anyM_append (p : α → m Bool) (l l' : List α) :
    (l ++ l').anyM p = l.anyM p >>= fun b => if b then pure true else l'.anyM p := by
  induction l with
  | nil => rw [List.nil_append, List.anyM_nil, pure_bind, if_neg Bool.false_ne_true]
  | cons a l ih =>
    rw [List.cons_append, List.anyM_cons, List.anyM_cons, bind_assoc, ih]
    congr 1
    funext b
    cases b with
    | true => rw [if_pos rfl, if_pos rfl, pure_bind, if_pos rfl]
    | false => rfl

/-- A pass over all pairs is a pass over the left list, with one over the right list inside. -/
theorem anyM_product (p : α × β → m Bool) (l : List α) (l' : List β) :
    (l ×ˢ l').anyM p = l.anyM fun a => l'.anyM fun b => p (a, b) := by
  induction l with
  | nil => rfl
  | cons a l ih => rw [List.product_cons, anyM_append, anyM_map, ih, List.anyM_cons]

theorem Outcome.anyPair_eq_anyM_product (p : Value × Value → m Bool) (left right : Outcome) :
    left.anyPair (Function.curry p) right = (left.values ×ˢ right.values).anyM p :=
  (anyM_product p left.values right.values).symm

end

/-- **The pairs that a search visits.** A search calls its test on all pairs of a left and a right
value, those of the first left value before those of the next, in the state that the call before
left; it ends with the first pair on which the test is true or fails, and has what the test says
there as its result, or `false` when there is no such pair. A test that records its calls shows
them, and a test without a state is no exception. -/
theorem Outcome.anyPair_visits (left right : Outcome) :
    (∀ (p : StatefulTest (Value × Value) ε σ) (s : σ), ∃ calls result t,
      left.anyPair (Function.curry p) right s = (result, t) ∧
      left.anyPair (Function.curry p.recording) right (s, []) = (result, t, calls) ∧
      p.Visits s (left.values ×ˢ right.values) calls result t) ∧
    ∀ (q : Value × Value → Except ε Bool) (s : σ), ∃ calls,
      (StatefulTest.stateless q).Visits s (left.values ×ˢ right.values) calls
        (left.anyPair (Function.curry q) right) s := by
  constructor
  · intro p s
    obtain ⟨calls, result, t, hrun, hrecording, hvisits⟩ :=
      p.exists_visits (left.values ×ˢ right.values) s
    refine ⟨calls, result, t, ?_, ?_, hvisits⟩
    · rw [anyPair_eq_anyM_product, hrun]
    · rw [anyPair_eq_anyM_product, hrecording, List.nil_append]
  · intro q s
    obtain ⟨calls, result, t, hrun, -, hvisits⟩ :=
      (StatefulTest.stateless q).exists_visits (left.values ×ˢ right.values) s
    rw [StatefulTest.anyM_stateless] at hrun
    cases hrun
    rw [anyPair_eq_anyM_product]
    exact ⟨calls, hvisits⟩

end RecordQuery
