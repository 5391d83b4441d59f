import RecordQuery.Proofs.Admission

/-!
Folding. A part of a query that evaluates to one value may give way to a literal of that value: the
query evaluates as before, to the same outcome or the same error (`Folded.evaluate_eq`). Any number
of parts may be folded, one after the other and in any order (`evaluate_foldAt`). A part that stands
inside one that was folded before is gone, and its place is then left alone.
-/

namespace RecordQuery.Query

/-- One step down a query. -/
inductive Turn where
  | operand
  | left
  | right

/-- The part of a query at a place. -/
def part? : List Turn → Query → Option Query
  | [], q => some q
  | .operand :: place, .not operand => operand.part? place
  | .left :: place, .binary _ left _ => left.part? place
  | .right :: place, .binary _ _ right => right.part? place
  | _ :: _, _ => none

/-- Puts a literal in the place of a part; where there is no such place nothing changes. -/
def foldAt (v : Value) : List Turn → Query → Query
  | [], _ => .literal v
  | .operand :: place, .not operand => .not (operand.foldAt v place)
  | .left :: place, .binary op left right => .binary op (left.foldAt v place) right
  | .right :: place, .binary op left right => .binary op left (right.foldAt v place)
  | _ :: _, q => q

/-- The places of a query are the occurrences of its parts. -/
theorem mem_parts_iff {q s : Query} : s ∈ q.parts ↔ ∃ place, q.part? place = some s := by
  constructor
  · intro h
    induction q with
    | literal v | resolve path => exact ⟨[], congrArg some (List.mem_singleton.mp h).symm⟩
    | not operand ih =>
      rcases List.mem_cons.mp h with rfl | h
      · exact ⟨[], rfl⟩
      · obtain ⟨place, hplace⟩ := ih h
        exact ⟨.operand :: place, hplace⟩
    | binary op left right ihl ihr =>
      rcases List.mem_cons.mp h with rfl | h
      · exact ⟨[], rfl⟩
      · rcases List.mem_append.mp h with h | h
        · obtain ⟨place, hplace⟩ := ihl h
          exact ⟨.left :: place, hplace⟩
        · obtain ⟨place, hplace⟩ := ihr h
          exact ⟨.right :: place, hplace⟩
  · rintro ⟨place, h⟩
    induction place generalizing q with
    | nil =>
      cases h
      exact mem_parts_self
    | cons turn place ih =>
      cases q with
      | literal v | resolve path => cases turn <;> cases h
      | not operand =>
        cases turn with
        | operand => exact List.mem_cons_of_mem _ (ih h)
        | left | right => cases h
      | binary op left right =>
        cases turn with
        | operand => cases h
        | left => exact List.mem_cons_of_mem _ (List.mem_append_left _ (ih h))
        | right => exact List.mem_cons_of_mem _ (List.mem_append_right _ (ih h))

/-! ## Folded queries -/

section

variable (limits : Limits) (data : Value) (schema : Schema)

/-- A query in which any number of parts have given way to literals of their values. -/
inductive Folded : Query → Query → Prop
  | value {q : Query} {v : Value} (h : q.evaluate limits data schema = .ok (.scalar v)) :
      Folded q (.literal v)
  | literal (v : Value) : Folded (.literal v) (.literal v)
  | resolve (path : List Step) : Folded (.resolve path) (.resolve path)
  | not {q q' : Query} (operand : Folded q q') : Folded (.not q) (.not q')
  | binary {l l' r r' : Query} (op : BinaryOp) (left : Folded l l') (right : Folded r r') :
      Folded (.binary op l r) (.binary op l' r')

end

variable {limits : Limits} {data : Value} {schema : Schema} {q q' s : Query} {v : Value}

theorem evaluate_literal (h : 0 < limits.maxDepth) :
    (Query.literal v).evaluate limits data schema = .ok (.scalar v) := by
  rw [evaluate, ← Nat.sub_add_cancel h, evaluateWithin]

namespace Folded

theorem refl (q : Query) : Folded limits data schema q q := by
  induction q with
  | literal v => exact .literal v
  | not operand ih => exact .not ih
  | binary op left right ihl ihr => exact .binary op ihl ihr
  | resolve path => exact .resolve path

theorem depth_le (h : Folded limits data schema q q') : q'.depth ≤ q.depth := by
  induction h with
  | value => exact depth_pos _
  | literal | resolve => exact Nat.le_refl _
  | not _ ih => exact Nat.succ_le_succ ih
  | binary _ _ _ ihl ihr => exact Nat.succ_le_succ (max_le_max ihl ihr)

/-- A query that was folded evaluates as before. -/
theorem evaluate_eq (h : Folded limits data schema q q') (hdepth : q.depth ≤ limits.maxDepth) :
    q'.evaluate limits data schema = q.evaluate limits data schema := by
  induction h with
  | value h => rw [h, evaluate_literal (Nat.lt_of_lt_of_le (depth_pos _) hdepth)]
  | literal | resolve => rfl
  | not operand ih =>
    have hdepth' := (Nat.succ_le_succ operand.depth_le).trans hdepth
    rw [evaluate_not hdepth', evaluate_not hdepth, ih (Nat.le_of_succ_le hdepth)]
  | binary op left right ihl ihr =>
    have hdepth' :=
      (Nat.succ_le_succ (max_le_max left.depth_le right.depth_le)).trans hdepth
    obtain ⟨hl, hr⟩ := Nat.max_le.mp (Nat.le_of_succ_le hdepth)
    rw [evaluate_binary hdepth', evaluate_binary hdepth, ihl hl, ihr hr]

/-- Each part of the first query may be folded in turn, whatever was folded before. -/
theorem foldAt {place : List Turn} (h : Folded limits data schema q q')
    (hs : q.part? place = some s) (hv : s.evaluate limits data schema = .ok (.scalar v)) :
    Folded limits data schema q (q'.foldAt v place) := by
  induction place generalizing q q' with
  | nil =>
    cases hs
    exact .value hv
  | cons turn place ih =>
    cases h with
    | value h => cases turn <;> exact .value h
    | literal | resolve => cases turn <;> cases hs
    | not operand =>
      cases turn with
      | operand => exact .not (ih operand hs)
      | left | right => cases hs
    | binary op left right =>
      cases turn with
      | operand => cases hs
      | left => exact .binary op (ih left hs) right
      | right => exact .binary op left (ih right hs)

end Folded

/-- Folds at one place after the other. -/
def foldAll (q : Query) (folds : List (List Turn × Value)) : Query :=
  folds.foldl (fun q f => q.foldAt f.2 f.1) q

/-- The places are those of the first query, and so are the values. -/
theorem Folded.foldAll {folds : List (List Turn × Value)} (h : Folded limits data schema q q')
    (hfolds : ∀ f ∈ folds, ∃ s, q.part? f.1 = some s ∧
      s.evaluate limits data schema = .ok (.scalar f.2)) :
    Folded limits data schema q (q'.foldAll folds) := by
  induction folds generalizing q' with
  | nil => exact h
  | cons f folds ih =>
    obtain ⟨⟨s, hs, hv⟩, hfolds⟩ := List.forall_mem_cons.mp hfolds
    exact ih (h.foldAt hs hv) hfolds

/-- **Folding is sound.** In a query whose depth is permitted each occurrence of a part that
evaluates to one value may be replaced by the literal of this value, and so may any number of
occurrences in any order: the query evaluates to the same outcome or fails with the same error. -/
theorem evaluate_foldAt (q : Query) (data : Value) (schema : Schema) (limits : Limits)
    (h : q.depth ≤ limits.maxDepth) :
    (∀ s, s ∈ q.parts ↔ ∃ place, q.part? place = some s) ∧
    (∀ place s v, q.part? place = some s → s.evaluate limits data schema = .ok (.scalar v) →
      (q.foldAt v place).evaluate limits data schema = q.evaluate limits data schema) ∧
    ∀ folds : List (List Turn × Value),
      (∀ f ∈ folds, ∃ s, q.part? f.1 = some s ∧
        s.evaluate limits data schema = .ok (.scalar f.2)) →
      (q.foldAll folds).evaluate limits data schema = q.evaluate limits data schema := by
  have hself : Folded limits data schema q q := .refl q
  refine ⟨fun _ => mem_parts_iff, fun place s v hs hv => ?_, fun folds hfolds => ?_⟩
  · exact (hself.foldAt hs hv).evaluate_eq h
  · exact (hself.foldAll hfolds).evaluate_eq h

/-- A negation is folded before its operand, whose place is then gone, and the error stays. -/
theorem evaluate_foldAt_labels :
    let data : Value := .object (.ofList [("label", .string "a")])
    let schema : Schema := .object [("label", .scalar .string)] []
    let label : Query := .resolve [.property "label"]
    let q : Query := .binary .and (.not label)
      (.binary (.compare .lt) label (.literal (.integer 1)))
    let folds : List (List Turn × Value) :=
      [([.right, .left], .string "a"), ([.left], .boolean true), ([.left, .operand], .string "a")]
    q.depth ≤ ({} : Limits).maxDepth ∧
      q.foldAll folds = .binary .and (.literal (.boolean true))
        (.binary (.compare .lt) (.literal (.string "a")) (.literal (.integer 1))) ∧
      (q.foldAll folds).evaluate {} data schema =
        .error (.typeMismatch (.notOrdered .lt .string .integer)) := by
  intro data schema label q folds
  have hdepth : q.depth ≤ ({} : Limits).maxDepth := by decide
  have hlabel : label.evaluate {} data schema = .ok (.scalar (.string "a")) := rfl
  have hnot : (Query.not label).evaluate {} data schema = .ok (.scalar (.boolean true)) := rfl
  refine ⟨hdepth, rfl, ?_⟩
  rw [(evaluate_foldAt q data schema {} hdepth).2.2 folds]
  · rfl
  · intro f hf
    simp only [folds, List.mem_cons, List.not_mem_nil, or_false] at hf
    rcases hf with rfl | rfl | rfl
    · exact ⟨label, rfl, hlabel⟩
    · exact ⟨.not label, rfl, hnot⟩
    · exact ⟨label, rfl, hlabel⟩

end RecordQuery.Query
