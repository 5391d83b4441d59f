import RecordQuery.Proofs.Traversal
import RecordQuery.Query.Wire

/-!
What documents are read as, apart from the reader and its limits. A token names an operator bare or
with one mark in front (`ofToken?_eq_some_iff`). A document stands for one query at most, and the
reader gives it just when its depth is permitted (`readWithin_of_reads`, `readWithin_eq_ok_iff`).
-/

namespace RecordQuery

/-! ## Tokens -/

namespace Operator

/-- A token names an operator: it is the token of the operator, or that with one mark in front. -/
def IsToken (op : Operator) (token : String) : Prop :=
  token = op.token ∨ token = "#" ++ op.token

theorem isToken_token (op : Operator) : op.IsToken op.token := Or.inl rfl

theorem ofToken?_token (op : Operator) : ofToken? op.token = some op := by
  cases op with
  | binary op =>
    cases op with
    | compare c => cases c <;> rfl
    | and | or | contains => rfl
  | not | resolve => rfl

theorem unmarked_token (op : Operator) : unmarked op.token = op.token := by
  cases op with
  | binary op =>
    cases op with
    | compare c => cases c <;> rfl
    | and | or | contains => rfl
  | not | resolve => rfl

theorem toList_mark (s : String) : ("#" ++ s).toList = '#' :: s.toList := by
  rw [String.toList_append]
  rfl

theorem unmarked_mark (s : String) : unmarked ("#" ++ s) = s := by
  rw [unmarked, toList_mark]
  exact String.ofList_toList

theorem eq_of_unmarked_eq {token s : String} (h : unmarked token = s) :
    token = s ∨ token = "#" ++ s := by
  unfold unmarked at h
  split at h
  · rename_i rest hrest
    right
    rw [← h, ← String.toList_inj, toList_mark, String.toList_ofList, hrest]
  · exact Or.inl h

theorem IsToken.unmarked {op : Operator} {token : String} (h : op.IsToken token) :
    unmarked token = op.token := by
  rcases h with rfl | rfl
  · exact unmarked_token op
  · exact unmarked_mark op.token

/-- Exactly the tokens of an operator are taken for it. -/
theorem ofToken?_eq_some_iff {op : Operator} {token : String} :
    ofToken? token = some op ↔ op.IsToken token := by
  constructor
  · intro h
    unfold ofToken? at h
    have htoken := List.find?_some h
    exact eq_of_unmarked_eq (eq_of_beq htoken).symm
  · intro h
    rw [ofToken?, h.unmarked, ← unmarked_token op]
    exact ofToken?_token op

end Operator

namespace Query

theorem operatorOf_eq_ok_iff {head : Json} {op : Operator} :
    operatorOf head = .ok op ↔ ∃ token, head = .string token ∧ op.IsToken token := by
  unfold operatorOf
  split
  · rename_i token
    simp only [Json.string.injEq, exists_eq_left', ← Operator.ofToken?_eq_some_iff]
    cases Operator.ofToken? token with
    | none => simp
    | some op' => simp
  · rename_i hne
    constructor
    · intro h
      cases h
    · rintro ⟨token, rfl, _⟩
      exact absurd rfl (hne token)

/-! ## Documents and queries -/

/-- A document stands for a query. Arrays are calls, and all other documents are literals. -/
inductive Reads : Json → Query → Prop
  | literal {document : Json} (h : ∀ items, document ≠ .array items) :
      Reads document (.literal (Value.ofJson document))
  | not {token : String} {document : Json} {operand : Query}
      (named : Operator.not.IsToken token) (read : Reads document operand) :
      Reads (.array [.string token, document]) (.not operand)
  | binary {token : String} {op : BinaryOp} {l r : Json} {left right : Query}
      (named : (Operator.binary op).IsToken token) (readLeft : Reads l left)
      (readRight : Reads r right) :
      Reads (.array [.string token, l, r]) (.binary op left right)
  | resolve {token : String} (named : Operator.resolve.IsToken token) (names : List String) :
      Reads (.array (.string token :: names.map .string)) (.resolve (names.map Step.ofText))

theorem mapM_stepOf_string (names : List String) :
    (names.map Json.string).mapM stepOf = .ok (names.map Step.ofText) := by
  induction names with
  | nil => rfl
  | cons name names ih =>
    rw [List.map_cons, List.mapM_cons, ih]
    rfl

theorem mapM_stepOf_eq_ok {segments : List Json} {path : List Step}
    (h : segments.mapM stepOf = .ok path) :
    ∃ names : List String, segments = names.map Json.string ∧ path = names.map Step.ofText := by
  induction segments generalizing path with
  | nil =>
    cases h
    exact ⟨[], rfl, rfl⟩
  | cons segment segments ih =>
    rw [List.mapM_cons] at h
    obtain ⟨step, hstep, h⟩ := bind_eq_ok.mp h
    obtain ⟨steps, hsteps, h⟩ := bind_eq_ok.mp h
    cases h
    obtain ⟨names, rfl, rfl⟩ := ih hsteps
    cases segment with
    | string name =>
      cases hstep
      exact ⟨name :: names, rfl, rfl⟩
    | null | boolean | number | array | object => cases hstep

/-! ## The reader -/

section

variable {limits : Limits} {room : Nat} {token : String}

theorem readWithin_literal {document : Json} (h : ∀ items, document ≠ .array items) :
    readWithin limits (room + 1) document = .ok (.literal (Value.ofJson document)) := by
  cases document with
  | array items => exact absurd rfl (h items)
  | null | boolean | number | string | object => rfl

theorem readWithin_not {document : Json} (h : Operator.not.IsToken token) :
    readWithin limits (room + 1) (.array [.string token, document]) =
      readWithin limits room document >>= fun operand => pure (.not operand) := by
  rw [readWithin, operatorOf_eq_ok_iff.mpr ⟨token, rfl, h⟩]
  rfl

theorem readWithin_binary {op : BinaryOp} {l r : Json} (h : (Operator.binary op).IsToken token) :
    readWithin limits (room + 1) (.array [.string token, l, r]) =
      readWithin limits room l >>= fun left =>
        readWithin limits room r >>= fun right => pure (.binary op left right) := by
  rw [readWithin, operatorOf_eq_ok_iff.mpr ⟨token, rfl, h⟩]
  rfl

theorem readWithin_resolve {segments : List Json} (h : Operator.resolve.IsToken token) :
    readWithin limits (room + 1) (.array (.string token :: segments)) =
      segments.mapM stepOf >>= fun path => pure (.resolve path) := by
  rw [readWithin, operatorOf_eq_ok_iff.mpr ⟨token, rfl, h⟩]
  rfl

/-- A document that stands for a query is refused for its depth, and for nothing else. -/
theorem readWithin_of_reads {document : Json} {q : Query} (h : Reads document q) :
    readWithin limits room document =
      if q.depth ≤ room then .ok q else .error (.tooComplex (.nesting limits.maxDepth)) := by
  induction h generalizing room with
  | literal h =>
    cases room with
    | zero => rfl
    | succ room =>
      rw [readWithin_literal h, if_pos]
      exact Nat.le_add_left 1 room
  | @not _ _ operand named _ ih =>
    cases room with
    | zero => rfl
    | succ room =>
      have hdepth : operand.not.depth ≤ room + 1 ↔ operand.depth ≤ room :=
        Nat.add_le_add_iff_right
      rw [readWithin_not named, ih]
      by_cases hroom : operand.depth ≤ room
      · rw [if_pos hroom, if_pos (hdepth.mpr hroom)]
        rfl
      · rw [if_neg hroom, if_neg (mt hdepth.mp hroom)]
        rfl
  | @binary _ op _ _ left right named _ _ ihl ihr =>
    cases room with
    | zero => rfl
    | succ room =>
      have hdepth : (Query.binary op left right).depth ≤ room + 1 ↔
          left.depth ≤ room ∧ right.depth ≤ room := by
        rw [depth, Nat.add_le_add_iff_right, Nat.max_le]
      rw [readWithin_binary named, ihl, ihr]
      by_cases hleft : left.depth ≤ room
      · by_cases hright : right.depth ≤ room
        · rw [if_pos hleft, if_pos hright, if_pos (hdepth.mpr ⟨hleft, hright⟩)]
          rfl
        · rw [if_pos hleft, if_neg hright, if_neg fun h => hright (hdepth.mp h).2]
          rfl
      · rw [if_neg hleft, if_neg fun h => hleft (hdepth.mp h).1]
        rfl
  | resolve named names =>
    cases room with
    | zero => rfl
    | succ room =>
      rw [readWithin_resolve named, mapM_stepOf_string, if_pos]
      · rfl
      · exact Nat.le_add_left 1 room

theorem reads_of_readWithin {document : Json} {q : Query}
    (h : readWithin limits room document = .ok q) : Reads document q := by
  induction room generalizing document q with
  | zero => cases h
  | succ room ih =>
    cases document with
    | null | boolean | number | string | object =>
      cases h
      exact .literal nofun
    | array items =>
      cases items with
      | nil => cases h
      | cons head args =>
        obtain ⟨op, hop, hcall⟩ := bind_eq_ok.mp h
        obtain ⟨token, rfl, named⟩ := operatorOf_eq_ok_iff.mp hop
        split at hcall
        · obtain ⟨operand, hoperand, hcall⟩ := bind_eq_ok.mp hcall
          cases hcall
          exact .not named (ih hoperand)
        · obtain ⟨left, hleft, hcall⟩ := bind_eq_ok.mp hcall
          obtain ⟨right, hright, hcall⟩ := bind_eq_ok.mp hcall
          cases hcall
          exact .binary named (ih hleft) (ih hright)
        · obtain ⟨path, hpath, hcall⟩ := bind_eq_ok.mp hcall
          cases hcall
          obtain ⟨names, rfl, rfl⟩ := mapM_stepOf_eq_ok hpath
          exact .resolve named names
        · cases hcall

/-- The reader gives the query that a document stands for, when there is room for it. -/
theorem readWithin_eq_ok_iff {document : Json} {q : Query} :
    readWithin limits room document = .ok q ↔ Reads document q ∧ q.depth ≤ room := by
  constructor
  · intro h
    have hread := reads_of_readWithin h
    refine ⟨hread, Decidable.byContradiction fun hdepth => ?_⟩
    rw [readWithin_of_reads hread, if_neg hdepth] at h
    cases h
  · rintro ⟨hread, hdepth⟩
    rw [readWithin_of_reads hread, if_pos hdepth]

end

end Query

end RecordQuery
