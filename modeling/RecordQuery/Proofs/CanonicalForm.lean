import RecordQuery.Proofs.Narrowing
import RecordQuery.Proofs.WrittenForm
import RecordQuery.Query.Evaluation

/-!
Documents through queries. Calls may have a mark in front of their token, and literals may hold
whole numbers that values do not. The canonical form of a document has neither. It stands for the
same query, and it is what this query is written as, up to the order of members
(`canonical_of_ofJson`).
-/

namespace RecordQuery

namespace Query

/-! ## The canonical form -/

mutual

/-- Tokens of calls without their mark, and literals with narrow numbers. What looks like a call
inside a literal or among the segments of a path is none, and stays as it is. -/
def canonical : Json → Json
  | .array (.string token :: args) =>
    .array (.string (Operator.unmarked token) ::
      if Operator.ofToken? token = some .resolve then args else canonicalItems args)
  | .array items => .array items
  | document => document.narrow
termination_by structural document => document

def canonicalItems : List Json → List Json
  | [] => []
  | item :: rest => canonical item :: canonicalItems rest
termination_by structural items => items

end

theorem canonical_literal {document : Json} (h : ∀ items, document ≠ .array items) :
    canonical document = document.narrow := by
  cases document with
  | array items => exact absurd rfl (h items)
  | null | boolean | number | string | object => rfl

section

variable {token : String} {args : List Json}

theorem canonical_of_isToken {op : Operator} (named : op.IsToken token) (h : op ≠ .resolve) :
    canonical (.array (.string token :: args)) = call op (canonicalItems args) := by
  rw [canonical, Operator.ofToken?_eq_some_iff.mpr named, if_neg (mt Option.some.inj h),
    named.unmarked, call]

theorem canonical_of_isToken_resolve (named : Operator.resolve.IsToken token) :
    canonical (.array (.string token :: args)) = call .resolve args := by
  rw [canonical, Operator.ofToken?_eq_some_iff.mpr named, if_pos rfl, named.unmarked, call]

theorem canonical_call (op : Operator) (h : op ≠ .resolve) :
    canonical (call op args) = call op (canonicalItems args) :=
  canonical_of_isToken op.isToken_token h

theorem canonical_call_resolve : canonical (call .resolve args) = call .resolve args :=
  canonical_of_isToken_resolve Operator.resolve.isToken_token

end

theorem narrow_ne_array {document : Json} (h : ∀ items, document ≠ .array items)
    (items : List Json) : document.narrow ≠ .array items := by
  cases document with
  | array items => exact absurd rfl (h items)
  | null | boolean | number | string | object => exact nofun

theorem ofJson_ne_array {document : Json} (h : ∀ items, document ≠ .array items)
    (items : List Value) : Value.ofJson document ≠ .array items := by
  cases document with
  | array items => exact absurd rfl (h items)
  | number n =>
    rw [Value.ofJson, Value.ofNumber.eq_def]
    split
    · split
      · exact nofun
      · exact nofun
    · exact nofun
  | null | boolean | string | object => exact nofun

/-! ## Reading and writing it -/

/-- The canonical form stands for the same query. -/
theorem reads_canonical {document : Json} {q : Query} (h : Reads document q) :
    Reads (canonical document) q := by
  induction h with
  | @literal document h =>
    rw [canonical_literal h, ← Value.ofJson_narrow]
    exact .literal (narrow_ne_array h)
  | not named _ ih =>
    rw [canonical_of_isToken named nofun]
    exact .not (Operator.isToken_token _) ih
  | binary named _ _ ihl ihr =>
    rw [canonical_of_isToken named nofun]
    exact .binary (Operator.isToken_token _) ihl ihr
  | resolve named names =>
    rw [canonical_of_isToken_resolve named]
    exact .resolve (Operator.isToken_token _) names

theorem canonicalItems_canonicalItems {items : List Json}
    (h : ∀ item ∈ items, canonical (canonical item) = canonical item) :
    canonicalItems (canonicalItems items) = canonicalItems items := by
  induction items with
  | nil => rfl
  | cons item rest ih =>
    obtain ⟨hitem, hrest⟩ := List.forall_mem_cons.mp h
    rw [canonicalItems, canonicalItems, hitem, ih hrest]

theorem canonical_canonical {document : Json} {q : Query} (h : Reads document q) :
    canonical (canonical document) = canonical document := by
  induction h with
  | literal h =>
    rw [canonical_literal h, canonical_literal (narrow_ne_array h), Json.narrow_narrow]
  | not named _ ih =>
    rw [canonical_of_isToken named nofun, canonical_call .not nofun,
      canonicalItems_canonicalItems (List.forall_mem_singleton.mpr ih)]
  | @binary _ op _ _ _ _ named _ _ ihl ihr =>
    rw [canonical_of_isToken named nofun, canonical_call (.binary op) nofun,
      canonicalItems_canonicalItems
        (List.forall_mem_cons.mpr ⟨ihl, List.forall_mem_singleton.mpr ihr⟩)]
  | resolve named names =>
    rw [canonical_of_isToken_resolve named, canonical_call_resolve]

theorem Step.text_ofText (s : String) : (ofText s).text = s := by
  unfold ofText
  split
  · rename_i h
    exact h.symm
  · rfl

theorem alike_call {op : Operator} {args others : List Json}
    (h : List.Forall₂ Json.Alike args others) : (call op args).Alike (call op others) :=
  .array (.cons (.string op.token) h)

theorem alike_strings (names : List String) :
    List.Forall₂ Json.Alike (names.map .string) (names.map .string) :=
  List.forall₂_map_left_iff.mpr (List.forall₂_map_right_iff.mpr
    (List.forall₂_same.mpr fun name _ => .string name))

/-- The query that a document stands for is written as the canonical form. -/
theorem exists_toJson_alike {document : Json} {q : Query} (h : Reads document q) :
    ∃ written, q.toJson = .ok written ∧ written.Alike (canonical document) := by
  induction h with
  | @literal document h =>
    rw [canonical_literal h]
    exact ⟨_, toJson_literal (ofJson_ne_array h), Value.alike_toJson_ofJson document⟩
  | not named _ ih =>
    obtain ⟨written, hwritten, halike⟩ := ih
    refine ⟨call .not [written], by rw [toJson, hwritten]; rfl, ?_⟩
    rw [canonical_of_isToken named nofun]
    exact alike_call (.cons halike .nil)
  | @binary _ op _ _ _ _ named _ _ ihl ihr =>
    obtain ⟨l, hl, hleft⟩ := ihl
    obtain ⟨r, hr, hright⟩ := ihr
    refine ⟨call (.binary op) [l, r], by rw [toJson, hl, hr]; rfl, ?_⟩
    rw [canonical_of_isToken named nofun]
    exact alike_call (.cons hleft (.cons hright .nil))
  | resolve named names =>
    have hsegments : (names.map Step.ofText).map (fun step => Json.string step.text) =
        names.map Json.string := by
      rw [List.map_map]
      exact List.map_congr_left fun name _ => congrArg Json.string (Step.text_ofText name)
    refine ⟨_, rfl, ?_⟩
    rw [canonical_of_isToken_resolve named, hsegments]
    exact alike_call (alike_strings names)

/-- All limits treat a document that stands for a query and its canonical form the same. -/
theorem ofJson_canonical {document : Json} {q : Query} (h : Reads document q) (limits : Limits) :
    ofJson limits (canonical document) = ofJson limits document :=
  (readWithin_of_reads (reads_canonical h)).trans (readWithin_of_reads h).symm

/-- **Reading and writing.** The query that a document is read as has a written form, and that is
the canonical form of the document up to the order of members. The canonical form of it is itself,
and all limits and records treat it like the document. Numbers in it are as they were, but for whole
ones that values do not hold: these become the nearest double. -/
theorem canonical_of_ofJson {limits : Limits} {document : Json} {q : Query}
    (h : ofJson limits document = .ok q) :
    (∃ written, q.toJson = .ok written ∧ written.Alike (canonical document)) ∧
    ofJson limits (canonical document) = .ok q ∧
    canonical (canonical document) = canonical document ∧
    (∀ limits', ofJson limits' (canonical document) = ofJson limits' document ∧
      ∀ data schema, (do (← ofJson limits' (canonical document)).evaluate limits' data schema) =
        (do (← ofJson limits' document).evaluate limits' data schema)) ∧
    (∀ n inRange, n < 0x8000000000000000 →
      (Json.Number.integer n inRange).narrow = .integer n inRange) ∧
    ∀ n inRange, 0x8000000000000000 ≤ n → ∃ x finite,
      (Json.Number.integer n inRange).narrow = .float x finite ∧ x.IsNearest n := by
  have hread := reads_of_readWithin h
  refine ⟨exists_toJson_alike hread, (ofJson_canonical hread limits).trans h,
    canonical_canonical hread,
    fun limits' => ⟨ofJson_canonical hread limits', fun data schema => ?_⟩,
    fun n inRange hn => dif_neg (Int.not_le.mpr hn), fun n inRange hn => ?_⟩
  · rw [ofJson_canonical hread]
  · exact ⟨_, _, dif_pos hn, Binary64.isNearest_ofInt hn inRange.2⟩

/-- Marks stay on segments and inside literals, and numbers become doubles there as well. -/
theorem canonical_of_ofJson_marks :
    let document (eq and : String) (low high : Json.Number) : Json :=
      .array [.string and, .array [.string eq, .array [.string "resolve", .string "#eq"],
        .number low], .object (.ofList [("k", .array [.string "#not", .number high])])]
    let marked := document "#eq" "#and" (.integer 9223372036854775808 (by decide))
      (.integer 18446744073709551615 (by decide))
    let form := document "eq" "and" (.float ⟨0x43e0000000000000⟩ (by decide))
      (.float ⟨0x43f0000000000000⟩ (by decide))
    ∃ q, ofJson {} marked = .ok q ∧ ofJson {} form = .ok q ∧ canonical marked = form ∧
      ∃ written, q.toJson = .ok written ∧ written.Alike form := by
  intro document marked form
  have hform : canonical marked = form := by
    have hcanonical (low high : Json.Number) : canonical (document "#eq" "#and" low high) =
        document "eq" "and" low.narrow high.narrow := rfl
    exact (hcanonical _ _).trans
      (congrArg₂ (document "eq" "and") (by decide +kernel) (by decide +kernel))
  obtain ⟨q, hq⟩ : ∃ q, ofJson {} marked = .ok q := ⟨_, rfl⟩
  obtain ⟨hwritten, hagain, -⟩ := canonical_of_ofJson hq
  rw [hform] at hwritten hagain
  exact ⟨q, hq, hagain, hform, hwritten⟩

end Query

end RecordQuery
