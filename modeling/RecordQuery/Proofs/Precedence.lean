import RecordQuery.Proofs.CompatibleSchemas
import RecordQuery.Proofs.Pointers
import RecordQuery.Proofs.Violations

/-!
The order of violations. As long as no object of a schema declares a name again, the violation that
a check finds comes before every other one of the record (`First.precedes`). Its pointer reads back
as the way to it, and pointers to different places of a record differ (`Leads.eq_of_pointer_eq`), so
a rejection points at the first violation (`structural_points_at_first_violation`).
-/

namespace RecordQuery.Schema

/-- The order depth first: missing names as the node requires them, then all that stands below it,
properties as they are declared and items by index. -/
inductive Precedes : Schema → Violation → Violation → Prop
  | missing {properties : List (String × Schema)} {required : List String} {name name' : String}
      (before : required.idxOf name < required.idxOf name') :
      Precedes (.object properties required) ⟨[], .missing name⟩ ⟨[], .missing name'⟩
  | above {schema : Schema} {m m' : Mismatch} {segment : Segment} {position : List Segment} :
      Precedes schema ⟨[], m⟩ ⟨segment :: position, m'⟩
  | property {properties : List (String × Schema)} {required : List String} {name name' : String}
      {m m' : Mismatch} {position position' : List Segment}
      (before : (properties.map Prod.fst).idxOf name < (properties.map Prod.fst).idxOf name') :
      Precedes (.object properties required) ⟨.field name :: position, m⟩
        ⟨.field name' :: position', m'⟩
  | field {properties : List (String × Schema)} {required : List String} {name : String}
      {child : Schema} {m m' : Mismatch} {position position' : List Segment}
      (declared : (name, child) ∈ properties)
      (below : Precedes child ⟨position, m⟩ ⟨position', m'⟩) :
      Precedes (.object properties required) ⟨.field name :: position, m⟩
        ⟨.field name :: position', m'⟩
  | index {items : Schema} {i j : Nat} {m m' : Mismatch} {position position' : List Segment}
      (before : i < j) :
      Precedes (.array items) ⟨.item i :: position, m⟩ ⟨.item j :: position', m'⟩
  | item {items : Schema} {i : Nat} {m m' : Mismatch} {position position' : List Segment}
      (below : Precedes items ⟨position, m⟩ ⟨position', m'⟩) :
      Precedes (.array items) ⟨.item i :: position, m⟩ ⟨.item i :: position', m'⟩

variable {schema node : Schema} {data v : Value} {x y : Violation} {m m' : Mismatch}
  {position position' : List Segment}

/-! ## The first violation -/

theorem idxOf_lt_idxOf {α : Type} [DecidableEq α] {front back : List α} {a b : α}
    (hb : b ∉ front) (hne : a ≠ b) :
    (front ++ a :: back).idxOf a < (front ++ a :: back).idxOf b := by
  induction front with
  | nil =>
    rw [List.nil_append, List.idxOf_cons_self, List.idxOf_cons_ne _ hne]
    exact Nat.succ_pos _
  | cons c front ih =>
    obtain ⟨hc, hb⟩ := List.ne_and_not_mem_of_not_mem_cons hb
    rw [List.cons_append, List.idxOf_cons_ne _ hc.symm]
    by_cases ha : c = a
    · rw [List.idxOf_cons_eq _ ha]
      exact Nat.succ_pos _
    · rw [List.idxOf_cons_ne _ ha]
      exact Nat.succ_lt_succ (ih hb)

/-- What does not conform under another name is declared after all that was passed. -/
theorem precedes_of_name_ne {front back : List (String × Schema)} {required : List String}
    {fields : Fields none} {name name' : String} {child child' : Schema}
    (hnodup : ((front ++ (name, child) :: back).map Prod.fst).Nodup)
    (hbefore : ∀ p ∈ front, ∀ u, fields.get? p.1 = some u → p.2.Conforms u)
    (hdeclared : (name', child') ∈ front ++ (name, child) :: back)
    (hpresent : fields.get? name' = some v) (hv : ¬ child'.Conforms v) (hne : name ≠ name') :
    Precedes (.object (front ++ (name, child) :: back) required) ⟨.field name :: position, m⟩
      ⟨.field name' :: position', m'⟩ := by
  have hfront : name' ∉ front.map Prod.fst := by
    intro hmem
    obtain ⟨p, hp, hname⟩ := List.mem_map.mp hmem
    have hsame : p = (name', child') :=
      List.inj_on_of_nodup_map hnodup (List.mem_append_left _ hp) hdeclared hname
    subst hsame
    exact hv (hbefore _ hp v hpresent)
  refine .property ?_
  rw [List.map_append, List.map_cons]
  exact idxOf_lt_idxOf hfront hne

theorem DistinctNames.items {items : Schema} (h : (Schema.array items).DistinctNames) :
    items.DistinctNames := by
  cases h with
  | array each => exact each

/-- All violations of a record but the first come after it. -/
theorem First.precedes (h : First schema data x) (hdistinct : schema.DistinctNames)
    (hleads : Leads schema data position node v) (hmismatched : Mismatched node v m)
    (hne : ⟨position, m⟩ ≠ x) : Precedes schema x ⟨position, m⟩ := by
  induction h generalizing position with
  | missing before absent =>
    cases hleads with
    | here =>
      cases hmismatched with
      | missing mem absent' =>
        refine .missing (idxOf_lt_idxOf (fun hmem => ?_) fun hname => hne ?_)
        · simpa [absent'] using before _ hmem
        · rw [hname]
      | wrongKind other => exact absurd (.object _ _ _) other
    | field => exact .above
  | wrongKind other =>
    cases hleads with
    | here =>
      cases hmismatched with
      | missing => exact absurd (.object _ _ _) other
      | wrongKind => exact absurd rfl hne
    | field | item => exact .above
  | @field front back _ _ name child _ _ _ complete before present _ ih =>
    obtain ⟨hnodup, heach⟩ := hdistinct
    cases hleads with
    | here =>
      cases hmismatched with
      | missing mem absent => simpa [absent] using complete _ mem
      | wrongKind other => exact absurd (.object _ _ _) other
    | @field _ _ _ name' _ _ _ _ _ declared present' below =>
      by_cases hname : name = name'
      · have hchild : (name, child) ∈ front ++ (name, child) :: back := by simp
        cases List.inj_on_of_nodup_map hnodup hchild declared hname
        cases present.symm.trans present'
        refine .field hchild (ih (heach _ hchild) below ?_)
        rintro ⟨⟩
        exact hne rfl
      · have hv := fun hv => (below.conforms hv).not_mismatched hmismatched
        exact precedes_of_name_ne hnodup before declared present' hv hname
  | @item _ front _ _ _ _ before _ ih =>
    cases hleads with
    | here =>
      cases hmismatched with
      | wrongKind other => exact absurd (.array _ _) other
    | @item _ _ _ index _ _ _ present below =>
      rcases Nat.lt_trichotomy index front.length with hlt | rfl | hgt
      · rw [List.getElem?_append_left hlt] at present
        have hv := before _ (List.mem_of_getElem? present)
        exact absurd hmismatched (below.conforms hv).not_mismatched
      · rw [List.getElem?_append_right le_rfl, Nat.sub_self, List.getElem?_cons_zero] at present
        cases present
        refine .item (ih hdistinct.items below ?_)
        rintro ⟨⟩
        exact hne rfl
      · exact .index hgt

theorem Precedes.asymm (h : Precedes schema x y) (hdistinct : schema.DistinctNames) :
    ¬ Precedes schema y x := by
  intro hback
  induction h with
  | missing before =>
    cases hback with
    | missing after => exact absurd after before.asymm
  | above => cases hback
  | property before =>
    cases hback with
    | property after => exact absurd after before.asymm
    | field => exact absurd before (lt_irrefl _)
  | field declared _ ih =>
    obtain ⟨hnodup, heach⟩ := hdistinct
    cases hback with
    | property after => exact absurd after (lt_irrefl _)
    | field declared' below =>
      cases List.inj_on_of_nodup_map hnodup declared declared' rfl
      exact ih (heach _ declared) below
  | index before =>
    cases hback with
    | index after => exact absurd after before.asymm
    | item => exact absurd before (lt_irrefl _)
  | item _ ih =>
    cases hback with
    | index after => exact absurd after (lt_irrefl _)
    | item below => exact ih hdistinct.items below

/-! ## Pointers to places -/

theorem map_text_eq_of_pointer_eq (h : pointer position = pointer position') :
    position.map Segment.text = position'.map Segment.text := by
  rw [← pointerSegments_pointer, h, pointerSegments_pointer]

theorem index_eq_of_text_eq {i j : Nat} (h : (Segment.item i).text = (Segment.item j).text) :
    i = j := by
  have hdigits : Nat.toDigits 10 i = Nat.toDigits 10 j := by
    rw [← Nat.toList_repr, ← Nat.toList_repr]
    exact congrArg String.toList h
  calc
    i = Nat.ofDigitChars 10 (Nat.toDigits 10 i) 0 := Nat.ofDigitChars_ten_toDigits.symm
    _ = Nat.ofDigitChars 10 (Nat.toDigits 10 j) 0 := by rw [hdigits]
    _ = j := Nat.ofDigitChars_ten_toDigits

/-- In one record an index is never mistaken for a name of the same text. -/
theorem Leads.eq_of_map_text_eq {schema' node' : Schema} {v' : Value}
    (h : Leads schema data position node v) (h' : Leads schema' data position' node' v')
    (htext : position.map Segment.text = position'.map Segment.text) : position = position' := by
  induction h generalizing schema' position' with
  | here => exact (List.map_eq_nil_iff.mp htext.symm).symm
  | field _ present _ ih =>
    cases h' with
    | here => cases htext
    | field _ present' below =>
      obtain ⟨hname, hrest⟩ := List.cons.inj htext
      cases hname
      cases present.symm.trans present'
      rw [ih below hrest]
  | item present _ ih =>
    cases h' with
    | here => cases htext
    | item present' below =>
      obtain ⟨hindex, hrest⟩ := List.cons.inj htext
      cases index_eq_of_text_eq hindex
      cases present.symm.trans present'
      rw [ih below hrest]

theorem Leads.eq_of_pointer_eq {schema' node' : Schema} {v' : Value}
    (h : Leads schema data position node v) (h' : Leads schema' data position' node' v')
    (hpointer : pointer position = pointer position') : position = position' :=
  h.eq_of_map_text_eq h' (map_text_eq_of_pointer_eq hpointer)

/-- **A rejection points at the first violation.** Where no object of a schema declares a name
again, the pointer of a rejection reads back as a way down the record and the schema to a value that
is rejected at its own node with the same reason, and all other violations of the record come after
that one. Pointers to different places always differ. -/
theorem structural_points_at_first_violation (schema : Schema) (data : Value) :
    (schema.DistinctNames → ∀ r, structural data schema = .error r → ∃ x node v,
      r = x.rejection ∧ pointerSegments r.path = x.position.map Segment.text ∧
      Leads schema data x.position node v ∧ Mismatched node v x.mismatch ∧
      structural v node = .error ⟨"", r.reason⟩ ∧
      ∀ y, Violates schema data y → y ≠ x → Precedes schema x y ∧ ¬ Precedes schema y x) ∧
    (∀ position position' : List Segment, pointer position = pointer position' →
      position.map Segment.text = position'.map Segment.text) ∧
    ∀ position position' node node' v v', Leads schema data position node v →
      Leads schema data position' node' v' → pointer position = pointer position' →
      position = position' := by
  refine ⟨fun hdistinct r hr => ?_, fun _ _ => map_text_eq_of_pointer_eq, ?_⟩
  · obtain ⟨x, hfirst, rfl⟩ := structural_eq_error_iff.mp hr
    obtain ⟨node, v, hleads, hhere⟩ := hfirst.leads
    refine ⟨x, node, v, rfl, pointerSegments_pointer _, hleads, hhere.mismatched, ?_, ?_⟩
    · exact structural_eq_error_iff.mpr ⟨_, hhere, rfl⟩
    · rintro y ⟨node', v', hleads', hmismatched⟩ hne
      have hprecedes := hfirst.precedes hdistinct hleads' hmismatched hne
      exact ⟨hprecedes, hprecedes.asymm hdistinct⟩
  · intro position position' node node' v v' h h'
    exact h.eq_of_pointer_eq h'

/-- The pointer of a rejection reads back with names that were escaped, and another violation comes
later although its pointer is shorter. -/
theorem structural_points_at_first_violation_names :
    let rows : Schema := .array (.object [("~1", .scalar .string)] [])
    let schema : Schema := .object [("a/~", rows), ("0", .scalar .boolean)] ["0"]
    let elements : List Value :=
      [.object (.ofList [("~1", .string "b")]), .object (.ofList [("~1", .integer 2)])]
    let data : Value := .object (.ofList [("0", .null), ("a/~", .array elements)])
    let r : Rejection := ⟨"/a~1~0/1/~01", "expected string, got integer"⟩
    schema.DistinctNames ∧ structural data schema = .error r ∧
      pointerSegments r.path = ["a/~", "1", "~1"] ∧ ∃ x node v, r = x.rejection ∧
        Leads schema data x.position node v ∧ structural v node = .error ⟨"", r.reason⟩ ∧
        Precedes schema x ⟨[.field "0"], .wrongKind (.scalar .boolean) .null⟩ := by
  intro rows schema elements data r
  have hdistinct : schema.DistinctNames := by
    refine .object (by decide) fun p hp => ?_
    rcases List.mem_pair.mp hp with rfl | rfl
    · refine .array (.object (by decide) fun p hp => ?_)
      cases List.mem_singleton.mp hp
      exact .scalar .string
    · exact .scalar .boolean
  have hrejected : structural data schema = .error r := by decide
  have hother : Violates schema data ⟨[.field "0"], .wrongKind (.scalar .boolean) .null⟩ := by
    refine ⟨.scalar .boolean, .null, .field (by simp) ?_ (.here _ _), .wrongKind nofun⟩
    simp [Fields.ofList, Fields.get?_insert]
  obtain ⟨x, node, v, hx, -, hleads, -, hhere, hlater⟩ :=
    (structural_points_at_first_violation schema data).1 hdistinct r hrejected
  refine ⟨hdistinct, hrejected, by decide, x, node, v, hx, hleads, hhere, ?_⟩
  refine (hlater _ hother ?_).1
  rintro rfl
  revert hx
  decide

end RecordQuery.Schema
