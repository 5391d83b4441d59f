import Mathlib.Data.List.Induction
import RecordQuery.Proofs.DocumentFaults
import RecordQuery.Proofs.Pointers

/-!
Paths of faults in schema documents. The path joins names as they are, so that a slash in a name
reads as one between steps: two positions have one path when all their parts between slashes are
the same (`path_eq_path_iff`). Among plain names, those that never read as more than one step, a
path belongs to one position only (`position_eq_of_path_eq`). A name that is not plain shares a path
with plain ones (`exists_shared_path`). Only few positions have a path that no names whatever can
make up again (`identifies_iff_alone`).
-/

namespace RecordQuery.Schema

/-! ## Parts -/

/-- The parts of a name between its slashes. -/
def nameParts (name : String) : List (List Char) := name.toList.splitOn '/'

def propertiesPart : List Char := "properties".toList

def itemsPart : List Char := "items".toList

def Step.parts : Step → List (List Char)
  | .property name => propertiesPart :: nameParts name
  | .items => [itemsPart]

def parts (position : List Step) : List (List Char) := position.flatMap Step.parts

variable {e e' : Error} {name : String} {position position' : List Step} {part : List Char}

theorem parts_nil : parts [] = [] :=
  rfl

theorem parts_property : parts (.property name :: position) =
    propertiesPart :: (nameParts name ++ parts position) :=
  List.flatMap_cons

theorem parts_items : parts (.items :: position) = itemsPart :: parts position :=
  List.flatMap_cons

theorem itemsPart_ne_propertiesPart : itemsPart ≠ propertiesPart := by
  decide

theorem slash_not_mem_of_mem_splitOn {s : List Char} (h : part ∈ s.splitOn '/') : '/' ∉ part := by
  induction s generalizing part with
  | nil =>
    rw [List.splitOn_nil, List.mem_singleton] at h
    exact h ▸ List.not_mem_nil
  | cons c s ih =>
    rw [List.splitOn_cons_eq_if_modifyHead] at h
    split at h
    · rcases List.mem_cons.mp h with rfl | h
      · exact List.not_mem_nil
      · exact ih h
    · rename_i hslash
      obtain ⟨head, tail, hsplit⟩ := List.exists_cons_of_ne_nil (List.splitOn_ne_nil '/' s)
      rw [hsplit] at h ih
      rcases List.mem_cons.mp h with rfl | h
      · refine List.not_mem_cons_of_ne_of_not_mem (fun hc => hslash ?_) (ih (List.mem_cons_self ..))
        exact beq_iff_eq.mpr hc.symm
      · exact ih (List.mem_cons_of_mem _ h)

theorem Step.slash_not_mem_of_mem_parts (step : Step) (h : part ∈ step.parts) : '/' ∉ part := by
  cases step with
  | property name =>
    rcases List.mem_cons.mp h with rfl | hname
    · decide
    · exact slash_not_mem_of_mem_splitOn hname
  | items =>
    rw [List.mem_singleton.mp h]
    decide

theorem slash_not_mem_of_mem_parts (h : part ∈ parts position) : '/' ∉ part := by
  obtain ⟨step, -, hstep⟩ := List.mem_flatMap.mp h
  exact step.slash_not_mem_of_mem_parts hstep

theorem exists_nameParts_eq_cons (name : String) : ∃ head tail, nameParts name = head :: tail :=
  List.exists_cons_of_ne_nil (List.splitOn_ne_nil '/' name.toList)

theorem nameParts_injective : Function.Injective nameParts := by
  intro name name' h
  have hjoin := congrArg ['/'].intercalate h
  rw [nameParts, nameParts, List.intercalate_splitOn, List.intercalate_splitOn] at hjoin
  exact String.toList_injective hjoin

/-- Every list of texts without slashes is that of a name, except the empty one. -/
theorem exists_nameParts {texts : List (List Char)} (hne : texts ≠ [])
    (hslash : ∀ part ∈ texts, '/' ∉ part) : ∃ name, nameParts name = texts := by
  refine ⟨String.ofList (['/'].intercalate texts), ?_⟩
  rw [nameParts, String.toList_ofList, List.splitOn_intercalate '/' hslash hne]

/-- A name without slashes is its own only part. -/
theorem nameParts_of_slash_not_mem (h : '/' ∉ name.toList) : nameParts name = [name.toList] :=
  List.splitOn_eq_singleton h

theorem stepText_toList (step : Step) :
    (Error.stepText step).toList = step.parts.flatMap fun part => '/' :: part := by
  cases step with
  | items => rfl
  | property name =>
    have hname : '/' :: name.toList = (nameParts name).flatMap fun part => '/' :: part := by
      obtain ⟨head, tail, hparts⟩ := exists_nameParts_eq_cons name
      have hjoin : ['/'].intercalate (nameParts name) = name.toList := List.intercalate_splitOn '/'
      rw [hparts, ← List.map_id tail, intercalate_cons_map] at hjoin
      rw [hparts, List.flatMap_cons, List.cons_append, ← hjoin]
      rfl
    rw [Error.stepText, String.toList_append, Step.parts, List.flatMap_cons, ← hname]
    rfl

/-- The path of the root is a lone slash, with an empty part after it. -/
theorem path_toList (e : Error) : e.path.toList =
    ['/'].intercalate ([] :: if e.position = [] then [[]] else parts e.position) := by
  rw [Error.path]
  split
  · rfl
  · rw [← List.map_id (parts e.position), intercalate_cons_map, String.toList_join,
      List.flatMap_map, parts, List.flatMap_assoc, List.nil_append]
    exact List.flatMap_congr fun step _ => stepText_toList step

theorem splitOn_path (e : Error) :
    e.path.toList.splitOn '/' = [] :: if e.position = [] then [[]] else parts e.position := by
  rw [path_toList, List.splitOn_intercalate '/' _ (List.cons_ne_nil _ _)]
  intro part hpart
  rcases List.mem_cons.mp hpart with rfl | hpart
  · exact List.not_mem_nil
  · split at hpart
    · rw [List.mem_singleton.mp hpart]
      exact List.not_mem_nil
    · exact slash_not_mem_of_mem_parts hpart

theorem parts_eq_nil (h : parts position = []) : position = [] := by
  rcases position with _ | ⟨_ | _, position⟩
  · rfl
  · rw [parts_property] at h
    exact absurd h (List.cons_ne_nil _ _)
  · rw [parts_items] at h
    exact absurd h (List.cons_ne_nil _ _)

theorem parts_ne_root : parts position ≠ [[]] := by
  intro h
  rcases position with _ | ⟨_ | _, position⟩
  · exact absurd h.symm (List.cons_ne_nil _ _)
  · rw [parts_property] at h
    exact absurd (List.cons.inj h).1 (by decide)
  · rw [parts_items] at h
    exact absurd (List.cons.inj h).1 (by decide)

/-- Two faults have one path when the parts of their positions between slashes are the same. -/
theorem path_eq_path_iff : e.path = e'.path ↔ parts e.position = parts e'.position := by
  constructor
  · intro h
    have hsplit := congrArg (fun path : String => path.toList.splitOn '/') h
    rw [splitOn_path, splitOn_path, List.cons_inj_right] at hsplit
    split at hsplit <;> split at hsplit
    · simp_all
    · exact absurd hsplit.symm parts_ne_root
    · exact absurd hsplit parts_ne_root
    · exact hsplit
  · intro h
    have hroot : e.position = [] ↔ e'.position = [] := by
      constructor <;> intro hnil <;> rw [hnil] at h
      · exact parts_eq_nil h.symm
      · exact parts_eq_nil h
    apply String.toList_injective
    rw [path_toList, path_toList, h]
    simp only [hroot]

/-! ## Plain names -/

/-- No part after the first starts a property, and the last of them is no step to items. -/
def PlainParts (texts : List (List Char)) : Prop :=
  propertiesPart ∉ texts ∧ texts.getLast? ≠ some itemsPart

/-- In a path such a name does not read as more than one step. -/
def PlainName (name : String) : Prop := PlainParts (nameParts name).tail

instance (name : String) : Decidable (PlainName name) :=
  inferInstanceAs (Decidable (_ ∧ _))

/-- All names of a position are of some kind. -/
def NamedBy (kind : String → Prop) (position : List Step) : Prop :=
  ∀ name, .property name ∈ position → kind name

theorem plainName_of_slash_not_mem (h : '/' ∉ name.toList) : PlainName name := by
  rw [PlainName, nameParts_of_slash_not_mem h]
  exact ⟨List.not_mem_nil, nofun⟩

example : PlainName "a/items/b" ∧ ¬ PlainName "a/items" ∧ ¬ PlainName "a/properties/b" := by
  decide

variable {kind : String → Prop} {texts texts' rest : List (List Char)}

theorem namedBy_property : NamedBy kind (.property name :: position) ↔
    kind name ∧ NamedBy kind position := by
  simp [NamedBy]

theorem namedBy_items : NamedBy kind (.items :: position) ↔ NamedBy kind position := by
  simp [NamedBy]

theorem NamedBy.mono {kind' : String → Prop} (h : NamedBy kind position)
    (hkind : ∀ name, kind name → kind' name) : NamedBy kind' position :=
  fun name hname => hkind name (h name hname)

/-- Before its next property a position has only steps to items. -/
theorem eq_itemsPart_of_mem (h : parts position = texts ++ rest)
    (hproperties : propertiesPart ∉ texts) : ∀ part ∈ texts, part = itemsPart := by
  induction texts generalizing position with
  | nil => exact nofun
  | cons text texts ih =>
    obtain ⟨htext, htexts⟩ := List.ne_and_not_mem_of_not_mem_cons hproperties
    rcases position with _ | ⟨name | _, position⟩
    · exact absurd h (List.cons_ne_nil _ _).symm
    · rw [parts_property] at h
      exact absurd (List.cons.inj h).1 htext
    · rw [parts_items] at h
      obtain ⟨hhead, htail⟩ := List.cons.inj h
      exact List.forall_mem_cons.mpr ⟨hhead.symm, ih htail htexts⟩

theorem PlainParts.eq_of_append_prefix (hplain : PlainParts (texts ++ rest))
    (h : parts position = rest ++ texts') : rest = [] := by
  rcases List.eq_nil_or_concat rest with hnil | ⟨front, last, rfl⟩
  · exact hnil
  · have hproperties : propertiesPart ∉ front ++ [last] := fun hmem =>
      hplain.1 (List.mem_append_right _ (List.concat_eq_append ▸ hmem))
    rw [List.concat_eq_append] at h hplain
    have hlast := eq_itemsPart_of_mem h hproperties last (by simp)
    exact absurd (by simp [hlast]) hplain.2

theorem PlainParts.append_inj (hplain : PlainParts texts) (hplain' : PlainParts texts')
    (h : texts ++ parts position = texts' ++ parts position') :
    texts = texts' ∧ parts position = parts position' := by
  rcases List.append_eq_append_iff.mp h with ⟨rest, rfl, hrest⟩ | ⟨rest, rfl, hrest⟩
  · obtain rfl := hplain'.eq_of_append_prefix hrest
    exact ⟨(List.append_nil _).symm, hrest⟩
  · obtain rfl := hplain.eq_of_append_prefix hrest
    exact ⟨List.append_nil _, hrest.symm⟩

/-- Where a plain name ends is seen from what comes after it. -/
theorem PlainName.append_inj {name' : String} (hplain : PlainName name) (hplain' : PlainName name')
    (h : nameParts name ++ parts position = nameParts name' ++ parts position') :
    name = name' ∧ parts position = parts position' := by
  obtain ⟨head, tail, hparts⟩ := exists_nameParts_eq_cons name
  obtain ⟨head', tail', hparts'⟩ := exists_nameParts_eq_cons name'
  rw [PlainName, hparts] at hplain
  rw [PlainName, hparts'] at hplain'
  rw [hparts, hparts', List.cons_append, List.cons_append] at h
  obtain ⟨rfl, htails⟩ := List.cons.inj h
  obtain ⟨rfl, hbelow⟩ := PlainParts.append_inj hplain hplain' htails
  exact ⟨nameParts_injective (hparts.trans hparts'.symm), hbelow⟩

/-- With plain names, positions that have the same parts are the same. -/
theorem position_eq_of_parts_eq (hplain : NamedBy PlainName position)
    (hplain' : NamedBy PlainName position') (h : parts position = parts position') :
    position = position' := by
  induction position generalizing position' with
  | nil => exact (parts_eq_nil h.symm).symm
  | cons step position ih =>
    rcases position' with _ | ⟨step', position'⟩
    · exact parts_eq_nil h
    · cases step with
      | items =>
        cases step' with
        | items =>
          rw [parts_items, parts_items] at h
          rw [ih (namedBy_items.mp hplain) (namedBy_items.mp hplain') (List.cons.inj h).2]
        | property name' =>
          rw [parts_items, parts_property] at h
          exact absurd (List.cons.inj h).1 itemsPart_ne_propertiesPart
      | property name =>
        cases step' with
        | items =>
          rw [parts_items, parts_property] at h
          exact absurd (List.cons.inj h).1.symm itemsPart_ne_propertiesPart
        | property name' =>
          obtain ⟨hname, hrest⟩ := namedBy_property.mp hplain
          obtain ⟨hname', hrest'⟩ := namedBy_property.mp hplain'
          rw [parts_property, parts_property, List.cons_inj_right] at h
          obtain ⟨rfl, hbelow⟩ := hname.append_inj hname' h
          rw [ih hrest hrest' hbelow]

theorem position_eq_of_path_eq (hplain : NamedBy PlainName e.position)
    (hplain' : NamedBy PlainName e'.position) (h : e.path = e'.path) : e.position = e'.position :=
  position_eq_of_parts_eq hplain hplain' (path_eq_path_iff.mp h)

/-! ## Other names -/

theorem parts_replicate_items (count : Nat) :
    parts (List.replicate count .items ++ position) =
      List.replicate count itemsPart ++ parts position := by
  induction count with
  | zero => rfl
  | succ count ih =>
    rw [List.replicate_succ, List.cons_append, parts_items, ih]
    rfl

theorem namedBy_replicate_items (count : Nat) :
    NamedBy kind (List.replicate count .items ++ position) ↔ NamedBy kind position := by
  simp [NamedBy, List.mem_replicate]

theorem exists_strip_items (texts : List (List Char)) : ∃ front count,
    texts = front ++ List.replicate count itemsPart ∧ front.getLast? ≠ some itemsPart := by
  induction texts using List.reverseRecOn with
  | nil => exact ⟨[], 0, rfl, nofun⟩
  | append_singleton texts last ih =>
    by_cases hlast : last = itemsPart
    · obtain ⟨front, count, rfl, hfront⟩ := ih
      refine ⟨front, count + 1, ?_, hfront⟩
      rw [hlast, List.append_assoc, List.replicate_succ']
    · exact ⟨texts ++ [last], 0, by simp, by simpa using hlast⟩

/-- Parts that no property starts are those of a plain name and of steps to items. -/
theorem exists_plain_name {head : List Char} (hslash : ∀ part ∈ head :: texts, '/' ∉ part)
    (hproperties : propertiesPart ∉ texts) : ∃ name count, PlainName name ∧
      nameParts name ++ List.replicate count itemsPart = head :: texts := by
  obtain ⟨front, count, rfl, hfront⟩ := exists_strip_items texts
  rw [← List.cons_append, List.forall_mem_append] at hslash
  obtain ⟨name, hname⟩ := exists_nameParts (List.cons_ne_nil _ _) hslash.1
  refine ⟨name, count, ?_, by rw [hname, List.cons_append]⟩
  rw [PlainName, hname]
  exact ⟨fun hmem => hproperties (List.mem_append_left _ hmem), hfront⟩

/-- Parts that do not end in the start of a property are those of a position with plain names. -/
theorem exists_plain_position {head : List Char} {texts : List (List Char)}
    (hslash : ∀ part ∈ head :: texts, '/' ∉ part)
    (hlast : texts.getLast? ≠ some propertiesPart) : ∃ name position, PlainName name ∧
      NamedBy PlainName position ∧
      parts (.property name :: position) = propertiesPart :: head :: texts := by
  induction hlength : texts.length using Nat.strong_induction_on generalizing head texts with
  | _ length ih =>
  by_cases hproperties : propertiesPart ∈ texts
  · obtain ⟨front, back, rfl, hfront⟩ := List.eq_append_cons_of_mem hproperties
    rw [← List.cons_append, List.forall_mem_append] at hslash
    obtain ⟨hslash, -, hback⟩ := hslash.imp_right List.forall_mem_cons.mp
    obtain ⟨name, count, hname, hparts⟩ := exists_plain_name hslash hfront
    rcases back with _ | ⟨head', back⟩
    · exact absurd (by simp) hlast
    · have hlast' : back.getLast? ≠ some propertiesPart := fun h =>
        hlast (by simp [List.getLast?_append, List.getLast?_cons, h])
      obtain ⟨name', position, hname', hposition, hbelow⟩ :=
        ih back.length (by simp [← hlength]; omega) hback hlast' rfl
      refine ⟨name, List.replicate count .items ++ .property name' :: position, hname, ?_, ?_⟩
      · rw [namedBy_replicate_items, namedBy_property]
        exact ⟨hname', hposition⟩
      · rw [parts_property, parts_replicate_items, hbelow, ← List.append_assoc, hparts]
        rfl
  · obtain ⟨name, count, hname, hparts⟩ := exists_plain_name hslash hproperties
    refine ⟨name, List.replicate count .items ++ [], hname, ?_, ?_⟩
    · rw [namedBy_replicate_items]
      exact nofun
    · rw [parts_property, parts_replicate_items, ← List.append_assoc, hparts]
      exact congrArg _ (List.append_nil _)

/-- A name that is not plain shares its parts with plain names. -/
theorem exists_shared_parts (h : ¬ PlainName name) : ∃ name' position, name' ≠ name ∧
    PlainName name' ∧ NamedBy PlainName position ∧
    parts [.property name, .items] = parts (.property name' :: position) := by
  obtain ⟨head, tail, hparts⟩ := exists_nameParts_eq_cons name
  have hslash : ∀ part ∈ head :: (tail ++ [itemsPart]), '/' ∉ part := by
    rw [← List.cons_append, ← hparts, List.forall_mem_append]
    exact ⟨fun part => slash_not_mem_of_mem_splitOn, List.forall_mem_singleton.mpr (by decide)⟩
  have hlast : (tail ++ [itemsPart]).getLast? ≠ some propertiesPart := by
    rw [List.getLast?_concat]
    exact fun hitems => itemsPart_ne_propertiesPart (Option.some.inj hitems)
  obtain ⟨name', position, hname', hposition, hshared⟩ := exists_plain_position hslash hlast
  refine ⟨name', position, ?_, hname', hposition, ?_⟩
  · rintro rfl
    exact h hname'
  · rw [hshared, parts_property, hparts]
    rfl

/-! ## Positions with a path of their own -/

/-- Steps to items and then at most one property, whose name neither starts another property nor
ends in a step to items. -/
inductive Alone : List Step → Prop
  | root : Alone []
  | items {position : List Step} (below : Alone position) : Alone (.items :: position)
  | property {name : String} (starts : propertiesPart ∉ (nameParts name).tail.dropLast)
      (last : (nameParts name).tail.getLast? ≠ some itemsPart) : Alone [.property name]

/-- Whatever steps follow a name, they would start a property in it or end it in items. -/
theorem mem_dropLast_or_getLast? (hne : position ≠ []) :
    propertiesPart ∈ (parts position).dropLast ∨ (parts position).getLast? = some itemsPart := by
  induction position with
  | nil => exact absurd rfl hne
  | cons step position ih =>
    cases step with
    | property name =>
      obtain ⟨head, tail, hparts⟩ := exists_nameParts_eq_cons name
      rw [parts_property, hparts, List.cons_append, List.dropLast_cons_cons]
      exact Or.inl (List.mem_cons_self ..)
    | items =>
      rw [parts_items]
      cases hparts : parts position with
      | nil => exact Or.inr rfl
      | cons part rest =>
        have hposition : position ≠ [] := by
          rintro rfl
          cases hparts
        rw [List.dropLast_cons_cons, List.getLast?_cons_cons, ← hparts]
        exact (ih hposition).imp_left (List.mem_cons_of_mem _)

theorem eq_nil_of_append_eq {name' : String}
    (starts : propertiesPart ∉ (nameParts name).tail.dropLast)
    (last : (nameParts name).tail.getLast? ≠ some itemsPart)
    (h : nameParts name' ++ parts position = nameParts name) : position = [] := by
  by_contra hposition
  have hbelow : parts position ≠ [] := fun hnil => hposition (parts_eq_nil hnil)
  obtain ⟨head, tail, hname⟩ := exists_nameParts_eq_cons name'
  rw [← h, hname, List.cons_append, List.tail_cons] at starts last
  rcases mem_dropLast_or_getLast? hposition with hmem | hitems
  · rw [List.dropLast_append_of_ne_nil hbelow] at starts
    exact starts (List.mem_append_right _ hmem)
  · rw [List.getLast?_append, hitems] at last
    exact last rfl

theorem Alone.position_eq (h : Alone position) (hparts : parts position' = parts position) :
    position' = position := by
  induction h generalizing position' with
  | root => exact parts_eq_nil hparts
  | items _ ih =>
    rcases position' with _ | ⟨name' | _, position'⟩
    · exact (parts_eq_nil hparts.symm).symm
    · rw [parts_property, parts_items] at hparts
      exact absurd (List.cons.inj hparts).1.symm itemsPart_ne_propertiesPart
    · rw [parts_items, parts_items] at hparts
      rw [ih (List.cons.inj hparts).2]
  | @property name starts last =>
    rcases position' with _ | ⟨name' | _, position'⟩
    · exact (parts_eq_nil hparts.symm).symm
    · rw [parts_property, parts_property, List.cons_inj_right, parts_nil, List.append_nil] at hparts
      obtain rfl := eq_nil_of_append_eq starts last hparts
      rw [parts_nil, List.append_nil] at hparts
      rw [nameParts_injective hparts]
    · rw [parts_property, parts_items] at hparts
      exact absurd (List.cons.inj hparts).1 itemsPart_ne_propertiesPart

/-- A name that starts another property or ends in a step to items shares its parts. -/
theorem exists_split_property (h : ¬ Alone [.property name]) :
    ∃ name' step, parts [.property name', step] = parts [.property name] := by
  obtain ⟨head, tail, hparts⟩ := exists_nameParts_eq_cons name
  have hslash : ∀ part ∈ head :: tail, '/' ∉ part :=
    hparts ▸ fun part => slash_not_mem_of_mem_splitOn
  by_cases starts : propertiesPart ∈ tail.dropLast
  · obtain ⟨front, back, hfront⟩ := List.append_of_mem starts
    rcases List.eq_nil_or_concat' tail with rfl | ⟨rest, last, rfl⟩
    · cases starts
    · rw [List.dropLast_concat] at hfront
      subst hfront
      rw [List.append_assoc, List.cons_append, ← List.cons_append, List.forall_mem_append] at hslash
      obtain ⟨-, hback⟩ := List.forall_mem_cons.mp hslash.2
      obtain ⟨name', hname'⟩ := exists_nameParts (List.cons_ne_nil _ _) hslash.1
      obtain ⟨name'', hname''⟩ := exists_nameParts (List.concat_ne_nil _ _) hback
      refine ⟨name', .property name'', ?_⟩
      rw [parts_property, parts_property, parts_property, hname', hname'', hparts, parts_nil]
      simp
  · by_cases last : tail.getLast? = some itemsPart
    · obtain ⟨front, rfl⟩ := List.getLast?_eq_some_iff.mp last
      rw [← List.cons_append, List.forall_mem_append] at hslash
      obtain ⟨name', hname'⟩ := exists_nameParts (List.cons_ne_nil _ _) hslash.1
      refine ⟨name', .items, ?_⟩
      rw [parts_property, parts_property, parts_items, hname', hparts, parts_nil]
      simp
    · refine absurd (.property ?_ ?_) h <;> rw [hparts, List.tail_cons]
      · exact starts
      · exact last

/-- All other positions share their parts. -/
theorem exists_other_position (h : ¬ Alone position) :
    ∃ position', position' ≠ position ∧ parts position' = parts position := by
  induction position with
  | nil => exact absurd .root h
  | cons step position ih =>
    cases step with
    | items =>
      obtain ⟨position', hne, hparts⟩ := ih fun hbelow => h (.items hbelow)
      refine ⟨.items :: position', by simpa using hne, ?_⟩
      rw [parts_items, parts_items, hparts]
    | property name =>
      rcases position with _ | ⟨below, position⟩
      · obtain ⟨name', step, hparts⟩ := exists_split_property h
        exact ⟨_, by simp, hparts⟩
      · -- what follows the name may as well stand in it
        have hslash : ∀ part ∈ nameParts name ++ below.parts, '/' ∉ part :=
          List.forall_mem_append.mpr ⟨fun part => slash_not_mem_of_mem_splitOn,
            fun part => below.slash_not_mem_of_mem_parts⟩
        obtain ⟨name', hname'⟩ := exists_nameParts (by simp [nameParts]) hslash
        refine ⟨.property name' :: position, fun hsame => ?_, ?_⟩
        · simpa using congrArg List.length hsame
        · rw [parts_property, parts_property, hname', List.append_assoc]
          rfl

/-! ## Documents with faults at given positions -/

/-- An object document with the given properties. -/
def objectDocument (properties : List (String × Json)) : Json :=
  .object (.ofList [("type", .string "object"), ("properties", .object (.ofList properties))])

/-- A document that is in order but for what stands at a position. -/
def faultyAt : List Step → Json
  | [] => .null
  | .property name :: position => objectDocument [(name, faultyAt position)]
  | .items :: position =>
    .object (.ofList [("type", .string "array"), ("items", faultyAt position)])

theorem firstFault_faultyAt (position : List Step) :
    FirstFault (faultyAt position) ⟨position, .notObject⟩ := by
  induction position with
  | nil => exact .own (.notObject nofun) nofun
  | cons step position ih =>
    cases step with
    | property name => exact @FirstFault.property _ [] [] name _ _ _ rfl (.object _) nofun ih
    | items => exact .items rfl rfl ih

theorem hasFault_objectDocument {properties : List (String × Json)} {child : Json}
    {fault : Fault} (hdistinct : (properties.map Prod.fst).Nodup)
    (hmem : (name, child) ∈ properties) (h : HasFault child ⟨position, fault⟩) :
    HasFault (objectDocument properties) ⟨.property name :: position, fault⟩ := by
  refine .property rfl (.object _) ?_ h
  rw [Members.toList_ofList hdistinct]
  exact hmem

/-! ## Positions by their paths -/

/-- The path of a fault belongs to its position only, just when the position stands alone. -/
theorem identifies_iff_alone (e : Error) :
    (∀ document e', ofJson document = .error e' → e'.path = e.path → e'.position = e.position) ↔
      Alone e.position := by
  constructor
  · intro hidentify
    by_contra halone
    obtain ⟨position', hne, hparts⟩ := exists_other_position halone
    exact hne (hidentify _ _ (ofJson_eq_error_iff.mpr (firstFault_faultyAt position'))
      (path_eq_path_iff.mpr hparts))
  · intro halone _ e' _ hpath
    exact halone.position_eq (path_eq_path_iff.mp hpath)

/-- With a name that is not plain, two documents are rejected with the same path for different
positions, and one document has faults at both. -/
theorem exists_shared_path (h : ¬ PlainName name) : ∃ e e' : Error,
    (∃ document, ofJson document = .error e) ∧ (∃ document, ofJson document = .error e') ∧
    (∃ document, HasFault document e ∧ HasFault document e') ∧
    NamedBy (fun m => m = name ∨ PlainName m) e.position ∧ NamedBy PlainName e'.position ∧
    e.path = e'.path ∧ e.position ≠ e'.position := by
  obtain ⟨name', position, hne, hname', hposition, hshared⟩ := exists_shared_parts h
  have hdistinct : ([(name, faultyAt [.items]), (name', faultyAt position)].map
      Prod.fst).Nodup := by
    simpa using hne.symm
  refine ⟨⟨[.property name, .items], .notObject⟩, ⟨.property name' :: position, .notObject⟩,
    ⟨_, ofJson_eq_error_iff.mpr (firstFault_faultyAt _)⟩,
    ⟨_, ofJson_eq_error_iff.mpr (firstFault_faultyAt _)⟩,
    ⟨_, hasFault_objectDocument hdistinct (.head _) (firstFault_faultyAt [.items]).hasFault,
      hasFault_objectDocument hdistinct (.tail _ (.head _))
        (firstFault_faultyAt position).hasFault⟩,
    ?_, namedBy_property.mpr ⟨hname', hposition⟩, path_eq_path_iff.mpr hshared, fun hsame => ?_⟩
  · rw [namedBy_property, namedBy_items]
    exact ⟨Or.inl rfl, nofun⟩
  · simp only [List.cons.injEq, Step.property.injEq] at hsame
    exact hne hsame.1.symm

/-- Two faults have one path exactly when the parts of their positions are the same, and the path of
a fault belongs to no other position exactly when its position stands alone. Where all plain names
may occur, paths tell the positions of faults apart exactly when no other name may: those that two
documents are rejected with as well as any two of one document. -/
theorem path_identifies_position_iff (kind : String → Prop)
    (hkind : ∀ name, PlainName name → kind name) :
    (∀ e e' : Error, e.path = e'.path ↔ parts e.position = parts e'.position) ∧
    (∀ document e, ofJson document = .error e →
      ((∀ document' e', ofJson document' = .error e' → e'.path = e.path →
        e'.position = e.position) ↔ Alone e.position)) ∧
    ((∀ document document' e e', ofJson document = .error e → ofJson document' = .error e' →
        NamedBy kind e.position → NamedBy kind e'.position → e.path = e'.path →
        e.position = e'.position) ↔ ∀ name, kind name → PlainName name) ∧
    ((∀ document e e', HasFault document e → HasFault document e' →
        NamedBy kind e.position → NamedBy kind e'.position → e.path = e'.path →
        e.position = e'.position) ↔ ∀ name, kind name → PlainName name) := by
  have hshared {name : String} {position : List Step} (hname : kind name)
      (h : NamedBy (fun m => m = name ∨ PlainName m) position) : NamedBy kind position :=
    h.mono fun m hm => hm.elim (fun hm => hm ▸ hname) (hkind m)
  refine ⟨fun _ _ => path_eq_path_iff, fun _ e _ => identifies_iff_alone e, ⟨?_, ?_⟩, ?_, ?_⟩
  · intro hidentify name hname
    by_contra hplain
    obtain ⟨e, e', ⟨_, hread⟩, ⟨_, hread'⟩, -, hnames, hnames', hpath, hne⟩ :=
      exists_shared_path hplain
    exact hne (hidentify _ _ _ _ hread hread' (hshared hname hnames) (hnames'.mono hkind) hpath)
  · intro hplain _ _ e e' _ _ hnames hnames' hpath
    exact position_eq_of_path_eq (hnames.mono hplain) (hnames'.mono hplain) hpath
  · intro hidentify name hname
    by_contra hplain
    obtain ⟨e, e', -, -, ⟨_, hfault, hfault'⟩, hnames, hnames', hpath, hne⟩ :=
      exists_shared_path hplain
    exact hne (hidentify _ _ _ hfault hfault' (hshared hname hnames) (hnames'.mono hkind) hpath)
  · intro hplain _ e e' _ _ hnames hnames' hpath
    exact position_eq_of_path_eq (hnames.mono hplain) (hnames'.mono hplain) hpath

/-- A property named `items` with faulty items, and a faulty one with a slash in its name. -/
def plainDocument : Json :=
  objectDocument [("items", faultyAt [.items]), ("a/b", .null)]

theorem path_identifies_position_iff_plainDocument :
    NamedBy PlainName [.property "items", .items] ∧ NamedBy PlainName [.property "a/b"] ∧
    HasFault plainDocument ⟨[.property "items", .items], .notObject⟩ ∧
    HasFault plainDocument ⟨[.property "a/b"], .notObject⟩ ∧
    (⟨[.property "items", .items], .notObject⟩ : Error).path ≠
      (⟨[.property "a/b"], .notObject⟩ : Error).path := by
  have hitems : NamedBy PlainName [.property "items", .items] := by
    rw [namedBy_property, namedBy_items]
    exact ⟨plainName_of_slash_not_mem (by decide), nofun⟩
  have hslash : NamedBy PlainName [.property "a/b"] := by
    rw [namedBy_property]
    exact ⟨by decide, nofun⟩
  have hfault : HasFault plainDocument ⟨[.property "items", .items], .notObject⟩ :=
    hasFault_objectDocument (by decide) (.head _) (firstFault_faultyAt [.items]).hasFault
  have hfault' : HasFault plainDocument ⟨[.property "a/b"], .notObject⟩ :=
    hasFault_objectDocument (by decide) (.tail _ (.head _)) (firstFault_faultyAt []).hasFault
  refine ⟨hitems, hslash, hfault, hfault', fun hpath => ?_⟩
  have hidentify := (path_identifies_position_iff PlainName fun _ => id).2.2.2.mpr fun _ => id
  exact absurd (hidentify _ _ _ hfault hfault' hitems hslash hpath) (by decide)

/-- A property whose name reads as two steps, with a schema that has no type. -/
def slashDocument : Json := objectDocument [("a/properties/b", .object (.ofList []))]

/-- Two nested properties, the inner one with a schema that has no type. -/
def nestedDocument : Json :=
  objectDocument [("a", objectDocument [("b", .object (.ofList []))])]

/-- A path does not always identify a position. -/
theorem not_path_identifies_position :
    (ofJson slashDocument = .error ⟨[.property "a/properties/b"], .missingType⟩ ∧
      ofJson nestedDocument = .error ⟨[.property "a", .property "b"], .missingType⟩ ∧
      (⟨[.property "a/properties/b"], .missingType⟩ : Error).path = "/properties/a/properties/b" ∧
      (⟨[.property "a", .property "b"], .missingType⟩ : Error).path =
        "/properties/a/properties/b") ∧
    ¬ ∀ document document' e e', ofJson document = .error e → ofJson document' = .error e' →
      e.path = e'.path → e.position = e'.position := by
  have hread : ofJson slashDocument = .error ⟨[.property "a/properties/b"], .missingType⟩ := rfl
  have hread' : ofJson nestedDocument = .error ⟨[.property "a", .property "b"], .missingType⟩ := rfl
  refine ⟨⟨hread, hread', by decide, by decide⟩, fun hidentify => ?_⟩
  exact absurd (hidentify _ _ _ _ hread hread' (by decide)) (by decide)

end RecordQuery.Schema
