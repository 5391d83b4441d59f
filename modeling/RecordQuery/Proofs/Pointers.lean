import RecordQuery.Schema.Conformance

/-!
Pointers to places in a record. A pointer is read by a split at its slashes and two replacements in
each part, which undo the escapes in the reverse of their order (`unescape_escape`). So a pointer
reads back as the texts of its segments, whatever characters stand in names
(`pointerSegments_pointer`).
-/

namespace RecordQuery.Schema

/-- Replaces each occurrence of a pair of characters by one, from left to right. -/
def replacePair (first second new : Char) : List Char → List Char
  | [] => []
  | [c] => [c]
  | c :: d :: rest =>
    if c = first ∧ d = second then new :: replacePair first second new rest
    else c :: replacePair first second new (d :: rest)

/-- The text of one segment of a pointer: `~1` stands for a slash and then `~0` for a tilde. -/
def pointerUnescape (s : List Char) : List Char :=
  replacePair '~' '0' '~' (replacePair '~' '1' '/' s)

/-- The texts of the segments of a pointer. The empty one is the root and has none; all others begin
with a slash. -/
def pointerSegments (path : String) : List String :=
  if path = "" then []
  else (path.toList.splitOn '/').tail.map fun s => String.ofList (pointerUnescape s)

/-! ## Escapes -/

variable {first second new c d : Char} {text s rest : List Char}

theorem replacePair_pair :
    replacePair first second new (first :: second :: rest) =
      new :: replacePair first second new rest :=
  if_pos ⟨rfl, rfl⟩

theorem replacePair_cons (h : c ≠ first) :
    replacePair first second new (c :: rest) = c :: replacePair first second new rest := by
  cases rest with
  | nil => rfl
  | cons d rest => exact if_neg fun hpair => h hpair.1

theorem replacePair_cons_cons (hd : d ≠ second) (hfirst : d ≠ first) :
    replacePair first second new (c :: d :: rest) =
      c :: d :: replacePair first second new rest := by
  rw [replacePair, if_neg fun hpair => hd hpair.2, replacePair_cons hfirst]

theorem replaceChar_self : replaceChar c [first, second] (c :: rest) =
    first :: second :: replaceChar c [first, second] rest := by
  rw [replaceChar, List.flatMap_cons, if_pos rfl]
  rfl

theorem replaceChar_cons (h : d ≠ c) :
    replaceChar c text (d :: rest) = d :: replaceChar c text rest := by
  rw [replaceChar, List.flatMap_cons, if_neg h]
  rfl

theorem not_mem_replaceChar (h : c ∉ text) : c ∉ replaceChar c text s := by
  intro hmem
  obtain ⟨d, -, hd⟩ := List.mem_flatMap.mp hmem
  by_cases heq : d = c
  · rw [if_pos heq] at hd
    exact h hd
  · rw [if_neg heq] at hd
    exact heq (List.mem_singleton.mp hd).symm

theorem replacePair_replaceChar_self :
    replacePair c second c (replaceChar c [c, second] s) = s := by
  induction s with
  | nil => rfl
  | cons d s ih =>
    by_cases hd : d = c
    · rw [hd, replaceChar_self, replacePair_pair, ih]
    · rw [replaceChar_cons hd, replacePair_cons hd, ih]

/-- With slashes read back, a tilde is still escaped. -/
theorem replacePair_slash :
    replacePair '~' '1' '/' (pointerEscape s) = replaceChar '~' ['~', '0'] s := by
  rw [pointerEscape]
  induction s with
  | nil => rfl
  | cons c s ih =>
    by_cases htilde : c = '~'
    · rw [htilde, replaceChar_self, replaceChar_cons (by decide), replaceChar_cons (by decide),
        replacePair_cons_cons (by decide) (by decide), ih]
    · rw [replaceChar_cons htilde]
      by_cases hslash : c = '/'
      · rw [hslash, replaceChar_self, replacePair_pair, ih]
      · rw [replaceChar_cons hslash, replacePair_cons htilde, ih]

theorem unescape_escape (s : List Char) : pointerUnescape (pointerEscape s) = s := by
  rw [pointerUnescape, replacePair_slash, replacePair_replaceChar_self]

theorem slash_not_mem_escape (s : List Char) : '/' ∉ pointerEscape s :=
  not_mem_replaceChar (by decide)

/-! ## Segments -/

theorem intercalate_cons_map {α β : Type} (x : β) (f : α → List β) (head : List β) (l : List α) :
    [x].intercalate (head :: l.map f) = head ++ l.flatMap fun a => x :: f a := by
  induction l generalizing head with
  | nil => simp
  | cons a l ih =>
    rw [List.map_cons, List.intercalate_cons_cons, ih, List.flatMap_cons]
    simp

/-- A pointer reads back as the texts of its segments. -/
theorem pointerSegments_pointer (position : List Segment) :
    pointerSegments (pointer position) = position.map Segment.text := by
  cases position with
  | nil => rfl
  | cons segment position =>
    have hne : pointer (segment :: position) ≠ "" := by
      intro h
      simpa [pointer] using congrArg String.toList h
    -- the slash before the first segment ends an empty part, which is dropped
    have hjoin : (pointer (segment :: position)).toList = ['/'].intercalate
        ([] :: (segment :: position).map fun s => pointerEscape s.text.toList) := by
      rw [pointer, String.toList_ofList, intercalate_cons_map, List.nil_append]
    have hparts : ∀ part ∈ [] :: (segment :: position).map fun s : Segment =>
        pointerEscape s.text.toList, '/' ∉ part := by
      intro part hpart
      rcases List.mem_cons.mp hpart with rfl | hpart
      · exact List.not_mem_nil
      · obtain ⟨s, -, rfl⟩ := List.mem_map.mp hpart
        exact slash_not_mem_escape _
    rw [pointerSegments, if_neg hne, hjoin, List.splitOn_intercalate '/' hparts
      (List.cons_ne_nil _ _), List.tail_cons, List.map_map]
    refine List.map_congr_left fun s _ => ?_
    rw [Function.comp_apply, unescape_escape, String.ofList_toList]

end RecordQuery.Schema
