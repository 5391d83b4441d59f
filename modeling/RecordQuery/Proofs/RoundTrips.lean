import RecordQuery.Proofs.Narrowing

/-!
Values and documents through one another. Documents written from values have only numbers that
values hold as they are (`allNumbers_toJson`), so just the documents with no other numbers come back
as they were (`alike_toJson_ofJson_iff`), as do the values whose doubles are all finite. What does
not come back is replaced at its place, and nothing else changes (`round_trips`).
-/

namespace RecordQuery

/-! ## Numbers of documents -/

/-- Whether values hold a number as it is. -/
def Json.Number.fits : Json.Number → Bool
  | .integer n _ => decide (n < 0x8000000000000000)
  | .float _ _ => true

mutual

/-- Something holds of all numbers in a document, at any depth. -/
def Json.allNumbers (p : Json.Number → Bool) : Json → Bool
  | .number n => p n
  | .array items => Json.allNumbersIn p items
  | .object members => members.allNumbers p
  | _ => true
termination_by structural document => document

def Json.allNumbersIn (p : Json.Number → Bool) : List Json → Bool
  | [] => true
  | item :: rest => item.allNumbers p && Json.allNumbersIn p rest
termination_by structural items => items

def Members.allNumbers (p : Json.Number → Bool) {taken : List String} : Members taken → Bool
  | .nil => true
  | .cons _ _ value rest => value.allNumbers p && rest.allNumbers p
termination_by structural members => members

end

section

variable {p : Json.Number → Bool}

theorem Members.get?_eq_none_of_taken {name : String} {taken : List String}
    (members : Members taken) (h : name ∈ taken) : members.get? name = none := by
  cases hget : members.get? name with
  | none => rfl
  | some value => exact absurd h (members.not_mem_taken (members.mem_toList_of_get? hget))

theorem Members.allNumbers_iff : ∀ {taken : List String} {members : Members taken},
    members.allNumbers p = true ↔
      ∀ name value, members.get? name = some value → value.allNumbers p = true
  | _, .nil => by simp [Members.allNumbers, Members.get?]
  | _, .cons key _ value rest => by
    rw [Members.allNumbers, Bool.and_eq_true, Members.allNumbers_iff]
    constructor
    · rintro ⟨hvalue, hrest⟩ name v hv
      rw [Members.get?] at hv
      split at hv
      · exact Option.some.inj hv ▸ hvalue
      · exact hrest name v hv
    · intro h
      refine ⟨h key value (by rw [Members.get?, if_pos rfl]), fun name v hv => h name v ?_⟩
      have hne : name ≠ key := by
        rintro rfl
        rw [Members.get?_eq_none_of_taken rest (List.mem_cons_self ..)] at hv
        cases hv
      rw [Members.get?, if_neg hne, hv]

mutual

/-- Documents that are the same up to the order of members have the same numbers. -/
theorem Json.Alike.allNumbers : ∀ {document other : Json}, document.Alike other →
    document.allNumbers p = true → other.allNumbers p = true
  | .null, _, .null, h | .boolean _, _, .boolean _, h | .string _, _, .string _, h
  | .number _, _, .number _, h => h
  | .array _, _, .array hitems, h => Json.allNumbersIn_of_alike hitems h
  | .object members, _, .object names values, h => by
    -- members may stand in another order on the other side, so they are looked up by name
    refine Members.allNumbers_iff.mpr fun name other hother => ?_
    have hsome : (members.get? name).isSome := by rw [names, hother]; rfl
    obtain ⟨value, hvalue⟩ := Option.isSome_iff_exists.mp hsome
    exact Members.allNumbers_of_alike members h hvalue (values name value other hvalue hother)

theorem Json.allNumbersIn_of_alike : ∀ {items others : List Json},
    List.Forall₂ Json.Alike items others → Json.allNumbersIn p items = true →
      Json.allNumbersIn p others = true
  | [], _, .nil, _ => rfl
  | _ :: _, _, .cons hitem hrest, h => by
    rw [Json.allNumbersIn, Bool.and_eq_true] at h ⊢
    exact ⟨hitem.allNumbers h.1, Json.allNumbersIn_of_alike hrest h.2⟩

theorem Members.allNumbers_of_alike {name : String} {taken : List String} :
    ∀ members : Members taken, members.allNumbers p = true → ∀ {value other : Json},
      members.get? name = some value → value.Alike other → other.allNumbers p = true
  | .nil, _, _, _, hget, _ => nomatch hget
  | .cons key _ document rest, h, value, other, hget, halike => by
    rw [Members.allNumbers, Bool.and_eq_true] at h
    rw [Members.get?] at hget
    split at hget
    · cases hget
      exact halike.allNumbers h.1
    · exact Members.allNumbers_of_alike rest h.2 hget halike

end

end

/-! ## Numbers that come back -/

theorem Json.Number.narrow_of_fits {n : Json.Number} (h : n.fits = true) : n.narrow = n := by
  cases n with
  | integer n inRange => exact dif_neg (Int.not_le.mpr (decide_eq_true_iff.mp h))
  | float x finite => rfl

mutual

/-- Narrowing changes no document all of whose numbers fit. -/
theorem Json.narrow_of_fits :
    ∀ document : Json, document.allNumbers Json.Number.fits = true → document.narrow = document
  | .null, _ | .boolean _, _ | .string _, _ => rfl
  | .number n, h => by rw [Json.narrow, Json.Number.narrow_of_fits h]
  | .array items, h => by rw [Json.narrow, Json.narrowItems_of_fits items h]
  | .object members, h => by rw [Json.narrow, Members.narrow_of_fits members h]

theorem Json.narrowItems_of_fits : ∀ items : List Json,
    Json.allNumbersIn Json.Number.fits items = true → Json.narrowItems items = items
  | [], _ => rfl
  | item :: rest, h => by
    rw [Json.allNumbersIn, Bool.and_eq_true] at h
    rw [Json.narrowItems, Json.narrow_of_fits item h.1, Json.narrowItems_of_fits rest h.2]

theorem Members.narrow_of_fits {taken : List String} : ∀ members : Members taken,
    members.allNumbers Json.Number.fits = true → members.narrow = members
  | .nil, _ => rfl
  | .cons name fresh value rest, h => by
    rw [Members.allNumbers, Bool.and_eq_true] at h
    rw [Members.narrow, Json.narrow_of_fits value h.1, Members.narrow_of_fits rest h.2]

end

namespace Value

mutual

/-- What is written from a value holds only numbers that fit. -/
theorem allNumbers_toJson : ∀ v : Value, v.toJson.allNumbers Json.Number.fits = true
  | .null | .boolean _ | .string _ => rfl
  | .integer n => decide_eq_true n.toInt_lt
  | .float x => by
    rw [toJson, ofFloat]
    split
    · rfl
    · rfl
  | .array items => allNumbers_toItems items
  | .object fields => by
    refine Members.allNumbers_iff.mpr fun name document hdocument => ?_
    rw [get?_ofList_toMembers] at hdocument
    obtain ⟨v, hv, rfl⟩ := Option.map_eq_some_iff.mp hdocument
    exact allNumbers_of_get? fields hv

theorem allNumbers_toItems :
    ∀ items : List Value, Json.allNumbersIn Json.Number.fits (toItems items) = true
  | [] => rfl
  | v :: rest => by
    rw [toItems, Json.allNumbersIn, allNumbers_toJson v, allNumbers_toItems rest]
    rfl

theorem allNumbers_of_get? {name : String} {low : Option String} :
    ∀ fields : Fields low, ∀ {v : Value}, fields.get? name = some v →
      v.toJson.allNumbers Json.Number.fits = true
  | .nil, _, h => nomatch h
  | .cons key _ value rest, v, h => by
    rw [Fields.get?] at h
    split at h
    · exact Option.some.inj h ▸ allNumbers_toJson value
    · exact allNumbers_of_get? rest h

end

/-- A document comes back exactly when all its numbers fit. -/
theorem alike_toJson_ofJson_iff {document : Json} :
    (ofJson document).toJson.Alike document ↔
      document.allNumbers Json.Number.fits = true := by
  constructor
  · exact fun h => h.allNumbers (allNumbers_toJson _)
  · intro h
    have halike := alike_toJson_ofJson document
    rw [Json.narrow_of_fits document h] at halike
    exact halike

/-- **Round trips.** A value that is written and read again has null for infinities and NaN, at any
depth, and is otherwise the same; so it is the same exactly when all its doubles are finite. A
document that is read and written again has the nearest double for each whole number past the
greatest of 64 bits, at any depth, and is otherwise the same up to the order of members; so it is
the same in this sense exactly when it holds no such number. -/
theorem round_trips :
    (∀ v : Value, ofJson v.toJson = v.normal ∧
      (ofJson v.toJson = v ↔ v.allFloats Binary64.isFinite = true)) ∧
    (∀ document : Json, (ofJson document).toJson.Alike document.narrow ∧
      ((ofJson document).toJson.Alike document ↔
        document.allNumbers Json.Number.fits = true)) ∧
    ∀ n inRange, 0x8000000000000000 ≤ n → ∃ x finite,
      (Json.Number.integer n inRange).narrow = .float x finite ∧ x.IsNearest n := by
  refine ⟨fun v => ⟨ofJson_toJson v, ?_⟩,
    fun document => ⟨alike_toJson_ofJson document, alike_toJson_ofJson_iff⟩, fun n inRange hn => ?_⟩
  · rw [ofJson_toJson, normal_eq_self_iff]
  · exact ⟨_, _, dif_pos hn, Binary64.isNearest_ofInt hn inRange.2⟩

/-- Below a field infinity is lost, and negative zero and `2 ^ 63` as a double are not. -/
example :
    let items (x : Value) : Value := .object (.ofList
      [("items", .array [x, .float ⟨0x8000000000000000⟩, .float ⟨0x43e0000000000000⟩])])
    ofJson (items (.float ⟨0x7ff0000000000000⟩)).toJson = items .null := by
  rfl

end Value

end RecordQuery
