import Mathlib.Data.List.Perm.Subperm
import RecordQuery.Value.Basic

/-!
Inside values. Setting a field of an object changes what stands under its name and nothing else
(`get?_insert`), and fields stand in the order of their names (`pairwise_toList`). An object with
all the names of another one of its size has no others (`isSome_get?_of_size_eq`). Induction on a
value may take its items and fields for granted (`below_induction`). What holds of all doubles of a
value holds of those in its items and fields.
-/

namespace RecordQuery

/-! ## Fields -/

namespace Fields

theorem above_none (name : String) : ∀ l ∈ (none : Option String), l < name := nofun

theorem get?_insert {name key : String} {value : Value} :
    ∀ {low : Option String} {above : ∀ l ∈ low, l < name} (fields : Fields low),
      (fields.insert name above value).get? key =
        if key = name then some value else fields.get? key
  | _, _, .nil => rfl
  | _, _, .cons k lower old rest => by
    rw [insert]
    split
    · rfl
    · split
      · rename_i h
        subst h
        simp only [get?]
        split
        · rfl
        · rfl
      · rename_i hne
        rw [get?, get?_insert rest, get?]
        by_cases hk : key = k
        · subst hk
          rw [if_pos rfl, if_pos rfl, if_neg (Ne.symm hne)]
        · rw [if_neg hk, if_neg hk]

theorem insert_first {low : Option String} {name : String} {above lower : ∀ l ∈ low, l < name}
    {value old : Value} {rest : Fields (some name)} :
    (cons name lower old rest).insert name above value = .cons name lower value rest := by
  rw [insert, dif_neg (String.lt_irrefl name), dif_pos rfl]

theorem above_of_mem_toList {low : Option String} {l : String} (hl : l ∈ low) :
    ∀ fields : Fields low, ∀ f ∈ fields.toList, l < f.1
  | .nil, f, hf => nomatch hf
  | .cons name above _ rest, f, hf => by
    rcases List.mem_cons.mp hf with rfl | hf
    · exact above l hl
    · exact String.lt_trans (above l hl) (above_of_mem_toList rfl rest f hf)

theorem pairwise_toList {low : Option String} :
    ∀ fields : Fields low, fields.toList.Pairwise fun f g => f.1 < g.1
  | .nil => .nil
  | .cons _ _ _ rest => .cons (above_of_mem_toList rfl rest) (pairwise_toList rest)

theorem get?_eq_some_iff {name : String} {v : Value} : ∀ {low : Option String}
    {fields : Fields low}, fields.get? name = some v ↔ (name, v) ∈ fields.toList
  | _, .nil => by simp [get?, toList]
  | _, .cons key _ w rest => by
    rw [get?, toList, List.mem_cons]
    by_cases hname : name = key
    · subst hname
      have hrest : (name, v) ∉ rest.toList := fun h =>
        String.lt_irrefl name (above_of_mem_toList rfl rest _ h)
      simp [hrest, eq_comm]
    · rw [if_neg hname, get?_eq_some_iff]
      simp [hname]

theorem nodup_names {low : Option String} (fields : Fields low) :
    (fields.toList.map Prod.fst).Nodup := by
  refine List.pairwise_map.mpr ((pairwise_toList fields).imp fun {f g} h heq => ?_)
  exact String.lt_irrefl g.1 (heq ▸ h)

theorem mem_names_iff {low : Option String} {fields : Fields low} {name : String} :
    name ∈ fields.toList.map Prod.fst ↔ (fields.get? name).isSome := by
  rw [Option.isSome_iff_exists]
  simp [get?_eq_some_iff]

/-- Of two objects of one size neither has more names than the other. -/
theorem isSome_get?_of_size_eq {low low' : Option String} {vs : Fields low} {ws : Fields low'}
    (hsize : vs.size = ws.size)
    (hnames : ∀ name, (vs.get? name).isSome → (ws.get? name).isSome) (name : String) :
    (ws.get? name).isSome → (vs.get? name).isSome := by
  intro hname
  have hsubset : vs.toList.map Prod.fst ⊆ ws.toList.map Prod.fst := fun key hkey =>
    mem_names_iff.mpr (hnames key (mem_names_iff.mp hkey))
  have hlength : (ws.toList.map Prod.fst).length ≤ (vs.toList.map Prod.fst).length := by
    rw [List.length_map, List.length_map]
    exact Nat.le_of_eq hsize.symm
  have hperm := (List.subperm_of_subset (nodup_names vs) hsubset).perm_of_length_le hlength
  exact mem_names_iff.mp (hperm.mem_iff.mpr (mem_names_iff.mpr hname))

theorem size_eq_of_isSome_get? {low low' : Option String} {vs : Fields low} {ws : Fields low'}
    (h : ∀ name, (vs.get? name).isSome = (ws.get? name).isSome) : vs.size = ws.size := by
  have hperm : (vs.toList.map Prod.fst).Perm (ws.toList.map Prod.fst) := by
    refine (List.perm_ext_iff_of_nodup (nodup_names vs) (nodup_names ws)).mpr fun name => ?_
    rw [mem_names_iff, mem_names_iff, h]
  have hlength := hperm.length_eq
  rw [List.length_map, List.length_map] at hlength
  exact hlength

/-- The same fields where names need not come after any. -/
def widen {low : Option String} : Fields low → Fields none
  | .nil => .nil
  | .cons name _ value rest => .cons name (above_none name) value rest

theorem widen_eq_self : ∀ fields : Fields none, fields.widen = fields
  | .nil => rfl
  | .cons _ _ _ _ => rfl

/-- A name before all others takes the first place. -/
theorem insert_widen {name : String} {above : ∀ l ∈ none, l < name} {value : Value} :
    ∀ rest : Fields (some name), rest.widen.insert name above value = .cons name above value rest
  | .nil => rfl
  | .cons key lower old rest => by
    rw [widen, insert, dif_pos (lower name rfl)]

end Fields

/-! ## Induction -/

namespace Value

/-- An item or a field of a value. -/
inductive Below : Value → Value → Prop
  | item {v : Value} {items : List Value} (h : v ∈ items) : Below v (.array items)
  | field {v : Value} {name : String} {fields : Fields none} (h : fields.get? name = some v) :
      Below v (.object fields)

section

variable {motive : Value → Prop}

mutual

theorem below_induction (step : ∀ v, (∀ w, w.Below v → motive w) → motive v) : ∀ v, motive v
  | .array items => step _ fun
    | w, .item h => induction_items step items w h
  | .object fields => step _ fun
    | w, .field h => induction_fields step fields w h
  | .null | .boolean _ | .integer _ | .float _ | .string _ => step _ nofun

theorem induction_items (step : ∀ v, (∀ w, w.Below v → motive w) → motive v) :
    ∀ items : List Value, ∀ w ∈ items, motive w
  | [], _, h => nomatch h
  | v :: rest, w, h => by
    rcases List.mem_cons.mp h with heq | h
    · exact heq ▸ below_induction step v
    · exact induction_items step rest w h

theorem induction_fields (step : ∀ v, (∀ w, w.Below v → motive w) → motive v) :
    ∀ {low : Option String} (fields : Fields low) {name : String} (w : Value),
      fields.get? name = some w → motive w
  | _, .nil, _, _, h => nomatch h
  | _, .cons key _ v rest, name, w, h => by
    rw [Fields.get?] at h
    split at h
    · exact Option.some.inj h ▸ below_induction step v
    · exact induction_fields step rest w h

end

end

end Value

/-! ## Doubles -/

mutual

/-- Something holds of all doubles in a value, at any depth. -/
def Value.allFloats (p : Binary64 → Bool) : Value → Bool
  | .float x => p x
  | .array items => allFloatsIn p items
  | .object fields => allFloatsUnder p fields
  | _ => true
termination_by structural v => v

def Value.allFloatsIn (p : Binary64 → Bool) : List Value → Bool
  | [] => true
  | v :: rest => v.allFloats p && allFloatsIn p rest
termination_by structural vs => vs

def Value.allFloatsUnder (p : Binary64 → Bool) {low : Option String} : Fields low → Bool
  | .nil => true
  | .cons _ _ v rest => v.allFloats p && allFloatsUnder p rest
termination_by structural fields => fields

end

namespace Value

variable {p : Binary64 → Bool}

theorem allFloatsIn_iff {items : List Value} :
    allFloatsIn p items = true ↔ ∀ v ∈ items, v.allFloats p = true := by
  induction items with
  | nil => simp [allFloatsIn]
  | cons v rest ih => rw [allFloatsIn, Bool.and_eq_true, List.forall_mem_cons, ih]

theorem allFloatsUnder_iff_toList : ∀ {low : Option String} {fields : Fields low},
    allFloatsUnder p fields = true ↔ ∀ f ∈ fields.toList, f.2.allFloats p = true
  | _, .nil => by simp [allFloatsUnder, Fields.toList]
  | _, .cons _ _ v rest => by
    rw [allFloatsUnder, Fields.toList, Bool.and_eq_true, List.forall_mem_cons,
      allFloatsUnder_iff_toList]

theorem allFloatsUnder_iff {low : Option String} {fields : Fields low} :
    allFloatsUnder p fields = true ↔
      ∀ name v, fields.get? name = some v → v.allFloats p = true := by
  rw [allFloatsUnder_iff_toList]
  constructor
  · exact fun h name v hv => h (name, v) (Fields.get?_eq_some_iff.mp hv)
  · exact fun h f hf => h f.1 f.2 (Fields.get?_eq_some_iff.mpr hf)

/-- What holds of all doubles holds of a double itself and below. -/
theorem allFloats_iff {v : Value} : v.allFloats p = true ↔
    (∀ x, v = .float x → p x = true) ∧ ∀ w : Value, w.Below v → w.allFloats p = true := by
  constructor
  · intro h
    constructor
    · rintro x rfl
      exact h
    · intro w hw
      cases hw with
      | item hmem => exact allFloatsIn_iff.mp h w hmem
      | field hget => exact allFloatsUnder_iff.mp h _ w hget
  · rintro ⟨hfloat, hbelow⟩
    cases v with
    | null | boolean | integer | string => rfl
    | float x => exact hfloat x rfl
    | array items => exact allFloatsIn_iff.mpr fun w hw => hbelow w (.item hw)
    | object fields => exact allFloatsUnder_iff.mpr fun name w hw => hbelow w (.field hw)

end Value

end RecordQuery
