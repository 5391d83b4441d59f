import RecordQuery.Proofs.Reordering

/-!
Two runs side by side. They run in parallel when both succeed with related results or both fail with
related errors. Steps from related values keep walks in parallel (`PathCongruence.walk`). Operators
that cannot tell related values apart keep evaluations in parallel: of queries that are the same
tree with related literals, as far as their paths run in parallel (`Congruence.evaluateWithin`).
-/

namespace RecordQuery

variable {ε α α' β β' : Type} {E : ε → ε → Prop} {R : α → α' → Prop} {S : β → β' → Prop}

/-- Both runs succeed with related results, or both fail with related errors. -/
inductive Parallel (E : ε → ε → Prop) (R : α → α' → Prop) : Except ε α → Except ε α' → Prop
  | ok {a : α} {a' : α'} (related : R a a') : Parallel E R (.ok a) (.ok a')
  | error {e e' : ε} (related : E e e') : Parallel E R (.error e) (.error e')

namespace Parallel

theorem refl {R : α → α → Prop} (hE : ∀ e, E e e) (hR : ∀ a, R a a) (x : Except ε α) :
    Parallel E R x x := by
  cases x with
  | ok a => exact .ok (hR a)
  | error e => exact .error (hE e)

theorem mono {R' : α → α' → Prop} {x : Except ε α} {x' : Except ε α'} (h : Parallel E R x x')
    (hR : ∀ a a', R a a' → R' a a') : Parallel E R' x x' := by
  cases h with
  | ok h => exact .ok (hR _ _ h)
  | error h => exact .error h

theorem trans {x y z : Except ε α} (hE : ∀ {e f g}, E e f → E f g → E e g)
    (h : Parallel E (· = ·) x y) (h' : Parallel E (· = ·) y z) : Parallel E (· = ·) x z := by
  cases h with
  | ok h =>
    cases h' with
    | ok h' => exact .ok (h.trans h')
  | error h =>
    cases h' with
    | error h' => exact .error (hE h h')

theorem bind {x : Except ε α} {x' : Except ε α'} {f : α → Except ε β} {f' : α' → Except ε β'}
    (h : Parallel E R x x') (hf : ∀ a a', R a a' → Parallel E S (f a) (f' a')) :
    Parallel E S (x >>= f) (x' >>= f') := by
  cases h with
  | ok h => exact hf _ _ h
  | error h => exact .error h

theorem map {x : Except ε α} {x' : Except ε α'} {f : α → β} {f' : α' → β'}
    (h : Parallel E R x x') (hf : ∀ a a', R a a' → S (f a) (f' a')) :
    Parallel E S (x.map f) (x'.map f') := by
  cases h with
  | ok h => exact .ok (hf _ _ h)
  | error h => exact .error h

theorem eq {x x' : Except ε α} (h : Parallel (· = ·) (· = ·) x x') : x = x' := by
  cases h with
  | ok h => exact congrArg Except.ok h
  | error h => exact congrArg Except.error h

/-- A run stands parallel to the same run with its result mapped, when the map takes each result to
a related one. -/
theorem map_self {f : α → β} {S : α → β → Prop} (h : ∀ a, S a (f a)) (x : Except ε α) :
    Parallel (· = ·) S x (x.map f) := by
  cases x with
  | error e => exact .error rfl
  | ok a => exact .ok (h a)

theorem map_eq {f : α → β} {x : Except ε α} {y : Except ε β}
    (h : Parallel (· = ·) (fun a b => f a = b) x y) : x.map f = y := by
  cases h with
  | ok h => exact congrArg Except.ok h
  | error h => exact congrArg Except.error h

theorem anyM {p : α → Except ε Bool} {p' : α' → Except ε Bool} {l : List α} {l' : List α'}
    (h : List.Forall₂ R l l') (hp : ∀ a a', R a a' → Parallel E (· = ·) (p a) (p' a')) :
    Parallel E (· = ·) (l.anyM p) (l'.anyM p') := by
  induction h with
  | nil => exact .ok rfl
  | cons h _ ih =>
    refine (hp _ _ h).bind fun b b' hb => ?_
    subst hb
    cases b with
    | true => exact .ok rfl
    | false => exact ih

theorem mapM {f : α → Except ε β} {f' : α' → Except ε β'} {l : List α} {l' : List α'}
    (h : List.Forall₂ R l l') (hf : ∀ a a', R a a' → Parallel E S (f a) (f' a')) :
    Parallel E (List.Forall₂ S) (l.mapM f) (l'.mapM f') := by
  induction h with
  | nil => exact .ok .nil
  | cons h _ ih =>
    rw [List.mapM_cons, List.mapM_cons]
    exact (hf _ _ h).bind fun b b' hb => ih.bind fun r r' hr => .ok (.cons hb hr)

end Parallel

/-- Errors of one variant, which may differ in their texts. -/
def Query.Error.SameVariant (e e' : Error) : Prop := e.variant = e'.variant

theorem Query.Error.SameVariant.refl (e : Error) : e.SameVariant e := rfl

theorem Query.agree_of_parallel {x x' : Except Error Bool}
    (h : Parallel Error.SameVariant (· = ·) x x') : Agree x x' := by
  cases h with
  | ok h => exact h
  | error h => exact h

/-! ## Outcomes -/

namespace Outcome

/-- A function on all values of an outcome, in its shape. -/
def map (f : Value → Value) : Outcome → Outcome
  | .scalar v => .scalar (f v)
  | .broadcast vs => .broadcast (vs.map f)

/-- Outcomes of one shape whose values are related place by place. -/
inductive Pointwise (R : Value → Value → Prop) : Outcome → Outcome → Prop
  | scalar {v w : Value} (related : R v w) : Pointwise R (.scalar v) (.scalar w)
  | broadcast {vs ws : List Value} (related : List.Forall₂ R vs ws) :
      Pointwise R (.broadcast vs) (.broadcast ws)

namespace Pointwise

variable {R S : Value → Value → Prop} {o o' l l' r r' : Outcome}

theorem values (h : o.Pointwise R o') : List.Forall₂ R o.values o'.values := by
  cases h with
  | scalar h => exact .cons h .nil
  | broadcast h => exact h

theorem refl (hR : ∀ v, R v v) (o : Outcome) : o.Pointwise R o := by
  cases o with
  | scalar v => exact .scalar (hR v)
  | broadcast vs => exact .broadcast (List.forall₂_same.mpr fun v _ => hR v)

theorem mono (h : o.Pointwise R o') (hRS : ∀ v w, R v w → S v w) : o.Pointwise S o' := by
  cases h with
  | scalar h => exact .scalar (hRS _ _ h)
  | broadcast h => exact .broadcast (h.imp hRS)

theorem eq (h : o.Pointwise (· = ·) o') : o = o' := by
  cases h with
  | scalar h => exact congrArg Outcome.scalar h
  | broadcast h => exact congrArg Outcome.broadcast (List.forall₂_eq_eq_eq ▸ h)

theorem map_eq {f : Value → Value} (h : o.Pointwise (fun v w => f v = w) o') : o.map f = o' := by
  cases h with
  | scalar h => exact congrArg Outcome.scalar h
  | broadcast h =>
    refine congrArg Outcome.broadcast ?_
    induction h with
    | nil => rfl
    | cons h _ ih => rw [List.map_cons, h, ih]

theorem anyTrue (h : o.Pointwise R o') (hR : ∀ v w, R v w → v.boolean? = w.boolean?) :
    o.anyTrue = o'.anyTrue :=
  any_eq_any h.values fun v w hvw => congrArg (· == some true) (hR v w hvw)

theorem mapM {E : ε → ε → Prop} {f f' : Value → Except ε Value} (h : o.Pointwise R o')
    (hf : ∀ v w, R v w → Parallel E S (f v) (f' w)) :
    Parallel E (Pointwise S) (o.mapM f) (o'.mapM f') := by
  cases h with
  | scalar h => exact (hf _ _ h).bind fun _ _ h => .ok (.scalar h)
  | broadcast h => exact (Parallel.mapM h hf).bind fun _ _ h => .ok (.broadcast h)

theorem anyPair {E : ε → ε → Prop} {p p' : Value → Value → Except ε Bool} (hl : l.Pointwise R l')
    (hr : r.Pointwise R r')
    (hp : ∀ v v', R v v' → ∀ w w', R w w' → Parallel E (· = ·) (p v w) (p' v' w')) :
    Parallel E (· = ·) (l.anyPair p r) (l'.anyPair p' r') :=
  .anyM hl.values fun v v' hv => .anyM hr.values fun w w' hw => hp v v' hv w w' hw

end Pointwise

end Outcome

namespace Query

/-! ## Paths -/

/-- Values that no step tells apart, by the schema node where they stand. -/
structure PathCongruence (E : Error → Error → Prop) (R : Schema → Value → Value → Prop) : Prop where
  error (e : Error) : E e e
  field {walked : List Step} {node child : Schema} {name : String} {v w : Value}
    (declared : node.property? name = some child) (related : R node v w) :
    Parallel E (R child) (field walked name v) (field walked name w)
  elements {walked : List Step} {items : Schema} {v w : Value} (related : R (.array items) v w) :
    Parallel E (List.Forall₂ (R items)) (elements walked v) (elements walked w)

section

variable {E : Error → Error → Prop} {R : Schema → Value → Value → Prop} {walked path : List Step}
  {node : Schema} {here here' : Outcome} {step : Step}

/-- One step from related values leads to related values below one schema node. -/
theorem PathCongruence.enter (hR : PathCongruence E R) (h : here.Pointwise (R node) here') :
    Parallel E (fun next next' => next.1 = next'.1 ∧ next.2.Pointwise (R next.1) next'.2 ∧
        ∀ path target, next.1.Reaches path target → node.Reaches (step :: path) target)
      (enter walked node here step) (enter walked node here' step) := by
  cases node with
  | object properties required =>
    cases step with
    | property name =>
      cases hchild : (Schema.object properties required).property? name with
      | none =>
        simp only [Query.enter, hchild]
        exact .error (hR.error _)
      | some child =>
        simp only [Query.enter, hchild]
        refine (h.mapM fun v w => hR.field hchild).bind fun there there' hthere => .ok ?_
        exact ⟨rfl, hthere, fun _ _ => .property hchild⟩
    | item => exact .error (hR.error _)
  | array items =>
    cases step with
    | property name => exact .error (hR.error _)
    | item =>
      cases h with
      | scalar h =>
        refine (hR.elements h).bind fun vs ws hvs => .ok ?_
        exact ⟨rfl, .broadcast hvs, fun _ _ => .item⟩
      | broadcast h => exact .error (hR.error _)
  | scalar kind =>
    cases step with
    | property name | item => exact .error (hR.error _)

theorem PathCongruence.walk (hR : PathCongruence E R) (h : here.Pointwise (R node) here') :
    Parallel E (fun o o' => ∃ target, node.Reaches path target ∧ o.Pointwise (R target) o')
      (walk walked node here path) (walk walked node here' path) := by
  induction path generalizing walked node here here' with
  | nil => exact .ok ⟨node, .here, h⟩
  | cons step path ih =>
    refine (hR.enter h).bind ?_
    rintro ⟨child, there⟩ ⟨_, there'⟩ ⟨rfl, hthere, hbelow⟩
    refine (ih hthere).mono ?_
    rintro o o' ⟨target, htarget, ho⟩
    exact ⟨target, hbelow path target htarget, ho⟩

/-- A path ends at related values, or fails alike, in two records that are related at the root. -/
theorem PathCongruence.resolvePath {limits : Limits} {data data' : Value} {schema : Schema}
    (hR : PathCongruence E R) (h : R schema data data') :
    Parallel E (fun o o' => ∃ target, schema.Reaches path target ∧ o.Pointwise (R target) o')
      (resolvePath limits path data schema) (resolvePath limits path data' schema) := by
  unfold Query.resolvePath
  split
  · exact .error (hR.error _)
  · exact hR.walk (.scalar h)

end

/-! ## Evaluation -/

/-- Values that no operator tells apart. -/
structure Congruence (E : Error → Error → Prop) (R : Value → Value → Prop) : Prop where
  error (e : Error) : E e e
  ofBoolean (b : Bool) : R (.boolean b) (.boolean b)
  boolean? (v w : Value) (related : R v w) : v.boolean? = w.boolean?
  apply {op : BinaryOp} (v v' : Value) (left : R v v') (w w' : Value) (right : R w w') :
    Parallel E (· = ·) (op.apply v w) (op.apply v' w')

theorem congruence_eq {E : Error → Error → Prop} (hE : ∀ e, E e e) :
    Congruence E (· = ·) where
  error := hE
  ofBoolean _ := rfl
  boolean? _ _ h := congrArg Value.boolean? h
  apply {op} v v' hv w w' hw := by
    subst hv hw
    exact .refl hE (fun _ => rfl) (op.apply v w)

/-- The same tree, but for literals that stand in a relation. -/
inductive Resembles (R : Value → Value → Prop) : Query → Query → Prop
  | literal {v w : Value} (related : R v w) : Resembles R (.literal v) (.literal w)
  | not {operand operand' : Query} (inner : Resembles R operand operand') :
      Resembles R (.not operand) (.not operand')
  | binary (op : BinaryOp) {left left' right right' : Query} (first : Resembles R left left')
      (second : Resembles R right right') :
      Resembles R (.binary op left right) (.binary op left' right')
  | resolve (path : List Step) : Resembles R (.resolve path) (.resolve path)

theorem Resembles.refl {R : Value → Value → Prop} (hR : ∀ v, R v v) (q : Query) :
    q.Resembles R q := by
  induction q with
  | literal v => exact .literal (hR v)
  | not operand ih => exact .not ih
  | binary op left right ihl ihr => exact .binary op ihl ihr
  | resolve path => exact .resolve path

theorem Congruence.evaluateWithin {E : Error → Error → Prop} {R : Value → Value → Prop}
    {limits : Limits} {data data' : Value} {schema schema' : Schema} {q q' : Query} {room : Nat}
    (hR : Congruence E R) (hq : q.Resembles R q') (hpaths : ∀ path ∈ q.paths,
      Parallel E (Outcome.Pointwise R) (resolvePath limits path data schema)
        (resolvePath limits path data' schema')) :
    Parallel E (Outcome.Pointwise R) (evaluateWithin limits data schema room q)
      (evaluateWithin limits data' schema' room q') := by
  induction hq generalizing room with
  | literal related =>
    cases room with
    | zero => exact .error (hR.error _)
    | succ room => exact .ok (.scalar related)
  | not _ ih =>
    cases room with
    | zero => exact .error (hR.error _)
    | succ room =>
      refine (ih hpaths).bind fun o o' ho => .ok (.scalar ?_)
      rw [ho.anyTrue hR.boolean?]
      exact hR.ofBoolean _
  | binary op _ _ ihl ihr =>
    cases room with
    | zero => exact .error (hR.error _)
    | succ room =>
      obtain ⟨hpl, hpr⟩ := List.forall_mem_append.mp hpaths
      refine (ihl hpl).bind fun l l' hl => (ihr hpr).bind fun r r' hr => ?_
      refine (hl.anyPair hr hR.apply).bind fun found found' hfound => .ok (.scalar ?_)
      rw [hfound]
      exact hR.ofBoolean _
  | resolve path =>
    cases room with
    | zero => exact .error (hR.error _)
    | succ room => exact hpaths path (List.mem_singleton_self path)

theorem Congruence.evaluate {E : Error → Error → Prop} {R : Value → Value → Prop}
    {limits : Limits} {data data' : Value} {schema schema' : Schema} {q q' : Query}
    (hR : Congruence E R) (hq : q.Resembles R q') (hpaths : ∀ path ∈ q.paths,
      Parallel E (Outcome.Pointwise R) (resolvePath limits path data schema)
        (resolvePath limits path data' schema')) :
    Parallel E (Outcome.Pointwise R) (q.evaluate limits data schema)
      (q'.evaluate limits data' schema') :=
  hR.evaluateWithin hq hpaths

end Query

end RecordQuery
