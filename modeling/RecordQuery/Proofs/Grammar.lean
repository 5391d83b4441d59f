import RecordQuery.Proofs.Reading

/-!
The grammar of queries over JSON documents, one expression at a time. `expressions` lists the
expressions of a document in the order in which they are met, each with its depth, and `faults`
lists what is wrong with one of them, its arguments apart. The reader accepts exactly the documents
whose expressions are all in order, and reports the first fault of the first one that is not
(`ofJson_first_fault`).
-/

namespace RecordQuery.Query

/-! ## Expressions -/

/-- The operator that the head of a call names. -/
def headOperator? : Json → Option Operator
  | .string token => Operator.ofToken? token
  | _ => none

mutual

/-- The expressions of a document that stands at some depth: a call before its arguments, and these
from left to right. What follows `resolve` is a path and holds no expressions. -/
def expressions (depth : Nat) : Json → List (Nat × Json)
  | .array (head :: args) =>
    (depth, .array (head :: args)) ::
      if headOperator? head = some .resolve then [] else expressionsIn (depth + 1) args
  | document => [(depth, document)]

def expressionsIn (depth : Nat) : List Json → List (Nat × Json)
  | [] => []
  | document :: rest => expressions depth document ++ expressionsIn depth rest

end

/-- What may stand as an expression, its arguments apart. -/
inductive IsExpression : Json → Prop
  | literal {document : Json} (h : ∀ items, document ≠ .array items) : IsExpression document
  | not {token : String} (named : Operator.not.IsToken token) (operand : Json) :
      IsExpression (.array [.string token, operand])
  | binary {token : String} {op : BinaryOp} (named : (Operator.binary op).IsToken token)
      (left right : Json) : IsExpression (.array [.string token, left, right])
  | resolve {token : String} (named : Operator.resolve.IsToken token) (names : List String) :
      IsExpression (.array (.string token :: names.map .string))

theorem headOperator?_eq_some_iff {head : Json} {op : Operator} :
    headOperator? head = some op ↔ ∃ token, head = .string token ∧ op.IsToken token := by
  cases head with
  | string token => simp [headOperator?, Operator.ofToken?_eq_some_iff]
  | null | boolean | number | array | object => simp [headOperator?]

theorem operatorOf_eq (head : Json) : operatorOf head =
    match headOperator? head with
    | some op => .ok op
    | none => .error (.unknownOperator head) := by
  cases head with
  | string token => rfl
  | null | boolean | number | array | object => rfl

theorem expressionsIn_eq_flatMap (depth : Nat) (documents : List Json) :
    expressionsIn depth documents = documents.flatMap (expressions depth) := by
  induction documents with
  | nil => rfl
  | cons document rest ih => rw [expressionsIn, ih, List.flatMap_cons]

theorem exists_expressions_eq_cons (depth : Nat) (document : Json) :
    ∃ below, expressions depth document = (depth, document) :: below := by
  unfold expressions
  split
  · exact ⟨_, rfl⟩
  · exact ⟨[], rfl⟩

/-! ## Faults of one expression -/

def nestingFaults (limits : Limits) (depth : Nat) : List Error :=
  if limits.maxDepth < depth then [.tooComplex (.nesting limits.maxDepth)] else []

def emptyFaults : Json → List Error
  | .array [] => [.malformed .emptyCall]
  | _ => []

def headFaults : Json → List Error
  | .array (head :: _) => if headOperator? head = none then [.unknownOperator head] else []
  | _ => []

def countFaults : Json → List Error
  | .array (head :: args) =>
    match headOperator? head with
    | some op =>
      if op.arity?.all (· == args.length) then []
      else [.malformed (.argumentCount op args.length)]
    | none => []
  | _ => []

def segmentFault? : Json → Option Error
  | .string _ => none
  | segment => some (.malformed (.segmentNotString segment))

def segmentFaults : Json → List Error
  | .array (head :: args) =>
    if headOperator? head = some .resolve then args.filterMap segmentFault? else []
  | _ => []

/-- The faults of an expression at some depth, in the order in which they count. -/
def faults (limits : Limits) (depth : Nat) (document : Json) : List Error :=
  nestingFaults limits depth ++ emptyFaults document ++ headFaults document ++
    countFaults document ++ segmentFaults document

/-- The faults of all expressions of a document. -/
def faultsFrom (limits : Limits) (depth : Nat) (document : Json) : List Error :=
  (expressions depth document).flatMap fun e => faults limits e.1 e.2

section

variable {α : Type} {limits : Limits} {depth : Nat}

theorem nestingFaults_eq_nil_iff : nestingFaults limits depth = [] ↔ depth ≤ limits.maxDepth := by
  unfold nestingFaults
  split
  · simp_all
  · simp_all

theorem countFaults_of_mem {head : Json} {args : List Json} {op : Operator} {n : Nat}
    (h : headOperator? head = some op) (hn : n ∈ op.arity?) :
    countFaults (.array (head :: args)) =
      if n = args.length then [] else [.malformed (.argumentCount op args.length)] := by
  simp [countFaults, h, Option.mem_def.mp hn]

theorem countFaults_path {head : Json} {segments : List Json}
    (h : headOperator? head = some .resolve) : countFaults (.array (head :: segments)) = [] := by
  simp [countFaults, h, Operator.arity?]

theorem filterMap_segmentFault?_eq_nil_iff {segments : List Json} :
    segments.filterMap segmentFault? = [] ↔
      ∃ names : List String, segments = names.map .string := by
  constructor
  · intro h
    induction segments with
    | nil => exact ⟨[], rfl⟩
    | cons segment segments ih =>
      cases segment with
      | string name =>
        obtain ⟨names, rfl⟩ := ih h
        exact ⟨name :: names, rfl⟩
      | null | boolean | number | array | object => cases h
  · rintro ⟨names, rfl⟩
    rw [List.filterMap_eq_nil_iff]
    intro segment hsegment
    obtain ⟨name, _, rfl⟩ := List.mem_map.mp hsegment
    rfl

/-- Exactly the expressions that are well formed and not too deep have no faults. -/
theorem faults_eq_nil_iff {document : Json} :
    faults limits depth document = [] ↔ depth ≤ limits.maxDepth ∧ IsExpression document := by
  simp only [faults, List.append_eq_nil_iff, nestingFaults_eq_nil_iff, and_assoc]
  refine and_congr_right fun _ => ?_
  constructor
  · rintro ⟨hempty, hhead, hcount, hsegments⟩
    cases document with
    | null | boolean | number | string | object => exact .literal nofun
    | array items =>
      cases items with
      | nil => cases hempty
      | cons head args =>
        cases hop : headOperator? head with
        | none => simp [headFaults, hop] at hhead
        | some op =>
          obtain ⟨token, rfl, named⟩ := headOperator?_eq_some_iff.mp hop
          cases op with
          | not =>
            have hlength : 1 = args.length := by simpa [countFaults_of_mem hop rfl] using hcount
            obtain ⟨operand, rfl⟩ := List.length_eq_one_iff.mp hlength.symm
            exact .not named operand
          | binary op =>
            have hlength : 2 = args.length := by simpa [countFaults_of_mem hop rfl] using hcount
            obtain ⟨left, right, rfl⟩ := List.length_eq_two.mp hlength.symm
            exact .binary named left right
          | resolve =>
            rw [segmentFaults, if_pos hop, filterMap_segmentFault?_eq_nil_iff] at hsegments
            obtain ⟨names, rfl⟩ := hsegments
            exact .resolve named names
  · intro h
    cases h with
    | literal h =>
      cases document with
      | array items => exact absurd rfl (h items)
      | null | boolean | number | string | object => exact ⟨rfl, rfl, rfl, rfl⟩
    | not named operand | binary named left right =>
      have hop := headOperator?_eq_some_iff.mpr ⟨_, rfl, named⟩
      simp [emptyFaults, headFaults, countFaults, segmentFaults, hop, Operator.arity?]
    | resolve named names =>
      have hop := headOperator?_eq_some_iff.mpr ⟨_, rfl, named⟩
      have hsegments := filterMap_segmentFault?_eq_nil_iff.mpr ⟨names, rfl⟩
      simp [emptyFaults, headFaults, countFaults, segmentFaults, hop, Operator.arity?, hsegments]

/-! ## Reports -/

/-- A pass succeeds when there are no faults, and fails with the first one otherwise. -/
def Reports {α : Type} (faults : List Error) : Except Error α → Prop
  | .ok _ => faults = []
  | .error e => faults.head? = some e

namespace Reports

variable {β : Type} {x : Except Error α} {f : α → Except Error β} {first rest : List Error}

theorem exists_ok_iff (h : Reports first x) : (∃ a, x = .ok a) ↔ first = [] := by
  cases x with
  | ok a => exact ⟨fun _ => h, fun _ => ⟨a, rfl⟩⟩
  | error e =>
    constructor
    · rintro ⟨a, ha⟩
      cases ha
    · intro hnil
      rw [Reports, hnil] at h
      cases h

theorem eq_error_iff (h : Reports first x) {e : Error} :
    x = .error e ↔ first.head? = some e := by
  cases x with
  | ok a =>
    have hnil : first = [] := h
    simp [hnil]
  | error e' =>
    have hhead : first.head? = some e' := h
    simp [hhead]

/-- The faults of a first pass come before those of the pass that it leads to. -/
theorem bind (hx : Reports first x) (hf : ∀ a, x = .ok a → Reports rest (f a)) :
    Reports (first ++ rest) (x >>= f) := by
  cases x with
  | error e =>
    have hhead : first.head? = some e := hx
    show (first ++ rest).head? = some e
    rw [List.head?_append, hhead]
    rfl
  | ok a =>
    have hnil : first = [] := hx
    rw [hnil]
    exact hf a rfl

theorem map (hx : Reports first x) {g : α → β} : Reports first (x >>= fun a => pure (g a)) := by
  rw [← List.append_nil first]
  exact hx.bind fun _ _ => rfl

end Reports

theorem reports_mapM_stepOf (segments : List Json) :
    Reports (segments.filterMap segmentFault?) (segments.mapM stepOf) := by
  induction segments with
  | nil => rfl
  | cons segment segments ih =>
    rw [List.mapM_cons]
    cases segment with
    | string name => exact ih.map
    | null | boolean | number | array | object => rfl

/-- Faults of an expression come before those of its arguments. -/
theorem reports_of_head? {document : Json} {e : Error}
    (h : (faults limits depth document).head? = some e) :
    Reports (faultsFrom limits depth document) (.error e : Except Error α) := by
  obtain ⟨below, hbelow⟩ := exists_expressions_eq_cons depth document
  show (faultsFrom limits depth document).head? = some e
  rw [faultsFrom, hbelow, List.flatMap_cons, List.head?_append, h]
  rfl

theorem faultsFrom_literal {document : Json} (h : ∀ items, document ≠ .array items) :
    faultsFrom limits depth document = faults limits depth document := by
  cases document with
  | array items => exact absurd rfl (h items)
  | null | boolean | number | string | object => exact List.append_nil _

theorem faultsFrom_path {head : Json} {segments : List Json}
    (h : headOperator? head = some .resolve) :
    faultsFrom limits depth (.array (head :: segments)) =
      faults limits depth (.array (head :: segments)) := by
  rw [faultsFrom, expressions, if_pos h]
  exact List.append_nil _

theorem faultsFrom_call {head : Json} {args : List Json} (h : headOperator? head ≠ some .resolve) :
    faultsFrom limits depth (.array (head :: args)) =
      faults limits depth (.array (head :: args)) ++
        args.flatMap (faultsFrom limits (depth + 1)) := by
  rw [faultsFrom, expressions, if_neg h, List.flatMap_cons, expressionsIn_eq_flatMap,
    List.flatMap_assoc]
  rfl

theorem readWithin_of_count {room n : Nat} {token : String} {args : List Json} {op : Operator}
    (named : op.IsToken token) (hn : n ∈ op.arity?) (h : n ≠ args.length) :
    readWithin limits (room + 1) (.array (.string token :: args)) =
      .error (.malformed (.argumentCount op args.length)) := by
  rw [readWithin, operatorOf_eq_ok_iff.mpr ⟨token, rfl, named⟩]
  cases op with
  | not =>
    cases hn
    rcases args with _ | ⟨operand, _ | ⟨second, more⟩⟩
    · rfl
    · exact absurd rfl h
    · rfl
  | binary op =>
    cases hn
    rcases args with _ | ⟨left, _ | ⟨right, _ | ⟨third, more⟩⟩⟩
    · rfl
    · rfl
    · exact absurd rfl h
    · rfl
  | resolve => cases hn

theorem reports_of_count {room n : Nat} {token : String} {args : List Json} {op : Operator}
    (hdepth : depth ≤ limits.maxDepth) (named : op.IsToken token) (hn : n ∈ op.arity?)
    (h : n ≠ args.length) :
    Reports (faultsFrom limits depth (.array (.string token :: args)))
      (readWithin limits (room + 1) (.array (.string token :: args))) := by
  have hop := headOperator?_eq_some_iff.mpr ⟨token, rfl, named⟩
  rw [readWithin_of_count named hn h]
  refine reports_of_head? ?_
  rw [faults, nestingFaults_eq_nil_iff.mpr hdepth, headFaults, hop, countFaults_of_mem hop hn,
    if_neg h]
  rfl

section

variable {room : Nat} (hdepth : depth ≤ limits.maxDepth)
  (below : ∀ document, Reports (faultsFrom limits (depth + 1) document)
    (readWithin limits room document))

include hdepth below

/-- A call that names its operator is read as its faults say, when its arguments are. -/
theorem reports_named {op : Operator} {token : String} {args : List Json}
    (named : op.IsToken token) :
    Reports (faultsFrom limits depth (.array (.string token :: args)))
      (readWithin limits (room + 1) (.array (.string token :: args))) := by
  have hop := headOperator?_eq_some_iff.mpr ⟨token, rfl, named⟩
  cases op with
  | not =>
    by_cases hcount : 1 = args.length
    · obtain ⟨operand, rfl⟩ := List.length_eq_one_iff.mp hcount.symm
      rw [faultsFrom_call (by simp [hop]), readWithin_not named,
        faults_eq_nil_iff.mpr ⟨hdepth, .not named operand⟩, List.flatMap_singleton,
        List.nil_append]
      exact (below operand).map
    · exact reports_of_count hdepth named rfl hcount
  | binary op =>
    by_cases hcount : 2 = args.length
    · obtain ⟨left, right, rfl⟩ := List.length_eq_two.mp hcount.symm
      rw [faultsFrom_call (by simp [hop]), readWithin_binary named,
        faults_eq_nil_iff.mpr ⟨hdepth, .binary named left right⟩, List.flatMap_cons,
        List.flatMap_singleton, List.nil_append]
      exact (below left).bind fun _ _ => (below right).map
    · exact reports_of_count hdepth named rfl hcount
  | resolve =>
    rw [faultsFrom_path hop, readWithin_resolve named, faults, nestingFaults_eq_nil_iff.mpr hdepth,
      headFaults, hop, countFaults_path hop, segmentFaults, if_pos hop]
    exact (reports_mapM_stepOf args).map

/-- A document that is not too deep is read as its faults say, when all documents below it are. -/
theorem reports_step (document : Json) :
    Reports (faultsFrom limits depth document) (readWithin limits (room + 1) document) := by
  have hnesting := nestingFaults_eq_nil_iff.mpr hdepth
  by_cases hliteral : ∀ items, document ≠ .array items
  · rw [faultsFrom_literal hliteral, faults_eq_nil_iff.mpr ⟨hdepth, .literal hliteral⟩,
      readWithin_literal hliteral]
    rfl
  · obtain ⟨items, rfl⟩ : ∃ items, document = .array items := by simpa using hliteral
    cases items with
    | nil =>
      refine reports_of_head? ?_
      rw [faults, hnesting]
      rfl
    | cons head args =>
      cases hop : headOperator? head with
      | none =>
        rw [readWithin, operatorOf_eq, hop]
        refine reports_of_head? ?_
        rw [faults, hnesting, headFaults, if_pos hop]
        rfl
      | some op =>
        obtain ⟨token, rfl, named⟩ := headOperator?_eq_some_iff.mp hop
        exact reports_named hdepth below named

end

/-- The reader reports the faults of the expressions that it meets. -/
theorem reports_readWithin {room : Nat} {document : Json} (h : depth + room = limits.maxDepth + 1) :
    Reports (faultsFrom limits depth document) (readWithin limits room document) := by
  induction room generalizing depth document with
  | zero =>
    have hdepth : limits.maxDepth < depth := by omega
    refine reports_of_head? ?_
    rw [faults, nestingFaults, if_pos hdepth]
    rfl
  | succ room ih =>
    have hdepth : depth ≤ limits.maxDepth := by omega
    have hbelow : depth + 1 + room = limits.maxDepth + 1 := by omega
    exact reports_step hdepth (fun _ => ih hbelow) document

theorem faultsFrom_eq_nil_iff {document : Json} : faultsFrom limits depth document = [] ↔
    ∀ x ∈ expressions depth document, x.1 ≤ limits.maxDepth ∧ IsExpression x.2 := by
  simp only [faultsFrom, List.flatMap_eq_nil_iff, faults_eq_nil_iff]

/-- The first fault is that of the first expression that is not in order. -/
theorem head?_faultsFrom_eq_some_iff {document : Json} {e : Error} :
    (faultsFrom limits depth document).head? = some e ↔
      ∃ before d faulty after, expressions depth document = before ++ (d, faulty) :: after ∧
        (∀ x ∈ before, x.1 ≤ limits.maxDepth ∧ IsExpression x.2) ∧
        (faults limits d faulty).head? = some e := by
  rw [faultsFrom, List.head?_flatMap, List.findSome?_eq_some_iff]
  simp only [List.head?_eq_none_iff, faults_eq_nil_iff]
  constructor
  · rintro ⟨before, ⟨d, faulty⟩, after, hsplit, hfault, hbefore⟩
    exact ⟨before, d, faulty, after, hsplit, hbefore, hfault⟩
  · rintro ⟨before, d, faulty, after, hsplit, hbefore, hfault⟩
    exact ⟨before, (d, faulty), after, hsplit, hfault, hbefore⟩

end

/-- **The grammar of queries.** A document is read as a query exactly when all of its expressions
are well formed and not too deep. Otherwise the error is the first fault of the first expression
that is not, where a call comes before its arguments. A query that is read is no deeper than
permitted. -/
theorem ofJson_first_fault (limits : Limits) (document : Json) :
    ((∃ q, ofJson limits document = .ok q) ↔
      ∀ x ∈ expressions 1 document, x.1 ≤ limits.maxDepth ∧ IsExpression x.2) ∧
    (∀ e, ofJson limits document = .error e ↔
      ∃ before depth faulty after, expressions 1 document = before ++ (depth, faulty) :: after ∧
        (∀ x ∈ before, x.1 ≤ limits.maxDepth ∧ IsExpression x.2) ∧
        (faults limits depth faulty).head? = some e) ∧
    ∀ q, ofJson limits document = .ok q → q.depth ≤ limits.maxDepth := by
  have hreports : Reports (faultsFrom limits 1 document) (ofJson limits document) :=
    reports_readWithin (Nat.add_comm 1 limits.maxDepth)
  refine ⟨?_, fun e => ?_, fun q hq => (readWithin_eq_ok_iff.mp hq).2⟩
  · exact hreports.exists_ok_iff.trans faultsFrom_eq_nil_iff
  · exact hreports.eq_error_iff.trans head?_faultsFrom_eq_some_iff

/-- The call that lacks an argument is told, not what is too deep inside it or empty after it. -/
example : ofJson { maxDepth := 2 }
    (.array [.string "#and", .array [.string "lt", .array [.array []]], .array []]) =
      .error (.malformed (.argumentCount (.binary (.compare .lt)) 1)) := rfl

end RecordQuery.Query
