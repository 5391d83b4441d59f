import RecordQuery.Limits
import RecordQuery.Numeral

/-!
Limits from TOML text. The text is a sequence of lines, each of which is blank, a comment, or one of
the two settings with a whole number that is not negative. Tables, dotted keys and all other kinds
of values have no place in it, and nothing that is accepted spans two lines.
-/

namespace RecordQuery.Limits

namespace Text

/-- Lines end with a line feed, or a carriage return and a line feed. -/
def lines : List Char → List (List Char)
  | [] => [[]]
  | '\r' :: '\n' :: cs => [] :: lines cs
  | '\n' :: cs => [] :: lines cs
  | c :: cs =>
    match lines cs with
    | [] => [[c]]
    | line :: rest => (c :: line) :: rest

def isBlank (c : Char) : Bool := c == ' ' || c == '\t'

def skipBlanks (cs : List Char) : List Char := cs.dropWhile isBlank

/-- Of the control characters only the tab may stand in a comment or a quoted key. -/
def isPlain (c : Char) : Bool := c == '\t' || (' ' ≤ c && c != '\x7f')

/-- The end of a line, with or without a comment. -/
def isEnd : List Char → Bool
  | [] => true
  | c :: cs => c == '#' && cs.all isPlain

/-! ## Keys -/

def isBareKeyChar (c : Char) : Bool := c.isAlphanum || c == '_' || c == '-'

/-- The character with a given code, where there is one. -/
def ofCode? (code : Nat) : Option Char := if code.isValidChar then some (Char.ofNat code) else none

/-- A key between quotation marks, with escapes, and what follows it. -/
def quotedKey? : List Char → Option (List Char × List Char)
  | [] => none
  | '\x22' :: rest => some ([], rest)
  | '\\' :: 'u' :: a :: b :: c :: d :: rest => do
    let char ← ofCode? (← Numeral.ofDigits? 16 [a, b, c, d])
    (quotedKey? rest).map fun (key, after) => (char :: key, after)
  | '\\' :: 'U' :: a :: b :: c :: d :: e :: f :: g :: h :: rest => do
    let char ← ofCode? (← Numeral.ofDigits? 16 [a, b, c, d, e, f, g, h])
    (quotedKey? rest).map fun (key, after) => (char :: key, after)
  | '\\' :: c :: rest => do
    let char ← match c with
      | '\x22' => some '\x22'
      | '\\' => some '\\'
      | 'b' => some '\x08'
      | 't' => some '\t'
      | 'n' => some '\n'
      | 'f' => some '\x0c'
      | 'r' => some '\r'
      | _ => none
    (quotedKey? rest).map fun (key, after) => (char :: key, after)
  | c :: rest =>
    if isPlain c then (quotedKey? rest).map fun (key, after) => (c :: key, after) else none

/-- A key between apostrophes, which has no escapes, and what follows it. -/
def literalKey? : List Char → Option (List Char × List Char)
  | [] => none
  | '\x27' :: rest => some ([], rest)
  | c :: rest =>
    if isPlain c then (literalKey? rest).map fun (key, after) => (c :: key, after) else none

def key? : List Char → Option (List Char × List Char)
  | '\x22' :: rest => quotedKey? rest
  | '\x27' :: rest => literalKey? rest
  | cs =>
    let key := cs.takeWhile isBareKeyChar
    if key.isEmpty then none else some (key, cs.dropWhile isBareKeyChar)

/-! ## Numbers -/

/-- Digits, with single marks allowed between two of them; `afterDigit` tells whether the one before
was a digit. -/
def grouped? (base : Nat) (n : Nat) (afterDigit : Bool) : List Char → Option Nat
  | [] => if afterDigit then some n else none
  | c :: cs =>
    if c == '_' && afterDigit then grouped? base n false cs
    else do grouped? base (base * n + (← Numeral.digit? base c)) true cs

/-- Decimal digits without needless zeros in front. -/
def decimal? (cs : List Char) : Option Nat :=
  if cs.head? == some '0' && cs.length > 1 then none else grouped? 10 0 false cs

/-- A whole number of at most 63 bits; of the negative ones only `-0` is one. -/
def number? (cs : List Char) : Option Nat := do
  let n ← match cs with
    | '0' :: 'x' :: ds => grouped? 16 0 false ds
    | '0' :: 'o' :: ds => grouped? 8 0 false ds
    | '0' :: 'b' :: ds => grouped? 2 0 false ds
    | '+' :: ds => decimal? ds
    | '-' :: ds => (decimal? ds).filter (· == 0)
    | ds => decimal? ds
  if n < 0x8000000000000000 then some n else none

/-! ## Settings -/

/-- The setting on a line, if there is one. -/
def setting? (line : List Char) : Option (Option (String × Nat)) := do
  let line := skipBlanks line
  if isEnd line then return none
  let (key, rest) ← key? line
  match skipBlanks rest with
  | '=' :: rest =>
    let rest := skipBlanks rest
    let isValueChar := fun c => !isBlank c && c != '#'
    let n ← number? (rest.takeWhile isValueChar)
    if isEnd (skipBlanks (rest.dropWhile isValueChar)) then
      return some (String.ofList key, n)
    else none
  | _ => none

def ofSettings? (settings : List (String × Nat)) : Option Limits :=
  let names := settings.map Prod.fst
  if names.all (["max_depth", "max_path_len"].contains ·) && names.eraseDups.length == names.length
  then
    let defaults : Limits := {}
    some ⟨(settings.lookup "max_depth").getD defaults.maxDepth,
      (settings.lookup "max_path_len").getD defaults.maxPathLength⟩
  else none

/-- A byte order mark in front of the text is not part of it. -/
def withoutMark : List Char → List Char
  | '\ufeff' :: cs => cs
  | cs => cs

end Text

def ofText (text : String) : Except Error Limits :=
  match (Text.lines (Text.withoutMark text.toList)).mapM Text.setting? with
  | none => .error .badText
  | some settings =>
    match Text.ofSettings? (settings.filterMap id) with
    | none => .error .badText
    | some limits => limits.validated

end RecordQuery.Limits
