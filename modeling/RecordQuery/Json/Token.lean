import RecordQuery.Json.Basic
import RecordQuery.Numeral

/-!
The tokens of JSON text: punctuation marks and scalars, with blanks dropped. Numbers and the three
words are cut out as whole runs of characters and read afterwards; two of them never stand side by
side in a document, so a run that is neither is an error wherever it is cut.
-/

namespace RecordQuery.Json

inductive Token where
  | openArray
  | closeArray
  | openObject
  | closeObject
  | colon
  | comma
  | scalar (value : Json)

namespace Token

def isBlank (c : Char) : Bool := c == ' ' || c == '\t' || c == '\n' || c == '\r'

def ofMark? (c : Char) : Option Token :=
  if c = '[' then some .openArray
  else if c = ']' then some .closeArray
  else if c = '\x7b' then some .openObject
  else if c = '\x7d' then some .closeObject
  else if c = ':' then some .colon
  else if c = ',' then some .comma
  else none

/-! ## Strings -/

/-- The characters up to the closing quotation mark, escapes still as written, and what follows. -/
def untilQuote : List Char → Option (List Char × List Char)
  | [] => none
  | '\x22' :: rest => some ([], rest)
  | '\\' :: c :: rest => (untilQuote rest).map fun (body, after) => ('\\' :: c :: body, after)
  | c :: rest => (untilQuote rest).map fun (body, after) => (c :: body, after)

theorem untilQuote_length {cs body rest : List Char} (h : untilQuote cs = some (body, rest)) :
    rest.length < cs.length := by
  fun_induction untilQuote cs generalizing body with
  | case1 => simp at h
  | case2 rest' => simp_all
  | case3 c rest' ih =>
    obtain ⟨⟨b, r⟩, hr, he⟩ := Option.map_eq_some_iff.1 h
    simp only [Prod.mk.injEq] at he
    have := ih (he.2 ▸ hr)
    simp only [List.length_cons]
    omega
  | case4 c rest' _ _ ih =>
    obtain ⟨⟨b, r⟩, hr, he⟩ := Option.map_eq_some_iff.1 h
    simp only [Prod.mk.injEq] at he
    have := ih (he.2 ▸ hr)
    simp only [List.length_cons]
    omega

def ofEscape? (c : Char) : Option Char :=
  if c = '\x22' ∨ c = '\\' ∨ c = '/' then some c
  else if c = 'b' then some '\x08'
  else if c = 'f' then some '\x0c'
  else if c = 'n' then some '\n'
  else if c = 'r' then some '\r'
  else if c = 't' then some '\t'
  else none

/-- The codes that a string body stands for: a character gives its own, `\uXXXX` gives the sixteen
bits it spells, which may be half of a surrogate pair. Control characters must be escaped. -/
def codes? : List Char → Option (List Nat)
  | [] => some []
  | '\\' :: 'u' :: a :: b :: c :: d :: rest => do
    return (← Numeral.ofDigits? 16 [a, b, c, d]) :: (← codes? rest)
  | '\\' :: c :: rest => do return (← ofEscape? c).toNat :: (← codes? rest)
  | c :: rest => if c < ' ' then none else do return c.toNat :: (← codes? rest)

def isLeading (code : Nat) : Bool := 0xD800 ≤ code && code < 0xDC00
def isTrailing (code : Nat) : Bool := 0xDC00 ≤ code && code < 0xE000

/-- Joins each surrogate pair; a half without its partner stands for nothing. -/
def joined? : List Nat → Option (List Char)
  | [] => some []
  | [code] => if isLeading code || isTrailing code then none else some [Char.ofNat code]
  | code :: next :: rest =>
    if isLeading code && isTrailing next then do
      return Char.ofNat (0x10000 + (code - 0xD800) * 0x400 + (next - 0xDC00)) :: (← joined? rest)
    else if isLeading code || isTrailing code then none
    else do return Char.ofNat code :: (← joined? (next :: rest))

def string? (body : List Char) : Option String := do
  return String.ofList (← joined? (← codes? body))

/-! ## Numbers and words -/

def isWordChar (c : Char) : Bool := c.isAlphanum || c == '+' || c == '-' || c == '.'

/-- Splits off a leading run of digits. -/
def digits (cs : List Char) : List Char × List Char :=
  (cs.takeWhile Char.isDigit, cs.dropWhile Char.isDigit)

/-- An exponent with its mark, or nothing at all. -/
def exponent? : List Char → Option Int
  | [] => some 0
  | mark :: cs =>
    if mark != 'e' && mark != 'E' then none
    else
      let (negative, ds) := match cs with
        | '-' :: ds => (true, ds)
        | '+' :: ds => (false, ds)
        | ds => (false, ds)
      if ds.isEmpty then none
      else (Numeral.ofDigits? 10 ds).map fun (n : Nat) => if negative then -(n : Int) else n

/-- Adds digits to a number of 64 bits until it is full, and counts those that are left. -/
def significant (n : Nat) (ds : List Char) : Nat × Nat :=
  let (n, left) := Numeral.extend 10 UInt64.size n ds
  (n, left.length)

/-- The double `n * 10 ^ exponent`, where `n` is rounded before it is scaled; it must be finite. -/
def double? (negative : Bool) (n : Nat) (exponent : Int) : Option Number :=
  Number.float? ((Binary64.ofRatio negative n 1).scaled exponent)

/-- A number without its sign. Whole numbers of 64 bits without a point or an exponent stay exact;
all others, and the negative zero, are doubles. Of their digits only those count that make a number
of 64 bits: a digit before the point that is left out moves the point, one after it does nothing. -/
def unsigned? (negative : Bool) (cs : List Char) : Option Number := do
  let (whole, rest) := digits cs
  if whole.isEmpty || (whole.length > 1 && whole.head? == some '0') then none
  let (n, left) := significant 0 whole
  match rest with
  | [] =>
    if left != 0 || (negative && n == 0) then double? negative n left
    else Number.ofInt? (if negative then -(n : Int) else n)
  | '.' :: rest =>
    let (fraction, rest) := digits rest
    if fraction.isEmpty then none
    let (n, ignored) := significant n fraction
    let places : Int := fraction.length - ignored
    double? negative n (left - places + (← exponent? rest))
  | rest => double? negative n (left + (← exponent? rest))

def number? : List Char → Option Number
  | '-' :: cs => unsigned? true cs
  | cs => unsigned? false cs

def word? (cs : List Char) : Option Json :=
  if cs = ['n', 'u', 'l', 'l'] then some .null
  else if cs = ['t', 'r', 'u', 'e'] then some (.boolean true)
  else if cs = ['f', 'a', 'l', 's', 'e'] then some (.boolean false)
  else (number? cs).map .number

/-! ## The token sequence -/

def ofChars? : List Char → Option (List Token)
  | [] => some []
  | c :: rest =>
    if isBlank c then ofChars? rest
    else if c = '\x22' then
      match _split : untilQuote rest with
      | none => none
      | some (body, after) => do
        return .scalar (.string (← string? body)) :: (← ofChars? after)
    else match ofMark? c with
      | some mark => do return mark :: (← ofChars? rest)
      | none => do
        return .scalar (← word? (c :: rest.takeWhile isWordChar))
          :: (← ofChars? (rest.dropWhile isWordChar))
termination_by cs => cs.length
decreasing_by
  · simp
  · have := untilQuote_length ‹_›
    simp only [List.length_cons]
    omega
  · simp
  · have := (List.dropWhile_suffix isWordChar (l := rest)).length_le
    simp only [List.length_cons]
    omega

end Token

end RecordQuery.Json
