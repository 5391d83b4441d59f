import RecordQuery.Decimal
import RecordQuery.Json.Basic

/-!
Writing JSON text, on one line or indented by two spaces a level.
-/

namespace RecordQuery.Json

/-- Numbers with a first digit from the fifth decimal place up to `10 ^ 15` need no exponent. -/
def floatLayout : Decimal.Layout := ⟨-5, 15⟩

def Number.text : Number → String
  | .integer n _ => toString n
  | .float x _ => x.text floatLayout

def escaped (c : Char) : String :=
  if c = '\x22' then "\\\x22"
  else if c = '\\' then "\\\\"
  else if c = '\x08' then "\\b"
  else if c = '\x0c' then "\\f"
  else if c = '\n' then "\\n"
  else if c = '\r' then "\\r"
  else if c = '\t' then "\\t"
  else if c < ' ' then
    "\\u00" ++ String.ofList [Nat.digitChar (c.toNat / 16), Nat.digitChar (c.toNat % 16)]
  else c.toString

def quoted (s : String) : String := "\x22" ++ String.join (s.toList.map escaped) ++ "\x22"

mutual

def compact : Json → String
  | .null => "null"
  | .boolean b => if b then "true" else "false"
  | .number n => n.text
  | .string s => quoted s
  | .array items => "[" ++ ",".intercalate (compactItems items) ++ "]"
  | .object members => "\x7b" ++ ",".intercalate (compactMembers members) ++ "\x7d"

def compactItems : List Json → List String
  | [] => []
  | item :: rest => item.compact :: compactItems rest

def compactMembers {taken : List String} : Members taken → List String
  | .nil => []
  | .cons name _ value rest => (quoted name ++ ":" ++ value.compact) :: compactMembers rest

end

/-- Entries one a line between brackets, or the bare brackets where there are none. -/
def block (left right : String) (level : Nat) (entries : List String) : String :=
  let newline := fun n => "\n" ++ String.ofList (List.replicate (2 * n) ' ')
  if entries.isEmpty then left ++ right
  else left ++ ",".intercalate (entries.map (newline (level + 1) ++ ·)) ++ newline level ++ right

mutual

def prettyAt (level : Nat) : Json → String
  | .null => "null"
  | .boolean b => if b then "true" else "false"
  | .number n => n.text
  | .string s => quoted s
  | .array items => block "[" "]" level (prettyItems (level + 1) items)
  | .object members => block "\x7b" "\x7d" level (prettyMembers (level + 1) members)

def prettyItems (level : Nat) : List Json → List String
  | [] => []
  | item :: rest => item.prettyAt level :: prettyItems level rest

def prettyMembers (level : Nat) {taken : List String} : Members taken → List String
  | .nil => []
  | .cons name _ value rest =>
    (quoted name ++ ": " ++ value.prettyAt level) :: prettyMembers level rest

end

def pretty (j : Json) : String := j.prettyAt 0

end RecordQuery.Json
