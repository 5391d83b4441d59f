import RecordQuery.Json.Token

/-!
Reading JSON text. The reader walks the tokens once and keeps the containers that are still open,
innermost first, each with what it holds so far.
-/

namespace RecordQuery.Json

/-- A container that is still open; array items stand in reverse order. -/
inductive Frame where
  | array (before : List Json)
  | object (before : Members []) (name : String)

/-- What the reader expects next. A container that was opened just now may be closed at once. -/
inductive Expecting where
  | value (openFrames : List Frame) (justOpened : Bool)
  | name (openFrames : List Frame) (before : Members []) (justOpened : Bool)
  | colon (openFrames : List Frame) (before : Members []) (name : String)
  | afterValue (openFrames : List Frame) (value : Json)

/-- The number of containers that may stand inside one another. -/
def maxNesting : Nat := 127

def Expecting.step : Expecting → Token → Option Expecting
  | .value frames _, .scalar item => some (.afterValue frames item)
  | .value frames _, .openArray =>
    if frames.length < maxNesting then some (.value (.array [] :: frames) true) else none
  | .value frames _, .openObject =>
    if frames.length < maxNesting then some (.name frames .nil true) else none
  | .value (.array before :: frames) true, .closeArray =>
    some (.afterValue frames (.array before.reverse))
  | .name frames before _, .scalar (.string key) => some (.colon frames before key)
  | .name frames before true, .closeObject => some (.afterValue frames (.object before))
  | .colon frames before key, .colon => some (.value (.object before key :: frames) false)
  | .afterValue (.array before :: frames) item, .comma =>
    some (.value (.array (item :: before) :: frames) false)
  | .afterValue (.array before :: frames) item, .closeArray =>
    some (.afterValue frames (.array (item :: before).reverse))
  | .afterValue (.object before key :: frames) item, .comma =>
    some (.name frames (before.put key List.not_mem_nil item) false)
  | .afterValue (.object before key :: frames) item, .closeObject =>
    some (.afterValue frames (.object (before.put key List.not_mem_nil item)))
  | _, _ => none

/-- The document that a text holds, if it holds exactly one. -/
def parse? (text : String) : Option Json := do
  let tokens ← Token.ofChars? text.toList
  match ← tokens.foldlM Expecting.step (.value [] false) with
  | .afterValue [] value => some value
  | _ => none

end RecordQuery.Json
