import FuzzyInference.Json.Token

/-!
# From tokens to a document

The tokens of a document are read one by one by a machine with a stack: a
`Frame` is an array or object whose end has not been seen, and a
`Reading` says what may come next, within which frames. However deeply a
document is nested, reading it is one pass over its tokens.
-/

namespace FuzzyInference

namespace Json

/-- **An array or object under way.** -/
inductive Frame where
  /-- An array, with its elements so far, the latest first. -/
  | array (before : List Json)
  /-- An object, with its members so far, the latest first, and the key
  whose value is due. -/
  | object (before : List (Text × Json)) (key : Text)

/-- **What may come next**, and within which frames, the innermost
first. -/
inductive Reading where
  /-- A value. -/
  | value (frames : List Frame)
  /-- A value, or the end of an array that has just begun. -/
  | firstElement (frames : List Frame)
  /-- A key, or the end of an object that has just begun. -/
  | firstKey (frames : List Frame)
  /-- A key. -/
  | key (before : List (Text × Json)) (frames : List Frame)
  /-- The colon behind a key. -/
  | colon (before : List (Text × Json)) (key : Text) (frames : List Frame)
  /-- What follows a complete value. -/
  | complete (value : Json) (frames : List Frame)

namespace Reading

/-- Past the token a value begins with. -/
def beginValue (frames : List Frame) : Token → Option Reading
  | .openArray => some (.firstElement frames)
  | .openObject => some (.firstKey frames)
  | .null => some (.complete .null frames)
  | .bool b => some (.complete (.bool b) frames)
  | .number n => some (.complete (.number n) frames)
  | .text t => some (.complete (.text t) frames)
  | _ => none

/-- **Past one token.** -/
def step (r : Reading) (t : Token) : Option Reading :=
  match r, t with
  | .value frames, t => beginValue frames t
  | .firstElement frames, .closeArray => some (.complete (.array []) frames)
  | .firstElement frames, t => beginValue (.array [] :: frames) t
  | .firstKey frames, .closeObject => some (.complete (.object []) frames)
  | .firstKey frames, .text k => some (.colon [] k frames)
  | .key before frames, .text k => some (.colon before k frames)
  | .colon before k frames, .colon => some (.value (.object before k :: frames))
  | .complete v (.array before :: frames), .comma =>
    some (.value (.array (v :: before) :: frames))
  | .complete v (.array before :: frames), .closeArray =>
    some (.complete (.array (v :: before).reverse) frames)
  | .complete v (.object before k :: frames), .comma => some (.key ((k, v) :: before) frames)
  | .complete v (.object before k :: frames), .closeObject =>
    some (.complete (.object ((k, v) :: before).reverse) frames)
  | _, _ => none

/-- The document that has been read, when nothing is under way. -/
def document? : Reading → Option Json
  | .complete v [] => some v
  | _ => none

end Reading

/-- **The document of a list of tokens.** -/
def ofTokens? (ts : List Token) : Option Json := do
  let r ← ts.foldlM Reading.step (.value [])
  r.document?

/-- **The document of a text.** -/
def parse? (source : String) : Option Json := do
  let ts ← lex source.toList
  ofTokens? ts

end Json

end FuzzyInference
