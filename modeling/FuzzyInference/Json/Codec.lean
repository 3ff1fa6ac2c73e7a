import FuzzyInference.Json.Basic

/-!
# Values as documents

A type with a `Json.Codec` has a document for each of its values, and
reads back a value from a document. Reading accepts more than writing
produces:

* a **choice** among named values is the name, or an object whose only
  key is the name, with nothing for its value;
* a **record** is an object with a member for each field, in any order,
  with other members ignored, or the array of the fields in their own
  order, which may stop short where the remaining fields need not be
  given. A field that is given twice is refused.

Integers are written without a fraction and without an exponent. They are
read if they have sixty-four bits, signed or not; minus zero is no
integer.
-/

namespace FuzzyInference

namespace Json

/-- **A type whose values are written as documents.** -/
class Codec (β : Type) where
  /-- The document of a value. -/
  write : β → Json
  /-- The value of a document, if it has one. -/
  read? : Json → Option β

/-! ## Integers -/

namespace Number

/-- The integer a number is, if it is written as one and has sixty-four
bits, signed or not. -/
def integer? (n : Number) : Option Int :=
  if n.fraction ≠ [] ∨ n.exponent ≠ none then none
  else
    let size := Digit.toNat n.whole
    if n.negative then
      if 0 < size ∧ size ≤ Nat.pow 2 63 then some (-(size : Int)) else none
    else if size < Nat.pow 2 64 then some size
    else none

end Number

/-- The integer of a document. -/
def integer? : Json → Option Int
  | .number n => n.integer?
  | _ => none

/-- A natural number of sixty-four bits. -/
instance : Codec Nat where
  write n := .number (.ofNat n)
  read? j :=
    match integer? j with
    | some (.ofNat n) => some n
    | _ => none

/-! ## Texts and lists -/

instance : Codec String where
  write := .ofString
  read?
    | .text t => t.toString?
    | _ => none

instance {β : Type} [Codec β] : Codec (List β) where
  write xs := .array (xs.map Codec.write)
  read?
    | .array js => js.mapM Codec.read?
    | _ => none

/-! ## Choices -/

/-- The name a document chooses. -/
def choice? : Json → Option String
  | .text t => t.toString?
  | .object [(key, .null)] => key.toString?
  | _ => none

/-- **The value a document chooses** from a table of names. -/
def choose? {β : Type} (table : List (String × β)) (j : Json) : Option β := do
  let name ← choice? j
  table.lookup name

/-- The document that writes a choice. -/
def chosen (name : String) : Json := .ofString name

/-! ## Records -/

/-- The members of an object with the strings of their keys. -/
def keyed? (members : List (Text × Json)) : Option (List (String × Json)) :=
  members.mapM fun (key, value) => key.toString?.map (·, value)

/-- The document given for a field; `none` when it is given twice. -/
def given? (members : List (String × Json)) (name : String) : Option (Option Json) :=
  match members.filter (·.1 = name) with
  | [] => some none
  | [(_, value)] => some (some value)
  | _ => none

/-- **The documents of the fields of a record**, one for each name, or
nothing where a field is not given. -/
def fields? (names : List String) : Json → Option (List (Option Json))
  | .array elements =>
    if elements.length ≤ names.length then
      some (elements.map some ++ List.replicate (names.length - elements.length) none)
    else none
  | .object members => do
    let members ← keyed? members
    names.mapM (given? members)
  | _ => none

/-- A field that has to be given. -/
def required {β : Type} [Codec β] (field : Option Json) : Option β := do
  let j ← field
  Codec.read? j

/-- A field that has a value when it is not given. -/
def defaulting {β : Type} [Codec β] (value : β) : Option Json → Option β
  | none => some value
  | some j => Codec.read? j

/-- A field that may be left out, or be nothing. -/
def optional {β : Type} [Codec β] : Option Json → Option (Option β)
  | none => some none
  | some .null => some none
  | some j => (Codec.read? j).map some

/-- The member for a field that is left out when it has no value. -/
def present {β : Type} [Codec β] (name : String) : Option β → List (String × Json)
  | none => []
  | some v => [(name, Codec.write v)]

end Json

end FuzzyInference
