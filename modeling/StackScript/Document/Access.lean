import StackScript.Flow.Construction

/-!
# Parts of documents

Reading a piece of data from a document goes from the document to its parts. A part knows that it
is smaller than the document, so that data of any depth is read by recursion on it.

## Main definitions

* `DocumentError`, `Decode`: why a document is not read
* `Json.Part`: a part of a document
* `Json.alternative`: the name of an alternative and its content
-/

namespace StackScript

/-- Why a document is not read. -/
inductive DocumentError where
  /-- It has not the form that is expected. -/
  | malformed
  /-- A flow graph in it cannot be built. -/
  | defect (defect : GraphDefect)

/-- The result of reading a document. -/
abbrev Decode := Except DocumentError

/-- The document has not the form that is expected. -/
def malformed {α : Type} : Decode α := .error .malformed

namespace Json

/-- A document inside another one. -/
abbrev Part (json : Json) := { part : Json // sizeOf part < sizeOf json }

/-- The last member of a name. -/
def memberOf? (name : String) :
    (members : List (String × Json)) → Option { part : Json // sizeOf part < sizeOf members }
  | [] => none
  | (other, value) :: rest =>
    match memberOf? name rest with
    | some ⟨part, smaller⟩ => some ⟨part, by simp only [List.cons.sizeOf_spec]; omega⟩
    | none =>
      if other == name then
        some ⟨value, by simp only [List.cons.sizeOf_spec, Prod.mk.sizeOf_spec]; omega⟩
      else none

/-- The member of a name. -/
def member? (json : Json) (name : String) : Option (Part json) :=
  match json with
  | .object members =>
    (memberOf? name members).map fun ⟨part, smaller⟩ =>
      ⟨part, by simp only [object.sizeOf_spec]; omega⟩
  | _ => none

/-- The member of a name, unless it is null. -/
def present? (json : Json) (name : String) : Option (Part json) :=
  match json.member? name with
  | some ⟨.null, _⟩ => none
  | found => found

/-- The member of a name, which has to be there. -/
def require (json : Json) (name : String) : Decode (Part json) :=
  match json.member? name with
  | some part => .ok part
  | none => malformed

def items (json : Json) : Decode (List (Part json)) :=
  match json with
  | .array items =>
    .ok (items.attach.map fun ⟨item, isItem⟩ =>
      ⟨item, by
        have smaller := List.sizeOf_lt_of_mem isItem
        simp only [array.sizeOf_spec]
        omega⟩)
  | _ => malformed

/-- The name of an alternative and its content, if it has any. -/
def alternative (json : Json) : Decode (String × Option (Part json)) :=
  match json with
  | .string name => .ok (name, none)
  | .object [(name, .null)] => .ok (name, none)
  | .object [(name, content)] =>
    .ok (name, some ⟨content, by
      simp only [object.sizeOf_spec, List.cons.sizeOf_spec, Prod.mk.sizeOf_spec]
      omega⟩)
  | _ => malformed

namespace Part

variable {json : Json}

/-- A part is smaller than the document. -/
theorem smaller (part : Part json) : sizeOf part.1 < sizeOf json := part.2

/-- A part of a part. -/
def widen (part : Part json) (inner : Part part.1) : Part json :=
  ⟨inner.1, Nat.lt_trans inner.2 part.2⟩

/-- The member of a name, which has to be there. -/
def require (part : Part json) (name : String) : Decode (Part json) :=
  (part.1.require name).map part.widen

def items (part : Part json) : Decode (List (Part json)) :=
  part.1.items.map fun parts => parts.map part.widen

end Part

/-! ## Simple data -/

def text : Json → Decode String
  | .string s => .ok s
  | _ => malformed

def flag : Json → Decode Bool
  | .bool b => .ok b
  | _ => malformed

/-- An integer between two bounds. -/
def intBetween (low high : Int) : Json → Decode Int
  | .int n => if low ≤ n ∧ n ≤ high then .ok n else malformed
  | _ => malformed

/-- A number without a sign, of as many bits as given. -/
def natOfBits (bits : Nat) (json : Json) : Decode Nat :=
  (json.intBetween 0 (Nat.pow 2 bits - 1 : Nat)).map Int.toNat

/-- A number of an argument slot. -/
def nat16 : Json → Decode Nat := natOfBits 16

/-- A number of a block, an edge, a slot, a call site or a line. -/
def nat32 : Json → Decode Nat := natOfBits 32

/-- A count or an offset. -/
def nat64 : Json → Decode Nat := natOfBits 64

/-- An integer of the script language. -/
def int64 (json : Json) : Decode Int64 :=
  (json.intBetween (-(Nat.pow 2 63 : Nat)) (Nat.pow 2 63 - 1 : Nat)).map Int64.ofInt

/-- A double; integers are read as doubles too. -/
def number : Json → Decode Float
  | .int n => .ok (Float.ofInt n)
  | .double d => .ok d
  | _ => malformed

/-- A qualified name. -/
def qualifiedName (json : Json) : Decode QualifiedName := json.text.map QualifiedName.ofString

/-- Data that may be null. -/
def orNull {α : Type} (decode : Json → Decode α) : Json → Decode (Option α)
  | .null => .ok none
  | json => (decode json).map some

/-- A list. -/
def listOf {α : Type} (decode : Json → Decode α) : Json → Decode (List α)
  | .array items => items.mapM decode
  | _ => malformed

/-- A member that has to be there. -/
def field {α : Type} (json : Json) (name : String) (decode : Json → Decode α) : Decode α := do
  decode (← json.require name)

/-- A member that may be missing or null. -/
def optional {α : Type} (json : Json) (name : String) (decode : Json → Decode α) :
    Decode (Option α) :=
  match json.present? name with
  | some part => (decode part).map some
  | none => .ok none

/-- A member that has a value of its own when it is missing or null. -/
def defaulted {α : Type} (json : Json) (name : String) (default : α) (decode : Json → Decode α) :
    Decode α :=
  (json.optional name decode).map (·.getD default)

/-- A word out of a list. -/
def oneOf {α : Type} (table : List (String × α)) (json : Json) : Decode α := do
  match ← json.alternative with
  | (name, none) =>
    match table.lookup name with
    | some a => .ok a
    | none => malformed
  | _ => malformed

end Json

end StackScript
