import StackScript.Json
import StackScript.Text.Basic

/-!
# Outlines

Compiled code is shown in two notations: as JSON documents, and in one line inside messages. An
outline is what both have in common: the names and fields of a piece of data.

## Main definitions

* `Outline`: the structure of a piece of data
* `Outline.toJson`: as a document
* `Outline.describe`: in one line
-/

namespace StackScript

/-- The structure of a piece of data, as far as its two notations need it. -/
inductive Outline where
  | int (n : Int)
  | bool (b : Bool)
  | double (d : Float)
  | text (s : String)
  /-- An alternative without content. -/
  | word (name : String)
  /-- An alternative with content. -/
  | tagged (name : String) (content : Outline)
  /-- A number or text with a type of its own, which documents leave out. -/
  | wrapped (name : String) (content : Outline)
  /-- A record; documents leave its name out. -/
  | record (name : String) (fields : List (String × Outline))
  /-- An alternative with named fields. -/
  | taggedRecord (name : String) (fields : List (String × Outline))
  | list (items : List Outline)
  /-- An optional part that is there. -/
  | present (content : Outline)
  /-- An optional part that is missing. -/
  | missing
  /-- A missing part that documents leave out together with its name. -/
  | omitted

namespace Outline

def nat (n : Nat) : Outline := .int n

/-- An optional part. -/
def ofOption {α : Type} (f : α → Outline) : Option α → Outline
  | some a => .present (f a)
  | none => .missing

mutual

def toJson : Outline → Json
  | .int n => .int n
  | .bool b => .bool b
  | .double d => .double d
  | .text s => .string s
  | .word name => .string name
  | .tagged name content => .object [(name, toJson content)]
  | .wrapped _ content => toJson content
  | .record _ fields => .object (fieldsToJson fields)
  | .taggedRecord name fields => .object [(name, .object (fieldsToJson fields))]
  | .list items => .array (itemsToJson items)
  | .present content => toJson content
  | .missing => .null
  | .omitted => .null

/-- The members of a document for the fields that are not omitted. -/
def fieldsToJson : List (String × Outline) → List (String × Json)
  | [] => []
  | (_, .omitted) :: rest => fieldsToJson rest
  | (name, field) :: rest => (name, toJson field) :: fieldsToJson rest

def itemsToJson : List Outline → List Json
  | [] => []
  | item :: rest => toJson item :: itemsToJson rest

end

mutual

def describe : Outline → String
  | .int n => toString n
  | .bool b => if b then "true" else "false"
  | .double d => Number.described.write d
  | .text s => Text.quote s
  | .word name => name
  | .tagged name content => name ++ "(" ++ describe content ++ ")"
  | .wrapped name content => name ++ "(" ++ describe content ++ ")"
  | .record name fields => name ++ " \x7b " ++ describeFields "" fields ++ " \x7d"
  | .taggedRecord name fields => name ++ " \x7b " ++ describeFields "" fields ++ " \x7d"
  | .list items => "[" ++ describeItems "" items ++ "]"
  | .present content => "Some(" ++ describe content ++ ")"
  | .missing => "None"
  | .omitted => "None"

/-- Fields with their names, a separator before each. -/
def describeFields (separator : String) : List (String × Outline) → String
  | [] => ""
  | (name, field) :: rest =>
    separator ++ name ++ ": " ++ describe field ++ describeFields ", " rest

/-- Items of a list, a separator before each. -/
def describeItems (separator : String) : List Outline → String
  | [] => ""
  | item :: rest => separator ++ describe item ++ describeItems ", " rest

end

end Outline

end StackScript
