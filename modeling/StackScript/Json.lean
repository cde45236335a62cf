import StackScript.Number.Written

/-!
# JSON documents

## Main definitions

* `Json`: a document; the members of an object keep their order
* `Json.indented`: its text on several lines, two blanks a level
-/

namespace StackScript

/-- A JSON document. -/
inductive Json where
  | null
  | bool (b : Bool)
  | int (n : Int)
  | double (d : Float)
  | string (s : String)
  | array (items : List Json)
  | object (members : List (String × Json))

namespace Json

/-- An optional part, `null` if it is missing. -/
def ofOption {α : Type} (f : α → Json) : Option α → Json
  | some a => f a
  | none => .null

/-- A named alternative with its content: an object of one member. -/
def tagged (tag : String) (content : Json) : Json := .object [(tag, content)]

def nat (n : Nat) : Json := .int n

/-- The form of one character in a JSON string. -/
def escapeChar (c : Char) : String :=
  if c = '"' then "\\\""
  else if c = '\\' then "\\\\"
  else if c = '\n' then "\\n"
  else if c = '\r' then "\\r"
  else if c = '\t' then "\\t"
  else if c.toNat = 8 then "\\b"
  else if c.toNat = 12 then "\\f"
  else if c.toNat < 0x20 then
    "\\u00" ++ String.ofList [(c.toNat / 16).digitChar, (c.toNat % 16).digitChar]
  else c.toString

def quoteString (s : String) : String := "\"" ++ String.join (s.toList.map escapeChar) ++ "\""

/-- A double as JSON; one that is not finite has no form of its own and is written `null`. -/
def writeDouble (d : Float) : String :=
  match Number.magnitude d with
  | .finite .. => Number.exchanged.write d
  | _ => "null"

def newline (depth : Nat) : String := "\n" ++ String.ofList (List.replicate (2 * depth) ' ')

mutual

/-- The text of a document whose first line starts at a depth. -/
def indentedAt (depth : Nat) : Json → String
  | .null => "null"
  | .bool b => if b then "true" else "false"
  | .int n => toString n
  | .double d => writeDouble d
  | .string s => quoteString s
  | .array [] => "[]"
  | .array items =>
    "[" ++ itemsAt (depth + 1) "" items ++ newline depth ++ "]"
  | .object [] => "\x7b\x7d"
  | .object members =>
    "\x7b" ++ membersAt (depth + 1) "" members ++ newline depth ++ "\x7d"

/-- The items of an array, each on a line of its own. -/
def itemsAt (depth : Nat) (separator : String) : List Json → String
  | [] => ""
  | item :: rest =>
    separator ++ newline depth ++ indentedAt depth item ++ itemsAt depth "," rest

/-- The members of an object, each on a line of its own. -/
def membersAt (depth : Nat) (separator : String) : List (String × Json) → String
  | [] => ""
  | (name, value) :: rest =>
    separator ++ newline depth ++ quoteString name ++ ": " ++ indentedAt depth value ++
      membersAt depth "," rest

end

/-- The text of a document, two blanks a level, empty arrays and objects closed at once. -/
def indented (document : Json) : String := indentedAt 0 document

end Json

end StackScript
