import StackScript.Number.Written
import StackScript.Value.RuntimeType

/-!
# Values of the script language

## Main definitions

* `Value`: null, booleans, 64-bit integers, doubles, strings, ordered arrays and objects
* `Value.truthy`, `Value.number?`: a value as a condition and as a number
* `Value.text`, `Value.describe`: a value as output and inside a message
* `Value.looselyEqual`: the comparison `==`, by which a switch finds its case
* `Value.identical`: the comparison `===`
* `Value.convert?`: the value that a parameter of a representation receives
-/

namespace StackScript

/-- The identity of an object: its place in the memory of the program. -/
abbrev ObjectId := Nat

/-- A reference to an object. The type of an object never changes and travels with the reference;
its fields are in the memory. -/
structure ObjectRef where
  id : ObjectId
  type : RuntimeType
  deriving Repr

/-- A value of the script language. An array is a list of keys and values in insertion order. -/
inductive Value where
  | null
  | bool (b : Bool)
  | long (n : Int64)
  | double (d : Float)
  | string (s : String)
  | array (entries : List (Value × Value))
  | object (ref : ObjectRef)

instance : Inhabited Value := ⟨.null⟩

/-- The kind of a value. -/
inductive Kind where
  | null
  | bool
  | int
  | float
  | string
  | array
  | object
  deriving Repr, DecidableEq

namespace Kind

def word : Kind → String
  | .null => "null"
  | .bool => "bool"
  | .int => "int"
  | .float => "float"
  | .string => "string"
  | .array => "array"
  | .object => "object"

end Kind

namespace Value

def kind : Value → Kind
  | .null => .null
  | .bool _ => .bool
  | .long _ => .int
  | .double _ => .float
  | .string _ => .string
  | .array _ => .array
  | .object _ => .object

/-- The name of an object's type; the word for its kind for any other value. -/
def typeName : Value → String
  | .object ref => ref.type.name
  | v => v.kind.word

/-- The keys `0, 1, …` counted up from a number, in front of the values of a list. -/
def numberFrom (next : Nat) : List Value → List (Value × Value)
  | [] => []
  | v :: rest => (.long (Int64.ofNat next), v) :: numberFrom (next + 1) rest

/-- The array with the keys `0, 1, …`. -/
def ofList (values : List Value) : Value := .array (numberFrom 0 values)

def isNull : Value → Bool
  | .null => true
  | _ => false

def object? : Value → Option ObjectRef
  | .object ref => some ref
  | _ => none

def entries? : Value → Option (List (Value × Value))
  | .array entries => some entries
  | _ => none

/-- A value as a condition. The string `"0"` is false, every other number but zero is true, a NaN
included. -/
def truthy : Value → Bool
  | .null => false
  | .bool b => b
  | .long n => n != 0
  | .double d => d != 0.0
  | .string s => s != "" && s != "0"
  | .array entries => !entries.isEmpty
  | .object _ => true

/-- A value as a number: none for arrays, objects and strings that spell no number. -/
def number? : Value → Option Float
  | .null => some 0.0
  | .bool b => some (if b then 1.0 else 0.0)
  | .long n => some (Float.ofInt n.toInt)
  | .double d => some d
  | .string s => Number.readDouble? (Text.trim s)
  | .array _ => none
  | .object _ => none

def text : Value → String
  | .null => ""
  | .bool b => if b then "1" else ""
  | .long n => toString n.toInt
  | .double d => Number.shown.write d
  | .string s => s
  | .array _ => "Array"
  | .object ref => "Object(" ++ ref.type.name ++ ")"

mutual

def describe : Value → String
  | .null => "null"
  | .bool b => if b then "true" else "false"
  | .long n => toString n.toInt
  | .double d => Number.described.write d
  | .string s => Text.quote s
  | .array entries => "\x7b" ++ describeEntries "" entries ++ "\x7d"
  | .object ref => "object(" ++ ref.type.name ++ ")"

/-- The entries of an array inside a message, a separator before each. -/
def describeEntries (separator : String) : List (Value × Value) → String
  | [] => ""
  | (key, value) :: rest =>
    separator ++ describe key ++ ": " ++ describe value ++ describeEntries ", " rest

end

/-! ## Equality

Loose equality compares values of different kinds by their meaning, strict equality only values of
one kind. Objects are equal if they are the same object; arrays if they agree entry by entry, in
order. -/

/-- Equality as numbers; values that are no numbers differ. -/
def equalNumbers (a b : Value) : Bool :=
  match a.number?, b.number? with
  | some x, some y => x == y
  | _, _ => false

/-- Two strings are compared as numbers if both spell one, else as text. -/
def equalStrings (a b : String) : Bool :=
  match (Value.string a).number?, (Value.string b).number? with
  | some x, some y => x == y
  | _, _ => a == b

mutual

/-- Loose equality: with null by emptiness, with a boolean by truth, between strings by number or
text, and else by number. -/
def looselyEqual : Value → Value → Bool
  | .null, .null => true
  | .null, v => !v.truthy
  | v, .null => !v.truthy
  | .bool b, v => b == v.truthy
  | v, .bool b => b == v.truthy
  | .string a, .string b => equalStrings a b
  | .object a, .object b => a.id == b.id
  | .array xs, .array ys => looselyEqualEntries xs ys
  | a, b => equalNumbers a b

/-- Loose equality of keys and values, entry by entry. -/
def looselyEqualEntries : List (Value × Value) → List (Value × Value) → Bool
  | [], [] => true
  | (k, v) :: xs, (l, w) :: ys => looselyEqual k l && looselyEqual v w && looselyEqualEntries xs ys
  | _, _ => false

end

mutual

/-- Strict equality: the same kind and the same content. -/
def identical : Value → Value → Bool
  | .null, .null => true
  | .bool a, .bool b => a == b
  | .long a, .long b => a == b
  | .double a, .double b => a == b
  | .string a, .string b => a == b
  | .array xs, .array ys => identicalEntries xs ys
  | .object a, .object b => a.id == b.id
  | _, _ => false

/-- Strict equality of keys and values, entry by entry. -/
def identicalEntries : List (Value × Value) → List (Value × Value) → Bool
  | [], [] => true
  | (k, v) :: xs, (l, w) :: ys => identical k l && identical v w && identicalEntries xs ys
  | _, _ => false

end

/-! ## Conversion to a declared representation -/

/-- A string as an integer: a whole number if it spells one, else the whole part of the double
that it spells. -/
def longOfString? (s : String) : Option Int64 :=
  match Number.readInt64? (Text.trim s) with
  | some n => some n
  | none => (Number.readDouble? (Text.trim s)).map Number.truncateToInt64

/-- A value in a declared representation; none if there is no conversion. -/
def convert? (v : Value) : Representation → Option Value
  | .value => some v
  | .bool => some (.bool v.truthy)
  | .long =>
    match v with
    | .long n => some (.long n)
    | .string s => (longOfString? s).map .long
    | v => v.number?.map fun d => .long (Number.truncateToInt64 d)
  | .double => v.number?.map .double
  | .string =>
    match v with
    | .array _ => none
    | .object _ => none
    | v => some (.string v.text)
  | .array =>
    match v with
    | .array entries => some (.array entries)
    | _ => none
  | .object =>
    match v with
    | .object ref => some (.object ref)
    | _ => none

end Value

end StackScript
