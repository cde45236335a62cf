import StackScript.Text.Basic

/-!
# Types of objects at run time

A type carries its whole line of ancestors, so that looking up a method and testing for a subtype
are searches in a list. A method only refers to its code, which a loaded program or its memory
holds.

## Main definitions

* `Representation`: what the declaration of a parameter promises about its value
* `Method`: a method with its formal parameters
* `RuntimeType`: a type and its ancestors, nearest first
* `RuntimeType.findMethod?`, `RuntimeType.isSubtypeOf`
-/

namespace StackScript

/-- The declared representation of a parameter. -/
inductive Representation where
  /-- Any value, taken as it is. -/
  | value
  | bool
  | long
  | double
  | string
  | array
  | object
  deriving Repr, DecidableEq

namespace Representation

def word : Representation → String
  | .value => "mixed"
  | .bool => "bool"
  | .long => "int"
  | .double => "float"
  | .string => "string"
  | .array => "array"
  | .object => "object"

def describe : Representation → String
  | .value => "Value"
  | .bool => "Bool"
  | .long => "Long"
  | .double => "Double"
  | .string => "String"
  | .array => "Array"
  | .object => "Object"

end Representation

/-- How a formal parameter gets its value. -/
inductive FormalKind where
  /-- From the context of the call. -/
  | context
  /-- From the next supplied argument, converted. -/
  | supplied (representation : Representation)
  deriving Repr, DecidableEq

/-- A formal parameter of a method. -/
structure Formal where
  name : String
  kind : FormalKind
  deriving Repr, DecidableEq

namespace Formal

/-- The name that every context parameter has. -/
def contextName : String := "<ctx>"

def isContext (formal : Formal) : Bool := formal.kind == .context

def describe (formal : Formal) : String :=
  let kind := match formal.kind with
    | .context => "Context"
    | .supplied representation => "Value(" ++ representation.describe ++ ")"
  "ParamInfo \x7b name: " ++ Text.quote formal.name ++ ", kind: " ++ kind ++ " \x7d"

end Formal

/-- Where the code of a routine is. -/
inductive RoutineRef where
  /-- A routine of the host, by its number in the memory. -/
  | native (index : Nat)
  /-- The compiled body with a key; the formal parameters tell how its arguments are laid out. -/
  | compiled (key : String) (formals : List Formal)
  deriving Repr, DecidableEq

/-- A method: its name, the name of the type that declares it, its parameters and its body. -/
structure Method where
  name : String
  declaringType : String
  formals : List Formal
  routine : RoutineRef
  deriving Repr, DecidableEq

namespace Method

/-- The number of parameters that consume a supplied argument. -/
def suppliedCount (method : Method) : Nat := method.formals.countP (!·.isContext)

def describe (method : Method) : String :=
  "MethodInfo \x7b name: " ++ Text.quote method.name ++ ", declaring_type: " ++
    Text.quote method.declaringType ++ ", params: [" ++
    ", ".intercalate (method.formals.map Formal.describe) ++ "] \x7d"

end Method

/-- The identity of a type: two types are the same if their numbers are. -/
abbrev TypeId := Nat

/-- What one type declares itself. -/
structure TypeLevel where
  id : TypeId
  name : String
  methods : List Method
  deriving Repr, DecidableEq

namespace TypeLevel

/-- The first method of that name, in any case of its ASCII letters. -/
def declaredMethod? (level : TypeLevel) (name : String) : Option Method :=
  level.methods.find? fun method => Text.equalIgnoringCase method.name name

end TypeLevel

/-- A type with its ancestors, nearest first. -/
structure RuntimeType where
  own : TypeLevel
  ancestors : List TypeLevel
  deriving Repr, DecidableEq

namespace RuntimeType

/-- A new type below a base. The methods become methods of the type, whatever type they name. -/
def extend (base : Option RuntimeType) (id : TypeId) (name : String) (methods : List Method) :
    RuntimeType where
  own := ⟨id, name, methods.map fun method => { method with declaringType := name }⟩
  ancestors := match base with
    | some base => base.own :: base.ancestors
    | none => []

def id (type : RuntimeType) : TypeId := type.own.id

def name (type : RuntimeType) : String := type.own.name

/-- The type and its ancestors, nearest first. -/
def levels (type : RuntimeType) : List TypeLevel := type.own :: type.ancestors

/-- The type directly above. -/
def base? (type : RuntimeType) : Option RuntimeType :=
  match type.ancestors with
  | [] => none
  | level :: rest => some ⟨level, rest⟩

/-- The method of that name that the nearest type declares. -/
def findMethod? (type : RuntimeType) (name : String) : Option Method :=
  type.levels.findSome? (·.declaredMethod? name)

/-- The type or one of its ancestors has that name, in any case of its ASCII letters. -/
def isSubtypeOf (type : RuntimeType) (name : String) : Bool :=
  type.levels.any fun level => Text.equalIgnoringCase level.name name

end RuntimeType

end StackScript
