import StackScript.Flow.Graph
import StackScript.Value.RuntimeType

/-!
# Programs as they are handed over for compilation

A program is a list of units, one a file. A unit declares functions and types; those inside a
conditional group come into being only when the program runs.

## Main definitions

* `TypeHint`, `TypeHint.canBePassedTo`: declared types and when one may stand for another
* `Parameter`: a parameter, which takes the context or a value
* `Routine`, `Field`, `TypeDeclaration`: what can be declared
* `Item`, `SourceUnit`: what a file contains
-/

namespace StackScript

/-- The declared type of a value. -/
inductive TypeHint where
  | value
  | bool
  | long
  | double
  | string
  | array
  | object (type : QualifiedName)

namespace TypeHint

/-- Equality of declared types; class names are compared as names. -/
def same : TypeHint → TypeHint → Bool
  | .value, .value | .bool, .bool | .long, .long | .double, .double | .string, .string
  | .array, .array => true
  | .object a, .object b => a == b
  | _, _ => false

instance : BEq TypeHint := ⟨same⟩

/-- A value of the first type may be passed where the second is declared: the same type, any type
where no type is asked for, and an integer for a double. -/
def canBePassedTo (hint expected : TypeHint) : Bool :=
  hint == expected ||
    match hint, expected with
    | _, .value => true
    | .long, .double => true
    | _, _ => false

/-- The representation that the type declares. -/
def representation : TypeHint → Representation
  | .value => .value
  | .bool => .bool
  | .long => .long
  | .double => .double
  | .string => .string
  | .array => .array
  | .object _ => .object

def describe : TypeHint → String
  | .object type => "Object(" ++ type.describe ++ ")"
  | hint => hint.representation.describe

end TypeHint

/-- What a parameter takes. -/
inductive ParameterType where
  | context
  | value (hint : TypeHint)

/-- A parameter of a routine. -/
structure Parameter where
  name : String
  type : ParameterType
  default : Option Literal

namespace Parameter

def isContext (parameter : Parameter) : Bool :=
  match parameter.type with
  | .context => true
  | .value _ => false

/-- The parameter as the binder of call sites sees it. -/
def formal (parameter : Parameter) : Formal :=
  match parameter.type with
  | .context => ⟨Formal.contextName, .context⟩
  | .value hint => ⟨parameter.name, .supplied hint.representation⟩

end Parameter

/-- A function or a method. -/
structure Routine where
  name : String
  params : List Parameter
  isStatic : Bool
  owner : Option QualifiedName
  /-- The receiver carries the context that it was created in. -/
  threadsContext : Bool
  graph : Graph

namespace Routine

/-- The name with `::` behind the owner. -/
def displayName (routine : Routine) : String :=
  match routine.owner with
  | some owner => owner.text ++ "::" ++ routine.name
  | none => routine.name

/-- The routine has that name, in any case of its ASCII letters. -/
def isNamed (routine : Routine) (name : String) : Bool := Text.equalIgnoringCase routine.name name

/-- The parameters that take values. -/
def valueParams (routine : Routine) : List Parameter := routine.params.filter (!·.isContext)

end Routine

/-- A field of a type. -/
structure Field where
  name : String
  isStatic : Bool
  initializer : Option Expr

namespace Field

/-- The field cannot be initialized without an execution context. -/
def requiresContext (field : Field) : Bool :=
  match field.initializer with
  | some initializer => initializer.requiresContext
  | none => false

end Field

/-- The declaration of a type. -/
structure TypeDeclaration where
  name : QualifiedName
  base : Option QualifiedName
  fields : List Field
  methods : List Routine
  /-- Objects of the type carry the context that they were created in. -/
  threadsContext : Bool
  /-- Objects of the type can be called like functions. -/
  callable : Bool

/-- An item of a file. -/
inductive Item where
  | function (routine : Routine)
  | type (declaration : TypeDeclaration)
  | conditional (items : List Item)

/-- A file. -/
structure SourceUnit where
  path : String
  items : List Item

end StackScript
