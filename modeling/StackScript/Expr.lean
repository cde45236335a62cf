import StackScript.Name

/-!
# Expressions and statements

Expressions as they come out of name binding: functions and types are qualified names, variables
are plain ones, and the targets of calls are not known yet. Statements evaluate them, at their
places in a source file.

## Main definitions

* `Literal`, `BinaryOp`, `UnaryOp`, `Expr`: the tree
* `Expr.requiresContext`: the expression cannot be evaluated without an execution context
* `Span`, `Action`, `Statement`: what is done, and where it is written
-/

namespace StackScript

/-- A constant of the source. -/
inductive Literal where
  | null
  | bool (b : Bool)
  | long (n : Int64)
  | double (d : Float)
  | string (s : String)

/-- An operator of two operands. -/
inductive BinaryOp where
  | add
  | sub
  | mul
  | concat
  | eq
  | notEq
  | lt
  | gt
  | identical
  /-- The right operand is evaluated only if the left one is true. -/
  | and
  /-- The right operand is evaluated only if the left one is false. -/
  | or
  deriving Repr, DecidableEq

namespace BinaryOp

def name : BinaryOp → String
  | .add => "Add"
  | .sub => "Sub"
  | .mul => "Mul"
  | .concat => "Concat"
  | .eq => "Eq"
  | .notEq => "NotEq"
  | .lt => "Lt"
  | .gt => "Gt"
  | .identical => "Identical"
  | .and => "And"
  | .or => "Or"

end BinaryOp

/-- An operator of one operand. -/
inductive UnaryOp where
  | not
  | neg
  deriving Repr, DecidableEq

namespace UnaryOp

def name : UnaryOp → String
  | .not => "Not"
  | .neg => "Neg"

end UnaryOp

mutual

/-- An expression. -/
inductive Expr where
  | literal (value : Literal)
  | var (name : String)
  /-- An assignment to a variable; its value is the value assigned. -/
  | assign (target : String) (value : Expr)
  | binary (op : BinaryOp) (left right : Expr)
  | unary (op : UnaryOp) (operand : Expr)
  | call (function : QualifiedName) (args : List Expr)
  /-- A call of a method; the type of the receiver is named if it is known for certain. -/
  | methodCall (receiver : Expr) (name : MethodName) (args : List Argument)
      (receiverType : Option QualifiedName)
  | create (type : QualifiedName) (args : List Expr)
  | this
  | fieldLoad (receiver : Expr) (field : String)
  | fieldStore (receiver : Expr) (field : String) (value : Expr)
  | staticLoad (type : QualifiedName) (field : String)
  | staticStore (type : QualifiedName) (field : String) (value : Expr)
  | array (entries : List ArrayEntry)
  | instanceOf (value : Expr) (type : QualifiedName)

/-- The name of a called method, known or computed. -/
inductive MethodName where
  | direct (name : String)
  | computed (value : Expr)

/-- An argument of a method call, passed as it is or spread as an array. -/
inductive Argument where
  | plain (value : Expr)
  | unpacked (value : Expr)

/-- An entry of an array, with a key or with the next free one. -/
inductive ArrayEntry where
  | item (value : Expr)
  | keyed (key value : Expr)

end

namespace Argument

def value : Argument → Expr
  | .plain value => value
  | .unpacked value => value

def isUnpacked : Argument → Bool
  | .plain _ => false
  | .unpacked _ => true

end Argument

namespace ArrayEntry

/-- The entry has a key of its own. -/
def isKeyed : ArrayEntry → Bool
  | .item _ => false
  | .keyed _ _ => true

end ArrayEntry

mutual

/-- The expression cannot be evaluated without an execution context: it calls, creates an object
or touches a static field. -/
def Expr.requiresContext : Expr → Bool
  | .literal _ | .var _ | .this => false
  | .call .. | .methodCall .. | .create .. | .staticLoad .. | .staticStore .. => true
  | .assign _ value => value.requiresContext
  | .binary _ left right => left.requiresContext || right.requiresContext
  | .unary _ operand => operand.requiresContext
  | .fieldLoad receiver _ => receiver.requiresContext
  | .fieldStore receiver _ value => receiver.requiresContext || value.requiresContext
  | .array entries => entriesRequireContext entries
  | .instanceOf value _ => value.requiresContext

/-- Some entry of an array cannot be evaluated without an execution context. -/
def entriesRequireContext : List ArrayEntry → Bool
  | [] => false
  | entry :: rest => entry.requiresContext || entriesRequireContext rest

/-- The entry of an array cannot be evaluated without an execution context. -/
def ArrayEntry.requiresContext : ArrayEntry → Bool
  | .item value => value.requiresContext
  | .keyed key value => key.requiresContext || value.requiresContext

end

/-! ## Statements -/

/-- A stretch of source text, from a line and column to a line and column. -/
structure Span where
  startLine : Nat
  startColumn : Nat
  endLine : Nat
  endColumn : Nat
  deriving Repr, DecidableEq

namespace Span

def containsLine (span : Span) (line : Nat) : Bool :=
  span.startLine ≤ line && line ≤ span.endLine

end Span

/-- What a statement does. -/
inductive Action where
  /-- An expression, for its effect. -/
  | eval (value : Expr)
  | echo (value : Expr)
  /-- The value that the routine will return; control goes on. -/
  | return (value : Option Expr)
  | throw (value : Expr)

/-- A statement and its place in the source, if it has one. -/
structure Statement where
  action : Action
  span : Option Span

end StackScript
