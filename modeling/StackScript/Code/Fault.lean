import StackScript.Code.Instruction
import StackScript.Flow.Construction
import StackScript.Source

/-!
# Why no code is generated

A routine for which no code can be generated is reported with one cause; the rest of the program
is compiled all the same.

## Main definitions

* `Violation`: a rule of code or of flow graphs that is broken
* `SignatureDefect`: arguments that do not fit the parameters
* `Cause`, `CodegenError`: the cause, and the routine that it concerns
-/

namespace StackScript

/-- The number of a label. -/
abbrev Label := Nat

/-- A rule that is broken in a routine. -/
inductive Violation where
  | stackUnderflow (instruction : Instruction) (depth pops : Nat)
  | labelMarkedTwice (label : Label)
  | depthIntoLabel (found expected : Nat)
  | depthAtBranch (depth expected popped : Nat)
  | labelNeverMarked (index : Nat)
  | noContext
  | thisInStaticBody
  | contextAssigned (parameter : String)
  | valuesLeft (b : BlockId) (depth : Nat)
  | outsideRegion (b : BlockId)
  | noOutgoingEdge (b : BlockId)
  | scopeLeftOpen
  | regionEnteredTwice (b : BlockId)
  | branchEntersRegion (b : BlockId)
  | branchLeavesFinally (b : BlockId)
  | leaveCrossesFinally (b : BlockId)
  | enumeratorNotAcquired (b : BlockId) (e : EdgeId)

namespace Violation

def message : Violation → String
  | .stackUnderflow instruction depth pops =>
    "stack underflow at " ++ instruction.outline.describe ++ ": depth " ++ toString depth ++
      ", pops " ++ toString pops
  | .labelMarkedTwice label => "label Label(" ++ toString label ++ ") marked twice"
  | .depthIntoLabel found expected =>
    "stack depth " ++ toString found ++ " falls into a label expecting " ++ toString expected
  | .depthAtBranch depth expected popped =>
    "branch at depth " ++ toString depth ++ " to a label expecting " ++ toString expected ++
      " (popped " ++ toString popped ++ ")"
  | .labelNeverMarked index =>
    "branch at " ++ toString index ++ " to a label that was never marked"
  | .noContext => "execution context is not available in this body"
  | .thisInStaticBody => "`this` used in a static body"
  | .contextAssigned parameter => "assignment to context parameter '" ++ parameter ++ "'"
  | .valuesLeft b depth => showBlock b ++ " ends with " ++ toString depth ++ " values on the stack"
  | .outsideRegion b => showBlock b ++ " is reached from outside its protected region"
  | .noOutgoingEdge b => showBlock b ++ " has no outgoing edge"
  | .scopeLeftOpen => "protected scope left open"
  | .regionEnteredTwice b => showBlock b ++ " entered twice as a protected region"
  | .branchEntersRegion b => "branch to " ++ showBlock b ++ " enters a protected region"
  | .branchLeavesFinally b => "branch to " ++ showBlock b ++ " leaves a finally handler"
  | .leaveCrossesFinally b =>
    "leave to " ++ showBlock b ++ " crosses the end of a finally handler"
  | .enumeratorNotAcquired b e =>
    showBlock b ++ " advances the enumerator of " ++ showEdge e ++ " before it is acquired"

end Violation

/-- Arguments that do not fit the parameters of what is called. -/
inductive SignatureDefect where
  | missingArgument (callee parameter : String)
  /-- A parameter cannot be handed on to the constructor of the base. -/
  | cannotForward (own : String) (hint : TypeHint) (parameter : String) (base : QualifiedName)
      (expected : TypeHint)
  | nothingToForward (parameter : String) (base : QualifiedName)

namespace SignatureDefect

/-- The constructor of a type as messages name it. -/
def constructorText (base : QualifiedName) : String :=
  base.text ++ "::" ++ BodyName.constructorName

def message : SignatureDefect → String
  | .missingArgument callee parameter =>
    callee ++ "() requires an argument for '" ++ parameter ++ "'"
  | .cannotForward own hint parameter base expected =>
    "parameter '" ++ own ++ "' of type " ++ hint.describe ++ " cannot be passed to '" ++
      parameter ++ "' of " ++ constructorText base ++ ", which expects " ++ expected.describe
  | .nothingToForward parameter base =>
    "no argument for required parameter '" ++ parameter ++ "' of " ++ constructorText base

end SignatureDefect

/-- What a body has too many of. -/
inductive SlotKind where
  | local
  | argument
  deriving Repr, DecidableEq

namespace SlotKind

def word : SlotKind → String
  | .local => "local"
  | .argument => "argument"

end SlotKind

/-- Why no code is generated for a routine. -/
inductive Cause where
  | signature (defect : SignatureDefect)
  | capacity (kind : SlotKind) (count limit : Nat)
  | invariant (violation : Violation)
  | unresolvedType (name : String)
  | unresolvedMember (member : String)
  /-- The flow graph has an edge to a block that does not exist. Such a graph is no routine of any
  program, and nothing is compiled. -/
  | missingBlock (b : BlockId)

/-- The routine for which no code is generated, and why. -/
structure CodegenError where
  routine : String
  cause : Cause

namespace CodegenError

def message (error : CodegenError) : String :=
  match error.cause with
  | .signature defect => "signature mismatch in " ++ error.routine ++ ": " ++ defect.message
  | .capacity kind count limit =>
    error.routine ++ " uses " ++ toString count ++ " " ++ kind.word ++ " slots, limit is " ++
      toString limit
  | .invariant violation =>
    "internal invariant violated in " ++ error.routine ++ ": " ++ violation.message
  | .unresolvedType name => error.routine ++ ": unresolved type '" ++ name ++ "'"
  | .unresolvedMember member => error.routine ++ ": unresolved member '" ++ member ++ "'"
  | .missingBlock b => error.routine ++ ": no block " ++ showBlock b

end CodegenError

end StackScript
