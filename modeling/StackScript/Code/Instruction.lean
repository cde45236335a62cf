import StackScript.Dispatch.SiteShape
import StackScript.Expr

/-!
# Instructions of the stack machine

Every body that has a context finds it in argument 0; the parameters of the source follow from
argument 1. The receiver is loaded by an instruction of its own, and every call pushes the context.

## Main definitions

* `Instruction`: the instruction set
* `Instruction.pops`, `Instruction.pushes`: the effect on the evaluation stack
* `Instruction.isTransfer`, `Instruction.target?`: the effect on control
-/

namespace StackScript

/-- The number of a local slot. -/
abbrev LocalId := Nat

/-- An instruction. The targets of jumps are offsets in the body. -/
inductive Instruction where
  | nop
  | loadNull
  | loadBool (b : Bool)
  | loadLong (n : Int64)
  | loadDouble (d : Float)
  | loadString (s : String)
  | loadContext
  | loadThis
  | loadArg (slot : Nat)
  | storeArg (slot : Nat)
  | loadLocal (slot : LocalId)
  | storeLocal (slot : LocalId)
  | dup
  | pop
  | binary (op : BinaryOp)
  | unary (op : UnaryOp)
  /-- An array of as many entries as given, each pushed with its key if the array is keyed. -/
  | newArray (size : Nat) (keyed : Bool)
  | isInstance (type : QualifiedName)
  | isExactType (type : QualifiedName)
  | loadField (field : String)
  | storeField (field : String)
  /-- A static field shared by all contexts. -/
  | loadShared (type : QualifiedName) (field : String)
  | storeShared (type : QualifiedName) (field : String)
  /-- A static field of the context on the stack. -/
  | loadBound (type : QualifiedName) (field : String)
  | storeBound (type : QualifiedName) (field : String)
  | call (body : BodyName) (argc : Nat) (onObject : Bool)
  | callGlobal (name : QualifiedName) (argc : Nat)
  | callSite (shape : SiteShape)
  | newObject (type : QualifiedName) (argc : Nat)
  | echo
  | getEnumerator
  | advance
  | enumeratorKey
  | enumeratorValue
  | jump (target : Nat)
  | jumpIfTrue (target : Nat)
  | jumpIfFalse (target : Nat)
  /-- A jump out of protected regions, by way of their `finally` handlers. -/
  | leave (target : Nat)
  | endFinally
  | throw
  | return
  | assertNotNull

namespace Instruction

/-- The number of values taken from the stack. -/
def pops : Instruction → Nat
  | .nop | .jump _ | .leave _ | .endFinally => 0
  | .loadNull | .loadBool _ | .loadLong _ | .loadDouble _ | .loadString _ => 0
  | .loadContext | .loadThis | .loadArg _ | .loadLocal _ | .loadShared .. => 0
  | .storeArg _ | .storeLocal _ | .pop | .storeShared .. => 1
  | .dup => 1
  | .binary _ => 2
  | .unary _ | .isInstance _ | .isExactType _ | .loadField _ => 1
  | .newArray size keyed => if keyed then size * 2 else size
  | .storeField _ => 2
  | .loadBound .. => 1
  | .storeBound .. => 2
  | .call _ argc onObject => argc + 1 + (if onObject then 1 else 0)
  | .callGlobal _ argc | .newObject _ argc => argc + 1
  | .callSite shape => shape.pushedCount + 2
  | .echo => 2
  | .getEnumerator | .advance | .enumeratorKey | .enumeratorValue => 1
  | .jumpIfTrue _ | .jumpIfFalse _ | .throw | .return => 1
  | .assertNotNull => 1

/-- The number of values put on the stack. -/
def pushes : Instruction → Nat
  | .nop | .jump _ | .leave _ | .endFinally => 0
  | .loadNull | .loadBool _ | .loadLong _ | .loadDouble _ | .loadString _ => 1
  | .loadContext | .loadThis | .loadArg _ | .loadLocal _ | .loadShared .. => 1
  | .storeArg _ | .storeLocal _ | .pop | .storeShared .. => 0
  | .dup => 2
  | .binary _ => 1
  | .unary _ | .isInstance _ | .isExactType _ | .loadField _ => 1
  | .newArray .. => 1
  | .storeField _ => 0
  | .loadBound .. => 1
  | .storeBound .. => 0
  | .call .. | .callGlobal .. | .newObject .. | .callSite _ => 1
  | .echo => 0
  | .getEnumerator | .advance | .enumeratorKey | .enumeratorValue => 1
  | .jumpIfTrue _ | .jumpIfFalse _ | .throw | .return => 0
  | .assertNotNull => 1

/-- Control never goes on to the next instruction. -/
def isTransfer : Instruction → Bool
  | .jump _ | .leave _ | .endFinally | .throw | .return => true
  | _ => false

/-- The offset that the instruction may continue at. -/
def target? : Instruction → Option Nat
  | .jump target | .jumpIfTrue target | .jumpIfFalse target | .leave target => some target
  | _ => none

/-- The same jump to another offset; any other instruction as it is. -/
def withTarget (target : Nat) : Instruction → Instruction
  | .jump _ => .jump target
  | .jumpIfTrue _ => .jumpIfTrue target
  | .jumpIfFalse _ => .jumpIfFalse target
  | .leave _ => .leave target
  | instruction => instruction

def outlineStatic (name : String) (type : QualifiedName) (field : String) : Outline :=
  .taggedRecord name [("ty", .text type.text), ("field", .text field)]

def outline : Instruction → Outline
  | .nop => .word "Nop"
  | .loadNull => .word "LdNull"
  | .loadBool b => .tagged "LdBool" (.bool b)
  | .loadLong n => .tagged "LdLong" (.int n.toInt)
  | .loadDouble d => .tagged "LdDouble" (.double d)
  | .loadString s => .tagged "LdStr" (.text s)
  | .loadContext => .word "LdCtx"
  | .loadThis => .word "LdThis"
  | .loadArg slot => .tagged "LdArg" (.nat slot)
  | .storeArg slot => .tagged "StArg" (.nat slot)
  | .loadLocal slot => .tagged "LdLoc" (.wrapped "LocalId" (.nat slot))
  | .storeLocal slot => .tagged "StLoc" (.wrapped "LocalId" (.nat slot))
  | .dup => .word "Dup"
  | .pop => .word "Pop"
  | .binary op => .tagged "Binary" (.word op.name)
  | .unary op => .tagged "Unary" (.word op.name)
  | .newArray size keyed => .taggedRecord "NewArray" [("len", .nat size), ("keyed", .bool keyed)]
  | .isInstance type => .tagged "IsInstance" (.text type.text)
  | .isExactType type => .tagged "IsExactType" (.text type.text)
  | .loadField field => .tagged "LdFld" (.text field)
  | .storeField field => .tagged "StFld" (.text field)
  | .loadShared type field => outlineStatic "LdSFld" type field
  | .storeShared type field => outlineStatic "StSFld" type field
  | .loadBound type field => outlineStatic "LdCtxSFld" type field
  | .storeBound type field => outlineStatic "StCtxSFld" type field
  | .call body argc onObject =>
    .taggedRecord "Call" [
      ("method", body.outline), ("argc", .nat argc), ("instance", .bool onObject)]
  | .callGlobal name argc =>
    .taggedRecord "CallGlobal" [("name", .text name.text), ("argc", .nat argc)]
  | .callSite shape => .tagged "CallSite" shape.outline
  | .newObject type argc => .taggedRecord "NewObj" [("ty", .text type.text), ("argc", .nat argc)]
  | .echo => .word "Echo"
  | .getEnumerator => .word "GetEnumerator"
  | .advance => .word "EnumMoveNext"
  | .enumeratorKey => .word "EnumKey"
  | .enumeratorValue => .word "EnumValue"
  | .jump target => .tagged "Br" (.nat target)
  | .jumpIfTrue target => .tagged "BrTrue" (.nat target)
  | .jumpIfFalse target => .tagged "BrFalse" (.nat target)
  | .leave target => .tagged "Leave" (.nat target)
  | .endFinally => .word "EndFinally"
  | .throw => .word "Throw"
  | .return => .word "Ret"
  | .assertNotNull => .word "DebugAssertNotNull"

end Instruction

end StackScript
