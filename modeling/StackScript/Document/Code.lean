import StackScript.Code.Assembler
import StackScript.Document.Expr

/-!
# Compiled code as documents

## Main definitions

* `Instruction.ofJson`: instructions
* `BodyName.ofJson`, `SiteShape.ofJson`, `Region.ofJson`: names of bodies, shapes of call sites,
  protected regions
* `Assembled.outline`: writing what the assembler has finished
-/

namespace StackScript

def BodyName.ofJson (json : Json) : Decode BodyName := do
  return {
    owner := ← json.optional "owner" Json.qualifiedName
    name := ← json.field "name" Json.text
    site := ← json.optional "site" Json.text }

def MagicMethod.ofJson : Json → Decode MagicMethod :=
  Json.oneOf ([.invoke, .toText, .construct].map fun m : MagicMethod => (m.name, m))

def Selector.ofJson (json : Json) : Decode Selector := do
  match ← json.alternative with
  | ("Direct", some name) => return .direct (← name.1.text)
  | ("Computed", none) => return .computed
  | ("Magic", some method) => return .magic (← MagicMethod.ofJson method)
  | _ => malformed

def ArgShape.ofJson : Json → Decode ArgShape :=
  Json.oneOf ([.value, .unpacked].map fun shape : ArgShape => (shape.name, shape))

def SiteShape.ofJson (json : Json) : Decode SiteShape := do
  return {
    id := ← json.field "id" Json.nat32
    selector := ← json.field "strategy" Selector.ofJson
    args := ← json.field "args" (Json.listOf ArgShape.ofJson) }

/-- A static field by its type and name. -/
def staticField (json : Json) : Decode (QualifiedName × String) := do
  return (← json.field "ty" Json.qualifiedName, ← json.field "field" Json.text)

/-- The instructions without operands. -/
def plainInstructions : List Instruction :=
  [.nop, .loadNull, .loadContext, .loadThis, .dup, .pop, .echo, .getEnumerator, .advance,
    .enumeratorKey, .enumeratorValue, .endFinally, .throw, .return, .assertNotNull]

/-- The instruction without operands that is written as a word. -/
def Instruction.ofWord? (word : String) : Option Instruction :=
  plainInstructions.find? fun instruction =>
    match instruction.outline with
    | .word name => name == word
    | _ => false

def Instruction.ofJson (json : Json) : Decode Instruction := do
  match ← json.alternative with
  | (word, none) =>
    match Instruction.ofWord? word with
    | some instruction => return instruction
    | none => malformed
  | (name, some ⟨operand, _⟩) =>
    match name with
    | "LdBool" => return .loadBool (← operand.flag)
    | "LdLong" => return .loadLong (← operand.int64)
    | "LdDouble" => return .loadDouble (← operand.number)
    | "LdStr" => return .loadString (← operand.text)
    | "LdArg" => return .loadArg (← operand.nat16)
    | "StArg" => return .storeArg (← operand.nat16)
    | "LdLoc" => return .loadLocal (← operand.nat32)
    | "StLoc" => return .storeLocal (← operand.nat32)
    | "Binary" => return .binary (← BinaryOp.ofJson operand)
    | "Unary" => return .unary (← UnaryOp.ofJson operand)
    | "NewArray" =>
      return .newArray (← operand.field "len" Json.nat64) (← operand.field "keyed" Json.flag)
    | "IsInstance" => return .isInstance (← operand.qualifiedName)
    | "IsExactType" => return .isExactType (← operand.qualifiedName)
    | "LdFld" => return .loadField (← operand.text)
    | "StFld" => return .storeField (← operand.text)
    | "LdSFld" => (staticField operand).map fun (type, field) => Instruction.loadShared type field
    | "StSFld" => (staticField operand).map fun (type, field) => Instruction.storeShared type field
    | "LdCtxSFld" => (staticField operand).map fun (type, field) => Instruction.loadBound type field
    | "StCtxSFld" => (staticField operand).map fun (type, field) => Instruction.storeBound type field
    | "Call" =>
      return .call (← operand.field "method" BodyName.ofJson) (← operand.field "argc" Json.nat64)
        (← operand.field "instance" Json.flag)
    | "CallGlobal" =>
      return .callGlobal (← operand.field "name" Json.qualifiedName)
        (← operand.field "argc" Json.nat64)
    | "CallSite" => return .callSite (← SiteShape.ofJson operand)
    | "NewObj" =>
      return .newObject (← operand.field "ty" Json.qualifiedName)
        (← operand.field "argc" Json.nat64)
    | "Br" => return .jump (← operand.nat64)
    | "BrTrue" => return .jumpIfTrue (← operand.nat64)
    | "BrFalse" => return .jumpIfFalse (← operand.nat64)
    | "Leave" => return .leave (← operand.nat64)
    | _ => malformed

def HandlerKind.ofJson (json : Json) : Decode HandlerKind := do
  match ← json.alternative with
  | ("Catch", some type) => return .catch (← type.1.qualifiedName)
  | ("Finally", none) => return .finally
  | _ => malformed

def Region.ofJson (json : Json) : Decode Region := do
  return {
    kind := ← json.field "kind" HandlerKind.ofJson
    tryStart := ← json.field "try_start" Json.nat64
    tryEnd := ← json.field "try_end" Json.nat64
    handlerStart := ← json.field "handler_start" Json.nat64
    handlerEnd := ← json.field "handler_end" Json.nat64 }

def Assembled.outline (assembled : Assembled) : Outline :=
  .record "Assembled" [
    ("instructions", .list (assembled.code.toList.map Instruction.outline)),
    ("max_stack", .nat assembled.maxStack),
    ("locals", .list (assembled.locals.toList.map LocalSlot.outline)),
    ("sequence_points", .list (assembled.sequencePoints.map SequencePoint.outline)),
    ("call_sites", .list (assembled.callSites.map SiteShape.outline))]

end StackScript
