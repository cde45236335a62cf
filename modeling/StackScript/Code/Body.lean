import StackScript.Code.Instruction
import StackScript.Source

/-!
# Compiled bodies

A body keeps its variables, scratch values, enumerators and result in numbered slots. A variable
has one slot for the whole body; a scratch slot that has been given back is used again, the one
given back last first.

## Main definitions

* `LocalSlot`, `Slots`: the slots handed out so far
* `Slots.named`, `Slots.scratch`, `Slots.enumerator`, `Slots.result`: handing out
* `Slots.release`: giving a scratch slot back
* `Region`: a stretch of code and the handler that protects it
* `Body`: the code of one routine or synthesized member, with its tables
-/

namespace StackScript

/-! ## Local slots -/

/-- What a slot is for. -/
inductive SlotRole where
  | variable
  | scratch
  | enumerator
  | result
  deriving Repr, DecidableEq

/-- A slot: its name and what it is for. -/
structure LocalSlot where
  name : String
  role : SlotRole
  deriving Repr, DecidableEq

/-- The slots handed out so far, and the scratch slots that are free, last given back first. -/
structure Slots where
  slots : Array LocalSlot
  free : List Nat
  deriving Repr

namespace Slots

def empty : Slots := ⟨#[], []⟩

def size (s : Slots) : Nat := s.slots.size

/-- A new slot. Finished code has less than 2 ^ 16 of them, so their numbers are never cut off. -/
def push (s : Slots) (name : String) (role : SlotRole) : Nat × Slots :=
  (s.size, { s with slots := s.slots.push ⟨name, role⟩ })

/-- The slot of a source variable, new on first use. -/
def named (s : Slots) (name : String) : Nat × Slots :=
  match s.slots.findIdx? fun slot => slot.role == .variable && slot.name == name with
  | some id => (id, s)
  | none => s.push name .variable

/-- A free scratch slot, or a new one. -/
def scratch (s : Slots) : Nat × Slots :=
  match s.free with
  | id :: rest => (id, { s with free := rest })
  | [] => s.push ("<tmp" ++ toString s.size ++ ">") .scratch

/-- A new enumerator slot. A loop may come back to its slot, so it is never given back. -/
def enumerator (s : Slots) : Nat × Slots :=
  s.push ("<enumerator" ++ toString s.size ++ ">") .enumerator

/-- The slot of the body's result, if there is one. -/
def result? (s : Slots) : Option Nat := s.slots.findIdx? fun slot => slot.role == .result

/-- The slot of the body's result, new on first use. -/
def result (s : Slots) : Nat × Slots :=
  match s.result? with
  | some id => (id, s)
  | none => s.push "<ret>" .result

/-- Gives a scratch slot back. Slots of other roles stay, and a slot is given back only once. -/
def release (s : Slots) (id : Nat) : Slots :=
  match s.slots[id]? with
  | some slot =>
    if slot.role = .scratch ∧ id ∉ s.free then { s with free := id :: s.free } else s
  | none => s

end Slots

/-! ## Bodies -/

/-- What a handler does. -/
inductive HandlerKind where
  /-- Handles thrown objects of a type. -/
  | catch (type : QualifiedName)
  /-- Runs whenever control leaves the protected code. -/
  | finally

/-- A stretch of protected code and its handler, as offsets. The ends are excluded. -/
structure Region where
  kind : HandlerKind
  tryStart : Nat
  tryEnd : Nat
  handlerStart : Nat
  handlerEnd : Nat

namespace Region

/-- The instruction at the offset is protected. -/
def protects (region : Region) (offset : Nat) : Bool :=
  region.tryStart ≤ offset && offset < region.tryEnd

/-- The instruction at the offset belongs to the handler. -/
def inHandler (region : Region) (offset : Nat) : Bool :=
  region.handlerStart ≤ offset && offset < region.handlerEnd

/-- The region's handler is a `finally` handler. -/
def isFinally (region : Region) : Bool :=
  match region.kind with
  | .finally => true
  | .catch _ => false

end Region

/-- The offset where the code of a statement starts. -/
structure SequencePoint where
  offset : Nat
  span : Span
  deriving Repr, DecidableEq

/-- What a body is compiled from. -/
inductive BodyKind where
  | routine
  | constructor
  | typeInitializer
  | staticsInitializer
  | invokeTrampoline
  deriving Repr, DecidableEq

/-- A compiled body. -/
structure Body where
  name : BodyName
  kind : BodyKind
  params : List Parameter
  hasContext : Bool
  isStatic : Bool
  /-- The path of the file that declares the body. -/
  sourceFile : String
  code : Array Instruction
  /-- The blocks in the order of their code, with the offsets where they start. -/
  blockOffsets : List (BlockId × Nat)
  /-- The protected stretches, the inner ones first. -/
  regions : List Region
  maxStack : Nat
  locals : Array LocalSlot
  sequencePoints : List SequencePoint
  callSites : List SiteShape

namespace Body

/-- The offset where a block starts. -/
def blockOffset? (body : Body) (b : BlockId) : Option Nat :=
  (body.blockOffsets.find? fun (c, _) => c == b).map (·.2)

end Body

/-! ## Outlines -/

def Literal.outline : Literal → Outline
  | .null => .word "Null"
  | .bool b => .tagged "Bool" (.bool b)
  | .long n => .tagged "Long" (.int n.toInt)
  | .double d => .tagged "Double" (.double d)
  | .string s => .tagged "String" (.text s)

def TypeHint.outline : TypeHint → Outline
  | .object type => .tagged "Object" (.text type.text)
  | hint => .word hint.representation.describe

def Parameter.outline (parameter : Parameter) : Outline :=
  .record "ParamSig" [
    ("name", .text parameter.name),
    ("ty", match parameter.type with
      | .context => .word "Context"
      | .value hint => .tagged "Value" hint.outline),
    ("default", .ofOption Literal.outline parameter.default)]

def Span.outline (span : Span) : Outline :=
  .record "Span" [
    ("start_line", .nat span.startLine), ("start_col", .nat span.startColumn),
    ("end_line", .nat span.endLine), ("end_col", .nat span.endColumn)]

def Region.outline (region : Region) : Outline :=
  .record "ExceptionRegion" [
    ("kind", match region.kind with
      | .catch type => .tagged "Catch" (.text type.text)
      | .finally => .word "Finally"),
    ("try_start", .nat region.tryStart),
    ("try_end", .nat region.tryEnd),
    ("handler_start", .nat region.handlerStart),
    ("handler_end", .nat region.handlerEnd)]

def SlotRole.word : SlotRole → String
  | .variable => "variable"
  | .scratch => "temp"
  | .enumerator => "enumerator"
  | .result => "return_value"

def LocalSlot.outline (slot : LocalSlot) : Outline :=
  .record "LocalInfo" [("name", .text slot.name), ("kind", .word slot.role.word)]

def SequencePoint.outline (point : SequencePoint) : Outline :=
  .record "SequencePoint" [("offset", .nat point.offset), ("span", point.span.outline)]

def BodyKind.word : BodyKind → String
  | .routine => "routine"
  | .constructor => "constructor"
  | .typeInitializer => "type_initializer"
  | .staticsInitializer => "statics_initializer"
  | .invokeTrampoline => "invoke_trampoline"

def Body.outline (body : Body) : Outline :=
  .record "MethodBody" [
    ("name", body.name.outline),
    ("kind", .word body.kind.word),
    ("params", .list (body.params.map Parameter.outline)),
    ("has_context", .bool body.hasContext),
    ("is_static", .bool body.isStatic),
    ("source_file", .text body.sourceFile),
    ("instructions", .list (body.code.toList.map Instruction.outline)),
    ("block_offsets",
      .list (body.blockOffsets.map fun (b, offset) => .list [.nat b, .nat offset])),
    ("regions", .list (body.regions.map Region.outline)),
    ("max_stack", .nat body.maxStack),
    ("locals", .list (body.locals.toList.map LocalSlot.outline)),
    ("sequence_points", .list (body.sequencePoints.map SequencePoint.outline)),
    ("call_sites", .list (body.callSites.map SiteShape.outline))]

end StackScript
