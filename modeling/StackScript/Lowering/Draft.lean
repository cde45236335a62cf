import StackScript.Code.Assembler
import StackScript.Declaration.Table
import StackScript.Settings.Basic

/-!
# Drafts

The code of a body while it is written. What has been written before an error stays written, so a
draft is a state that outlives the error.

## Main definitions

* `BodyEnv`: what a body is compiled against
* `Draft`, `Emit`: the code so far, and the steps that write code
* `loadVariable`, `storeVariable`: parameters and local variables by name
-/

namespace StackScript

/-- What the code of a body is written against: the whole program, the settings, and what is known
of the body before its code. -/
structure BodyEnv where
  table : Table
  settings : Settings
  /-- The name of the body in messages. -/
  routine : String
  params : List Parameter
  isStatic : Bool
  hasContext : Bool

/-- The code of a body so far, and the number of the next call site of the whole program. -/
structure Draft where
  asm : Assembler
  nextSite : SiteId

namespace Draft

/-- No code; the program's call sites go on at a number. -/
def start (nextSite : SiteId) : Draft := ⟨.empty, nextSite⟩

end Draft

/-- A step that writes code, or stops with a cause. -/
abbrev Emit := ExceptT Cause (StateM Draft)

namespace Emit

/-- Changes the assembler. -/
def onAssembler (f : Assembler → Assembler) : Emit Unit :=
  modify fun draft => { draft with asm := f draft.asm }

/-- Changes the assembler and looks at something on the way. -/
def withAssembler {α : Type} (f : Assembler → α × Assembler) : Emit α :=
  modifyGet fun draft =>
    let (a, asm) := f draft.asm
    (a, { draft with asm })

/-- Hands out a slot. -/
def withSlots (f : Slots → LocalId × Slots) : Emit LocalId :=
  withAssembler fun asm =>
    let (id, slots) := f asm.slots
    (id, { asm with slots })

def emit (instruction : Instruction) : Emit Unit := onAssembler (·.emit instruction)

def defineLabel : Emit Label := withAssembler (·.defineLabel)

/-- Puts a label in front of the next instruction. -/
def mark (l : Label) : Emit Unit := onAssembler (·.mark l)

/-- Writes a branch to a label. -/
def branch (kind : BranchKind) (l : Label) : Emit Unit := onAssembler (·.branch kind l)

def scratch : Emit LocalId := withSlots (·.scratch)

def release (id : LocalId) : Emit Unit :=
  onAssembler fun asm => { asm with slots := asm.slots.release id }

/-- The number of a new call site. -/
def nextSite : Emit SiteId :=
  modifyGet fun draft => (draft.nextSite, { draft with nextSite := draft.nextSite + 1 })

/-- Stops because a rule is broken. -/
def violate {α : Type} (violation : Violation) : Emit α := throw (.invariant violation)

/-- Stops because arguments do not fit. -/
def reject {α : Type} (defect : SignatureDefect) : Emit α := throw (.signature defect)

end Emit

open Emit

def loadContext (env : BodyEnv) : Emit Unit :=
  if env.hasContext then emit .loadContext else violate .noContext

def loadThis (env : BodyEnv) : Emit Unit :=
  if env.isStatic then violate .thisInStaticBody else emit .loadThis

/-- The instruction that pushes a constant. -/
def Literal.instruction : Literal → Instruction
  | .null => .loadNull
  | .bool b => .loadBool b
  | .long n => .loadLong n
  | .double d => .loadDouble d
  | .string s => .loadString s

def loadLiteral (literal : Literal) : Emit Unit := emit literal.instruction

/-- The argument slots that instructions can address. -/
def argumentLimit : Nat := 65536

/-- The argument slot of a parameter by its place; slot 0 is the context. -/
def argumentSlot (index : Nat) : Emit Nat :=
  if index + 1 < argumentLimit then pure (index + 1)
  else throw (.capacity .argument (index + 2) argumentLimit)

/-- What a name stands for in a body. -/
inductive NameMeaning where
  | context
  | parameter (index : Nat)
  | local

/-- The first parameter of the name, else a local variable. -/
def BodyEnv.meaning (env : BodyEnv) (name : String) : NameMeaning :=
  match env.params.findIdx? (·.name == name) with
  | none => .local
  | some index =>
    match env.params[index]? with
    | some param => if param.isContext then .context else .parameter index
    | none => .local

def loadVariable (env : BodyEnv) (name : String) : Emit Unit :=
  match env.meaning name with
  | .context => loadContext env
  | .parameter index => do emit (.loadArg (← argumentSlot index))
  | .local => do emit (.loadLocal (← withSlots (·.named name)))

/-- Pops a value into a variable. The context cannot be replaced. -/
def storeVariable (env : BodyEnv) (name : String) : Emit Unit :=
  match env.meaning name with
  | .context => violate (.contextAssigned name)
  | .parameter index => do emit (.storeArg (← argumentSlot index))
  | .local => do emit (.storeLocal (← withSlots (·.named name)))

end StackScript
