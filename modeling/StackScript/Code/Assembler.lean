import StackScript.Code.Body
import StackScript.Code.Fault

/-!
# The assembler

Code is written in order, with branches to labels that get their offsets later. The assembler
follows the depth of the evaluation stack: a branch fixes the depth at its label, and behind a
transfer of control the depth is that of the next label. What is wrong is remembered, the first
fault only, and reported when the code is finished.

## Main definitions

* `Assembler`: the code written so far
* `Assembler.emit`, `Assembler.branch`, `Assembler.mark`, `Assembler.elide`: writing
* `Assembler.finish`: the code with its branches resolved
-/

namespace StackScript

/-- What is known of a label: where it is and how deep the stack is there. -/
structure LabelState where
  offset : Option Nat
  depth : Option Nat
  deriving Repr, DecidableEq

/-- A branch by its condition. -/
inductive BranchKind where
  | always
  | ifTrue
  | ifFalse
  /-- Out of protected code. -/
  | leave
  deriving Repr, DecidableEq

namespace BranchKind

/-- The jump of the kind to an offset. -/
def instruction : BranchKind → Nat → Instruction
  | .always => .jump
  | .ifTrue => .jumpIfTrue
  | .ifFalse => .jumpIfFalse
  | .leave => .leave

/-- The conditional branch taken exactly when the given one is not. -/
def negate : BranchKind → BranchKind
  | .ifTrue => .ifFalse
  | .ifFalse => .ifTrue
  | kind => kind

end BranchKind

/-- Code that is being written. -/
structure Assembler where
  code : Array Instruction
  labels : Array LabelState
  /-- The branches without an offset yet, with their labels, in the order of the code. -/
  fixups : Array (Nat × Label)
  depth : Nat
  maxStack : Nat
  /-- Control can reach the end of the code. -/
  reachable : Bool
  /-- Instructions before this offset are never taken back. -/
  pinned : Nat
  slots : Slots
  sequencePoints : Array SequencePoint
  callSites : Array SiteShape
  fault : Option Violation

/-- Finished code: every branch has its target. -/
structure Assembled where
  code : Array Instruction
  maxStack : Nat
  locals : Array LocalSlot
  sequencePoints : List SequencePoint
  callSites : List SiteShape

namespace Assembler

def empty : Assembler where
  code := #[]
  labels := #[]
  fixups := #[]
  depth := 0
  maxStack := 0
  reachable := true
  pinned := 0
  slots := .empty
  sequencePoints := #[]
  callSites := #[]
  fault := none

def offset (asm : Assembler) : Nat := asm.code.size

/-- Keeps all code written so far, because its offset is known outside. -/
def pin (asm : Assembler) : Assembler := { asm with pinned := asm.offset }

/-- Remembers a fault, unless there is one already. -/
def fail (asm : Assembler) (violation : Violation) : Assembler :=
  match asm.fault with
  | some _ => asm
  | none => { asm with fault := some violation }

/-- The depth of the stack behind an instruction. -/
def adjust (asm : Assembler) (instruction : Instruction) : Assembler :=
  let pops := instruction.pops
  let asm := if asm.depth < pops then asm.fail (.stackUnderflow instruction asm.depth pops) else asm
  let depth := asm.depth - pops + instruction.pushes
  { asm with depth, maxStack := max asm.maxStack depth }

def emit (asm : Assembler) (instruction : Instruction) : Assembler :=
  let asm := asm.adjust instruction
  { asm with
    code := asm.code.push instruction
    reachable := asm.reachable && !instruction.isTransfer
    callSites := match instruction with
      | .callSite shape => asm.callSites.push shape
      | _ => asm.callSites }

def defineLabel (asm : Assembler) : Label × Assembler :=
  (asm.labels.size, { asm with labels := asm.labels.push ⟨none, none⟩ })

/-- What is known of a label. -/
def label (asm : Assembler) (l : Label) : LabelState := asm.labels[l]?.getD ⟨none, none⟩

/-- The label has its place. -/
def isMarked (asm : Assembler) (l : Label) : Bool := (asm.label l).offset.isSome

/-- Changes what is known of a label. -/
def setLabel (asm : Assembler) (l : Label) (state : LabelState) : Assembler :=
  { asm with labels := asm.labels.setIfInBounds l state }

/-- Puts a label in front of the next instruction. Where control reaches the label from above, the
depth has to be the one that branches to it have; elsewhere it becomes that depth. -/
def mark (asm : Assembler) (l : Label) : Assembler :=
  let asm := asm.pin
  let state := asm.label l
  if state.offset.isSome then asm.fail (.labelMarkedTwice l)
  else
    let place (depth : Option Nat) : LabelState := ⟨some asm.offset, depth⟩
    match asm.reachable, state.depth with
    | true, some expected =>
      let asm := asm.setLabel l (place (some expected))
      if expected = asm.depth then asm else asm.fail (.depthIntoLabel asm.depth expected)
    | true, none => asm.setLabel l (place (some asm.depth))
    | false, some expected =>
      { asm.setLabel l (place (some expected)) with depth := expected, reachable := true }
    | false, none =>
      -- Nothing is known of the depth here: no branch above goes to the label.
      { asm.setLabel l (place (some 0)) with depth := 0, reachable := true }

/-- Writes a branch to a label. All branches to a label are made at one depth. -/
def branch (asm : Assembler) (kind : BranchKind) (l : Label) : Assembler :=
  -- The target is filled in when the code is finished.
  let instruction := kind.instruction 0
  let index := asm.offset
  let asm := asm.emit instruction
  let asm := { asm with fixups := asm.fixups.push (index, l) }
  let state := asm.label l
  match state.depth with
  | some expected =>
    if expected = asm.depth then asm
    else asm.fail (.depthAtBranch asm.depth expected instruction.pops)
  | none => asm.setLabel l { state with depth := some asm.depth }

/-- The last instruction is a jump to the label that may be taken back, because the label comes
next. -/
def endsInJumpTo (asm : Assembler) (l : Label) : Bool :=
  match asm.code.back?, asm.fixups.back? with
  | some (.jump _), some (index, target) =>
    asm.pinned < asm.code.size && index + 1 == asm.code.size && target == l
  | _, _ => false

/-- Takes back a jump to a label that comes next; control falls into the label instead. -/
def elide (asm : Assembler) (l : Label) : Assembler :=
  if asm.endsInJumpTo l then
    { asm with code := asm.code.pop, fixups := asm.fixups.pop, reachable := true }
  else asm

/-- The start of a handler, with as many values on the stack as the machine pushes. -/
def beginHandler (asm : Assembler) (depth : Nat) : Assembler :=
  { asm with depth, maxStack := max asm.maxStack depth, reachable := true }

/-- The next instruction is the first one of a statement. -/
def sequencePoint (asm : Assembler) (span : Span) : Assembler :=
  { asm.pin with sequencePoints := asm.sequencePoints.push ⟨asm.offset, span⟩ }

/-- Gives each branch the offset of its label. -/
def resolve (labels : Label → LabelState) (code : Array Instruction) :
    List (Nat × Label) → Except Violation (Array Instruction)
  | [] => .ok code
  | (index, l) :: rest =>
    match (labels l).offset with
    | some target => resolve labels (code.modify index (·.withTarget target)) rest
    | none => .error (.labelNeverMarked index)

/-- The finished code, unless something was wrong in writing it, a label has no place, or there
are too many local slots. -/
def finish (asm : Assembler) (maxLocals : Nat) : Except Cause Assembled :=
  match asm.fault with
  | some violation => .error (.invariant violation)
  | none =>
    match resolve asm.label asm.code asm.fixups.toList with
    | .error violation => .error (.invariant violation)
    | .ok code =>
      if maxLocals < asm.slots.size then .error (.capacity .local asm.slots.size maxLocals)
      else .ok {
        code
        maxStack := asm.maxStack
        locals := asm.slots.slots
        sequencePoints := asm.sequencePoints.toList
        callSites := asm.callSites.toList }

end Assembler

end StackScript
