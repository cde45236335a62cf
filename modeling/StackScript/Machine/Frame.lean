import StackScript.Code.Body
import StackScript.Dispatch.Error

/-!
# Frames

A frame is one activation of a body: where it is, what it works on, and which completions wait for
the end of a `finally` handler. What lies outside the frame, it can only ask for.

## Main definitions

* `Slot`: what the stack, the arguments and the locals of a frame hold
* `Completion`: what happens at the end of a `finally` handler
* `Frame`, `Frame.enter`: an activation, and its start
* `Request`: what a frame asks for
-/

namespace StackScript

/-- An argument that a frame is entered with. -/
inductive FrameArg where
  | value (v : Value)
  | context

/-- What a place in a frame holds. -/
inductive Slot where
  | value (v : Value)
  /-- The context of the frame. -/
  | context
  /-- An enumerator of the frame. -/
  | enumerator (cursor : Nat)

namespace Slot

/-- A place to which nothing was stored. -/
def unset : Slot := .value .null

/-- The string as which a context is stored in an array or an object. -/
def contextMark : String := "<context>"

/-- What a place holds, as a value. -/
def toValue : Slot → Value
  | .value v => v
  | .context => .string contextMark
  | .enumerator _ => .null

/-- What a place holds, as an argument. -/
def toArg : Slot → FrameArg
  | .context => .context
  | slot => .value slot.toValue

/-- The place of an argument. -/
def ofArg : FrameArg → Slot
  | .value v => .value v
  | .context => .context

end Slot

/-- An enumerator: the entry that it stands on, and those that are to come. -/
structure Cursor where
  current : Option (Value × Value)
  rest : List (Value × Value)

namespace Cursor

def start (entries : List (Value × Value)) : Cursor := ⟨none, entries⟩

/-- The enumerator on the next entry. -/
def advance (cursor : Cursor) : Cursor := ⟨cursor.rest.head?, cursor.rest.tail⟩

end Cursor

/-- What happens at the end of a `finally` handler. -/
inductive Completion where
  /-- The handlers that remain run, the inner ones first; then control is at the target. -/
  | leave (target : Nat) (remaining : List Nat)
  /-- The value is thrown again. -/
  | rethrow (value : Value)

/-- An activation of a body. -/
structure Frame where
  pc : Nat
  receiver : Option Value
  /-- The context, if the body has one, and the parameters. -/
  args : Array Slot
  locals : Array Slot
  cursors : Array Cursor
  /-- The evaluation stack, the top first. -/
  stack : List Slot
  /-- The completions of the `finally` handlers that are running, the latest first. -/
  pending : List Completion

namespace Frame

def enter (body : Body) (receiver : Option Value) (args : List FrameArg) : Frame where
  pc := 0
  receiver := receiver
  args := (args.map Slot.ofArg).toArray
  locals := body.locals.map fun _ => Slot.unset
  cursors := #[]
  stack := []
  pending := []

/-- The frame with one more place on its stack. -/
def push (frame : Frame) (slot : Slot) : Frame := { frame with stack := slot :: frame.stack }

/-- The frame with a value on its stack. -/
def pushValue (frame : Frame) (value : Value) : Frame := frame.push (.value value)

/-- The top of the stack, and the frame without it. -/
def pop (frame : Frame) : Except DispatchError (Slot × Frame) :=
  match frame.stack with
  | top :: rest => .ok (top, { frame with stack := rest })
  | [] => .error (.ofFault .stackUnderflow)

/-- The top of the stack as a value. -/
def popValue (frame : Frame) : Except DispatchError (Value × Frame) := do
  let (slot, frame) ← frame.pop
  return (slot.toValue, frame)

/-- As many places as given, in the order in which they were pushed. -/
def popMany (frame : Frame) (count : Nat) : Except DispatchError (List Slot × Frame) :=
  if frame.stack.length < count then .error (.ofFault .stackUnderflow)
  else .ok ((frame.stack.take count).reverse, { frame with stack := frame.stack.drop count })

/-- As many values as given, in the order in which they were pushed. -/
def popValues (frame : Frame) (count : Nat) : Except DispatchError (List Value × Frame) := do
  let (slots, frame) ← frame.popMany count
  return (slots.map Slot.toValue, frame)

/-- The number of the enumerator on top of the stack, and the enumerator. -/
def popCursor (frame : Frame) : Except DispatchError (Nat × Cursor × Frame) := do
  let (slot, frame) ← frame.pop
  match slot with
  | .enumerator id =>
    match frame.cursors[id]? with
    | some cursor => return (id, cursor, frame)
    | none => .error (.ofFault .notAnEnumerator)
  | _ => .error (.ofFault .notAnEnumerator)

/-- The argument of a number; a missing one is null. -/
def arg (frame : Frame) (slot : Nat) : Slot := frame.args[slot]?.getD .unset

/-- The frame with another argument of a number; missing ones in front of it become null. -/
def setArg (frame : Frame) (slot : Nat) (value : Slot) : Frame :=
  let padding := Array.replicate (slot + 1 - frame.args.size) Slot.unset
  { frame with args := (frame.args ++ padding).setIfInBounds slot value }

/-- The local slot of a number. -/
def getLocal (frame : Frame) (slot : LocalId) : Except DispatchError Slot :=
  match frame.locals[slot]? with
  | some value => .ok value
  | none => .error (.ofFault (.noSuchLocal slot))

/-- The frame with another value in a local slot. -/
def setLocal (frame : Frame) (slot : LocalId) (value : Slot) : Except DispatchError Frame :=
  if slot < frame.locals.size then
    .ok { frame with locals := frame.locals.setIfInBounds slot value }
  else .error (.ofFault (.noSuchLocal slot))

end Frame

/-- What a frame asks for. -/
inductive Request where
  | echo (text : String)
  | loadField (object : ObjectRef) (field : String)
  | storeField (object : ObjectRef) (field : String) (value : Value)
  /-- A static field that all contexts share. -/
  | loadShared (type : QualifiedName) (field : String)
  | storeShared (type : QualifiedName) (field : String) (value : Value)
  /-- A static field of the frame's context. -/
  | loadBound (type : QualifiedName) (field : String)
  | storeBound (type : QualifiedName) (field : String) (value : Value)
  | call (body : BodyName) (receiver : Option Value) (args : List FrameArg)
  /-- A call of a function that was declared at run time. -/
  | callGlobal (name : QualifiedName) (args : List Value)
  | callSite (shape : SiteShape) (receiver : Value) (args : List Value)
  | create (type : QualifiedName) (args : List FrameArg)

namespace Request

/-- The answer is pushed on the frame's stack. -/
def yields : Request → Bool
  | .echo _ | .storeField .. | .storeShared .. | .storeBound .. => false
  | _ => true

end Request

end StackScript
