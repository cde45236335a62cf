import StackScript.Machine.Frame

/-!
# Steps of a frame

The frame of a body goes on by itself, returns, fails, or asks for something and waits for the
answer. A thrown value goes to the first region in the body's table that protects the instruction
and takes the value; every other error leaves the frame.

## Main definitions

* `BinaryOp.apply`, `UnaryOp.apply`: the operators of the language
* `Value.ofEntries`: an array literal; entries without a key are numbered
* `Frame.execute`: the effect of an instruction
* `Step`: what a frame does next
* `Body.step`, `Body.resume`: the next step, by itself and on an answer
* `Body.raise`: the handling of an error
-/

namespace StackScript

/-- A value as an operand of arithmetic: its number, or zero. -/
def Value.operand (v : Value) : Float := v.number?.getD 0.0

namespace BinaryOp

/-- Arithmetic: on integers modulo the word size, on other operands in floating point. -/
def arithmetic (onLongs : Int64 → Int64 → Int64) (onDoubles : Float → Float → Float) :
    Value → Value → Value
  | .long a, .long b => .long (onLongs a b)
  | a, b => .double (onDoubles a.operand b.operand)

/-- The result of an operator. Both operands have been evaluated. -/
def apply (op : BinaryOp) (left right : Value) : Value :=
  match op with
  | .add => arithmetic (· + ·) (· + ·) left right
  | .sub => arithmetic (· - ·) (· - ·) left right
  | .mul => arithmetic (· * ·) (· * ·) left right
  | .concat => .string (left.text ++ right.text)
  | .eq => .bool (left.looselyEqual right)
  | .notEq => .bool (!left.looselyEqual right)
  | .lt => .bool (left.operand < right.operand)
  | .gt => .bool (left.operand > right.operand)
  | .identical => .bool (left.identical right)
  | .and => .bool (left.truthy && right.truthy)
  | .or => .bool (left.truthy || right.truthy)

end BinaryOp

/-- The result of an operator of one operand. -/
def UnaryOp.apply : UnaryOp → Value → Value
  | .not, operand => .bool (!operand.truthy)
  | .neg, operand => BinaryOp.sub.apply (.long 0) operand

namespace Value

/-- The entries of an array literal. A null key stands for the next number: one more than the
largest integer key so far. -/
def numberKeys (next : Int64) : List (Value × Value) → List (Value × Value)
  | [] => []
  | (.null, value) :: rest => (.long next, value) :: numberKeys (max next (next + 1)) rest
  | (.long n, value) :: rest => (.long n, value) :: numberKeys (max next (n + 1)) rest
  | (key, value) :: rest => (key, value) :: numberKeys next rest

/-- Keys and values in turn, as entries. -/
def pairs : List Value → List (Value × Value)
  | key :: value :: rest => (key, value) :: pairs rest
  | _ => []

/-- The array of a literal's entries. -/
def ofEntries (entries : List (Value × Value)) : Value := .array (numberKeys 0 entries)

end Value

/-- The effect of an instruction. -/
inductive Effect where
  /-- Goes on with the next instruction. -/
  | next (frame : Frame)
  | jump (target : Nat) (frame : Frame)
  /-- Goes on with the next instruction when the answer is there. -/
  | ask (request : Request) (frame : Frame)
  | leave (target : Nat)
  | endFinally
  | return (value : Value)

/-- A value is an object whose type or one of its bases has that name. -/
def Value.isInstanceOf (value : Value) (type : QualifiedName) : Bool :=
  match value.object? with
  | some ref => ref.type.isSubtypeOf type.text
  | none => false

/-- A value is an object of exactly the type of that name. -/
def Value.isExactly (value : Value) (type : QualifiedName) : Bool :=
  match value.object? with
  | some ref => type.spelledBy ref.type.name
  | none => false

namespace Frame

/-- The effect of an instruction on a frame. -/
def execute (frame : Frame) : Instruction → Except DispatchError Effect
  | .nop => return .next frame
  | .loadNull => return .next (frame.pushValue .null)
  | .loadBool b => return .next (frame.pushValue (.bool b))
  | .loadLong n => return .next (frame.pushValue (.long n))
  | .loadDouble d => return .next (frame.pushValue (.double d))
  | .loadString s => return .next (frame.pushValue (.string s))
  | .loadContext => return .next (frame.push .context)
  | .loadThis =>
    match frame.receiver with
    | some receiver => return .next (frame.pushValue receiver)
    | none => .error (.failed .noReceiver)
  | .loadArg slot => return .next (frame.push (frame.arg slot))
  | .storeArg slot => do
    let (value, frame) ← frame.pop
    return .next (frame.setArg slot value)
  | .loadLocal slot => do
    return .next (frame.push (← frame.getLocal slot))
  | .storeLocal slot => do
    let (value, frame) ← frame.pop
    return .next (← frame.setLocal slot value)
  | .dup =>
    match frame.stack with
    | top :: _ => return .next (frame.push top)
    | [] => .error (.ofFault .dupOnEmptyStack)
  | .pop => do
    let (_, frame) ← frame.pop
    return .next frame
  | .binary op => do
    let (right, frame) ← frame.popValue
    let (left, frame) ← frame.popValue
    return .next (frame.pushValue (op.apply left right))
  | .unary op => do
    let (operand, frame) ← frame.popValue
    return .next (frame.pushValue (op.apply operand))
  | .newArray size true => do
    let (items, frame) ← frame.popValues (size * 2)
    return .next (frame.pushValue (.ofEntries (Value.pairs items)))
  | .newArray size false => do
    let (items, frame) ← frame.popValues size
    return .next (frame.pushValue (.ofEntries (items.map fun value => (.null, value))))
  | .isInstance type => do
    let (value, frame) ← frame.popValue
    return .next (frame.pushValue (.bool (value.isInstanceOf type)))
  | .isExactType type => do
    let (value, frame) ← frame.popValue
    return .next (frame.pushValue (.bool (value.isExactly type)))
  | .loadField field => do
    let (receiver, frame) ← frame.popValue
    match receiver.object? with
    | some object => return .ask (.loadField object field) frame
    | none => .error (.failed (.fieldRead field receiver.kind))
  | .storeField field => do
    let (value, frame) ← frame.popValue
    let (receiver, frame) ← frame.popValue
    match receiver.object? with
    | some object => return .ask (.storeField object field value) frame
    | none => .error (.failed (.fieldWrite field receiver.kind))
  | .loadShared type field => return .ask (.loadShared type field) frame
  | .storeShared type field => do
    let (value, frame) ← frame.popValue
    return .ask (.storeShared type field value) frame
  | .loadBound type field => do
    let (_, frame) ← frame.pop
    return .ask (.loadBound type field) frame
  | .storeBound type field => do
    let (value, frame) ← frame.popValue
    let (_, frame) ← frame.pop
    return .ask (.storeBound type field value) frame
  | .call body argc false => do
    let (args, frame) ← frame.popMany (argc + 1)
    return .ask (.call body none (args.map Slot.toArg)) frame
  | .call body argc true => do
    let (args, frame) ← frame.popMany (argc + 1)
    let (receiver, frame) ← frame.popValue
    return .ask (.call body (some receiver) (args.map Slot.toArg)) frame
  | .callGlobal name argc => do
    let (args, frame) ← frame.popValues argc
    let (_, frame) ← frame.pop
    return .ask (.callGlobal name args) frame
  | .callSite shape => do
    let (args, frame) ← frame.popValues shape.pushedCount
    let (_, frame) ← frame.pop
    let (receiver, frame) ← frame.popValue
    return .ask (.callSite shape receiver args) frame
  | .newObject type argc => do
    let (args, frame) ← frame.popMany (argc + 1)
    return .ask (.create type (args.map Slot.toArg)) frame
  | .echo => do
    let (value, frame) ← frame.popValue
    let (_, frame) ← frame.pop
    return .ask (.echo value.text) frame
  | .getEnumerator => do
    let (value, frame) ← frame.popValue
    match value.entries? with
    | some entries =>
      let opened := { frame with cursors := frame.cursors.push (.start entries) }
      return .next (opened.push (.enumerator frame.cursors.size))
    | none => .error (.failed (.notIterable value.kind))
  | .advance => do
    let (id, cursor, frame) ← frame.popCursor
    let moved := cursor.advance
    let frame := { frame with cursors := frame.cursors.setIfInBounds id moved }
    return .next (frame.pushValue (.bool moved.current.isSome))
  | .enumeratorKey => do
    let (_, cursor, frame) ← frame.popCursor
    match cursor.current with
    | some (key, _) => return .next (frame.pushValue key)
    | none => .error (.failed .noCurrentEntry)
  | .enumeratorValue => do
    let (_, cursor, frame) ← frame.popCursor
    match cursor.current with
    | some (_, value) => return .next (frame.pushValue value)
    | none => .error (.failed .noCurrentEntry)
  | .jump target => return .jump target frame
  | .jumpIfTrue target => do
    let (condition, frame) ← frame.popValue
    return if condition.truthy then .jump target frame else .next frame
  | .jumpIfFalse target => do
    let (condition, frame) ← frame.popValue
    return if condition.truthy then .next frame else .jump target frame
  | .leave target => return .leave target
  | .endFinally => return .endFinally
  | .throw => do
    let (value, _) ← frame.popValue
    .error (.thrown value)
  | .return => do
    let (value, _) ← frame.popValue
    return .return value
  | .assertNotNull =>
    match frame.stack with
    | .value .null :: _ => .error (.failed .nullAsserted)
    | [] => .error (.failed .nullAsserted)
    | _ => return .next frame

end Frame

/-- What a frame does next. -/
inductive Step where
  | running (frame : Frame)
  /-- Waits for the answer to a request. -/
  | asking (request : Request) (frame : Frame)
  | returned (value : Value)
  | failed (error : DispatchError)

/-- A region takes a thrown value: a `finally` handler any, a `catch` handler of `Exception` any,
and another `catch` handler the objects of its type. -/
def Region.takes (region : Region) (value : Value) : Bool :=
  match region.kind with
  | .finally => true
  | .catch type => type.spelledBy "Exception" || value.isInstanceOf type

namespace Body

/-- The start of a region's handler for a thrown value. -/
def enterHandler (frame : Frame) (region : Region) (value : Value) : Frame :=
  match region.kind with
  | .catch _ => { frame with pc := region.handlerStart, stack := [.value value] }
  | .finally =>
    { frame with
      pc := region.handlerStart
      stack := []
      pending := .rethrow value :: frame.pending }

/-- What becomes of an error at the frame's instruction. -/
def raise (body : Body) (frame : Frame) (error : DispatchError) : Step :=
  match error with
  | .thrown value =>
    -- Regions are listed from the inside out, so the first one found is the innermost.
    match body.regions.find? fun region => region.protects frame.pc && region.takes value with
    | some region => .running (enterHandler frame region value)
    | none => .failed error
  | _ => .failed error

/-- The `finally` handlers between an instruction and the target of a jump out of regions, the
inner ones first. -/
def crossed (body : Body) (pc target : Nat) : List Nat :=
  (body.regions.filter fun region =>
    region.isFinally && region.protects pc && !region.protects target).map (·.handlerStart)

/-- Goes to the next handler on the way to a target, or to the target. -/
def complete (frame : Frame) (target : Nat) : List Nat → Frame
  | [] => { frame with pc := target }
  | handler :: rest => { frame with pc := handler, pending := .leave target rest :: frame.pending }

/-- The next step of a frame. -/
def step (body : Body) (frame : Frame) : Step :=
  match body.code[frame.pc]? with
  | none => body.raise frame (.ofFault (.ranPastEnd body.name.text))
  | some instruction =>
    match frame.execute instruction with
    | .error error => body.raise frame error
    | .ok (.next frame) => .running { frame with pc := frame.pc + 1 }
    | .ok (.jump target frame) => .running { frame with pc := target }
    | .ok (.ask request frame) => .asking request frame
    | .ok (.leave target) =>
      .running (complete { frame with stack := [] } target (body.crossed frame.pc target))
    | .ok .endFinally =>
      -- The completion that waits longest for its handler is at the end of the list.
      match frame.pending with
      | .leave target remaining :: pending =>
        .running (complete { frame with pending } target remaining)
      | .rethrow value :: pending => body.raise { frame with pending } (.thrown value)
      | [] => .failed (.ofFault .strayEndFinally)
    | .ok (.return value) => .returned value

/-- The next step of a frame on the answer to its request. -/
def resume (body : Body) (request : Request) (frame : Frame)
    (answer : Except DispatchError Value) : Step :=
  match answer with
  | .error error => body.raise frame error
  | .ok value =>
    let frame := { frame with pc := frame.pc + 1 }
    .running (if request.yields then frame.pushValue value else frame)

end Body

end StackScript
