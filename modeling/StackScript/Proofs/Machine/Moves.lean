import Mathlib.Tactic.Common
import StackScript.Machine.Step

/-!
# Moves of a frame

What a frame does next is told by its instruction: it goes on behind the instruction or at its
target, sets out to the target of a `leave`, takes up the completion that waits longest, or starts
the handler of a thrown value. Answers to requests may be any.

A frame asks for what the instruction says that it is at. So what the code of a body does not refer
to, no frame of the body ever asks for.

## Main definitions

* `Effect.Of`: what an instruction can do to a frame
* `Body.Goes`, `Body.Runs`: one move of a frame, and the frames of a run
* `Body.waiting`: the completions that wait behind an instruction
* `Body.Leads`: where the `leave`s that wait go on
* `Body.Move`: the moves by their instructions
* `Request.By`: what an instruction may ask for
* `Step.By`: the next step of a frame asks for what its body refers to

## Main results

* `Body.Goes.move`: every move is one of these
* `Frame.yields_does`: what an instruction does to a frame, and what it asks for
* `Body.step_by`: a frame asks for what the code of its body refers to
-/

namespace StackScript

/-! ## The effect of an instruction -/

/-- The frames are at one instruction, and the same completions wait in them. As many values as
given have been taken from the stack, and others put there. -/
structure Frame.Trades (frame : Frame) (taken : Nat) (put : List Slot) (after : Frame) : Prop where
  pc : after.pc = frame.pc
  pending : after.pending = frame.pending
  stack : after.stack = put ++ frame.stack.drop taken

/-- What an instruction may put on the stack. -/
structure Instruction.Puts (i : Instruction) (put : List Slot) : Prop where
  length : put.length = i.pushes
  context : i = .loadContext → put = [.context]

/-- What an instruction can do to a frame. -/
def Effect.Of (frame : Frame) (i : Instruction) : Effect → Prop
  | .next after => i.isTransfer = false ∧ ∃ put, i.Puts put ∧ frame.Trades i.pops put after
  | .jump target after =>
    i.target? = some target ∧ i ≠ .leave target ∧ frame.Trades i.pops [] after
  | .ask request after =>
    i.isTransfer = false ∧ i ≠ .loadContext ∧ i.pushes = (if request.yields then 1 else 0) ∧
      frame.Trades i.pops [] after
  | .leave target => i = .leave target
  | .endFinally => i = .endFinally
  | .return _ => i = .return

/-- The request is one that the instruction makes. -/
def Request.By (i : Instruction) : Request → Prop
  | .echo _ => i = .echo
  | .loadField _ field => i = .loadField field
  | .storeField _ field _ => i = .storeField field
  | .loadShared type field => i = .loadShared type field
  | .storeShared type field _ => i = .storeShared type field
  | .loadBound type field => i = .loadBound type field
  | .storeBound type field _ => i = .storeBound type field
  | .call name _ _ => ∃ argc onObject, i = .call name argc onObject
  | .callGlobal name _ => ∃ argc, i = .callGlobal name argc
  | .callSite shape _ _ => i = .callSite shape
  | .create type _ => ∃ argc, i = .newObject type argc

/-- What is asked for, if anything, is asked for by the instruction. -/
def Effect.AskedBy (i : Instruction) : Effect → Prop
  | .ask request _ => request.By i
  | _ => True

/-- What an instruction can do to a frame, asking for what it says. -/
def Effect.Does (frame : Frame) (i : Instruction) (effect : Effect) : Prop :=
  Effect.Of frame i effect ∧ effect.AskedBy i

/-- A result, if there is one, has the property. -/
def Yields {α : Type} (P : α → Prop) (x : Except DispatchError α) : Prop := ∀ a, x = .ok a → P a

namespace Yields

variable {α β : Type} {P : α → Prop} {Q : β → Prop} {a : α} {e : DispatchError}

theorem pure (h : P a) : Yields P (.ok a) := by
  intro b hb
  cases hb
  exact h

theorem error : Yields P (.error e) := by
  intro b hb
  cases hb

theorem bind {x : Except DispatchError α} {f : α → Except DispatchError β}
    (h : Yields P x) (h' : ∀ a, P a → Yields Q (f a)) : Yields Q (x >>= f) := by
  intro b hb
  cases x with
  | error => cases hb
  | ok a => exact h' a (h a rfl) b hb

end Yields

namespace Frame

variable {frame f : Frame} {n : Nat} {slot : Slot} {i : Instruction} {count : Nat}

namespace Trades

theorem refl (frame : Frame) : frame.Trades 0 [] frame := ⟨rfl, rfl, rfl⟩

/-- A value is put on the stack. -/
theorem push (h : frame.Trades n [] f) (slot : Slot) : frame.Trades n [slot] (f.push slot) :=
  ⟨h.pc, h.pending, congrArg (slot :: ·) h.stack⟩

/-- The instruction puts nothing on the stack. -/
theorem nothing (h : frame.Trades i.pops [] f) (pushes : i.pushes = 0) :
    ∃ put, i.Puts put ∧ frame.Trades i.pops put f :=
  ⟨[], ⟨pushes.symm, by rintro rfl; cases pushes⟩, h⟩

/-- The instruction puts one value on the stack. -/
theorem one (h : frame.Trades i.pops [] f) (pushes : i.pushes = 1) (slot : Slot)
    (context : i = .loadContext → slot = .context) :
    ∃ put, i.Puts put ∧ frame.Trades i.pops put (f.push slot) :=
  ⟨[slot], ⟨pushes.symm, fun hi => congrArg ([·]) (context hi)⟩, h.push slot⟩

end Trades

theorem yields_pop (h : frame.Trades n [] f) :
    Yields (fun x => frame.Trades (n + 1) [] x.2) f.pop := by
  unfold pop
  split
  case h_1 top rest hstack =>
    refine .pure ⟨h.pc, h.pending, ?_⟩
    have dropped : top :: rest = frame.stack.drop n := hstack.symm.trans h.stack
    show rest = frame.stack.drop (n + 1)
    rw [← List.tail_drop, ← dropped, List.tail_cons]
  case h_2 => exact .error

theorem yields_popValue (h : frame.Trades n [] f) :
    Yields (fun x => frame.Trades (n + 1) [] x.2) f.popValue :=
  (yields_pop h).bind fun _ h => .pure h

theorem yields_popMany : Yields (fun x => frame.Trades count [] x.2) (frame.popMany count) := by
  unfold popMany
  split
  · exact .error
  · exact .pure ⟨rfl, rfl, rfl⟩

theorem yields_popValues : Yields (fun x => frame.Trades count [] x.2) (frame.popValues count) :=
  yields_popMany.bind fun _ h => .pure h

theorem yields_popCursor (h : frame.Trades n [] f) :
    Yields (fun x => frame.Trades (n + 1) [] x.2.2) f.popCursor := by
  refine (yields_pop h).bind fun ⟨slot, g⟩ h => ?_
  cases slot with
  | enumerator id =>
    dsimp only
    split
    · exact .pure h
    · exact .error
  | value => exact .error
  | context => exact .error

/-- The instruction leaves it at that. -/
theorem yields_next (transfer : i.isTransfer = false)
    (h : ∃ put, i.Puts put ∧ frame.Trades i.pops put f) :
    Yields (Effect.Does frame i) (.ok (.next f)) := .pure ⟨⟨transfer, h⟩, trivial⟩

theorem yields_jump {t : Nat} (target : i.target? = some t) (other : i ≠ .leave t)
    (h : frame.Trades i.pops [] f) : Yields (Effect.Does frame i) (.ok (.jump t f)) :=
  .pure ⟨⟨target, other, h⟩, trivial⟩

theorem yields_ask {request : Request} (transfer : i.isTransfer = false) (other : i ≠ .loadContext)
    (pushes : i.pushes = if request.yields then 1 else 0) (own : request.By i)
    (h : frame.Trades i.pops [] f) : Yields (Effect.Does frame i) (.ok (.ask request f)) :=
  .pure ⟨⟨transfer, other, pushes, h⟩, own⟩

/-- **An instruction does** what its kind can do, and asks for what it says. -/
theorem yields_does (frame : Frame) (i : Instruction) :
    Yields (Effect.Does frame i) (frame.execute i) := by
  -- `start` counts what has been taken from the stack so far; each value that is popped adds one.
  have start : frame.Trades 0 [] frame := .refl frame
  cases i with
  | nop => exact yields_next rfl (start.nothing rfl)
  | loadNull | loadBool | loadLong | loadDouble | loadString | loadArg =>
    exact yields_next rfl (start.one rfl _ nofun)
  | loadContext => exact yields_next rfl (start.one rfl _ fun _ => rfl)
  | loadShared => exact yields_ask rfl nofun rfl rfl start
  | loadThis =>
    simp only [execute]
    split
    · exact yields_next rfl (start.one rfl _ nofun)
    · exact .error
  | loadLocal =>
    simp only [execute, getLocal]
    split
    · exact yields_next rfl (start.one rfl _ nofun)
    · exact .error
  | storeLocal =>
    refine (yields_pop start).bind fun ⟨slot, g⟩ h => ?_
    dsimp only
    unfold setLocal
    split
    · exact yields_next rfl (Trades.nothing ⟨h.pc, h.pending, h.stack⟩ rfl)
    · exact .error
  | dup =>
    simp only [execute]
    split
    case h_1 top rest hstack =>
      -- The value is taken and put back twice.
      refine yields_next rfl ⟨[top, top], ⟨rfl, nofun⟩, rfl, rfl, ?_⟩
      show top :: frame.stack = top :: top :: frame.stack.drop 1
      rw [hstack, List.drop_one, List.tail_cons]
    case h_2 => exact .error
  | assertNotNull =>
    simp only [execute]
    split
    case h_1 => exact .error
    case h_2 => exact .error
    case h_3 filled =>
      -- The value is looked at only: it is taken and put back.
      refine yields_next rfl
        ⟨frame.stack.take 1, ⟨?_, nofun⟩, rfl, rfl, (List.take_append_drop 1 _).symm⟩
      cases hstack : frame.stack with
      | nil => exact (filled hstack).elim
      | cons => rfl
  | storeArg slot =>
    refine (yields_pop start).bind fun ⟨value, g⟩ h => ?_
    exact yields_next rfl (Trades.nothing ⟨h.pc, h.pending, h.stack⟩ rfl)
  | pop => exact (yields_pop start).bind fun _ h => yields_next rfl (h.nothing rfl)
  | loadBound => exact (yields_pop start).bind fun _ h => yields_ask rfl nofun rfl rfl h
  | storeShared => exact (yields_popValue start).bind fun _ h => yields_ask rfl nofun rfl rfl h
  | unary | isInstance | isExactType =>
    exact (yields_popValue start).bind fun _ h => yields_next rfl (h.one rfl _ nofun)
  | binary =>
    exact (yields_popValue start).bind fun _ h => (yields_popValue h).bind fun _ h =>
      yields_next rfl (h.one rfl _ nofun)
  | storeBound | echo =>
    exact (yields_popValue start).bind fun _ h => (yields_pop h).bind fun _ h =>
      yields_ask rfl nofun rfl rfl h
  | newArray size keyed =>
    cases keyed <;> exact yields_popValues.bind fun _ h => yields_next rfl (h.one rfl _ nofun)
  | newObject => exact yields_popMany.bind fun _ h => yields_ask rfl nofun rfl ⟨_, rfl⟩ h
  | call body argc onObject =>
    cases onObject with
    | false => exact yields_popMany.bind fun _ h => yields_ask rfl nofun rfl ⟨_, _, rfl⟩ h
    | true =>
      exact yields_popMany.bind fun _ h => (yields_popValue h).bind fun _ h =>
        yields_ask rfl nofun rfl ⟨_, _, rfl⟩ h
  | callGlobal =>
    exact yields_popValues.bind fun _ h => (yields_pop h).bind fun _ h =>
      yields_ask rfl nofun rfl ⟨_, rfl⟩ h
  | callSite =>
    exact yields_popValues.bind fun _ h => (yields_pop h).bind fun _ h =>
      (yields_popValue h).bind fun _ h => yields_ask rfl nofun rfl rfl h
  | loadField field =>
    refine (yields_popValue start).bind fun ⟨value, g⟩ h => ?_
    dsimp only
    split
    · exact yields_ask rfl nofun rfl rfl h
    · exact .error
  | getEnumerator =>
    refine (yields_popValue start).bind fun ⟨value, g⟩ h => ?_
    dsimp only
    split
    · have opened {cursors : Array Cursor} : frame.Trades 1 [] { g with cursors } :=
        ⟨h.pc, h.pending, h.stack⟩
      exact yields_next rfl (opened.one rfl _ nofun)
    · exact .error
  | storeField =>
    refine (yields_popValue start).bind fun _ h => (yields_popValue h).bind fun ⟨value, g⟩ h => ?_
    dsimp only
    split
    · exact yields_ask rfl nofun rfl rfl h
    · exact .error
  | advance =>
    refine (yields_popCursor start).bind fun ⟨id, cursor, g⟩ h => ?_
    have moved {cursors : Array Cursor} : frame.Trades 1 [] { g with cursors } :=
      ⟨h.pc, h.pending, h.stack⟩
    exact yields_next rfl (moved.one rfl _ nofun)
  | enumeratorKey | enumeratorValue =>
    refine (yields_popCursor start).bind fun ⟨id, cursor, g⟩ h => ?_
    dsimp only
    split
    · exact yields_next rfl (h.one rfl _ nofun)
    · exact .error
  | jump => exact yields_jump rfl nofun start
  | jumpIfTrue =>
    refine (yields_popValue start).bind fun ⟨value, g⟩ h => ?_
    dsimp only
    split
    · exact yields_jump rfl nofun h
    · exact yields_next rfl (h.nothing rfl)
  | jumpIfFalse =>
    refine (yields_popValue start).bind fun ⟨value, g⟩ h => ?_
    dsimp only
    split
    · exact yields_next rfl (h.nothing rfl)
    · exact yields_jump rfl nofun h
  | leave => exact .pure ⟨rfl, trivial⟩
  | endFinally => exact .pure ⟨rfl, trivial⟩
  | throw => exact (yields_popValue start).bind fun _ _ => .error
  | «return» => exact (yields_popValue start).bind fun _ _ => .pure ⟨rfl, trivial⟩

theorem yields_execute (frame : Frame) (i : Instruction) :
    Yields (Effect.Of frame i) (frame.execute i) := fun _ ends => (yields_does frame i _ ends).1

/-- **An instruction asks for what it says.** -/
theorem yields_asked (frame : Frame) (i : Instruction) :
    Yields (Effect.AskedBy i) (frame.execute i) := fun _ ends => (yields_does frame i _ ends).2

end Frame

/-! ## Moves -/

namespace Body

/-- A frame goes on, by itself or on an answer. The answer may be any. -/
inductive Goes (body : Body) (frame after : Frame) : Prop where
  | step : body.step frame = .running after → Goes body frame after
  | answer {request waiting} (answer : Except DispatchError Value) :
      body.step frame = .asking request waiting →
      body.resume request waiting answer = .running after → Goes body frame after

/-- The frames of a run, the latest first. -/
inductive Runs (body : Body) : List Frame → Prop where
  | enter {receiver args} : Runs body [.enter body receiver args]
  | goes {frame after history} : Runs body (frame :: history) → body.Goes frame after →
      Runs body (after :: frame :: history)

/-- The instruction is the end of a `finally` handler. -/
def endsAt (body : Body) (n : Nat) : Bool :=
  match body.code[n]? with
  | some .endFinally => true
  | _ => false

theorem endsAt_iff {body : Body} {n : Nat} :
    body.endsAt n = true ↔ body.code[n]? = some .endFinally := by
  unfold endsAt
  split
  · simp_all
  · simp_all

/-- The completions that wait behind the frame's instruction: the end of a handler takes up the
latest. -/
def waiting (body : Body) (frame : Frame) : List Completion :=
  if body.endsAt frame.pc then frame.pending.tail else frame.pending

/-- What a frame does with a completion that it takes up. -/
def takeUp (body : Body) (frame : Frame) : Completion → Step
  | .leave target remaining => .running (complete frame target remaining)
  | .rethrow value => body.raise frame (.thrown value)

/-- The moves of a frame by its instruction. -/
inductive Move (body : Body) (frame after : Frame) : Prop where
  | next {i put} : body.code[frame.pc]? = some i → i.isTransfer = false →
      after.pc = frame.pc + 1 → after.pending = frame.pending → i.Puts put →
      after.stack = put ++ frame.stack.drop i.pops → Move body frame after
  | jump {i t} : body.code[frame.pc]? = some i → i.target? = some t → i ≠ .leave t →
      after.pc = t → after.pending = frame.pending → after.stack = frame.stack.drop i.pops →
      Move body frame after
  | leave {t} : body.code[frame.pc]? = some (.leave t) →
      after = complete { frame with stack := [] } t (body.crossed frame.pc t) →
      Move body frame after
  | ends {t remaining rest} : body.code[frame.pc]? = some .endFinally →
      frame.pending = .leave t remaining :: rest →
      after = complete { frame with pending := rest } t remaining → Move body frame after
  | raised {thrown region value} : thrown.pending = body.waiting frame → region ∈ body.regions →
      region.protects frame.pc = true → after = enterHandler thrown region value →
      Move body frame after

variable {body : Body} {frame after : Frame} {error : DispatchError} {request : Request}

theorem waiting_of_ne (hi : body.code[frame.pc]? ≠ some .endFinally) :
    body.waiting frame = frame.pending := by
  unfold waiting
  rw [if_neg]
  rw [endsAt_iff]
  exact hi

theorem waiting_of_ends (hi : body.code[frame.pc]? = some .endFinally) :
    body.waiting frame = frame.pending.tail := by
  unfold waiting
  rw [if_pos (endsAt_iff.mpr hi)]

/-- The `leave`s that wait in a frame go on where something holds. -/
def Leads (Go : Nat → Prop) (frame : Frame) : Prop :=
  ∀ t remaining, .leave t remaining ∈ frame.pending → ∀ n ∈ t :: remaining, Go n

namespace Leads

variable {Go Go' : Nat → Prop}

theorem mono (h : Leads Go frame) (le : ∀ n, Go n → Go' n) : Leads Go' frame :=
  fun t remaining mem n there => le n (h t remaining mem n there)

/-- A frame on the way to a target waits at a handler, or has come to the target. -/
theorem complete {t : Nat} {handlers : List Nat} (h : Leads Go frame)
    (goes : ∀ n ∈ t :: handlers, Go n) :
    Go (complete frame t handlers).pc ∧ Leads Go (complete frame t handlers) := by
  cases handlers with
  | nil => exact ⟨goes t List.mem_cons_self, h⟩
  | cons handler rest =>
    refine ⟨goes handler (List.mem_cons_of_mem _ List.mem_cons_self), ?_⟩
    rintro t' remaining (_ | ⟨_, mem⟩) n there
    · obtain rfl | there := List.mem_cons.mp there
      · exact goes _ List.mem_cons_self
      · exact goes n (List.mem_cons_of_mem _ (List.mem_cons_of_mem _ there))
    · exact h t' remaining mem n there

theorem waiting (h : Leads Go frame) (same : after.pending = body.waiting frame) :
    Leads Go after := by
  intro t remaining mem
  refine h t remaining ?_
  rw [same, Body.waiting] at mem
  split at mem
  · exact List.mem_of_mem_tail mem
  · exact mem

/-- A thrown value that waits goes nowhere. -/
theorem enterHandler {region : Region} {value : Value} (h : Leads Go frame) :
    Leads Go (enterHandler frame region value) := by
  unfold Body.enterHandler
  split
  · exact h
  · intro t remaining mem
    obtain eq | mem := List.mem_cons.mp mem
    · cases eq
    · exact h t remaining mem

end Leads

theorem stack_complete (t : Nat) (handlers : List Nat) :
    (complete frame t handlers).stack = frame.stack := by
  cases handlers <;> rfl

/-- The end of a handler takes up the latest of the completions that wait. -/
theorem step_of_ends {completion : Completion} {rest : List Completion}
    (hi : body.code[frame.pc]? = some .endFinally) (hpending : frame.pending = completion :: rest) :
    body.step frame = body.takeUp { frame with pending := rest } completion := by
  unfold step
  rw [hi]
  dsimp only [Frame.execute]
  cases completion with
  | leave => simp only [hpending, takeUp, pure, Except.pure]
  | rethrow => simp only [hpending, takeUp, pure, Except.pure]

/-- An error that does not end the frame is a thrown value that a region takes. -/
theorem exists_of_raise {error : DispatchError} (h : body.raise frame error = .running after) :
    ∃ region ∈ body.regions, region.protects frame.pc = true ∧
      ∃ value, after = enterHandler frame region value := by
  unfold raise at h
  split at h
  case h_2 => cases h
  case h_1 value =>
    split at h
    case h_2 => cases h
    case h_1 region hfind =>
      cases h
      have found := List.find?_some hfind
      rw [Bool.and_eq_true] at found
      exact ⟨region, List.mem_of_find?_eq_some hfind, found.1, value, rfl⟩

/-- A frame that is thrown out of its instruction moves. -/
theorem move_of_raise {thrown : Frame} (hpc : thrown.pc = frame.pc)
    (hpending : thrown.pending = body.waiting frame)
    (h : body.raise thrown error = .running after) : body.Move frame after := by
  obtain ⟨region, hr, hprotects, value, rfl⟩ := exists_of_raise h
  rw [hpc] at hprotects
  exact .raised hpending hr hprotects rfl

theorem raise_ne_asking : body.raise frame error ≠ .asking request after := by
  unfold raise
  split
  · split <;> nofun
  · nofun

theorem raise_ne_returned {value : Value} : body.raise frame error ≠ .returned value := by
  unfold raise
  split
  · split <;> nofun
  · nofun

/-- Without regions every error leaves the frame. -/
theorem raise_of_regions (none : body.regions = []) (frame : Frame) (error : DispatchError) :
    body.raise frame error = .failed error := by
  unfold raise
  rw [none]
  cases error <;> rfl

/-- A frame asks at an instruction that asks. -/
theorem execute_of_asking (h : body.step frame = .asking request after) :
    ∃ i, body.code[frame.pc]? = some i ∧ frame.execute i = .ok (.ask request after) := by
  unfold step at h
  split at h
  case h_1 => exact (raise_ne_asking h).elim
  case h_2 i hi =>
    split at h
    case h_4 request' g hask =>
      cases h
      exact ⟨i, hi, hask⟩
    case h_6 =>
      split at h
      · cases h
      · exact (raise_ne_asking h).elim
      · cases h
    case h_1 => exact (raise_ne_asking h).elim
    all_goals cases h

/-- Only an instruction that is no transfer asks for something. -/
theorem of_asking (h : body.step frame = .asking request after) :
    ∃ i, body.code[frame.pc]? = some i ∧ Effect.Of frame i (.ask request after) := by
  obtain ⟨i, hi, hask⟩ := execute_of_asking h
  exact ⟨i, hi, Frame.yields_execute frame i _ hask⟩

/-- **What a frame does next** is one of its moves. -/
theorem Goes.move (h : body.Goes frame after) : body.Move frame after := by
  cases h with
  | step h =>
    unfold Body.step at h
    split at h
    case h_1 hi => exact move_of_raise rfl (waiting_of_ne (hi ▸ nofun)).symm h
    case h_2 i hi =>
      have does := Frame.yields_execute frame i
      split at h
      case h_1 error herror =>
        -- An error is no end of a handler: no completion is taken up.
        have ne : body.code[frame.pc]? ≠ some .endFinally := by
          rw [hi]
          rintro ⟨⟩
          cases herror
        exact move_of_raise rfl (waiting_of_ne ne).symm h
      case h_2 g hnext =>
        cases h
        obtain ⟨transfer, put, puts, trades⟩ := does _ hnext
        exact .next hi transfer (congrArg (· + 1) trades.pc) trades.pending puts trades.stack
      case h_3 t g hjump =>
        cases h
        obtain ⟨target, ne, trades⟩ := does _ hjump
        exact .jump hi target ne rfl trades.pending trades.stack
      case h_4 => cases h
      case h_5 t hleave =>
        cases h
        obtain rfl := does _ hleave
        exact .leave hi rfl
      case h_6 hends =>
        obtain rfl := does _ hends
        split at h
        case h_1 t remaining rest hpending =>
          cases h
          exact .ends hi hpending rfl
        case h_2 value rest hpending =>
          refine move_of_raise ?_ ?_ h
          · rfl
          · rw [waiting_of_ends hi, hpending, List.tail_cons]
        case h_3 => cases h
      case h_7 => cases h
  | @answer request waits answer hask h =>
    obtain ⟨i, hi, transfer, other, pushes, trades⟩ := of_asking hask
    unfold resume at h
    split at h
    case h_1 =>
      have ne : body.code[frame.pc]? ≠ some .endFinally := by
        rw [hi]
        rintro ⟨⟩
        cases transfer
      exact move_of_raise trades.pc (trades.pending.trans (waiting_of_ne ne).symm) h
    case h_2 value =>
      cases h
      have stack := trades.stack
      cases yields : request.yields with
      | true =>
        rw [yields] at pushes
        have puts : i.Puts [.value value] := ⟨pushes.symm, fun h => (other h).elim⟩
        exact .next hi transfer (congrArg (· + 1) trades.pc) trades.pending puts
          (congrArg (Slot.value value :: ·) stack)
      | false =>
        rw [yields] at pushes
        have puts : i.Puts [] := ⟨pushes.symm, fun h => (other h).elim⟩
        exact .next hi transfer (congrArg (· + 1) trades.pc) trades.pending puts stack

end Body

/-! ## Where requests come from -/

section Requests

variable {field : String} {request : Request} {type : QualifiedName}

theorem Request.eq_of_storeShared (h : request.By (.storeShared type field)) :
    ∃ value, request = .storeShared type field value := by
  cases request with
  | storeShared _ _ value =>
    cases h
    exact ⟨value, rfl⟩
  | call =>
    obtain ⟨_, _, h⟩ := h
    cases h
  | callGlobal | create =>
    obtain ⟨_, h⟩ := h
    cases h
  | _ => cases h

theorem Request.eq_of_storeBound (h : request.By (.storeBound type field)) :
    ∃ value, request = .storeBound type field value := by
  cases request with
  | storeBound _ _ value =>
    cases h
    exact ⟨value, rfl⟩
  | call =>
    obtain ⟨_, _, h⟩ := h
    cases h
  | callGlobal | create =>
    obtain ⟨_, h⟩ := h
    cases h
  | _ => cases h

/-- What the step asks for, if anything, the code of the body refers to. -/
def Step.By (body : Body) : Step → Prop
  | .asking request _ => ∃ i ∈ body.code, request.By i
  | _ => True

namespace Body

variable (body : Body) (frame : Frame)

theorem raise_by (error : DispatchError) : (body.raise frame error).By body := by
  unfold raise
  split
  · split <;> trivial
  · trivial

/-- **A frame asks for what its body refers to.** -/
theorem step_by : (body.step frame).By body := by
  unfold step
  split
  case h_1 => exact body.raise_by _ _
  case h_2 i hi =>
    split
    case h_1 => exact body.raise_by _ _
    case h_4 request after asked =>
      exact ⟨i, Array.mem_of_getElem? hi, frame.yields_asked i _ asked⟩
    case h_6 =>
      split
      · trivial
      · exact body.raise_by _ _
      · trivial
    all_goals trivial

theorem resume_by (request : Request) (frame : Frame) (answer : Except DispatchError Value) :
    (body.resume request frame answer).By body := by
  unfold resume
  split
  · exact body.raise_by _ _
  · trivial

end Body

end Requests

end StackScript
