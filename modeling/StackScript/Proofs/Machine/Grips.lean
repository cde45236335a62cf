import StackScript.Proofs.Machine.Moves
import StackScript.Proofs.Writing.Surveys

/-!
# The enumerators of a running frame

What is known of the enumerators in front of the instructions of a body holds of its frames: the
slots of loops that are known to have got their enumerators hold enumerators of the frame, and where
one is known to be on top of the stack it is there. A handler may count on what all the code has
that it protects, and the target of a `leave` on what is there when the way to it begins, for
nothing takes an enumerator out of its slot.

## Main definitions

* `Frame.Holds`: a slot holds an enumerator of the frame
* `Grip.Describes`: the enumerators of a frame are as is known
* `Body.Grips`: a body bears out what is said of the enumerators
* `Frame.Gripped`: a frame is as is known

## Main results

* `Frame.yields_grips`: what an instruction does to the enumerators is known
* `Body.Runs.gripped`: every frame of every run is as is known
-/

namespace StackScript

/-! ## Enumerators of a frame -/

namespace Frame

/-- The slot holds an enumerator of the frame. -/
def Holds (frame : Frame) (id : LocalId) : Prop :=
  ∃ k, frame.locals[id]? = some (.enumerator k) ∧ k < frame.cursors.size

/-- An enumerator of the frame is on top of its stack. -/
def Offers (frame : Frame) : Prop :=
  ∃ k rest, frame.stack = .enumerator k :: rest ∧ k < frame.cursors.size

/-- The slots are as many as before, and those of loops keep their enumerators. -/
structure Retains (final : Slots) (frame after : Frame) : Prop where
  size : after.locals.size = frame.locals.size
  holds : ∀ id, final.Enumerates id → frame.Holds id → after.Holds id

/-- The slots and the enumerators are the same. -/
structure Alike (frame after : Frame) : Prop where
  locals : after.locals = frame.locals
  cursors : after.cursors = frame.cursors

end Frame

/-- **The enumerators of a frame are as is known.** -/
structure Grip.Describes (final : Slots) (g : Grip) (frame : Frame) : Prop where
  slots : ∀ id, g.slots id → final.Enumerates id → frame.Holds id
  top : g.top → frame.Offers

/-- Behind an instruction that goes on the enumerators are as is known, also when an answer is
pushed. -/
def Effect.Grips (final : Slots) (g : Grip) (frame : Frame) : Effect → Prop
  | .next after | .jump _ after => frame.Retains final after ∧ g.Describes final after
  | .ask _ after => frame.Retains final after ∧ g.Describes final after ∧ ¬ g.top
  | .leave _ | .endFinally | .return _ => True

namespace Frame

variable {final : Slots} {owed : Prop} {g : Grip} {frame f : Frame} {i : Instruction}

namespace Alike

theorem refl (frame : Frame) : frame.Alike frame := ⟨rfl, rfl⟩

theorem retains (h : frame.Alike f) : frame.Retains final f where
  size := congrArg Array.size h.locals
  holds id _ := by
    unfold Holds
    rw [h.locals, h.cursors]
    exact fun held => held

/-- Of an instruction that leaves the enumerators alone, nothing is known but that. -/
theorem stored (h : frame.Alike f) (known : g.Describes final frame) :
    frame.Retains final f ∧ (Grip.stored g.slots).Describes final f :=
  ⟨h.retains, fun id got loop => h.retains.holds id loop (known.slots id got loop), False.elim⟩

theorem push (h : frame.Alike f) (slot : Slot) : frame.Alike (f.push slot) := ⟨h.locals, h.cursors⟩

end Alike

theorem Retains.refl (frame : Frame) : frame.Retains final frame := (Alike.refl frame).retains

theorem alike_pop (h : frame.Alike f) : Yields (fun x => frame.Alike x.2) f.pop := by
  unfold pop
  split
  · exact .pure ⟨h.locals, h.cursors⟩
  · exact .error

theorem alike_popValue (h : frame.Alike f) : Yields (fun x => frame.Alike x.2) f.popValue :=
  (alike_pop h).bind fun _ h => .pure h

theorem alike_popMany {count : Nat} : Yields (fun x => frame.Alike x.2) (frame.popMany count) := by
  unfold popMany
  split
  · exact .error
  · exact .pure ⟨rfl, rfl⟩

theorem alike_popValues {count : Nat} :
    Yields (fun x => frame.Alike x.2) (frame.popValues count) :=
  alike_popMany.bind fun _ h => .pure h

theorem alike_popCursor (h : frame.Alike f) :
    Yields (fun x => frame.Alike x.2.2 ∧ x.1 < frame.cursors.size) f.popCursor := by
  refine (alike_pop h).bind fun ⟨slot, f'⟩ h => ?_
  cases slot with
  | enumerator id =>
    dsimp only
    split
    case h_1 there =>
      refine .pure ⟨h, ?_⟩
      rw [← h.cursors]
      exact (Array.getElem?_eq_some_iff.mp there).1
    case h_2 => exact .error
  | value => exact .error
  | context => exact .error

/-- An instruction on values only. -/
theorem grips_next (h : frame.Alike f) (known : g.Describes final frame) :
    Yields (Effect.Grips final (.stored g.slots) frame) (.ok (.next f)) :=
  .pure (h.stored known)

theorem grips_jump (h : frame.Alike f) (known : g.Describes final frame) (t : Nat) :
    Yields (Effect.Grips final (.stored g.slots) frame) (.ok (.jump t f)) :=
  .pure (h.stored known)

theorem grips_ask (h : frame.Alike f) (known : g.Describes final frame) (request : Request) :
    Yields (Effect.Grips final (.stored g.slots) frame) (.ok (.ask request f)) :=
  .pure ⟨(h.stored known).1, (h.stored known).2, id⟩

/-- The slot of a loop gets an enumerator, and another slot may get anything. -/
theorem stored {id : LocalId} {slot : Slot} {rest : List Slot} (known : g.Describes final frame)
    (allows : (grips final owed).Allows g (.storeLocal id)) (stack : frame.stack = slot :: rest)
    (lt : id < frame.locals.size) :
    Effect.Grips final ((grips final owed).after (.storeLocal id) g) frame
      (.next { frame with locals := frame.locals.setIfInBounds id slot, stack := rest }) := by
  obtain ⟨-, only⟩ := allows
  -- If the slot is that of a loop, the value is an enumerator.
  have own (loop : final.Enumerates id) :
      ∃ k, (frame.locals.setIfInBounds id slot)[id]? = some (.enumerator k) ∧
        k < frame.cursors.size := by
    obtain ⟨k, rest', same, live⟩ := known.top (only loop)
    rw [stack] at same
    cases same
    exact ⟨k, by rw [Array.getElem?_setIfInBounds_self_of_lt lt], live⟩
  have keeps (j : LocalId) (loop : final.Enumerates j) (held : frame.Holds j) :
      ∃ k, (frame.locals.setIfInBounds id slot)[j]? = some (.enumerator k) ∧
        k < frame.cursors.size := by
    by_cases same : id = j
    · exact same ▸ own (same ▸ loop)
    · rw [Array.getElem?_setIfInBounds_ne same]
      exact held
  refine ⟨⟨Array.size_setIfInBounds, keeps⟩, fun j got loop => ?_, False.elim⟩
  obtain got | ⟨rfl, -⟩ := got
  · exact keeps j loop (known.slots j got loop)
  · exact own loop

/-- **What an instruction does to the enumerators** is known, where it may stand. -/
theorem yields_grips (known : g.Describes final frame) (allows : (grips final owed).Allows g i) :
    Yields (Effect.Grips final ((grips final owed).after i g) frame) (frame.execute i) := by
  -- Pops and pushes leave the slots and the enumerators alone. So most instructions are done with
  -- what is known of a frame that differs from this one in its stack.
  have start : frame.Alike frame := .refl frame
  cases i with
  | nop => exact grips_next start known
  | loadNull | loadBool | loadLong | loadDouble | loadString | loadContext | loadArg =>
    exact grips_next (start.push _) known
  | loadShared => exact grips_ask start known _
  | loadThis =>
    simp only [execute]
    split
    · exact grips_next (start.push _) known
    · exact .error
  | dup =>
    simp only [execute]
    split
    · exact grips_next (start.push _) known
    · exact .error
  | assertNotNull =>
    simp only [execute]
    split
    · exact .error
    · exact .error
    · exact grips_next start known
  | loadLocal id =>
    simp only [execute, getLocal]
    split
    case h_1 slot there =>
      obtain ⟨retains, describes⟩ := (start.push slot).stored known
      refine .pure ⟨retains, describes.slots, ?_⟩
      rintro ⟨got, loop⟩
      obtain ⟨k, held, lt⟩ := known.slots id got loop
      rw [there] at held
      cases held
      exact ⟨k, frame.stack, rfl, lt⟩
    case h_2 => exact .error
  | storeLocal id =>
    cases stack : frame.stack with
    | nil =>
      simp only [execute, pop, stack]
      exact .error
    | cons slot rest =>
      simp only [execute, pop, stack]
      show Yields _
        ((setLocal { frame with stack := rest } id slot).bind fun f => .ok (Effect.next f))
      unfold setLocal
      split
      case isTrue lt => exact .pure (stored known allows stack lt)
      case isFalse => exact .error
  | getEnumerator =>
    refine (alike_popValue start).bind ?_
    rintro ⟨value, f⟩ h
    dsimp only
    split
    · -- The new enumerator is the last, and it is the one on the stack.
      have grown : f.cursors.size < (f.cursors.push (.start ‹_›)).size := by simp
      refine .pure ⟨⟨congrArg Array.size h.locals, fun id loop held => ?_⟩, fun id got loop => ?_,
        fun _ => ⟨f.cursors.size, f.stack, rfl, grown⟩⟩
      · obtain ⟨k, there, lt⟩ := h.retains.holds id loop held
        exact ⟨k, there, Nat.lt_trans lt grown⟩
      · obtain ⟨k, there, lt⟩ := h.retains.holds id loop (known.slots id got loop)
        exact ⟨k, there, Nat.lt_trans lt grown⟩
    · exact .error
  | advance =>
    refine (alike_popCursor start).bind ?_
    rintro ⟨k, cursor, f⟩ ⟨h, -⟩
    -- An enumerator that moves on is still one.
    have same : (f.cursors.setIfInBounds k cursor.advance).size = f.cursors.size :=
      Array.size_setIfInBounds
    refine .pure ⟨⟨congrArg Array.size h.locals, fun id loop held => ?_⟩, fun id got loop => ?_,
      False.elim⟩
    · obtain ⟨j, there, lt⟩ := h.retains.holds id loop held
      exact ⟨j, there, Nat.lt_of_lt_of_eq lt same.symm⟩
    · obtain ⟨j, there, lt⟩ := h.retains.holds id loop (known.slots id got loop)
      exact ⟨j, there, Nat.lt_of_lt_of_eq lt same.symm⟩
  | enumeratorKey | enumeratorValue =>
    refine (alike_popCursor start).bind ?_
    rintro ⟨id, cursor, f⟩ ⟨h, -⟩
    dsimp only
    split
    · exact grips_next (h.push _) known
    · exact .error
  | storeArg slot =>
    exact (alike_pop start).bind fun _ h => grips_next ⟨h.locals, h.cursors⟩ known
  | pop => exact (alike_pop start).bind fun _ h => grips_next h known
  | loadBound => exact (alike_pop start).bind fun _ h => grips_ask h known _
  | storeShared => exact (alike_popValue start).bind fun _ h => grips_ask h known _
  | unary | isInstance | isExactType =>
    exact (alike_popValue start).bind fun _ h => grips_next (h.push _) known
  | binary =>
    exact (alike_popValue start).bind fun _ h => (alike_popValue h).bind fun _ h =>
      grips_next (h.push _) known
  | storeBound | echo =>
    exact (alike_popValue start).bind fun _ h => (alike_pop h).bind fun _ h =>
      grips_ask h known _
  | newArray size keyed =>
    cases keyed <;> exact alike_popValues.bind fun _ h => grips_next (h.push _) known
  | newObject => exact alike_popMany.bind fun _ h => grips_ask h known _
  | call body argc onObject =>
    cases onObject with
    | false => exact alike_popMany.bind fun _ h => grips_ask h known _
    | true =>
      exact alike_popMany.bind fun _ h => (alike_popValue h).bind fun _ h => grips_ask h known _
  | callGlobal =>
    exact alike_popValues.bind fun _ h => (alike_pop h).bind fun _ h => grips_ask h known _
  | callSite =>
    exact alike_popValues.bind fun _ h => (alike_pop h).bind fun _ h =>
      (alike_popValue h).bind fun _ h => grips_ask h known _
  | loadField field =>
    refine (alike_popValue start).bind ?_
    rintro ⟨value, f⟩ h
    dsimp only
    split
    · exact grips_ask h known _
    · exact .error
  | storeField field =>
    refine (alike_popValue start).bind fun _ h => (alike_popValue h).bind ?_
    rintro ⟨receiver, f⟩ h
    dsimp only
    split
    · exact grips_ask h known _
    · exact .error
  | jump => exact grips_jump start known _
  | jumpIfTrue =>
    refine (alike_popValue start).bind ?_
    rintro ⟨value, f⟩ h
    dsimp only
    split
    · exact grips_jump h known _
    · exact grips_next h known
  | jumpIfFalse =>
    refine (alike_popValue start).bind ?_
    rintro ⟨value, f⟩ h
    dsimp only
    split
    · exact grips_next h known
    · exact grips_jump h known _
  | leave | endFinally => exact .pure trivial
  | throw => exact (alike_popValue start).bind fun _ _ => .error
  | «return» => exact (alike_popValue start).bind fun _ _ => .pure trivial

end Frame

/-! ## Bodies -/

/-- **A body bears out what is said of its enumerators**: a handler counts on what all the code has
that it protects. -/
structure Body.Grips (final : Slots) (owed : Prop) (body : Body) (front : Nat → Option Grip) :
    Prop where
  locals : body.locals = final.slots
  surveyed : body.Surveyed (grips final owed) front
  start : body.Welcomes (grips final owed) front 0 (.stored fun _ => False)
  handlers : ∀ region ∈ body.regions, ∃ slots : LocalId → Prop,
    body.Welcomes (grips final owed) front region.handlerStart (.stored slots) ∧
      ∀ n g, region.protects n = true → front n = some g → ∀ id, slots id → g.slots id

/-- Control may go on at an offset with anything on the stack: what is known there holds of the
frame. -/
def Frame.MayGo (final : Slots) (front : Nat → Option Grip) (frame : Frame) (n : Nat) : Prop :=
  ∃ g, front n = some g ∧ ¬ g.top ∧ ∀ id, g.slots id → final.Enumerates id → frame.Holds id

/-- **The enumerators of a frame are as is known**, and will be where a `leave` that waits goes
on. -/
structure Frame.Gripped (final : Slots) (front : Nat → Option Grip) (frame : Frame) : Prop where
  size : frame.locals.size = final.size
  here : ∃ g, front frame.pc = some g ∧ g.Describes final frame
  pending : Body.Leads (frame.MayGo final front) frame

section Frames

variable {final : Slots} {owed : Prop} {body : Body} {front : Nat → Option Grip} {g : Grip}
  {frame after : Frame} {slots : LocalId → Prop} {n : Nat}

/-- Less is known as well. -/
theorem Grip.Describes.fits {b : Grip} (h : g.Describes final frame)
    (fits : (grips final owed).Fits g b) : b.Describes final frame :=
  ⟨fun id got => h.slots id (fits.1 id got), fun known => h.top (fits.2 known)⟩

namespace Frame.MayGo

theorem later (h : frame.MayGo final front n) (retains : frame.Retains final after) :
    after.MayGo final front n := by
  obtain ⟨g, known, top, slots⟩ := h
  exact ⟨g, known, top, fun id got loop => retains.holds id loop (slots id got loop)⟩

/-- With anything on the stack the frame is as is known there. -/
theorem describes (h : frame.MayGo final front n) :
    ∃ g, front n = some g ∧ g.Describes final frame := by
  obtain ⟨g, known, top, slots⟩ := h
  exact ⟨g, known, slots, fun known => (top known).elim⟩

end Frame.MayGo

/-- Where nothing is asked of the stack control may go on if the slots hold their enumerators. -/
theorem Body.Welcomes.mayGo (h : body.Welcomes (grips final owed) front n (.stored slots))
    (held : ∀ id, slots id → final.Enumerates id → frame.Holds id) :
    frame.MayGo final front n := by
  obtain ⟨-, g, known, fits⟩ := h
  exact ⟨g, known, fits.2, fun id got => held id (fits.1 id got)⟩

end Frames

section Runs

variable {final : Slots} {owed : Prop} {body : Body} {front : Nat → Option Grip} {g : Grip}
  {frame f after : Frame} {history : List Frame} {handlers : List Nat} {t : Nat}

namespace Frame.Gripped

/-- Control goes on in the frame, where so much is expected as is known. -/
theorem next (h : frame.Gripped final front) (retains : frame.Retains final after)
    (known : g.Describes final after) (goes : body.Welcomes (grips final owed) front after.pc g)
    (pending : after.pending = frame.pending) : after.Gripped final front where
  size := retains.size.trans h.size
  here := by
    obtain ⟨-, b, there, fits⟩ := goes
    exact ⟨b, there, known.fits fits⟩
  pending t remaining mem n there := (h.pending t remaining (pending ▸ mem) n there).later retains

/-- On the way to a target anything may be on the stack. -/
theorem complete (size : frame.locals.size = final.size)
    (pending : Body.Leads (frame.MayGo final front) frame)
    (goes : ∀ n ∈ t :: handlers, frame.MayGo final front n) :
    (Body.complete frame t handlers).Gripped final front := by
  obtain ⟨here, waits⟩ := pending.complete goes
  have same : (Body.complete frame t handlers).MayGo final front = frame.MayGo final front := by
    cases handlers <;> rfl
  rw [← same] at here waits
  exact ⟨by cases handlers <;> exact size, here.describes, waits⟩

/-- A handler may be entered from where it protects the code. -/
theorem mayGo_handler (h : frame.Gripped final front) (grips : body.Grips final owed front)
    {region : Region} (mem : region ∈ body.regions) (protects : region.protects frame.pc = true) :
    frame.MayGo final front region.handlerStart := by
  obtain ⟨g, known, describes⟩ := h.here
  obtain ⟨slots, welcomes, le⟩ := grips.handlers region mem
  exact welcomes.mayGo fun id got => describes.slots id (le _ g protects known id got)

/-- The handler of a thrown value is entered. -/
theorem raised (h : frame.Gripped final front) (grips : body.Grips final owed front)
    (pc : f.pc = frame.pc) (retains : frame.Retains final f)
    (pending : ∀ t remaining, .leave t remaining ∈ f.pending → .leave t remaining ∈ frame.pending)
    {error : DispatchError} (raised : body.raise f error = .running after) :
    after.Gripped final front := by
  obtain ⟨region, mem, protects, value, rfl⟩ := Body.exists_of_raise raised
  have go := (h.mayGo_handler grips mem (pc ▸ protects)).later retains
  have waits : Body.Leads (f.MayGo final front) (Body.enterHandler f region value) :=
    Body.Leads.enterHandler fun t remaining mem n there =>
      (h.pending t remaining (pending t remaining mem) n there).later retains
  have same : (Body.enterHandler f region value).MayGo final front = f.MayGo final front := by
    unfold Body.enterHandler
    split <;> rfl
  have pc : (Body.enterHandler f region value).pc = region.handlerStart := by
    unfold Body.enterHandler
    split <;> rfl
  have size : (Body.enterHandler f region value).locals = f.locals := by
    unfold Body.enterHandler
    split <;> rfl
  rw [← same] at go waits
  exact ⟨size ▸ retains.size.trans h.size, pc ▸ go.describes, waits⟩

/-- **Every move** leads to a frame whose enumerators are as is known. -/
theorem goes (h : frame.Gripped final front) (grips : body.Grips final owed front)
    (goes : body.Goes frame after) : after.Gripped final front := by
  obtain ⟨g, known, describes⟩ := id h.here
  have same : frame.Retains final frame := .refl frame
  cases goes with
  | step step =>
    unfold Body.step at step
    split at step
    case h_1 => exact h.raised grips rfl same (fun _ _ => id) step
    case h_2 i hi =>
      have allows := grips.surveyed.allows _ i g hi known
      have does := Frame.yields_execute frame i
      have keeps := Frame.yields_grips describes allows
      split at step
      case h_1 => exact h.raised grips rfl same (fun _ _ => id) step
      case h_2 f next =>
        cases step
        obtain ⟨transfer, _, -, trades⟩ := does _ next
        obtain ⟨retains, behind⟩ := keeps _ next
        have goes := grips.surveyed.next _ i g hi known transfer
        exact h.next ⟨retains.size, retains.holds⟩ ⟨behind.slots, behind.top⟩
          (show body.Welcomes _ _ (f.pc + 1) _ from trades.pc ▸ goes) trades.pending
      case h_3 t f jump =>
        cases step
        obtain ⟨target, -, trades⟩ := does _ jump
        obtain ⟨retains, behind⟩ := keeps _ jump
        exact h.next ⟨retains.size, retains.holds⟩ ⟨behind.slots, behind.top⟩
          (grips.surveyed.target _ i g t hi known target) trades.pending
      case h_4 => cases step
      case h_5 t leave =>
        cases step
        obtain rfl := does _ leave
        refine complete h.size h.pending fun n mem => ?_
        obtain rfl | mem := List.mem_cons.mp mem
        · exact (grips.surveyed.target _ _ g _ hi known rfl).mayGo describes.slots
        · obtain ⟨region, there, rfl⟩ := List.mem_map.mp mem
          obtain ⟨there, crossed⟩ := List.mem_filter.mp there
          simp only [Bool.and_eq_true] at crossed
          exact h.mayGo_handler grips there crossed.1.2
      case h_6 ends =>
        split at step
        case h_1 t remaining rest pending =>
          cases step
          refine complete h.size (fun t' remaining' mem => ?_) ?_
          · exact h.pending t' remaining' (pending ▸ List.mem_cons_of_mem _ mem)
          · exact h.pending t remaining (pending ▸ List.mem_cons_self)
        case h_2 value rest pending =>
          exact h.raised grips (f := { frame with pending := rest }) rfl ⟨same.size, same.holds⟩
            (fun _ _ mem => pending ▸ List.mem_cons_of_mem _ mem) step
        case h_3 => cases step
      case h_7 => cases step
  | @answer request waits answer asking resumed =>
    obtain ⟨i, hi, asked⟩ := Body.execute_of_asking asking
    obtain ⟨transfer, -, -, trades⟩ := Frame.yields_execute frame i _ asked
    obtain ⟨retains, behind, top⟩ :=
      Frame.yields_grips describes (grips.surveyed.allows _ i g hi known) _ asked
    have goes := grips.surveyed.next _ i g hi known transfer
    unfold Body.resume at resumed
    split at resumed
    case h_1 =>
      exact h.raised grips trades.pc retains (fun _ _ mem => trades.pending ▸ mem) resumed
    case h_2 value =>
      cases resumed
      -- An answer on the stack is no enumerator that anything is known of.
      cases request.yields with
      | true =>
        exact h.next ⟨retains.size, retains.holds⟩ ⟨behind.slots, fun known => (top known).elim⟩
          (show body.Welcomes _ _ (waits.pc + 1) _ from trades.pc ▸ goes) trades.pending
      | false =>
        exact h.next ⟨retains.size, retains.holds⟩ ⟨behind.slots, behind.top⟩
          (show body.Welcomes _ _ (waits.pc + 1) _ from trades.pc ▸ goes) trades.pending

end Frame.Gripped

/-- **The enumerators of every frame of every run** are as is known. -/
theorem Body.Runs.gripped (grips : body.Grips final owed front)
    (h : body.Runs (frame :: history)) : frame.Gripped final front := by
  induction history generalizing frame with
  | nil =>
    cases h
    refine ⟨?_, ?_, nofun⟩
    · rw [Slots.size, ← grips.locals]
      exact Array.size_map
    · obtain ⟨-, g, known, fits⟩ := grips.start
      exact ⟨g, known, fun id got => (fits.1 id got).elim, fun known => (fits.2 known).elim⟩
  | cons before history ih =>
    cases h with
    | goes h hgoes => exact (ih h).goes grips hgoes

end Runs

end StackScript
