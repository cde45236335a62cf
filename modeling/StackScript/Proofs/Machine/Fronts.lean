import StackScript.Proofs.Machine.Moves
import StackScript.Proofs.Writing.Fronts

/-!
# What is known in front of the instructions of a running frame

What is known in front of the instructions of a body holds of its frames: however a run goes, the
stack of a frame is as long as is known, it has the context where that is known, and the stores to
static fields that are known to have been made stand behind the frame.

## Main definitions

* `Body.Bears`: a body bears out what is said of the front of its instructions
* `Shape.Describes`: a stack is as is known
* `Body.Tracked`: a frame is as is known

## Main results

* `Body.Runs.tracked`: every frame of every run is
-/

namespace StackScript

/-! ## Bodies -/

/-- Where something is known, control may come to an offset. -/
def Expects (front : Nat → Option Shape) (n : Nat) (a : Shape) : Prop :=
  ∃ b, front n = some b ∧ a.Fits b

/-- **A body bears out what is said of the front of its instructions**: an instruction may stand
where it stands, and what is known behind it is known where control goes on. -/
structure Body.Bears (table : Table) (item : WorkItem) (body : Body)
    (front : Nat → Option Shape) : Prop where
  start : Expects front 0 .blank
  fine : ∀ n i, body.code[n]? = some i →
    ∃ a, Fine table item a i ∧ ∀ b, front n = some b → b = a
  next : ∀ n i a, body.code[n]? = some i → front n = some a → i.isTransfer = false →
    Expects front (n + 1) (i.after a)
  target : ∀ n i a t, body.code[n]? = some i → front n = some a → i.target? = some t →
    Expects front t (i.after a)
  handler : ∀ region ∈ body.regions, Expects front region.handlerStart region.known

/-! ## Stacks -/

/-- The stack is as is known. -/
structure Shape.Describes (a : Shape) (stack : List Slot) : Prop where
  length : stack.length = a.cells.length
  context : ∀ {n : Nat}, a.cells[n]? = some Operand.context → stack[n]? = some Slot.context

section Stacks

variable {a b : Shape} {i : Instruction} {stack put : List Slot} {t : Nat}

theorem describes_blank : Shape.blank.Describes [] := ⟨rfl, nofun⟩

theorem Shape.Describes.fits (h : a.Describes stack) (fits : a.Fits b) : b.Describes stack :=
  ⟨h.length.trans fits.length, fun known => h.context (fits.context known)⟩

/-- What an instruction does to the stack is known. -/
theorem Shape.Describes.after (h : a.Describes stack) (pops : i.pops ≤ a.cells.length)
    (puts : i.Puts put) : (i.after a).Describes (put ++ stack.drop i.pops) := by
  refine ⟨?_, fun {n} known => ?_⟩
  · rw [Instruction.length_after pops, List.length_append, List.length_drop, puts.length, h.length,
      Nat.add_comm]
  · by_cases context : i = .loadContext
    · rw [puts.context context]
      subst context
      cases n with
      | zero => rfl
      | succ n => exact h.context known
    · have cells : (i.after a).cells = List.replicate i.pushes .any ++ a.cells.drop i.pops := by
        unfold Instruction.after
        split
        · exact (context rfl).elim
        · rfl
      rw [cells, List.getElem?_append, List.length_replicate] at known
      rw [List.getElem?_append, puts.length]
      split at known
      case isTrue lt =>
        rw [List.getElem?_replicate_of_lt lt] at known
        cases known
      case isFalse ge =>
        rw [if_neg ge, List.getElem?_drop]
        rw [List.getElem?_drop] at known
        exact h.context known

/-- A branch puts nothing on the stack. -/
theorem Instruction.puts_of_target (h : i.target? = some t) : i.Puts [] := by
  cases i with
  | jump | jumpIfTrue | jumpIfFalse | leave => exact ⟨rfl, nofun⟩
  | _ => cases h

end Stacks

/-! ## Frames -/

namespace Body

/-- Control may be at an offset with these values on the stack: so much is known there, and the
stores that are known stand behind. -/
def At (body : Body) (front : Nat → Option Shape) (history : List Frame) (n : Nat)
    (stack : List Slot) : Prop :=
  ∃ a, front n = some a ∧ a.Describes stack ∧
    ∀ i ∈ a.stores, ∃ before ∈ history, body.code[before.pc]? = some i

/-- **The frame is as is known**, and will be where a `leave` that waits goes on. -/
structure Tracked (body : Body) (front : Nat → Option Shape) (frame : Frame)
    (history : List Frame) : Prop where
  here : body.At front history frame.pc frame.stack
  pending : ∀ t remaining, .leave t remaining ∈ frame.pending → ∀ n ∈ t :: remaining,
    body.At front history n []

variable {table : Table} {item : WorkItem} {body : Body} {front : Nat → Option Shape}
  {frame after : Frame} {history : List Frame} {a : Shape} {i : Instruction} {n t : Nat}
  {stack put : List Slot}

theorem At.later (h : body.At front history n stack) :
    body.At front (frame :: history) n stack := by
  obtain ⟨a, known, describes, stored⟩ := h
  refine ⟨a, known, describes, fun i mem => ?_⟩
  obtain ⟨before, there, at_⟩ := stored i mem
  exact ⟨before, List.mem_cons_of_mem _ there, at_⟩

/-- Where no stores are known, control may come with any history. -/
theorem Bears.at_handler (bears : body.Bears table item front) {region : Region}
    (mem : region ∈ body.regions) (describes : region.known.Describes stack) :
    body.At front history region.handlerStart stack := by
  obtain ⟨b, known, fits⟩ := bears.handler region mem
  have none : region.known.stores = [] := by
    unfold Region.known
    split <;> rfl
  refine ⟨b, known, describes.fits fits, fun i there => absurd (fits.stores i there) ?_⟩
  rw [none]
  exact List.not_mem_nil

/-- The handlers that a `leave` goes by may be entered with nothing on the stack. -/
theorem Bears.at_crossed (bears : body.Bears table item front) {pc : Nat}
    (mem : n ∈ body.crossed pc t) : body.At front history n [] := by
  obtain ⟨region, there, rfl⟩ := List.mem_map.mp mem
  obtain ⟨there, crossed⟩ := List.mem_filter.mp there
  refine bears.at_handler there ?_
  have known : region.known = .blank := by
    unfold Region.known
    split
    case h_1 kind => simp [Region.isFinally, kind] at crossed
    case h_2 => rfl
  exact known ▸ describes_blank

/-- Behind an instruction control may go on where that is expected. -/
theorem Bears.at_after (bears : body.Bears table item front)
    (h : body.At front history frame.pc frame.stack) (hi : body.code[frame.pc]? = some i)
    (goes : ∀ a, front frame.pc = some a → Expects front n (i.after a)) (puts : i.Puts put) :
    body.At front (frame :: history) n (put ++ frame.stack.drop i.pops) := by
  obtain ⟨a, known, describes, stored⟩ := h
  obtain ⟨_, fine, same⟩ := bears.fine _ _ hi
  obtain rfl := same a known
  obtain ⟨b, known', fits⟩ := goes a known
  refine ⟨b, known', (describes.after fine.pops puts).fits fits, fun j mem => ?_⟩
  have mem : j ∈ if i.storesStatic then i :: a.stores else a.stores := fits.stores j mem
  by_cases own : j = i
  · exact ⟨frame, List.mem_cons_self, own ▸ hi⟩
  · have old : j ∈ a.stores := by
      split at mem
      · exact (List.mem_cons.mp mem).resolve_left own
      · exact mem
    obtain ⟨before, there, at_⟩ := stored j old
    exact ⟨before, List.mem_cons_of_mem _ there, at_⟩

/-- On the way to a target nothing is on the stack. -/
theorem tracked_complete {handlers : List Nat} (empty : frame.stack = [])
    (pending : Leads (body.At front history · []) frame)
    (goes : ∀ n ∈ t :: handlers, body.At front history n []) :
    body.Tracked front (complete frame t handlers) history := by
  obtain ⟨here, waits⟩ := pending.complete goes
  exact ⟨by rwa [stack_complete, empty], waits⟩

/-- **Every move** leads to a frame that is as is known. -/
theorem Tracked.move (bears : body.Bears table item front) (h : body.Tracked front frame history)
    (m : body.Move frame after) : body.Tracked front after (frame :: history) := by
  have later : Leads (body.At front (frame :: history) · []) frame :=
    Leads.mono h.pending fun _ => .later
  -- The end of a handler and a `leave` are where nothing is on the stack.
  have cleared {i : Instruction} (hi : body.code[frame.pc]? = some i) (clears : i.clears = true) :
      frame.stack = [] := by
    obtain ⟨a, known, describes, -⟩ := h.here
    obtain ⟨_, fine, same⟩ := bears.fine _ _ hi
    obtain rfl := same a known
    exact List.length_eq_zero_iff.mp (describes.length.trans (by rw [fine.clears clears]; rfl))
  -- By the kind of the move. What waits stays where it may go on; what is on the stack is what the
  -- instruction leaves there.
  cases m with
  | @next i put hi transfer hpc hpending puts hstack =>
    refine ⟨?_, hpending ▸ later⟩
    rw [hpc, hstack]
    exact bears.at_after h.here hi (fun a known => bears.next _ _ a hi known transfer) puts
  | @jump i t hi target ne hpc hpending hstack =>
    refine ⟨?_, hpending ▸ later⟩
    rw [hpc, hstack]
    exact bears.at_after h.here hi (fun a known => bears.target _ _ a t hi known target)
      (Instruction.puts_of_target target)
  | @leave t hi hafter =>
    rw [hafter]
    refine tracked_complete rfl later fun n mem => ?_
    obtain rfl | mem := List.mem_cons.mp mem
    · have goes := bears.at_after h.here hi (fun a known => bears.target _ _ a _ hi known rfl)
        (Instruction.puts_of_target rfl)
      rwa [cleared hi rfl] at goes
    · exact bears.at_crossed mem
  | @ends t remaining rest hi hpending hafter =>
    rw [hafter]
    refine tracked_complete (cleared hi rfl) (fun t' remaining' mem => ?_) ?_
    · exact later t' remaining' (hpending ▸ List.mem_cons_of_mem _ mem)
    · exact later t remaining (hpending ▸ List.mem_cons_self)
  | @raised thrown region value hpending mem protects hafter =>
    have waits : Leads (body.At front (frame :: history) · []) (enterHandler thrown region value) :=
      (later.waiting hpending).enterHandler
    have begins {stack : List Slot} (describes : region.known.Describes stack) :
        body.At front (frame :: history) region.handlerStart stack := bears.at_handler mem describes
    rw [hafter]
    refine ⟨?_, waits⟩
    unfold enterHandler
    split
    case h_1 type kind =>
      refine begins ?_
      rw [Region.known, kind]
      refine ⟨rfl, fun {n} there => ?_⟩
      cases n <;> cases there
    case h_2 kind =>
      refine begins ?_
      rw [Region.known, kind]
      exact describes_blank

/-- **Every frame of every run is as is known.** -/
theorem Runs.tracked (bears : body.Bears table item front) (h : body.Runs (frame :: history)) :
    body.Tracked front frame history := by
  induction history generalizing frame with
  | nil =>
    cases h
    obtain ⟨b, known, fits⟩ := bears.start
    exact ⟨⟨b, known, describes_blank.fits fits, fun i mem => absurd (fits.stores i mem) nofun⟩,
      nofun⟩
  | cons before history ih =>
    cases h with
    | goes h hgoes => exact (ih h).move bears hgoes.move

end Body

end StackScript
