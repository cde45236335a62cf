import StackScript.Proofs.Writing.Members

/-!
# Code under other numbers of call sites

The numbers of call sites are drawn one after the other while code is written, and nothing that is
written depends on them. So the same steps from another number on write the same code, in which the
sites have other numbers, and stop with the same cause if they stop.

## Main definitions

* `Instruction.renumber`, `Assembler.renumber`: the same code with other numbers
* `SiteCounter`: states of steps that draw numbers
* `Blind`: a step that pays no heed to the numbers

## Main results

* `Written.alike`: code is written alike whatever the number of the next call site is
-/

namespace StackScript

open Emit

variable {a b : Shape} {d : Draft} {env : BodyEnv} {item : WorkItem}

/-! ## Other numbers -/

/-- The shape of a site with another number. -/
def SiteShape.renumber (f : SiteId → SiteId) (shape : SiteShape) : SiteShape :=
  { shape with id := f shape.id }

namespace Instruction

/-- The instruction with another number of its call site. -/
def renumber (f : SiteId → SiteId) : Instruction → Instruction
  | .callSite shape => .callSite (shape.renumber f)
  | i => i

variable (f : SiteId → SiteId) (i : Instruction)

@[simp] theorem pops_renumber : (i.renumber f).pops = i.pops := by cases i <;> rfl

@[simp] theorem pushes_renumber : (i.renumber f).pushes = i.pushes := by cases i <;> rfl

@[simp] theorem isTransfer_renumber : (i.renumber f).isTransfer = i.isTransfer := by cases i <;> rfl

theorem renumber_withTarget (target : Nat) :
    (i.withTarget target).renumber f = (i.renumber f).withTarget target := by
  cases i <;> rfl

@[simp] theorem renumber_branch (kind : BranchKind) (n : Nat) :
    (kind.instruction n).renumber f = kind.instruction n := by
  cases kind <;> rfl

end Instruction

namespace Assembler

variable (f : SiteId → SiteId) {asm : Assembler} {i : Instruction}

/-- The same code with other numbers of its call sites. -/
def renumber (asm : Assembler) : Assembler :=
  { asm with
    code := asm.code.map (·.renumber f)
    callSites := asm.callSites.map (·.renumber f) }

@[simp] theorem renumber_empty : Assembler.empty.renumber f = .empty := by
  simp [renumber, empty]

@[simp] theorem label_renumber (l : Label) : (asm.renumber f).label l = asm.label l := rfl

@[simp] theorem offset_renumber : (asm.renumber f).offset = asm.offset := by
  simp [renumber, offset]

@[simp] theorem pin_renumber : (asm.renumber f).pin = asm.pin.renumber f := by
  simp [renumber, pin, offset]

@[simp] theorem fail_renumber (v : Violation) : (asm.renumber f).fail v = (asm.fail v).renumber f := by
  have fault : (asm.renumber f).fault = asm.fault := rfl
  unfold fail
  rw [fault]
  cases asm.fault <;> rfl

/-- The depth behind an instruction is the same, unless its number gets into a message. -/
theorem adjust_renumber (h : i.renumber f = i ∨ asm.fault ≠ none ∨ i.pops ≤ asm.depth) :
    (asm.renumber f).adjust (i.renumber f) = (asm.adjust i).renumber f := by
  have depth : (asm.renumber f).depth = asm.depth := rfl
  unfold adjust
  simp only [Instruction.pops_renumber, Instruction.pushes_renumber, depth]
  by_cases under : asm.depth < i.pops
  · rw [if_pos under, if_pos under]
    obtain same | fault | enough := h
    · rw [same, fail_renumber]
      rfl
    · have silent (asm : Assembler) (v : Violation) (fault : asm.fault ≠ none) : asm.fail v = asm := by
        unfold fail
        cases known : asm.fault with
        | none => exact (fault known).elim
        | some => rfl
      rw [silent asm _ fault, silent (asm.renumber f) _ fault]
      rfl
    · omega
  · rw [if_neg under, if_neg under]
    rfl

/-- **An instruction is written alike**, unless its number gets into a message. -/
theorem emit_renumber (h : i.renumber f = i ∨ asm.fault ≠ none ∨ i.pops ≤ asm.depth) :
    (asm.renumber f).emit (i.renumber f) = (asm.emit i).renumber f := by
  unfold emit
  rw [adjust_renumber f h]
  simp only [renumber, Instruction.isTransfer_renumber, Array.map_push, mk.injEq, true_and, and_true]
  cases i <;> simp [Instruction.renumber]

theorem branch_renumber (kind : BranchKind) (l : Label) :
    (asm.renumber f).branch kind l = (asm.branch kind l).renumber f := by
  have emitted := @emit_renumber f asm _ (.inl (Instruction.renumber_branch f kind 0))
  rw [Instruction.renumber_branch] at emitted
  have noted (asm : Assembler) (fixups : Array (Nat × Label)) :
      ({ asm with fixups := fixups } : Assembler).label l = asm.label l := rfl
  unfold branch
  simp only [offset_renumber, emitted, noted, label_renumber]
  cases ((asm.emit (kind.instruction 0)).label l).depth with
  | none => rfl
  | some expected =>
    have depth (asm : Assembler) : (asm.renumber f).depth = asm.depth := rfl
    simp only [depth]
    by_cases same : expected = (asm.emit (kind.instruction 0)).depth
    · rw [if_pos same, if_pos same]
      rfl
    · rw [if_neg same, if_neg same]
      exact @fail_renumber f { asm.emit (kind.instruction 0) with
        fixups := (asm.emit (kind.instruction 0)).fixups.push (asm.offset, l) } _

theorem mark_renumber (l : Label) : (asm.renumber f).mark l = (asm.mark l).renumber f := by
  unfold mark
  simp only [pin_renumber, offset_renumber, label_renumber]
  generalize asm.pin = pinned
  have reachable : (pinned.renumber f).reachable = pinned.reachable := rfl
  rw [reachable]
  split
  · exact fail_renumber f _
  · cases pinned.reachable <;> cases (pinned.label l).depth <;> dsimp only
    case true.some expected =>
      let marked := pinned.setLabel l ⟨some pinned.offset, some expected⟩
      change (if expected = marked.depth then marked.renumber f else (marked.renumber f).fail _) =
        renumber f (if expected = marked.depth then marked else marked.fail _)
      split
      · rfl
      · exact fail_renumber f _
    all_goals rfl

theorem elide_renumber (l : Label) : (asm.renumber f).elide l = (asm.elide l).renumber f := by
  have ends : (asm.renumber f).endsInJumpTo l = asm.endsInJumpTo l := by
    rw [Bool.eq_iff_iff, endsInJumpTo_iff, endsInJumpTo_iff]
    have size : (asm.renumber f).code.size = asm.code.size := Array.size_map
    have fixups : (asm.renumber f).fixups = asm.fixups := rfl
    have pinned : (asm.renumber f).pinned = asm.pinned := rfl
    have jump (i : Instruction) (t : Nat) : i.renumber f = .jump t ↔ i = .jump t := by
      cases i <;> simp [Instruction.renumber]
    rw [size, fixups, pinned]
    simp [renumber, jump]
  unfold elide
  rw [ends]
  split
  · simp [renumber]
  · rfl

theorem beginHandler_renumber (depth : Nat) :
    (asm.renumber f).beginHandler depth = (asm.beginHandler depth).renumber f := rfl

theorem sequencePoint_renumber (span : Span) :
    (asm.renumber f).sequencePoint span = (asm.sequencePoint span).renumber f := by
  simp [sequencePoint, renumber, offset, pin]

/-- The branches of code get their targets alike. -/
theorem resolve_renumber (labels : Label → LabelState) (code : Array Instruction)
    (fixups : List (Nat × Label)) :
    resolve labels (code.map (·.renumber f)) fixups =
      (resolve labels code fixups).map (·.map (·.renumber f)) := by
  induction fixups generalizing code with
  | nil => rfl
  | cons fixup rest ih =>
    obtain ⟨n, l⟩ := fixup
    unfold resolve
    cases (labels l).offset with
    | none => rfl
    | some target =>
      have modified : (code.map (·.renumber f)).modify n (·.withTarget target) =
          (code.modify n (·.withTarget target)).map (·.renumber f) := by
        apply Array.ext_getElem?
        intro k
        simp only [Array.getElem?_modify, Array.getElem?_map]
        split
        · cases code[k]? <;> simp [Instruction.renumber_withTarget]
        · rfl
      dsimp only
      rw [modified, ih]

end Assembler

/-- The same finished code with other numbers of its call sites. -/
def Assembled.renumber (f : SiteId → SiteId) (assembled : Assembled) : Assembled :=
  { assembled with
    code := assembled.code.map (·.renumber f)
    callSites := assembled.callSites.map (·.renumber f) }

/-- **Code is finished alike.** -/
theorem Assembler.finish_renumber (f : SiteId → SiteId) (asm : Assembler) (max : Nat) :
    (asm.renumber f).finish max = (asm.finish max).map (·.renumber f) := by
  have fault : (asm.renumber f).fault = asm.fault := rfl
  have label : (asm.renumber f).label = asm.label := rfl
  have slots : (asm.renumber f).slots = asm.slots := rfl
  have code : (asm.renumber f).code = asm.code.map (·.renumber f) := rfl
  have fixups : (asm.renumber f).fixups = asm.fixups := rfl
  unfold finish
  rw [fault, label, slots, code, fixups, resolve_renumber]
  cases asm.fault with
  | some violation => rfl
  | none =>
    cases resolve asm.label asm.code asm.fixups.toList with
    | error violation => rfl
    | ok code =>
      simp only [Except.map]
      split
      · rfl
      · simp [renumber, Assembled.renumber]

/-! ## Greater numbers -/

/-- The number is that of a call site of the code. -/
def Assembler.Uses (asm : Assembler) (id : SiteId) : Prop :=
  ∃ shape : SiteShape, (.callSite shape ∈ asm.code ∨ shape ∈ asm.callSites) ∧ shape.id = id

/-- States of steps that draw numbers of call sites. -/
class SiteCounter (σ : Type) where
  draft : σ → Draft
  /-- The state with numbers that are by so much greater. -/
  later : Nat → σ → σ

namespace SiteCounter

variable {σ : Type} [SiteCounter σ]

/-- The number of the next call site. -/
def next (s : σ) : SiteId := (draft s).nextSite

/-- The number is that of a call site of the code so far. -/
def Uses (s : σ) (id : SiteId) : Prop := (draft s).asm.Uses id

end SiteCounter

instance : SiteCounter Draft where
  draft := id
  later n d := ⟨d.asm.renumber (· + n), d.nextSite + n⟩

theorem Draft.later_eq (n : Nat) (d : Draft) :
    SiteCounter.later n d = ⟨d.asm.renumber (· + n), d.nextSite + n⟩ := rfl

section Alike

variable {σ α β : Type} [SiteCounter σ]

/-- From a state a step pays no heed to the numbers of call sites: where they are greater it does
the same, and the numbers that it draws are greater as well. -/
structure AlikeFrom (s : σ) (step : ExceptT Cause (StateM σ) α) : Prop where
  run : ∀ n, step.run (SiteCounter.later n s) = ((step.run s).1, SiteCounter.later n (step.run s).2)
  le : SiteCounter.next s ≤ SiteCounter.next (step.run s).2
  fresh : ∀ id, SiteCounter.Uses (step.run s).2 id →
    SiteCounter.Uses s id ∨ SiteCounter.next s ≤ id ∧ id < SiteCounter.next (step.run s).2

/-- A step pays no heed to the numbers of call sites. -/
def Blind (step : ExceptT Cause (StateM σ) α) : Prop := ∀ s, AlikeFrom s step

/-- A step that draws no number and writes no call site. -/
theorem AlikeFrom.of_same {s : σ} {step : ExceptT Cause (StateM σ) α}
    (run : ∀ n, step.run (SiteCounter.later n s) = ((step.run s).1, SiteCounter.later n (step.run s).2))
    (next : SiteCounter.next (step.run s).2 = SiteCounter.next s)
    (uses : ∀ id, SiteCounter.Uses (step.run s).2 id → SiteCounter.Uses s id) : AlikeFrom s step where
  run := run
  le := Nat.le_of_eq next.symm
  fresh id h := .inl (uses id h)

/-- A sequence does if both parts do, the second from where the first ends. -/
theorem AlikeFrom.bind {s : σ} {step : ExceptT Cause (StateM σ) α}
    {next : α → ExceptT Cause (StateM σ) β} (h : AlikeFrom s step)
    (h' : ∀ x s', Ends step s x s' → AlikeFrom s' (next x)) : AlikeFrom s (step >>= next) := by
  cases ends : (step.run s).1 with
  | error cause =>
    have stops : (step >>= next).run s = (.error cause, (step.run s).2) := by
      rw [run_bind, ends]
    refine ⟨fun n => ?_, ?_, ?_⟩
    · rw [stops, run_bind, h.run n, ends]
    · rw [stops]
      exact h.le
    · rw [stops]
      exact h.fresh
  | ok x =>
    have second := h' x _ (Prod.ext ends rfl)
    have goesOn : (step >>= next).run s = (next x).run (step.run s).2 := by rw [run_bind, ends]
    refine ⟨fun n => ?_, ?_, fun id used => ?_⟩
    · rw [goesOn, run_bind, h.run n, ends]
      exact second.run n
    · rw [goesOn]
      exact Nat.le_trans h.le second.le
    · rw [goesOn] at used ⊢
      obtain used | ⟨ge, lt⟩ := second.fresh id used
      · exact (h.fresh id used).imp_right fun ⟨ge, lt⟩ => ⟨ge, Nat.lt_of_lt_of_le lt second.le⟩
      · exact .inr ⟨Nat.le_trans h.le ge, lt⟩

namespace Blind

theorem bind {step : ExceptT Cause (StateM σ) α} {next : α → ExceptT Cause (StateM σ) β}
    (h : Blind step) (h' : ∀ x, Blind (next x)) : Blind (step >>= next) :=
  fun s => (h s).bind fun x s' _ => h' x s'

theorem pure (x : α) : Blind (σ := σ) (Pure.pure x) :=
  fun _ => .of_same (fun _ => rfl) rfl fun _ => id

theorem throw (cause : Cause) : Blind (σ := σ) (α := α) (MonadExcept.throw cause) :=
  fun _ => .of_same (fun _ => rfl) rfl fun _ => id

/-- A step in front of which it is checked whether to stop. -/
theorem check {p : Prop} [Decidable p] {stop : ExceptT Cause (StateM σ) β}
    {step : ExceptT Cause (StateM σ) α} (h : Blind stop) (h' : Blind step) :
    Blind (if p then stop >>= fun _ => step else step) := by
  split
  · exact h.bind fun _ => h'
  · exact h'

/-- A look at the state that sees no number. -/
theorem look {next : σ → ExceptT Cause (StateM σ) α} (h : ∀ s, Blind (next s))
    (sees : ∀ n s, next (SiteCounter.later n s) = next s) : Blind (get >>= next) := by
  intro s
  have run (s : σ) : (get >>= next).run s = (next s).run s := rfl
  refine ⟨fun n => ?_, ?_, ?_⟩
  · rw [run, run, sees]
    exact (h s s).run n
  · rw [run]
    exact (h s s).le
  · rw [run]
    exact (h s s).fresh

/-- A change of the state that changes no number. -/
theorem change {f : σ → σ} (h : ∀ n s, f (SiteCounter.later n s) = SiteCounter.later n (f s))
    (same : ∀ s, SiteCounter.draft (f s) = SiteCounter.draft s) :
    Blind (modify f : ExceptT Cause (StateM σ) PUnit) := by
  intro s
  have run (s : σ) : (modify f : ExceptT Cause (StateM σ) PUnit).run s = (.ok ⟨⟩, f s) := rfl
  refine .of_same (fun n => ?_) ?_ fun id used => ?_
  · rw [run, run, h]
  · rw [run, SiteCounter.next, same]
    rfl
  · rwa [run, SiteCounter.Uses, same] at used

end Blind

end Alike

/-! ## Steps that write code -/

namespace Blind

variable {α : Type}

/-- A change of the code that pays no heed to the numbers, and leaves what it says on the way. -/
theorem withAssembler {f : Assembler → α × Assembler}
    (h : ∀ g asm, f (asm.renumber g) = ((f asm).1, (f asm).2.renumber g))
    (uses : ∀ asm id, (f asm).2.Uses id → asm.Uses id) : Blind (withAssembler f) := by
  intro d
  have run (d : Draft) : (Emit.withAssembler f).run d =
    (.ok (f d.asm).1, { d with asm := (f d.asm).2 }) := rfl
  refine .of_same (fun n => ?_) rfl (uses d.asm)
  rw [run, run]
  simp only [Draft.later_eq, h]

/-- A change of the code that pays no heed to the numbers. -/
theorem onAssembler {f : Assembler → Assembler}
    (h : ∀ g asm, f (asm.renumber g) = (f asm).renumber g)
    (uses : ∀ asm id, (f asm).Uses id → asm.Uses id) : Blind (onAssembler f) := by
  intro d
  have run (d : Draft) : (Emit.onAssembler f).run d = (.ok ⟨⟩, { d with asm := f d.asm }) := rfl
  refine .of_same (fun n => ?_) rfl (uses d.asm)
  rw [run, run]
  simp only [Draft.later_eq, h]

theorem slot (f : Slots → LocalId × Slots) : Blind (withSlots f) :=
  withAssembler (fun _ _ => rfl) fun _ _ => id

theorem release (id : LocalId) : Blind (release id) :=
  onAssembler (fun _ _ => rfl) fun _ _ h => h

theorem defineLabel : Blind defineLabel := withAssembler (fun _ _ => rfl) fun _ _ => id

end Blind

namespace Assembler

variable {asm : Assembler} {id : SiteId} {i : Instruction}

theorem callSites_emit : (asm.emit i).callSites = match i with
    | .callSite shape => asm.callSites.push shape
    | _ => asm.callSites := by
  unfold emit adjust fail
  cases i <;> (dsimp only; split_ifs <;> (try split) <;> rfl)

/-- The numbers behind an instruction are those in front of it, and its own. -/
theorem uses_emit (h : (asm.emit i).Uses id) :
    asm.Uses id ∨ ∃ shape : SiteShape, i = .callSite shape ∧ shape.id = id := by
  obtain ⟨shape, used, rfl⟩ := h
  rw [code_emit, callSites_emit, Array.mem_push] at used
  obtain (used | rfl) | used := used
  · exact .inl ⟨shape, .inl used, rfl⟩
  · exact .inr ⟨shape, rfl, rfl⟩
  · split at used
    · obtain used | rfl := Array.mem_push.mp used
      · exact .inl ⟨shape, .inr used, rfl⟩
      · exact .inr ⟨shape, rfl, rfl⟩
    · exact .inl ⟨shape, .inr used, rfl⟩

theorem uses_branch {kind : BranchKind} {l : Label} (h : (asm.branch kind l).Uses id) :
    asm.Uses id := by
  obtain ⟨_, _, -, same⟩ := @branch_eq asm kind l
  rw [same] at h
  obtain used | ⟨shape, same, -⟩ := @uses_emit asm id (kind.instruction 0) h
  · exact used
  · cases kind <;> cases same

theorem uses_mark {l : Label} (h : (asm.mark l).Uses id) : asm.Uses id := by
  obtain ⟨_, _, _, _, -, same⟩ := @mark_eq asm l
  rwa [same] at h

theorem uses_elide {l : Label} (h : (asm.elide l).Uses id) : asm.Uses id := by
  obtain same | ⟨t, code, fixups, hcode, -, -, same⟩ := elide_cases asm l
  · rwa [same] at h
  · rw [same] at h
    obtain ⟨shape, used, rfl⟩ := h
    refine ⟨shape, used.imp_left fun used => ?_, rfl⟩
    rw [hcode]
    exact Array.mem_push.mpr (.inl used)

end Assembler

namespace Blind

theorem branch (kind : BranchKind) (l : Label) : Blind (branch kind l) :=
  onAssembler (fun g _ => Assembler.branch_renumber g kind l) fun _ _ => Assembler.uses_branch

theorem mark (l : Label) : Blind (mark l) :=
  onAssembler (fun g _ => Assembler.mark_renumber g l) fun _ _ => Assembler.uses_mark

theorem sequencePoint (span : Span) : Blind (Emit.onAssembler (·.sequencePoint span)) :=
  onAssembler (fun g _ => Assembler.sequencePoint_renumber g span) fun _ _ h => h

/-- An instruction that is no call site. -/
theorem emit {i : Instruction} (h : ∀ f, i.renumber f = i) : Blind (emit i) := by
  refine onAssembler (fun g asm => ?_) fun asm id used => ?_
  · have written := @Assembler.emit_renumber g asm i (.inl (h g))
    rwa [h] at written
  · obtain used | ⟨shape, rfl, -⟩ := Assembler.uses_emit used
    · exact used
    · have other := h fun id => id + 1
      simp only [Instruction.renumber, SiteShape.renumber, Instruction.callSite.injEq] at other
      exact (Nat.succ_ne_self _ (congrArg SiteShape.id other)).elim

end Blind

/-- A call through a site that finds the values which it takes. -/
theorem AlikeFrom.site {selector : Selector} {args : List ArgShape}
    (deep : d.asm.fault = none → (SiteShape.mk 0 selector args).pushedCount + 2 ≤ d.asm.depth) :
    AlikeFrom d (writeSite selector args) := by
  have run (d : Draft) : (writeSite selector args).run d =
    (.ok ⟨⟩, ⟨d.asm.emit (.callSite ⟨d.nextSite, selector, args⟩), d.nextSite + 1⟩) := rfl
  refine ⟨fun n => ?_, Nat.le_succ _, fun id used => ?_⟩
  · have written := @Assembler.emit_renumber (· + n) d.asm
      (.callSite ⟨d.nextSite, selector, args⟩) (by
        cases fault : d.asm.fault with
        | none => exact .inr (.inr (deep fault))
        | some _ => exact .inr (.inl nofun))
    rw [run, run]
    simp only [Draft.later_eq, Nat.add_right_comm _ 1 n, ← written]
    rfl
  · obtain used | ⟨shape, same, rfl⟩ := Assembler.uses_emit used
    · exact .inl used
    · cases same
      exact .inr ⟨Nat.le_refl _, Nat.lt_succ_self _⟩

theorem Admits.renumber {table : Table} {cells : List Operand} {i : Instruction}
    (h : Admits table item cells i) (f : SiteId → SiteId) : i.renumber f = i := by
  have none := h.site?_eq_none
  cases i with
  | callSite => cases none
  | _ => rfl

/-- **Code is written alike** whatever the number of the next call site is. -/
theorem Written.alike {α : Type} {step : Emit α} (h : Written env item a b step)
    (deep : d.asm.fault = none → a.cells.length ≤ d.asm.depth) : AlikeFrom d step := by
  induction h generalizing d with
  | pure x => exact Blind.pure x d
  | throw cause => exact Blind.throw cause d
  | bind first _ ih ih' =>
    refine (ih deep).bind fun x d' ends => ih' x fun hf => ?_
    have levels := first.levels ends
    have := levels.depth hf
    have := deep (levels.fault hf)
    omega
  | forget _ _ ih => exact ih deep
  | emit admits => exact Blind.emit admits.renumber d
  | @site a call operands ih =>
    refine (ih deep).bind fun _ d' ends => .site fun hf => ?_
    have levels := operands.levels ends
    have depth := levels.depth hf
    have := deep (levels.fault hf)
    simp only [Shape.pushCall, Shape.pushMany, Shape.cells_push, List.length_append,
      List.length_replicate, List.length_cons] at depth
    simp only [SiteShape.pushedCount]
    omega
  | slot f => exact Blind.slot f d
  | release id => exact Blind.release id d
  | sequencePoint span => exact Blind.sequencePoint span d
  | @logical a decidedBy left _ hleft _ ihl ihr =>
    -- Only what comes in front of the operands counts: behind them there is no call site.
    have tail (test : BranchKind) (short done : Label) : Blind (do
        branch test short
        Emit.emit (.loadBool !decidedBy)
        branch .always done
        mark short
        Emit.emit (.loadBool decidedBy)
        mark done) :=
      (Blind.branch _ _).bind fun _ => (Blind.emit fun _ => rfl).bind fun _ =>
        (Blind.branch _ _).bind fun _ => (Blind.mark _).bind fun _ =>
          (Blind.emit fun _ => rfl).bind fun _ => .mark _
    refine (Blind.defineLabel d).bind fun short d₁ h₁ =>
      (Blind.defineLabel d₁).bind fun done d₂ h₂ => ?_
    obtain ⟨-, rfl⟩ := ends_defineLabel.mp h₁
    obtain ⟨-, rfl⟩ := ends_defineLabel.mp h₂
    refine (ihl (d := ⟨d.asm.defineLabel.2.defineLabel.2, d.nextSite⟩) deep).bind
      fun _ d₃ h₃ => (Blind.branch _ _ d₃).bind fun _ d₄ h₄ => ?_
    obtain rfl := ends_branch.mp h₄
    refine (ihr fun hf => ?_).bind fun _ d₅ _ => tail _ _ _ d₅
    have hf₃ := (Assembler.fault_branch hf).1
    have levels := hleft.levels h₃
    have depth₃ := levels.depth hf₃
    have deep := deep (levels.fault hf₃)
    simp only [Assembler.depth_branch, BranchKind.pops_deciding, Shape.cells_push,
      List.length_cons] at depth₃ ⊢
    simp only [Assembler.defineLabel] at depth₃
    omega
  | @skip a _ _ htest _ iht ihc =>
    refine (Blind.defineLabel d).bind fun skip d₁ h₁ => ?_
    obtain ⟨-, rfl⟩ := ends_defineLabel.mp h₁
    refine (iht (d := ⟨d.asm.defineLabel.2, d.nextSite⟩) deep).bind
      fun _ d₂ h₂ => (Blind.branch _ _ d₂).bind fun _ d₃ h₃ => ?_
    obtain rfl := ends_branch.mp h₃
    refine (ihc fun hf => ?_).bind fun _ d₄ _ => Blind.mark _ d₄
    have hf₂ := (Assembler.fault_branch hf).1
    have levels := htest.levels h₂
    have depth₂ := levels.depth hf₂
    have deep := deep (levels.fault hf₂)
    simp only [Assembler.depth_branch, Shape.cells_push, List.length_cons, BranchKind.instruction,
      Instruction.pops] at depth₂ ⊢
    simp only [Assembler.defineLabel] at depth₂
    omega

/-- Code in front of which nothing has to be on the stack. -/
theorem Written.blind {α : Type} {step : Emit α} (h : Written env item a b step)
    (nothing : a.cells = []) : Blind step :=
  fun _ => h.alike fun _ => by simp [nothing]

end StackScript
