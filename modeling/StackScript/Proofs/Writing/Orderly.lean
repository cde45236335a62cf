import StackScript.Proofs.Writing.Renumbered

/-!
# Call sites in order

The list of call sites is filled while the code is written, so it is that of the code, and the
numbers in it rise. In front of each call the code of its receiver, of the context, and of its values
stands in one piece.

## Main definitions

* `Stands`, `StandInOrder`: a part of the code is what steps write
* `CallsThrough`: the code in front of a call through a site
* `Draft.Orderly`: the call sites of a draft are in order

## Main results

* `Written.orderly`: writing keeps the call sites in order
-/

namespace StackScript

open Emit

/-! ## Parts of the code -/

/-- The instruction without its target. -/
def Instruction.untargeted (i : Instruction) : Instruction := i.withTarget 0

/-- From one offset to another the code is what a step writes, apart from the targets of branches. -/
def Stands (code : Array Instruction) (step : Emit Unit) (n m : Nat) : Prop :=
  n ≤ m ∧ ∃ d d', Ends step d () d' ∧ d.asm.code.size = n ∧ d'.asm.code.size = m ∧
    ∀ k, n ≤ k → k < m →
      code[k]?.map Instruction.untargeted = d'.asm.code[k]?.map Instruction.untargeted

/-- From one offset to another the code is what steps write one behind the other. -/
def StandInOrder (code : Array Instruction) : List (Emit Unit) → Nat → Nat → Prop
  | [], n, m => n = m
  | step :: rest, n, m => ∃ k, Stands code step n k ∧ StandInOrder code rest k m

/-- The code of a call in front of the call itself: that of the receiver, of the context, and of the
values. -/
def LateCall.parts (env : BodyEnv) (call : LateCall) : List (Emit Unit) :=
  call.receiver env :: loadContext env :: call.values env

/-- **A call through a site**: the site has its name and its shapes, and in front of it stand the
parts of its code, one behind the other. -/
structure CallsThrough (env : BodyEnv) (code : Array Instruction) (n : Nat) (shape : SiteShape)
    (call : LateCall) : Prop where
  selector : shape.selector = call.selector
  args : shape.args = call.shapes
  parts : ∃ start, StandInOrder code (call.parts env) start n

variable {env : BodyEnv} {item : WorkItem} {a b : Shape} {α : Type} {code code' : Array Instruction}
  {step : Emit Unit} {steps : List (Emit Unit)} {n m : Nat} {d d' : Draft} {i : Instruction}
  {shape : SiteShape} {call : LateCall}

/-- Code up to an offset is the same but for the targets of branches. -/
def SameUntil (code code' : Array Instruction) (m : Nat) : Prop :=
  ∀ k < m, code[k]?.map Instruction.untargeted = code'[k]?.map Instruction.untargeted

theorem SameUntil.mono (h : SameUntil code code' m) (le : n ≤ m) : SameUntil code code' n :=
  fun k lt => h k (Nat.lt_of_lt_of_le lt le)

theorem Stands.same (h : Stands code step n m) (same : SameUntil code code' m) :
    Stands code' step n m := by
  obtain ⟨le, d, d', ends, start, stop, written⟩ := h
  exact ⟨le, d, d', ends, start, stop, fun k le lt => (same k lt).symm.trans (written k le lt)⟩

theorem StandInOrder.le (h : StandInOrder code steps n m) : n ≤ m := by
  induction steps generalizing n with
  | nil => exact Nat.le_of_eq h
  | cons step rest ih =>
    obtain ⟨k, first, behind⟩ := h
    exact Nat.le_trans first.1 (ih behind)

theorem StandInOrder.same (h : StandInOrder code steps n m) (same : SameUntil code code' m) :
    StandInOrder code' steps n m := by
  induction steps generalizing n with
  | nil => exact h
  | cons step rest ih =>
    obtain ⟨k, first, behind⟩ := h
    exact ⟨k, first.same (same.mono behind.le), ih behind⟩

theorem CallsThrough.same (h : CallsThrough env code n shape call) (same : SameUntil code code' n) :
    CallsThrough env code' n shape call := by
  obtain ⟨start, parts⟩ := h.parts
  exact ⟨h.selector, h.args, start, parts.same same⟩

/-! ## Finished code -/

/-- Targets are all that finished code has more. -/
theorem Assembler.untargeted_of_resolve {labels : Label → LabelState}
    {code code' : Array Instruction} {fixups : List (Nat × Label)}
    (h : resolve labels code fixups = .ok code') :
    code'.map Instruction.untargeted = code.map Instruction.untargeted := by
  induction fixups generalizing code with
  | nil =>
    cases h
    rfl
  | cons fixup rest ih =>
    unfold resolve at h
    split at h
    case h_2 => cases h
    case h_1 target _ =>
      have twice (i : Instruction) : (i.withTarget target).untargeted = i.untargeted := by
        cases i <;> rfl
      rw [ih h]
      refine Array.ext_getElem? fun k => ?_
      rw [Array.getElem?_map, Array.getElem?_map, Array.getElem?_modify]
      split
      · rw [Option.map_map]
        exact congrArg (code[k]?.map ·) (funext twice)
      · rfl

/-- Finished code is what was written, but for the targets of branches. -/
theorem sameUntil_of_finish {asm : Assembler} {max : Nat} {out : Assembled}
    (h : asm.finish max = .ok out) (m : Nat) : SameUntil asm.code out.code m := fun k _ => by
  rw [← Array.getElem?_map, ← Array.getElem?_map,
    Assembler.untargeted_of_resolve (Assembler.finish_cases h).2.1]

/-! ## Code that grows -/

/-- Code to which only more was added. -/
def Prolongs (code code' : Array Instruction) : Prop := ∃ more, code' = code ++ more

namespace Prolongs

theorem refl (code : Array Instruction) : Prolongs code code := ⟨#[], by simp⟩

theorem trans {code'' : Array Instruction} (h : Prolongs code code') (h' : Prolongs code' code'') :
    Prolongs code code'' := by
  obtain ⟨more, rfl⟩ := h
  obtain ⟨more', rfl⟩ := h'
  exact ⟨more ++ more', Array.append_assoc⟩

theorem push (code : Array Instruction) (i : Instruction) : Prolongs code (code.push i) :=
  ⟨#[i], Array.push_eq_append⟩

theorem size_le (h : Prolongs code code') : code.size ≤ code'.size := by
  obtain ⟨more, rfl⟩ := h
  rw [Array.size_append]
  exact Nat.le_add_right _ _

theorem getElem? {k : Nat} (h : Prolongs code code') (lt : k < code.size) :
    code'[k]? = code[k]? := by
  obtain ⟨more, rfl⟩ := h
  exact Array.getElem?_append_left lt

theorem same (h : Prolongs code code') : SameUntil code code' code.size := fun k lt => by
  rw [h.getElem? lt]

end Prolongs

/-- **Steps that write code take none back.** -/
theorem Written.prolongs {step : Emit α} (h : Written env item a b step) (d : Draft) :
    Prolongs d.asm.code (step.run d).2.asm.code := by
  refine h.keeps (P := fun d d' => Prolongs d.asm.code d'.asm.code) (fun _ => .refl _) .trans
    (fun f touch d => ?_) (fun call d d₁ _ => ?_) d
  · cases touch with
    | emit =>
      simp only [Assembler.code_emit]
      exact .push _ _
    | branch =>
      simp only [Assembler.code_branch]
      exact .push _ _
    | mark =>
      simp only [Assembler.code_mark]
      exact .refl _
    | defineLabel | slots | sequencePoint => exact .refl _
  · simp only [Assembler.code_emit]
    exact .push _ _

/-- Steps one behind the other write code one behind the other. -/
theorem standInOrder_of_ends
    (h : ∀ step ∈ steps, ∀ d, Prolongs d.asm.code (step.run d).2.asm.code)
    (ends : Ends (oneByOne steps) d () d') :
    Prolongs d.asm.code d'.asm.code ∧
      StandInOrder d'.asm.code steps d.asm.code.size d'.asm.code.size := by
  induction steps generalizing d with
  | nil =>
    obtain ⟨-, rfl⟩ := ends_pure.mp ends
    exact ⟨.refl _, rfl⟩
  | cons step rest ih =>
    obtain ⟨hstep, hrest⟩ := List.forall_mem_cons.mp h
    obtain ⟨_, d₁, first, behind⟩ := ends_bind.mp ends
    have grown : Prolongs d.asm.code d₁.asm.code := by
      have grown := hstep d
      rwa [show step.run d = _ from first] at grown
    obtain ⟨more, stand⟩ := ih hrest behind
    refine ⟨grown.trans more, d₁.asm.code.size, ⟨grown.size_le, d, d₁, first, rfl, rfl, ?_⟩, stand⟩
    exact fun k _ lt => (more.same k lt).symm

/-- The parts of a call are written as all code is. -/
theorem LateCall.prolongs_of_mem (call : LateCall) (item : WorkItem) :
    ∀ step ∈ call.parts env, ∀ d, Prolongs d.asm.code (step.run d).2.asm.code := by
  have written : ∀ step ∈ call.parts env, ∃ b, Written env item .blank b step := by
    cases call with
    | method receiver name args =>
      have arguments : ∀ step ∈ args.map (fun arg => emitValue env arg.value),
          ∃ b, Written env item .blank b step := by
        intro step mem
        obtain ⟨arg, -, rfl⟩ := List.mem_map.mp mem
        exact ⟨_, written_emitValue arg.value⟩
      refine List.forall_mem_cons.mpr ⟨⟨_, written_emitValue receiver⟩,
        List.forall_mem_cons.mpr ⟨⟨_, written_loadContext⟩, ?_⟩⟩
      cases name with
      | direct name => exact arguments
      | computed name =>
        exact List.forall_mem_cons.mpr ⟨⟨_, written_emitValue name⟩, arguments⟩
    | invoke =>
      refine List.forall_mem_cons.mpr ⟨⟨_, written_loadThis⟩,
        List.forall_mem_cons.mpr ⟨⟨_, written_loadContext⟩, fun step mem => ?_⟩⟩
      rw [List.mem_singleton.mp mem]
      exact ⟨_, (written_argumentSlot _).bind fun _ => written_pushed rfl rfl (.refl _)⟩
  intro step mem
  obtain ⟨b, written⟩ := written step mem
  exact written.prolongs

/-! ## Drafts -/

/-- **The call sites of a draft are in order**: they are listed as they stand in the code, their
numbers rise and are below the next one, and in front of each stands the code of its call. -/
structure Draft.Orderly (env : BodyEnv) (d : Draft) : Prop where
  listed : d.asm.callSites.toList = d.asm.code.toList.filterMap Instruction.site?
  rising : (d.asm.callSites.toList.map (·.id)).Pairwise (· < ·)
  below : ∀ shape ∈ d.asm.callSites, shape.id < d.nextSite
  through : ∀ n shape, d.asm.code[n]? = some (.callSite shape) →
    ∃ call, CallsThrough env d.asm.code n shape call

namespace Draft.Orderly

theorem start (n : SiteId) : (Draft.start n).Orderly env where
  listed := by simp [Draft.start, Assembler.empty]
  rising := by simp [Draft.start, Assembler.empty]
  below := by simp [Draft.start, Assembler.empty]
  through := by simp [Draft.start, Assembler.empty]

/-- The code and the call sites are as they were. -/
theorem same (h : d.Orderly env) {asm : Assembler} (code : asm.code = d.asm.code)
    (sites : asm.callSites = d.asm.callSites) : Draft.Orderly env { d with asm } := by
  obtain ⟨listed, rising, below, through⟩ := h
  rw [← code, ← sites] at listed
  rw [← sites] at rising below
  rw [← code] at through
  exact ⟨listed, rising, below, through⟩

/-- An instruction more that is no call site. -/
theorem push (h : d.Orderly env) {asm : Assembler} (code : asm.code = d.asm.code.push i)
    (sites : asm.callSites = d.asm.callSites) (plain : i.site? = none) :
    Draft.Orderly env { d with asm } := by
  refine ⟨?_, sites ▸ h.rising, sites ▸ h.below, fun n shape at_ => ?_⟩
  · rw [sites, code, Array.toList_push, List.filterMap_append, h.listed]
    simp [plain]
  · have at_ : asm.code[n]? = some (.callSite shape) := at_
    rw [code, Array.getElem?_push] at at_
    split at at_
    case isTrue =>
      cases at_
      cases plain
    case isFalse =>
      obtain ⟨call, through⟩ := h.through n shape at_
      have lt : n < d.asm.code.size := (Array.getElem?_eq_some_iff.mp at_).1
      refine ⟨call, through.same ?_⟩
      have grown : Prolongs d.asm.code asm.code := code ▸ .push _ i
      exact grown.same.mono (Nat.le_of_lt lt)

/-- The last instruction, which is no call site, is taken back. -/
theorem pop (h : d.Orderly env) {asm : Assembler} (code : d.asm.code = asm.code.push i)
    (sites : asm.callSites = d.asm.callSites) (plain : i.site? = none) :
    Draft.Orderly env { d with asm } := by
  refine ⟨?_, sites ▸ h.rising, sites ▸ h.below, fun n shape at_ => ?_⟩
  · rw [sites, h.listed, code, Array.toList_push, List.filterMap_append]
    simp [plain]
  · have at_ : asm.code[n]? = some (.callSite shape) := at_
    have lt : n < asm.code.size := (Array.getElem?_eq_some_iff.mp at_).1
    have grown : Prolongs asm.code d.asm.code := code ▸ .push _ i
    obtain ⟨call, through⟩ := h.through n shape (by
      rw [code, Array.getElem?_push, if_neg (Nat.ne_of_lt lt), at_])
    exact ⟨call, through.same fun k below =>
      (grown.same k (Nat.lt_trans below lt)).symm⟩

/-- Touches are no calls. -/
theorem touch (h : d.Orderly env) {f : Assembler → Assembler} (touch : Assembler.Touch f) :
    Draft.Orderly env { d with asm := f d.asm } := by
  have emitted (asm : Assembler) {i : Instruction} (plain : i.site? = none) :
      (asm.emit i).callSites = asm.callSites := by
    rw [Assembler.callSites_emit]
    cases i <;> first | rfl | cases plain
  cases touch with
  | emit plain => exact h.push Assembler.code_emit (emitted _ plain) plain
  | branch kind l =>
    obtain ⟨_, _, -, same⟩ := @Assembler.branch_eq d.asm kind l
    exact h.push Assembler.code_branch ((congrArg Assembler.callSites same).trans
      (emitted _ (by cases kind <;> rfl))) (by cases kind <;> rfl)
  | mark l =>
    obtain ⟨_, _, _, _, -, same⟩ := @Assembler.mark_eq d.asm l
    have sites : (d.asm.mark l).callSites = d.asm.callSites := by rw [same]
    exact h.same Assembler.code_mark sites
  | defineLabel | slots | sequencePoint => exact h.same rfl rfl

/-- A call behind its parts. -/
theorem site {d₁ : Draft} (h : d₁.Orderly env) (item : WorkItem)
    (operands : Ends (call.operands env) d () d₁) :
    Draft.Orderly env ⟨d₁.asm.emit (.callSite ⟨d₁.nextSite, call.selector, call.shapes⟩),
      d₁.nextSite + 1⟩ := by
  have oneByOne : call.operands env = oneByOne (call.parts env) := rfl
  rw [oneByOne] at operands
  obtain ⟨-, stand⟩ := standInOrder_of_ends (call.prolongs_of_mem item) operands
  have sites : (d₁.asm.emit (.callSite ⟨d₁.nextSite, call.selector, call.shapes⟩)).callSites =
      d₁.asm.callSites.push ⟨d₁.nextSite, call.selector, call.shapes⟩ := by
    rw [Assembler.callSites_emit]
  refine ⟨?_, ?_, fun shape mem => ?_, fun n shape at_ => ?_⟩
  · rw [sites, Assembler.code_emit, Array.toList_push, Array.toList_push, List.filterMap_append,
      h.listed]
    rfl
  · rw [sites, Array.toList_push, List.map_append, List.pairwise_append]
    refine ⟨h.rising, List.pairwise_singleton _ _, fun id used last own => ?_⟩
    obtain ⟨shape, mem, rfl⟩ := List.mem_map.mp used
    rw [List.mem_singleton.mp own]
    exact h.below shape (Array.mem_toList_iff.mp mem)
  · rw [sites] at mem
    obtain mem | rfl := Array.mem_push.mp mem
    · exact Nat.lt_succ_of_lt (h.below shape mem)
    · exact Nat.lt_succ_self _
  · have grown : Prolongs d₁.asm.code
        (d₁.asm.emit (.callSite ⟨d₁.nextSite, call.selector, call.shapes⟩)).code := by
      rw [Assembler.code_emit]
      exact .push _ _
    simp only [Assembler.code_emit, Array.getElem?_push] at at_
    split at at_
    case isTrue last =>
      cases at_
      exact ⟨call, rfl, rfl, _, last ▸ stand.same grown.same⟩
    case isFalse =>
      obtain ⟨call', through⟩ := h.through n shape at_
      exact ⟨call', through.same (grown.same.mono
        (Nat.le_of_lt (Array.getElem?_eq_some_iff.mp at_).1))⟩

end Draft.Orderly

/-- **Writing keeps the call sites in order.** -/
theorem Written.orderly {step : Emit α} (h : Written env item a b step) {d : Draft}
    (orderly : d.Orderly env) : (step.run d).2.Orderly env :=
  h.keeps (P := fun d d' => d.Orderly env → d'.Orderly env) (fun _ => id) (fun h h' o => h' (h o))
    (fun _ touch _ o => o.touch touch) (fun _ _ _ operands o => o.site item operands) d orderly

end StackScript
