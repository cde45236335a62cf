import StackScript.Proofs.Writing.Finished

/-!
# Code behind a prologue

The same code can be written behind a prologue, which has no branches and leaves nothing on the
stack. Then it only stands further on: every offset, and the target of every branch, is greater by
the size of the prologue.

## Main definitions

* `Prologue`: code that stands in front
* `Instruction.shift`: an instruction so many places further on
* `Assembler.behind`: the same code behind a prologue
* `Assembler.Firm`: the last instruction is not taken back

## Main results

* `Assembler.emit_behind`, `Assembler.branch_behind`, `Assembler.mark_behind`,
  `Assembler.elide_behind`: whatever is written, is written behind the prologue as well
* `Assembler.finish_behind`: the finished code
-/

namespace StackScript

/-- Code that stands in front of other code. -/
structure Prologue where
  code : Array Instruction
  /-- How many values are on the stack at most. -/
  maxStack : Nat
  straight : ∀ i ∈ code, i.target? = none

namespace Prologue

/-- Nothing stands in front. -/
def nothing : Prologue := ⟨#[], 0, by simp⟩

/-- The number of its instructions. -/
def size (p : Prologue) : Nat := p.code.size

/-- What stands behind a prologue. -/
theorem getElem?_append (p : Prologue) (code : Array Instruction) (n : Nat) :
    (p.code ++ code)[n + p.size]? = code[n]? := by
  unfold size
  rw [Array.getElem?_append_right (Nat.le_add_left _ _), Nat.add_sub_cancel]

end Prologue

/-! ## Places further on -/

/-- The instruction where all code is so many places further on. -/
def Instruction.shift (k : Nat) (i : Instruction) : Instruction :=
  match i.target? with
  | some target => i.withTarget (target + k)
  | none => i

namespace Instruction

theorem shift_of_target {i : Instruction} (h : i.target? = none) (k : Nat) : i.shift k = i := by
  simp only [shift, h]

@[simp] theorem shift_zero (i : Instruction) : i.shift 0 = i := by
  cases i <;> rfl

end Instruction

/-- The label where all code is so many places further on. -/
def LabelState.shift (k : Nat) (state : LabelState) : LabelState :=
  { state with offset := state.offset.map (· + k) }

namespace Assembler

variable (p : Prologue) (pinned : Nat) (points : Array SequencePoint)

/-- **The same code behind a prologue.** It is of no matter which of it is kept, and which places it
notes. -/
def behind (asm : Assembler) : Assembler where
  code := p.code ++ asm.code
  labels := asm.labels.map (·.shift p.size)
  fixups := asm.fixups.map fun (n, l) => (n + p.size, l)
  depth := asm.depth
  maxStack := max p.maxStack asm.maxStack
  reachable := asm.reachable
  pinned := pinned
  slots := asm.slots
  sequencePoints := points
  callSites := asm.callSites
  fault := asm.fault

variable {asm : Assembler} {l : Label}

theorem offset_behind : (asm.behind p pinned points).offset = asm.offset + p.size := by
  simp [behind, offset, Prologue.size, Nat.add_comm]

theorem label_behind : (asm.behind p pinned points).label l = (asm.label l).shift p.size := by
  simp only [behind, label, Array.getElem?_map]
  cases asm.labels[l]? <;> rfl

theorem pin_behind : (asm.behind p pinned points).pin =
    asm.pin.behind p (asm.offset + p.size) points := by
  rw [pin, offset_behind]
  rfl

theorem fail_behind (v : Violation) : (asm.behind p pinned points).fail v =
    (asm.fail v).behind p pinned points := by
  have fault : (asm.behind p pinned points).fault = asm.fault := rfl
  unfold fail
  rw [fault]
  cases asm.fault <;> rfl

theorem setLabel_behind (state : LabelState) :
    (asm.behind p pinned points).setLabel l (state.shift p.size) =
      (asm.setLabel l state).behind p pinned points := by
  simp only [setLabel, behind, Array.map_setIfInBounds]

/-! ## Writing -/

/-- **An instruction** is written behind the prologue as well. -/
theorem emit_behind (i : Instruction) : (asm.behind p pinned points).emit i =
    (asm.emit i).behind p pinned points := by
  have adjusted : (asm.behind p pinned points).adjust i =
      (asm.adjust i).behind p pinned points := by
    have depth : (asm.behind p pinned points).depth = asm.depth := rfl
    unfold adjust
    rw [depth]
    by_cases under : asm.depth < i.pops
    · simp only [if_pos under, fail_behind]
      simp only [behind, Nat.max_assoc]
    · simp only [if_neg under]
      simp only [behind, Nat.max_assoc]
  unfold emit
  rw [adjusted]
  simp only [behind, Array.append_push]

theorem defineLabel_behind : (asm.behind p pinned points).defineLabel =
    (asm.defineLabel.1, asm.defineLabel.2.behind p pinned points) := by
  simp only [defineLabel, behind, Array.size_map, Array.map_push]
  rfl

/-- **A branch** is written behind the prologue as well. -/
theorem branch_behind (kind : BranchKind) (l : Label) :
    (asm.behind p pinned points).branch kind l = (asm.branch kind l).behind p pinned points := by
  have noted (asm : Assembler) (n : Nat) :
      ({ asm.behind p pinned points with
          fixups := (asm.behind p pinned points).fixups.push (n + p.size, l) } : Assembler) =
        behind p pinned points { asm with fixups := asm.fixups.push (n, l) } := by
    simp only [behind, Array.map_push]
  unfold branch
  simp only [emit_behind, offset_behind, noted, label_behind]
  generalize asm.emit (kind.instruction 0) = emitted
  have depth : (emitted.behind p pinned points).depth = emitted.depth := rfl
  generalize { emitted with fixups := emitted.fixups.push (asm.offset, l) } = written
  have state : ((written.label l).shift p.size).depth = (written.label l).depth := rfl
  rw [state, depth]
  cases known : (written.label l).depth with
  | none => exact setLabel_behind p pinned points { written.label l with depth := some emitted.depth }
  | some expected =>
    dsimp only
    split
    · rfl
    · exact fail_behind p pinned points _

/-- **A label** gets its place behind the prologue as well. -/
theorem mark_behind (l : Label) : (asm.behind p pinned points).mark l =
    (asm.mark l).behind p (asm.offset + p.size) points := by
  unfold mark
  simp only [pin_behind, offset_behind, label_behind]
  have offset : asm.offset = asm.pin.offset := rfl
  rw [offset]
  generalize asm.pin = kept
  have reachable : (kept.behind p (kept.offset + p.size) points).reachable = kept.reachable := rfl
  have depth : (kept.behind p (kept.offset + p.size) points).depth = kept.depth := rfl
  have shifted : ((kept.label l).shift p.size).offset.isSome = (kept.label l).offset.isSome := by
    simp [LabelState.shift]
  have expected : ((kept.label l).shift p.size).depth = (kept.label l).depth := rfl
  have placed (depth : Option Nat) :
      (kept.behind p (kept.offset + p.size) points).setLabel l ⟨some (kept.offset + p.size), depth⟩ =
        (kept.setLabel l ⟨some kept.offset, depth⟩).behind p (kept.offset + p.size) points :=
    setLabel_behind p _ points ⟨some kept.offset, depth⟩
  rw [reachable, shifted, expected]
  split
  · exact fail_behind p _ points _
  · cases kept.reachable <;> cases (kept.label l).depth <;> simp only [placed]
    case true.some known =>
      have depth : ((kept.setLabel l ⟨some kept.offset, some known⟩).behind p
          (kept.offset + p.size) points).depth =
          (kept.setLabel l ⟨some kept.offset, some known⟩).depth := rfl
      rw [depth]
      split
      · rfl
      · exact fail_behind p _ points _
    all_goals rfl

/-- **A jump is taken back** behind the prologue as well, if it may be taken back at all. -/
theorem elide_behind (same : (asm.behind p pinned points).endsInJumpTo l = asm.endsInJumpTo l) :
    (asm.behind p pinned points).elide l = (asm.elide l).behind p pinned points := by
  unfold elide
  rw [same]
  split
  case isTrue ends =>
    obtain ⟨⟨t, last⟩, -, -⟩ := endsInJumpTo_iff.mp ends
    have some : 0 < asm.code.size := by
      rw [Array.back?_eq_getElem?] at last
      have := (Array.getElem?_eq_some_iff.mp last).1
      omega
    have code : (p.code ++ asm.code).pop = p.code ++ asm.code.pop := by
      refine Array.ext' ?_
      rw [Array.toList_pop, Array.toList_append, Array.toList_append, Array.toList_pop,
        List.dropLast_append_of_ne_nil]
      intro none
      rw [Array.toList_eq_nil_iff.mp none] at some
      exact Nat.lt_irrefl _ some
    simp only [behind, code, Array.map_pop]
  case isFalse => rfl

theorem beginHandler_behind (depth : Nat) : (asm.behind p pinned points).beginHandler depth =
    (asm.beginHandler depth).behind p pinned points := by
  simp only [beginHandler, behind, Nat.max_assoc]

theorem sequencePoint_behind (span : Span) : (asm.behind p pinned points).sequencePoint span =
    (asm.sequencePoint span).behind p (asm.offset + p.size)
      (points.push ⟨asm.offset + p.size, span⟩) := by
  rw [sequencePoint, pin_behind, offset_behind]
  rfl

/-! ## The last instruction -/

/-- The last instruction is not taken back, whatever label comes next. -/
def Firm (asm : Assembler) : Prop := ∀ l, asm.endsInJumpTo l = false

theorem firm_of_pinned (h : asm.code.size ≤ asm.pinned) : asm.Firm := by
  intro l
  refine Bool.eq_false_iff.mpr fun ends => ?_
  obtain ⟨-, -, lt⟩ := endsInJumpTo_iff.mp ends
  exact Nat.lt_irrefl _ (Nat.lt_of_lt_of_le lt h)

theorem firm_pin : asm.pin.Firm := firm_of_pinned (Nat.le_refl _)

theorem firm_sequencePoint (span : Span) : (asm.sequencePoint span).Firm :=
  firm_of_pinned (Nat.le_refl _)

theorem firm_mark (l : Label) : (asm.mark l).Firm :=
  firm_of_pinned (Nat.le_of_eq (by rw [pinned_mark, code_mark]))

theorem firm_emit {i : Instruction} (straight : i.target? = none) : (asm.emit i).Firm := by
  intro l
  refine Bool.eq_false_iff.mpr fun ends => ?_
  obtain ⟨⟨t, last⟩, -, -⟩ := endsInJumpTo_iff.mp ends
  rw [code_emit, Array.back?_push] at last
  cases last
  cases straight

/-! ## Finished code -/

end Assembler

/-- Finished code behind a prologue, with other places noted. -/
def Assembled.behind (p : Prologue) (points : List SequencePoint) (out : Assembled) : Assembled where
  code := p.code ++ out.code.map (·.shift p.size)
  maxStack := max p.maxStack out.maxStack
  locals := out.locals
  sequencePoints := points
  callSites := out.callSites

namespace Assembler

variable {p : Prologue} {pinned : Nat} {points : Array SequencePoint} {asm : Assembler}

/-- A branch waits for its label so many places further on. -/
theorem awaits_behind {n : Nat} {l : Label} : (asm.behind p pinned points).Awaits n l ↔
    ∃ m, asm.Awaits m l ∧ n = m + p.size := by
  simp only [Awaits, behind, Array.mem_map, Prod.mk.injEq, Prod.exists]
  constructor
  · rintro ⟨m, k, waits, rfl, rfl⟩
    exact ⟨m, waits, rfl⟩
  · rintro ⟨m, waits, rfl⟩
    exact ⟨m, l, waits, rfl, rfl⟩

/-- A label has its place so many places further on. -/
theorem PlacedAt.behind {l : Label} {o : Nat} (h : asm.PlacedAt l o) :
    (asm.behind p pinned points).PlacedAt l (o + p.size) := by
  rw [PlacedAt, label_behind, LabelState.shift, h, Option.map_some]

/-- No two branches are one instruction. -/
theorem Sound.distinct_behind (sound : asm.Sound) :
    ((asm.behind p pinned points).fixups.toList.map (·.1)).Nodup := by
  have shifted := sound.distinct.map (f := (· + p.size)) fun a b same => Nat.add_right_cancel same
  rw [List.map_map] at shifted
  rwa [Assembler.behind, Array.toList_map, List.map_map]

/-- Branches get their targets, if they all have a place. -/
theorem resolve_behind (p : Prologue) (pinned : Nat) (points : Array SequencePoint)
    (sound : asm.Sound) (placed : ∀ n l, asm.Awaits n l → ∃ o, asm.PlacedAt l o) :
    ∃ code, resolve asm.label asm.code asm.fixups.toList = .ok code ∧
      resolve (asm.behind p pinned points).label (asm.behind p pinned points).code
        (asm.behind p pinned points).fixups.toList = .ok (p.code ++ code.map (·.shift p.size)) := by
  have placed' (n : Nat) (l : Label) (waits' : (asm.behind p pinned points).Awaits n l) :
      ∃ o, (asm.behind p pinned points).PlacedAt l o := by
    obtain ⟨m, waits, rfl⟩ := awaits_behind.mp waits'
    obtain ⟨o, there⟩ := placed m l waits
    exact ⟨_, there.behind⟩
  obtain ⟨code, resolved⟩ := exists_resolve
    (fun fixup mem => placed fixup.1 fixup.2 (Array.mem_toList_iff.mp mem)) asm.code
  obtain ⟨code', resolved'⟩ := exists_resolve
    (fun fixup mem => placed' fixup.1 fixup.2 (Array.mem_toList_iff.mp mem))
    (asm.behind p pinned points).code
  obtain ⟨-, same, target⟩ := resolve_spec sound.distinct resolved
  obtain ⟨-, same', target'⟩ := resolve_spec sound.distinct_behind resolved'
  refine ⟨code, resolved, ?_⟩
  rw [resolved']
  refine congrArg Except.ok (Array.ext_getElem? fun n => ?_)
  -- In front there are no branches, and behind every instruction is one of the code.
  obtain inside | ⟨m, rfl⟩ : n < p.size ∨ ∃ m, n = m + p.size := by
    obtain inside | beyond := Nat.lt_or_ge n p.size
    · exact .inl inside
    · exact .inr ⟨n - p.size, (Nat.sub_add_cancel beyond).symm⟩
  · rw [same' n fun l mem => ?_, behind, Array.getElem?_append_left inside,
      Array.getElem?_append_left inside]
    obtain ⟨m, -, rfl⟩ := awaits_behind.mp (Array.mem_toList_iff.mp mem)
    exact Nat.not_lt_of_le (Nat.le_add_left _ _) inside
  · rw [p.getElem?_append, Array.getElem?_map]
    by_cases branch : ∃ l, asm.Awaits m l
    · obtain ⟨l, waits⟩ := branch
      obtain ⟨-, kind, written⟩ := sound.waiting waits
      obtain ⟨o, there, resolved⟩ := target m l (Array.mem_toList_iff.mpr waits)
      obtain ⟨o', there', resolved'⟩ := target' _ l
        (Array.mem_toList_iff.mpr (awaits_behind.mpr ⟨m, waits, rfl⟩))
      obtain rfl : o' = o + p.size := PlacedAt.unique there' (PlacedAt.behind there)
      rw [resolved, resolved', behind, p.getElem?_append, written]
      cases kind <;> rfl
    · rw [same m fun l mem => branch ⟨l, Array.mem_toList_iff.mp mem⟩, same' _ fun l mem => ?_,
        behind, p.getElem?_append]
      · cases written : asm.code[m]? with
        | none => rfl
        | some i =>
          have straight : i.target? = none := by
            by_contra target
            exact branch (sound.branches written target)
          rw [Option.map_some, Instruction.shift_of_target straight]
      · obtain ⟨m', waits, same⟩ := awaits_behind.mp (Array.mem_toList_iff.mp mem)
        obtain rfl := Nat.add_right_cancel same
        exact branch ⟨l, waits⟩

/-- **Finished code behind a prologue** is the finished code, so many places further on. -/
theorem finish_behind {max : Nat} (sound : asm.fault = none → asm.Sound)
    (placed : asm.fault = none → ∀ n l, asm.Awaits n l → ∃ o, asm.PlacedAt l o) :
    (asm.behind p pinned points).finish max =
      (asm.finish max).map (·.behind p points.toList) := by
  have fault : (asm.behind p pinned points).fault = asm.fault := rfl
  have slots : (asm.behind p pinned points).slots = asm.slots := rfl
  unfold finish
  rw [fault]
  cases known : asm.fault with
  | some violation => rfl
  | none =>
    obtain ⟨code, resolved, behind⟩ :=
      resolve_behind p pinned points (sound known) (placed known)
    simp only [resolved, behind, slots]
    split <;> rfl

end Assembler

end StackScript
