import Mathlib.Order.Lattice
import Mathlib.Data.Nat.Find
import Mathlib.Tactic.IntervalCases
import StackScript.Proofs.Writing.Finished

/-!
# Code from any sequence of calls

The calls that write code may come in any order: branches to labels that come earlier, later or
never, jumps taken back, handlers that start anywhere, instructions with targets of their own. Two
stacks shrink together when a jump is taken back, the code and the branches that wait for a label;
they stay in step, and what lies in front of an offset that is known outside never goes.

Each instruction is traced to the call that wrote it. The instruction is still there as long as the
code has never been as short again as it was in front of that call.

## Main definitions

* `AssemblerCall`, `AssemblerCall.stageAt`: a call, and the code in front of the call at a place
* `AssemblerCall.Wrote`: the call that wrote an instruction that is still there
* `AssemblerCall.Recorded`: an offset that is known outside
* `AssemblerCall.Faithful`: finished code is what the calls have written

## Main results

* `AssemblerCall.recorded_kept`: what is in front of a known offset stays
* `AssemblerCall.waits_stageAt`: the branches that wait are those that are still there
* `AssemblerCall.placedAt_iff`: a label is where it was first put
* `AssemblerCall.stream_uncorrupted`: every sequence of calls, at every stage and finished
-/

namespace StackScript

/-- A call that writes code. -/
inductive AssemblerCall where
  | defineLabel
  | mark (l : Label)
  | branch (kind : BranchKind) (l : Label)
  | elide (l : Label)
  | emit (i : Instruction)
  /-- Asks for the offset of the next instruction. -/
  | offset
  | sequencePoint (span : Span)
  | beginHandler (depth : Nat)

namespace AssemblerCall

/-- The code behind the call. -/
def run (asm : Assembler) : AssemblerCall → Assembler
  | .defineLabel => asm.defineLabel.2
  | .mark l => asm.mark l
  | .branch kind l => asm.branch kind l
  | .elide l => asm.elide l
  | .emit i => asm.emit i
  | .offset => asm.pin
  | .sequencePoint span => asm.sequencePoint span
  | .beginHandler depth => asm.beginHandler depth

/-- The code in front of the call at a place; behind the last one, the code that is left. -/
def stageAt (calls : List AssemblerCall) (n : Nat) : Assembler := (calls.take n).foldl run .empty

/-- The label that the call is about. -/
def label? : AssemblerCall → Option Label
  | .mark l | .branch _ l | .elide l => some l
  | _ => none

/-- The instruction that the call writes. -/
def written? : AssemblerCall → Option Instruction
  | .emit i => some i
  | .branch kind _ => some (kind.instruction 0)
  | _ => none

/-- The label that the instruction of the call waits for. -/
def awaited? : AssemblerCall → Option Label
  | .branch _ l => some l
  | _ => none

/-- The calls are about labels that have been defined before. -/
def OnDefined (calls : List AssemblerCall) : Prop :=
  ∀ n call l, calls[n]? = some call → call.label? = some l → l < (stageAt calls n).labels.size

/-- The instruction that the call at a place writes. -/
def writtenAt (calls : List AssemblerCall) (n : Nat) : Option Instruction :=
  calls[n]?.bind written?

/-- The call at `m` wrote the instruction at the offset `i`, and up to the call at `n` the
instruction has not been taken back. -/
structure Wrote (calls : List AssemblerCall) (m n i : Nat) : Prop where
  lt : m < n
  writes : (writtenAt calls m).isSome
  offset : (stageAt calls m).offset = i
  stays : ∀ k, m < k → k ≤ n → i < (stageAt calls k).offset

/-- The label is put in front of the next instruction by the call at `k`, and not by an earlier
one. -/
def FirstMarks (calls : List AssemblerCall) (k : Nat) (l : Label) : Prop :=
  calls[k]? = some (.mark l) ∧ ∀ j < k, calls[j]? ≠ some (.mark l)

/-- An offset that is known outside in front of the call at `n`: that of an answer, of a label or of
a statement. -/
inductive Recorded (calls : List AssemblerCall) (n : Nat) : Nat → Prop where
  | answered {m} : calls[m]? = some .offset → m < n → Recorded calls n (stageAt calls m).offset
  | label {l o} : (stageAt calls n).PlacedAt l o → Recorded calls n o
  | point {point} : point ∈ (stageAt calls n).sequencePoints → Recorded calls n point.offset

/-- **Finished code is what the calls have written.** -/
structure Faithful (calls : List AssemblerCall) (out : Assembled) : Prop where
  /-- Every instruction has been written by a call. -/
  written : ∀ i, i < out.code.size ↔ ∃ m, Wrote calls m calls.length i
  /-- A branch goes to where its label was first put. -/
  branch : ∀ m i kind l, calls[m]? = some (.branch kind l) → Wrote calls m calls.length i →
    ∃ k, FirstMarks calls k l ∧
      out.code[i]? = some (kind.instruction (stageAt calls k).offset)
  /-- All other instructions are as they were written. -/
  instruction : ∀ m i instruction, calls[m]? = some (.emit instruction) →
    Wrote calls m calls.length i → out.code[i]? = some instruction
  /-- The depth is the same behind all branches to a label and where the label is. -/
  depth : ∀ l, ∃ d, ∀ n,
    (calls[n]? = some (.mark l) ∨ ∃ kind, calls[n]? = some (.branch kind l)) →
      (stageAt calls (n + 1)).depth = d

variable {calls : List AssemblerCall} {call : AssemblerCall} {asm : Assembler} {out : Assembled}
  {kind : BranchKind} {l k : Label} {m n i o d max : Nat}

/-! ## One call -/

/-- A call writes one instruction at the end, or takes the last one back together with the branch
that waits there, or leaves the code alone. -/
theorem run_cases (call : AssemblerCall) (asm : Assembler) :
    (∃ instruction, call.written? = some instruction ∧
      (call.run asm).code = asm.code.push instruction ∧
      (call.run asm).fixups = match call.awaited? with
        | some l => asm.fixups.push (asm.code.size, l)
        | none => asm.fixups) ∨
    (∃ l t, call = .elide l ∧ asm.code = (call.run asm).code.push (.jump t) ∧
      asm.fixups = (call.run asm).fixups.push ((call.run asm).code.size, l) ∧
      asm.pinned ≤ (call.run asm).code.size) ∨
    call.written? = none ∧ (call.run asm).code = asm.code ∧
      (call.run asm).fixups = asm.fixups := by
  cases call with
  | emit i => exact .inl ⟨i, rfl, Assembler.code_emit, Assembler.fixups_emit⟩
  | branch kind l => exact .inl ⟨_, rfl, Assembler.code_branch, Assembler.fixups_branch⟩
  | elide l =>
    rcases Assembler.elide_cases asm l with same | ⟨t, code, fixups, hcode, hfixups, hp, elided⟩
    · exact .inr (.inr ⟨rfl, congrArg (·.code) same, congrArg (·.fixups) same⟩)
    · refine .inr (.inl ⟨l, t, rfl, ?_⟩)
      simp only [run, elided]
      exact ⟨hcode, hfixups, hp⟩
  | mark l => exact .inr (.inr ⟨rfl, Assembler.code_mark, Assembler.fixups_mark⟩)
  | defineLabel | offset | sequencePoint | beginHandler => exact .inr (.inr ⟨rfl, rfl, rfl⟩)

/-- The kept part of the code only grows. -/
theorem pinned_run (h : asm.pinned ≤ asm.code.size) (call : AssemblerCall) :
    asm.pinned ≤ (call.run asm).pinned ∧ (call.run asm).pinned ≤ (call.run asm).code.size := by
  have size : asm.pinned ≤ (call.run asm).code.size := by
    rcases run_cases call asm with ⟨_, -, hcode, -⟩ | ⟨l, t, -, -, -, hp⟩ | ⟨-, hcode, -⟩
    · rw [hcode, Array.size_push]
      exact Nat.le_succ_of_le h
    · exact hp
    · rwa [hcode]
  cases call with
  | mark l =>
    rw [run, Assembler.pinned_mark, Assembler.code_mark]
    exact ⟨h, Nat.le_refl _⟩
  | offset | sequencePoint => exact ⟨h, Nat.le_refl _⟩
  | emit i =>
    have same : (run asm (.emit i)).pinned = asm.pinned := Assembler.pinned_emit
    rw [same]
    exact ⟨Nat.le_refl _, size⟩
  | branch kind l =>
    have same : (run asm (.branch kind l)).pinned = asm.pinned := Assembler.pinned_branch
    rw [same]
    exact ⟨Nat.le_refl _, size⟩
  | elide l =>
    have same : (run asm (.elide l)).pinned = asm.pinned := Assembler.pinned_elide
    rw [same]
    exact ⟨Nat.le_refl _, size⟩
  | defineLabel | beginHandler => exact ⟨Nat.le_refl _, size⟩

/-! ## Sequences of calls -/

theorem stageAt_succ (h : calls[n]? = some call) :
    stageAt calls (n + 1) = call.run (stageAt calls n) := by
  simp [stageAt, List.take_add_one, h]

theorem stageAt_succ_of_none (h : calls[n]? = none) :
    stageAt calls (n + 1) = stageAt calls n := by
  simp [stageAt, List.take_add_one, h]

/-- What happens to the code from one place to the next. -/
theorem stage_cases (calls : List AssemblerCall) (n : Nat) :
    (∃ instruction, writtenAt calls n = some instruction ∧
      (stageAt calls (n + 1)).code = (stageAt calls n).code.push instruction ∧
      (stageAt calls (n + 1)).fixups = match calls[n]?.bind awaited? with
        | some l => (stageAt calls n).fixups.push ((stageAt calls n).offset, l)
        | none => (stageAt calls n).fixups) ∨
    (∃ l t, calls[n]? = some (.elide l) ∧
      (stageAt calls n).code = (stageAt calls (n + 1)).code.push (.jump t) ∧
      (stageAt calls n).fixups =
        (stageAt calls (n + 1)).fixups.push ((stageAt calls (n + 1)).offset, l) ∧
      (stageAt calls n).pinned ≤ (stageAt calls (n + 1)).offset) ∨
    writtenAt calls n = none ∧ (stageAt calls (n + 1)).code = (stageAt calls n).code ∧
      (stageAt calls (n + 1)).fixups = (stageAt calls n).fixups := by
  unfold writtenAt
  cases h : calls[n]? with
  | none =>
    rw [stageAt_succ_of_none h]
    exact .inr (.inr ⟨rfl, rfl, rfl⟩)
  | some call =>
    rw [stageAt_succ h, Option.bind_some, Option.bind_some]
    rcases run_cases call (stageAt calls n) with written | ⟨l, t, rfl, elided⟩ | same
    · exact .inl written
    · exact .inr (.inl ⟨l, t, rfl, elided⟩)
    · exact .inr (.inr same)

theorem getElem?_stageAt_succ (hi : i < (stageAt calls n).offset)
    (hi' : i < (stageAt calls (n + 1)).offset) :
    (stageAt calls (n + 1)).code[i]? = (stageAt calls n).code[i]? := by
  rcases stage_cases calls n with ⟨_, -, hcode, -⟩ | ⟨l, t, -, hcode, -, -⟩ | ⟨-, hcode, -⟩
  · rw [hcode, Array.getElem?_push_lt hi, Array.getElem?_eq_getElem hi]
  · have hne : i ≠ (stageAt calls (n + 1)).code.size := Nat.ne_of_lt hi'
    rw [hcode, Array.getElem?_push, if_neg hne]
  · rw [hcode]

/-- The kept part of the code only grows. -/
theorem pinned_stageAt (calls : List AssemblerCall) (n : Nat) :
    (stageAt calls n).pinned ≤ (stageAt calls n).offset ∧
      (stageAt calls n).pinned ≤ (stageAt calls (n + 1)).pinned := by
  have grows (n : Nat) (h : (stageAt calls n).pinned ≤ (stageAt calls n).offset) :
      (stageAt calls n).pinned ≤ (stageAt calls (n + 1)).pinned ∧
        (stageAt calls (n + 1)).pinned ≤ (stageAt calls (n + 1)).offset := by
    cases hcall : calls[n]? with
    | none =>
      rw [stageAt_succ_of_none hcall]
      exact ⟨Nat.le_refl _, h⟩
    | some call =>
      rw [stageAt_succ hcall]
      exact pinned_run h call
  have inside : (stageAt calls n).pinned ≤ (stageAt calls n).offset := by
    induction n with
    | zero => exact Nat.le_refl _
    | succ n ih => exact (grows n ih).2
  exact ⟨inside, (grows n inside).1⟩

/-- **What is in front of a kept offset stays.** -/
theorem kept_stageAt (hmn : m ≤ n) :
    (stageAt calls m).pinned ≤ (stageAt calls n).pinned ∧
      ∀ i < (stageAt calls m).pinned, (stageAt calls n).code[i]? = (stageAt calls m).code[i]? := by
  induction n, hmn using Nat.le_induction with
  | base => exact ⟨Nat.le_refl _, fun _ _ => rfl⟩
  | succ n _ ih =>
    obtain ⟨grows, same⟩ := ih
    obtain ⟨inside, grows'⟩ := pinned_stageAt calls n
    obtain ⟨inside', -⟩ := pinned_stageAt calls (n + 1)
    refine ⟨Nat.le_trans grows grows', fun i hi => ?_⟩
    rw [getElem?_stageAt_succ (by omega) (by omega), same i hi]

/-! ## Who wrote an instruction -/

theorem wrote_succ :
    Wrote calls m (n + 1) i ↔ i < (stageAt calls (n + 1)).offset ∧
      (Wrote calls m n i ∨
        m = n ∧ (writtenAt calls n).isSome ∧ (stageAt calls n).offset = i) := by
  constructor
  · intro h
    refine ⟨h.stays (n + 1) h.lt (Nat.le_refl _), ?_⟩
    rcases Nat.lt_or_eq_of_le (Nat.le_of_lt_succ h.lt) with hmn | rfl
    · exact .inl ⟨hmn, h.writes, h.offset, fun k hmk hkn => h.stays k hmk (Nat.le_succ_of_le hkn)⟩
    · exact .inr ⟨rfl, h.writes, h.offset⟩
  · rintro ⟨hi, h | ⟨rfl, writes, hoffset⟩⟩
    · refine ⟨Nat.lt_succ_of_lt h.lt, h.writes, h.offset, fun k hmk hkn => ?_⟩
      rcases Nat.lt_or_eq_of_le hkn with hkn | rfl
      · exact h.stays k hmk (Nat.le_of_lt_succ hkn)
      · exact hi
    · refine ⟨Nat.lt_succ_self m, writes, hoffset, fun k hmk hkn => ?_⟩
      obtain rfl : k = m + 1 := Nat.le_antisymm hkn hmk
      exact hi

theorem Wrote.lt_offset (h : Wrote calls m n i) : i < (stageAt calls n).offset :=
  h.stays n h.lt (Nat.le_refl _)

/-- An instruction has been written by one call only. -/
theorem Wrote.unique (h : Wrote calls m n i) (h' : Wrote calls k n i) : m = k := by
  rcases Nat.lt_trichotomy m k with hmk | rfl | hkm
  · have longer := h.stays k hmk (Nat.le_of_lt h'.lt)
    rw [h'.offset] at longer
    exact (Nat.lt_irrefl _ longer).elim
  · rfl
  · have longer := h'.stays m hkm (Nat.le_of_lt h.lt)
    rw [h.offset] at longer
    exact (Nat.lt_irrefl _ longer).elim

/-- Every instruction has been written by a call. -/
theorem exists_wrote (hi : i < (stageAt calls n).offset) : ∃ m, Wrote calls m n i := by
  induction n with
  | zero => cases hi
  | succ n ih =>
    by_cases old : i < (stageAt calls n).offset
    · obtain ⟨m, wrote⟩ := ih old
      exact ⟨m, wrote_succ.mpr ⟨hi, .inl wrote⟩⟩
    · -- The code has become longer, so the last call has written the instruction.
      have longer := hi
      unfold Assembler.offset at longer old
      rcases stage_cases calls n with ⟨_, hw, hcode, -⟩ | ⟨l, t, -, hcode, -, -⟩ | ⟨-, hcode, -⟩
      · rw [hcode, Array.size_push] at longer
        have last : (stageAt calls n).offset = i := by
          unfold Assembler.offset
          omega
        exact ⟨n, wrote_succ.mpr ⟨hi, .inr ⟨rfl, by rw [hw]; rfl, last⟩⟩⟩
      · rw [hcode, Array.size_push] at old
        omega
      · rw [hcode] at longer
        exact (old longer).elim

/-- **An instruction is what its call has written.** -/
theorem Wrote.getElem? (h : Wrote calls m n i) :
    (stageAt calls n).code[i]? = writtenAt calls m := by
  induction n with
  | zero => cases h.lt
  | succ n ih =>
    obtain ⟨hi, old | ⟨rfl, writes, rfl⟩⟩ := wrote_succ.mp h
    · rw [getElem?_stageAt_succ old.lt_offset hi, ih old]
    · rcases stage_cases calls m with ⟨_, hw, hcode, -⟩ | ⟨l, t, elides, -, -, -⟩ | ⟨hw, -, -⟩
      · rw [hcode, hw]
        exact Array.getElem?_push_size
      · simp [writtenAt, elides, written?] at writes
      · simp [hw] at writes

/-! ## The branches that wait -/

/-- The branches that wait are in the order of the code, and they are those that are still there. -/
structure Waits (calls : List AssemblerCall) (n : Nat) : Prop where
  ordered : (stageAt calls n).fixups.toList.Pairwise fun x y => x.1 < y.1
  members : ∀ i l, (stageAt calls n).Awaits i l ↔
    ∃ m kind, calls[m]? = some (.branch kind l) ∧ Wrote calls m n i

theorem Waits.lt (h : Waits calls n) (hi : (stageAt calls n).Awaits i l) :
    i < (stageAt calls n).offset := by
  obtain ⟨m, kind, -, wrote⟩ := (h.members i l).mp hi
  exact wrote.lt_offset

theorem awaited?_eq_some :
    calls[n]?.bind awaited? = some l ↔ ∃ kind, calls[n]? = some (.branch kind l) := by
  cases calls[n]? with
  | none => simp
  | some call => cases call <;> simp [awaited?]

/-- **The branches that wait and the code stay in step.** -/
theorem waits_stageAt (calls : List AssemblerCall) (n : Nat) : Waits calls n := by
  induction n with
  | zero =>
    refine ⟨.nil, fun i l => ⟨fun h => by simp [Assembler.Awaits, stageAt, Assembler.empty] at h,
      ?_⟩⟩
    rintro ⟨m, kind, -, wrote⟩
    cases wrote.lt
  | succ n ih =>
    -- A call writes an instruction, leaves out the last one, or writes nothing.
    rcases stage_cases calls n with
      ⟨_, hw, hcode, hfixups⟩ | ⟨l', t, elides, hcode, hfixups, -⟩ | ⟨hw, hcode, hfixups⟩
    · have size : (stageAt calls (n + 1)).offset = (stageAt calls n).offset + 1 := by
        rw [Assembler.offset, hcode, Array.size_push, Assembler.offset]
      have old {m i} (h : Wrote calls m n i) : Wrote calls m (n + 1) i :=
        wrote_succ.mpr ⟨size ▸ Nat.lt_succ_of_lt h.lt_offset, .inl h⟩
      cases awaited : calls[n]?.bind awaited? with
      | none =>
        simp only [awaited] at hfixups
        refine ⟨hfixups ▸ ih.ordered, fun i l => ?_⟩
        rw [Assembler.Awaits, hfixups, ← Assembler.Awaits, ih.members]
        refine exists_congr fun m => exists_congr fun kind => and_congr_right fun hm => ?_
        refine ⟨old, fun h => (wrote_succ.mp h).2.resolve_right ?_⟩
        rintro ⟨rfl, -, -⟩
        simp [hm, awaited?] at awaited
      | some l' =>
        simp only [awaited] at hfixups
        obtain ⟨kind', branches⟩ := awaited?_eq_some.mp awaited
        refine ⟨?_, fun i l => ?_⟩
        · rw [hfixups, Array.toList_push, List.pairwise_append]
          refine ⟨ih.ordered, List.pairwise_singleton _ _, ?_⟩
          rintro ⟨i, l⟩ hi _ hj
          cases List.mem_singleton.mp hj
          exact ih.lt (Array.mem_toList_iff.mp hi)
        · rw [Assembler.Awaits, hfixups, Array.mem_push, ← Assembler.Awaits, ih.members]
          constructor
          · rintro (⟨m, kind, hm, wrote⟩ | new)
            · exact ⟨m, kind, hm, old wrote⟩
            · cases new
              refine ⟨n, kind', branches, wrote_succ.mpr ⟨by omega, .inr ⟨rfl, ?_, rfl⟩⟩⟩
              rw [hw]
              rfl
          · rintro ⟨m, kind, hm, wrote⟩
            obtain ⟨-, wrote | ⟨rfl, -, rfl⟩⟩ := wrote_succ.mp wrote
            · exact .inl ⟨m, kind, hm, wrote⟩
            · rw [branches] at hm
              cases hm
              exact .inr rfl
    · have ordered := ih.ordered
      rw [hfixups, Array.toList_push, List.pairwise_append] at ordered
      obtain ⟨ordered, -, below⟩ := ordered
      refine ⟨ordered, fun i l => ⟨fun h => ?_, ?_⟩⟩
      · have hi : i < (stageAt calls (n + 1)).offset :=
          below _ (Array.mem_toList_iff.mpr h) _ (List.mem_singleton.mpr rfl)
        obtain ⟨m, kind, hm, wrote⟩ := (ih.members i l).mp (by
          rw [Assembler.Awaits, hfixups]
          exact Array.mem_push.mpr (.inl h))
        exact ⟨m, kind, hm, wrote_succ.mpr ⟨hi, .inl wrote⟩⟩
      · rintro ⟨m, kind, hm, wrote⟩
        obtain ⟨hi, wrote | ⟨rfl, -, -⟩⟩ := wrote_succ.mp wrote
        · have waited := (ih.members i l).mpr ⟨m, kind, hm, wrote⟩
          rw [Assembler.Awaits, hfixups, Array.mem_push] at waited
          refine waited.resolve_right fun last => ?_
          cases last
          exact Nat.lt_irrefl _ hi
        · rw [elides] at hm
          cases hm
    · have size : (stageAt calls (n + 1)).offset = (stageAt calls n).offset := by
        rw [Assembler.offset, hcode, Assembler.offset]
      refine ⟨hfixups ▸ ih.ordered, fun i l => ?_⟩
      rw [Assembler.Awaits, hfixups, ← Assembler.Awaits, ih.members]
      refine exists_congr fun m => exists_congr fun kind => and_congr_right fun hm => ?_
      rw [wrote_succ, size]
      exact ⟨fun h => ⟨h.lt_offset, .inl h⟩, fun h => h.2.resolve_right fun new => by
        simp [hw] at new⟩

/-- **Only a jump to the label that comes next is taken back**, and it is the last instruction. -/
theorem Wrote.taken_back (h : Wrote calls m n i) (gone : ¬ Wrote calls m (n + 1) i) :
    ∃ l, calls[n]? = some (.elide l) ∧ calls[m]? = some (.branch .always l) ∧
      (stageAt calls n).offset = i + 1 ∧ (stageAt calls n).pinned ≤ i := by
  have shorter : (stageAt calls (n + 1)).offset ≤ i := by
    by_contra longer
    exact gone (wrote_succ.mpr ⟨Nat.lt_of_not_le longer, .inl h⟩)
  have inside := h.lt_offset
  unfold Assembler.offset at shorter inside
  rcases stage_cases calls n with
    ⟨_, -, hcode, -⟩ | ⟨l, t, elides, hcode, hfixups, hp⟩ | ⟨-, hcode, -⟩
  · rw [hcode, Array.size_push] at shorter
    omega
  · have size := inside
    rw [hcode, Array.size_push] at size
    have last : (stageAt calls (n + 1)).offset = i := by
      unfold Assembler.offset
      omega
    obtain ⟨m', kind, hm', wrote⟩ := ((waits_stageAt calls n).members i l).mp (by
      rw [Assembler.Awaits, hfixups, last]
      exact Array.mem_push_self)
    obtain rfl := h.unique wrote
    have jump := h.getElem?
    rw [hcode, ← last, Assembler.offset, Array.getElem?_push_size, writtenAt, hm'] at jump
    have always : kind = .always := by
      cases kind <;> cases jump
      rfl
    refine ⟨l, elides, always ▸ hm', ?_, last ▸ hp⟩
    rw [Assembler.offset, hcode, Array.size_push, ← last, Assembler.offset]
  · rw [hcode] at shorter
    omega

/-! ## Labels -/

theorem labels_fail (asm : Assembler) (v : Violation) : (asm.fail v).labels = asm.labels := by
  obtain ⟨fault, h⟩ := @Assembler.fail_eq asm v
  rw [h]

/-- What is known of the other labels stays. -/
theorem label_setLabel_of_ne {state : LabelState} (hne : k ≠ l) :
    (asm.setLabel l state).label k = asm.label k := by
  unfold Assembler.setLabel Assembler.label
  rw [Array.getElem?_setIfInBounds, if_neg (Ne.symm hne)]

/-- A mark changes what is known of its label, and only if that has no place. -/
theorem labels_mark_cases (asm : Assembler) (l : Label) :
    (asm.label l).offset ≠ none ∧ (asm.mark l).labels = asm.labels ∨
      (asm.label l).offset = none ∧
        ∃ depth, (asm.mark l).labels = (asm.setLabel l ⟨some asm.offset, depth⟩).labels := by
  have label : asm.pin.label l = asm.label l := rfl
  unfold Assembler.mark
  simp only [label]
  by_cases ho : (asm.label l).offset = none
  · refine .inr ⟨ho, ?_⟩
    rw [if_neg (by simp [ho])]
    split
    · split
      · exact ⟨_, rfl⟩
      · exact ⟨_, labels_fail _ _⟩
    all_goals exact ⟨_, rfl⟩
  · refine .inl ⟨ho, ?_⟩
    rw [if_pos (by simpa [Option.isSome_iff_ne_none] using ho)]
    exact labels_fail _ _

/-- A branch changes what is known of the depth at its label. -/
theorem labels_branch_cases (asm : Assembler) (kind : BranchKind) (l : Label) :
    (asm.branch kind l).labels = asm.labels ∨ ∃ depth,
      (asm.branch kind l).labels = (asm.setLabel l ⟨(asm.label l).offset, depth⟩).labels := by
  have label (fixups : Array (Nat × Label)) :
      ({ asm.emit (kind.instruction 0) with fixups } : Assembler).label l = asm.label l :=
    Assembler.label_emit
  unfold Assembler.branch
  simp only [label]
  split
  · refine .inl ?_
    split
    · exact Assembler.labels_emit
    · exact (labels_fail _ _).trans Assembler.labels_emit
  · refine .inr ⟨some (asm.emit (kind.instruction 0)).depth, ?_⟩
    simp only [Assembler.setLabel, Assembler.labels_emit]

/-- Only a mark gives a label a place. -/
theorem offset_label_run (hne : call ≠ .mark l) :
    ((call.run asm).label l).offset = (asm.label l).offset := by
  have of_labels {a b : Assembler} (h : a.labels = b.labels) : a.label l = b.label l := by
    rw [Assembler.label, Assembler.label, h]
  cases call with
  | mark k =>
    have hk : l ≠ k := fun h => hne (h ▸ rfl)
    rcases labels_mark_cases asm k with ⟨-, same⟩ | ⟨-, depth, set⟩
    · exact congrArg (·.offset) (of_labels same)
    · exact congrArg (·.offset) ((of_labels set).trans (label_setLabel_of_ne hk))
  | branch kind k =>
    rcases labels_branch_cases asm kind k with same | ⟨depth, set⟩
    · exact congrArg (·.offset) (of_labels same)
    · show ((asm.branch kind k).label l).offset = _
      rw [of_labels set]
      by_cases hk : l = k
      · subst hk
        by_cases hl : l < asm.labels.size
        · rw [Assembler.label_setLabel hl, if_pos rfl]
        · have none : asm.labels.setIfInBounds l ⟨(asm.label l).offset, depth⟩ = asm.labels :=
            Array.setIfInBounds_eq_of_size_le (Nat.le_of_not_lt hl)
          simp only [Assembler.setLabel, none]
      · rw [label_setLabel_of_ne hk]
  | defineLabel => exact congrArg _ Assembler.label_defineLabel
  | elide k => exact congrArg _ Assembler.label_elide
  | emit i => exact congrArg _ Assembler.label_emit
  | offset | sequencePoint | beginHandler => rfl

/-- A mark gives its label the place in front of the next instruction, unless it has one. -/
theorem offset_label_mark (hl : l < asm.labels.size) :
    ((asm.mark l).label l).offset = some ((asm.label l).offset.getD asm.offset) := by
  rcases labels_mark_cases asm l with ⟨placed, same⟩ | ⟨new, depth, set⟩
  · obtain ⟨o, ho⟩ := Option.ne_none_iff_exists'.mp placed
    rw [Assembler.label, same, ← Assembler.label, ho]
    rfl
  · rw [Assembler.label, set, ← Assembler.label, Assembler.label_setLabel hl, if_pos rfl, new]
    rfl

/-- The first of the calls that put a label somewhere. -/
theorem exists_firstMarks (h : calls[n]? = some (.mark l)) : ∃ k ≤ n, FirstMarks calls k l := by
  classical
  have marked : ∃ k : Nat, calls[k]? = some (mark l) := ⟨n, h⟩
  exact ⟨Nat.find marked, Nat.find_min' marked h, Nat.find_spec marked, fun j hj =>
    Nat.find_min marked hj⟩

/-- **A label is where it was first put.** -/
theorem placedAt_iff (defined : OnDefined calls) :
    (stageAt calls n).PlacedAt l o ↔
      ∃ k < n, FirstMarks calls k l ∧ (stageAt calls k).offset = o := by
  induction n generalizing o with
  | zero =>
    refine ⟨fun h => by simp [Assembler.PlacedAt, stageAt, Assembler.label, Assembler.empty] at h,
      ?_⟩
    rintro ⟨k, hk, -⟩
    cases hk
  | succ n ih =>
    by_cases marks : calls[n]? = some (.mark l)
    · have place := offset_label_mark (defined n _ l marks rfl)
      rw [Assembler.PlacedAt, stageAt_succ marks]
      refine (Eq.congr_left place).trans ?_
      cases before : ((stageAt calls n).label l).offset with
      | some o' =>
        -- The label has a place, so this mark is not the first one.
        obtain ⟨k, hk, first, hoffset⟩ := ih.mp before
        rw [Option.getD_some, Option.some.injEq]
        constructor
        · rintro rfl
          exact ⟨k, Nat.lt_succ_of_lt hk, first, hoffset⟩
        · rintro ⟨k', hk', first', rfl⟩
          rcases Nat.lt_or_eq_of_le (Nat.le_of_lt_succ hk') with hk' | rfl
          · have here := ih.mpr ⟨k', hk', first', rfl⟩
            exact Assembler.PlacedAt.unique before here
          · exact (first'.2 k hk first.1).elim
      | none =>
        rw [Option.getD_none, Option.some.injEq]
        constructor
        · rintro rfl
          refine ⟨n, Nat.lt_succ_self n, ⟨marks, fun j hj earlier => ?_⟩, rfl⟩
          obtain ⟨k, hk, first⟩ := exists_firstMarks earlier
          have here := ih.mpr ⟨k, Nat.lt_of_le_of_lt hk hj, first, rfl⟩
          rw [Assembler.PlacedAt, before] at here
          cases here
        · rintro ⟨k', hk', first', rfl⟩
          rcases Nat.lt_or_eq_of_le (Nat.le_of_lt_succ hk') with hk' | rfl
          · have here := ih.mpr ⟨k', hk', first', rfl⟩
            rw [Assembler.PlacedAt, before] at here
            cases here
          · rfl
    · have same :
          ((stageAt calls (n + 1)).label l).offset = ((stageAt calls n).label l).offset := by
        cases hcall : calls[n]? with
        | none => rw [stageAt_succ_of_none hcall]
        | some call =>
          rw [stageAt_succ hcall]
          exact offset_label_run fun h => marks (h ▸ hcall)
      rw [Assembler.PlacedAt, same, ← Assembler.PlacedAt, ih]
      constructor
      · rintro ⟨k, hk, first, hoffset⟩
        exact ⟨k, Nat.lt_succ_of_lt hk, first, hoffset⟩
      · rintro ⟨k, hk, first, hoffset⟩
        refine ⟨k, Nat.lt_of_le_of_ne (Nat.le_of_lt_succ hk) ?_, first, hoffset⟩
        rintro rfl
        exact marks first.1

/-! ## Offsets that are known outside -/

theorem sequencePoints_run (call : AssemblerCall) (asm : Assembler) :
    (call.run asm).sequencePoints = asm.sequencePoints ∨
      ∃ span, call = .sequencePoint span ∧
        (call.run asm).sequencePoints = asm.sequencePoints.push ⟨asm.offset, span⟩ := by
  cases call with
  | sequencePoint span => exact .inr ⟨span, rfl, rfl⟩
  | emit i =>
    obtain ⟨_, _, h⟩ := @Assembler.emit_eq asm i
    exact .inl (by rw [run, h])
  | branch kind l =>
    obtain ⟨_, _, -, h⟩ := @Assembler.branch_eq asm kind l
    obtain ⟨_, _, h'⟩ := @Assembler.emit_eq asm (kind.instruction 0)
    exact .inl (by rw [run, h, h'])
  | mark l =>
    obtain ⟨_, _, _, _, -, h⟩ := @Assembler.mark_eq asm l
    exact .inl (by rw [run, h])
  | elide l =>
    left
    rcases Assembler.elide_cases asm l with h | ⟨_, _, _, -, -, -, h⟩ <;> rw [run, h]
  | defineLabel | offset | beginHandler => exact .inl rfl

/-- A call that asks for the offset, or writes it down, keeps what is in front of it. -/
theorem pinned_stageAt_succ (h : calls[n]? = some call)
    (known : call = .offset ∨ (∃ l, call = .mark l) ∨ ∃ span, call = .sequencePoint span) :
    (stageAt calls (n + 1)).pinned = (stageAt calls n).offset := by
  rw [stageAt_succ h]
  rcases known with rfl | ⟨l, rfl⟩ | ⟨span, rfl⟩
  · rfl
  · exact Assembler.pinned_mark
  · rfl

/-- **Every offset that is known outside is kept.** -/
theorem Recorded.le_pinned (h : Recorded calls n o) (defined : OnDefined calls) :
    o ≤ (stageAt calls n).pinned := by
  cases h with
  | @answered m hm hmn =>
    rw [← pinned_stageAt_succ hm (.inl rfl)]
    exact (kept_stageAt hmn).1
  | @label l o placed =>
    obtain ⟨k, hk, first, rfl⟩ := (placedAt_iff defined).mp placed
    rw [← pinned_stageAt_succ first.1 (.inr (.inl ⟨l, rfl⟩))]
    exact (kept_stageAt hk).1
  | @point point hpoint =>
    induction n with
    | zero => simp [stageAt, Assembler.empty] at hpoint
    | succ n ih =>
      have later := (pinned_stageAt calls n).2
      cases hcall : calls[n]? with
      | none =>
        rw [stageAt_succ_of_none hcall] at hpoint ⊢
        exact ih hpoint
      | some call =>
        rw [stageAt_succ hcall] at hpoint
        rcases sequencePoints_run call (stageAt calls n) with same | ⟨span, rfl, more⟩
        · rw [same] at hpoint
          exact Nat.le_trans (ih hpoint) later
        · rw [more, Array.mem_push] at hpoint
          rcases hpoint with old | rfl
          · exact Nat.le_trans (ih old) later
          · exact Nat.le_of_eq (pinned_stageAt_succ hcall (.inr (.inr ⟨span, rfl⟩))).symm

/-- **What is in front of a known offset stays.** -/
theorem recorded_kept (defined : OnDefined calls) (h : Recorded calls m o) (hmn : m ≤ n) :
    o ≤ (stageAt calls n).offset ∧
      ∀ i < o, (stageAt calls n).code[i]? = (stageAt calls m).code[i]? := by
  obtain ⟨grows, same⟩ := @kept_stageAt calls m n hmn
  have kept := h.le_pinned defined
  exact ⟨Nat.le_trans kept (Nat.le_trans grows (pinned_stageAt calls n).1), fun i hi =>
    same i (Nat.lt_of_lt_of_le hi kept)⟩

/-! ## Depths -/

/-- A fault is never taken back. -/
theorem fault_run (h : (call.run asm).fault = none) : asm.fault = none := by
  cases call with
  | emit => exact (Assembler.fault_emit h).1
  | branch => exact (Assembler.fault_branch h).1
  | mark => exact (Assembler.fault_mark h).1
  | elide => exact Assembler.fault_elide.symm.trans h
  | defineLabel | offset | sequencePoint | beginHandler => exact h

theorem fault_stageAt (h : (stageAt calls n).fault = none) (hmn : m ≤ n) :
    (stageAt calls m).fault = none := by
  induction n, hmn using Nat.le_induction with
  | base => exact h
  | succ n _ ih =>
    cases hcall : calls[n]? with
    | none => exact ih (by rwa [stageAt_succ_of_none hcall] at h)
    | some call => exact ih (fault_run (by rwa [stageAt_succ hcall] at h))

/-- Without a fault the depth at a label is known from the first branch or the mark on, and stays
the same. -/
theorem depth_label_run (hf : (call.run asm).fault = none)
    (defined : ∀ k, call.label? = some k → k < asm.labels.size)
    (known : (asm.label l).depth = some d) : ((call.run asm).label l).depth = some d := by
  cases call with
  | mark k =>
    obtain ⟨-, -, agrees, -⟩ := Assembler.fault_mark hf
    rw [run, Assembler.label_mark (defined k rfl) hf]
    split
    case isTrue hl => exact congrArg some (agrees d (hl ▸ known)).symm
    case isFalse => exact known
  | branch kind k =>
    obtain ⟨-, -, agrees⟩ := Assembler.fault_branch hf
    rw [run, Assembler.label_branch (defined k rfl) hf]
    split
    case isTrue hl => exact congrArg some (agrees d (hl ▸ known)).symm
    case isFalse => exact known
  | defineLabel => rwa [run, Assembler.label_defineLabel]
  | elide k => rwa [run, Assembler.label_elide]
  | emit i => rwa [run, Assembler.label_emit]
  | offset | sequencePoint | beginHandler => exact known

/-- Behind a branch to a label, or the label itself, the depth is that of the label. -/
theorem depth_stageAt_succ (defined : OnDefined calls)
    (hf : (stageAt calls (n + 1)).fault = none)
    (h : calls[n]? = some (.mark l) ∨ ∃ kind, calls[n]? = some (.branch kind l)) :
    ((stageAt calls (n + 1)).label l).depth = some (stageAt calls (n + 1)).depth := by
  rcases h with h | ⟨kind, h⟩
  · rw [stageAt_succ h] at hf ⊢
    rw [run, Assembler.label_mark (defined n _ l h rfl) hf, if_pos rfl, Assembler.depth_mark hf]
  · rw [stageAt_succ h] at hf ⊢
    rw [run, Assembler.label_branch (defined n _ l h rfl) hf, if_pos rfl, Assembler.depth_branch]

/-- **Without a fault all branches to a label agree on the depth**, with one another and with the
label. -/
theorem depth_label_stageAt (defined : OnDefined calls) (hf : (stageAt calls n).fault = none)
    (hmn : m ≤ n) (known : ((stageAt calls m).label l).depth = some d) :
    ((stageAt calls n).label l).depth = some d := by
  induction n, hmn using Nat.le_induction with
  | base => exact known
  | succ n _ ih =>
    have before := ih (fault_stageAt hf (Nat.le_succ n))
    cases hcall : calls[n]? with
    | none => rwa [stageAt_succ_of_none hcall]
    | some call =>
      rw [stageAt_succ hcall] at hf ⊢
      exact depth_label_run hf (fun k hk => defined n call k hcall hk) before

/-! ## Finished code -/

theorem faithful_of_finish (defined : OnDefined calls)
    (h : (stageAt calls calls.length).finish max = .ok out) : Faithful calls out := by
  obtain ⟨hf, resolved, -, -⟩ := Assembler.finish_cases h
  obtain ⟨ordered, members⟩ := waits_stageAt calls calls.length
  have distinct : ((stageAt calls calls.length).fixups.toList.map (·.1)).Nodup :=
    List.pairwise_map.mpr (ordered.imp Nat.ne_of_lt)
  obtain ⟨size, same, targets⟩ := Assembler.resolve_spec distinct resolved
  refine ⟨fun i => ?_, fun m i kind l hm wrote => ?_, fun m i instruction hm wrote => ?_,
    fun l => ?_⟩
  · rw [size]
    refine ⟨exists_wrote, ?_⟩
    rintro ⟨m, wrote⟩
    exact wrote.lt_offset
  · obtain ⟨t, placed, target⟩ :=
      targets i l (Array.mem_toList_iff.mpr ((members i l).mpr ⟨m, kind, hm, wrote⟩))
    obtain ⟨k, -, first, rfl⟩ := (placedAt_iff defined).mp placed
    refine ⟨k, first, ?_⟩
    rw [target, wrote.getElem?, writtenAt, hm]
    cases kind <;> rfl
  · rw [same i fun l waits => ?_, wrote.getElem?, writtenAt, hm]
    · rfl
    · obtain ⟨m', kind, hm', wrote'⟩ := (members i l).mp (Array.mem_toList_iff.mp waits)
      rw [wrote.unique wrote', hm'] at hm
      cases hm
  · refine ⟨((stageAt calls calls.length).label l).depth.getD 0, fun n hn => ?_⟩
    have inside : n < calls.length := by
      rcases hn with hn | ⟨_, hn⟩ <;> exact (List.getElem?_eq_some_iff.mp hn).1
    have known := depth_stageAt_succ defined (fault_stageAt hf inside) hn
    rw [depth_label_stageAt defined hf inside known, Option.getD_some]

/-- **No sequence of calls corrupts the code**, in whatever order they come. An offset that is known
outside lies inside the code ever after, and what is in front of it stays. Only a jump to the label
that is asked for is ever taken back, the last instruction, behind all known offsets. The branches
that wait are in the order of the code, and they are those that have been written and not taken
back. In finished code each of them goes to where its label was first put, all other instructions
are as they were written, and the branches to a label agree on the depth of the stack with one
another and with the label. -/
theorem stream_uncorrupted (calls : List AssemblerCall) (defined : OnDefined calls) :
    (∀ m n o, m ≤ n → Recorded calls m o → o ≤ (stageAt calls n).offset ∧
      ∀ i < o, (stageAt calls n).code[i]? = (stageAt calls m).code[i]?) ∧
    (∀ m n i, Wrote calls m n i → ¬ Wrote calls m (n + 1) i →
      ∃ l, calls[n]? = some (.elide l) ∧ calls[m]? = some (.branch .always l) ∧
        (stageAt calls n).offset = i + 1 ∧ ∀ o, Recorded calls n o → o ≤ i) ∧
    (∀ n, ((stageAt calls n).fixups.toList.Pairwise fun x y => x.1 < y.1) ∧
      (∀ i l, (i, l) ∈ (stageAt calls n).fixups ↔
        ∃ m kind, calls[m]? = some (.branch kind l) ∧ Wrote calls m n i) ∧
      ∀ m i kind l, calls[m]? = some (.branch kind l) → Wrote calls m n i →
        (stageAt calls n).code[i]? = some (kind.instruction 0)) ∧
    ∀ maxLocals out, (stageAt calls calls.length).finish maxLocals = .ok out →
      Faithful calls out := by
  refine ⟨fun m n o hmn recorded => recorded_kept defined recorded hmn, fun m n i wrote gone => ?_,
    fun n => ?_, fun maxLocals out h => faithful_of_finish defined h⟩
  · obtain ⟨l, elides, branches, last, hp⟩ := wrote.taken_back gone
    exact ⟨l, elides, branches, last, fun o recorded =>
      Nat.le_trans (recorded.le_pinned defined) hp⟩
  · obtain ⟨ordered, members⟩ := waits_stageAt calls n
    refine ⟨ordered, members, fun m i kind l hm wrote => ?_⟩
    rw [wrote.getElem?, writtenAt, hm]
    rfl

/-- One jump is taken back, one stays because the offset behind it is known, and one has a target of
its own. -/
def mixedJumps : List AssemblerCall :=
  [.defineLabel, .defineLabel, .emit (.loadBool true), .branch .ifFalse 0, .branch .always 1,
    .elide 1, .mark 1, .branch .always 0, .offset, .elide 0, .emit (.jump 7), .mark 0,
    .emit .loadNull, .emit .return]

theorem stream_uncorrupted_mixedJumps :
    OnDefined mixedJumps ∧ ∃ out, (stageAt mixedJumps mixedJumps.length).finish 0 = .ok out ∧
      out.code = #[.loadBool true, .jumpIfFalse 4, .jump 4, .jump 7, .loadNull, .return] ∧
      Faithful mixedJumps out := by
  have defined : OnDefined mixedJumps := by
    intro n call l h hl
    have hn : n < 14 := (List.getElem?_eq_some_iff.mp h).1
    interval_cases n <;> cases h <;> cases hl <;> decide
  obtain ⟨-, -, -, faithful⟩ := stream_uncorrupted mixedJumps defined
  exact ⟨defined, _, rfl, rfl, faithful 0 _ rfl⟩

end AssemblerCall

end StackScript
