import Mathlib.Data.List.Nodup
import StackScript.Proofs.Writing.Assembly
import StackScript.Proofs.Writing.Slots

/-!
# Writing step by step

All code is written by a few kinds of steps, and only a jump to a label that comes next is ever
taken back. What holds of every stage of the code is shown for each kind of step once.

Control that comes to a label goes on through the code behind it, up to a transfer of control or to
the end of the code. So where the assembler says that control does not reach the end, a transfer
stands behind every label.

## Main definitions

* `Assembler.Write`, `Assembler.Evolves`: a step of writing, and any number of them
* `Assembler.Sound`: the branches, the labels and the offsets of a stage fit together
* `TransferIn`: a transfer of control between two offsets
* `Assembler.Held`: how far control comes from an offset
* `Assembler.Grown`: what writing does to code that is kept

## Main results

* `Assembler.Evolves.sound`: every stage is sound
* `Assembler.Evolves.fault`: a fault is never taken back
* `Assembler.Evolves.grown`: all writing is of this kind
-/

namespace StackScript

namespace Assembler

/-! ## Steps -/

/-- A step of writing. Only `branch` writes instructions with a target, and a handler starts
where no control comes from above and no code is taken back. -/
inductive Write : Assembler → Assembler → Prop where
  | emit {asm i} : i.target? = none → Write asm (asm.emit i)
  | defineLabel {asm} : Write asm asm.defineLabel.2
  | branch {asm kind l} : l < asm.labels.size → Write asm (asm.branch kind l)
  | mark {asm l} : l < asm.labels.size → Write asm (asm.mark l)
  | place {asm l} : l < asm.labels.size → Write asm (asm.place l)
  | pin {asm} : Write asm asm.pin
  | beginHandler {asm depth} :
      asm.reachable = false → asm.pinned = asm.code.size → Write asm (asm.beginHandler depth)
  | sequencePoint {asm span} : Write asm (asm.sequencePoint span)
  | serve {asm slots} : asm.slots.Serve slots → Write asm { asm with slots }

/-- Any number of steps of writing. -/
def Evolves : Assembler → Assembler → Prop := Relation.ReflTransGen Write

variable {a b asm : Assembler} {i : Instruction} {kind : BranchKind} {l k : Label} {n o : Nat}

namespace Evolves

theorem refl (asm : Assembler) : Evolves asm asm := Relation.ReflTransGen.refl

theorem trans {c : Assembler} (h : Evolves a b) (h' : Evolves b c) : Evolves a c :=
  Relation.ReflTransGen.trans h h'

theorem single (h : Write a b) : Evolves a b := Relation.ReflTransGen.single h

end Evolves

/-- A step takes no fault back. -/
theorem Write.fault (h : Write a b) (hb : b.fault = none) : a.fault = none := by
  cases h with
  | emit => exact (fault_emit hb).1
  | branch => exact (fault_branch hb).1
  | mark => exact (fault_mark hb).1
  | place => exact fault_elide.symm.trans (fault_mark hb).1
  | defineLabel | pin | beginHandler | sequencePoint | serve => exact hb

/-- **A fault is never taken back.** -/
theorem Evolves.fault (h : Evolves a b) (hb : b.fault = none) : a.fault = none := by
  induction h with
  | refl => exact hb
  | tail _ step ih => exact ih (step.fault hb)

/-- No label is ever forgotten. -/
theorem Evolves.labels_le (h : Evolves a b) : a.labels.size ≤ b.labels.size := by
  induction h with
  | refl => exact Nat.le_refl _
  | tail _ step ih =>
    refine Nat.le_trans ih ?_
    cases step <;> simp [place, pin, beginHandler, sequencePoint]

/-- Every slot keeps its number. -/
theorem Evolves.slots_within (h : Evolves a b) : a.slots.Within b.slots := by
  induction h with
  | refl => exact .refl _
  | tail _ step ih =>
    refine ih.trans ?_
    cases step with
    | serve hslots => exact hslots.within
    | emit | branch | mark | place => simpa [place] using Slots.Within.refl _
    | defineLabel | pin | beginHandler | sequencePoint => exact .refl _

/-- Slots stay sound. -/
theorem Evolves.slots_sound (h : Evolves a b) (ha : a.slots.Sound) : b.slots.Sound := by
  induction h with
  | refl => exact ha
  | tail _ step ih =>
    cases step with
    | serve hslots => exact hslots.sound ih
    | emit | branch | mark | place => simpa [place] using ih
    | defineLabel | pin | beginHandler | sequencePoint => exact ih

/-! ## Soundness -/

/-- The branches, the labels and the offsets of a stage of the code fit together. -/
structure Sound (asm : Assembler) : Prop where
  /-- The waiting branches are in the order of the code. -/
  ordered : asm.fixups.toList.Pairwise fun x y => x.1 < y.1
  /-- What waits for a label is a branch, and the label is known. -/
  waiting : ∀ {n l}, asm.Awaits n l →
    l < asm.labels.size ∧ ∃ kind : BranchKind, asm.code[n]? = some (kind.instruction 0)
  /-- Every branch waits for a label. -/
  branches : ∀ {n i}, asm.code[n]? = some i → i.target? ≠ none → ∃ l, asm.Awaits n l
  pinned_le : asm.pinned ≤ asm.code.size
  /-- The place of a label is an instruction, or control reaches the end of the code there. -/
  placed : ∀ {l o}, asm.PlacedAt l o →
    o ≤ asm.pinned ∧ (o < asm.code.size ∨ o = asm.code.size ∧ asm.reachable = true)

theorem Sound.lt (hs : asm.Sound) (h : asm.Awaits n l) : n < asm.code.size := by
  obtain ⟨-, kind, hk⟩ := hs.waiting h
  exact (Array.getElem?_eq_some_iff.mp hk).1

/-- A branch waits for one label only. -/
theorem Sound.awaits_unique (hs : asm.Sound) (h : asm.Awaits n l) (h' : asm.Awaits n k) :
    l = k := by
  have distinct : (asm.fixups.toList.map (·.1)).Nodup :=
    List.pairwise_map.mpr (hs.ordered.imp Nat.ne_of_lt)
  have eq := List.inj_on_of_nodup_map distinct (Array.mem_toList_iff.mpr h)
    (Array.mem_toList_iff.mpr h') rfl
  exact congrArg Prod.snd eq

/-- A branch waits for a label exactly if its instruction has a target. -/
theorem Sound.not_awaits (hs : asm.Sound) (hi : asm.code[n]? = some i) (ht : i.target? = none) :
    ¬ asm.Awaits n l := by
  intro h
  obtain ⟨-, kind, hk⟩ := hs.waiting h
  rw [hi] at hk
  cases hk
  cases kind <;> cases ht

theorem sound_empty : empty.Sound where
  ordered := .nil
  waiting h := by simp [Awaits, empty] at h
  branches h := by simp [empty] at h
  pinned_le := Nat.le_refl _
  placed h := by simp [PlacedAt, label, empty] at h

theorem Sound.emit (hs : asm.Sound) (ht : i.target? = none) : (asm.emit i).Sound where
  ordered := by simpa using hs.ordered
  waiting {n l} h := by
    have h : asm.Awaits n l := by simpa [Awaits] using h
    obtain ⟨hl, kind, hk⟩ := hs.waiting h
    refine ⟨by simpa using hl, kind, ?_⟩
    rw [code_emit, Array.getElem?_push_lt (hs.lt h), ← hk, Array.getElem?_eq_getElem (hs.lt h)]
  branches {n j} hj hne := by
    rw [code_emit, Array.getElem?_push] at hj
    split at hj
    · cases hj
      exact (hne ht).elim
    · simpa [Awaits] using hs.branches hj hne
  pinned_le := by
    have := hs.pinned_le
    simp only [pinned_emit, code_emit, Array.size_push]
    omega
  placed {l o} h := by
    have h : asm.PlacedAt l o := by simpa [PlacedAt] using h
    have := hs.pinned_le
    obtain ⟨ho, -⟩ := hs.placed h
    simp only [pinned_emit, code_emit, Array.size_push]
    exact ⟨ho, .inl (by omega)⟩

theorem Sound.branch (hs : asm.Sound) (hl : l < asm.labels.size)
    (hf : (asm.branch kind l).fault = none) : (asm.branch kind l).Sound where
  ordered := by
    rw [fixups_branch, Array.toList_push, List.pairwise_append]
    refine ⟨hs.ordered, List.pairwise_singleton _ _, ?_⟩
    rintro ⟨n, k⟩ hn _ hm
    cases List.mem_singleton.mp hm
    exact hs.lt (Array.mem_toList_iff.mp hn)
  waiting {n k} h := by
    simp only [Awaits, fixups_branch, Array.mem_push] at h
    rw [labels_branch, code_branch]
    rcases h with h | h
    · obtain ⟨hk, kind', hk'⟩ := hs.waiting h
      refine ⟨hk, kind', ?_⟩
      rw [Array.getElem?_push_lt (hs.lt h), ← hk', Array.getElem?_eq_getElem (hs.lt h)]
    · cases h
      exact ⟨hl, kind, Array.getElem?_push_size⟩
  branches {n j} hj hne := by
    simp only [Awaits, fixups_branch, Array.mem_push]
    rw [code_branch, Array.getElem?_push] at hj
    split at hj
    case isTrue hn => exact ⟨l, .inr (by rw [hn])⟩
    case isFalse =>
      obtain ⟨k, hk⟩ := hs.branches hj hne
      exact ⟨k, .inl hk⟩
  pinned_le := by
    have := hs.pinned_le
    simp only [pinned_branch, code_branch, Array.size_push]
    omega
  placed {k o} h := by
    -- The branch notes a depth for its label, which is not a place.
    have h : asm.PlacedAt k o := by
      rw [PlacedAt, label_branch hl hf] at h
      by_cases hk : k = l
      · rw [if_pos hk] at h
        rw [hk]
        exact h
      · rwa [if_neg hk] at h
    have := hs.pinned_le
    obtain ⟨ho, -⟩ := hs.placed h
    simp only [pinned_branch, code_branch, Array.size_push]
    exact ⟨ho, .inl (by omega)⟩

theorem Sound.mark (hs : asm.Sound) (hl : l < asm.labels.size)
    (hf : (asm.mark l).fault = none) : (asm.mark l).Sound where
  ordered := by simpa using hs.ordered
  waiting {n k} h := by simpa using hs.waiting (by simpa [Awaits] using h)
  branches {n j} hj hne := by
    simpa [Awaits] using hs.branches (by simpa using hj) hne
  pinned_le := by simp
  placed {k o} h := by
    rw [PlacedAt, label_mark hl hf] at h
    rw [pinned_mark, code_mark, reachable_mark hf]
    by_cases hk : k = l
    · rw [if_pos hk] at h
      cases h
      exact ⟨Nat.le_refl _, .inr ⟨rfl, rfl⟩⟩
    · rw [if_neg hk] at h
      have := hs.pinned_le
      obtain ⟨ho, -⟩ := hs.placed h
      have hle : o ≤ asm.code.size := by omega
      exact ⟨hle, (Nat.lt_or_eq_of_le hle).imp_right fun h => ⟨h, rfl⟩⟩

/-- A jump that has just been written may be taken back. -/
theorem endsInJumpTo_branch {kind : BranchKind} {k : Label} (le : asm.pinned ≤ asm.code.size) :
    (asm.branch kind k).endsInJumpTo l = true ↔ kind = .always ∧ k = l := by
  rw [endsInJumpTo_iff, code_branch, fixups_branch, pinned_branch, Array.back?_push,
    Array.back?_push, Array.size_push]
  constructor
  · rintro ⟨⟨t, last⟩, waits, -⟩
    cases waits
    cases kind <;> cases last
    exact ⟨rfl, rfl⟩
  · rintro ⟨rfl, rfl⟩
    exact ⟨⟨0, rfl⟩, rfl, Nat.lt_succ_of_le le⟩

/-- A jump that is taken back is the last instruction, and the last branch that waits. -/
theorem elide_cases (asm : Assembler) (l : Label) :
    asm.elide l = asm ∨
      ∃ t code fixups, asm.code = code.push (.jump t) ∧ asm.fixups = fixups.push (code.size, l) ∧
        asm.pinned ≤ code.size ∧ asm.elide l = { asm with code, fixups, reachable := true } := by
  unfold elide
  split
  case isFalse => exact .inl rfl
  case isTrue h =>
    obtain ⟨⟨t, hc⟩, hf, hp⟩ := endsInJumpTo_iff.mp h
    obtain ⟨code, hcode⟩ := Array.back?_eq_some_iff.mp hc
    obtain ⟨fixups, hfixups⟩ := Array.back?_eq_some_iff.mp hf
    rw [hcode, Array.size_push] at hp
    rw [hcode, Array.size_push, Nat.add_sub_cancel] at hfixups
    refine .inr ⟨t, code, fixups, hcode, hfixups, by omega, ?_⟩
    rw [hcode, hfixups, Array.pop_push, Array.pop_push]

theorem Sound.elide (hs : asm.Sound) : (asm.elide l).Sound := by
  obtain h | ⟨t, code, fixups, hcode, hfixups, hpinned, h⟩ := elide_cases asm l
  · rwa [h]
  · have ordered := hs.ordered
    rw [hfixups, Array.toList_push, List.pairwise_append] at ordered
    have waits {n k} (hn : (n, k) ∈ fixups) : n < code.size :=
      ordered.2.2 _ (Array.mem_toList_iff.mpr hn) _ (List.mem_singleton.mpr rfl)
    rw [h]
    refine ⟨ordered.1, ?_, ?_, hpinned, ?_⟩
    · intro n k hn
      obtain ⟨hk, kind, hk'⟩ := hs.waiting (n := n) (l := k) (by
        rw [Awaits, hfixups]
        exact Array.mem_push.mpr (.inl hn))
      refine ⟨hk, kind, ?_⟩
      rwa [hcode, Array.getElem?_push, if_neg (Nat.ne_of_lt (waits hn))] at hk'
    · intro n j hj hne
      have hlt : n < code.size := (Array.getElem?_eq_some_iff.mp hj).1
      obtain ⟨k, hk⟩ := hs.branches (n := n) (i := j) (by
        rwa [hcode, Array.getElem?_push, if_neg (Nat.ne_of_lt hlt)]) hne
      rw [Awaits, hfixups, Array.mem_push] at hk
      rcases hk with hk | hk
      · exact ⟨k, hk⟩
      · cases hk
        exact (Nat.lt_irrefl _ hlt).elim
    · intro k o ho
      obtain ⟨hle, -⟩ := hs.placed (l := k) (o := o) ho
      refine ⟨hle, ?_⟩
      exact (Nat.lt_or_eq_of_le (Nat.le_trans hle hpinned)).imp_right fun h => ⟨h, rfl⟩

/-- A step keeps the code sound. -/
theorem Write.sound (h : Write a b) (hs : a.Sound) (hf : b.fault = none) : b.Sound := by
  cases h with
  | emit ht => exact hs.emit ht
  | defineLabel =>
    refine ⟨hs.ordered, fun h => ?_, hs.branches, hs.pinned_le, fun h => ?_⟩
    · obtain ⟨hl, hk⟩ := hs.waiting h
      refine ⟨?_, hk⟩
      rw [labels_defineLabel]
      exact Nat.lt_succ_of_lt hl
    · exact hs.placed (by simpa [PlacedAt] using h)
  | branch hl => exact hs.branch hl hf
  | mark hl => exact hs.mark hl hf
  | place hl => exact hs.elide.mark (by simpa using hl) hf
  | pin | sequencePoint =>
    refine ⟨hs.ordered, hs.waiting, hs.branches, Nat.le_refl _, fun h => ?_⟩
    obtain ⟨ho, hreach⟩ := hs.placed h
    exact ⟨Nat.le_trans ho hs.pinned_le, hreach⟩
  | beginHandler =>
    refine ⟨hs.ordered, hs.waiting, hs.branches, hs.pinned_le, fun h => ?_⟩
    obtain ⟨ho, hreach⟩ := hs.placed h
    exact ⟨ho, hreach.imp_right fun h => ⟨h.1, rfl⟩⟩
  | serve => exact ⟨hs.ordered, hs.waiting, hs.branches, hs.pinned_le, hs.placed⟩

/-- **Every stage without a fault is sound.** -/
theorem Evolves.sound (h : Evolves a b) (hs : a.Sound) (hf : b.fault = none) : b.Sound := by
  induction h with
  | refl => exact hs
  | tail _ step ih => exact step.sound (ih (step.fault hf)) hf

end Assembler

/-! ## How far control comes -/

section Reach

/-- A transfer of control stands between two offsets. -/
def TransferIn (code : Array Instruction) (start stop : Nat) : Prop :=
  ∃ n i, start ≤ n ∧ n < stop ∧ code[n]? = some i ∧ i.isTransfer = true

theorem TransferIn.mono {code code' : Array Instruction} {start stop stop' : Nat}
    (h : TransferIn code start stop) (hle : stop ≤ stop')
    (hcode : ∀ n < stop, code'[n]? = code[n]?) : TransferIn code' start stop' := by
  obtain ⟨n, i, hstart, hstop, hi, ht⟩ := h
  exact ⟨n, i, hstart, Nat.lt_of_lt_of_le hstop hle, (hcode n hstop).trans hi, ht⟩

namespace Assembler

variable {a b c asm : Assembler} {i : Instruction} {l : Label} {n o : Nat}

/-- Control that comes to the offset comes to the end of the code, or to a transfer in front of
it. -/
structure Held (asm : Assembler) (o : Nat) : Prop where
  pinned : o ≤ asm.pinned
  held : asm.reachable = true ∨ TransferIn asm.code o asm.code.size

/-- Code that is kept stays, labels come behind it, and what holds control goes on holding it. -/
structure Grown (a b : Assembler) : Prop where
  pinned_le : a.pinned ≤ b.pinned
  code : ∀ n < a.pinned, b.code[n]? = a.code[n]?
  placed : ∀ {l o}, b.PlacedAt l o → a.PlacedAt l o ∨ a.pinned ≤ o ∧ b.Held o
  held : ∀ {o}, a.Held o → b.Held o

namespace Grown

theorem refl (asm : Assembler) : Grown asm asm :=
  ⟨Nat.le_refl _, fun _ _ => rfl, .inl, id⟩

theorem trans (h : Grown a b) (h' : Grown b c) : Grown a c where
  pinned_le := Nat.le_trans h.pinned_le h'.pinned_le
  code n hn := (h'.code n (Nat.lt_of_lt_of_le hn h.pinned_le)).trans (h.code n hn)
  placed ho := by
    obtain ho | ⟨hle, ho⟩ := h'.placed ho
    · exact (h.placed ho).imp_right fun ⟨hle, ho⟩ => ⟨hle, h'.held ho⟩
    · exact .inr ⟨Nat.le_trans h.pinned_le hle, ho⟩
  held ho := h'.held (h.held ho)

/-- Nothing is written but what all code is kept by. -/
theorem of_same (hpinned : a.pinned ≤ b.pinned) (hcode : b.code = a.code)
    (hplaced : ∀ l o, b.PlacedAt l o → a.PlacedAt l o)
    (hreachable : a.reachable = true → b.reachable = true) : Grown a b where
  pinned_le := hpinned
  code n _ := by rw [hcode]
  placed ho := .inl (hplaced _ _ ho)
  held h := ⟨Nat.le_trans h.pinned hpinned, h.held.imp hreachable fun ht => hcode ▸ ht⟩

/-- An instruction more. -/
theorem of_push (hs : a.Sound) (hcode : b.code = a.code.push i) (hpinned : b.pinned = a.pinned)
    (hplaced : ∀ l o, b.PlacedAt l o → a.PlacedAt l o)
    (hreachable : b.reachable = (a.reachable && !i.isTransfer)) : Grown a b where
  pinned_le := Nat.le_of_eq hpinned.symm
  code n hn := by
    have hlt : n < a.code.size := Nat.lt_of_lt_of_le hn hs.pinned_le
    rw [hcode, Array.getElem?_push_lt hlt, Array.getElem?_eq_getElem hlt]
  placed ho := .inl (hplaced _ _ ho)
  held {o} h := by
    refine ⟨hpinned ▸ h.pinned, ?_⟩
    rw [hreachable, hcode, Array.size_push]
    obtain hr | ht := h.held
    · cases hi : i.isTransfer
      · exact .inl (by rw [hr]; rfl)
      · refine .inr ⟨a.code.size, i, Nat.le_trans h.pinned hs.pinned_le, Nat.lt_succ_self _, ?_, hi⟩
        exact Array.getElem?_push_size
    · refine .inr (ht.mono (Nat.le_succ _) fun n hn => ?_)
      rw [Array.getElem?_push_lt hn, Array.getElem?_eq_getElem hn]

/-- A label in front of the next instruction, behind code that is kept. -/
theorem of_mark (hpinned : a.pinned ≤ b.code.size) (hend : b.pinned = b.code.size)
    (hcode : ∀ n < a.pinned, b.code[n]? = a.code[n]?) (hreachable : b.reachable = true)
    (hplaced : ∀ {k o}, b.PlacedAt k o → a.PlacedAt k o ∨ o = b.code.size) : Grown a b where
  pinned_le := hend ▸ hpinned
  code := hcode
  placed ho := by
    obtain ho | rfl := hplaced ho
    · exact .inl ho
    · exact .inr ⟨hpinned, Nat.le_of_eq hend.symm, .inl hreachable⟩
  held h := ⟨Nat.le_trans h.pinned (hend ▸ hpinned), .inl hreachable⟩

end Grown

/-- A mark places its label at the end of the code. -/
theorem placedAt_mark {k : Label} (hl : l < asm.labels.size) (hf : (asm.mark l).fault = none)
    (ho : (asm.mark l).PlacedAt k o) : asm.PlacedAt k o ∨ o = (asm.mark l).code.size := by
  rw [PlacedAt, label_mark hl hf] at ho
  rw [code_mark]
  split at ho
  · cases ho
    exact .inr rfl
  · exact .inl ho

/-- Where a label is put, code that is kept stays. -/
theorem code_place (hs : asm.Sound) :
    asm.pinned ≤ (asm.place l).code.size ∧
      ∀ n < asm.pinned, (asm.place l).code[n]? = asm.code[n]? := by
  have code : (asm.place l).code = (asm.elide l).code := code_mark
  rw [code]
  obtain h | ⟨t, code', fixups, hcode, -, hpinned, h⟩ := elide_cases asm l
  · rw [h]
    exact ⟨hs.pinned_le, fun _ _ => rfl⟩
  · rw [h]
    refine ⟨hpinned, fun n hn => ?_⟩
    have hlt : n < code'.size := Nat.lt_of_lt_of_le hn hpinned
    rw [hcode, Array.getElem?_push_lt hlt, Array.getElem?_eq_getElem hlt]

/-- A step of writing keeps what is kept. -/
theorem Write.grown (h : Write a b) (hs : a.Sound) (hf : b.fault = none) : Grown a b := by
  cases h with
  | emit =>
    exact .of_push hs code_emit pinned_emit (fun _ _ h => by simpa [PlacedAt] using h)
      reachable_emit
  | defineLabel =>
    exact .of_same (Nat.le_refl _) rfl (fun _ _ h => by simpa [PlacedAt] using h) id
  | @branch kind l hl =>
    refine .of_push hs code_branch pinned_branch (fun k o h => ?_) reachable_branch
    rw [PlacedAt, label_branch hl hf] at h
    split at h
    case isTrue hk =>
      subst hk
      exact h
    case isFalse => exact h
  | mark hl =>
    exact .of_mark (by simpa using hs.pinned_le) (by simp) (fun n _ => by simp)
      (reachable_mark hf) (placedAt_mark hl hf)
  | @place l hl =>
    obtain ⟨hpinned, hcode⟩ := code_place (l := l) hs
    refine .of_mark hpinned ?_ hcode (reachable_mark hf) fun ho => ?_
    · rw [Assembler.place, pinned_mark, code_mark]
    · refine (placedAt_mark (by simpa using hl) hf ho).imp_left fun ho => ?_
      rwa [PlacedAt, label_elide] at ho
  | pin | sequencePoint => exact .of_same hs.pinned_le rfl (fun _ _ => id) id
  | beginHandler => exact .of_same (Nat.le_refl _) rfl (fun _ _ => id) fun _ => rfl
  | serve => exact .of_same (Nat.le_refl _) rfl (fun _ _ => id) id

/-- **All writing** keeps what is kept, and holds what is held. -/
theorem Evolves.grown (h : Evolves a b) (hs : a.Sound) (hf : b.fault = none) : Grown a b := by
  induction h with
  | refl => exact .refl _
  | tail h step ih =>
    have hf' := step.fault hf
    exact (ih hf').trans (step.grown (Evolves.sound h hs hf') hf)

end Assembler

end Reach

end StackScript
