import StackScript.Proofs.Writing.Growth

/-!
# From a stage to the finished code

What has been written stays: of the instructions of a stage only a last jump may be missing later,
and then its label is where the jump was. So finished code has every instruction of every stage,
its branches with the offsets of their labels.

## Main definitions

* `Assembler.Kept`: a stage inside a later one

## Main results

* `Assembler.Evolves.kept`: every stage is kept
* `Assembler.finish_targets`: the branches of finished code end inside it
* `Assembler.exists_finish`: code without a fault whose branches all have a place is finished
* `Assembler.Kept.instruction`, `Assembler.Kept.branch`: a stage inside finished code
-/

namespace StackScript.Assembler

variable {a b asm fin : Assembler} {out : Assembled} {i : Instruction} {kind : BranchKind}
  {l : Label} {n o max : Nat}

/-! ## What is kept -/

/-- A stage of the code is part of a later one. -/
structure Kept (a b : Assembler) : Prop where
  /-- An instruction stays, or is a jump to a label that had no place and has come in its place. -/
  code : ∀ n i, a.code[n]? = some i →
    b.code[n]? = some i ∧ (∀ l, a.Awaits n l ↔ b.Awaits n l) ∨
      i = .jump 0 ∧ ∀ l, a.Awaits n l → b.PlacedAt l n ∧ ∀ o, ¬ a.PlacedAt l o
  placed : ∀ l o, a.PlacedAt l o → b.PlacedAt l o
  slots : a.slots.Within b.slots

namespace Kept

theorem refl (asm : Assembler) : Kept asm asm where
  code _ _ h := .inl ⟨h, fun _ => Iff.rfl⟩
  placed _ _ h := h
  slots := .refl _

theorem trans {c : Assembler} (h : Kept a b) (h' : Kept b c) : Kept a c where
  code n i hi := by
    obtain ⟨hb, hw⟩ | ⟨rfl, hl⟩ := h.code n i hi
    · obtain ⟨hc, hw'⟩ | ⟨rfl, hl⟩ := h'.code n i hb
      · exact .inl ⟨hc, fun l => (hw l).trans (hw' l)⟩
      · refine .inr ⟨rfl, fun l waits => ?_⟩
        obtain ⟨here, new⟩ := hl l ((hw l).mp waits)
        exact ⟨here, fun o ho => new o (h.placed l o ho)⟩
    · refine .inr ⟨rfl, fun l waits => ?_⟩
      obtain ⟨here, new⟩ := hl l waits
      exact ⟨h'.placed _ _ here, new⟩
  placed l o ho := h'.placed _ _ (h.placed _ _ ho)
  slots := h.slots.trans h'.slots

end Kept

theorem kept_emit : Kept asm (asm.emit i) where
  code n j hj := by
    refine .inl ⟨?_, fun l => by simp [Awaits]⟩
    have hlt : n < asm.code.size := (Array.getElem?_eq_some_iff.mp hj).1
    rw [code_emit, Array.getElem?_push, if_neg (Nat.ne_of_lt hlt), hj]
  placed l o h := by simpa [PlacedAt] using h
  slots := by simpa using Slots.Within.refl _

theorem kept_branch (hl : l < asm.labels.size) (hf : (asm.branch kind l).fault = none) :
    Kept asm (asm.branch kind l) where
  code n j hj := by
    have hlt : n < asm.code.size := (Array.getElem?_eq_some_iff.mp hj).1
    refine .inl ⟨?_, fun k => ?_⟩
    · rw [code_branch, Array.getElem?_push, if_neg (Nat.ne_of_lt hlt), hj]
    · simp only [Awaits, fixups_branch, Array.mem_push, Prod.mk.injEq]
      exact ⟨.inl, fun h => h.resolve_right fun h => Nat.ne_of_lt hlt h.1⟩
  placed k o h := by
    rw [PlacedAt, label_branch hl hf]
    by_cases hk : k = l
    · rw [if_pos hk, ← hk]
      exact h
    · rwa [if_neg hk]
  slots := by simpa using Slots.Within.refl _

theorem kept_mark (hl : l < asm.labels.size) (hf : (asm.mark l).fault = none) :
    Kept asm (asm.mark l) where
  code n j hj := .inl ⟨by simpa using hj, fun k => by simp [Awaits]⟩
  placed k o h := by
    rw [PlacedAt, label_mark hl hf]
    by_cases hk : k = l
    · obtain ⟨-, ho, -⟩ := fault_mark hf
      rw [hk, PlacedAt, ho] at h
      cases h
    · rwa [if_neg hk]
  slots := by simpa using Slots.Within.refl _

theorem kept_place (hs : asm.Sound) (hl : l < asm.labels.size)
    (hf : (asm.place l).fault = none) : Kept asm (asm.place l) := by
  have hl' : l < (asm.elide l).labels.size := by simpa using hl
  obtain h | ⟨t, code, fixups, hcode, hfixups, -, h⟩ := elide_cases asm l
  · simpa only [place, h] using kept_mark hl (by simpa only [place, h] using hf)
  · have kept := kept_mark hl' hf
    have waits {n k} (hn : (n, k) ∈ fixups) : n < code.size := by
      have ordered := hs.ordered
      rw [hfixups, Array.toList_push, List.pairwise_append] at ordered
      exact ordered.2.2 _ (Array.mem_toList_iff.mpr hn) _ (List.mem_singleton.mpr rfl)
    refine ⟨fun n j hj => ?_, fun k o hk => kept.placed k o (by simpa [PlacedAt] using hk), ?_⟩
    · rw [hcode, Array.getElem?_push] at hj
      by_cases hn : n = code.size
      · -- The jump that is taken back: its label comes where it was.
        rw [if_pos hn] at hj
        subst hn
        have hw : asm.Awaits code.size l := by
          rw [Awaits, hfixups]
          exact Array.mem_push_self
        obtain ⟨-, kind, hkind⟩ := hs.waiting hw
        rw [hcode, Array.getElem?_push_size] at hkind
        refine .inr ⟨?_, fun k hk => ?_⟩
        · cases hj
          cases kind <;> cases hkind
          rfl
        · cases hs.awaits_unique hk hw
          refine ⟨by rw [place, PlacedAt, label_mark hl' hf, if_pos rfl, h], fun o ho => ?_⟩
          obtain ⟨-, new, -⟩ := fault_mark hf
          have ho : ((asm.elide l).label l).offset = some o := by simpa [PlacedAt] using ho
          rw [ho] at new
          cases new
      · rw [if_neg hn] at hj
        refine .inl ⟨?_, fun k => ?_⟩
        · rw [place, code_mark, h]
          exact hj
        · simp only [Awaits, place, fixups_mark, h, hfixups, Array.mem_push, Prod.mk.injEq]
          exact ⟨fun hk => hk.resolve_right fun hk => hn hk.1, .inl⟩
    · simpa [place] using Slots.Within.refl _

/-- A step keeps what has been written. -/
theorem Write.kept (h : Write a b) (hs : a.Sound) (hf : b.fault = none) : Kept a b := by
  cases h with
  | emit => exact kept_emit
  | defineLabel =>
    exact ⟨fun n i hi => .inl ⟨hi, fun _ => Iff.rfl⟩, fun l o h => by simpa [PlacedAt] using h,
      .refl _⟩
  | branch hl => exact kept_branch hl hf
  | mark hl => exact kept_mark hl hf
  | place hl => exact kept_place hs hl hf
  | pin | sequencePoint | beginHandler =>
    exact ⟨fun n i hi => .inl ⟨hi, fun _ => Iff.rfl⟩, fun l o h => h, .refl _⟩
  | serve hslots =>
    exact ⟨fun n i hi => .inl ⟨hi, fun _ => Iff.rfl⟩, fun l o h => h, hslots.within⟩

/-- **Every stage is kept.** -/
theorem Evolves.kept (h : Evolves a b) (hs : a.Sound) (hf : b.fault = none) : Kept a b := by
  induction h with
  | refl => exact .refl _
  | tail h step ih =>
    have hf' := step.fault hf
    exact (ih hf').trans (step.kept (Evolves.sound h hs hf') hf)

/-! ## Resolved branches -/

/-- What resolving branches does to the code, each instruction having one label at most. -/
theorem resolve_spec {labels : Label → LabelState} {code code' : Array Instruction}
    {fixups : List (Nat × Label)} (distinct : (fixups.map (·.1)).Nodup)
    (h : resolve labels code fixups = .ok code') :
    code'.size = code.size ∧
      (∀ n, (∀ l, (n, l) ∉ fixups) → code'[n]? = code[n]?) ∧
      ∀ n l, (n, l) ∈ fixups →
        ∃ t, (labels l).offset = some t ∧ code'[n]? = code[n]?.map (·.withTarget t) := by
  induction fixups generalizing code with
  | nil =>
    cases h
    exact ⟨rfl, fun _ _ => rfl, fun _ _ h => by simp at h⟩
  | cons fixup rest ih =>
    obtain ⟨index, l⟩ := fixup
    obtain ⟨fresh, distinct⟩ := List.nodup_cons.mp distinct
    have fresh (k : Label) : (index, k) ∉ rest := fun hk =>
      fresh (List.mem_map.mpr ⟨_, hk, rfl⟩)
    unfold resolve at h
    cases ht : (labels l).offset with
    | none => simp [ht] at h
    | some t =>
      rw [ht] at h
      obtain ⟨size, same, target⟩ := ih distinct h
      -- Each of the branches left is at another index than the one that is resolved first.
      refine ⟨by simpa using size, fun n hn => ?_, fun n k hk => ?_⟩
      · rw [same n fun k hk => hn k (List.mem_cons_of_mem _ hk), Array.getElem?_modify, if_neg]
        rintro rfl
        exact hn l List.mem_cons_self
      · rcases List.mem_cons.mp hk with hk | hk
        · cases hk
          refine ⟨t, ht, ?_⟩
          rw [same index fresh, Array.getElem?_modify, if_pos rfl]
        · obtain ⟨t', ht', hcode⟩ := target n k hk
          refine ⟨t', ht', ?_⟩
          rw [hcode, Array.getElem?_modify, if_neg]
          rintro rfl
          exact fresh k hk

/-- Branches that all have a place to go to get their targets. -/
theorem exists_resolve {labels : Label → LabelState} {fixups : List (Nat × Label)}
    (h : ∀ fixup ∈ fixups, ∃ o, (labels fixup.2).offset = some o) (code : Array Instruction) :
    ∃ code', resolve labels code fixups = .ok code' := by
  induction fixups generalizing code with
  | nil => exact ⟨code, rfl⟩
  | cons fixup rest ih =>
    obtain ⟨o, ho⟩ := h fixup List.mem_cons_self
    unfold resolve
    rw [ho]
    exact ih (fun other hm => h other (List.mem_cons_of_mem _ hm)) _

/-- The branches of an assembler that all have a place to go get their targets. -/
theorem exists_resolved (hw : ∀ n l, asm.Awaits n l → ∃ o, asm.PlacedAt l o) :
    ∃ code, resolve asm.label asm.code asm.fixups.toList = .ok code :=
  exists_resolve (fun fixup hm => hw fixup.1 fixup.2 (Array.mem_toList_iff.mp hm)) asm.code

/-- **Code without a fault is finished** if every branch has a place to go to, and there are no more
slots than there may be. -/
theorem exists_finish (hf : asm.fault = none)
    (hw : ∀ n l, asm.Awaits n l → ∃ o, asm.PlacedAt l o) (hmax : asm.slots.size ≤ max) :
    ∃ out, asm.finish max = .ok out := by
  obtain ⟨code, hcode⟩ := exists_resolved hw
  unfold finish
  rw [hf]
  simp only [hcode, if_neg (Nat.not_lt.mpr hmax)]
  exact ⟨_, rfl⟩

/-- Too many slots are the only other end of such code. -/
theorem finish_of_lt (hf : asm.fault = none)
    (hw : ∀ n l, asm.Awaits n l → ∃ o, asm.PlacedAt l o) (hmax : max < asm.slots.size) :
    asm.finish max = .error (.capacity .local asm.slots.size max) := by
  obtain ⟨code, hcode⟩ := exists_resolved hw
  unfold finish
  rw [hf]
  simp only [hcode, if_pos hmax]

/-- What finished code is made of. -/
theorem finish_cases (h : fin.finish max = .ok out) :
    fin.fault = none ∧ resolve fin.label fin.code fin.fixups.toList = .ok out.code ∧
      out.maxStack = fin.maxStack ∧ out.locals = fin.slots.slots := by
  unfold finish at h
  split at h
  · cases h
  case h_2 hf =>
    split at h
    · cases h
    case h_2 code hr =>
      split at h
      · cases h
      · cases h
        exact ⟨hf, hr, rfl, rfl⟩

/-- Finished code lists the call sites that were written. -/
theorem finish_callSites (h : fin.finish max = .ok out) :
    out.callSites = fin.callSites.toList := by
  unfold finish at h
  split at h
  · cases h
  · split at h
    · cases h
    · split at h <;> cases h
      rfl

/-- Finished code lists the places of the source that were marked. -/
theorem finish_sequencePoints (h : fin.finish max = .ok out) :
    out.sequencePoints = fin.sequencePoints.toList := by
  unfold finish at h
  split at h
  · cases h
  · split at h
    · cases h
    · split at h <;> cases h
      rfl

theorem Sound.distinct (hs : asm.Sound) : (asm.fixups.toList.map (·.1)).Nodup :=
  List.pairwise_map.mpr (hs.ordered.imp Nat.ne_of_lt)

theorem finish_size (hs : fin.Sound) (h : fin.finish max = .ok out) :
    out.code.size = fin.code.size :=
  (resolve_spec hs.distinct (finish_cases h).2.1).1

/-- A branch of finished code is one that waits for the label that has its target. -/
theorem finish_branch (hs : fin.Sound) (h : fin.finish max = .ok out) {t : Nat}
    (hi : out.code[n]? = some i) (ht : i.target? = some t) :
    ∃ l kind, fin.Awaits n l ∧ fin.PlacedAt l t ∧
      fin.code[n]? = some (BranchKind.instruction kind 0) ∧ i = kind.instruction t := by
  obtain ⟨-, same, target⟩ := resolve_spec hs.distinct (finish_cases h).2.1
  by_cases hw : ∃ l, fin.Awaits n l
  · obtain ⟨l, hw⟩ := hw
    obtain ⟨o, ho, hcode⟩ := target n l (Array.mem_toList_iff.mpr hw)
    obtain ⟨-, kind, hkind⟩ := hs.waiting hw
    rw [hkind, hi] at hcode
    cases hcode
    have ht : o = t := by cases kind <;> exact Option.some.inj ht
    subst ht
    refine ⟨l, kind, hw, ho, hkind, ?_⟩
    cases kind <;> rfl
  · rw [same n fun l hl => hw ⟨l, Array.mem_toList_iff.mp hl⟩] at hi
    exact (hw (hs.branches hi (by simp [ht]))).elim

/-- All other instructions are those that were written. -/
theorem finish_instruction (hs : fin.Sound) (h : fin.finish max = .ok out)
    (hi : out.code[n]? = some i) (ht : i.target? = none) : fin.code[n]? = some i := by
  obtain ⟨-, same, target⟩ := resolve_spec hs.distinct (finish_cases h).2.1
  rw [← hi]
  refine (same n fun l hl => ?_).symm
  obtain ⟨o, -, hcode⟩ := target n l hl
  obtain ⟨-, kind, hkind⟩ := hs.waiting (Array.mem_toList_iff.mp hl)
  rw [hkind, hi] at hcode
  cases hcode
  cases kind <;> cases ht

/-- Finished code holds control where the code that was written does. -/
theorem finish_isTransfer (hs : fin.Sound) (h : fin.finish max = .ok out) (n : Nat) :
    out.code[n]?.map (·.isTransfer) = fin.code[n]?.map (·.isTransfer) := by
  obtain ⟨-, same, target⟩ := resolve_spec hs.distinct (finish_cases h).2.1
  by_cases hw : ∃ l, fin.Awaits n l
  · obtain ⟨l, hw⟩ := hw
    obtain ⟨o, -, hcode⟩ := target n l (Array.mem_toList_iff.mpr hw)
    obtain ⟨-, kind, hkind⟩ := hs.waiting hw
    rw [hcode, hkind]
    cases kind <;> rfl
  · rw [same n fun l hl => hw ⟨l, Array.mem_toList_iff.mp hl⟩]

/-- **The branches of finished code end inside it**, if control does not reach the end. -/
theorem finish_targets (hs : fin.Sound) (hr : fin.reachable = false)
    (h : fin.finish max = .ok out) {t : Nat} (hi : out.code[n]? = some i)
    (ht : i.target? = some t) : t < out.code.size := by
  obtain ⟨l, -, -, ho, -⟩ := finish_branch hs h hi ht
  obtain ⟨-, hlt | ⟨-, hend⟩⟩ := hs.placed ho
  · rw [finish_size hs h]
    exact hlt
  · rw [hr] at hend
    cases hend

/-- Every instruction of a stage that is no branch is in the finished code. -/
theorem Kept.instruction (hk : Kept asm fin) (hs : fin.Sound) (h : fin.finish max = .ok out)
    (hi : asm.code[n]? = some i) (ht : i.target? = none) : out.code[n]? = some i := by
  obtain ⟨hn, -⟩ | ⟨rfl, -⟩ := hk.code n i hi
  · obtain ⟨-, same, -⟩ := resolve_spec hs.distinct (finish_cases h).2.1
    rw [same n fun l hl => hs.not_awaits hn ht (Array.mem_toList_iff.mp hl), hn]
  · cases ht

/-- **Every branch of a stage is in the finished code**, with the offset of its label; a jump may
be missing where its label is. -/
theorem Kept.branch (hk : Kept asm fin) (hs : fin.Sound) (h : fin.finish max = .ok out)
    (hi : asm.code[n]? = some (kind.instruction 0)) (hw : asm.Awaits n l) :
    ∃ t, fin.PlacedAt l t ∧
      (out.code[n]? = some (kind.instruction t) ∨ kind = .always ∧ t = n) := by
  obtain ⟨hn, hw'⟩ | ⟨hjump, hl⟩ := hk.code n _ hi
  · obtain ⟨-, -, target⟩ := resolve_spec hs.distinct (finish_cases h).2.1
    obtain ⟨t, ht, hcode⟩ := target n l (Array.mem_toList_iff.mpr ((hw' l).mp hw))
    refine ⟨t, ht, .inl ?_⟩
    rw [hcode, hn]
    cases kind <;> rfl
  · refine ⟨n, (hl l hw).1, .inr ⟨?_, rfl⟩⟩
    cases kind <;> cases hjump
    rfl

/-- A branch to a label that has its place already is never missing. -/
theorem Kept.branch_of_placed (hk : Kept asm fin) (hs : fin.Sound) (h : fin.finish max = .ok out)
    (hi : asm.code[n]? = some (kind.instruction 0)) (hw : asm.Awaits n l)
    (ho : asm.PlacedAt l o) : out.code[n]? = some (kind.instruction o) := by
  obtain ⟨hn, hw'⟩ | ⟨-, hl⟩ := hk.code n _ hi
  · obtain ⟨-, same, target⟩ := resolve_spec hs.distinct (finish_cases h).2.1
    obtain ⟨t, ht, hcode⟩ := target n l (Array.mem_toList_iff.mpr ((hw' l).mp hw))
    obtain rfl : t = o := PlacedAt.unique ht (hk.placed l o ho)
    rw [hcode, hn]
    cases kind <;> rfl
  · exact ((hl l hw).2 o ho).elim

end StackScript.Assembler
