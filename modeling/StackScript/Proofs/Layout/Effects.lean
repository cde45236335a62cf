import StackScript.Proofs.Layout.Cells

/-!
# What the steps of a layout write

The strokes of a block, the start of a block and the start of a handler by what they do to the
code: the instructions that are new, the branches that wait, the labels that get a place. What
holds of branches and labels is shown from this alone.

## Main definitions

* `Aim`: what a branch that is written aims at
* `Stroke.Effect`, `LayoutState.Begun`: what a stroke and the start of a block write

## Main results

* `Stroke.effect`, `begun_beginBlock`: strokes and starts write just that
-/

namespace StackScript

open Emit Arrange

/-- What a branch that is written aims at: a label inside the block, a block of the same scope or
the exit, or a block that is left to the scope around. -/
inductive Aim (env : LayoutEnv) (scope : Scope) (base : Label) (s : LayoutState) :
    BranchKind → Label → Prop where
  | inner {kind l} : kind ≠ .leave → s.Inner base l → Aim env scope base s kind l
  | jump {kind b l r} : kind ≠ .leave → s.labels.lookup b = some l →
      route env.ranges scope b = .ok r → r = .within ∨ r = .exit → Aim env scope base s kind l
  | leave {b l} : s.labels.lookup b = some l → route env.ranges scope b = .ok .leave →
      b = Graph.exit ∨ b ∈ s.escapes → Aim env scope base s .leave l

/-- The label that a branch aims at is there. -/
theorem Aim.lt {env : LayoutEnv} {scope : Scope} {base l : Label} {s : LayoutState}
    {kind : BranchKind} (h : Aim env scope base s kind l) (hs : s.Ready) :
    l < s.asm.labels.size := by
  cases h with
  | inner _ hl => exact hl.lt
  | jump _ hb => exact hs _ _ hb
  | leave hb => exact hs _ _ hb

/-! ## Strokes -/

/-- What a stroke writes: one instruction at most. -/
structure Stroke.Effect (env : LayoutEnv) (scope : Scope) (base : Label) (s s' : LayoutState) :
    Prop where
  size_le : s'.asm.code.size ≤ s.asm.code.size + 1
  code : ∀ n < s.asm.code.size, s'.asm.code[n]? = s.asm.code[n]?
  waits : ∀ {n l}, s'.asm.Awaits n l → s.asm.Awaits n l ∨ n = s.asm.code.size ∧
    ∃ kind : BranchKind, s'.asm.code[n]? = some (kind.instruction 0) ∧ Aim env scope base s kind l
  ends : s'.asm.code[s.asm.code.size]? = some .endFinally →
    ∃ b, route env.ranges scope b = .ok .endFinally
  placed : ∀ {l o}, s'.asm.PlacedAt l o → s.asm.PlacedAt l o ∨
    s.Inner base l ∧ o = s'.asm.code.size ∧ o ≤ s'.asm.pinned ∧ s'.asm.reachable = true
  /-- Only an instruction ends the reach of control. -/
  reachable : s'.asm.code.size = s.asm.code.size → s.asm.reachable = true →
    s'.asm.reachable = true
  labels : s'.labels = s.labels ∨
    ∃ b, s.labels.lookup b = none ∧ s'.labels = (b, s.asm.labels.size) :: s.labels
  escapes : ∀ b ∈ s.escapes, b ∈ s'.escapes

section Stroke

variable {env : LayoutEnv} {scope : Scope} {base : Label} {s s' : LayoutState}

/-- A stroke that changes no code. -/
theorem effect_of_same (hcode : s'.asm.code = s.asm.code) (hfixups : s'.asm.fixups = s.asm.fixups)
    (hplaced : ∀ l o, s'.asm.PlacedAt l o → s.asm.PlacedAt l o)
    (hreachable : s'.asm.reachable = s.asm.reachable)
    (hlabels : s'.labels = s.labels ∨
      ∃ b, s.labels.lookup b = none ∧ s'.labels = (b, s.asm.labels.size) :: s.labels)
    (hescapes : ∀ b ∈ s.escapes, b ∈ s'.escapes) :
    Stroke.Effect env scope base s s' where
  size_le := by rw [hcode]; exact Nat.le_succ _
  code n _ := by rw [hcode]
  waits h := .inl (by simpa [Assembler.Awaits, hfixups] using h)
  ends h := by
    rw [hcode, Array.getElem?_eq_none (Nat.le_refl _)] at h
    cases h
  placed h := .inl (hplaced _ _ h)
  reachable _ h := hreachable.trans h
  labels := hlabels
  escapes := hescapes

/-- An instruction that is no branch. -/
theorem effect_emit {i : Instruction}
    (hi : i = .endFinally → ∃ b, route env.ranges scope b = .ok .endFinally) :
    Stroke.Effect env scope base s (s.mapAsm (·.emit i)) where
  size_le := by simp [Array.size_push]
  code n hn := by
    simp only [LayoutState.asm_mapAsm, Assembler.code_emit, Array.getElem?_push_lt hn,
      Array.getElem?_eq_getElem hn]
  waits h := .inl (by simpa [Assembler.Awaits] using h)
  ends h := by
    simp only [LayoutState.asm_mapAsm, Assembler.code_emit, Array.getElem?_push_size] at h
    exact hi (Option.some.inj h)
  placed h := .inl (by simpa [Assembler.PlacedAt] using h)
  reachable h := by
    simp [Array.size_push] at h
  labels := .inl rfl
  escapes _ h := h

/-- A branch. -/
theorem effect_branch {kind : BranchKind} {l : Label} (hl : l < s.asm.labels.size)
    (hf : (s.asm.branch kind l).fault = none) (ha : Aim env scope base s kind l) :
    Stroke.Effect env scope base s (s.mapAsm (·.branch kind l)) where
  size_le := by simp [Array.size_push]
  code n hn := by
    simp only [LayoutState.asm_mapAsm, Assembler.code_branch, Array.getElem?_push_lt hn,
      Array.getElem?_eq_getElem hn]
  waits {n k} h := by
    simp only [LayoutState.asm_mapAsm, Assembler.Awaits, Assembler.fixups_branch,
      Array.mem_push] at h
    refine h.imp_right fun he => ?_
    cases he
    refine ⟨rfl, kind, ?_, ha⟩
    simp only [LayoutState.asm_mapAsm, Assembler.code_branch, Array.getElem?_push_size]
  ends h := by
    simp only [LayoutState.asm_mapAsm, Assembler.code_branch, Array.getElem?_push_size] at h
    cases kind <;> cases h
  placed {k o} h := by
    left
    simp only [LayoutState.asm_mapAsm, Assembler.PlacedAt, Assembler.label_branch hl hf] at h
    split at h
    case isTrue hk =>
      subst hk
      exact h
    case isFalse => exact h
  reachable h := by
    simp [Array.size_push] at h
  labels := .inl rfl
  escapes _ h := h

/-- A label of the block that gets its place. -/
theorem effect_mark {l : Label} (hl : s.Inner base l) (hf : (s.asm.mark l).fault = none) :
    Stroke.Effect env scope base s (s.mapAsm (·.mark l)) where
  size_le := by simp
  code n _ := by simp
  waits h := .inl (by simpa [Assembler.Awaits] using h)
  ends h := by simp at h
  placed {k o} h := by
    simp only [LayoutState.asm_mapAsm, Assembler.PlacedAt, Assembler.label_mark hl.lt hf] at h
    split at h
    case isTrue hk =>
      subst hk
      cases h
      right
      refine ⟨hl, by simp, by simp, ?_⟩
      exact Assembler.reachable_mark hf
    case isFalse => exact .inl h
  reachable _ _ := Assembler.reachable_mark hf
  labels := .inl rfl
  escapes _ h := h

/-- **A stroke writes one instruction at most**, aims its branches, and places labels of the
block. -/
theorem Stroke.effect (h : Stroke env scope base s s') (hs : s.Ready)
    (hf : s'.asm.fault = none) : Stroke.Effect env scope base s s' := by
  have same (l o) (h : s.asm.PlacedAt l o) : s.asm.PlacedAt l o := h
  have defined (l o) (h : s.asm.defineLabel.2.PlacedAt l o) : s.asm.PlacedAt l o := by
    simpa [Assembler.PlacedAt] using h
  have kept (b) (h : b ∈ s.escapes) : b ∈ s.escapes := h
  cases h with
  | emit ht hi => exact effect_emit fun he => (hi he).elim
  | endFinally hr => exact effect_emit fun _ => ⟨_, hr⟩
  | branch hk hl => exact effect_branch hl.lt hf (.inner hk hl)
  | jump hk hl hr hroute => exact effect_branch (hs _ _ hl) hf (.jump hk hl hr hroute)
  | leave hl hr hb => exact effect_branch (hs _ _ hl) hf (.leave hl hr hb)
  | mark hl => exact effect_mark hl hf
  | sequencePoint | serve | site | acquire | queue =>
    exact effect_of_same rfl rfl same rfl (.inl rfl) kept
  | escape => exact effect_of_same rfl rfl same rfl (.inl rfl) fun _ => List.mem_append_left _
  | defineLabel => exact effect_of_same rfl rfl defined rfl (.inl rfl) kept
  | label hb => exact effect_of_same rfl rfl defined rfl (.inr ⟨_, hb, rfl⟩) kept

/-- The labels of blocks behind a stroke: those that were there, and perhaps a new one. -/
theorem Stroke.Effect.lookup (h : Stroke.Effect env scope base s s') {b : BlockId} {l : Label}
    (hl : s'.labels.lookup b = some l) :
    s.labels.lookup b = some l ∨ s.labels.lookup b = none ∧ l = s.asm.labels.size := by
  obtain he | ⟨a, ha, he⟩ := h.labels
  · exact .inl (he ▸ hl)
  · rw [he] at hl
    exact forall_lookup_label (P := fun c k => s.labels.lookup c = some k ∨
      s.labels.lookup c = none ∧ k = s.asm.labels.size) (fun _ _ => .inl) (.inr ⟨ha, rfl⟩) b l hl

/-- Two blocks have two labels. -/
theorem injective_cons {labels : List (BlockId × Label)} {n : Label}
    (hlt : ∀ c l, labels.lookup c = some l → l < n)
    (h : ∀ {x y l}, labels.lookup x = some l → labels.lookup y = some l → x = y) {a x y : BlockId}
    {l : Label} (hx : ((a, n) :: labels).lookup x = some l)
    (hy : ((a, n) :: labels).lookup y = some l) : x = y := by
  rw [List.lookup_cons] at hx hy
  split at hx
  case h_1 hxa =>
    cases hx
    split at hy
    case h_1 hya => exact (beq_iff_eq.mp hxa).trans (beq_iff_eq.mp hya).symm
    case h_2 => exact (Nat.lt_irrefl _ (hlt _ _ hy)).elim
  case h_2 =>
    split at hy
    case h_1 =>
      cases hy
      exact (Nat.lt_irrefl _ (hlt _ _ hx)).elim
    case h_2 => exact h hx hy

end Stroke

/-! ## Starts of handlers -/

/-- **The start of a handler** writes one plain instruction at most, and control reaches the end of
it. -/
theorem HandlerHead.effect {kind : HandlerKind} {a a' : Assembler} (h : HandlerHead kind a a') :
    a'.fixups = a.fixups ∧ a'.labels = a.labels ∧ a'.reachable = true ∧
      (a'.code = a.code ∨ ∃ i : Instruction, i.isPlain = true ∧ a'.code = a.code.push i) := by
  cases h with
  | «finally» => exact ⟨rfl, rfl, rfl, .inl rfl⟩
  | @«catch» type _ slots i hslots hp ht =>
    refine ⟨by simp [Assembler.beginHandler, Assembler.pin],
      by simp [Assembler.beginHandler, Assembler.pin], ?_, .inr ⟨i, hp, ?_⟩⟩
    · rw [Assembler.reachable_emit, ht]
      rfl
    · rw [Assembler.code_emit]
      rfl

/-! ## Starts of blocks -/

/-- What the start of a block writes: its label gets its place, and a jump to it that ends the code
is taken back. -/
structure LayoutState.Begun (b : BlockId) (l : Label) (s s' : LayoutState) : Prop where
  name : s'.labels.lookup b = some l
  new : ∀ o, ¬ s.asm.PlacedAt l o
  labels : s'.labels = s.labels ∨
    s.labels.lookup b = none ∧ s'.labels = (b, s.asm.labels.size) :: s.labels
  escapes : s'.escapes = s.escapes
  code : ∀ n < s'.asm.code.size, s'.asm.code[n]? = s.asm.code[n]?
  waits : ∀ {n k}, s'.asm.Awaits n k → s.asm.Awaits n k
  placed : ∀ {k o}, s'.asm.PlacedAt k o → s.asm.PlacedAt k o ∨ k = l ∧ o = s'.asm.code.size
  reachable : s'.asm.reachable = true
  pinned : s'.asm.pinned = s'.asm.code.size
  elided : s'.asm.code.size = s.asm.code.size ∨ s.asm.code.size = s'.asm.code.size + 1 ∧
    s.asm.pinned ≤ s'.asm.code.size ∧ s.asm.Awaits s'.asm.code.size l ∧
    s.asm.code[s'.asm.code.size]? = some (BranchKind.always.instruction 0)

/-- A label in place of a jump to it. -/
theorem place_cases {asm : Assembler} {l : Label} (hs : asm.Sound) :
    (asm.place l).code.size = asm.code.size ∨ asm.code.size = (asm.place l).code.size + 1 ∧
      asm.pinned ≤ (asm.place l).code.size ∧ asm.Awaits (asm.place l).code.size l ∧
      asm.code[(asm.place l).code.size]? = some (BranchKind.always.instruction 0) := by
  have code : (asm.place l).code = (asm.elide l).code := Assembler.code_mark
  rw [code]
  obtain h | ⟨t, code', fixups, hcode, hfixups, hpinned, h⟩ := Assembler.elide_cases asm l
  · exact .inl (by rw [h])
  · have waits : asm.Awaits code'.size l := by
      rw [Assembler.Awaits, hfixups]
      exact Array.mem_push_self
    have jump : asm.code[code'.size]? = some (.jump t) := by
      rw [hcode, Array.getElem?_push_size]
    obtain ⟨-, kind, hkind⟩ := hs.waiting waits
    right
    rw [h]
    refine ⟨by rw [hcode, Array.size_push], hpinned, waits, ?_⟩
    rw [jump] at hkind ⊢
    cases kind <;> cases hkind
    rfl

/-- A label for a block changes no code. -/
structure LayoutState.Named (b : BlockId) (s s' : LayoutState) : Prop where
  code : s'.asm.code = s.asm.code
  fixups : s'.asm.fixups = s.asm.fixups
  pinned : s'.asm.pinned = s.asm.pinned
  escapes : s'.escapes = s.escapes
  label : ∀ k, s'.asm.label k = s.asm.label k
  sound : s'.asm.fault = none → s.asm.Sound → s'.asm.Sound
  labels : s'.labels = s.labels ∨
    s.labels.lookup b = none ∧ s'.labels = (b, s.asm.labels.size) :: s.labels

theorem named_withLabel (s : LayoutState) (b : BlockId) :
    LayoutState.Named b s (s.withLabel b).2 := by
  unfold LayoutState.withLabel
  cases h : s.labels.lookup b with
  | some l => exact ⟨rfl, rfl, rfl, rfl, fun _ => rfl, fun _ => id, .inl rfl⟩
  | none =>
    exact ⟨rfl, rfl, rfl, rfl, fun _ => Assembler.label_defineLabel,
      fun hf hs => Assembler.Write.sound .defineLabel hs hf, .inr ⟨h, rfl⟩⟩

/-- **The start of a block** writes just that. -/
theorem begun_beginBlock {s : LayoutState} {b : BlockId} (hs : s.Ready) (hsound : s.asm.Sound)
    (hf : (s.beginBlock b).asm.fault = none) : ∃ l, LayoutState.Begun b l s (s.beginBlock b) := by
  have hs' : LayoutState.Ready { s with placed := b :: s.placed } := hs
  have known := label_withLabel hs' b
  have name := lookup_withLabel { s with placed := b :: s.placed } b
  obtain ⟨-, -, pinned, code⟩ := offset_beginBlock hsound b
  obtain ⟨l, s₁, hl, hbegin⟩ := beginBlock_cases s b
  rw [hl] at known name
  rw [hbegin] at hf pinned code ⊢
  have hf : (s₁.asm.place l).fault = none := hf
  have known : l < (s₁.asm.elide l).labels.size := by simpa using known
  have named : LayoutState.Named b s s₁ := by
    have := named_withLabel { s with placed := b :: s.placed } b
    rw [hl] at this
    exact ⟨this.code, this.fixups, this.pinned, this.escapes, this.label, this.sound, this.labels⟩
  have size : (s₁.asm.place l).code.size = (s₁.asm.elide l).code.size :=
    congrArg Array.size Assembler.code_mark
  have new (o : Nat) : ¬ s.asm.PlacedAt l o := by
    have unplaced := (Assembler.fault_mark hf).2.1
    rw [Assembler.label_elide, named.label] at unplaced
    exact fun placed => nomatch placed.symm.trans unplaced
  refine ⟨l, name, new, named.labels, named.escapes, code, fun {n k} h => ?_, fun {k o} h => ?_,
    Assembler.reachable_mark hf, pinned, ?_⟩
  · have h : (s₁.asm.place l).Awaits n k := h
    have h : (s₁.asm.elide l).Awaits n k := by simpa [Assembler.Awaits, Assembler.place] using h
    rw [Assembler.Awaits, ← named.fixups]
    -- Leaving out the jump in front takes a branch away and adds none.
    obtain he | ⟨t, code', fixups, -, hfixups, -, he⟩ := Assembler.elide_cases s₁.asm l
    · rwa [he] at h
    · rw [he] at h
      rw [hfixups]
      exact Array.mem_push.mpr (.inl h)
  · have h : (s₁.asm.place l).PlacedAt k o := h
    rw [Assembler.PlacedAt, Assembler.place, Assembler.label_mark known hf] at h
    split at h
    case isTrue hk =>
      cases h
      exact .inr ⟨hk, size.symm⟩
    case isFalse =>
      left
      rw [Assembler.label_elide, named.label] at h
      exact h
  · have cases := place_cases (l := l)
      (named.sound (Assembler.fault_elide.symm.trans (Assembler.fault_mark hf).1) hsound)
    simp only [named.code, named.pinned, Assembler.Awaits, named.fixups] at cases
    exact cases

end StackScript
