import StackScript.Proofs.Layout.Coverage

/-!
# The strokes of a block

The code of a block is written in single strokes. Its branches are of three kinds: inside the
block, to labels of its own; to a block of the same scope, or to the exit from outside all scopes;
and by `leave`, out of the scope. What a block does to the layout is shown for each kind of stroke
once.

## Main definitions

* `LayoutState.Inner`: a label for branches inside one block
* `Stroke`, `Strokes`: a stroke of a block, and any number of them

## Main results

* `Strokes.evolves`: strokes are writing
* `strokes_of_ends_placeStatements`, `strokes_of_ends_placeEdge`: a block is written in strokes
-/

namespace StackScript

open Emit Arrange

/-- A label for branches inside one block: it is new in the block, and is not the label of a
block. -/
structure LayoutState.Inner (s : LayoutState) (base l : Label) : Prop where
  base_le : base ≤ l
  lt : l < s.asm.labels.size
  other : ∀ b, s.labels.lookup b ≠ some l

/-- A stroke of a block in a scope. Labels from a number on are new in the block. -/
inductive Stroke (env : LayoutEnv) (scope : Scope) (base : Label) :
    LayoutState → LayoutState → Prop where
  | emit {s i} : i.target? = none → i ≠ .endFinally →
      Stroke env scope base s (s.mapAsm (·.emit i))
  | sequencePoint {s span} : Stroke env scope base s (s.mapAsm (·.sequencePoint span))
  | serve {s slots} : s.asm.slots.Serve slots →
      Stroke env scope base s (s.mapAsm fun asm => { asm with slots })
  | site {s nextSite} : Stroke env scope base s { s with draft := { s.draft with nextSite } }
  | acquire {s e slot} :
      Stroke env scope base s { s with enumerators := (e, slot) :: s.enumerators }
  | defineLabel {s} : Stroke env scope base s (s.mapAsm (·.defineLabel.2))
  | branch {s kind l} : kind ≠ .leave → s.Inner base l →
      Stroke env scope base s (s.mapAsm (·.branch kind l))
  | mark {s l} : s.Inner base l → Stroke env scope base s (s.mapAsm (·.mark l))
  /-- A label for a block that has none yet. -/
  | label {s b} : s.labels.lookup b = none →
      Stroke env scope base s
        { s.mapAsm (·.defineLabel.2) with labels := (b, s.asm.labels.size) :: s.labels }
  | jump {s kind b l r} : kind ≠ .leave → s.labels.lookup b = some l →
      route env.ranges scope b = .ok r → r = .within ∨ r = .exit →
      Stroke env scope base s (s.mapAsm (·.branch kind l))
  /-- The target of a `leave` has been left to the scope around. -/
  | leave {s b l} : s.labels.lookup b = some l → route env.ranges scope b = .ok .leave →
      b = Graph.exit ∨ b ∈ s.escapes → Stroke env scope base s (s.mapAsm (·.branch .leave l))
  | endFinally {s b} : route env.ranges scope b = .ok .endFinally →
      Stroke env scope base s (s.mapAsm (·.emit .endFinally))
  | queue {s queue exitTargeted} : Stroke env scope base s { s with queue, exitTargeted }
  | escape {s b} : scope.isLeft = true →
      Stroke env scope base s { s with escapes := s.escapes ++ [b] }

/-- Any number of strokes of a block. -/
def Strokes (env : LayoutEnv) (scope : Scope) (base : Label) : LayoutState → LayoutState → Prop :=
  Relation.ReflTransGen (Stroke env scope base)

variable {env : LayoutEnv} {scope : Scope} {base : Label} {s s₁ s' : LayoutState} {b t : BlockId}
  {u : PUnit}

/-! ## Single strokes -/

section Single

/-- A new label is no label of a block. -/
theorem LayoutState.Ready.ne_size (hs : s.Ready) (b : BlockId) :
    s.labels.lookup b ≠ some s.asm.labels.size :=
  fun h => Nat.lt_irrefl _ (hs b _ h)

/-- What holds of the block labels that are there, and of the one that is new, holds of all. -/
theorem forall_lookup_label {P : BlockId → Label → Prop} {labels : List (BlockId × Label)}
    {n : Label} (h : ∀ c l, labels.lookup c = some l → P c l) (hb : P b n) :
    ∀ c l, ((b, n) :: labels).lookup c = some l → P c l := by
  intro c l hl
  rw [List.lookup_cons] at hl
  split at hl
  case h_1 hc =>
    cases hl
    exact beq_iff_eq.mp hc ▸ hb
  case h_2 => exact h c l hl

theorem Stroke.ready (h : Stroke env scope base s s') (hs : s.Ready) : s'.Ready := by
  cases h with
  | emit | branch | mark | jump | leave | endFinally =>
    intro b l hl
    simpa [LayoutState.asm, LayoutState.mapAsm] using hs b l hl
  | defineLabel =>
    intro b l hl
    simpa [LayoutState.asm, LayoutState.mapAsm] using Nat.lt_succ_of_lt (hs b l hl)
  | label =>
    refine forall_lookup_label (fun c l hl => ?_) ?_
    · simpa [LayoutState.asm, LayoutState.mapAsm] using Nat.lt_succ_of_lt (hs c l hl)
    · simp [LayoutState.asm, LayoutState.mapAsm]
  | sequencePoint | serve | site | acquire | queue | escape => exact hs

/-- **A stroke writes code**, or it is about something else than code. -/
theorem Stroke.evolves (h : Stroke env scope base s s') (hs : s.Ready) :
    s.asm.Evolves s'.asm := by
  cases h with
  | emit ht => exact .single (.emit ht)
  | sequencePoint => exact .single .sequencePoint
  | serve hslots => exact .single (.serve hslots)
  | defineLabel | label => exact .single .defineLabel
  | branch _ hl => exact .single (.branch hl.lt)
  | mark hl => exact .single (.mark hl.lt)
  | jump _ hl => exact .single (.branch (hs _ _ hl))
  | leave hl => exact .single (.branch (hs _ _ hl))
  | endFinally => exact .single (.emit rfl)
  | site | acquire | queue | escape => exact .refl _

/-- A label for branches inside a block stays one. -/
theorem Stroke.inner (h : Stroke env scope base s s') {base' l : Label}
    (hl : s.Inner base' l) : s'.Inner base' l := by
  obtain ⟨hbase, hlt, hother⟩ := hl
  cases h with
  | emit | branch | mark | jump | leave | endFinally =>
    exact ⟨hbase, by simpa [LayoutState.asm, LayoutState.mapAsm] using hlt, hother⟩
  | defineLabel =>
    exact ⟨hbase, by simpa [LayoutState.asm, LayoutState.mapAsm] using Nat.lt_succ_of_lt hlt,
      hother⟩
  | label =>
    refine ⟨hbase, by simpa [LayoutState.asm, LayoutState.mapAsm] using Nat.lt_succ_of_lt hlt,
      fun b hb => ?_⟩
    refine forall_lookup_label (P := fun _ k => k ≠ l) (fun c k hk => ?_) (Nat.ne_of_gt hlt) b l hb
      rfl
    exact fun he => hother c (he ▸ hk)
  | sequencePoint | serve | site | acquire | queue | escape => exact ⟨hbase, hlt, hother⟩

/-- The label of a block stays its label. -/
theorem Stroke.lookup (h : Stroke env scope base s s') {l : Label}
    (hl : s.labels.lookup b = some l) : s'.labels.lookup b = some l := by
  cases h with
  | @label c hc =>
    rw [List.lookup_cons]
    split
    case h_1 he =>
      rw [beq_iff_eq.mp he, hc] at hl
      cases hl
    case h_2 => exact hl
  | emit | sequencePoint | serve | site | acquire | defineLabel | branch | mark | jump | leave
  | endFinally | queue | escape => exact hl

/-- A stroke places no block, and completes no region. -/
theorem Stroke.frame (h : Stroke env scope base s s') :
    s'.placed = s.placed ∧ s'.blockOffsets = s.blockOffsets ∧ s'.regions = s.regions := by
  cases h <;> exact ⟨rfl, rfl, rfl⟩

/-- A stroke writes one instruction or none, behind the code that is there. -/
theorem Stroke.code (h : Stroke env scope base s s') :
    s'.asm.code = s.asm.code ∨ ∃ i, s'.asm.code = s.asm.code.push i := by
  cases h with
  | emit | endFinally => exact .inr ⟨_, Assembler.code_emit⟩
  | branch | jump | leave => exact .inr ⟨_, Assembler.code_branch⟩
  | mark => exact .inl Assembler.code_mark
  | sequencePoint | serve | site | acquire | defineLabel | label | queue | escape =>
    exact .inl rfl

theorem Stroke.size_le (h : Stroke env scope base s s') :
    s.asm.code.size ≤ s'.asm.code.size := by
  obtain h | ⟨i, h⟩ := h.code
  · exact Nat.le_of_eq (congrArg Array.size h.symm)
  · rw [h, Array.size_push]
    exact Nat.le_succ _

/-- What is kept stays kept. -/
theorem Stroke.pinned_le (h : Stroke env scope base s s') (hs : s.asm.Sound) :
    s.asm.pinned ≤ s'.asm.pinned := by
  cases h with
  | emit | endFinally => exact Nat.le_of_eq Assembler.pinned_emit.symm
  | branch | jump | leave => exact Nat.le_of_eq Assembler.pinned_branch.symm
  | mark => exact Nat.le_trans hs.pinned_le (Nat.le_of_eq Assembler.pinned_mark.symm)
  | sequencePoint => exact hs.pinned_le
  | serve | site | acquire | defineLabel | label | queue | escape => exact Nat.le_refl _

end Single

/-! ## Strokes in a row -/

namespace Strokes

theorem refl (s : LayoutState) : Strokes env scope base s s := Relation.ReflTransGen.refl

theorem single (h : Stroke env scope base s s') : Strokes env scope base s s' :=
  Relation.ReflTransGen.single h

theorem trans (h : Strokes env scope base s s₁) (h' : Strokes env scope base s₁ s') :
    Strokes env scope base s s' :=
  Relation.ReflTransGen.trans h h'

theorem tail (h : Strokes env scope base s s₁) (h' : Stroke env scope base s₁ s') :
    Strokes env scope base s s' :=
  Relation.ReflTransGen.tail h h'

theorem ready (h : Strokes env scope base s s') (hs : s.Ready) : s'.Ready := by
  induction h with
  | refl => exact hs
  | tail _ step ih => exact step.ready ih

/-- **Strokes are writing.** -/
theorem evolves (h : Strokes env scope base s s') (hs : s.Ready) : s.asm.Evolves s'.asm := by
  induction h with
  | refl => exact .refl _
  | tail h step ih => exact ih.trans (step.evolves (Strokes.ready h hs))

theorem slots (h : Strokes env scope base s s') (hs : s.Ready) (hslots : s.asm.slots.Sound) :
    s'.asm.slots.Sound :=
  (h.evolves hs).slots_sound hslots

theorem inner (h : Strokes env scope base s s') {base' l : Label} (hl : s.Inner base' l) :
    s'.Inner base' l := by
  induction h with
  | refl => exact hl
  | tail _ step ih => exact step.inner ih

theorem base_le (h : Strokes env scope base s s') (hs : s.Ready)
    (hbase : base ≤ s.asm.labels.size) : base ≤ s'.asm.labels.size :=
  Nat.le_trans hbase (h.evolves hs).labels_le

end Strokes

/-! ## Code in one piece -/

/-- Code in one piece is written in strokes. -/
theorem strokes_of_scribes {base' : Label} {asm : Assembler} (hs : s.Ready)
    (hbase : base ≤ base') (hsize : s.asm.labels.size ≤ base')
    (h : Assembler.Scribes base' s.asm asm) :
    Strokes env scope base s (s.mapAsm fun _ => asm) := by
  induction h with
  | refl => exact .refl s
  | @tail a c _ step ih =>
    -- Labels from `base'` on are no labels of blocks, for these are older.
    have inner {l : Label} (hb : base' ≤ l) (hl : l < a.labels.size) :
        (s.mapAsm fun _ => a).Inner base l :=
      ⟨Nat.le_trans hbase hb, hl, fun b h =>
        Nat.lt_irrefl l (Nat.lt_of_lt_of_le (hs b l h) (Nat.le_trans hsize hb))⟩
    refine ih.trans (.single ?_)
    cases step with
    | emit hp =>
      exact .emit (s := s.mapAsm fun _ => a) (Instruction.target_of_isPlain hp)
        (by rintro rfl; cases hp)
    | defineLabel => exact .defineLabel (s := s.mapAsm fun _ => a)
    | branch hk hb hl => exact .branch (s := s.mapAsm fun _ => a) hk (inner hb hl)
    | mark hb hl => exact .mark (s := s.mapAsm fun _ => a) (inner hb hl)
    | sequencePoint => exact .sequencePoint (s := s.mapAsm fun _ => a)
    | serve hslots => exact .serve (s := s.mapAsm fun _ => a) hslots

/-- A step whose writing is in one piece. -/
theorem strokes_write {α : Type} {k : Int} {step : Emit α} {x : α} (hk : Emits k step)
    (hs : s.Ready) (hslots : s.asm.slots.Sound) (hbase : base ≤ s.asm.labels.size)
    (h : Ends (write step) s x s') : Strokes env scope base s s' := by
  obtain ⟨d, hd, rfl⟩ := ends_write.mp h
  have written : Strokes env scope base s _ :=
    strokes_of_scribes hs hbase (Nat.le_refl _) (hk.grows hslots hd).scribes
  exact written.tail .site

/-- The statements of a block are written in strokes. -/
theorem strokes_of_ends_placeStatements (hs : s.Ready) (hslots : s.asm.slots.Sound)
    (hbase : base ≤ s.asm.labels.size) (h : Ends (placeStatements env b) s u s') :
    Strokes env scope base s s' := by
  obtain ⟨block, d, -, hd, -, rfl⟩ := ends_placeStatements h
  exact strokes_write (emits_emitStatements _) hs hslots hbase (ends_write.mpr ⟨d, hd, rfl⟩)

/-! ## Targets -/

section Targets

theorem strokes_withLabel (s : LayoutState) (b : BlockId) :
    Strokes env scope base s (s.withLabel b).2 := by
  unfold LayoutState.withLabel
  cases h : s.labels.lookup b with
  | some l => exact .refl s
  | none => exact .single (.label h)

variable {r : Route} {l : Label}

theorem strokes_pushFirst (s : LayoutState) (t : BlockId) :
    Strokes env scope base s (s.pushFirst t) := by
  unfold LayoutState.pushFirst
  split
  · exact .refl s
  · exact .single .queue

theorem strokes_pushLast (s : LayoutState) (t : BlockId) :
    Strokes env scope base s (s.pushLast t) := by
  unfold LayoutState.pushLast
  split
  · exact .refl s
  · exact .single .queue

theorem strokes_escape (hl : scope.isLeft = true) (s : LayoutState) (t : BlockId) :
    Strokes env scope base s (s.escape t) := by
  unfold LayoutState.escape
  split
  · exact .single .queue
  · exact .single (.escape hl)

theorem mem_escape (s : LayoutState) (t : BlockId) :
    t = Graph.exit ∨ t ∈ (s.escape t).escapes := by
  unfold LayoutState.escape
  split
  · exact .inl ‹_›
  · exact .inr (List.mem_append_right _ (List.mem_singleton.mpr rfl))

theorem labels_escape (s : LayoutState) (t : BlockId) : (s.escape t).labels = s.labels := by
  unfold LayoutState.escape
  split <;> rfl

theorem strokes_accept (hr : route env.ranges scope t = .ok r) (s : LayoutState) :
    Strokes env scope base s (s.accept t r) := by
  cases r with
  | within => exact strokes_pushLast s t
  | exit => exact .single .queue
  | leave => exact strokes_escape (route_leave hr) s t
  | endFinally => exact .refl s

theorem strokes_goTo (hr : route env.ranges scope t = .ok r)
    (hl : s.labels.lookup t = some l) : Strokes env scope base s (s.goTo t l r) := by
  cases r with
  | within =>
    exact (Strokes.single (.jump (by decide) hl hr (.inl rfl))).trans (strokes_pushFirst _ t)
  | exit =>
    exact (Strokes.single .queue).tail
      (.jump (s := { s with exitTargeted := true }) (by decide) hl hr (.inr rfl))
  | leave =>
    exact (strokes_escape (route_leave hr) s t).tail
      (.leave ((labels_escape s t).symm ▸ hl) hr (mem_escape s t))
  | endFinally => exact .single (.endFinally hr)

theorem strokes_of_ends_enqueue (h : Ends (enqueue env scope t) s u s') :
    Strokes env scope base s s' := by
  obtain ⟨r, hr, rfl⟩ := ends_enqueue.mp h
  exact strokes_accept hr s

theorem strokes_of_ends_transfer (h : Ends (transfer env scope t) s u s') :
    Strokes env scope base s s' := by
  obtain ⟨r, hr, rfl⟩ := goTo_of_ends_transfer h
  split
  · exact (strokes_withLabel s t).trans (strokes_goTo hr (lookup_withLabel s t))
  · exact strokes_accept hr s

theorem strokes_of_ends_transferIf {kind : BranchKind} (hk : kind ≠ .leave) (hs : s.Ready)
    (hbase : base ≤ s.asm.labels.size) (h : Ends (transferIf env scope kind t) s u s') :
    Strokes env scope base s s' := by
  obtain ⟨r, hr, h⟩ := branch_of_ends_transferIf h
  have labeled : Strokes env scope base s (s.withLabel t).2 := strokes_withLabel s t
  have lookup := lookup_withLabel s t
  cases r
  case within =>
    rw [h]
    exact (labeled.tail (.jump hk lookup hr (.inl rfl))).trans (strokes_accept hr _)
  case exit =>
    rw [h]
    exact (labeled.tail (.jump hk lookup hr (.inr rfl))).trans (strokes_accept hr _)
  case leave | endFinally =>
    obtain ⟨s₁, htransfer, rfl⟩ := h
    have ready := labeled.ready hs
    -- The label behind the jump that is skipped belongs to no block.
    have skip : ((s.withLabel t).2.mapAsm (·.defineLabel.2)).Inner base
        (s.withLabel t).2.asm.labels.size :=
      ⟨labeled.base_le hs hbase, by simp, ready.ne_size⟩
    have negated : kind.negate ≠ .leave := by
      cases kind <;> first | decide | exact absurd rfl hk
    have jumped := (labeled.tail .defineLabel).tail (.branch negated skip)
    have transferred : Strokes env scope base _ s₁ := strokes_of_ends_transfer htransfer
    have branched : Stroke env scope base _ _ := .branch negated skip
    have skipped := transferred.inner (branched.inner skip)
    exact (jumped.trans transferred).tail (.mark skipped)

end Targets

/-! ## The ends of blocks -/

section Edges

theorem strokes_of_ends_enumeratorSlot {e : EdgeId} {slot : LocalId}
    (h : Ends (enumeratorSlot e) s slot s') : Strokes env scope base s s' := by
  obtain ⟨-, rfl⟩ | ⟨-, -, rfl⟩ := enumeratorSlot_cases h
  · exact .refl _
  · exact (Strokes.single (.serve (.enumerator _))).tail .acquire

theorem strokes_of_ends_placeCases {subject : LocalId} {cases : List SwitchCase} (hs : s.Ready)
    (hslots : s.asm.slots.Sound) (hbase : base ≤ s.asm.labels.size)
    (h : Ends (placeCases env scope subject cases) s u s') : Strokes env scope base s s' := by
  induction cases generalizing s with
  | nil =>
    obtain ⟨-, rfl⟩ := ends_pure.mp h
    exact .refl s
  | cons c rest ih =>
    cases hv : c.value with
    | none =>
      simp only [placeCases, hv] at h
      exact ih hs hslots hbase h
    | some value =>
      simp only [placeCases, hv] at h
      obtain ⟨_, s₁, hcompare, h⟩ := ends_bind.mp h
      obtain ⟨_, s₂, htransfer, h⟩ := ends_bind.mp h
      have compared : Strokes env scope base s s₁ := by
        simp only [ends_write, ends_bind, ends_emit] at hcompare
        obtain ⟨_, ⟨_, _, rfl, _, d, hvalue, rfl⟩, rfl⟩ := hcompare
        have loaded : Strokes env scope base s (s.mapAsm (·.emit (.loadLocal subject))) :=
          .single (.emit rfl (by rintro ⟨⟩))
        have pushed := loaded.trans (strokes_write (emits_emitValue value) (loaded.ready hs)
          (loaded.slots hs hslots) (loaded.base_le hs hbase) (ends_write.mpr ⟨d, hvalue, rfl⟩))
        exact pushed.tail (.emit rfl (by rintro ⟨⟩))
      have jumped := compared.trans (strokes_of_ends_transferIf (by decide) (compared.ready hs)
        (compared.base_le hs hbase) htransfer)
      exact jumped.trans (ih (jumped.ready hs) (jumped.slots hs hslots)
        (jumped.base_le hs hbase) h)

theorem strokes_bindEntry {slot : LocalId} {key : Option String} {value : String}
    (hs : s.Ready) (hslots : s.asm.slots.Sound) (hbase : base ≤ s.asm.labels.size)
    (h : Ends (write (bindEntry env.body slot key value)) s u s') :
    Strokes env scope base s s' := by
  -- The slot of the enumerator and the value or key of its entry, behind other strokes.
  have entry {s₁ : LayoutState} (h : Strokes env scope base s s₁) (i : Instruction)
      (ht : i.target? = none) (hi : i ≠ .endFinally) : Strokes env scope base s
        ((s₁.mapAsm (·.emit (.loadLocal slot))).mapAsm (·.emit i)) :=
    (h.tail (.emit rfl (by rintro ⟨⟩))).tail (.emit ht hi)
  simp only [bindEntry, ends_write, ends_bind, ends_emit] at h
  obtain ⟨_, ⟨_, _, rfl, _, _, rfl, _, d₁, hvalue, h⟩, rfl⟩ := h
  have loaded := entry (.refl s) .enumeratorValue rfl (by rintro ⟨⟩)
  have stored := loaded.trans (strokes_write (emits_storeVariable value) (loaded.ready hs)
    (loaded.slots hs hslots) (loaded.base_le hs hbase) (ends_write.mpr ⟨d₁, hvalue, rfl⟩))
  cases key with
  | none =>
    obtain ⟨-, rfl⟩ := ends_pure.mp h
    exact stored
  | some key =>
    simp only [ends_bind, ends_emit] at h
    obtain ⟨_, _, rfl, _, _, rfl, hkey⟩ := h
    have loaded := entry stored .enumeratorKey rfl (by rintro ⟨⟩)
    exact loaded.trans (strokes_write (emits_storeVariable key) (loaded.ready hs)
      (loaded.slots hs hslots) (loaded.base_le hs hbase) (ends_write.mpr ⟨_, hkey, rfl⟩))

/-- **The end of a block** whose edge opens no scope is written in strokes. -/
theorem strokes_of_ends_placeEdge {enter : Enter} {e : EdgeId} {edge : Edge} (hs : s.Ready)
    (hslots : s.asm.slots.Sound) (hbase : base ≤ s.asm.labels.size)
    (hk : edge.kind.isTry = false) (h : Ends (placeEdge env enter scope e edge) s u s') :
    Strokes env scope base s s' := by
  obtain ⟨number, source, kind⟩ := edge
  cases kind with
  | tryCatch => cases hk
  | jump target => exact strokes_of_ends_transfer h
  | branch condition ifTrue ifFalse =>
    obtain ⟨d, s₁, hvalue, hfalse, htrue⟩ := parts_of_ends_branch h
    have written : Strokes env scope base s _ := strokes_write (emits_emitValue condition) hs hslots
      hbase (ends_write.mpr ⟨d, hvalue, rfl⟩)
    have jumped := written.trans (strokes_of_ends_transferIf (by decide) (written.ready hs)
      (written.base_le hs hbase) hfalse)
    exact jumped.trans (strokes_of_ends_transfer htrue)
  | enumerate subject target =>
    obtain ⟨d, slot, s₁, hvalue, hslot, hjump⟩ := parts_of_ends_enumerate h
    have pushed : Strokes env scope base s _ := strokes_write (emits_emitValue subject) hs hslots
      hbase (ends_write.mpr ⟨d, hvalue, rfl⟩)
    have opened := pushed.tail (.emit (i := .getEnumerator) rfl (by rintro ⟨⟩))
    have named : Strokes env scope base _ s₁ := strokes_of_ends_enumeratorSlot hslot
    exact ((opened.trans named).tail (.emit rfl (by rintro ⟨⟩))).trans
      (strokes_of_ends_transfer hjump)
  | advance loop key value body next =>
    obtain ⟨slot, s₁, d, -, hnext, hbind, hbody⟩ := parts_of_ends_advance h
    have loaded : Strokes env scope base s
        ((s.mapAsm (·.emit (.loadLocal slot))).mapAsm (·.emit .advance)) :=
      (Strokes.single (.emit rfl (by rintro ⟨⟩))).tail (.emit rfl (by rintro ⟨⟩))
    have jumped := loaded.trans (strokes_of_ends_transferIf (by decide) (loaded.ready hs)
      (loaded.base_le hs hbase) hnext)
    have bound := jumped.trans (strokes_bindEntry (jumped.ready hs) (jumped.slots hs hslots)
      (jumped.base_le hs hbase) (ends_write.mpr ⟨d, hbind, rfl⟩))
    exact bound.trans (strokes_of_ends_transfer hbody)
  | switch subject cases next =>
    obtain ⟨d, s₂, s₃, hvalue, hcases, hother, hnext⟩ := parts_of_ends_switch h
    have pushed : Strokes env scope base s _ := strokes_write (emits_emitValue subject) hs hslots
      hbase (ends_write.mpr ⟨d, hvalue, rfl⟩)
    -- The slot that the value waits in is handed out, stored to, and free again behind the cases.
    have stored : Strokes env scope base s (s.stowed d) := (pushed.tail (.serve (.scratch _))).tail
      (.emit (i := .storeLocal d.asm.slots.scratch.1) rfl (by rintro ⟨⟩))
    have compared := stored.trans (strokes_of_ends_placeCases (stored.ready hs)
      (stored.slots hs hslots) (stored.base_le hs hbase) hcases)
    have released := compared.tail (.serve (.release _ d.asm.slots.scratch.1))
    exact (released.trans (strokes_of_ends_transfer hother)).trans (strokes_of_ends_enqueue hnext)

end Edges

end StackScript
