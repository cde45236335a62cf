import StackScript.Proofs.Layout.Effects

/-!
# Layouts without a fault

In a layout without a fault a block has a label of its own, which has a place exactly if the block
is placed, and no values are on the stack where a block starts or ends. So the branches to a block
agree on the depth at its label, and the label is put once.

## Main definitions

* `Assembler.Neat`: writing that runs into no fault and leaves the labels from elsewhere alone
* `LayoutState.Labelled`: the labels of a layout without a fault
* `Proceeds`: a layout that goes on without a fault, and makes some targets more part of it

## Main results

* `exists_transfer`, `exists_transferIf`: jumps to targets that have a route
-/

namespace StackScript

open Emit Arrange

/-! ## Writing that leaves labels alone -/

namespace Assembler

/-- Writing that runs into no fault where there are so many values on the stack, and leaves so many
more there. Labels from elsewhere are left alone, and branches to labels of its own have a place. -/
structure Neat (n : Nat) (k : Int) (a b : Assembler) : Prop where
  evolves : a.Evolves b
  clean : Clean n a b
  depth : b.fault = none → (b.depth : Int) = a.depth + k
  label : b.fault = none → ∀ l < a.labels.size, b.label l = a.label l

variable {a b c : Assembler} {i : Instruction} {n m t : Nat} {j k : Int}

theorem Grows.neat (h : Grows k a b) (hc : Clean n a b) : Neat n k a b where
  evolves := h.evolves
  clean := hc
  depth := h.depth
  label hf _ hl := h.scribes.label hf hl

theorem neat_emit (ht : i.target? = none) (hp : i.pops ≤ n) (hk : i.change = k) :
    Neat n k a (a.emit i) where
  evolves := .single (.emit ht)
  clean := clean_emit hp
  depth hf := by
    obtain ⟨-, hpops⟩ := fault_emit hf
    simp only [depth_emit, ← hk, Instruction.change]
    omega
  label _ _ _ := label_emit

theorem neat_serve {slots : Slots} (hs : a.slots.Serve slots) :
    Neat n 0 a { a with slots } where
  evolves := .single (.serve hs)
  clean := ⟨fun hf _ => hf, fun _ _ _ h => .inl h⟩
  depth _ := (Int.add_zero _).symm
  label _ _ _ := rfl

theorem neat_defineLabel : Neat n 0 a a.defineLabel.2 where
  evolves := .single .defineLabel
  clean := ⟨fun hf _ => hf, fun _ _ _ h => .inl h⟩
  depth _ := (Int.add_zero _).symm
  label _ _ _ := label_defineLabel

theorem neat_pin : Neat n 0 a a.pin where
  evolves := .single .pin
  clean := ⟨fun hf _ => hf, fun _ _ _ h => .inl h⟩
  depth _ := (Int.add_zero _).symm
  label _ _ _ := rfl

/-- Such writing goes on. -/
theorem Neat.trans (h : Neat n j a b) (h' : Neat m k b c) (hn : n ≤ t)
    (hm : (m : Int) ≤ max 0 (t + j)) : Neat t (j + k) a c where
  evolves := h.evolves.trans h'.evolves
  clean := {
    faultless hf ht := by
      have hb := h.clean.faultless hf (Nat.le_trans hn ht)
      have depth := h.depth hb
      exact h'.clean.faultless hb (by omega)
    resolved hf o l hw := by
      obtain hw | hp := h'.clean.resolved hf o l hw
      · refine (h.clean.resolved (h'.evolves.fault hf) o l hw).imp_right fun ⟨p, hp⟩ => ⟨p, ?_⟩
        rw [PlacedAt, h'.label hf l hp.lt]
        exact hp
      · exact .inr hp }
  depth hf := by
    have first := h.depth (h'.evolves.fault hf)
    have second := h'.depth hf
    omega
  label hf l hl := by
    rw [h'.label hf l (Nat.lt_of_lt_of_le hl h.evolves.labels_le),
      h.label (h'.evolves.fault hf) l hl]

/-- An instruction more, behind such writing. -/
theorem Neat.emit (h : Neat n j a b) (ht : i.target? = none) (hk : i.change = k)
    (hp : (i.pops : Int) ≤ max 0 (n + j)) : Neat n (j + k) a (b.emit i) :=
  h.trans (neat_emit ht (Nat.le_refl _) hk) (Nat.le_refl n) hp

end Assembler

open Assembler

theorem Careful.neat {α : Type} {step : Emit α} {n : Nat} {k : Int} {d d' : Draft} {x : α}
    (h : Careful n k step) (hd : d.asm.slots.Sound) (he : Ends step d x d') :
    Neat n k d.asm d'.asm :=
  (h.emits.grows hd he).neat (h.clean d x d' hd he)

/-! ## Labels of blocks -/

namespace LayoutState

variable {d : Draft} {s : LayoutState}

/-- The labels of a layout without a fault. -/
structure Labelled (s : LayoutState) : Prop where
  ready : s.Ready
  sound : s.asm.Sound
  slots : s.asm.slots.Sound
  faultless : s.asm.fault = none
  injective : ∀ {a b l}, s.labels.lookup a = some l → s.labels.lookup b = some l → a = b
  named : ∀ b ∈ s.placed, ∃ l, s.labels.lookup b = some l
  /-- A label of a block has a place exactly if the block is placed. -/
  marked : ∀ {b l}, s.labels.lookup b = some l → ((∃ o, s.asm.PlacedAt l o) ↔ b ∈ s.placed)
  /-- No values are on the stack at a label of a block. -/
  flat : ∀ {b l d}, s.labels.lookup b = some l → (s.asm.label l).depth = some d → d = 0

/-- Other queues, and nothing else. -/
theorem Labelled.requeue (h : s.Labelled) (queue escapes : List BlockId) (exitTargeted : Bool) :
    Labelled { s with queue, escapes, exitTargeted } :=
  ⟨h.ready, h.sound, h.slots, h.faultless, h.injective, h.named, h.marked, h.flat⟩

/-- More code that leaves the labels of blocks alone. -/
theorem Labelled.code (h : s.Labelled) (he : s.asm.Evolves d.asm) (hf : d.asm.fault = none)
    (hl : ∀ b l, s.labels.lookup b = some l → d.asm.label l = s.asm.label l) :
    Labelled { s with draft := d } where
  ready b l hb := Nat.lt_of_lt_of_le (h.ready b l hb) he.labels_le
  sound := he.sound h.sound hf
  slots := he.slots_sound h.slots
  faultless := hf
  injective := h.injective
  named := h.named
  marked {b l} hb := by
    rw [← h.marked hb]
    simp only [PlacedAt]
    rw [← hl b l hb]
    exact Iff.rfl
  flat {b l depth} hb hd := by
    refine h.flat hb ?_
    rw [← hl b l hb]
    exact hd

/-- More code in one piece. -/
theorem Labelled.neat {n : Nat} {k : Int} (h : s.Labelled) (hw : s.asm.Neat n k d.asm)
    (hn : n ≤ s.asm.depth) : Labelled { s with draft := d } := by
  have hf : d.asm.fault = none := hw.clean.faultless h.faultless hn
  exact h.code hw.evolves hf fun b l hb => hw.label hf l (h.ready b l hb)

end LayoutState

/-! ## Layouts that go on -/

/-- A layout goes on without a fault. Branches that are new go to targets that are part of the
layout behind it; a target that is new waits in the queue or is left by its route, and no more than
so many do. -/
structure Proceeds (env : LayoutEnv) (scope : Scope) (targets : List BlockId) (count : Nat)
    (s s' : LayoutState) : Prop where
  grown : Extends scope targets s s'
  labelled : s'.Labelled
  waits : ∀ {n l}, s'.asm.Awaits n l → s.asm.Awaits n l ∨ (∃ o, s'.asm.PlacedAt l o) ∨
    ∃ b, s'.labels.lookup b = some l ∧ s'.Settled b
  queue : ∀ t ∈ s'.queue, t ∈ s.queue ∨ route env.ranges scope t = .ok .within
  escapes : ∀ t ∈ s'.escapes, t ∈ s.escapes ∨
    t ≠ Graph.exit ∧ t ∈ targets ∧ route env.ranges scope t = .ok .leave
  length : s'.queue.length + s'.escapes.length ≤ s.queue.length + s.escapes.length + count

section Moving

variable {env : LayoutEnv} {scope : Scope} {targets : List BlockId} {s s₁ s' : LayoutState}
  {t : BlockId} {l : Label} {r : Route} {n m : Nat} {k : Int}

namespace Proceeds

theorem refl (h : s.Labelled) : Proceeds env scope targets 0 s s where
  grown := .refl h.ready
  labelled := h
  waits hw := .inl hw
  queue _ ht := .inl ht
  escapes _ ht := .inl ht
  length := Nat.le_refl _

theorem trans (h : Proceeds env scope targets n s s₁) (h' : Proceeds env scope targets m s₁ s') :
    Proceeds env scope targets (n + m) s s' where
  grown := h.grown.trans h'.grown
  labelled := h'.labelled
  waits {o l} hw := by
    have kept := h'.grown.evolves.kept h.labelled.sound h'.labelled.faultless
    obtain hw | hw := h'.waits hw
    · obtain hw | ⟨p, hp⟩ | ⟨b, hb, hs⟩ := h.waits hw
      · exact .inl hw
      · exact .inr (.inl ⟨p, kept.placed l p hp⟩)
      · exact .inr (.inr ⟨b, h'.grown.labels b l hb, h'.grown.settled hs⟩)
    · exact .inr hw
  queue t ht := (h'.queue t ht).elim (h.queue t) .inr
  escapes t ht := (h'.escapes t ht).elim (h.escapes t) .inr
  length := by
    have first := h.length
    have second := h'.length
    omega

theorem mono (h : Proceeds env scope targets n s s') (hn : n ≤ m) :
    Proceeds env scope targets m s s' :=
  { h with length := Nat.le_trans h.length (Nat.add_le_add_left hn _) }

end Proceeds

variable (env scope targets) in
/-- More code, and nothing else. -/
theorem proceeds_code (h : s.Labelled) {asm : Assembler} (site : SiteId) (hw : s.asm.Neat n k asm)
    (hn : n ≤ s.asm.depth) : Proceeds env scope targets 0 s { s with draft := ⟨asm, site⟩ } ∧
      (asm.depth : Int) = s.asm.depth + k := by
  have labelled : LayoutState.Labelled { s with draft := ⟨asm, site⟩ } := h.neat hw hn
  refine ⟨⟨extends_code h.ready hw.evolves, labelled, fun {o l} ho => ?_, fun t ht => .inl ht,
    fun t ht => .inl ht, Nat.le_refl _⟩, hw.depth labelled.faultless⟩
  exact (hw.clean.resolved labelled.faultless o l ho).imp_right .inl

variable (env scope targets) in
/-- A step that writes code in one piece, if it can be written at all. -/
theorem exists_write {α : Type} {step : Emit α} (hc : Careful n k step) (hl : Lowers step)
    (h : s.Labelled) (hn : n ≤ s.asm.depth) : ∃ x s', Ends (write step) s x s' ∧
      Proceeds env scope targets 0 s s' ∧ (s'.asm.depth : Int) = s.asm.depth + k := by
  obtain ⟨x, d, he⟩ := hc.total hl s.draft
  obtain ⟨moves, depth⟩ := proceeds_code env scope targets h d.nextSite (hc.neat h.slots he) hn
  exact ⟨x, _, ends_write.mpr ⟨d, he, rfl⟩, moves, depth⟩

/-- A new label for a block that is not placed. -/
theorem labelled_cons (h : s.Labelled) (ht : s.labels.lookup t = none) :
    LayoutState.Labelled { s.mapAsm (·.defineLabel.2) with
      labels := (t, s.asm.labels.size) :: s.labels } := by
  have extended : Extends .root [] s (s.withLabel t).2 := extends_withLabel h.ready t
  rw [LayoutState.withLabel, ht] at extended
  have defined := h.neat (d := ⟨s.asm.defineLabel.2, s.draft.nextSite⟩) (n := 0) (k := 0)
    neat_defineLabel (Nat.zero_le _)
  have fresh : s.asm.defineLabel.2.label s.asm.labels.size = ⟨none, none⟩ := by
    rw [label_defineLabel]
    exact label_of_le (Nat.le_refl _)
  refine { defined with
    ready := extended.ready, injective := injective_cons h.ready h.injective
    named := fun b hb => ?_, marked := fun {b l} hb => ?_, flat := fun {b l d} hb hd => ?_ }
  · obtain ⟨l, hl⟩ := h.named b hb
    exact ⟨l, extended.labels b l hl⟩
  · rw [List.lookup_cons] at hb
    split at hb
    case h_1 hbt =>
      -- A block without a label is not placed.
      cases hb
      cases beq_iff_eq.mp hbt
      constructor
      · rintro ⟨o, ho⟩
        have ho : (s.asm.defineLabel.2.label s.asm.labels.size).offset = some o := ho
        rw [fresh] at ho
        cases ho
      · intro hp
        obtain ⟨l, hl⟩ := h.named t hp
        rw [ht] at hl
        cases hl
    case h_2 => exact defined.marked hb
  · rw [List.lookup_cons] at hb
    split at hb
    case h_1 =>
      cases hb
      have hd : (s.asm.defineLabel.2.label s.asm.labels.size).depth = some d := hd
      rw [fresh] at hd
      cases hd
    case h_2 => exact defined.flat hb hd

theorem labelled_withLabel (h : s.Labelled) (t : BlockId) : (s.withLabel t).2.Labelled := by
  cases ht : s.labels.lookup t with
  | some l =>
    rw [LayoutState.withLabel, ht]
    exact h
  | none =>
    have labelled := labelled_cons h ht
    rw [LayoutState.withLabel, ht]
    exact labelled

theorem depth_withLabel (s : LayoutState) (t : BlockId) :
    (s.withLabel t).2.asm.depth = s.asm.depth := by
  unfold LayoutState.withLabel
  cases s.labels.lookup t <;> rfl

/-- A label for a block, and nothing else. -/
theorem proceeds_withLabel (h : s.Labelled) (t : BlockId) :
    Proceeds env scope targets 0 s (s.withLabel t).2 := by
  have named := named_withLabel s t
  refine ⟨extends_withLabel h.ready t, labelled_withLabel h t, fun {n l} hw => .inl ?_,
    fun c hc => .inl (by simpa using hc), fun c hc => .inl (by simpa using hc), by simp⟩
  rw [Awaits, ← named.fixups]
  exact hw

/-- A branch to a target that is part of the layout, with no values left on the stack. -/
theorem proceeds_branch (kind : BranchKind) (h : s.Labelled) (hl : s.labels.lookup t = some l)
    (ht : s.Settled t) (hd : s.asm.depth = (kind.instruction 0).pops) :
    Proceeds env scope targets 0 s (s.mapAsm (·.branch kind l)) ∧
      (s.mapAsm (·.branch kind l)).asm.depth = 0 := by
  have hlt := h.ready t l hl
  have hf : (s.asm.branch kind l).fault = none := by
    refine faultless_branch h.faultless (Nat.le_of_eq hd.symm) fun d hd' => ?_
    rw [h.flat hl hd', hd, Nat.sub_self]
  have evolves : s.asm.Evolves (s.asm.branch kind l) := .single (.branch hlt)
  refine ⟨⟨extends_branch kind h.ready hlt, ⟨?_, evolves.sound h.sound hf,
    evolves.slots_sound h.slots, hf, h.injective, h.named, fun {b j} hb => ?_,
    fun {b j d} hb hd' => ?_⟩, fun {o j} hw => ?_, fun _ hq => .inl hq, fun _ he => .inl he,
    Nat.le_refl _⟩, ?_⟩
  · exact fun b j hb => Nat.lt_of_lt_of_le (h.ready b j hb) evolves.labels_le
  · show _ ↔ b ∈ s.placed
    rw [← h.marked hb]
    simp only [PlacedAt, LayoutState.asm_mapAsm, label_branch hlt hf]
    split
    case isTrue hj => rw [hj]
    case isFalse => exact Iff.rfl
  · simp only [LayoutState.asm_mapAsm, label_branch hlt hf] at hd'
    split at hd'
    · cases hd'
      rw [hd, Nat.sub_self]
    · exact h.flat hb hd'
  · simp only [LayoutState.asm_mapAsm, Awaits, fixups_branch, Array.mem_push] at hw
    obtain hw | hw := hw
    · exact .inl hw
    · cases hw
      exact .inr (.inr ⟨t, hl, ht⟩)
  · simp [hd]

/-! ## Targets -/

/-- A target waits in the queue, unless it is placed. -/
theorem proceeds_queue {queue : List BlockId} (h : s.Labelled)
    (hr : route env.ranges scope t = .ok .within) (ht : t ∈ targets)
    (hq : ∀ c, c ∈ queue ↔ c = t ∨ c ∈ s.queue) (hlen : queue.length = s.queue.length + 1) :
    Proceeds env scope targets 1 s (if t ∈ s.placed then s else { s with queue }) := by
  have grown : Extends scope targets s (if t ∈ s.placed then s else { s with queue }) :=
    extends_queue h.ready ht hq
  by_cases hp : t ∈ s.placed
  · rw [if_pos hp]
    exact (Proceeds.refl h).mono (Nat.zero_le _)
  · rw [if_neg hp] at grown ⊢
    refine ⟨grown, h.requeue _ _ _, fun hw => .inl hw, fun c hc => ?_, fun _ he => .inl he, ?_⟩
    · obtain rfl | hc := (hq c).mp hc
      · exact .inr hr
      · exact .inl hc
    · show queue.length + s.escapes.length ≤ s.queue.length + s.escapes.length + 1
      omega

theorem proceeds_pushFirst (h : s.Labelled) (hr : route env.ranges scope t = .ok .within)
    (ht : t ∈ targets) : Proceeds env scope targets 1 s (s.pushFirst t) :=
  proceeds_queue h hr ht (fun _ => List.mem_cons) (List.length_cons ..)

/-- A target becomes part of the layout by its route; no jump is written. -/
theorem proceeds_accept (h : s.Labelled) (hr : route env.ranges scope t = .ok r)
    (ht : t ∈ targets) : Proceeds env scope targets 1 s (s.accept t r) := by
  obtain ⟨grown, -⟩ := extends_accept h.ready hr ht
  cases r with
  | within => exact proceeds_queue h hr ht (fun c => by simp [or_comm]) (by simp)
  | exit =>
    exact ⟨grown, h.requeue _ _ _, fun hw => .inl hw, fun _ hq => .inl hq, fun _ he => .inl he,
      Nat.le_succ _⟩
  | leave =>
    unfold LayoutState.accept LayoutState.escape at grown ⊢
    dsimp only at grown ⊢
    split at grown
    case isTrue hx =>
      rw [if_pos hx]
      exact ⟨grown, h.requeue _ _ _, fun hw => .inl hw, fun _ hq => .inl hq, fun _ he => .inl he,
        Nat.le_succ _⟩
    case isFalse hx =>
      rw [if_neg hx]
      refine ⟨grown, h.requeue _ _ _, fun hw => .inl hw, fun _ hq => .inl hq, fun c hc => ?_, ?_⟩
      · obtain hc | hc := List.mem_append.mp hc
        · exact .inl hc
        · cases List.mem_singleton.mp hc
          exact .inr ⟨hx, ht, hr⟩
      · simp [Nat.add_assoc]
  | endFinally => exact (Proceeds.refl h).mono (Nat.zero_le _)

theorem labels_pushFirst (s : LayoutState) (t : BlockId) : (s.pushFirst t).labels = s.labels := by
  unfold LayoutState.pushFirst
  split <;> rfl

theorem asm_pushFirst (s : LayoutState) (t : BlockId) : (s.pushFirst t).asm = s.asm := by
  unfold LayoutState.pushFirst
  split <;> rfl

theorem pushFirst_mapAsm (s : LayoutState) (f : Assembler → Assembler) (t : BlockId) :
    (s.mapAsm f).pushFirst t = (s.pushFirst t).mapAsm f := by
  unfold LayoutState.pushFirst LayoutState.mapAsm
  split <;> rfl

theorem accept_mapAsm (s : LayoutState) (f : Assembler → Assembler) (t : BlockId) (r : Route) :
    (s.mapAsm f).accept t r = (s.accept t r).mapAsm f := by
  unfold LayoutState.accept
  cases r with
  | within =>
    dsimp only [LayoutState.pushLast, LayoutState.mapAsm]
    split <;> rfl
  | leave =>
    dsimp only [LayoutState.escape]
    split <;> rfl
  | exit | endFinally => rfl

/-- A jump to a target by its route, from where no values are on the stack. -/
theorem proceeds_goTo (h : s.Labelled) (hl : s.labels.lookup t = some l)
    (hr : route env.ranges scope t = .ok r) (ht : t ∈ targets) (hd : s.asm.depth = 0) :
    Proceeds env scope targets 1 s (s.goTo t l r) ∧ (s.goTo t l r).asm.depth = 0 := by
  cases r with
  | within =>
    have queued := proceeds_pushFirst h hr ht
    obtain ⟨jumped, depth⟩ := proceeds_branch .always (t := t) (l := l) queued.labelled
      (by rw [labels_pushFirst]; exact hl) (settled_pushFirst s t)
      (by rw [asm_pushFirst]; exact hd)
    rw [LayoutState.goTo, pushFirst_mapAsm]
    exact ⟨queued.trans jumped, depth⟩
  | exit =>
    have targeted := proceeds_accept h hr ht
    obtain ⟨rfl, -⟩ := route_exit hr
    obtain ⟨jumped, depth⟩ := proceeds_branch .always targeted.labelled hl
      (.inr (.inr (.inr ⟨rfl, rfl⟩))) hd
    exact ⟨targeted.trans jumped, depth⟩
  | leave =>
    have escaped := proceeds_accept h hr ht
    obtain ⟨jumped, depth⟩ := proceeds_branch .leave (t := t) (l := l) escaped.labelled
      (by rw [labels_accept]; exact hl) (settled_escape s t) (by rw [asm_accept]; exact hd)
    exact ⟨escaped.trans jumped, depth⟩
  | endFinally =>
    obtain ⟨ended, depth⟩ := proceeds_code (n := 0) (k := 0) env scope targets h s.draft.nextSite
      (neat_emit (i := .endFinally) rfl (Nat.le_refl _) rfl) (Nat.zero_le _)
    refine ⟨ended.mono (Nat.zero_le _), ?_⟩
    show (s.asm.emit .endFinally).depth = 0
    omega

/-! ## Jumps -/

/-- Control can go on at a target that has a route. -/
theorem ends_transfer (hr : route env.ranges scope t = .ok r) :
    Ends (transfer env scope t) s () (if s.asm.reachable then
      (s.withLabel t).2.goTo t (s.withLabel t).1 r else s.accept t r) := by
  simp only [transfer, ends_bind, ends_endsInTransfer]
  refine ⟨_, _, ⟨rfl, rfl⟩, ?_⟩
  cases hreach : s.asm.reachable with
  | false =>
    simp only [Bool.not_false, if_true, Bool.false_eq_true, if_false]
    exact ends_enqueue.mpr ⟨r, hr, rfl⟩
  | true =>
    simp only [Bool.not_true, Bool.false_eq_true, if_false, if_true, ends_bind, ends_blockLabel,
      ends_routeTo]
    refine ⟨_, _, rfl, r, _, ⟨hr, rfl⟩, ?_⟩
    cases r with
    | within =>
      exact ends_bind.mpr ⟨⟨⟩, _, ends_write.mpr ⟨_, ends_branch.mpr rfl, rfl⟩,
        ends_queueFirst.mpr rfl⟩
    | exit =>
      exact ends_bind.mpr ⟨⟨⟩, _, ends_targetExit.mpr rfl,
        ends_write.mpr ⟨_, ends_branch.mpr rfl, rfl⟩⟩
    | leave =>
      exact ends_bind.mpr ⟨⟨⟩, _, ends_noteEscape.mpr rfl,
        ends_write.mpr ⟨_, ends_branch.mpr rfl, rfl⟩⟩
    | endFinally => exact ends_write.mpr ⟨_, ends_emit.mpr rfl, rfl⟩

variable (targets) in
/-- **Control goes on at a target** that has a route, from where no values are on the stack. -/
theorem exists_transfer (h : s.Labelled) (hr : route env.ranges scope t = .ok r)
    (ht : t ∈ targets) (hd : s.asm.depth = 0) : ∃ s', Ends (transfer env scope t) s () s' ∧
      Proceeds env scope targets 1 s s' ∧ s'.asm.depth = 0 := by
  refine ⟨_, ends_transfer hr, ?_⟩
  split
  · have labelled : Proceeds env scope targets 0 s (s.withLabel t).2 := proceeds_withLabel h t
    obtain ⟨jumped, depth'⟩ := proceeds_goTo labelled.labelled (lookup_withLabel s t) hr ht
      ((depth_withLabel s t).trans hd)
    refine ⟨?_, depth'⟩
    simpa using labelled.trans jumped
  · exact ⟨proceeds_accept h hr ht, by rw [asm_accept]; exact hd⟩

theorem labels_goTo (s : LayoutState) (t : BlockId) (l : Label) (r : Route) :
    (s.goTo t l r).labels = s.labels := by
  cases r with
  | within => exact labels_pushFirst _ t
  | leave => exact labels_accept s t .leave
  | exit | endFinally => rfl

/-- A jump to a block that has a label leaves all other labels alone. -/
theorem label_of_ends_transfer (h : s.Labelled) (hl : s.labels.lookup t = some l) {u : PUnit}
    (he : Ends (transfer env scope t) s u s') (hf : s'.asm.fault = none) :
    s'.labels = s.labels ∧ ∀ k ≠ l, s'.asm.label k = s.asm.label k := by
  have known : s.withLabel t = (l, s) := by rw [LayoutState.withLabel, hl]
  have hlt := h.ready t l hl
  obtain ⟨r, -, rfl⟩ := goTo_of_ends_transfer he
  by_cases hr : s.asm.reachable = true
  · rw [if_pos hr, known] at hf ⊢
    refine ⟨labels_goTo s t l r, fun k hk => ?_⟩
    cases r with
    | within =>
      simp only [LayoutState.goTo, asm_pushFirst, LayoutState.asm_mapAsm] at hf ⊢
      exact (label_branch hlt hf).trans (if_neg hk)
    | exit => exact (label_branch hlt hf).trans (if_neg hk)
    | leave =>
      have same : (s.escape t).asm = s.asm := asm_accept s t .leave
      simp only [LayoutState.goTo, LayoutState.asm_mapAsm, same] at hf ⊢
      exact (label_branch hlt hf).trans (if_neg hk)
    | endFinally => exact label_emit
  · rw [if_neg hr]
    exact ⟨labels_accept s t r, fun k _ => by rw [asm_accept]⟩

/-- A jump that a branch skips, from where the value for the branch is on the stack. -/
theorem exists_skip {kind : BranchKind} (hk : (kind.instruction 0).pops = 1) (h : s.Labelled)
    (hl : s.labels.lookup t = some l) (hr : route env.ranges scope t = .ok r) (ht : t ∈ targets)
    (hd : s.asm.depth = 1) : ∃ s₁, Ends (transfer env scope t)
      ((s.mapAsm (·.defineLabel.2)).mapAsm (·.branch kind s.asm.labels.size)) () s₁ ∧
      Proceeds env scope targets 1 s (s₁.mapAsm (·.mark s.asm.labels.size)) ∧
      (s₁.mapAsm (·.mark s.asm.labels.size)).asm.depth = 0 := by
  let skip := s.asm.labels.size
  let branched := s.asm.defineLabel.2.branch kind skip
  have known : skip < s.asm.defineLabel.2.labels.size := by
    rw [labels_defineLabel]
    exact Nat.lt_succ_self _
  have old {b : BlockId} {j : Label} (hb : s.labels.lookup b = some j) : j ≠ skip :=
    Nat.ne_of_lt (h.ready b j hb)
  have hf : branched.fault = none := by
    refine faultless_branch h.faultless (Nat.le_of_eq (hk.trans hd.symm)) fun d hd' => ?_
    rw [label_defineLabel, label_of_le (Nat.le_refl _)] at hd'
    cases hd'
  have label (k : Label) :
      branched.label k = if k = skip then ⟨none, some 0⟩ else s.asm.label k := by
    refine (label_branch known hf).trans ?_
    rw [hk, label_defineLabel, label_defineLabel, label_of_le (Nat.le_refl _)]
    show (if k = skip then (⟨none, some (s.asm.depth - 1)⟩ : LabelState) else _) = _
    rw [hd]
  have evolves : s.asm.Evolves branched :=
    (Evolves.single .defineLabel).tail (.branch known)
  have labelled : LayoutState.Labelled { s with draft := ⟨branched, s.draft.nextSite⟩ } :=
    h.code evolves hf fun b j hb => (label j).trans (if_neg (old hb))
  have flat : branched.depth = 0 := by
    rw [depth_branch, hk]
    show s.asm.depth - 1 = 0
    rw [hd]
  obtain ⟨s₁, hends, moves, depth⟩ := exists_transfer targets labelled hr ht flat
  obtain ⟨labels, others⟩ := label_of_ends_transfer labelled hl hends moves.labelled.faultless
  have waiting : s₁.asm.label skip = ⟨none, some 0⟩ :=
    (others skip (old hl).symm).trans ((label skip).trans (if_pos rfl))
  have hlt : skip < s₁.asm.labels.size := by
    refine Nat.lt_of_lt_of_le ?_ moves.grown.evolves.labels_le
    exact Nat.lt_of_lt_of_eq known labels_branch.symm
  have zero : s₁.asm.depthAt skip = 0 := by
    rw [depthAt, depth, waiting]
    exact ite_self 0
  have hf' : (s₁.asm.mark skip).fault = none := by
    refine faultless_mark moves.labelled.faultless (by rw [waiting]) fun d hd' => ?_
    rw [waiting] at hd'
    rw [zero]
    exact (Option.some.inj hd').symm
  have marked : s₁.asm.Evolves (s₁.asm.mark skip) := .single (.mark hlt)
  refine ⟨s₁, hends, ⟨?_, ?_, fun {n j} hw => ?_, moves.queue, moves.escapes, moves.length⟩,
    (depth_mark hf').trans zero⟩
  · exact ((extends_code h.ready evolves).trans moves.grown).trans
      (extends_code moves.labelled.ready marked)
  · refine moves.labelled.code marked hf' fun b j hb => ?_
    exact (label_mark hlt hf').trans (if_neg (old (labels ▸ hb)))
  · -- The label that is skipped to has its place now.
    have hw : s₁.asm.Awaits n j := by simpa [Awaits] using hw
    obtain hw | ⟨o, ho⟩ | hw := moves.waits hw
    · have hw : (n, j) ∈ branched.fixups := hw
      rw [fixups_branch, Array.mem_push] at hw
      obtain hw | hw := hw
      · exact .inl hw
      · cases hw
        exact .inr (.inl ⟨_, placedAt_of_mark hlt hf'⟩)
    · exact .inr (.inl ⟨o, (kept_mark hlt hf').placed j o ho⟩)
    · exact .inr (.inr hw)

variable (targets) in
/-- **A conditional jump** to a target that has a route, from where the value that it asks for is
on the stack. -/
theorem exists_transferIf (kind : BranchKind) (hk : kind = .ifTrue ∨ kind = .ifFalse)
    (h : s.Labelled) (hr : route env.ranges scope t = .ok r) (ht : t ∈ targets)
    (hd : s.asm.depth = 1) : ∃ s', Ends (transferIf env scope kind t) s () s' ∧
      Proceeds env scope targets 1 s s' ∧ s'.asm.depth = 0 := by
  have pops : (kind.instruction 0).pops = 1 := by obtain rfl | rfl := hk <;> rfl
  have pops' : (kind.negate.instruction 0).pops = 1 := by obtain rfl | rfl := hk <;> rfl
  have labelled : Proceeds env scope targets 0 s (s.withLabel t).2 := proceeds_withLabel h t
  have hl := lookup_withLabel s t
  have one := (depth_withLabel s t).trans hd
  -- A conditional branch of its own.
  have direct (hs : ((s.withLabel t).2.accept t r).Settled t) :
      Proceeds env scope targets 1 s
        (((s.withLabel t).2.mapAsm (·.branch kind (s.withLabel t).1)).accept t r) ∧
      (((s.withLabel t).2.mapAsm (·.branch kind (s.withLabel t).1)).accept t r).asm.depth = 0 := by
    have accepted := proceeds_accept labelled.labelled hr ht
    obtain ⟨branched, zero⟩ := proceeds_branch kind accepted.labelled
      (by rw [labels_accept]; exact hl) hs (by rw [asm_accept, one, pops])
    rw [accept_mapAsm]
    refine ⟨?_, zero⟩
    simpa using (labelled.trans accepted).trans branched
  -- A jump that a branch skips.
  have skipped : ∃ s₁, Ends (transfer env scope t)
      (((s.withLabel t).2.mapAsm (·.defineLabel.2)).mapAsm
        (·.branch kind.negate (s.withLabel t).2.asm.labels.size)) () s₁ ∧
      Proceeds env scope targets 1 s (s₁.mapAsm (·.mark (s.withLabel t).2.asm.labels.size)) ∧
      (s₁.mapAsm (·.mark (s.withLabel t).2.asm.labels.size)).asm.depth = 0 := by
    obtain ⟨s₁, hends, moves, zero⟩ := exists_skip pops' labelled.labelled hl hr ht one
    refine ⟨s₁, hends, ?_, zero⟩
    simpa using labelled.trans moves
  cases r with
  | within | exit =>
    obtain ⟨moves, zero⟩ := direct (settled_accept _ hr nofun)
    exact ⟨_, ends_bind.mpr ⟨_, _, ends_blockLabel.mpr rfl, ends_bind.mpr
      ⟨_, _, ends_routeTo.mpr ⟨hr, rfl⟩, ends_bind.mpr
        ⟨⟨⟩, _, ends_write.mpr ⟨_, ends_branch.mpr rfl, rfl⟩, ends_enqueue.mpr ⟨_, hr, rfl⟩⟩⟩⟩,
      moves, zero⟩
  | leave | endFinally =>
    obtain ⟨s₁, hends, moves, zero⟩ := skipped
    exact ⟨_, ends_bind.mpr ⟨_, _, ends_blockLabel.mpr rfl, ends_bind.mpr
      ⟨_, _, ends_routeTo.mpr ⟨hr, rfl⟩, ends_bind.mpr
        ⟨_, _, ends_write.mpr ⟨_, ends_defineLabel.mpr ⟨rfl, rfl⟩, rfl⟩, ends_bind.mpr
          ⟨⟨⟩, _, ends_write.mpr ⟨_, ends_branch.mpr rfl, rfl⟩, ends_bind.mpr
            ⟨⟨⟩, _, hends, ends_write.mpr ⟨_, ends_mark.mpr rfl, rfl⟩⟩⟩⟩⟩⟩, moves, zero⟩

end Moving

end StackScript
