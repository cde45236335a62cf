import StackScript.Proofs.Flow.Built
import StackScript.Proofs.Flow.Search
import StackScript.Proofs.Layout.Progress

/-!
# Every target is placed

No target is lost on its way: it is queued in its own scope, or handed from scope to scope until it
is, or it is the exit. And nothing else is ever placed.

## Main definitions

* `Job.leaves`: the targets that a part of a layout leaves to the parts around it
* `Covers`: the targets of the blocks that are new are part of the layout, or are left
* `Job.Done`: what a part of a layout has placed
* `Retains`: what is part of a layout stays part of it
* `LayoutState.Rooted`: all that is part of the layout is reachable

## Main results

* `retains_of_lays`: a part of a layout loses nothing, and places its own blocks
* `placed_of_settled`: a whole layout is drained
* `covers_of_lays`: no target is lost
* `rooted_of_lays`: only what control may reach becomes part of the layout
-/

namespace StackScript

open Emit Arrange

variable {edge : Edge} {graph : Graph} {s s' : LayoutState} {scope : Scope}

/-! ## The start of a block -/

section Begin

variable (s : LayoutState) (b : BlockId)

@[simp] theorem placed_withLabel : (s.withLabel b).2.placed = s.placed := by
  unfold LayoutState.withLabel; split <;> rfl

@[simp] theorem queue_withLabel : (s.withLabel b).2.queue = s.queue := by
  unfold LayoutState.withLabel; split <;> rfl

@[simp] theorem escapes_withLabel : (s.withLabel b).2.escapes = s.escapes := by
  unfold LayoutState.withLabel; split <;> rfl

@[simp] theorem exitTargeted_withLabel : (s.withLabel b).2.exitTargeted = s.exitTargeted := by
  unfold LayoutState.withLabel; split <;> rfl

@[simp] theorem blockOffsets_withLabel : (s.withLabel b).2.blockOffsets = s.blockOffsets := by
  unfold LayoutState.withLabel; split <;> rfl

@[simp] theorem placed_beginBlock : (s.beginBlock b).placed = b :: s.placed := by
  simp [LayoutState.beginBlock, LayoutState.mapAsm]

@[simp] theorem queue_beginBlock : (s.beginBlock b).queue = s.queue := by
  simp [LayoutState.beginBlock, LayoutState.mapAsm]

@[simp] theorem escapes_beginBlock : (s.beginBlock b).escapes = s.escapes := by
  simp [LayoutState.beginBlock, LayoutState.mapAsm]

@[simp] theorem exitTargeted_beginBlock : (s.beginBlock b).exitTargeted = s.exitTargeted := by
  simp [LayoutState.beginBlock, LayoutState.mapAsm]

end Begin

/-- The block is listed where it starts. -/
theorem blockOffsets_beginBlock (s : LayoutState) (b : BlockId) :
    (s.beginBlock b).blockOffsets.toList =
      s.blockOffsets.toList ++ [(b, (s.beginBlock b).asm.code.size)] := by
  have same := blockOffsets_withLabel { s with placed := b :: s.placed } b
  obtain ⟨l, s₁, hl, hbegin⟩ := beginBlock_cases s b
  rw [hl] at same
  rw [hbegin]
  dsimp only at same
  simp only [same, Array.toList_push]
  rfl

/-- Where a block starts: code that is kept stays in front of it, and a jump at most is taken
back. -/
theorem offset_beginBlock (hs : s.asm.Sound) (b : BlockId) :
    s.asm.pinned ≤ (s.beginBlock b).asm.code.size ∧
      (s.beginBlock b).asm.code.size ≤ s.asm.code.size ∧
      (s.beginBlock b).asm.pinned = (s.beginBlock b).asm.code.size ∧
      ∀ n, n < (s.beginBlock b).asm.code.size →
        (s.beginBlock b).asm.code[n]? = s.asm.code[n]? := by
  obtain ⟨l, s₁, hl, hbegin⟩ := beginBlock_cases s b
  have same : s₁.asm.code = s.asm.code ∧ s₁.asm.pinned = s.asm.pinned := by
    have := congrArg Prod.snd hl
    simp only [LayoutState.withLabel] at this
    split at this <;> (subst this; exact ⟨rfl, rfl⟩)
  have code : (s.beginBlock b).asm.code = (s₁.asm.elide l).code := by
    rw [hbegin]
    exact Assembler.code_mark
  have pinned : (s.beginBlock b).asm.pinned = (s.beginBlock b).asm.code.size := by
    rw [hbegin]
    rfl
  have bound := hs.pinned_le
  obtain h | ⟨t, code', fixups, hcode, -, hpinned, h⟩ := Assembler.elide_cases s₁.asm l
  · rw [h, same.1] at code
    exact ⟨by rw [code]; exact bound, by rw [code], pinned, fun n _ => by rw [code]⟩
  · rw [h] at code
    rw [same.1] at hcode
    rw [same.2] at hpinned
    refine ⟨by rw [code]; exact hpinned, ?_, pinned, fun n hn => ?_⟩
    · rw [code, hcode, Array.size_push]
      exact Nat.le_succ _
    · rw [code] at hn ⊢
      rw [hcode, Array.getElem?_push_lt hn, Array.getElem?_eq_getElem hn]

/-! ## Coverage -/

/-- The targets that a part of a layout leaves to the parts around it. -/
def Job.leaves : Job → BlockId → Prop
  | .drain path, t | .block path _, t => (scopeOf path).kind = .finally t
  | .enter path _ escapes, t => t ∈ escapes ∨ (scopeOf path).kind = .finally t
  | .catches _ _ _ _ _ _ escapes, t => t ∈ escapes
  | .finally _ _ _ _ next, t => t = next

/-- What a layout knows of blocks and targets. -/
def LayoutState.frontier (s : LayoutState) : List BlockId × List BlockId × List BlockId × Bool :=
  (s.placed, s.queue, s.escapes, s.exitTargeted)

/-- Nothing that is part of the layout is lost, and the targets of new blocks are part of it or are
left to the parts around. -/
structure Covers (graph : Graph) (leaves : BlockId → Prop) (s s' : LayoutState) : Prop where
  placed : ∀ b ∈ s.placed, b ∈ s'.placed
  exitTargeted : s.exitTargeted = true → s'.exitTargeted = true
  settled : ∀ t, s.Settled t → s'.Settled t
  targets : ∀ b ∈ s'.placed, b ∉ s.placed → ∀ t ∈ graph.successors b, s'.Settled t ∨ leaves t
  /-- The exit has a place of its own, behind all other blocks. -/
  exit : Graph.exit ∉ s.placed → Graph.exit ∉ s'.placed

/-- What a part of a layout has done: its own blocks are placed, and the queue and the escapes are
as they should be. -/
def Job.Done (s s' : LayoutState) : Job → Prop
  | .drain path => (s'.queue = [] ∧ ∀ t ∈ s.queue, t ∈ s'.placed) ∧
      ((scopeOf path).isLeft = false → s'.escapes = s.escapes)
  | .block path b => b ∈ s'.placed ∧ (∀ t ∈ s.queue, t ∈ s'.queue) ∧
      ((scopeOf path).isLeft = false → s'.escapes = s.escapes)
  | .enter path seed escapes => seed ∈ s'.placed ∧ (s'.queue = s.queue ∧ s'.escapes = s.escapes) ∧
      ((scopeOf path).isLeft = false → escapes = [])
  | .catches _ _ _ _ _ clauses _ =>
    (∀ c ∈ clauses, c.target ∈ s'.placed) ∧ s'.queue = s.queue ∧ s'.escapes = s.escapes
  | .finally _ _ _ handler _ =>
    (∀ b, handler = some b → b ∈ s'.placed) ∧ s'.queue = s.queue ∧ s'.escapes = s.escapes

/-- What is part of a layout stays part of it. -/
structure Retains (s s' : LayoutState) : Prop where
  placed : ∀ b ∈ s.placed, b ∈ s'.placed
  exitTargeted : s.exitTargeted = true → s'.exitTargeted = true
  settled : ∀ t, s.Settled t → s'.Settled t

namespace Retains

variable {s s₁ s' : LayoutState} {b : BlockId} {rest : List BlockId}

theorem refl : Retains s s := ⟨fun _ => id, id, fun _ => id⟩

theorem trans (h : Retains s s₁) (h' : Retains s₁ s') : Retains s s' where
  placed b hb := h'.placed b (h.placed b hb)
  exitTargeted hx := h'.exitTargeted (h.exitTargeted hx)
  settled t ht := h'.settled t (h.settled t ht)

/-- Only placed blocks, the queue and the escapes matter. -/
theorem of_frontier (h : s'.frontier = s.frontier) : Retains s s' := by
  simp only [LayoutState.frontier, Prod.mk.injEq] at h
  obtain ⟨placed, queue, escapes, targeted⟩ := h
  refine ⟨fun b hb => placed ▸ hb, fun hx => targeted ▸ hx, fun t ht => ?_⟩
  simpa only [LayoutState.Settled, placed, queue, escapes, targeted] using ht

/-- The first block is taken out of the queue, and is part of the layout behind it all the same. -/
theorem of_taken (h : Retains { s with queue := rest } s') (hq : s.queue = b :: rest)
    (hb : s'.Settled b) : Retains s s' := by
  refine ⟨h.placed, h.exitTargeted, fun t ht => ?_⟩
  obtain ht | ht | ht := ht
  · exact h.settled t (.inl ht)
  · obtain rfl | ht := List.mem_cons.mp (hq ▸ ht)
    · exact hb
    · exact h.settled t (.inr (.inl ht))
  · exact h.settled t (.inr (.inr ht))

/-- The queue and the escapes around a nested scope are what they were. -/
theorem closeScope (h : Retains (s.openScope b) s') : Retains s (s'.closeScope s) := by
  refine ⟨h.placed, h.exitTargeted, fun t ht => ?_⟩
  obtain ht | ht | ht | ⟨ht, hx⟩ := ht
  · exact .inl (h.placed t ht)
  · exact .inr (.inl ht)
  · exact .inr (.inr (.inl ht))
  · exact .inr (.inr (.inr ⟨ht, h.exitTargeted hx⟩))

end Retains

theorem Extends.retains {targets : List BlockId} (h : Extends scope targets s s') : Retains s s' :=
  ⟨fun _ hb => h.placed ▸ hb, h.exitTargeted, fun _ => h.settled⟩

theorem retains_beginBlock (s : LayoutState) (b : BlockId) : Retains s (s.beginBlock b) := by
  refine ⟨fun c hc => ?_, fun hx => by simpa using hx, fun t ht => ?_⟩
  · rw [placed_beginBlock]
    exact List.mem_cons_of_mem b hc
  · simp only [LayoutState.Settled, placed_beginBlock, queue_beginBlock, escapes_beginBlock,
      exitTargeted_beginBlock]
    exact ht.imp_left (List.mem_cons_of_mem b)

section Covering

variable {graph : Graph} {leaves leaves' : BlockId → Prop} {s s₁ s' : LayoutState}

theorem Covers.retains (h : Covers graph leaves s s') : Retains s s' :=
  ⟨h.placed, h.exitTargeted, h.settled⟩

theorem Covers.refl : Covers graph leaves s s where
  placed _ h := h
  exitTargeted h := h
  settled _ h := h
  targets _ h h' := (h' h).elim
  exit h := h

theorem Covers.mono (h : Covers graph leaves s s') (hl : ∀ t, leaves t → s'.Settled t ∨ leaves' t) :
    Covers graph leaves' s s' :=
  { h with targets := fun b hb hn t ht => (h.targets b hb hn t ht).elim .inl (hl t) }

theorem Covers.trans (h : Covers graph leaves s s₁) (h' : Covers graph leaves s₁ s') :
    Covers graph leaves s s' where
  placed b hb := h'.placed b (h.placed b hb)
  exitTargeted hx := h'.exitTargeted (h.exitTargeted hx)
  settled t ht := h'.settled t (h.settled t ht)
  targets b hb hn t ht := by
    by_cases hb₁ : b ∈ s₁.placed
    · exact (h.targets b hb₁ hn t ht).imp_left (h'.settled t)
    · exact h'.targets b hb hb₁ t ht
  exit hx := h'.exit (h.exit hx)

/-- Only placed blocks, the queue and the escapes matter. -/
theorem Covers.congr {t t' : LayoutState} (h : Covers graph leaves t t')
    (hs : t.frontier = s.frontier) (hs' : t'.frontier = s'.frontier) :
    Covers graph leaves s s' := by
  have front : Retains s t := .of_frontier hs
  have behind : Retains t' s' := .of_frontier hs'.symm
  have kept := (front.trans h.retains).trans behind
  have placed : t.placed = s.placed := congrArg (·.1) hs
  have placed' : t'.placed = s'.placed := congrArg (·.1) hs'
  refine ⟨kept.placed, kept.exitTargeted, kept.settled, fun b hb hn c hc => ?_, ?_⟩
  · exact (h.targets b (placed' ▸ hb) (placed ▸ hn) c hc).imp_left (behind.settled c)
  · rw [← placed, ← placed']
    exact h.exit

/-- Where no block is placed, nothing can be lost. -/
theorem Retains.covers (h : Retains s s') (hp : s'.placed = s.placed) :
    Covers graph leaves s s' where
  placed := h.placed
  exitTargeted := h.exitTargeted
  settled := h.settled
  targets _ hb hn := (hn (hp ▸ hb)).elim
  exit hx := hp ▸ hx

theorem Extends.covers {scope : Scope} {targets : List BlockId} (h : Extends scope targets s s') :
    Covers graph leaves s s' :=
  h.retains.covers h.placed

/-- The first block is taken out of the queue, and is part of the layout behind it all the same. -/
theorem Covers.of_taken {b : BlockId} {rest : List BlockId}
    (h : Covers graph leaves { s with queue := rest } s') (hq : s.queue = b :: rest)
    (hb : s'.Settled b) : Covers graph leaves s s' :=
  { h with settled := (h.retains.of_taken hq hb).settled }

end Covering

/-- The edge that ends a block gives its successors. -/
theorem successors_of_endsBlock {b : BlockId} {e : EdgeId} (h : graph.EndsBlock b e edge) :
    graph.successors b = edge.kind.targets := by
  obtain ⟨hb, he⟩ := h
  obtain ⟨block, hblock, hout⟩ := Option.bind_eq_some_iff.mp hb
  simp [Graph.successors, Graph.outgoing?, hblock, hout, he]

/-- A block has one edge. -/
theorem Graph.EndsBlock.unique {b : BlockId} {e e' : EdgeId} {edge' : Edge}
    (h : graph.EndsBlock b e edge) (h' : graph.EndsBlock b e' edge') : e = e' ∧ edge = edge' := by
  cases h.1.symm.trans h'.1
  exact ⟨rfl, Option.some.inj (h.2.symm.trans h'.2)⟩

/-- The edge that ends a block starts there. -/
theorem Graph.EndsBlock.source {b : BlockId} {e : EdgeId} (h : graph.EndsBlock b e edge)
    (hg : graph.Built) : edge.source = b := by
  obtain ⟨kind, hkind⟩ := hg.outgoing h.1
  rw [h.2] at hkind
  rw [Option.some.inj hkind]

/-- The exit has no edge. -/
theorem ne_exit_of_endsBlock (hg : graph.Built) {b : BlockId} {e : EdgeId}
    (h : graph.EndsBlock b e edge) : b ≠ Graph.exit := by
  rintro rfl
  rw [Graph.EndsBlock, hg.exit_open] at h
  cases h.1

/-- A block is placed, and the parts of the layout behind its head do not lose its targets. -/
theorem Covers.of_block {leaves : BlockId → Prop} {s₁ : LayoutState} {b : BlockId}
    (hg : graph.Built) {e : EdgeId} (hends : graph.EndsBlock b e edge) {targets : List BlockId}
    (head : Extends scope targets (s.beginBlock b) s₁) (rest : Covers graph leaves s₁ s')
    (ht : ∀ t ∈ edge.kind.targets, s'.Settled t ∨ leaves t) : Covers graph leaves s s' := by
  have placed : s₁.placed = b :: s.placed := by rw [head.placed, placed_beginBlock]
  have kept := ((retains_beginBlock s b).trans head.retains).trans rest.retains
  refine ⟨kept.placed, kept.exitTargeted, kept.settled, fun c hc hn => ?_, fun hx => ?_⟩
  · by_cases hb : c = b
    · rw [hb, successors_of_endsBlock hends]
      exact ht
    · refine rest.targets c hc fun hc₁ => ?_
      rw [placed] at hc₁
      exact (List.mem_cons.mp hc₁).elim hb hn
  · refine rest.exit fun hc => ?_
    rw [placed] at hc
    exact (List.mem_cons.mp hc).elim (fun hc => ne_exit_of_endsBlock hg hends hc.symm) hx

section Parts

variable {env : LayoutEnv} {job : Job} {p p' : Progress}

/-- **A part of a layout loses nothing**, and has placed its own blocks at its end. -/
theorem retains_of_lays (h : Lays env job p p') (hs : p.state.Ready)
    (hslots : p.state.asm.slots.Sound) (hstart : job.Starts p.state) :
    Retains p.state p'.state ∧ job.Done p.state p'.state := by
  -- The assembler may change freely: what is part of a layout does not depend on its code.
  have code (s : LayoutState) (d : Draft) : Retains s { s with draft := d } := .of_frontier rfl
  induction h with
  | done hq => exact ⟨.refl, ⟨hq, by simp [hq]⟩, fun _ => rfl⟩
  | @skip path p b rest p' hq hb _ ih =>
    obtain ⟨kept, ⟨queue, drained⟩, escapes⟩ :=
      ih hs hslots (starts_of_unreachable (hstart.unreachable hq hb))
    refine ⟨kept.of_taken hq (.inl (kept.placed b hb)), ⟨queue, fun t ht => ?_⟩, escapes⟩
    obtain rfl | ht := List.mem_cons.mp (hq ▸ ht)
    · exact kept.placed t hb
    · exact drained t ht
  | @place path p b rest p₁ p' hq hb h₁ _ ih₁ ih₂ =>
    obtain ⟨first, placed, waits, escapes₁⟩ := ih₁ hs hslots trivial
    obtain ⟨goes, unreachable⟩ := continues_of_lays h₁ hs hslots trivial
    obtain ⟨second, ⟨queue, drained⟩, escapes₂⟩ :=
      ih₂ goes.ready goes.slots (starts_of_unreachable unreachable)
    refine ⟨(first.of_taken hq (.inl placed)).trans second, ⟨queue, fun t ht => ?_⟩,
      fun stays => (escapes₂ stays).trans (escapes₁ stays)⟩
    obtain rfl | ht := List.mem_cons.mp (hq ▸ ht)
    · exact second.placed t placed
    · exact drained t (waits t ht)
  | @plain path p b e edge s₁ s' enter _ hstatements hends hk hedge =>
    have both := extends_of_ends_plain hs hslots hstatements hk hedge
    refine ⟨(retains_beginBlock _ b).trans both.retains, ?_,
      fun t ht => both.queue t (by simpa using ht), fun stays => ?_⟩
    · rw [both.placed, placed_beginBlock]
      exact List.mem_cons_self
    · rw [both.stays stays, escapes_beginBlock]
  | @guard path p b e edge body catches finally? next s₁ p₂ p₃ p₄ s₅ r fromBody fromCatches _
      hstatements hends hkind h₂ h₃ h₄ hescapes hr ih₂ ih₃ ih₄ =>
    have goes := guardGoes hs hslots hstatements (continues_of_lays h₂) (continues_of_lays h₃)
      (continues_of_lays h₄) hescapes hr
    have written : Extends (scopeOf path) [] _ _ := extends_of_ends_head hs hslots hstatements
    obtain ⟨inBody, -, ⟨queue₂, escapes₂⟩, -⟩ := ih₂ goes.pin.ready goes.pin.slots trivial
    obtain ⟨inCatches, -, queue₃, escapes₃⟩ :=
      ih₃ goes.pinBehind.ready goes.pinBehind.slots goes.unreachable₂
    obtain ⟨inFinally, -, queue₄, escapes₄⟩ :=
      ih₄ goes.catches.ready goes.catches.slots goes.unreachable₃
    obtain ⟨escaped, -⟩ := extends_of_ends_enqueueEscapes goes.final.ready hescapes
    have accepted : Extends (scopeOf path) [next] _ _ :=
      (extends_accept goes.escapes.ready hr (List.mem_singleton_self next)).1
    have inside : Retains s₁ p₄.state :=
      ((code _ _).trans inBody).trans (((code _ _).trans inCatches).trans inFinally)
    have parts := inside.trans (escaped.retains.trans accepted.retains)
    refine ⟨((retains_beginBlock _ b).trans written.retains).trans parts, ?_, fun t ht => ?_,
      fun stays => ?_⟩
    · refine parts.placed b ?_
      rw [written.placed, placed_beginBlock]
      exact List.mem_cons_self
    · refine accepted.queue t (escaped.queue t ?_)
      rw [queue₄, queue₃]
      exact queue₂ ▸ written.queue t (by simpa using ht)
    · rw [accepted.stays stays, escaped.stays stays, escapes₄, escapes₃]
      exact escapes₂.trans ((written.stays stays).trans (escapes_beginBlock _ _))
  | @enter path p seed p₁ hseed _ ih =>
    obtain ⟨inner, ⟨-, drained⟩, stays⟩ := ih hs hslots (starts_openScope hseed)
    exact ⟨inner.closeScope, drained seed List.mem_cons_self, ⟨rfl, rfl⟩, stays⟩
  | noCatch | noFinally => exact ⟨.refl, nofun, rfl, rfl⟩
  | @«catch» source path tryStart tryEnd past clause rest p s₁ p₂ p' escapes others hbind h₁ _
      ih₁ ih₂ =>
    have goes := catchGoes hs hslots hstart hbind (continues_of_lays h₁)
    obtain ⟨handler, seeded, ⟨queue₁, escapes₁⟩, -⟩ := ih₁ goes.bound.ready goes.bound.slots trivial
    obtain ⟨behind, handled, queue₂, escapes₂⟩ :=
      ih₂ (goes.behind _).ready (goes.behind _).slots goes.unreachable
    obtain ⟨d, -, rfl⟩ := ends_write.mp hbind
    have region : Retains p₂.state (p₂.state.endHandler
        (⟨.catch clause.type, tryStart, tryEnd, p.state.asm.offset, ·⟩)) := .of_frontier rfl
    refine ⟨((code p.state d).trans handler).trans (region.trans behind), fun c hc => ?_,
      queue₂.trans queue₁, escapes₂.trans escapes₁⟩
    obtain rfl | hc := List.mem_cons.mp hc
    · exact behind.placed _ seeded
    · exact handled c hc
  | @«finally» source path tryStart handler next p p₁ escapes h₁ ih =>
    have goes := finallyGoes hs hslots hstart (continues_of_lays h₁)
    obtain ⟨inside, seeded, ⟨queue, escapes⟩, -⟩ := ih goes.head.ready goes.head.slots trivial
    exact ⟨((code _ _).trans inside).trans (.of_frontier rfl),
      fun b hb => Option.some.inj hb ▸ seeded, queue, escapes⟩

/-- **A whole layout is drained**: all that is part of it is placed, or is the exit. -/
theorem placed_of_settled {draft : Draft} {t : BlockId}
    (h : Lays env (.drain []) ⟨.start draft, []⟩ p) (evolves : Assembler.Evolves .empty draft.asm)
    (ht : p.state.Settled t) :
    t ∈ p.state.placed ∨ t = Graph.exit ∧ p.state.exitTargeted = true := by
  obtain ⟨ready, slots, starts⟩ := begins_start evolves
  obtain ⟨-, ⟨queue, -⟩, escapes⟩ := retains_of_lays h ready slots starts
  obtain ht | ht | ht | ht := ht
  · exact .inl ht
  · rw [queue] at ht
    cases ht
  · rw [escapes rfl] at ht
    cases ht
  · exact .inr ht

/-- **No target is lost**: behind every part of a layout the targets of its blocks are part of the
layout, or are left to the parts around it. -/
theorem covers_of_lays (hg : env.graph.Built) (h : Lays env job p p') (hs : p.state.Ready)
    (hslots : p.state.asm.slots.Sound) (hstart : job.Starts p.state) :
    Covers env.graph job.leaves p.state p'.state := by
  induction h with
  | done | noCatch | noFinally => exact .refl
  | @skip path p b rest p' hq hb h ih =>
    have starts : (Job.drain path).Starts { p.state with queue := rest } :=
      starts_of_unreachable (hstart.unreachable hq hb)
    have covers := ih hs hslots starts
    exact covers.of_taken hq (.inl (covers.placed b hb))
  | @place path p b rest p₁ p' hq hb h₁ _ ih₁ ih₂ =>
    obtain ⟨goes, unreachable⟩ := continues_of_lays h₁ hs hslots trivial
    obtain ⟨-, placed, -⟩ := retains_of_lays h₁ hs hslots trivial
    exact ((ih₁ hs hslots trivial).of_taken hq (.inl placed)).trans
      (ih₂ goes.ready goes.slots (starts_of_unreachable unreachable))
  | @plain path p b e edge s₁ s' enter _ hstatements hends hk hedge =>
    have head := continues_of_ends_head hs hslots hstatements
    have written : Extends (scopeOf path) edge.kind.targets _ _ :=
      extends_of_ends_head hs hslots hstatements
    obtain ⟨ended, settles⟩ := extends_of_ends_placeEdge head.ready head.slots hk hedge
    refine .of_block hg hends written ended.covers (settles fun subject cases next hk' => ?_)
    have fits := hg.fits hends.2
    rw [hk'] at fits
    exact fits
  | @guard path p b e edge body catches finally? next s₁ p₂ p₃ p₄ s₅ r fromBody fromCatches _
      hstatements hends hkind h₂ h₃ h₄ hescapes hr ih₂ ih₃ ih₄ =>
    have goes := guardGoes hs hslots hstatements (continues_of_lays h₂) (continues_of_lays h₃)
      (continues_of_lays h₄) hescapes hr
    have written : Extends (scopeOf path) [] _ _ := extends_of_ends_head hs hslots hstatements
    obtain ⟨-, seeded, -⟩ := retains_of_lays h₂ goes.pin.ready goes.pin.slots trivial
    obtain ⟨-, handled, -⟩ :=
      retains_of_lays h₃ goes.pinBehind.ready goes.pinBehind.slots goes.unreachable₂
    obtain ⟨-, completed, -⟩ :=
      retains_of_lays h₄ goes.catches.ready goes.catches.slots goes.unreachable₃
    obtain ⟨escaped, -, settled⟩ := extends_of_ends_enqueueEscapes goes.final.ready hescapes
    obtain ⟨accepted, settles⟩ :=
      extends_accept goes.escapes.ready hr (List.mem_singleton_self next)
    -- What the body and the handlers leave, and the block behind them, is all that is open.
    let opened (t : BlockId) : Prop := t ∈ fromBody ++ fromCatches ∨ t = next
    have covers₂ : Covers env.graph opened s₁ p₂.state :=
      ((ih₂ goes.pin.ready goes.pin.slots trivial).mono fun t ht =>
        .inr (.inl (List.mem_append_left _ (ht.resolve_right nofun)))).congr rfl rfl
    have covers₃ : Covers env.graph opened p₂.state p₃.state :=
      ((ih₃ goes.pinBehind.ready goes.pinBehind.slots goes.unreachable₂).mono fun t ht =>
        .inr (.inl (List.mem_append_right _ ht))).congr rfl rfl
    have covers₄ : Covers env.graph opened p₃.state p₄.state :=
      (ih₄ goes.catches.ready goes.catches.slots goes.unreachable₃).mono fun t ht =>
        .inr (.inr ht)
    have last : Covers env.graph opened p₄.state (s₅.accept next r) :=
      escaped.covers.trans accepted.covers
    have behind := covers₃.trans (covers₄.trans last)
    -- It is accepted in the scope around, so that nothing stays open.
    have parts : Covers env.graph (Job.block path b).leaves s₁ (s₅.accept next r) :=
      (covers₂.trans behind).mono fun t ht => ht.elim
        (fun ht => .inl (accepted.settled (settled t ht))) fun ht => ht ▸ settles
    refine .of_block hg hends written parts fun t ht => ?_
    rw [hkind] at ht
    obtain rfl | ht := List.mem_cons.mp ht
    · exact .inl (behind.settled t (.inl seeded))
    obtain ht | ht := List.mem_append.mp ht
    · obtain ht | ht := List.mem_append.mp ht
      · obtain ⟨c, hc, rfl⟩ := List.mem_map.mp ht
        exact .inl ((covers₄.trans last).settled _ (.inl (handled c hc)))
      · exact .inl (last.settled t (.inl (completed t (by simpa using ht))))
    · cases List.mem_singleton.mp ht
      exact settles
  | @enter path p seed p₁ hseed h ih =>
    have starts : (Job.drain path).Starts (p.state.openScope seed) := starts_openScope hseed
    have covers := ih hs hslots starts
    obtain ⟨kept, ⟨queue, -⟩, -⟩ := retains_of_lays h hs hslots starts
    refine ⟨covers.placed, covers.exitTargeted, kept.closeScope.settled, fun b hb hn t ht => ?_,
      covers.exit⟩
    -- The scope is drained: what it does not place is left to the scope around it.
    obtain (ht | ht | ht | ht) | ht := covers.targets b hb hn t ht
    · exact .inl (.inl ht)
    · rw [queue] at ht
      cases ht
    · exact .inr (.inl ht)
    · exact .inl (.inr (.inr (.inr ht)))
    · exact .inr (.inr ht)
  | @«catch» source path tryStart tryEnd past clause rest p s₁ p₂ p' escapes others hbind h₁ _
      ih₁ ih₂ =>
    have goes := catchGoes hs hslots hstart hbind (continues_of_lays h₁)
    have handler := ih₁ goes.bound.ready goes.bound.slots trivial
    have behind := ih₂ (goes.behind _).ready (goes.behind _).slots goes.unreachable
    obtain ⟨d, -, rfl⟩ := ends_write.mp hbind
    have first : Covers env.graph (fun t => t ∈ escapes ++ others) p.state p₂.state :=
      (handler.mono fun t ht => .inr (List.mem_append_left _ (ht.resolve_right nofun))).congr rfl rfl
    have rest : Covers env.graph (fun t => t ∈ escapes ++ others) p₂.state p'.state :=
      (behind.mono fun t ht => .inr (List.mem_append_right _ ht)).congr rfl rfl
    exact first.trans rest
  | @«finally» source path tryStart handler next p p₁ escapes h₁ ih =>
    have goes := finallyGoes hs hslots hstart (continues_of_lays h₁)
    have inside := ih goes.head.ready goes.head.slots trivial
    obtain ⟨-, -, -, none⟩ := retains_of_lays h₁ goes.head.ready goes.head.slots trivial
    refine (inside.mono fun t ht => ?_).congr rfl rfl
    obtain ht | ht := ht
    · rw [none rfl] at ht
      cases ht
    · cases ht
      exact .inr rfl

end Parts

/-! ## Nothing else is placed -/

/-- The blocks that a part of a layout starts from. -/
def Job.seeds : Job → List BlockId
  | .drain _ => []
  | .block _ b => [b]
  | .enter _ seed _ => [seed]
  | .catches _ _ _ _ _ clauses _ => clauses.map (·.target)
  | .finally _ _ _ handler _ => handler.toList

/-- The targets that a part of a layout hands to the part around it. -/
def Job.escapes : Job → List BlockId
  | .enter _ _ escapes | .catches _ _ _ _ _ _ escapes => escapes
  | _ => []

/-- All that is part of the layout is reachable. -/
def LayoutState.Rooted (graph : Graph) (s : LayoutState) : Prop :=
  ∀ t, s.Settled t → graph.Reaches t

section Rooted

variable {graph : Graph} {scope : Scope} {targets : List BlockId} {s s' : LayoutState}

theorem Extends.rooted (h : Extends scope targets s s') (hs : s.Rooted graph)
    (ht : ∀ t ∈ targets, graph.Reaches t) : s'.Rooted graph :=
  fun t hs' => (h.new t hs').elim (hs t) (ht t)

/-- What is part of one layout is part of the other, or reachable. -/
theorem LayoutState.Rooted.mono (hs : s.Rooted graph)
    (h : ∀ t, s'.Settled t → s.Settled t ∨ graph.Reaches t) : s'.Rooted graph :=
  fun t ht => (h t ht).elim (hs t) id

theorem rooted_beginBlock {b : BlockId} (hs : s.Rooted graph) (hb : graph.Reaches b) :
    (s.beginBlock b).Rooted graph := by
  refine hs.mono fun t ht => ?_
  simp only [LayoutState.Settled, placed_beginBlock, queue_beginBlock, escapes_beginBlock,
    exitTargeted_beginBlock] at ht
  obtain ht | ht := ht
  · obtain rfl | ht := List.mem_cons.mp ht
    · exact .inr hb
    · exact .inl (.inl ht)
  · exact .inl (.inr ht)

/-- The targets of the edge that ends a reachable block are reachable. -/
theorem reaches_of_endsBlock {b t : BlockId} {e : EdgeId} {edge : Edge} (hb : graph.Reaches b)
    (hends : graph.EndsBlock b e edge) (ht : t ∈ edge.kind.targets) : graph.Reaches t :=
  .step hb (successors_of_endsBlock hends ▸ ht)

end Rooted

section Parts

variable {env : LayoutEnv} {job : Job} {p p' : Progress}

/-- **Only what control may reach** becomes part of the layout. -/
theorem rooted_of_lays (h : Lays env job p p') (hs : p.state.Ready)
    (hslots : p.state.asm.slots.Sound) (hstart : job.Starts p.state)
    (hp : p.state.Rooted env.graph) (hseeds : ∀ t ∈ job.seeds, env.graph.Reaches t) :
    p'.state.Rooted env.graph ∧ ∀ t ∈ job.escapes, env.graph.Reaches t := by
  -- The seeds of a job can be reached by assumption, and what a block leads to can be reached with
  -- the block.
  induction h with
  | done => exact ⟨hp, by simp [Job.escapes]⟩
  | @skip path p b rest p' hq hb _ ih =>
    refine ih hs hslots (starts_of_unreachable (hstart.unreachable hq hb))
      (hp.mono fun t ht => .inl ?_) (by simp [Job.seeds])
    exact ht.imp_right (Or.imp_left fun ht => hq ▸ List.mem_cons_of_mem _ ht)
  | @place path p b rest p₁ p' hq hb h₁ _ ih₁ ih₂ =>
    obtain ⟨⟨-, ready, slots, -, -⟩, unreachable⟩ := continues_of_lays h₁ hs hslots trivial
    have taken : LayoutState.Rooted env.graph { p.state with queue := rest } :=
      hp.mono fun t ht =>
        .inl (ht.imp_right (Or.imp_left fun ht => hq ▸ List.mem_cons_of_mem _ ht))
    have reaches : env.graph.Reaches b := hp b (.inr (.inl (hq ▸ List.mem_cons_self)))
    obtain ⟨first, -⟩ := ih₁ hs hslots trivial taken (by simpa [Job.seeds] using reaches)
    exact ih₂ ready slots (starts_of_unreachable unreachable) first (by simp [Job.seeds])
  | @plain path p b e edge s₁ s' enter _ hstatements hends hk hedge =>
    have reaches : env.graph.Reaches b := hseeds b List.mem_cons_self
    have both := extends_of_ends_plain hs hslots hstatements hk hedge
    exact ⟨both.rooted (rooted_beginBlock hp reaches)
      fun t => reaches_of_endsBlock reaches hends, by simp [Job.escapes]⟩
  | @guard path p b e edge body catches finally? next s₁ p₂ p₃ p₄ s₅ r fromBody fromCatches _
      hstatements hends hkind h₂ h₃ h₄ hescapes hr ih₂ ih₃ ih₄ =>
    have reaches : env.graph.Reaches b := hseeds b List.mem_cons_self
    have onward (t : BlockId) (ht : t ∈ edge.kind.targets) : env.graph.Reaches t :=
      reaches_of_endsBlock reaches hends ht
    rw [hkind] at onward
    simp only [EdgeKind.targets, List.mem_cons, List.mem_append, List.not_mem_nil,
      or_false] at onward
    have goes := guardGoes hs hslots hstatements (continues_of_lays h₂) (continues_of_lays h₃)
      (continues_of_lays h₄) hescapes hr
    have written : Extends (scopeOf path) [] _ _ := extends_of_ends_head hs hslots hstatements
    have rooted₁ := written.rooted (rooted_beginBlock hp reaches) (by simp)
    obtain ⟨rooted₂, left₂⟩ := ih₂ goes.pin.ready goes.pin.slots trivial rooted₁
      fun t ht => onward t (.inl (List.mem_singleton.mp ht))
    obtain ⟨rooted₃, left₃⟩ := ih₃ goes.pinBehind.ready goes.pinBehind.slots goes.unreachable₂
      rooted₂ fun t ht => onward t (.inr (.inl (.inl ht)))
    obtain ⟨rooted₄, -⟩ := ih₄ goes.catches.ready goes.catches.slots goes.unreachable₃ rooted₃
      fun t ht => onward t (.inr (.inl (.inr ht)))
    have escaped := (extends_of_ends_enqueueEscapes goes.final.ready hescapes).1
    have accepted := (extends_accept goes.escapes.ready hr (List.mem_singleton_self next)).1
    have rooted₅ := escaped.rooted rooted₄ fun t ht =>
      (List.mem_append.mp ht).elim (left₂ t) (left₃ t)
    exact ⟨accepted.rooted rooted₅ fun t ht => onward t (.inr (.inr (List.mem_singleton.mp ht))),
      by simp [Job.escapes]⟩
  | @enter path p seed p₁ hseed _ ih =>
    have reaches : env.graph.Reaches seed := hseeds seed List.mem_cons_self
    have opened : (p.state.openScope seed).Rooted env.graph := by
      refine hp.mono fun t ht => ?_
      obtain ht | ht | ht | ht := ht
      · exact .inl (.inl ht)
      · exact .inr (List.mem_singleton.mp ht ▸ reaches)
      · cases ht
      · exact .inl (.inr (.inr (.inr ht)))
    obtain ⟨inner, -⟩ := ih hs hslots (starts_openScope hseed) opened (by simp [Job.seeds])
    refine ⟨fun t ht => ?_, fun t ht => inner t (.inr (.inr (.inl ht)))⟩
    obtain ht | ht | ht | ht := ht
    · exact inner t (.inl ht)
    · exact hp t (.inr (.inl ht))
    · exact hp t (.inr (.inr (.inl ht)))
    · exact inner t (.inr (.inr (.inr ht)))
  | noCatch => exact ⟨hp, by simp [Job.escapes]⟩
  | @«catch» source path tryStart tryEnd past clause rest p s₁ p₂ p' escapes others hbind h₁ _
      ih₁ ih₂ =>
    have goes := catchGoes hs hslots hstart hbind (continues_of_lays h₁)
    obtain ⟨d, -, rfl⟩ := ends_write.mp hbind
    obtain ⟨rooted₁, left₁⟩ := ih₁ goes.bound.ready goes.bound.slots trivial hp fun t ht =>
      hseeds t (List.mem_cons.mpr (.inl (List.mem_singleton.mp ht)))
    obtain ⟨rooted₂, left₂⟩ := ih₂ (goes.behind _).ready (goes.behind _).slots goes.unreachable
      rooted₁ fun t ht => hseeds t (List.mem_cons_of_mem _ ht)
    exact ⟨rooted₂, fun t ht => (List.mem_append.mp ht).elim (left₁ t) (left₂ t)⟩
  | noFinally => exact ⟨hp, by simp [Job.escapes]⟩
  | @«finally» source path tryStart handler next p p₁ escapes h₁ ih =>
    have goes := finallyGoes hs hslots hstart (continues_of_lays h₁)
    exact ⟨(ih goes.head.ready goes.head.slots trivial hp hseeds).1, by simp [Job.escapes]⟩

end Parts

end StackScript
