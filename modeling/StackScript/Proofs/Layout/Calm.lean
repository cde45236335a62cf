import Mathlib.Algebra.Order.BigOperators.Group.List
import Mathlib.Algebra.Order.Ring.Nat
import StackScript.Proofs.Layout.Lowered

/-!
# Layouts that run into nothing

What holds between the blocks of a layout of a well-structured graph: no fault so far, every branch
goes to a block that is placed or still to come, and a block is to come only if it is reachable,
past any block that is not placed. From there the layout of the next block runs into nothing.

## Main definitions

* `Graph.Found`: a block that is reachable, past any block that is not placed
* `Calm`, `Frontier`: what holds between blocks, and of the targets of the current scope
* `LayoutState.work`: a bound for the blocks still to be taken from the queues

## Main results

* `Calm.begin`: the start of a block
* `Calm.proceeds`, `Frontier.proceeds`: the end of a block
-/

namespace StackScript

open Emit Arrange Assembler

/-! ## Blocks that are found -/

namespace Graph

variable {graph : Graph} {placed placed' : List BlockId} {b t : BlockId}

/-- The block is reachable, and past any other block that is not placed. -/
def Found (graph : Graph) (placed : List BlockId) (b : BlockId) : Prop :=
  graph.Reaches b ∧ ∀ a ∉ placed, b ≠ a → graph.Bypasses a b

theorem found_start : graph.Found placed start := ⟨.start, fun _ _ => .start⟩

theorem Found.mono (h : graph.Found placed b) (hp : ∀ a ∈ placed, a ∈ placed') :
    graph.Found placed' b :=
  ⟨h.1, fun a ha => h.2 a fun hm => ha (hp a hm)⟩

/-- What a placed block leads to is found. -/
theorem Found.step (h : graph.Found placed b) (hb : b ∈ placed) (ht : t ∈ graph.successors b) :
    graph.Found placed t := by
  refine ⟨.step h.1 ht, fun a ha hne => ?_⟩
  have other : b ≠ a := by
    rintro rfl
    exact ha hb
  exact .step (h.2 a ha other) ht hne

/-- What dominates a block that is found is placed. -/
theorem Found.mem_of_dominates {a : BlockId} (h : graph.Found placed b)
    (hd : graph.Dominates a b) (hne : b ≠ a) : a ∈ placed := by
  by_contra ha
  exact hd (h.2 a ha hne)

/-! ## The work that is left -/

/-- The number of targets of an edge, if its block is not placed. -/
def weight (placed : List BlockId) (edge : Edge) : Nat :=
  if edge.source ∈ placed then 0 else edge.kind.targets.length

/-- The number of targets of the edges whose blocks are not placed. -/
def pending (graph : Graph) (placed : List BlockId) : Nat :=
  (graph.edges.toList.map (weight placed)).sum

theorem pending_nil : graph.pending [] = targetCount graph := by
  have all : weight [] = fun edge => edge.kind.targets.length :=
    funext fun _ => if_neg List.not_mem_nil
  simp [pending, all, targetCount, List.sum]

theorem weight_mono (h : ∀ b ∈ placed, b ∈ placed') (edge : Edge) :
    weight placed' edge ≤ weight placed edge := by
  unfold weight
  by_cases hs : edge.source ∈ placed
  · rw [if_pos (h _ hs)]
    exact Nat.zero_le _
  · rw [if_neg hs]
    split
    · exact Nat.zero_le _
    · exact Nat.le_refl _

theorem pending_mono (h : ∀ b ∈ placed, b ∈ placed') :
    graph.pending placed' ≤ graph.pending placed :=
  List.sum_le_sum fun edge _ => weight_mono h edge

/-- A block that is placed brings the targets of its edge. -/
theorem pending_cons {edge : Edge} (he : edge ∈ graph.edges) (hb : edge.source ∉ placed) :
    graph.pending (edge.source :: placed) + edge.kind.targets.length ≤ graph.pending placed := by
  obtain ⟨front, back, hedges⟩ := List.append_of_mem (Array.mem_toList_iff.mpr he)
  have less (edges : List Edge) : (edges.map (weight (edge.source :: placed))).sum ≤
      (edges.map (weight placed)).sum := List.sum_le_sum fun other _ =>
    weight_mono (fun _ => List.mem_cons_of_mem _) other
  have done : weight (edge.source :: placed) edge = 0 := if_pos List.mem_cons_self
  have before : weight placed edge = edge.kind.targets.length := if_neg hb
  have inFront := less front
  have behind := less back
  simp only [pending, hedges, List.map_append, List.map_cons, List.sum_append, List.sum_cons, done,
    before]
  omega

end Graph

/-! ## Between blocks -/

/-- The blocks to come, for the current scope and for those around it. -/
def LayoutState.Due (s : LayoutState) (owed : BlockId → Prop) (b : BlockId) : Prop :=
  s.Settled b ∨ owed b

/-- What holds between the blocks of a layout. Blocks may be owed to the scopes around the current
one; the edges of some placed blocks have been laid out. -/
structure Calm (env : LayoutEnv) (owed : BlockId → Prop) (done : List BlockId) (s : LayoutState) :
    Prop where
  labelled : s.Labelled
  exit_open : Graph.exit ∉ s.placed
  /-- A branch goes to a label that has a place, or to a block that is due. -/
  waits : ∀ {n l}, s.asm.Awaits n l → (∃ o, s.asm.PlacedAt l o) ∨
    ∃ b, s.labels.lookup b = some l ∧ s.Due owed b
  found : ∀ b, s.Due owed b → env.graph.Found s.placed b
  entered : env.graph.Entered s.placed
  acquired : ∀ b ∈ done, ∀ e subject target,
    env.graph.EndsBlock b e ⟨.ofNat e, b, .enumerate subject target⟩ →
      ∃ slot, s.enumerators.lookup e = some slot

/-- What holds of the targets of the current scope: the blocks that wait belong in it, and the
others are left to the scopes around it. -/
structure Frontier (graph : Graph) (scope : Scope) (s : LayoutState) : Prop where
  queue : ∀ t ∈ s.queue,
    t ≠ Graph.exit ∧ innermost? (protectedRanges graph) t = scope.range
  escapes : ∀ t ∈ s.escapes, scope.Loses graph t

/-- A bound for the blocks still to be taken from the queues. -/
def LayoutState.work (graph : Graph) (s : LayoutState) : Nat :=
  s.queue.length + s.escapes.length + 2 * graph.pending s.placed

section Between

variable {env : LayoutEnv} {scope : Scope} {owed owed' : BlockId → Prop} {done : List BlockId}
  {targets : List BlockId} {s s' : LayoutState} {n : Nat} {b : BlockId}

namespace Calm

/-- Other queues and regions, and other blocks that are owed: none is forgotten, and a new one is
found. -/
theorem requeue (h : Calm env owed done s) {queue escapes : List BlockId} {exitTargeted : Bool}
    (blockOffsets : Array (BlockId × Nat)) (regions : Array Region)
    (hdue : ∀ b, s.Due owed b →
      LayoutState.Due { s with queue, escapes, exitTargeted } owed' b)
    (hnew : ∀ b, LayoutState.Due { s with queue, escapes, exitTargeted } owed' b →
      s.Due owed b ∨ env.graph.Found s.placed b) :
    Calm env owed' done { s with blockOffsets, regions, queue, escapes, exitTargeted } where
  labelled := ⟨h.labelled.ready, h.labelled.sound, h.labelled.slots, h.labelled.faultless,
    h.labelled.injective, h.labelled.named, h.labelled.marked, h.labelled.flat⟩
  exit_open := h.exit_open
  waits hw := (h.waits hw).imp_right fun ⟨b, hb, hs⟩ => ⟨b, hb, hdue b hs⟩
  found b hb := (hnew b hb).elim (h.found b) id
  entered := h.entered
  acquired := h.acquired

/-- Other blocks are owed: none is forgotten, and none is new. -/
theorem owe (h : Calm env owed done s) (hdue : ∀ b, owed b → s.Due owed' b)
    (hnew : ∀ b, owed' b → s.Due owed b) : Calm env owed' done s :=
  h.requeue s.blockOffsets s.regions (fun b hb => hb.elim .inl (hdue b))
    fun b hb => .inl (hb.elim .inl (hnew b))

/-- The edge of a block has been laid out. -/
theorem acquire (h : Calm env owed done s)
    (hb : ∀ e subject target, env.graph.EndsBlock b e ⟨.ofNat e, b, .enumerate subject target⟩ →
      ∃ slot, s.enumerators.lookup e = some slot) : Calm env owed (b :: done) s :=
  { h with acquired := fun c hc => (List.mem_cons.mp hc).elim (fun hcb => hcb ▸ hb) (h.acquired c) }

/-- **The layout goes on** to targets that are found. -/
theorem proceeds (h : Calm env owed done s) (hm : Proceeds env scope targets n s s')
    (ht : ∀ t ∈ targets, env.graph.Found s.placed t) : Calm env owed done s' where
  labelled := hm.labelled
  exit_open := hm.grown.placed ▸ h.exit_open
  waits {o l} hw := by
    have kept := hm.grown.evolves.kept h.labelled.sound hm.labelled.faultless
    have due {b : BlockId} (hb : s.Due owed b) : s'.Due owed b := hb.imp_left hm.grown.settled
    obtain hw | hp | ⟨b, hb, hs⟩ := hm.waits hw
    · obtain ⟨p, hp⟩ | ⟨b, hb, hs⟩ := h.waits hw
      · exact .inl ⟨p, kept.placed l p hp⟩
      · exact .inr ⟨b, hm.grown.labels b l hb, due hs⟩
    · exact .inl hp
    · exact .inr ⟨b, hb, .inl hs⟩
  found b hb := by
    rw [hm.grown.placed]
    obtain hs | ho := hb
    · exact (hm.grown.new b hs).elim (fun hs => h.found b (.inl hs)) (ht b)
    · exact h.found b (.inr ho)
  entered := hm.grown.placed ▸ h.entered
  acquired b hb e subject target he := by
    obtain ⟨slot, hslot⟩ := h.acquired b hb e subject target he
    exact ⟨slot, hm.grown.enumerators e slot hslot⟩

/-- **A block starts** that is the next of its scope. -/
theorem «begin» (h : Calm env owed s.placed s) {queue : List BlockId}
    (w : env.graph.WellStructured) (hg : env.graph.Built) (hscope : scope.Opened env.graph s.placed)
    (hq : s.queue = b :: queue) (hb : b ∉ s.placed) (hd : s.asm.depth = 0)
    (hne : b ≠ Graph.exit)
    (hr : innermost? (protectedRanges env.graph) b = scope.range) :
    Calm env owed s.placed (LayoutState.beginBlock { s with queue } b) ∧
      (LayoutState.beginBlock { s with queue } b).asm.depth = 0 := by
  have popped : LayoutState.Labelled { s with queue } := h.labelled.requeue _ _ _
  obtain ⟨labelled, depth⟩ := labelled_beginBlock popped hb hd
  obtain ⟨evolves, -, labels, enumerators⟩ := extends_beginBlock popped.ready b
  obtain ⟨l, begun⟩ := begun_beginBlock popped.ready popped.sound labelled.faultless
  have kept := evolves.kept popped.sound labelled.faultless
  have due (t : BlockId) :
      (LayoutState.beginBlock { s with queue } b).Due owed t ↔ s.Due owed t := by
    simp only [LayoutState.Due, LayoutState.Settled, placed_beginBlock, queue_beginBlock,
      escapes_beginBlock, exitTargeted_beginBlock, hq, List.mem_cons, or_assoc, or_left_comm]
  refine ⟨⟨labelled, ?_, fun {n k} hw => ?_, fun t ht => ?_, ?_, fun c hc e subject t he => ?_⟩,
    depth⟩
  · rw [placed_beginBlock, List.mem_cons]
    exact fun hx => hx.elim (fun he => hne he.symm) h.exit_open
  · obtain ⟨o, ho⟩ | ⟨c, hc, hs⟩ := h.waits (begun.waits hw)
    · exact .inl ⟨o, kept.placed k o ho⟩
    · exact .inr ⟨c, labels c k hc, (due c).mpr hs⟩
  · rw [placed_beginBlock]
    exact (h.found t ((due t).mp ht)).mono fun _ => List.mem_cons_of_mem _
  · rw [placed_beginBlock]
    exact w.entered_cons hg h.entered hscope hr
  · obtain ⟨slot, hslot⟩ := h.acquired c hc e subject t he
    exact ⟨slot, enumerators e slot hslot⟩

end Calm

/-- Targets wait or are left by their routes. -/
theorem Frontier.proceeds (h : Frontier env.graph scope s)
    (hm : Proceeds env scope targets n s s') (henv : env.ranges = protectedRanges env.graph)
    (hl : ∀ t ∈ targets, route env.ranges scope t = .ok .leave →
      t = Graph.exit ∨ scope.Loses env.graph t) : Frontier env.graph scope s' where
  queue t ht := by
    obtain ht | hr := hm.queue t ht
    · exact h.queue t ht
    · exact route_within (henv ▸ hr)
  escapes t ht := by
    obtain ht | ⟨hne, ht, hr⟩ := hm.escapes t ht
    · exact h.escapes t ht
    · exact (hl t ht hr).resolve_left hne

end Between

end StackScript
