import StackScript.Proofs.Layout.Calm

/-!
# Scopes of a well-structured graph are drained

A layout of a well-structured graph runs into nothing, however deep its `try`s are nested. Blocks,
the parts of a `try` and scopes are laid out one inside the other, so the proof is an induction on
the bound of the blocks that are taken from the queues: the layout of a block has a scope of its
own for each part of a `try`, and there is less work left behind it than before.

## Main definitions

* `Advances`: a scope has been laid out further
* `Leaves`: some parts of a `try` have been laid out, and have left targets to the scope around
* `Finishes`: every scope is laid out to the end, if there is no more work than so much

## Main results

* `exists_placeTry`, `exists_placeBlock`: a `try` with all its parts, and a block
* `finishes_drain`: scopes, whatever the bound is
-/

namespace StackScript

open Emit Arrange Assembler

/-! ## What has been laid out -/

/-- Only blocks of some kind are new. -/
structure Places (new : BlockId → Prop) (s s' : LayoutState) : Prop where
  kept : ∀ b ∈ s.placed, b ∈ s'.placed
  fresh : ∀ b ∈ s'.placed, b ∈ s.placed ∨ new b

/-- A scope has been laid out further, and there is no more work left than so much above what was
left before. -/
structure Advances (env : LayoutEnv) (scope : Scope) (owed : BlockId → Prop) (count : Nat)
    (s s' : LayoutState) : Prop where
  calm : Calm env owed s'.placed s'
  flat : s'.asm.depth = 0
  frontier : Frontier env.graph scope s'
  places : Places (fun b => ∀ own ∈ scope.range, own.contains b = true) s s'
  work : s'.work env.graph ≤ s.work env.graph + count

/-- Some parts of a `try` have been laid out, and have left some targets. The queue and the escapes
are those of the scope around the `try`. -/
structure Leaves (env : LayoutEnv) (parts : List Part) (owed : BlockId → Prop)
    (s : LayoutState) (escapes : List BlockId) (s' : LayoutState) : Prop where
  calm : Calm env (fun t => owed t ∨ t ∈ escapes) s'.placed s'
  flat : s'.asm.depth = 0
  queue : s'.queue = s.queue
  stays : s'.escapes = s.escapes
  loses : ∀ t ∈ escapes, ∃ part ∈ parts, part.scope.Loses env.graph t
  places : Places (fun b => ∃ part ∈ parts, part.range.contains b = true) s s'
  work : escapes.length + 2 * env.graph.pending s'.placed ≤
    parts.length + 2 * env.graph.pending s.placed

/-- Every opened scope is laid out to the end, if there is no more work than so much. -/
def Finishes (env : LayoutEnv) (fuel : Nat) : Prop :=
  ∀ (scope : Scope) (owed : BlockId → Prop) (s : LayoutState), scope.Opened env.graph s.placed →
    Calm env owed s.placed s → s.asm.depth = 0 → Frontier env.graph scope s →
    s.work env.graph ≤ fuel →
    ∃ s', Ends (drain env fuel scope) s () s' ∧ Advances env scope owed 0 s s' ∧ s'.queue = []

/-- Parts of a `try` that are still to be laid out. -/
structure Ahead (graph : Graph) (i : Fin graph.edges.size) (parts : List Part)
    (placed : List BlockId) : Prop where
  source : (graph.edge i).source ∈ placed
  found : ∀ t ∈ (graph.edge i).kind.targets, graph.Found placed t
  mem : ∀ part ∈ parts, part ∈ (graph.edge i).kind.parts
  apart : parts.Pairwise fun part other => part.range.past ≤ other.range.first
  unplaced : ∀ part ∈ parts, ∀ b ∈ placed, part.range.contains b = false

section Stages

variable {env : LayoutEnv} {scope : Scope} {owed : BlockId → Prop} {s s₁ s' t t' : LayoutState}
    {new new' : BlockId → Prop} {escapes others : List BlockId} {parts rest : List Part} {n m : Nat}
    {graph : Graph} {kind : EdgeKind}

namespace Places

theorem of_eq (h : s'.placed = s.placed) : Places new s s' where
  kept _ hb := h ▸ hb
  fresh _ hb := .inl (h ▸ hb)

theorem trans (h : Places new s s₁) (h' : Places new s₁ s') : Places new s s' where
  kept b hb := h'.kept b (h.kept b hb)
  fresh b hb := (h'.fresh b hb).elim (h.fresh b) .inr

theorem mono (h : Places new s s') (hn : ∀ b, new b → new' b) : Places new' s s' where
  kept := h.kept
  fresh b hb := (h.fresh b hb).imp_right (hn b)

end Places

namespace Advances

theorem refl (h : Calm env owed s.placed s) (hd : s.asm.depth = 0)
    (hf : Frontier env.graph scope s) : Advances env scope owed 0 s s :=
  ⟨h, hd, hf, .of_eq rfl, Nat.le_refl _⟩

theorem trans (h : Advances env scope owed n s s₁) (h' : Advances env scope owed m s₁ s') :
    Advances env scope owed (n + m) s s' where
  calm := h'.calm
  flat := h'.flat
  frontier := h'.frontier
  places := h.places.trans h'.places
  work := by
    have first := h.work
    have second := h'.work
    omega

end Advances

namespace Leaves

theorem nil (h : Calm env owed s.placed s) (hd : s.asm.depth = 0) :
    Leaves env [] owed s [] s where
  calm := h.owe (fun _ ho => .inr (.inl ho)) fun _ ho => ho.elim .inr fun h => by cases h
  flat := hd
  queue := rfl
  stays := rfl
  loses t ht := by cases ht
  places := .of_eq rfl
  work := by simp

/-- Only the placed blocks, the queue and the escapes matter of where the parts start. -/
theorem congr (h : Leaves env parts owed t escapes s') (hs : t.frontier = s.frontier) :
    Leaves env parts owed s escapes s' := by
  simp only [LayoutState.frontier, Prod.mk.injEq] at hs
  obtain ⟨placed, queue, stays, -⟩ := hs
  exact ⟨h.calm, h.flat, h.queue.trans queue, h.stays.trans stays, h.loses,
    ⟨placed ▸ h.places.kept, placed ▸ h.places.fresh⟩, placed ▸ h.work⟩

/-- More code behind the parts. -/
theorem behind (h : Leaves env parts owed s escapes t') (hs : t'.frontier = s'.frontier)
    (hc : Calm env (fun t => owed t ∨ t ∈ escapes) t'.placed s') (hd : s'.asm.depth = 0) :
    Leaves env parts owed s escapes s' := by
  simp only [LayoutState.frontier, Prod.mk.injEq] at hs
  obtain ⟨placed, queue, stays, -⟩ := hs
  exact ⟨placed ▸ hc, hd, queue ▸ h.queue, stays ▸ h.stays, h.loses,
    ⟨placed ▸ h.places.kept, placed ▸ h.places.fresh⟩, placed ▸ h.work⟩

/-- Parts of a `try` one behind the other. -/
theorem append (h : Leaves env parts owed s escapes s₁)
    (h' : Leaves env rest (fun t => owed t ∨ t ∈ escapes) s₁ others s') :
    Leaves env (parts ++ rest) owed s (escapes ++ others) s' where
  calm := h'.calm.owe (fun _ ho => .inr (by simpa [or_assoc] using ho))
    fun _ ho => .inr (by simpa [or_assoc] using ho)
  flat := h'.flat
  queue := h'.queue.trans h.queue
  stays := h'.stays.trans h.stays
  loses t ht := by
    obtain ht | ht := List.mem_append.mp ht
    · obtain ⟨part, hp, hl⟩ := h.loses t ht
      exact ⟨part, List.mem_append_left _ hp, hl⟩
    · obtain ⟨part, hp, hl⟩ := h'.loses t ht
      exact ⟨part, List.mem_append_right _ hp, hl⟩
  places := by
    refine (h.places.mono ?_).trans (h'.places.mono ?_)
    · exact fun _ ⟨part, hp, hb⟩ => ⟨part, List.mem_append_left _ hp, hb⟩
    · exact fun _ ⟨part, hp, hb⟩ => ⟨part, List.mem_append_right _ hp, hb⟩
  work := by
    have first := h.work
    have second := h'.work
    simp only [List.length_append]
    omega

end Leaves

namespace Ahead

variable {graph : Graph} {i : Fin graph.edges.size} {placed : List BlockId}

theorem left (h : Ahead graph i (parts ++ rest) placed) : Ahead graph i parts placed where
  source := h.source
  found := h.found
  mem part hp := h.mem part (List.mem_append_left _ hp)
  apart := (List.pairwise_append.mp h.apart).1
  unplaced part hp := h.unplaced part (List.mem_append_left _ hp)

/-- Parts in front place no block of the others. -/
theorem right {i : Fin env.graph.edges.size} (h : Ahead env.graph i (parts ++ rest) s.placed)
    (hl : Leaves env parts owed s escapes s') : Ahead env.graph i rest s'.placed where
  source := hl.places.kept _ h.source
  found t ht := (h.found t ht).mono hl.places.kept
  mem part hp := h.mem part (List.mem_append_right _ hp)
  apart := (List.pairwise_append.mp h.apart).2.1
  unplaced other ho b hb := by
    obtain hb | ⟨part, hp, hin⟩ := hl.places.fresh b hb
    · exact h.unplaced other (List.mem_append_right _ ho) b hb
    · have apart := (List.pairwise_append.mp h.apart).2.2 part hp other ho
      rw [BlockRange.contains_iff] at hin
      rw [Bool.eq_false_iff, ne_eq, BlockRange.contains_iff]
      exact fun hc => Nat.not_le_of_lt (Nat.lt_of_lt_of_le hin.2 apart) hc.1

end Ahead

/-- None of the parts of a `try` is placed when its block starts. -/
theorem ahead_parts {i : Fin graph.edges.size} {placed : List BlockId} (w : graph.WellStructured)
    (hg : graph.Built) (h : graph.Entered placed) (hs : (graph.edge i).source ∉ placed)
    (hf : ∀ t ∈ (graph.edge i).kind.targets, graph.Found ((graph.edge i).source :: placed) t) :
    Ahead graph i (graph.edge i).kind.parts ((graph.edge i).source :: placed) where
  source := List.mem_cons_self
  found := hf
  mem _ hp := hp
  apart := by
    have apart := pairwise_ranges (hg.fits_edge i)
    rw [← EdgeKind.ranges_parts, List.pairwise_map] at apart
    exact apart
  unplaced part hp b hb := by
    have hrange : part.range ∈ (graph.edge i).kind.ranges := by
      rw [← EdgeKind.ranges_parts]
      exact List.mem_map_of_mem hp
    by_contra hin
    rw [Bool.not_eq_false] at hin
    obtain rfl | hb := List.mem_cons.mp hb
    · rw [BlockRange.contains_iff] at hin
      exact Nat.not_le_of_lt (w.bounds hg hrange).2.2.1 hin.1
    · exact hs (h b hb i part.range hrange hin)

/-! ## Parts of a `try` -/

theorem mem_ranges_of_mem_parts {part : Part} (h : part ∈ kind.parts) :
    part.range ∈ kind.ranges := by
  rw [← EdgeKind.ranges_parts]
  exact List.mem_map_of_mem h

/-- The first block of a part is a target of the `try`. -/
theorem seed_mem_targets {part : Part} (h : part ∈ kind.parts) : part.seed ∈ kind.targets := by
  have hr := mem_ranges_of_mem_parts h
  unfold EdgeKind.ranges at hr
  split at hr
  · exact first_mem_of_mem_rangesBetween hr
  · cases hr

/-- Behind a nested scope control is elsewhere. -/
theorem unreachable_of_ends_enterScope {seed : BlockId} (h : s.Labelled)
    (he : Ends (enterScope (drain env n) scope seed) s escapes s') :
    s'.asm.reachable = false := by
  obtain ⟨placements, lays⟩ := lays_of_ends_enterScope (lays_of_ends_drain n)
    [⟨seed, scope⟩] (p := ⟨s, []⟩) he
  exact (continues_of_lays lays h.ready h.slots trivial).2

variable {i : Fin env.graph.edges.size} {part : Part}

/-- **A part of a `try` is laid out** from its first block on. -/
theorem exists_enter (w : env.graph.WellStructured) (hg : env.graph.Built)
    (hfinish : Finishes env n) (ha : Ahead env.graph i [part] s.placed)
    (h : Calm env owed s.placed s) (hd : s.asm.depth = 0)
    (hn : 1 + 2 * env.graph.pending s.placed ≤ n) :
    ∃ escapes s', Ends (enterScope (drain env n) part.scope part.seed) s escapes s' ∧
      Leaves env [part] owed s escapes s' ∧ s'.asm.reachable = false := by
  have hpart := ha.mem part List.mem_cons_self
  have hrange := mem_ranges_of_mem_parts hpart
  have hseed : part.seed ∉ s.placed := fun hs => by
    have outside := ha.unplaced part List.mem_cons_self _ hs
    rw [Part.seed, w.contains_first hg hrange] at outside
    cases outside
  -- What waits outside is owed to the scopes around.
  have opened : Calm env (fun t => owed t ∨ t ∈ s.queue ∨ t ∈ s.escapes) s.placed
      (s.openScope part.seed) := by
    refine h.requeue s.blockOffsets s.regions (fun t ht => ?_) fun t ht => ?_
    · obtain (ht | ht | ht | ht) | ht := ht
      · exact .inl (.inl ht)
      · exact .inr (.inr (.inl ht))
      · exact .inr (.inr (.inr ht))
      · exact .inl (.inr (.inr (.inr ht)))
      · exact .inr (.inl ht)
    · obtain (ht | ht | ht | ht) | ht | ht | ht := ht
      · exact .inl (.inl (.inl ht))
      · rw [List.mem_singleton.mp ht]
        exact .inr (ha.found _ (seed_mem_targets hpart))
      · cases ht
      · exact .inl (.inl (.inr (.inr (.inr ht))))
      · exact .inl (.inr ht)
      · exact .inl (.inl (.inr (.inl ht)))
      · exact .inl (.inl (.inr (.inr (.inl ht))))
  have frontier : Frontier env.graph part.scope (s.openScope part.seed) := by
    refine ⟨fun t ht => ?_, fun t ht => by cases ht⟩
    rw [List.mem_singleton.mp ht]
    exact ⟨Nat.ne_of_gt (w.bounds hg hrange).2.2.2, w.innermost_first hg hrange⟩
  have work : (s.openScope part.seed).work env.graph = 1 + 2 * env.graph.pending s.placed := rfl
  obtain ⟨s₁, hends, advances, drained⟩ := hfinish part.scope _ (s.openScope part.seed)
    (.inr ⟨i, ha.source, part, hpart, rfl⟩) opened hd frontier (work ▸ hn)
  have entered := ends_enterScope hseed hends
  refine ⟨s₁.escapes, s₁.closeScope s, entered, ?_,
    unreachable_of_ends_enterScope h.labelled entered⟩
  refine ⟨?_, advances.flat, rfl, rfl, fun t ht => ?_, ⟨advances.places.kept, fun b hb => ?_⟩, ?_⟩
  · -- Behind the part the queue is empty, and what waited outside waits again.
    refine advances.calm.requeue s₁.blockOffsets s₁.regions (fun t ht => ?_) fun t ht => .inl ?_
    · obtain (ht | ht | ht | ht) | ht | ht | ht := ht
      · exact .inl (.inl ht)
      · rw [drained] at ht
        cases ht
      · exact .inr (.inr ht)
      · exact .inl (.inr (.inr (.inr ht)))
      · exact .inr (.inl ht)
      · exact .inl (.inr (.inl ht))
      · exact .inl (.inr (.inr (.inl ht)))
    · obtain (ht | ht | ht | ht) | ht | ht := ht
      · exact .inl (.inl ht)
      · exact .inr (.inr (.inl ht))
      · exact .inr (.inr (.inr ht))
      · exact .inl (.inr (.inr (.inr ht)))
      · exact .inr (.inl ht)
      · exact .inl (.inr (.inr (.inl ht)))
  · exact ⟨part, List.mem_cons_self, advances.frontier.escapes t ht⟩
  · exact (advances.places.fresh b hb).imp_right fun hin => ⟨part, List.mem_cons_self, hin _ rfl⟩
  · have bound := advances.work
    rw [work, LayoutState.work, drained] at bound
    simp only [List.length_nil, List.length_singleton, Nat.zero_add, Nat.add_zero] at bound ⊢
    exact bound

/-- A part with the code in front of it, and the end of it. -/
theorem exists_part (w : env.graph.WellStructured) (hg : env.graph.Built)
    (hfinish : Finishes env n) (ha : Ahead env.graph i [part] s.placed)
    (h : Calm env owed s.placed s) {d : Draft}
    (hm : Proceeds env part.scope [] 0 s { s with draft := d }) (hd : d.asm.depth = 0)
    (hn : 1 + 2 * env.graph.pending s.placed ≤ n) :
    ∃ escapes s₁,
      Ends (enterScope (drain env n) part.scope part.seed) { s with draft := d } escapes s₁ ∧
      s₁.asm.reachable = false ∧
      ∀ regions, Leaves env [part] owed s escapes { s₁.mapAsm (·.pin) with regions } := by
  have begun : Calm env owed s.placed { s with draft := d } := h.proceeds hm fun t ht => by cases ht
  obtain ⟨escapes, s₁, hends, leaves, unreachable⟩ :=
    exists_enter (s := { s with draft := d }) w hg hfinish ha begun hd hn
  refine ⟨escapes, s₁, hends, unreachable, fun regions => ?_⟩
  have pinned : Proceeds env part.scope [] 0 s₁ (s₁.mapAsm (·.pin)) :=
    proceeds_pin leaves.calm.labelled
  have calm := leaves.calm.proceeds pinned fun t ht => by cases ht
  have ended : Calm env (fun t => owed t ∨ t ∈ escapes) s₁.placed
      { s₁.mapAsm (·.pin) with regions } :=
    calm.requeue s₁.blockOffsets regions (fun _ ht => ht) fun _ ht => .inl ht
  have started : Leaves env [part] owed s escapes s₁ := leaves.congr rfl
  exact started.behind rfl ended leaves.flat

/-- Parts behind others have no more work to do. -/
theorem Leaves.fuel (h : Leaves env parts owed s escapes s')
    (hn : 1 + 2 * env.graph.pending s.placed ≤ n) : 1 + 2 * env.graph.pending s'.placed ≤ n :=
  Nat.le_trans (Nat.add_le_add_left (Nat.mul_le_mul_left 2 (Graph.pending_mono h.places.kept)) 1) hn

/-- **The `catch` handlers of a `try`**, one behind the other. -/
theorem exists_placeCatches (w : env.graph.WellStructured) (hg : env.graph.Built)
    (hfinish : Finishes env n) {past : BlockId} {clauses : List CatchClause} (tryStart tryEnd : Nat)
    (hl : ∀ clause ∈ clauses, ∀ name ∈ clause.binding, Lowers (storeVariable env.body name))
    (ha : Ahead env.graph i (catchParts past clauses) s.placed) (h : Calm env owed s.placed s)
    (hd : s.asm.depth = 0) (hr : s.asm.reachable = false)
    (hn : 1 + 2 * env.graph.pending s.placed ≤ n) :
    ∃ escapes s', Ends (placeCatches env (enterScope (drain env n)) tryStart tryEnd past clauses) s
        escapes s' ∧
      Leaves env (catchParts past clauses) owed s escapes s' ∧ s'.asm.reachable = false := by
  induction clauses generalizing s owed with
  | nil => exact ⟨[], s, ends_pure.mpr ⟨rfl, rfl⟩, .nil h hd, hr⟩
  | cons clause rest ih =>
    have ha : Ahead env.graph i ([⟨.catch, ⟨clause.target, catchEnd past rest⟩,
      some (.catch clause.type)⟩] ++ catchParts past rest) s.placed := ha
    obtain ⟨d, hbind, bound, flat⟩ := exists_bindCaught h.labelled hr (hl clause List.mem_cons_self)
    obtain ⟨escapes, s₁, henter, unreachable, leaves⟩ :=
      exists_part w hg hfinish ha.left h bound flat hn
    have first := leaves (s₁.regions.push
      ⟨.catch clause.type, tryStart, tryEnd, s.asm.offset, s₁.asm.offset⟩)
    obtain ⟨others, s', hrest, leaves', unreachable'⟩ := ih
      (fun clause hc => hl clause (List.mem_cons_of_mem _ hc)) (ha.right first) first.calm
      first.flat unreachable (first.fuel hn)
    exact ⟨escapes ++ others, s', ends_placeCatches_cons hbind henter hrest, first.append leaves',
      unreachable'⟩

/-- **The `finally` handler of a `try`**, if there is one, leaves no targets. -/
theorem exists_placeFinally (w : env.graph.WellStructured) (hg : env.graph.Built)
    (hfinish : Finishes env n) {finally? : Option BlockId} {next : BlockId} (tryStart : Nat)
    (ha : Ahead env.graph i (finallyParts next finally?) s.placed) (h : Calm env owed s.placed s)
    (hd : s.asm.depth = 0) (hr : s.asm.reachable = false)
    (hn : 1 + 2 * env.graph.pending s.placed ≤ n) :
    ∃ s', (finally? = none ∧ s' = s ∨ ∃ handler, finally? = some handler ∧
        Ends (placeFinally (enterScope (drain env n)) tryStart handler next) s () s') ∧
      Leaves env (finallyParts next finally?) owed s [] s' := by
  cases finally? with
  | none => exact ⟨s, .inl ⟨rfl, rfl⟩, .nil h hd⟩
  | some handler =>
    have begun : Proceeds env ⟨.finally next, some ⟨handler, next⟩⟩ [] 0 s (s.beginHandler 0) :=
      proceeds_beginHandler h.labelled hr 0
    have ha : Ahead env.graph i [⟨.finally next, ⟨handler, next⟩, some .finally⟩] s.placed := ha
    obtain ⟨escapes, s₁, henter, -, leaves⟩ :=
      exists_part (d := (s.beginHandler 0).draft) w hg hfinish ha h begun rfl hn
    have leaves := leaves (s₁.regions.push
      ⟨.finally, tryStart, s.asm.offset, s.asm.offset, s₁.asm.offset⟩)
    -- A target would be left by a scope that is not left.
    have none : escapes = [] := by
      refine List.eq_nil_iff_forall_not_mem.mpr fun t ht => ?_
      obtain ⟨part, hp, loses⟩ := leaves.loses t ht
      rw [List.mem_singleton.mp hp] at loses
      cases loses.isLeft
    subst none
    exact ⟨_, .inr ⟨handler, rfl, ends_placeFinally henter⟩, leaves⟩

theorem length_catchParts (past : BlockId) (clauses : List CatchClause) :
    (catchParts past clauses).length = clauses.length := by
  induction clauses with
  | nil => rfl
  | cons clause rest ih => rw [catchParts, List.length_cons, List.length_cons, ih]

/-- A `try` leads to its parts, and to the block behind it. -/
theorem length_targets (h : kind.isTry = true) : kind.targets.length = kind.parts.length + 1 := by
  cases kind with
  | tryCatch body catches finally? next =>
    have last : (finallyParts next finally?).length = finally?.toList.length := by
      cases finally? <;> rfl
    simp [EdgeKind.targets, EdgeKind.parts, length_catchParts, last, Nat.add_assoc]
  | jump | branch | enumerate | advance | switch => cases h

/-- What is inside a part is inside the scope around the `try`. -/
theorem contains_of_part (w : env.graph.WellStructured) (hg : env.graph.Built)
    (hr : innermost? (protectedRanges env.graph) (env.graph.edge i).source = scope.range)
    (hp : part ∈ (env.graph.edge i).kind.parts) {b : BlockId} (hb : part.range.contains b = true) :
    ∀ own ∈ scope.range, own.contains b = true := fun own ho => by
  obtain ⟨hown, hs, -⟩ := innermost?_eq_some (hr.trans ho)
  obtain ⟨j, hj⟩ := exists_edge_of_mem hown
  exact BlockRange.contains_of_includes
    (w.includes_of_source hg (mem_ranges_of_mem_parts hp) hj hs) hb

/-- **A `try` is laid out** with all its parts. -/
theorem exists_placeTry (w : env.graph.WellStructured) (hg : env.graph.Built)
    (henv : env.ranges = protectedRanges env.graph) (hfinish : Finishes env n)
    {body next : BlockId} {catches : List CatchClause} {finally? : Option BlockId}
    (hk : (env.graph.edge i).kind = .tryCatch body catches finally? next)
    (hl : (env.graph.edge i).kind.Lowers env.body) (hscope : scope.Opened env.graph s.placed)
    (hr : innermost? (protectedRanges env.graph) (env.graph.edge i).source = scope.range)
    (ha : Ahead env.graph i (env.graph.edge i).kind.parts s.placed)
    (h : Calm env owed s.placed s) (hd : s.asm.depth = 0) (hf : Frontier env.graph scope s)
    (hn : 1 + 2 * env.graph.pending s.placed ≤ n) :
    ∃ s', Ends (placeTry env (enterScope (drain env n)) scope body catches finally? next) s () s' ∧
      Advances env scope owed (2 * (env.graph.edge i).kind.targets.length) s s' := by
  have parts : (env.graph.edge i).kind.parts = [bodyPart body catches (finally?.getD next)] ++
      (catchParts (finally?.getD next) catches ++ finallyParts next finally?) := by
    rw [hk]
    rfl
  have guards : (env.graph.edge i).kind.isTry = true := by
    rw [hk]
    rfl
  have length := length_targets guards
  have ha' := parts ▸ ha
  rw [hk] at hl
  -- The parts, one behind the other.
  obtain ⟨fromBody, s₁, hbody, unreachable₁, leaves₁⟩ := exists_part
    (d := (s.mapAsm (·.pin)).draft) w hg hfinish ha'.left h (proceeds_pin h.labelled) hd hn
  have leaves₁ := leaves₁ s₁.regions
  obtain ⟨fromCatches, s₂, hcatches, leaves₂, unreachable₂⟩ := exists_placeCatches w hg hfinish
    s.asm.offset s₁.asm.offset hl (ha'.right leaves₁).left leaves₁.calm leaves₁.flat unreachable₁
    (leaves₁.fuel hn)
  obtain ⟨s₃, hfinally, leaves₃⟩ := exists_placeFinally w hg hfinish s.asm.offset
    ((ha'.right leaves₁).right leaves₂) leaves₂.calm leaves₂.flat unreachable₂
    (leaves₂.fuel (leaves₁.fuel hn))
  have left := leaves₁.append (leaves₂.append leaves₃)
  rw [← parts, List.append_nil] at left
  -- What they leave, and the block behind them.
  have routes (t : BlockId) (ht : t ∈ fromBody ++ fromCatches) : ∃ r,
      route env.ranges scope t = .ok r ∧ r ≠ .endFinally ∧
        (r = .leave → scope.Loses env.graph t) := by
    obtain ⟨part, hp, loses⟩ := left.loses t ht
    rw [henv]
    exact w.exists_route_outer hg hscope hp hr loses
  have behind : route env.ranges scope next = .ok .within := by
    rw [henv]
    have span : ⟨body, next⟩ ∈ (env.graph.edge i).kind.span? := by
      rw [hk]
      rfl
    exact w.route_past hg span hr
  obtain ⟨s₄, hescapes, escaped⟩ := exists_enqueueEscapes
    (fromBody ++ fromCatches ++ [next]) left.calm.labelled
    (fun t ht => (routes t ht).imp fun _ hr => ⟨hr.1, hr.2.1⟩) fun t => List.mem_append_left _
  obtain ⟨-, same, settled⟩ := extends_of_ends_enqueueEscapes left.calm.labelled.ready hescapes
  have accepted := proceeds_accept escaped.labelled behind
    (List.mem_append_right (fromBody ++ fromCatches) (List.mem_singleton_self next))
  have moves := escaped.trans accepted
  have placed : (s₄.accept next .within).placed = s₃.placed := moves.grown.placed
  have calm := left.calm.proceeds moves fun t ht => by
    obtain ht | ht := List.mem_append.mp ht
    · exact left.calm.found t (.inr (.inr ht))
    · rw [List.mem_singleton.mp ht]
      refine (ha.found next ?_).mono left.places.kept
      rw [hk]
      exact List.mem_cons_of_mem _ (List.mem_append_right _ (List.mem_singleton_self next))
  refine ⟨_, ends_placeTry hbody hcatches hfinally hescapes (ends_enqueue.mpr ⟨_, behind, rfl⟩),
    ?_, ?_, ?_, ?_, ?_⟩
  · rw [placed]
    refine calm.owe (fun t ht => ?_) fun t ht => .inr (.inl ht)
    exact ht.elim .inr fun ht => .inl (accepted.grown.settled (settled t ht))
  · rw [asm_accept]
    exact (congrArg (fun d : Draft => d.asm.depth) same).trans left.flat
  · have frontier : Frontier env.graph scope s₃ :=
      ⟨fun t ht => hf.queue t (left.queue ▸ ht), fun t ht => hf.escapes t (left.stays ▸ ht)⟩
    refine frontier.proceeds moves henv fun t ht hleave => ?_
    obtain ht | ht := List.mem_append.mp ht
    · obtain ⟨r, hroute, -, loses⟩ := routes t ht
      exact .inr (loses (Except.ok.inj (hroute.symm.trans hleave)))
    · rw [List.mem_singleton.mp ht, behind] at hleave
      cases hleave
  · have inside := left.places.mono fun b ⟨part, hp, hb⟩ => contains_of_part w hg hr hp hb
    exact inside.trans (.of_eq placed)
  · -- The parts work off what they queue: only their targets and the next block come on top.
    have count := moves.length
    have work := left.work
    simp only [LayoutState.work, placed]
    rw [left.queue, left.stays] at count
    omega

/-! ## Blocks -/

/-- Every reachable block is there. -/
theorem Graph.WellStructured.lt_of_reaches {b : BlockId} (w : graph.WellStructured)
    (hg : graph.Built) (h : graph.Reaches b) : b < graph.blocks.size := by
  cases h with
  | start => exact Nat.lt_trans Nat.zero_lt_one hg.blocks
  | @step a _ _ ht =>
    unfold Graph.successors at ht
    split at ht
    case h_1 edge hedge =>
      obtain ⟨-, e, he⟩ := hg.source_outgoing? hedge
      exact w.targets edge (Array.mem_of_getElem? he) b ht
    case h_2 => cases ht

variable {done queue : List BlockId} {b : BlockId} {e : EdgeId} {edge : Edge}

/-- A loop goes on only where it has started. -/
theorem Calm.exists_enumerator (h : Calm env owed done s) (w : env.graph.WellStructured)
    (hg : env.graph.Built) (hends : env.graph.EndsBlock b e edge) (hb : env.graph.Found done b) :
    ∀ loop ∈ edge.kind.loop?, ∃ slot, s.enumerators.lookup loop = some slot := by
  intro loop hloop
  have source := hends.source hg
  have fits := hg.fits hends.2
  have dominates := w.loops edge (Array.mem_of_getElem? hends.2) loop hloop
  cases hk : edge.kind with
  | advance _ key value body next =>
    rw [hk] at hloop fits
    cases hloop
    obtain ⟨origin, subject, horigin⟩ := fits
    have ne : b ≠ origin := by
      rintro rfl
      -- One block would end in two edges.
      obtain ⟨-, same⟩ := hends.unique ⟨hg.source horigin, horigin⟩
      rw [same] at hk
      cases hk
    have placed : origin ∈ done := hb.mem_of_dominates (source ▸ dominates _ horigin) ne
    exact h.acquired origin placed loop subject edge.source ⟨hg.source horigin, horigin⟩
  | jump | branch | tryCatch | enumerate | switch =>
    rw [hk] at hloop
    cases hloop

/-- **The edge of a block is laid out** if it opens no scope. -/
theorem exists_plain (w : env.graph.WellStructured) (hg : env.graph.Built)
    (henv : env.ranges = protectedRanges env.graph) {enter : Enter}
    (hends : env.graph.EndsBlock b e edge) (hk : edge.kind.isTry = false)
    (hl : edge.kind.Lowers env.body) (hscope : scope.Opened env.graph done)
    (hr : innermost? (protectedRanges env.graph) b = scope.range)
    (hb : env.graph.Found done b) (hp : s.placed = b :: done) (h : Calm env owed done s)
    (hd : s.asm.depth = 0) (hf : Frontier env.graph scope s) :
    ∃ s', Ends (placeEdge env enter scope e edge) s () s' ∧
      Advances env scope owed (2 * edge.kind.targets.length) s s' := by
  have source := hends.source hg
  have routes (t : BlockId) (ht : t ∈ edge.kind.targets) : ∃ r, route env.ranges scope t = .ok r ∧
      (r = .leave → t = Graph.exit ∨ scope.Loses env.graph t) := by
    rw [henv]
    exact w.exists_route hg hscope hends.2 (source ▸ hr) hk ht
  obtain ⟨s', hedge, moves, flat, acquired⟩ := exists_placeEdge h.labelled hd hk hl
    (fun t ht => (routes t ht).imp fun _ hr => hr.1) (h.exists_enumerator w hg hends hb)
  have placed : s'.placed = b :: done := moves.grown.placed.trans hp
  have calm := h.proceeds moves fun t ht => by
    rw [hp]
    exact (hb.mono fun _ => List.mem_cons_of_mem _).step List.mem_cons_self
      (successors_of_endsBlock hends ▸ ht)
  refine ⟨s', hedge, ?_, flat, ?_, .of_eq moves.grown.placed, ?_⟩
  · rw [placed]
    refine calm.acquire fun e' subject target he' => ?_
    obtain ⟨rfl, rfl⟩ := hends.unique he'
    exact acquired subject target rfl
  · refine hf.proceeds moves henv fun t ht hleave => ?_
    obtain ⟨r, hroute, hl⟩ := routes t ht
    exact hl (Except.ok.inj (hroute.symm.trans hleave))
  · have count := moves.length
    simp only [LayoutState.work, moves.grown.placed]
    omega

/-- **The edge of a block is laid out**, whatever it is. -/
theorem exists_edge (w : env.graph.WellStructured) (hg : env.graph.Built)
    (henv : env.ranges = protectedRanges env.graph) (hfinish : Finishes env n)
    (hends : env.graph.EndsBlock b e edge) (hl : edge.kind.Lowers env.body)
    (hscope : scope.Opened env.graph done)
    (hr : innermost? (protectedRanges env.graph) b = scope.range)
    (hb : env.graph.Found done b) (hnew : b ∉ done) (hentered : env.graph.Entered done)
    (hp : s.placed = b :: done) (h : Calm env owed done s) (hd : s.asm.depth = 0)
    (hf : Frontier env.graph scope s) (hn : 2 * env.graph.pending done ≤ n) :
    ∃ s', Ends (placeEdge env (enterScope (drain env n)) scope e edge) s () s' ∧
      Advances env scope owed (2 * edge.kind.targets.length) s s' := by
  cases hk : edge.kind.isTry with
  | false => exact exists_plain w hg henv hends hk hl hscope hr hb hp h hd hf
  | true =>
    obtain ⟨he, hedge⟩ := Array.getElem?_eq_some_iff.mp hends.2
    let i : Fin env.graph.edges.size := ⟨e, he⟩
    have at_i : (env.graph.edge i) = edge := hedge
    have source := hends.source hg
    have fewer := Graph.pending_cons (Array.mem_of_getElem? hends.2) (source.symm ▸ hnew)
    have some_target := length_targets hk
    rw [source] at fewer
    -- All parts of the `try` are still to be laid out, for its source is only being placed.
    have ahead : Ahead env.graph i (env.graph.edge i).kind.parts s.placed := by
      rw [hp, ← source, ← at_i]
      refine ahead_parts w hg hentered (at_i.symm ▸ source.symm ▸ hnew) fun t ht => ?_
      rw [at_i, source]
      rw [at_i] at ht
      exact (hb.mono fun _ => List.mem_cons_of_mem _).step List.mem_cons_self
        (successors_of_endsBlock hends ▸ ht)
    have calm : Calm env owed s.placed s := by
      rw [hp]
      refine h.acquire fun e' subject target he' => ?_
      obtain ⟨rfl, rfl⟩ := hends.unique he'
      cases hk
    cases hkind : edge.kind with
    | tryCatch body catches finally? next =>
      obtain ⟨s', hends', advances⟩ := exists_placeTry (i := i) w hg henv hfinish
        (by rw [at_i]; exact hkind) (by rw [at_i]; exact hl)
        (hscope.mono fun c hc => by rw [hp]; exact List.mem_cons_of_mem _ hc)
        (by rw [at_i, source]; exact hr) ahead calm hd hf (by rw [hp]; omega)
      rw [at_i, hkind] at advances
      refine ⟨s', ?_, advances⟩
      simpa only [placeEdge, hkind] using hends'
    | jump | branch | enumerate | advance | switch =>
      rw [hkind] at hk
      cases hk

/-- **The next block of a scope is laid out**, and there is less to do than before. -/
theorem exists_placeBlock (w : env.graph.WellStructured) (hg : env.graph.Built)
    (hlowers : env.graph.Lowers env.body) (henv : env.ranges = protectedRanges env.graph)
    (hfinish : Finishes env n) (hscope : scope.Opened env.graph s.placed)
    (h : Calm env owed s.placed s) (hd : s.asm.depth = 0) (hf : Frontier env.graph scope s)
    (hq : s.queue = b :: queue) (hb : b ∉ s.placed) (hn : s.work env.graph ≤ n + 1) :
    ∃ s', Ends (placeBlock env (enterScope (drain env n)) scope b) { s with queue } () s' ∧
      Advances env scope owed 0 s s' ∧ s'.work env.graph < s.work env.graph := by
  have waits : b ∈ s.queue := hq ▸ List.mem_cons_self
  have found : env.graph.Found s.placed b := h.found b (.inl (.inr (.inl waits)))
  obtain ⟨hne, hr⟩ := hf.queue b waits
  obtain ⟨edge, hout⟩ := Option.isSome_iff_exists.mp (w.ended b found.1 hne)
  obtain ⟨source, e, hedge⟩ := hg.source_outgoing? hout
  have hends : env.graph.EndsBlock b e edge := ⟨source ▸ hg.source hedge, hedge⟩
  have hblock := Array.getElem?_eq_getElem (w.lt_of_reaches hg found.1)
  -- The block starts, and its statements are written.
  obtain ⟨begun, flat⟩ := h.begin w hg hscope hq hb hd hne hr
  obtain ⟨s₁, hstatements, written, flat₁⟩ := exists_placeStatements env scope []
    begun.labelled flat hblock (hlowers.statements b found.1 _ hblock)
  have calm := begun.proceeds written fun t ht => by cases ht
  have placed : s₁.placed = b :: s.placed := written.grown.placed.trans (placed_beginBlock _ b)
  have frontier : Frontier env.graph scope (LayoutState.beginBlock { s with queue } b) := by
    refine ⟨fun t ht => hf.queue t ?_, fun t ht => hf.escapes t (by simpa using ht)⟩
    rw [hq]
    exact List.mem_cons_of_mem _ (by simpa using ht)
  have frontier := frontier.proceeds written henv fun t ht => by cases ht
  -- Its edge brings no more targets than are pending.
  have fewer := Graph.pending_cons (Array.mem_of_getElem? hedge) (source ▸ hb)
  have count := written.length
  simp only [queue_beginBlock, escapes_beginBlock] at count
  simp only [LayoutState.work, hq, List.length_cons] at hn
  rw [source] at fewer
  obtain ⟨s', hplaced, advances⟩ := exists_edge w hg henv hfinish hends
    (hlowers.edges b found.1 edge hout) hscope hr found hb h.entered placed calm flat₁ frontier
    (by omega)
  have work := advances.work
  simp only [LayoutState.work, placed] at work
  have less : s'.work env.graph < s.work env.graph := by
    simp only [LayoutState.work, hq, List.length_cons]
    omega
  refine ⟨s', ends_placeBlock (henv ▸ hr) hstatements hends hplaced, ⟨advances.calm, advances.flat,
    advances.frontier, ?_, Nat.le_of_lt less⟩, less⟩
  have mine : Places (fun c => ∀ own ∈ scope.range, own.contains c = true) s s₁ := by
    refine ⟨fun c hc => placed ▸ List.mem_cons_of_mem _ hc, fun c hc => ?_⟩
    rw [placed] at hc
    obtain rfl | hc := List.mem_cons.mp hc
    · exact .inr fun own ho => (innermost?_eq_some (hr.trans ho)).2.1
    · exact .inl hc
  exact mine.trans advances.places

/-! ## Scopes -/

/-- A block that is placed already is taken from the queue. -/
theorem advances_pop (h : Calm env owed s.placed s) (hd : s.asm.depth = 0)
    (hf : Frontier env.graph scope s) (hq : s.queue = b :: queue) (hb : b ∈ s.placed) :
    Advances env scope owed 0 s { s with queue } where
  calm := by
    refine h.requeue s.blockOffsets s.regions (fun t ht => ?_) fun t ht => .inl ?_
    · obtain (ht | ht | ht) | ht := ht
      · exact .inl (.inl ht)
      · rw [hq] at ht
        obtain rfl | ht := List.mem_cons.mp ht
        · exact .inl (.inl hb)
        · exact .inl (.inr (.inl ht))
      · exact .inl (.inr (.inr ht))
      · exact .inr ht
    · obtain (ht | ht | ht) | ht := ht
      · exact .inl (.inl ht)
      · exact .inl (.inr (.inl (hq ▸ List.mem_cons_of_mem _ ht)))
      · exact .inl (.inr (.inr ht))
      · exact .inr ht
  flat := hd
  frontier := ⟨fun t ht => hf.queue t (hq ▸ List.mem_cons_of_mem _ ht), hf.escapes⟩
  places := .of_eq rfl
  work := by
    simp only [LayoutState.work, hq, List.length_cons]
    omega

/-- **Every scope is drained**, however deep the `try`s are nested in it. -/
theorem finishes_drain (w : env.graph.WellStructured) (hg : env.graph.Built)
    (hlowers : env.graph.Lowers env.body) (henv : env.ranges = protectedRanges env.graph)
    (n : Nat) : Finishes env n := by
  induction n with
  | zero =>
    intro scope owed s hscope h hd hf hn
    have drained : s.queue = [] := by
      simp only [LayoutState.work] at hn
      exact List.length_eq_zero_iff.mp (by omega)
    exact ⟨s, ends_drain_nil drained, .refl h hd hf, drained⟩
  | succ n ih =>
    intro scope owed s hscope h hd hf hn
    cases hq : s.queue with
    | nil => exact ⟨s, ends_drain_nil hq, .refl h hd hf, hq⟩
    | cons b queue =>
      by_cases hb : b ∈ s.placed
      · have skipped := advances_pop h hd hf hq hb
        obtain ⟨s', hends, advances, drained⟩ := ih scope owed { s with queue } hscope
          skipped.calm hd skipped.frontier (by
            simp only [LayoutState.work, hq, List.length_cons] at hn ⊢
            omega)
        exact ⟨s', ends_drain_skip hq hb hends, skipped.trans advances, drained⟩
      · obtain ⟨s₁, hplace, first, less⟩ :=
          exists_placeBlock w hg hlowers henv ih hscope h hd hf hq hb hn
        obtain ⟨s', hends, advances, drained⟩ := ih scope owed s₁ (hscope.mono first.places.kept)
          first.calm first.flat first.frontier (by omega)
        exact ⟨s', ends_drain_place hq hb hplace hends, first.trans advances, drained⟩

end Stages

end StackScript
