import StackScript.Proofs.Layout.Effects
import StackScript.Proofs.Layout.Plan
import StackScript.Proofs.Program.Items

/-!
# No jump to the next instruction

A jump is of no use if its label comes right behind it. Tidy code has no such jump, whatever is
written behind it: the labels of its jumps have other places, or code that stays is in between.

The jump that ends a block goes to a block that is placed already, or to the one that is placed
next, whose start takes it back, or to the exit, which comes behind all other blocks. So where no
block in between is without a statement, no jump of a finished layout goes to the next instruction.

## Main definitions

* `Assembler.Clears`: the label will not come right behind the instruction
* `Assembler.Tidy`, `Assembler.TidyBut`: no jump will go to the next instruction, or only some
* `Assembler.Trails`, `LayoutState.Trails`: tidy code with a jump behind it
* `TidyBetween`, `TidyInside`: the code is tidy, up to a jump that ends the last block of a scope

## Main results

* `Assembler.TidyBut.compact`: compact code is tidy behind tidy code
* `Assembler.Trails.takenBack`: so is the code from which the last jump has been taken back
* `upkeep_tidy`: every step of a layout keeps it so
* `ne_of_layOut`: no jump of a finished layout goes to the next instruction
* `ne_of_compileRoutine`: nor does a jump of a compiled routine
-/

namespace StackScript

open Emit Arrange

/-! ## Tidy code -/

namespace Assembler

variable {a b asm : Assembler} {kind : BranchKind} {k l : Label} {m n o : Nat}

/-- Wherever the label gets its place, this is not right behind the instruction. -/
def Clears (asm : Assembler) (n : Nat) (l : Label) : Prop :=
  ∀ later, asm.Evolves later → later.fault = none → ∀ o, later.PlacedAt l o → o ≠ n + 1

namespace Clears

theorem evolves (h : a.Clears n l) (goes : a.Evolves b) : b.Clears n l :=
  fun later goes' => h later (goes.trans goes')

/-- The label has another place already. -/
theorem of_placedAt (hs : asm.Sound) (ho : asm.PlacedAt l o) (ne : o ≠ n + 1) : asm.Clears n l :=
  fun _ goes hf _ ho' => ((goes.kept hs hf).placed l o ho).unique ho' ▸ ne

/-- The next instruction stays, and there the label is not. -/
theorem of_lasts (stays : asm.Lasts (n + 2)) (away : ∀ o, asm.PlacedAt l o → o ≠ n + 1) :
    asm.Clears n l := fun _ goes hf o ho => by
  obtain here | behind := stays.placedAt goes hf ho
  · exact away o here
  · omega

end Clears

/-- No jump goes to the next instruction, whatever is written, apart from some whose labels come
later. -/
def TidyBut (asm : Assembler) (late : Nat → Label → Prop) : Prop :=
  ∀ n l, asm.Awaits n l → asm.code[n]? = some (.jump 0) → asm.Clears n l ∨ late n l

/-- No jump goes to the next instruction, whatever is written. -/
def Tidy (asm : Assembler) : Prop := asm.TidyBut fun _ _ => False

namespace TidyBut

variable {late : Nat → Label → Prop}

/-- No branch is added. -/
theorem evolves (h : a.TidyBut late) (goes : a.Evolves b) (hs : b.Sound)
    (waits : ∀ n l, b.Awaits n l → a.Awaits n l)
    (code : ∀ n < b.code.size, b.code[n]? = a.code[n]?) : b.TidyBut late := fun n l w jump =>
  (h n l (waits n l w) (code n (hs.lt w) ▸ jump)).imp_left (·.evolves goes)

/-- **Compact code is tidy** behind tidy code. -/
theorem compact (h : a.TidyBut late) (hs : a.Sound) (compact : a.Compact b)
    (hf : b.fault = none) : b.TidyBut late := fun n l waits jump => by
  obtain waits | placed := compact.hops hs hf waits jump
  · rw [compact.grown.getElem? (hs.lt waits)] at jump
    exact (h n l waits jump).imp_left (·.evolves compact.evolves)
  · exact .inl (.of_placedAt (compact.evolves.sound hs hf) placed (Nat.succ_ne_self _))

/-- The labels that come later do not come right behind the jumps. -/
theorem tidy (h : asm.TidyBut late) (clears : ∀ n l, late n l → asm.Clears n l) : asm.Tidy :=
  fun n l waits jump => .inl ((h n l waits jump).elim id (clears n l))

end TidyBut

namespace Tidy

theorem compact (h : a.Tidy) (hs : a.Sound) (compact : a.Compact b) (hf : b.fault = none) :
    b.Tidy :=
  TidyBut.compact h hs compact hf

end Tidy

/-! ## A jump at the end -/

/-- The code is tidy code with a jump to the label behind it. -/
structure Trails (asm a : Assembler) (l : Label) : Prop where
  sound : a.Sound
  tidy : a.Tidy
  known : l < a.labels.size
  jump : asm = a.branch .always l

namespace Trails

/-- The label of the jump may come later. -/
theorem tidyBut (h : asm.Trails a l) : asm.TidyBut fun n k => n = a.code.size ∧ k = l := by
  obtain ⟨sound, tidy, known, rfl⟩ := h
  intro n k waits jump
  rw [Awaits, fixups_branch] at waits
  obtain waits | last := Array.mem_push.mp waits
  · rw [code_branch, Array.getElem?_push_lt (sound.lt waits), ← Array.getElem?_eq_getElem] at jump
    exact .inl ((tidy n k waits jump).elim (·.evolves (.single (.branch known))) False.elim)
  · exact .inr (Prod.mk.inj last)

theorem size (h : asm.Trails a l) : asm.code.size = a.code.size + 1 := by
  rw [h.jump, code_branch, Array.size_push]

/-- The last instruction waits for the label alone. -/
theorem eq_of_awaits (h : asm.Trails a l) (hs : asm.Sound) (waits : asm.Awaits a.code.size k) :
    k = l := by
  refine hs.awaits_unique waits ?_
  rw [Awaits, h.jump, fixups_branch]
  exact Array.mem_push_self

/-- As long as nothing is written, the label is not behind the jump. -/
theorem ne (h : asm.Trails a l) (hs : asm.Sound) (ho : asm.PlacedAt l o) :
    o ≠ a.code.size + 1 := by
  have kept := (hs.placed ho).1
  have fits := h.sound.pinned_le
  rw [h.jump, pinned_branch] at kept
  omega

/-- **A jump that has just been written** is taken back for its label. -/
theorem takenBack (h : asm.Trails a l) (hf : (asm.place l).fault = none) :
    (asm.place l).pin.Tidy := by
  obtain ⟨sound, tidy, known, rfl⟩ := h
  have goes : a.Evolves ((a.branch .always l).place l).pin :=
    ((Evolves.single (.branch known)).tail (.place (by simpa using known))).tail .pin
  have taken : (a.branch .always l).endsInJumpTo l = true :=
    (endsInJumpTo_branch sound.pinned_le).mpr ⟨rfl, rfl⟩
  have code : ((a.branch .always l).place l).pin.code = a.code := by
    simp [pin, place, elide, taken]
  have fixups : ((a.branch .always l).place l).pin.fixups = a.fixups := by
    simp [pin, place, elide, taken]
  exact TidyBut.evolves tidy goes (goes.sound sound hf)
    (fun n k waits => by rwa [Awaits, fixups] at waits) fun n _ => by rw [code]

end Trails

/-! ## Finished code -/

/-- **No jump of finished code goes to the next instruction** if it was tidy, and the labels that
come late are not there either. -/
theorem ne_of_finish {late : Nat → Label → Prop} {max : Nat} {out : Assembled} {t : Nat}
    (tidy : asm.TidyBut late) (away : ∀ n l o, late n l → asm.PlacedAt l o → o ≠ n + 1)
    (hs : asm.Sound) (h : asm.finish max = .ok out) (hi : out.code[n]? = some (.jump t)) :
    t ≠ n + 1 := by
  obtain ⟨l, kind, waits, placed, code, same⟩ := finish_branch hs h hi rfl
  obtain rfl : kind = .always := by cases kind <;> first | rfl | cases same
  obtain clears | last := tidy n l waits code
  · exact clears asm (.refl _) (finish_cases h).1 t placed
  · exact away n l t last placed

end Assembler

/-! ## Blocks -/

/-- The code ends in a jump to a block, and is tidy in front of it. -/
def LayoutState.Trails (s : LayoutState) (t : BlockId) : Prop :=
  ∃ a l, s.labels.lookup t = some l ∧ s.asm.Trails a l

/-- Of the blocks that have been placed, only the first and the last may be without a statement. -/
def LayoutState.Filled (graph : Graph) (s : LayoutState) : Prop :=
  ∀ b ∈ s.placed, b ≠ Graph.start → b ≠ Graph.exit → ∀ block, graph.blocks[b]? = some block →
    block.statements ≠ []

/-- Between the parts of a `try` the code is tidy. -/
structure TidyBetween (graph : Graph) (s : LayoutState) : Prop where
  laid : s.Laid graph
  begun : Graph.start ∈ s.placed
  tidy : s.Filled graph → s.asm.Tidy

/-- Inside a scope the code is tidy, up to a jump to the block that is placed next or to the exit. -/
structure TidyInside (graph : Graph) (scope : Scope) (s : LayoutState) : Prop where
  laid : s.Laid graph
  begun : Graph.start ∈ s.placed ∨ s.queue.head? = some Graph.start
  tidy : s.Filled graph → s.asm.Tidy ∨ ∃ t, s.Trails t ∧
    (t ∉ s.placed ∧ s.queue.head? = some t ∨
      t = Graph.exit ∧ scope.kind = .root ∧ Graph.start ∈ s.placed)

section Blocks

variable {env : LayoutEnv} {s s₁ : LayoutState} {b t : BlockId}

/-- The start of a block adds no jump. -/
theorem tidyBut_beginBlock {late : Nat → Label → Prop} (h : s.asm.TidyBut late) (hs : s.Ready)
    (sound : s.asm.Sound) (hf : (s.beginBlock b).asm.fault = none) :
    (s.beginBlock b).asm.TidyBut late := by
  obtain ⟨l, begun⟩ := begun_beginBlock hs sound hf
  have goes := (extends_beginBlock hs b).1
  exact h.evolves goes (goes.sound sound hf) (fun _ _ => begun.waits) begun.code

/-- The start of the block that a jump goes to takes the jump back. -/
theorem tidy_beginBlock_of_label {a : Assembler} {l : Label} (known : s.labels.lookup b = some l)
    (trails : s.asm.Trails a l) (hf : (s.beginBlock b).asm.fault = none) :
    (s.beginBlock b).asm.Tidy := by
  have named : { s with placed := b :: s.placed }.withLabel b =
      (l, { s with placed := b :: s.placed }) := by
    simp [LayoutState.withLabel, known]
  have start : (s.beginBlock b).asm = (s.asm.place l).pin := by
    simp only [LayoutState.beginBlock, named]
    rfl
  rw [start] at hf ⊢
  exact trails.takenBack hf

/-- The statements of another block come behind the jump, and its label comes behind them. -/
theorem tidy_head_of_other {a : Assembler} {l : Label} (known : s.labels.lookup b ≠ some l)
    (trails : s.asm.Trails a l) (hs : s.Ready) (sound : s.asm.Sound) (hslots : s.asm.slots.Sound)
    (hstatements : Ends (placeStatements env b) (s.beginBlock b) () s₁) (hf : s₁.asm.fault = none)
    (filled : ∀ block, env.graph.blocks[b]? = some block → block.statements ≠ []) :
    s₁.asm.Tidy := by
  obtain ⟨block, d, hblock, written, -, rfl⟩ := ends_placeStatements hstatements
  obtain ⟨compact, longer⟩ := compact_of_ends_emitStatements written
  have starts := continues_beginBlock hs hslots b
  have fault : (s.beginBlock b).asm.fault = none := compact.evolves.fault hf
  have front : (s.beginBlock b).asm.Sound := starts.evolves.sound sound fault
  obtain ⟨l', begun⟩ := begun_beginBlock hs sound fault
  have there : l < s.asm.labels.size := by
    rw [trails.jump, Assembler.labels_branch]
    exact trails.known
  have other : l ≠ l' := by
    rintro rfl
    obtain same | ⟨-, new⟩ := begun.labels
    · exact known (same ▸ begun.name)
    · have name := begun.name
      rw [new, List.lookup_cons_self] at name
      exact Nat.lt_irrefl _ (Option.some.inj name ▸ there)
  -- The start of the block leaves the jump where it is.
  have size : (s.beginBlock b).asm.code.size = a.code.size + 1 := by
    obtain same | ⟨more, -, waits, -⟩ := begun.elided
    · rw [same, trails.size]
    · rw [trails.size] at more
      rw [← Nat.succ.inj more] at waits
      exact (other (trails.eq_of_awaits sound waits).symm).elim
  have late := (tidyBut_beginBlock trails.tidyBut hs sound fault).compact front compact hf
  have stays := compact.lasts front hf (begun.pinned ▸ front.lasts)
  refine late.tidy fun n k last => ?_
  obtain ⟨rfl, rfl⟩ := last
  refine .of_lasts (stays.mono ?_) fun o ho => ?_
  · rw [Nat.succ_le_iff, ← size]
    exact longer (filled block hblock)
  · -- Statements place no labels but their own.
    have scribes := ((emits_emitStatements block.statements).grows starts.slots written).scribes
    rw [Assembler.PlacedAt, scribes.label hf (Nat.lt_of_lt_of_le there starts.evolves.labels_le)]
      at ho
    obtain ho | ⟨same, -⟩ := begun.placed ho
    · exact trails.ne sound ho
    · exact (other same).elim

/-- A block that is placed behind tidy code, or behind the jump to it. -/
theorem tidy_head (h : s.asm.Tidy ∨ s.Trails b) (hs : s.Ready) (sound : s.asm.Sound)
    (hstatements : Ends (placeStatements env b) (s.beginBlock b) () s₁)
    (hf : s₁.asm.fault = none) : s₁.asm.Tidy := by
  obtain ⟨block, d, -, written, -, rfl⟩ := ends_placeStatements hstatements
  have compact := (compact_of_ends_emitStatements written).1
  have fault : (s.beginBlock b).asm.fault = none := compact.evolves.fault hf
  have front := (extends_beginBlock hs b).1.sound sound fault
  have start : (s.beginBlock b).asm.Tidy := by
    obtain tidy | ⟨a, l, known, trails⟩ := h
    · exact tidyBut_beginBlock tidy hs sound fault
    · exact tidy_beginBlock_of_label known trails fault
  exact start.compact front compact hf

end Blocks

/-! ## Steps -/

section Steps

variable {env : LayoutEnv} {scope : Scope} {s s' : LayoutState}

/-- Edges that open no scope keep the code tidy, up to a jump at the end. -/
theorem tidyInside_of_ends_placeEdge {enter : Enter} {e : EdgeId} {edge : Edge}
    (h : TidyBetween env.graph s) (hs : s.Ready) (hslots : s.asm.slots.Sound)
    (hk : edge.kind.isTry = false) (hedge : Ends (placeEdge env enter scope e edge) s () s')
    (hf : s'.asm.fault = none) : TidyInside env.graph scope s' := by
  have connects := connects_of_ends_placeEdge hs hslots hk hedge
  have laid := h.laid.continues connects.goes hf connects.placed connects.blockOffsets
  have begun : Graph.start ∈ s'.placed := connects.placed ▸ h.begun
  refine ⟨laid, .inl begun, fun filled => ?_⟩
  have tidy := h.tidy (by rwa [LayoutState.Filled, connects.placed] at filled)
  obtain compact | ⟨t, s₁, compact, ⟨l, known, jump⟩, labels, next⟩ :=
    compact_or_jumpsTo_of_ends_placeEdge hs hk hedge
  · exact .inl (tidy.compact h.laid.sound compact.code hf)
  have there : l < s₁.asm.labels.size := compact.ready t l known
  have fault : s₁.asm.fault = none := by
    rw [jump] at hf
    exact (Assembler.fault_branch hf).1
  have trails : s'.asm.Trails s₁.asm l :=
    ⟨compact.code.evolves.sound h.laid.sound fault, tidy.compact h.laid.sound compact.code fault,
      there, jump⟩
  have named : s'.labels.lookup t = some l := labels ▸ known
  by_cases placed : t ∈ s'.placed
  · -- The label has its place in front of the jump.
    obtain ⟨o, ho⟩ := laid.placedAt placed named
    refine .inl (trails.tidyBut.tidy fun n k last => ?_)
    obtain ⟨rfl, rfl⟩ := last
    exact .of_placedAt laid.sound ho (trails.ne laid.sound ho)
  · refine .inr ⟨t, ⟨s₁.asm, l, named, trails⟩, ?_⟩
    obtain placed' | head | ⟨exit, root⟩ := next
    · exact (placed placed').elim
    · exact .inl ⟨placed, head⟩
    · exact .inr ⟨exit, root, begun⟩

/-- **Every step of a layout** keeps the code tidy, up to a jump to the block that is placed next or
to the exit. -/
theorem upkeep_tidy (hg : env.graph.Built) :
    Upkeep env (TidyBetween env.graph) (TidyInside env.graph) where
  joins h joins hf := by
    refine ⟨h.laid.continues joins.goes hf joins.placed joins.blockOffsets,
      joins.placed ▸ h.begun, fun filled => ?_⟩
    rw [LayoutState.Filled, joins.placed] at filled
    exact (h.tidy filled).compact h.laid.sound joins.compact hf
  opens h := ⟨h.laid, .inl h.begun, fun filled => .inl (h.tidy filled)⟩
  skips {_ s b rest} h hs hslots hf hq hb := by
    have same : Continues s { s with queue := rest } := .same hs hslots rfl rfl rfl
    refine ⟨h.laid.continues same hf rfl rfl, .inl ?_, fun filled => ?_⟩
    · obtain begun | head := h.begun
      · exact begun
      · rw [hq] at head
        exact Option.some.inj head ▸ hb
    · refine (h.tidy filled).imp_right fun ⟨t, trails, next⟩ => ⟨t, trails, next.imp_left ?_⟩
      rintro ⟨new, head⟩
      rw [hq] at head
      exact (new (Option.some.inj head ▸ hb)).elim
  head {_ s s₁ b _ _} h hs hslots hb hends hstatements hf := by
    have fault := (continues_of_ends_head hs hslots hstatements).evolves.fault hf
    have same : Continues { s with queue := b :: s.queue } s := .same hs hslots rfl rfl rfl
    have laid : s.Laid env.graph := h.laid.continues same fault rfl rfl
    have placed : s₁.placed = b :: s.placed := by
      obtain ⟨_, _, -, -, -, rfl⟩ := ends_placeStatements hstatements
      exact placed_beginBlock s b
    have begun : Graph.start = b ∨ Graph.start ∈ s.placed :=
      h.begun.elim .inr fun head => .inl (Option.some.inj head).symm
    refine ⟨laid.head hs hslots hstatements hf hb (.inr (isSome_outgoing? hends)),
      placed ▸ List.mem_cons.mpr begun, fun filled => ?_⟩
    rw [LayoutState.Filled, placed] at filled
    have behind : s.asm.Tidy ∨ ∃ t, s.Trails t ∧ (t ∉ s.placed ∧ b = t ∨
        t = Graph.exit ∧ _ ∧ Graph.start ∈ s.placed) :=
      (h.tidy fun c hc => filled c (List.mem_cons_of_mem _ hc)).imp_right fun ⟨t, trails, next⟩ =>
        ⟨t, trails, next.imp_left (And.imp_right Option.some.inj)⟩
    obtain tidy | ⟨t, ⟨a, l, known, trails⟩, next⟩ := behind
    · exact tidy_head (.inl tidy) hs laid.sound hstatements hf
    by_cases same : s.labels.lookup b = some l
    · exact tidy_head (.inr ⟨a, l, same, trails⟩) hs laid.sound hstatements hf
    -- The jump goes to the exit, and this is another block.
    refine tidy_head_of_other same trails hs laid.sound hslots hstatements hf ?_
    obtain ⟨-, rfl⟩ | ⟨-, -, begun⟩ := next
    · exact (same known).elim
    · exact filled b List.mem_cons_self (fun first => hb (first ▸ begun))
        (ne_exit_of_endsBlock hg hends)
  edge h hs hslots hk hedge hf := tidyInside_of_ends_placeEdge h hs hslots hk hedge hf
  closes {_ s} h hq nested := by
    refine ⟨h.laid, h.begun.resolve_right (by simp [hq]), fun filled => ?_⟩
    refine (h.tidy filled).resolve_right fun ⟨t, _, next⟩ => ?_
    obtain ⟨-, head⟩ | ⟨-, root, -⟩ := next
    · simp [hq] at head
    · exact nested root

end Steps

/-! ## Whole graphs -/

section Graphs

variable {body : BodyEnv} {graph : Graph} {draft : Draft} {layout : Layout}

/-- The start of a layout, if the code in front of it is tidy. -/
theorem tidyInside_start (sound : draft.asm.Sound) (tidy : draft.asm.Tidy) :
    TidyInside graph Scope.root (.start draft) :=
  ⟨laid_start sound, .inr rfl, fun _ => .inl tidy⟩

/-- Every block that control may reach has a statement, apart from the start and the exit. -/
def Graph.Filled (graph : Graph) : Prop :=
  ∀ b block, graph.Reaches b → b ≠ start → b ≠ exit → graph.blocks[b]? = some block →
    block.statements ≠ []

/-- A layout behind tidy code, as long as no block in between is without a statement. -/
theorem ne_of_tidy (built : graph.Built) (hdraft : Assembler.Evolves .empty draft.asm)
    (tidy : draft.asm.Sound → draft.asm.Tidy) (filled : graph.Filled)
    (h : (layOut body graph draft).1 = .ok layout) {n t : Nat}
    (hi : layout.assembled.code[n]? = some (.jump t)) : t ≠ n + 1 := by
  obtain ⟨s, hends, hfinish, -, -⟩ := ends_of_layOut h
  have hf := (Assembler.finish_cases hfinish).1
  have complete := complete_of_ends_placeAll built hdraft hends hf
  obtain ⟨ready, slots, starts⟩ := begins_start hdraft
  obtain ⟨p, hlays, hexit⟩ := lays_of_ends_placeAll hends
  have goes := (continues_of_lays hlays ready slots starts).1
  -- All blocks but the exit are drained in the root scope.
  have drained (hf : p.state.asm.fault = none) (within : ∀ b ∈ p.state.placed, b ∈ s.placed) :
      p.state.Laid graph ∧ (p.state.asm.Tidy ∨ p.state.Trails Graph.exit) := by
    have sound := hdraft.sound Assembler.sound_empty (goes.evolves.fault hf)
    obtain ⟨inside, queue⟩ := (upkeep_tidy built).lays hlays ready slots starts
      (tidyInside_start sound (tidy sound)) hf
    refine ⟨inside.laid, (inside.tidy fun b hb first last block known => ?_).imp_right ?_⟩
    · exact filled b block (complete.rooted b (within b hb)) first last known
    · rintro ⟨t, trails, ⟨-, head⟩ | ⟨rfl, -⟩⟩
      · simp [queue] at head
      · exact trails
  have sound := complete.laid.sound
  split at hexit
  · obtain ⟨s₁, hstatements, written, returned⟩ := hexit.joins goes.ready goes.slots
    have fault := returned.goes.evolves.fault hf
    have begun := (extends_beginBlock goes.ready Graph.exit).1
    obtain ⟨laid, tidy⟩ := drained (begun.fault (written.evolves.fault fault)) fun b hb => by
      rw [(hexit.continues goes.ready goes.slots).2.2.1]
      exact List.mem_cons_of_mem _ hb
    have exit := tidy_head tidy goes.ready laid.sound hstatements fault
    have behind := (begun.trans written.evolves).sound laid.sound fault
    exact Assembler.ne_of_finish (exit.compact behind returned.compact hf) (fun _ _ _ => False.elim)
      sound hfinish hi
  · subst hexit
    obtain ⟨-, tidy | ⟨a, l, -, trails⟩⟩ := drained hf fun b hb => hb
    · exact Assembler.ne_of_finish tidy (fun _ _ _ => False.elim) sound hfinish hi
    · refine Assembler.ne_of_finish trails.tidyBut (fun n k o last ho => ?_) sound hfinish hi
      obtain ⟨rfl, rfl⟩ := last
      exact trails.ne sound ho

/-- **No jump of a finished layout goes to the next instruction**, if every block that control may
reach, apart from the start and the exit, has a statement. -/
theorem ne_of_layOut {steps : List BuildStep} (hg : Graph.build steps = .ok graph)
    (hdraft : Assembler.Evolves .empty draft.asm)
    (front : ∀ n l, draft.asm.Awaits n l → ∃ o, draft.asm.PlacedAt l o ∧ o ≠ n + 1)
    (filled : ∀ b block, graph.Reaches b → b ≠ Graph.start → b ≠ Graph.exit →
      graph.blocks[b]? = some block → block.statements ≠ [])
    (h : (layOut body graph draft).1 = .ok layout) {n t : Nat}
    (hi : layout.assembled.code[n]? = some (.jump t)) : t ≠ n + 1 := by
  refine ne_of_tidy (Graph.built_of_build hg) hdraft (fun sound n l waits _ => ?_) filled h hi
  obtain ⟨o, placed, ne⟩ := front n l waits
  exact .inl (.of_placedAt sound placed ne)

/-- The target of a plain jump. -/
def Instruction.jump? : Instruction → Option Nat
  | .jump t => some t
  | _ => none

theorem Instruction.eq_of_jump? {i : Instruction} {t : Nat} (h : i.jump? = some t) : i = .jump t := by
  cases i <;> cases h
  rfl

/-- A loop through a `try`, with a statement in every block but the start and the exit. -/
def filledLoop : List BuildStep := [
  .addBlocks 5,
  .pushStatement 2 ⟨.echo (.literal (.long 1)), none⟩,
  .pushStatement 3 ⟨.eval (.literal .null), none⟩,
  .pushStatement 4 ⟨.eval (.literal .null), none⟩,
  .pushStatement 5 ⟨.eval (.literal .null), none⟩,
  .pushStatement 6 ⟨.eval (.literal .null), none⟩,
  .connect 0 (.jump 2),
  .connect 2 (.tryCatch 3 [⟨⟨"Exception"⟩, none, 4⟩] none 5),
  .connect 3 (.branch (.literal .null) 3 5),
  .connect 4 (.jump 1),
  .connect 5 (.branch (.literal .null) 6 1),
  .connect 6 (.jump 2)]

theorem ne_of_layOut_filledLoop :
    ∃ graph layout, Graph.build filledLoop = .ok graph ∧
      (layOut ⟨⟨[], none⟩, .ofPreset .release, "f", [], true, true⟩ graph (.start 0)).1 =
        .ok layout ∧
      layout.assembled.code[19]? = some (.jump 0) ∧ 0 ≠ 19 + 1 := by
  have checked : ((Graph.build filledLoop).toOption.bind fun graph =>
      (layOut ⟨⟨[], none⟩, .ofPreset .release, "f", [], true, true⟩ graph
        (.start 0)).1.toOption.map fun layout =>
          ((graph.blocks.toList.drop 2).all (!·.statements.isEmpty),
            layout.assembled.code[19]?.bind Instruction.jump?)) = some (true, some 0) := by
    decide +kernel
  obtain ⟨graph, hg, checked⟩ := Option.bind_eq_some_iff.mp checked
  obtain ⟨layout, hl, checked⟩ := Option.map_eq_some_iff.mp checked
  obtain ⟨filled, jump⟩ := Prod.mk.inj checked
  have jump : layout.assembled.code[19]? = some (.jump 0) := by
    obtain ⟨i, there, jumps⟩ := Option.bind_eq_some_iff.mp jump
    rw [there, Instruction.eq_of_jump? jumps]
  have statements (b : BlockId) (block : Block) (first : b ≠ Graph.start) (last : b ≠ Graph.exit)
      (known : graph.blocks[b]? = some block) : block.statements ≠ [] := by
    obtain ⟨k, rfl⟩ := Nat.exists_eq_add_of_le ((Nat.two_le_iff b).mpr ⟨first, last⟩)
    have mem : block ∈ graph.blocks.toList.drop 2 :=
      List.mem_of_getElem? (by rw [List.getElem?_drop, Array.getElem?_toList, known])
    simpa using List.all_eq_true.mp filled block mem
  have built := ok_of_toOption hg
  have laid := ok_of_toOption hl
  have front (n : Nat) (l : Label) (waits : (Draft.start 0).asm.Awaits n l) :
      ∃ o, (Draft.start 0).asm.PlacedAt l o ∧ o ≠ n + 1 := by
    cases Array.mem_toList_iff.mpr waits
  exact ⟨graph, layout, built, laid, jump,
    ne_of_layOut built (.refl _) front (fun b block _ => statements b block) laid jump⟩

/-- **No jump of a compiled routine goes to the next instruction**, if its blocks are filled: no branch
comes in front of the layout. -/
theorem ne_of_compileRoutine {steps : List BuildStep} {table : Table} {settings : Settings}
    {routine : Routine} {file : String} {site : Option String} {nextSite : SiteId} {code : Body}
    (hg : Graph.build steps = .ok routine.graph) (filled : routine.graph.Filled)
    (h : (compileRoutine table settings routine file site nextSite).1 = .ok code) {n t : Nat}
    (hi : code.code[n]? = some (.jump t)) : t ≠ n + 1 := by
  obtain ⟨draft, layout, checks, laid, rfl⟩ := exists_layout_of_compileRoutine h
  obtain ⟨written, plain⟩ := plain_of_ends_receiverCheck checks
  refine ne_of_tidy (Graph.built_of_build hg) written (fun _ n l _ jump => ?_) filled laid hi
  cases plain _ (Array.mem_of_getElem? jump)

end Graphs

end StackScript
