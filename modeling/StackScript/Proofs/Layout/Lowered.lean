import StackScript.Proofs.Layout.Labelled
import StackScript.Proofs.Layout.Structured

/-!
# Blocks without a fault

The expressions of a graph are written one by one, each by a step that succeeds always or never.
Where all of them succeed and all targets have a route, every block is laid out up to the end of
its edge.

## Main definitions

* `EdgeKind.Lowers`, `Graph.Lowers`: the statements and the edges of a graph can be written

## Main results

* `exists_placeStatements`: the statements of a block
* `exists_placeEdge`: the edge of a block, if it opens no scope
-/

namespace StackScript

open Emit Arrange Assembler

/-! ## What can be written -/

/-- The expressions and variables of an edge can be written. -/
def EdgeKind.Lowers (env : BodyEnv) : EdgeKind → Prop
  | .jump _ => True
  | .branch condition _ _ => StackScript.Lowers (emitValue env condition)
  | .tryCatch _ catches _ _ => ∀ clause ∈ catches, ∀ name ∈ clause.binding,
      StackScript.Lowers (storeVariable env name)
  | .enumerate subject _ => StackScript.Lowers (emitValue env subject)
  | .advance _ key value _ _ => StackScript.Lowers (storeVariable env value) ∧
      ∀ name ∈ key, StackScript.Lowers (storeVariable env name)
  | .switch subject cases _ => StackScript.Lowers (emitValue env subject) ∧
      ∀ c ∈ cases, ∀ value ∈ c.value, StackScript.Lowers (emitValue env value)

/-- The statements and the edges of the reachable blocks can be written. -/
structure Graph.Lowers (env : BodyEnv) (graph : Graph) : Prop where
  statements : ∀ b, graph.Reaches b → ∀ block ∈ graph.blocks[b]?,
    StackScript.Lowers (emitStatements env block.statements)
  edges : ∀ b, graph.Reaches b → ∀ edge ∈ graph.outgoing? b, edge.kind.Lowers env

section Blocks

variable {env : LayoutEnv} {scope : Scope} {targets : List BlockId} {s s₁ s' : LayoutState}
  {b t : BlockId} {l : Label} {r : Route}

/-! ## The start of a block -/

theorem beginBlock_eq (s : LayoutState) (b : BlockId) :
    s.beginBlock b = { (s.withLabel b).2.mapAsm (fun asm => (asm.place (s.withLabel b).1).pin) with
      placed := b :: s.placed
      blockOffsets := s.blockOffsets.push
        (b, ((s.withLabel b).2.asm.place (s.withLabel b).1).code.size) } := by
  simp only [LayoutState.beginBlock, LayoutState.withLabel]
  cases s.labels.lookup b <;> rfl

/-- A label that is put in place of a jump to it, from where no values are on the stack. -/
theorem faultless_place (h : s.Labelled) (hl : s.labels.lookup b = some l) (hb : b ∉ s.placed)
    (hd : s.asm.depth = 0) : (s.asm.place l).fault = none ∧ (s.asm.elide l).depthAt l = 0 := by
  have zero : (s.asm.elide l).depthAt l = 0 := by
    unfold depthAt
    split
    · rw [depth_elide, hd]
    · cases hdepth : (s.asm.label l).depth with
      | none => rw [label_elide, hdepth, Option.getD_none]
      | some d => rw [label_elide, hdepth, Option.getD_some, h.flat hl hdepth]
  refine ⟨faultless_mark (fault_elide.trans h.faultless) ?_ fun d hd' => ?_, zero⟩
  · rw [label_elide]
    cases ho : (s.asm.label l).offset with
    | none => rfl
    | some o => exact (hb ((h.marked hl).mp ⟨o, ho⟩)).elim
  · rw [label_elide] at hd'
    rw [zero, h.flat hl hd']

/-- **A block starts** where no values are on the stack. -/
theorem labelled_beginBlock (h : s.Labelled) (hb : b ∉ s.placed) (hd : s.asm.depth = 0) :
    (s.beginBlock b).Labelled ∧ (s.beginBlock b).asm.depth = 0 := by
  have named := labelled_withLabel h b
  have hl := lookup_withLabel s b
  have placed : (s.withLabel b).2.placed = s.placed := placed_withLabel s b
  obtain ⟨hf, zero⟩ := faultless_place named hl (placed ▸ hb) ((depth_withLabel s b).trans hd)
  obtain ⟨evolves, ready, -, -⟩ := extends_beginBlock h.ready b
  have known : (s.withLabel b).1 < ((s.withLabel b).2.asm.elide (s.withLabel b).1).labels.size := by
    simpa using named.ready b _ hl
  have label (k : Label) : ((s.withLabel b).2.asm.place (s.withLabel b).1).label k = _ :=
    label_mark known hf
  rw [beginBlock_eq] at evolves ready ⊢
  refine ⟨⟨ready, evolves.sound h.sound hf, evolves.slots_sound h.slots, hf, named.injective,
    fun c hc => ?_, fun {c k} hc => ?_, fun {c k d} hc hd' => ?_⟩, (depth_mark hf).trans zero⟩
  · obtain rfl | hc := List.mem_cons.mp hc
    · exact ⟨_, hl⟩
    · exact named.named c (placed ▸ hc)
  · -- A label has a place if it had one, or if it is the one that gets its place here. No other
    -- block shares that one.
    show (∃ o, (((s.withLabel b).2.asm.place (s.withLabel b).1).label k).offset = some o) ↔
      c ∈ b :: s.placed
    have hc : (s.withLabel b).2.labels.lookup c = some k := hc
    rw [label, List.mem_cons]
    split
    case isTrue hk => exact ⟨fun _ => .inl (named.injective (hk ▸ hc) hl), fun _ => ⟨_, rfl⟩⟩
    case isFalse hk =>
      have ne : c ≠ b := by
        rintro rfl
        exact hk (Option.some.inj (hc.symm.trans hl))
      rw [label_elide, ← placed, ← named.marked hc]
      exact ⟨.inr, fun h => h.resolve_left ne⟩
  · have hc : (s.withLabel b).2.labels.lookup c = some k := hc
    have hd' : (((s.withLabel b).2.asm.place (s.withLabel b).1).label k).depth = some d := hd'
    rw [label] at hd'
    split at hd'
    · cases hd'
      exact zero
    · rw [label_elide] at hd'
      exact named.flat hc hd'

/-! ## Statements -/

variable (env scope targets) in
/-- **The statements of a block** leave nothing on the stack. -/
theorem exists_placeStatements {block : Block} (h : s.Labelled) (hd : s.asm.depth = 0)
    (hblock : env.graph.blocks[b]? = some block)
    (hl : Lowers (emitStatements env.body block.statements)) :
    ∃ s', Ends (placeStatements env b) s () s' ∧ Proceeds env scope targets 0 s s' ∧
      s'.asm.depth = 0 := by
  obtain ⟨_, s', hends, moves, depth⟩ := exists_write env scope targets
    (careful_emitStatements block.statements) hl h (Nat.zero_le _)
  have zero : s'.asm.depth = 0 := by omega
  refine ⟨s', ?_, moves, zero⟩
  unfold placeStatements
  rw [hblock]
  refine ends_bind.mpr ⟨_, s', hends, ends_bind.mpr ⟨s', s', ends_get.mpr ⟨rfl, rfl⟩, ?_⟩⟩
  have flat : ¬ s'.draft.asm.depth ≠ 0 := not_not.mpr zero
  dsimp only
  rw [if_neg flat]
  exact ends_pure.mpr ⟨rfl, rfl⟩

/-! ## Edges -/

variable (env scope targets) in
/-- The slot of a loop's enumerator, and nothing else. -/
theorem exists_enumeratorSlot (h : s.Labelled) (e : EdgeId) :
    ∃ slot s', Ends (enumeratorSlot e) s slot s' ∧ Proceeds env scope targets 0 s s' ∧
      s'.asm.depth = s.asm.depth := by
  cases he : s.enumerators.lookup e with
  | some slot =>
    refine ⟨slot, s, ?_, .refl h, rfl⟩
    simp [enumeratorSlot, he]
  | none =>
    have same : LayoutState.Labelled { s with
        draft := ⟨{ s.asm with slots := s.asm.slots.enumerator.2 }, s.draft.nextSite⟩ } :=
      h.neat (n := 0) (neat_serve (.enumerator _)) (Nat.zero_le _)
    have hends : Ends (enumeratorSlot e) s s.asm.slots.enumerator.1 { s with
        draft := ⟨{ s.asm with slots := s.asm.slots.enumerator.2 }, s.draft.nextSite⟩
        enumerators := (e, s.asm.slots.enumerator.1) :: s.enumerators } := by
      simp only [enumeratorSlot, ends_bind, ends_get]
      refine ⟨s, s, ⟨rfl, rfl⟩, ?_⟩
      rw [he]
      simp only [ends_bind, ends_write, ends_withSlots, ends_modify, ends_pure]
      exact ⟨_, _, ⟨_, ⟨rfl, rfl⟩, rfl⟩, ⟨⟩, _, rfl, rfl, rfl⟩
    refine ⟨_, _, hends, ?_, rfl⟩
    obtain ⟨grown, -⟩ := extends_of_ends_enumeratorSlot h.ready hends
    exact ⟨grown, ⟨same.ready, same.sound, same.slots, same.faultless, same.injective, same.named,
      same.marked, same.flat⟩, fun hw => .inl hw, fun _ hq => .inl hq, fun _ he => .inl he,
      Nat.le_refl _⟩

variable (targets) in
/-- The cases of a switch, if all targets have a route. -/
theorem exists_placeCases {cases : List SwitchCase} (subject : LocalId) (h : s.Labelled)
    (hd : s.asm.depth = 0)
    (hl : ∀ c ∈ cases, ∀ value ∈ c.value, Lowers (emitValue env.body value))
    (hr : ∀ c ∈ cases, ∃ r, route env.ranges scope c.target = .ok r)
    (ht : ∀ c ∈ cases, c.target ∈ targets) :
    ∃ s', Ends (placeCases env scope subject cases) s () s' ∧
      Proceeds env scope targets cases.length s s' ∧ s'.asm.depth = 0 := by
  induction cases generalizing s with
  | nil => exact ⟨s, ends_pure.mpr ⟨rfl, rfl⟩, .refl h, hd⟩
  | cons c rest ih =>
    have rest' {s : LayoutState} (h : s.Labelled) (hd : s.asm.depth = 0) := ih h hd
      (fun c hc => hl c (List.mem_cons_of_mem _ hc)) (fun c hc => hr c (List.mem_cons_of_mem _ hc))
      (fun c hc => ht c (List.mem_cons_of_mem _ hc))
    cases hv : c.value with
    | none =>
      obtain ⟨s', hends, moves, zero⟩ := rest' h hd
      refine ⟨s', ?_, moves.mono (Nat.le_succ _), zero⟩
      simpa only [placeCases, hv] using hends
    | some value =>
      -- A value that can be written anywhere can be written here.
      obtain ⟨_, d, hvalue⟩ := (careful_emitValue value).total (hl c List.mem_cons_self value hv)
        ⟨s.asm.emit (.loadLocal subject), s.draft.nextSite⟩
      have slots : (s.asm.emit (.loadLocal subject)).slots.Sound := by simpa using h.slots
      have loaded : s.asm.Neat 0 1 (s.asm.emit (.loadLocal subject)) :=
        neat_emit rfl (Nat.le_refl _) rfl
      have valued : s.asm.Neat 0 (1 + 1) d.asm := loaded.trans
        ((careful_emitValue value).neat (d := ⟨_, s.draft.nextSite⟩) slots hvalue)
        (Nat.le_refl 0) (by decide)
      have compared : s.asm.Neat 0 (1 + 1 + -1) (d.asm.emit (.binary .eq)) :=
        valued.emit (i := .binary .eq) rfl rfl (by decide)
      obtain ⟨written, depth⟩ := proceeds_code env scope targets h d.nextSite compared
        (Nat.zero_le _)
      obtain ⟨r, hroute⟩ := hr c List.mem_cons_self
      obtain ⟨s₁, hjump, jumped, zero⟩ := exists_transferIf targets .ifTrue (.inl rfl)
        written.labelled hroute (ht c List.mem_cons_self) (by
          show (d.asm.emit (.binary .eq)).depth = 1
          omega)
      obtain ⟨s', hends, moves, zero'⟩ := rest' jumped.labelled zero
      refine ⟨s', ?_, ?_, zero'⟩
      · simp only [placeCases, hv, ends_bind, ends_write, ends_emit]
        exact ⟨⟨⟩, _, ⟨_, ⟨⟨⟩, _, rfl, _, d, hvalue, rfl⟩, rfl⟩, ⟨⟩, s₁, hjump, hends⟩
      · refine ((written.trans jumped).trans moves).mono ?_
        rw [List.length_cons]
        omega

/-- What an enumerator gives is bound to a variable. -/
theorem exists_storeVariable {env : BodyEnv} {d : Draft} {i : Instruction} {name : String}
    (slot : LocalId) (ht : i.target? = none) (hp : i.pops = 1) (hk : i.change = 0)
    (hs : d.asm.slots.Sound) (hl : Lowers (storeVariable env name)) :
    ∃ d', Ends (storeVariable env name)
        ⟨(d.asm.emit (.loadLocal slot)).emit i, d.nextSite⟩ () d' ∧
      d.asm.Neat 0 0 d'.asm := by
  have loaded : d.asm.Neat 0 1 (d.asm.emit (.loadLocal slot)) :=
    neat_emit rfl (Nat.le_refl _) rfl
  have given : d.asm.Neat 0 (1 + 0) ((d.asm.emit (.loadLocal slot)).emit i) :=
    loaded.emit ht hk (by omega)
  obtain ⟨_, d', hends⟩ := (careful_storeVariable name).total hl
    ⟨(d.asm.emit (.loadLocal slot)).emit i, d.nextSite⟩
  have stored := (careful_storeVariable name).neat
    (d := ⟨(d.asm.emit (.loadLocal slot)).emit i, d.nextSite⟩) (by simpa using hs) hends
  exact ⟨d', hends, given.trans stored (Nat.le_refl 0) (by decide)⟩

variable (scope targets) in
/-- The entry that an enumerator stands on is bound. -/
theorem exists_bindEntry (slot : LocalId) {key : Option String} {value : String} (h : s.Labelled)
    (hd : s.asm.depth = 0) (hv : Lowers (storeVariable env.body value))
    (hk : ∀ name ∈ key, Lowers (storeVariable env.body name)) :
    ∃ s', Ends (write (bindEntry env.body slot key value)) s () s' ∧
      Proceeds env scope targets 0 s s' ∧ s'.asm.depth = 0 := by
  have bound : ∃ d, Ends (bindEntry env.body slot key value) s.draft () d ∧
      s.asm.Neat 0 0 d.asm := by
    obtain ⟨d₁, hvalue, first⟩ := exists_storeVariable (i := .enumeratorValue) slot rfl rfl rfl
      h.slots hv
    simp only [bindEntry, ends_bind, ends_emit]
    cases key with
    | none => exact ⟨d₁, ⟨⟨⟩, _, rfl, ⟨⟩, _, rfl, ⟨⟩, d₁, hvalue, ends_pure.mpr ⟨rfl, rfl⟩⟩, first⟩
    | some name =>
      obtain ⟨d₂, hkey, second⟩ := exists_storeVariable (d := d₁) (i := .enumeratorKey) slot rfl rfl
        rfl (first.evolves.slots_sound h.slots) (hk name rfl)
      refine ⟨d₂, ⟨⟨⟩, _, rfl, ⟨⟩, _, rfl, ⟨⟩, d₁, hvalue, ?_⟩,
        first.trans second (Nat.le_refl 0) (by decide)⟩
      simp only [ends_bind, ends_emit]
      exact ⟨⟨⟩, _, rfl, ⟨⟩, _, rfl, hkey⟩
  obtain ⟨d, hends, neat⟩ := bound
  obtain ⟨moves, depth⟩ := proceeds_code env scope targets h d.nextSite neat
    (Nat.zero_le _)
  refine ⟨_, ends_write.mpr ⟨d, hends, rfl⟩, moves, ?_⟩
  show d.asm.depth = 0
  omega

section Edges

variable {enter : Enter} {e : EdgeId} {number : UInt32} {source : BlockId}

/-- Two ways out: the stack is empty where the code goes on to either. -/
theorem exists_branchEdge {condition : Expr} {ifTrue ifFalse : BlockId} (h : s.Labelled)
    (hd : s.asm.depth = 0) (hl : Lowers (emitValue env.body condition))
    (hr : ∀ t ∈ [ifTrue, ifFalse], ∃ r, route env.ranges scope t = .ok r) :
    ∃ s', Ends (placeEdge env enter scope e ⟨number, source, .branch condition ifTrue ifFalse⟩) s () s' ∧
      Proceeds env scope [ifTrue, ifFalse] 2 s s' ∧ s'.asm.depth = 0 := by
  obtain ⟨_, s₁, hcondition, written, depth⟩ := exists_write env scope [ifTrue, ifFalse]
    (careful_emitValue condition) hl h (Nat.zero_le _)
  obtain ⟨r₁, hfalse⟩ := hr ifFalse (List.mem_cons_of_mem _ List.mem_cons_self)
  obtain ⟨s₂, hjump, jumped, zero⟩ := exists_transferIf [ifTrue, ifFalse] .ifFalse
    (.inr rfl) written.labelled hfalse
    (List.mem_cons_of_mem _ List.mem_cons_self) (by omega)
  obtain ⟨r₂, htrue⟩ := hr ifTrue List.mem_cons_self
  obtain ⟨s', hends, moves, zero'⟩ := exists_transfer [ifTrue, ifFalse]
    jumped.labelled htrue List.mem_cons_self zero
  refine ⟨s', ?_, ((written.trans jumped).trans moves).mono (by simp), zero'⟩
  exact ends_bind.mpr ⟨_, s₁, hcondition, ends_bind.mpr ⟨⟨⟩, s₂, hjump, hends⟩⟩

/-- A loop starts: its enumerator has a slot from here on. -/
theorem exists_enumerateEdge {subject : Expr} {target : BlockId} (h : s.Labelled)
    (hd : s.asm.depth = 0) (hl : Lowers (emitValue env.body subject))
    (hr : ∃ r, route env.ranges scope target = .ok r) :
    ∃ s', Ends (placeEdge env enter scope e ⟨number, source, .enumerate subject target⟩) s () s' ∧
      Proceeds env scope [target] 2 s s' ∧ s'.asm.depth = 0 ∧
      ∃ slot, s'.enumerators.lookup e = some slot := by
  obtain ⟨_, d, hsubject⟩ := (careful_emitValue subject).total hl s.draft
  have opened : s.asm.Neat 0 (1 + 0) (d.asm.emit .getEnumerator) :=
    ((careful_emitValue subject).neat h.slots hsubject).emit rfl rfl (by decide)
  obtain ⟨written, depth⟩ := proceeds_code env scope [target] h d.nextSite opened
    (Nat.zero_le _)
  obtain ⟨slot, s₂, hslot, named, same⟩ := exists_enumeratorSlot env scope [target]
    written.labelled e
  -- The slot is looked up with the enumerator on the stack.
  have one : s₂.asm.depth = 1 := by
    have same : s₂.asm.depth = (d.asm.emit .getEnumerator).depth := same
    omega
  have popped : s₂.asm.Neat 1 (-1) (s₂.asm.emit (.storeLocal slot)) :=
    neat_emit rfl (Nat.le_refl _) rfl
  obtain ⟨stored, depth'⟩ := proceeds_code env scope [target] named.labelled
    s₂.draft.nextSite popped (Nat.le_of_eq one.symm)
  obtain ⟨r, hroute⟩ := hr
  obtain ⟨s', hends, moves, zero⟩ := exists_transfer [target] stored.labelled hroute
    List.mem_cons_self (by
      show (s₂.asm.emit (.storeLocal slot)).depth = 0
      omega)
  have all := ((written.trans named).trans stored).trans moves
  refine ⟨s', ?_, all.mono (by simp), zero, slot, ?_⟩
  · simp only [placeEdge, ends_bind, ends_write, ends_emit]
    exact ⟨⟨⟩, _, ⟨_, ⟨_, d, hsubject, rfl⟩, rfl⟩, slot, s₂, hslot, ⟨⟩, _, ⟨_, rfl, rfl⟩, hends⟩
  · obtain ⟨-, known⟩ : Extends scope [target] _ s₂ ∧ _ :=
      extends_of_ends_enumeratorSlot written.labelled.ready hslot
    exact moves.grown.enumerators e slot (stored.grown.enumerators e slot known)

/-- A loop goes on, if its enumerator has a slot. -/
theorem exists_advanceEdge {loop : EdgeId} {key : Option String} {value : String}
    {body next : BlockId} {slot : LocalId} (h : s.Labelled) (hd : s.asm.depth = 0)
    (hv : Lowers (storeVariable env.body value))
    (hk : ∀ name ∈ key, Lowers (storeVariable env.body name))
    (hr : ∀ t ∈ [body, next], ∃ r, route env.ranges scope t = .ok r)
    (hslot : s.enumerators.lookup loop = some slot) :
    ∃ s', Ends (placeEdge env enter scope e ⟨number, source, .advance loop key value body next⟩)
      s () s' ∧
      Proceeds env scope [body, next] 2 s s' ∧ s'.asm.depth = 0 := by
  have loaded : s.asm.Neat 0 1 (s.asm.emit (.loadLocal slot)) :=
    neat_emit rfl (Nat.le_refl _) rfl
  have advanced : s.asm.Neat 0 (1 + 0) ((s.asm.emit (.loadLocal slot)).emit .advance) :=
    loaded.emit rfl rfl (by decide)
  obtain ⟨written, depth⟩ := proceeds_code env scope [body, next] h s.draft.nextSite advanced
    (Nat.zero_le _)
  obtain ⟨r₁, hnext⟩ := hr next (List.mem_cons_of_mem _ List.mem_cons_self)
  obtain ⟨s₂, hjump, jumped, zero⟩ := exists_transferIf [body, next] .ifFalse
    (.inr rfl) written.labelled hnext
    (List.mem_cons_of_mem _ List.mem_cons_self) (by
      show ((s.asm.emit (.loadLocal slot)).emit .advance).depth = 1
      omega)
  obtain ⟨s₃, hbind, bound, zero₃⟩ := exists_bindEntry scope [body, next] slot
    jumped.labelled zero hv hk
  obtain ⟨r₂, hbody⟩ := hr body List.mem_cons_self
  obtain ⟨s', hends, moves, zero'⟩ := exists_transfer [body, next] bound.labelled
    hbody List.mem_cons_self zero₃
  have all := ((written.trans jumped).trans bound).trans moves
  refine ⟨s', ?_, all.mono (by simp), zero'⟩
  unfold placeEdge
  refine ends_bind.mpr ⟨s, s, ends_get.mpr ⟨rfl, rfl⟩, ?_⟩
  rw [hslot]
  refine ends_bind.mpr ⟨⟨⟩, _, ?_, ends_bind.mpr ⟨⟨⟩, s₂, hjump,
    ends_bind.mpr ⟨⟨⟩, s₃, hbind, hends⟩⟩⟩
  simp only [ends_write, ends_bind, ends_emit]
  exact ⟨_, ⟨⟨⟩, _, rfl, rfl⟩, rfl⟩

/-- A switch keeps its subject in a slot of its own, as long as it compares. -/
theorem exists_switchEdge {subject : Expr} {cases_ : List SwitchCase} {next : BlockId}
    (h : s.Labelled) (hd : s.asm.depth = 0) (hl : Lowers (emitValue env.body subject))
    (hc : ∀ c ∈ cases_, ∀ value ∈ c.value, Lowers (emitValue env.body value))
    (hr : ∀ t ∈ (EdgeKind.switch subject cases_ next).targets,
      ∃ r, route env.ranges scope t = .ok r) :
    ∃ s', Ends (placeEdge env enter scope e ⟨number, source, .switch subject cases_ next⟩) s () s' ∧
      Proceeds env scope (EdgeKind.switch subject cases_ next).targets (cases_.length + 2) s s' ∧
      s'.asm.depth = 0 := by
  let targets := (EdgeKind.switch subject cases_ next).targets
  obtain ⟨_, d, hsubject⟩ := (careful_emitValue subject).total hl s.draft
  have valued := (careful_emitValue subject).neat h.slots hsubject
  have served : s.asm.Neat 0 (1 + 0) { d.asm with slots := d.asm.slots.scratch.2 } :=
    valued.trans (neat_serve (n := 0) (.scratch _)) (Nat.le_refl 0) (by decide)
  have stored : s.asm.Neat 0 (1 + 0 + -1) (Assembler.emit
      { d.asm with slots := d.asm.slots.scratch.2 } (.storeLocal d.asm.slots.scratch.1)) :=
    served.emit rfl rfl (show (1 : Int) ≤ max 0 (0 + (1 + 0)) by decide)
  obtain ⟨written, depth⟩ := proceeds_code env scope targets h d.nextSite stored
    (Nat.zero_le _)
  have flat : (Assembler.emit { d.asm with slots := d.asm.slots.scratch.2 }
      (.storeLocal d.asm.slots.scratch.1)).depth = 0 := by omega
  obtain ⟨s₂, hcases, compared, zero⟩ := exists_placeCases targets
    d.asm.slots.scratch.1 written.labelled flat hc
    (fun c hc => hr c.target (List.mem_append_left _ (List.mem_map.mpr ⟨c, hc, rfl⟩)))
    (fun c hc => List.mem_append_left _ (List.mem_map.mpr ⟨c, hc, rfl⟩))
  obtain ⟨released, depth₃⟩ := proceeds_code env scope targets compared.labelled s₂.draft.nextSite
    (neat_serve (n := 0) (.release _ d.asm.slots.scratch.1)) (Nat.zero_le _)
  -- A subject that equals no case goes on at the default, or behind the switch.
  have other := otherwise_mem_targets subject cases_ next
  obtain ⟨r₁, hother⟩ := hr _ other
  obtain ⟨s₄, htransfer, jumped, zero₄⟩ := exists_transfer targets
    released.labelled hother other (by
      show s₂.asm.depth = 0
      exact zero)
  have last : next ∈ targets := List.mem_append_right _ (List.mem_singleton.mpr rfl)
  obtain ⟨r₂, hnext⟩ := hr next last
  have accepted := proceeds_accept jumped.labelled hnext last
  have all := (((written.trans compared).trans released).trans jumped).trans accepted
  refine ⟨s₄.accept next r₂, ?_, all.mono (by omega), by rw [asm_accept]; exact zero₄⟩
  refine ends_bind.mpr ⟨d.asm.slots.scratch.1, _, ?_, ends_bind.mpr ⟨⟨⟩, s₂, hcases,
    ends_bind.mpr ⟨⟨⟩, _, ends_write.mpr ⟨_, ends_release.mpr rfl, rfl⟩,
      ends_bind.mpr ⟨⟨⟩, s₄, htransfer, ends_enqueue.mpr ⟨r₂, hnext, rfl⟩⟩⟩⟩⟩
  simp only [ends_write, ends_bind, ends_scratch, ends_emit, ends_pure]
  exact ⟨_, ⟨_, d, hsubject, _, _, ⟨rfl, rfl⟩, ⟨⟩, _, rfl, rfl, rfl⟩, rfl⟩

/-- **The edge of a block** that opens no scope, if all targets have a route. -/
theorem exists_placeEdge {edge : Edge} (h : s.Labelled) (hd : s.asm.depth = 0)
    (hk : edge.kind.isTry = false) (hl : edge.kind.Lowers env.body)
    (hr : ∀ t ∈ edge.kind.targets, ∃ r, route env.ranges scope t = .ok r)
    (ha : ∀ loop ∈ edge.kind.loop?, ∃ slot, s.enumerators.lookup loop = some slot) :
    ∃ s', Ends (placeEdge env enter scope e edge) s () s' ∧
      Proceeds env scope edge.kind.targets (2 * edge.kind.targets.length) s s' ∧ s'.asm.depth = 0 ∧
      ∀ subject target, edge.kind = .enumerate subject target →
        ∃ slot, s'.enumerators.lookup e = some slot := by
  obtain ⟨number, source, kind⟩ := edge
  cases kind with
  | tryCatch => cases hk
  | jump target =>
    obtain ⟨r, hroute⟩ := hr target List.mem_cons_self
    obtain ⟨s', hends, moves, zero⟩ := exists_transfer [target] h hroute List.mem_cons_self hd
    exact ⟨s', hends, moves.mono (by simp [EdgeKind.targets]), zero, by rintro _ _ ⟨⟩⟩
  | branch condition ifTrue ifFalse =>
    obtain ⟨s', hends, moves, zero⟩ := exists_branchEdge h hd hl hr
    exact ⟨s', hends, moves.mono (by simp [EdgeKind.targets]), zero, by rintro _ _ ⟨⟩⟩
  | enumerate subject target =>
    obtain ⟨s', hends, moves, zero, named⟩ :=
      exists_enumerateEdge h hd hl (hr target List.mem_cons_self)
    exact ⟨s', hends, moves.mono (by simp [EdgeKind.targets]), zero, fun _ _ _ => named⟩
  | advance loop key value body next =>
    obtain ⟨slot, hslot⟩ := ha loop rfl
    obtain ⟨s', hends, moves, zero⟩ := exists_advanceEdge h hd hl.1 hl.2 hr hslot
    exact ⟨s', hends, moves.mono (by simp [EdgeKind.targets]), zero, by rintro _ _ ⟨⟩⟩
  | «switch» subject cases_ next =>
    obtain ⟨s', hends, moves, zero⟩ := exists_switchEdge h hd hl.1 hl.2 hr
    refine ⟨s', hends, moves.mono ?_, zero, by rintro _ _ ⟨⟩⟩
    simp only [EdgeKind.targets, List.length_append, List.length_map, List.length_singleton]
    omega

end Edges

/-! ## Handlers -/

/-- An offset that is kept, and nothing else. -/
theorem proceeds_pin (h : s.Labelled) : Proceeds env scope targets 0 s (s.mapAsm (·.pin)) :=
  (proceeds_code env scope targets h s.draft.nextSite (neat_pin (n := 0)) (Nat.zero_le _)).1

/-- The start of a handler, where no control comes from above. -/
theorem proceeds_beginHandler (h : s.Labelled) (hr : s.asm.reachable = false) (depth : Nat) :
    Proceeds env scope targets 0 s (s.beginHandler depth) := by
  have started : s.asm.Neat 0 (depth - s.asm.depth) (s.asm.pin.beginHandler depth) := {
    evolves := (Evolves.single .pin).tail (.beginHandler hr rfl)
    clean := ⟨fun hf _ => hf, fun _ _ _ hw => .inl hw⟩
    depth _ := show (depth : Int) = s.asm.depth + (depth - s.asm.depth) by omega
    label _ _ _ := rfl }
  exact (proceeds_code env scope targets h s.draft.nextSite started (Nat.zero_le _)).1

theorem careful_bindCaught {clause : CatchClause} : Careful 1 (-1) (bindCaught env clause) := by
  unfold bindCaught
  split
  · exact careful_storeVariable _
  · exact careful_emit rfl rfl (Nat.le_refl 1) rfl

/-- **The start of a `catch` handler** binds or drops the value that it handles. -/
theorem exists_bindCaught {clause : CatchClause} (h : s.Labelled) (hr : s.asm.reachable = false)
    (hl : ∀ name ∈ clause.binding, Lowers (storeVariable env.body name)) :
    ∃ d, Ends (write (bindCaught env clause)) (s.beginHandler 1) () { s with draft := d } ∧
      Proceeds env scope targets 0 s { s with draft := d } ∧ d.asm.depth = 0 := by
  have lowers : Lowers (bindCaught env clause) := by
    unfold bindCaught
    split
    case h_1 name hname => exact hl name hname
    case h_2 => exact ⟨s.draft, ⟨⟩, _, ends_emit.mpr rfl⟩
  have started : Proceeds env scope targets 0 s (s.beginHandler 1) := proceeds_beginHandler h hr 1
  obtain ⟨_, s₁, hends, bound, depth⟩ := exists_write env scope targets
    careful_bindCaught lowers started.labelled (Nat.le_refl 1)
  obtain ⟨d, hd, rfl⟩ := ends_write.mp hends
  refine ⟨d, hends, started.trans bound, ?_⟩
  have depth : (d.asm.depth : Int) = (1 : Nat) + -1 := depth
  omega

/-! ## Targets left to a scope -/

variable (targets) in
/-- **Targets that parts of a `try` leave** become part of the layout. -/
theorem exists_enqueueEscapes {escapes : List BlockId} (h : s.Labelled)
    (hr : ∀ t ∈ escapes, ∃ r, route env.ranges scope t = .ok r ∧ r ≠ .endFinally)
    (ht : ∀ t ∈ escapes, t ∈ targets) : ∃ s', Ends (enqueueEscapes env scope escapes) s () s' ∧
      Proceeds env scope targets escapes.length s s' := by
  induction escapes generalizing s with
  | nil => exact ⟨s, ends_pure.mpr ⟨rfl, rfl⟩, .refl h⟩
  | cons t rest ih =>
    obtain ⟨r, hroute, hne⟩ := hr t List.mem_cons_self
    have accepted := proceeds_accept h hroute (ht t List.mem_cons_self)
    obtain ⟨s', hends, moves⟩ := ih accepted.labelled
      (fun c hc => hr c (List.mem_cons_of_mem _ hc)) fun c hc => ht c (List.mem_cons_of_mem _ hc)
    refine ⟨s', ends_enqueueEscapes_cons.mpr ⟨r, hroute, hne, hends⟩,
      (accepted.trans moves).mono ?_⟩
    rw [List.length_cons, Nat.add_comm]

end Blocks

end StackScript
