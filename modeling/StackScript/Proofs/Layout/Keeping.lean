import StackScript.Proofs.Layout.Coverage
import StackScript.Proofs.Writing.Compact

/-!
# What a layout keeps up

Up to the jump that ends it, the edge of a block is compact code: its other branches have a
condition, or leave the scope. The jump goes to a block of the scope that is placed already or is
placed next, or to the exit.

A layout places blocks one behind the other, with their statements; in between it writes the edges
of blocks and the starts of handlers. What is kept up by these steps, one by one, is kept up by the
whole layout. Behind a block of a scope less may hold than behind the parts of a `try`, as the next
block of the scope may take back the jump that ends the code.

## Main definitions

* `LayoutState.Compact`: a layout goes on with compact code
* `JumpsTo`: a jump to a block
* `Connects`, `Joins`: a layout goes on between two blocks, or with compact code
* `Upkeep`: what is kept up by the steps of a layout, inside scopes and between them
* `KeptUp`: what is kept up in between, and by every block

## Main results

* `compact_or_jumpsTo_of_ends_placeEdge`: the code of an edge that opens no scope
* `connects_of_ends_placeEdge`: edges that open no scope come between blocks
* `Upkeep.lays`, `KeptUp.lays`: every part of a layout keeps it up
-/

namespace StackScript

open Emit Arrange

/-! ## Compact code -/

/-- A layout goes on with compact code, and no place of the source is marked. -/
structure LayoutState.Compact (s s' : LayoutState) : Prop where
  code : s.asm.Compact s'.asm
  points : s'.asm.sequencePoints = s.asm.sequencePoints
  ready : s'.Ready

/-- A jump to a block of the scope that is placed already or is placed next, or to the exit. -/
structure JumpsTo (scope : Scope) (t : BlockId) (s s' : LayoutState) : Prop where
  label : ∃ l, s.labels.lookup t = some l ∧ s'.asm = s.asm.branch .always l
  labels : s'.labels = s.labels
  next : t ∈ s'.placed ∨ s'.queue.head? = some t ∨ t = Graph.exit ∧ scope.kind = .root

section Steps

variable {α : Type} {env : LayoutEnv} {scope : Scope} {s s₁ s' : LayoutState} {t : BlockId}
  {l : Label} {r : Route} {kind : BranchKind} {u : PUnit}

namespace LayoutState.Compact

theorem refl (hs : s.Ready) : s.Compact s := ⟨.refl _, rfl, hs⟩

theorem trans (h : s.Compact s₁) (h' : s₁.Compact s') : s.Compact s' :=
  ⟨h.code.trans h'.code, h'.points.trans h.points, h'.ready⟩

/-- Only the code changes. -/
theorem of_code {d : Draft} (hs : s.Ready) (compact : s.asm.Compact d.asm)
    (points : d.asm.sequencePoints = s.asm.sequencePoints) : s.Compact { s with draft := d } where
  code := compact
  points := points
  ready b l known := Nat.lt_of_lt_of_le (hs b l known) compact.evolves.labels_le

/-- The code stays as it is. -/
theorem of_same (hs : s.Ready) (draft : s'.draft = s.draft) (labels : s'.labels = s.labels) :
    s.Compact s' := by
  have asm : s'.asm = s.asm := congrArg Draft.asm draft
  refine ⟨asm ▸ .refl _, by rw [asm], ?_⟩
  unfold LayoutState.Ready
  rw [labels, asm]
  exact hs

theorem write {step : Emit α} {x : α} (hs : s.Ready) (marksNothing : MarksNothing step)
    (h : Ends (Arrange.write step) s x s') : s.Compact s' := by
  obtain ⟨d, written, rfl⟩ := ends_write.mp h
  obtain ⟨compact, points⟩ := marksNothing _ _ _ written
  exact .of_code hs compact points

end LayoutState.Compact

theorem compact_accept (hs : s.Ready) (t : BlockId) (r : Route) : s.Compact (s.accept t r) :=
  .of_same hs (draft_accept s t r) (labels_accept s t r)

theorem compact_withLabel (hs : s.Ready) (t : BlockId) : s.Compact (s.withLabel t).2 := by
  have labelled : Extends .root [] _ _ := extends_withLabel hs t
  refine ⟨?_, ?_, labelled.ready⟩ <;> unfold LayoutState.withLabel <;>
    cases s.labels.lookup t
  · exact .defineLabel
  · exact .refl _
  · rfl
  · rfl

/-- A branch that is no plain jump. -/
theorem compact_branch (hk : kind ≠ .always) (hs : s.Ready) (hl : l < s.asm.labels.size) :
    s.Compact (s.mapAsm (·.branch kind l)) :=
  .of_code hs (.branch hk hl) Assembler.sequencePoints_branch

/-! ## Targets -/

/-- Control that leaves the scope needs no plain jump. -/
theorem compact_goTo (hs : s.Ready) (hl : l < s.asm.labels.size)
    (out : r = .leave ∨ r = .endFinally) : s.Compact (s.goTo t l r) := by
  obtain rfl | rfl := out
  · have escaped : s.Compact (s.escape t) := compact_accept hs t .leave
    exact escaped.trans (compact_branch nofun escaped.ready
      (Nat.lt_of_lt_of_le hl escaped.code.evolves.labels_le))
  · exact .of_code hs (.emit rfl) Assembler.sequencePoints_emit

theorem compact_of_ends_transfer (hs : s.Ready) (hr : route env.ranges scope t = .ok r)
    (out : r = .leave ∨ r = .endFinally) (h : Ends (transfer env scope t) s u s') :
    s.Compact s' := by
  obtain ⟨r', hr', rfl⟩ := goTo_of_ends_transfer h
  obtain rfl := Except.ok.inj (hr.symm.trans hr')
  have labelled := compact_withLabel hs t
  split
  · exact labelled.trans (compact_goTo labelled.ready (label_withLabel hs t) out)
  · exact compact_accept hs t _

/-- Control that stays in the scope, or goes to the exit from outside all scopes, needs one. -/
theorem jumpsTo_goTo (known : s.labels.lookup t = some l) (hr : route env.ranges scope t = .ok r)
    (inside : r = .within ∨ r = .exit) : JumpsTo scope t s (s.goTo t l r) := by
  obtain rfl | rfl := inside
  · simp only [LayoutState.goTo, LayoutState.pushFirst]
    split
    case isTrue placed => exact ⟨⟨l, known, rfl⟩, rfl, .inl placed⟩
    case isFalse => exact ⟨⟨l, known, rfl⟩, rfl, .inr (.inl rfl)⟩
  · exact ⟨⟨l, known, rfl⟩, rfl, .inr (.inr (route_exit hr))⟩

theorem compact_or_jumpsTo_of_ends_transfer (hs : s.Ready)
    (h : Ends (transfer env scope t) s u s') :
    s.Compact s' ∨ ∃ s₁, s.Compact s₁ ∧ JumpsTo scope t s₁ s' := by
  obtain ⟨r, hr, gone⟩ := goTo_of_ends_transfer h
  cases r
  case leave | endFinally => exact .inl (compact_of_ends_transfer hs hr (by simp) h)
  case within | exit =>
    subst gone
    split
    · exact .inr ⟨_, compact_withLabel hs t, jumpsTo_goTo (lookup_withLabel s t) hr (by simp)⟩
    · exact .inl (compact_accept hs t _)

/-- A conditional jump needs no plain one. -/
theorem compact_of_ends_transferIf (test : kind = .ifTrue ∨ kind = .ifFalse) (hs : s.Ready)
    (h : Ends (transferIf env scope kind t) s u s') : s.Compact s' := by
  obtain ⟨r, hr, h⟩ := branch_of_ends_transferIf h
  have labelled := compact_withLabel hs t
  obtain ⟨plain, negated⟩ : kind ≠ .always ∧ kind.negate ≠ .always := by
    obtain rfl | rfl := test <;> exact ⟨nofun, nofun⟩
  cases r
  case within | exit =>
    rw [h]
    have branched := labelled.trans (compact_branch plain labelled.ready (label_withLabel hs t))
    exact branched.trans (compact_accept branched.ready t _)
  case leave | endFinally =>
    obtain ⟨s₁, jumps, rfl⟩ := h
    have skip : (s.withLabel t).2.asm.labels.size <
        ((s.withLabel t).2.mapAsm (·.defineLabel.2)).asm.labels.size := by
      rw [LayoutState.asm_mapAsm, Assembler.labels_defineLabel]
      exact Nat.lt_succ_self _
    have defined : s.Compact ((s.withLabel t).2.mapAsm (·.defineLabel.2)) :=
      labelled.trans (.of_code labelled.ready .defineLabel rfl)
    have skipped := compact_branch negated defined.ready skip
    have gone := compact_of_ends_transfer skipped.ready hr (by simp) jumps
    have known := Nat.lt_of_lt_of_le skip (skipped.trans gone).code.evolves.labels_le
    exact ((defined.trans skipped).trans gone).trans
      (.of_code gone.ready (.mark known) Assembler.sequencePoints_mark)

/-! ## Edges -/

theorem compact_of_ends_enumeratorSlot {e : EdgeId} {slot : LocalId} (hs : s.Ready)
    (h : Ends (enumeratorSlot e) s slot s') : s.Compact s' := by
  simp only [enumeratorSlot, ends_bind, ends_get] at h
  obtain ⟨_, _, ⟨rfl, rfl⟩, h⟩ := h
  cases known : s.enumerators.lookup e with
  | some slot' =>
    simp only [known, ends_pure] at h
    obtain ⟨rfl, rfl⟩ := h
    exact .refl hs
  | none =>
    simp only [known, ends_bind, ends_modify, ends_pure] at h
    obtain ⟨slot', s₁, served, _, _, rfl, rfl, rfl⟩ := h
    have handed := LayoutState.Compact.write hs (Composed.slot .enumerator).marksNothing served
    exact handed.trans (.of_same handed.ready rfl rfl)

theorem compact_of_ends_placeCases {subject : LocalId} {cases : List SwitchCase} (hs : s.Ready)
    (h : Ends (placeCases env scope subject cases) s u s') : s.Compact s' := by
  induction cases generalizing s with
  | nil =>
    obtain ⟨-, rfl⟩ := ends_pure.mp h
    exact .refl hs
  | cons c rest ih =>
    cases hv : c.value with
    | none =>
      simp only [placeCases, hv] at h
      exact ih hs h
    | some value =>
      obtain ⟨d, s₁, compares, jumps, others⟩ := case_of_ends_placeCases hv h
      have marksNothing : MarksNothing (compareCase env.body subject value) :=
        MarksNothing.bind (.emit rfl) fun _ =>
          (composed_emitValue value).marksNothing.bind fun _ => .emit rfl
      have compared : s.Compact { s with draft := d } :=
        .write hs marksNothing (ends_write.mpr ⟨d, compares, rfl⟩)
      have jumped := compact_of_ends_transferIf (.inl rfl) compared.ready jumps
      exact (compared.trans jumped).trans (ih jumped.ready others)

/-- A target that is queued last, or left to others, comes behind the next block. -/
theorem JumpsTo.accept (h : JumpsTo scope t s s') (next : BlockId) (r : Route) :
    JumpsTo scope t s (s'.accept next r) := by
  obtain ⟨⟨l, known, asm⟩, labels, next'⟩ := h
  refine ⟨⟨l, known, (asm_accept s' next r).trans asm⟩, (labels_accept s' next r).trans labels, ?_⟩
  cases r
  case within =>
    simp only [LayoutState.accept, LayoutState.pushLast]
    split
    · exact next'
    · refine next'.imp_right (Or.imp_left fun head => ?_)
      obtain ⟨rest, hq⟩ := List.head?_eq_some_iff.mp head
      simp [hq]
  case exit | endFinally => exact next'
  case leave =>
    simp only [LayoutState.accept, LayoutState.escape]
    split <;> exact next'

/-- **The code of an edge that opens no scope** is compact, up to a jump that ends it. -/
theorem compact_or_jumpsTo_of_ends_placeEdge {enter : Enter} {e : EdgeId} {edge : Edge}
    (hs : s.Ready) (hk : edge.kind.isTry = false)
    (h : Ends (placeEdge env enter scope e edge) s u s') :
    s.Compact s' ∨ ∃ t s₁, s.Compact s₁ ∧ JumpsTo scope t s₁ s' := by
  -- In front of the last jump everything is compact.
  have behind {s₁ : LayoutState} {t : BlockId} (front : s.Compact s₁)
      (h : Ends (transfer env scope t) s₁ () s') :
      s.Compact s' ∨ ∃ t s₁, s.Compact s₁ ∧ JumpsTo scope t s₁ s' := by
    obtain compact | ⟨s₂, compact, jump⟩ := compact_or_jumpsTo_of_ends_transfer front.ready h
    · exact .inl (front.trans compact)
    · exact .inr ⟨t, s₂, front.trans compact, jump⟩
  have value (e : Expr) : MarksNothing (emitValue env.body e) := (composed_emitValue e).marksNothing
  obtain ⟨number, source, kind⟩ := edge
  cases kind with
  | tryCatch => cases hk
  | jump target => exact behind (.refl hs) h
  | branch condition ifTrue ifFalse =>
    obtain ⟨d, s₁, condition, ifFalse, ifTrue⟩ := parts_of_ends_branch h
    have tested := LayoutState.Compact.write hs (value _) (ends_write.mpr ⟨d, condition, rfl⟩)
    exact behind (tested.trans (compact_of_ends_transferIf (.inr rfl) tested.ready ifFalse)) ifTrue
  | enumerate subject target =>
    obtain ⟨_, s₁, opens, h⟩ := ends_bind.mp h
    obtain ⟨slot, s₂, slots, h⟩ := ends_bind.mp h
    obtain ⟨_, s₃, stores, h⟩ := ends_bind.mp h
    have opened := LayoutState.Compact.write hs ((value subject).bind fun _ => .emit rfl) opens
    have handed := compact_of_ends_enumeratorSlot opened.ready slots
    exact behind ((opened.trans handed).trans (.write handed.ready (.emit rfl) stores)) h
  | advance loop key name body next =>
    obtain ⟨slot, s₁, d, -, jumps, binds, h⟩ := parts_of_ends_advance h
    have stored (name : String) : MarksNothing (storeVariable env.body name) :=
      (composed_storeVariable name).marksNothing
    have loads : MarksNothing (do emit (.loadLocal slot); emit .advance) :=
      MarksNothing.bind (.emit rfl) fun _ => .emit rfl
    have loaded := LayoutState.Compact.write hs loads (ends_write.mpr ⟨_, rfl, rfl⟩)
    have jumped := compact_of_ends_transferIf (.inr rfl) loaded.ready jumps
    refine behind ((loaded.trans jumped).trans
      (.write jumped.ready ?_ (ends_write.mpr ⟨d, binds, rfl⟩))) h
    refine MarksNothing.bind (.emit rfl) fun _ => MarksNothing.bind (.emit rfl) fun _ =>
      (stored name).bind fun _ => ?_
    cases key with
    | none => exact .pure ()
    | some key =>
      exact MarksNothing.bind (.emit rfl) fun _ =>
        MarksNothing.bind (.emit rfl) fun _ => stored key
  | switch subject cases next =>
    obtain ⟨slot, s₁, keeps, h⟩ := ends_bind.mp h
    obtain ⟨_, s₂, compares, h⟩ := ends_bind.mp h
    obtain ⟨_, s₃, releases, h⟩ := ends_bind.mp h
    obtain ⟨_, s₄, other, last⟩ := ends_bind.mp h
    have kept : s.Compact s₁ := .write hs ((value subject).bind fun _ =>
      (Composed.slot .scratch).marksNothing.bind fun _ =>
        MarksNothing.bind (.emit rfl) fun _ => .pure _) keeps
    have compared := compact_of_ends_placeCases kept.ready compares
    have released := (kept.trans compared).trans
      (.write compared.ready (Composed.release slot).marksNothing releases)
    obtain ⟨r, -, rfl⟩ := ends_enqueue.mp last
    obtain compact | ⟨s₅, compact, jump⟩ := compact_or_jumpsTo_of_ends_transfer released.ready other
    · exact .inl ((released.trans compact).trans (compact_accept compact.ready next r))
    · exact .inr ⟨_, s₅, released.trans compact, jump.accept next r⟩

end Steps

/-! ## Between blocks -/

/-- A layout goes on between two blocks: no block is placed, and no place of the source is
marked. -/
structure Connects (s s' : LayoutState) : Prop where
  goes : Continues s s'
  placed : s'.placed = s.placed
  blockOffsets : s'.blockOffsets = s.blockOffsets
  points : s'.asm.sequencePoints = s.asm.sequencePoints

/-- A layout goes on between two blocks with compact code. -/
structure Joins (s s' : LayoutState) : Prop extends Connects s s' where
  compact : s.asm.Compact s'.asm

section Connects

variable {env : LayoutEnv} {scope : Scope} {s s₁ s' : LayoutState} {t : BlockId} {u : PUnit}

/-- The queues of a layout are no part of its code. -/
theorem Continues.same (ready : s.Ready) (slots : s.asm.slots.Sound) (draft : s'.draft = s.draft)
    (labels : s'.labels = s.labels) (enumerators : s'.enumerators = s.enumerators) :
    Continues s s' := by
  have asm : s'.asm = s.asm := congrArg Draft.asm draft
  exact ⟨asm ▸ .refl _, fun b l h => asm ▸ ready b l (labels ▸ h), asm ▸ slots,
    fun b l h => labels ▸ h, fun e slot h => enumerators ▸ h⟩

namespace Connects

theorem trans (h : Connects s s₁) (h' : Connects s₁ s') : Connects s s' :=
  ⟨h.goes.trans h'.goes, h'.placed.trans h.placed, h'.blockOffsets.trans h.blockOffsets,
    h'.points.trans h.points⟩

/-- The code stays as it is. -/
theorem same (goes : Continues s s') (draft : s'.draft = s.draft) (placed : s'.placed = s.placed)
    (blockOffsets : s'.blockOffsets = s.blockOffsets) : Connects s s' :=
  ⟨goes, placed, blockOffsets, congrArg (·.asm.sequencePoints) draft⟩

end Connects

/-- **An edge that opens no scope** comes between blocks. -/
theorem connects_of_ends_placeEdge {enter : Enter} {e : EdgeId} {edge : Edge} (hs : s.Ready)
    (hslots : s.asm.slots.Sound) (hk : edge.kind.isTry = false)
    (h : Ends (placeEdge env enter scope e edge) s u s') : Connects s s' := by
  have extended := (extends_of_ends_placeEdge hs hslots hk h).1
  refine ⟨extended.continues hslots, extended.placed, extended.blockOffsets, ?_⟩
  obtain compact | ⟨t, s₁, compact, jump⟩ := compact_or_jumpsTo_of_ends_placeEdge hs hk h
  · exact compact.points
  · obtain ⟨l, -, asm⟩ := jump.label
    rw [asm, Assembler.sequencePoints_branch, compact.points]

namespace Joins

theorem trans (h : Joins s s₁) (h' : Joins s₁ s') : Joins s s' :=
  ⟨h.toConnects.trans h'.toConnects, h.compact.trans h'.compact⟩

/-- The code stays as it is. -/
theorem same (goes : Continues s s') (draft : s'.draft = s.draft) (placed : s'.placed = s.placed)
    (blockOffsets : s'.blockOffsets = s.blockOffsets) : Joins s s' where
  toConnects := .same goes draft placed blockOffsets
  compact := by
    have asm : s'.asm = s.asm := congrArg Draft.asm draft
    exact asm ▸ .refl _

/-- The code in front is kept from here on. -/
theorem pin (goes : Continues s (s.mapAsm (·.pin))) : Joins s (s.mapAsm (·.pin)) :=
  ⟨⟨goes, rfl, rfl, rfl⟩, .of_same (.single .pin) rfl rfl⟩

theorem beginHandler {depth : Nat} (goes : Continues s (s.beginHandler depth)) :
    Joins s (s.beginHandler depth) :=
  ⟨⟨goes, rfl, rfl, rfl⟩, .of_same goes.evolves rfl rfl⟩

theorem endHandler {region : Nat → Region} (goes : Continues s (s.endHandler region)) :
    Joins s (s.endHandler region) :=
  ⟨⟨goes, rfl, rfl, rfl⟩, .of_same goes.evolves rfl rfl⟩

/-- The targets that nested scopes have left. -/
theorem escapes {escapes : List BlockId} (hs : s.Ready) (hslots : s.asm.slots.Sound)
    (h : Ends (enqueueEscapes env scope escapes) s u s') : Joins s s' := by
  obtain ⟨extended, same, -⟩ := extends_of_ends_enqueueEscapes hs h
  exact .same (extended.continues hslots) same extended.placed extended.blockOffsets

/-- What a handler does with the caught value. -/
theorem caught {clause : CatchClause} (goes : Continues s s')
    (h : Ends (write (bindCaught env clause)) s u s') : Joins s s' := by
  have bound : MarksNothing (bindCaught env clause) := by
    unfold bindCaught
    split
    · exact (composed_storeVariable _).marksNothing
    · exact .emit rfl
  obtain ⟨d, written, rfl⟩ := ends_write.mp h
  obtain ⟨compact, points⟩ := bound _ _ _ written
  exact ⟨⟨goes, rfl, rfl, points⟩, compact⟩

end Joins

/-- What comes behind the statements of the exit block. -/
theorem ExitPlaced.joins (hs : s.Ready) (hslots : s.asm.slots.Sound) (h : ExitPlaced env s s') :
    ∃ s₁, Ends (placeStatements env Graph.exit) (s.beginBlock Graph.exit) () s₁ ∧
      Continues (s.beginBlock Graph.exit) s₁ ∧ Joins s₁ s' := by
  obtain ⟨s₁, hstatements, rfl⟩ := h.placed
  have begun := continues_beginBlock hs hslots Graph.exit
  have written := continues_of_ends_placeStatements begun.ready begun.slots hstatements
  have plain : s₁.asm.resultLoad.target? = none := by
    unfold Assembler.resultLoad
    split <;> rfl
  have compact : s₁.asm.Compact ((s₁.asm.emit s₁.asm.resultLoad).emit .return) :=
    (Assembler.Compact.emit plain).trans (.emit rfl)
  have returned : Continues s₁ (s₁.mapAsm fun asm => (asm.emit asm.resultLoad).emit .return) :=
    continues_mapAsm written.ready written.slots compact.evolves
  exact ⟨s₁, hstatements, written, ⟨returned, rfl, rfl, by simp⟩, compact⟩

end Connects

/-! ## What is kept up -/

/-- What is kept up by the steps of a layout: inside a scope, behind the blocks that are placed in
it, and between the parts of a `try`. -/
structure Upkeep (env : LayoutEnv) (between : LayoutState → Prop)
    (inside : Scope → LayoutState → Prop) : Prop where
  joins : ∀ {s s' : LayoutState}, between s → Joins s s' → s'.asm.fault = none → between s'
  /-- A scope may start with whatever holds between parts. -/
  opens : ∀ {scope : Scope} {s : LayoutState}, between s → inside scope s
  skips : ∀ {scope : Scope} {s : LayoutState} {b : BlockId} {rest : List BlockId}, inside scope s →
    s.Ready → s.asm.slots.Sound → s.asm.fault = none → s.queue = b :: rest → b ∈ s.placed →
    inside scope { s with queue := rest }
  head : ∀ {scope : Scope} {s s₁ : LayoutState} {b : BlockId} {e : EdgeId} {edge : Edge},
    inside scope { s with queue := b :: s.queue } → s.Ready → s.asm.slots.Sound → b ∉ s.placed →
    env.graph.EndsBlock b e edge → Ends (placeStatements env b) (s.beginBlock b) () s₁ →
    s₁.asm.fault = none → between s₁
  edge : ∀ {scope : Scope} {s s' : LayoutState} {enter : Enter} {e : EdgeId} {edge : Edge},
    between s → s.Ready → s.asm.slots.Sound → edge.kind.isTry = false →
    Ends (placeEdge env enter scope e edge) s () s' → s'.asm.fault = none → inside scope s'
  /-- A nested scope ends with what holds between parts. -/
  closes : ∀ {scope : Scope} {s : LayoutState}, inside scope s → s.queue = [] →
    scope.kind ≠ .root → between s

/-- What holds where a part of a layout starts. -/
def Job.Before (between : LayoutState → Prop) (inside : Scope → LayoutState → Prop)
    (s : LayoutState) : Job → Prop
  | .drain path => inside (scopeOf path) s
  | .block path b => inside (scopeOf path) { s with queue := b :: s.queue } ∧ b ∉ s.placed
  | .enter path _ _ => between s ∧ (scopeOf path).kind ≠ .root
  | .catches .. | .finally .. => between s

/-- What holds where a part of a layout ends. -/
def Job.Behind (between : LayoutState → Prop) (inside : Scope → LayoutState → Prop)
    (s : LayoutState) : Job → Prop
  | .drain path => inside (scopeOf path) s ∧ s.queue = []
  | .block path _ => inside (scopeOf path) s
  | .enter .. | .catches .. | .finally .. => between s

section Parts

variable {env : LayoutEnv} {between : LayoutState → Prop} {inside : Scope → LayoutState → Prop}
  {job : Job} {p p' : Progress}

/-- **Every part of a layout keeps up** what its steps keep up. -/
theorem Upkeep.lays (keeps : Upkeep env between inside) (h : Lays env job p p')
    (hs : p.state.Ready) (hslots : p.state.asm.slots.Sound) (hstart : job.Starts p.state)
    (hp : job.Before between inside p.state) (hf : p'.state.asm.fault = none) :
    job.Behind between inside p'.state := by
  -- Without a fault at the end there is none before, as faults last. So the faults are ruled out
  -- from the last step of each job back to its first.
  induction h with
  | done hq => exact ⟨hp, hq⟩
  | noCatch | noFinally => exact hp
  | @skip path p b rest p' hq hb h₁ ih =>
    have starts : (Job.drain path).Starts (p.map fun s => { s with queue := rest }).state :=
      starts_of_unreachable (hstart.unreachable hq hb)
    have fault := (continues_of_lays h₁ hs hslots starts).1.evolves.fault hf
    exact ih hs hslots starts (keeps.skips hp hs hslots fault hq hb) hf
  | @place path p b rest p₁ p' hq hb h₁ h₂ ih₁ ih₂ =>
    obtain ⟨first, unreachable⟩ := continues_of_lays h₁ hs hslots trivial
    have starts : (Job.drain path).Starts p₁.state := starts_of_unreachable unreachable
    have fault := (continues_of_lays h₂ first.ready first.slots starts).1.evolves.fault hf
    have whole : { p.state with queue := b :: rest } = p.state := by rw [← hq]
    have next : (Job.block path b).Before between inside { p.state with queue := rest } :=
      ⟨whole.symm ▸ hp, hb⟩
    exact ih₂ first.ready first.slots starts (ih₁ hs hslots trivial next fault) hf
  | @plain path p b e edge s₁ s' enter _ hstatements hends hk hedge =>
    have written := continues_of_ends_head hs hslots hstatements
    have ended := connects_of_ends_placeEdge written.ready written.slots hk hedge
    have head := keeps.head hp.1 hs hslots hp.2 hends hstatements (ended.goes.evolves.fault hf)
    exact keeps.edge head written.ready written.slots hk hedge hf
  | @guard path p b e edge body catches finally? next s₁ p₂ p₃ p₄ s₅ r fromBody fromCatches _
      hstatements hends hkind h₂ h₃ h₄ hescapes hr ih₂ ih₃ ih₄ =>
    have goes := guardGoes hs hslots hstatements (continues_of_lays h₂) (continues_of_lays h₃)
      (continues_of_lays h₄) hescapes hr
    have accepted := (extends_accept goes.escapes.ready hr (List.mem_singleton_self next)).1
    have fault₅ := goes.next.evolves.fault hf
    have fault₄ := goes.escapes.evolves.fault fault₅
    have fault₃ := goes.final.evolves.fault fault₄
    have fault₂ := (goes.pinBehind.trans goes.catches).evolves.fault fault₃
    have fault₁ := goes.body.evolves.fault fault₂
    have head := keeps.head hp.1 hs hslots hp.2 hends hstatements fault₁
    have body := ih₂ goes.pin.ready goes.pin.slots trivial
      ⟨keeps.joins head (.pin goes.pin) fault₁, nofun⟩ fault₂
    have handlers := ih₃ goes.pinBehind.ready goes.pinBehind.slots goes.unreachable₂
      (keeps.joins body (.pin goes.pinBehind) fault₂) fault₃
    have final := ih₄ goes.catches.ready goes.catches.slots goes.unreachable₃ handlers fault₄
    have escaped := keeps.joins final
      (.escapes goes.final.ready goes.final.slots hescapes) fault₅
    have next := keeps.joins escaped
      (.same goes.next (draft_accept _ _ _) accepted.placed accepted.blockOffsets) hf
    exact keeps.opens next
  | @enter path p seed p₁ hseed h₁ ih =>
    have starts : (Job.drain path).Starts (p.map (·.openScope seed)).state :=
      starts_openScope hseed
    have within := (continues_of_lays h₁ hs hslots starts).1
    have opened : between (p.state.openScope seed) :=
      keeps.joins hp.1 (.same (.same hs hslots rfl rfl rfl) rfl rfl rfl) (within.evolves.fault hf)
    obtain ⟨drained, queue⟩ := ih hs hslots starts (keeps.opens opened) hf
    exact keeps.joins (keeps.closes drained queue hp.2)
      (.same (.same within.ready within.slots rfl rfl rfl) rfl rfl rfl) hf
  | @«catch» source path tryStart tryEnd past clause rest p s₁ p₂ p' escapes others hbind h₁ h₂
      ih₁ ih₂ =>
    have goes := catchGoes hs hslots hstart hbind (continues_of_lays h₁)
    have behind := goes.behind (⟨.catch clause.type, tryStart, tryEnd, p.state.asm.offset, ·⟩)
    have rest := (continues_of_lays h₂ behind.ready behind.slots goes.unreachable).1
    have fault₂ := rest.evolves.fault hf
    have fault₁ := goes.handler.evolves.fault (behind.evolves.fault fault₂)
    have head := (Joins.beginHandler goes.head).trans (.caught goes.bound hbind)
    have handler := ih₁ goes.bound.ready goes.bound.slots trivial
      ⟨keeps.joins hp head fault₁, nofun⟩ (behind.evolves.fault fault₂)
    exact ih₂ behind.ready behind.slots goes.unreachable
      (keeps.joins handler (.endHandler behind) fault₂) hf
  | @«finally» source path tryStart handler next p p₁ escapes h₁ ih =>
    have goes := finallyGoes hs hslots hstart (continues_of_lays h₁)
    have behind := goes.behind (⟨.finally, tryStart, p.state.asm.offset, p.state.asm.offset, ·⟩)
    have fault₁ := behind.evolves.fault hf
    have head := keeps.joins hp (.beginHandler goes.head) (goes.handler.evolves.fault fault₁)
    exact keeps.joins (ih goes.head.ready goes.head.slots trivial ⟨head, nofun⟩ fault₁)
      (.endHandler behind) hf

end Parts

/-! ## What is kept up everywhere -/

/-- What holds of a layout is kept up between blocks, and by every block with its statements. -/
structure KeptUp (env : LayoutEnv) (I : LayoutState → Prop) : Prop where
  connects : ∀ {s s' : LayoutState}, I s → Connects s s' → s'.asm.fault = none → I s'
  head : ∀ {s s₁ : LayoutState} {b : BlockId}, I s → s.Ready → s.asm.slots.Sound →
    Ends (placeStatements env b) (s.beginBlock b) () s₁ → s₁.asm.fault = none → b ∉ s.placed →
    b = Graph.exit ∨ (env.graph.outgoing? b).isSome → I s₁

theorem isSome_outgoing? {graph : Graph} {b : BlockId} {e : EdgeId} {edge : Edge}
    (h : graph.EndsBlock b e edge) : (graph.outgoing? b).isSome := by
  obtain ⟨hb, he⟩ := h
  obtain ⟨block, hblock, hout⟩ := Option.bind_eq_some_iff.mp hb
  simp [Graph.outgoing?, hblock, hout, he]

section Everywhere

variable {env : LayoutEnv} {I : LayoutState → Prop} {p p' : Progress}

theorem KeptUp.upkeep (keeps : KeptUp env I) : Upkeep env I fun _ => I where
  joins hp joins hf := keeps.connects hp joins.toConnects hf
  opens hp := hp
  skips hp hs hslots hf _ _ := keeps.connects hp (.same (.same hs hslots rfl rfl rfl) rfl rfl rfl) hf
  head {_ s s₁ b _ _} hp hs hslots new hends hstatements hf := by
    have fault := (continues_of_ends_head hs hslots hstatements).evolves.fault hf
    have taken : I s :=
      keeps.connects hp (.same (.same hs hslots rfl rfl rfl) rfl rfl rfl) fault
    exact keeps.head taken hs hslots hstatements hf new (.inr (isSome_outgoing? hends))
  edge hp hs hslots hk hedge hf :=
    keeps.connects hp (connects_of_ends_placeEdge hs hslots hk hedge) hf
  closes hp _ _ := hp

/-- **A layout keeps up** what is kept up between blocks, and by every block. -/
theorem KeptUp.lays (keeps : KeptUp env I) (h : Lays env (.drain []) p p') (hs : p.state.Ready)
    (hslots : p.state.asm.slots.Sound) (hstart : (Job.drain []).Starts p.state) (hp : I p.state)
    (hf : p'.state.asm.fault = none) : I p'.state :=
  (keeps.upkeep.lays h hs hslots hstart hp hf).1

end Everywhere

end StackScript
