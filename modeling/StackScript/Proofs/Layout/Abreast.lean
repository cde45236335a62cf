import Mathlib.Data.List.Forall2
import StackScript.Proofs.Layout.Derivation
import StackScript.Proofs.Writing.Written

/-!
# Layouts side by side

Two steps go side by side if from states that belong together they come to states that belong
together, both with results that belong together, or both with the same cause.

A layout decides by little of the code that it writes: by whether control reaches its end, how deep
the stack is there, and by slots and labels. So two layouts of one graph go side by side if the code
of its expressions and statements does, and whatever else a layout does to the code keeps drafts
together.

## Main definitions

* `Agree`: outcomes that belong together
* `Brings`, `Abreast`: steps side by side
* `Assembler.Move`: what a layout does to the code by itself
* `Tandem`: drafts that belong together whatever is written to both
* `LayoutState.Along`: layouts that belong together

## Main results

* `Brings.bind`, `Abreast.look`, `Brings.change`: sequences, looks and changes
* `Tandem.placeEdge`, `Tandem.drain`: the parts of a layout
* `Tandem.placeAll`: a whole layout
-/

namespace StackScript

open Emit Arrange

/-! ## Steps -/

section Steps

variable {σ τ α α' β β' : Type}

/-- Results that belong together, or the same cause. -/
inductive Agree (R : α → α' → Prop) : Except Cause α → Except Cause α' → Prop where
  | ok {x x'} : R x x' → Agree R (.ok x) (.ok x')
  | error (cause) : Agree R (.error cause) (.error cause)

/-- Two steps side by side take states that belong together in one way to states that belong
together in another. -/
def Brings (S T : σ → τ → Prop) (R : α → α' → Prop) (step : ExceptT Cause (StateM σ) α)
    (step' : ExceptT Cause (StateM τ) α') : Prop :=
  ∀ s s', S s s' → Agree R (step.run s).1 (step'.run s').1 ∧ T (step.run s).2 (step'.run s').2

/-- **Two steps side by side**, in states that belong together. -/
abbrev Abreast (S : σ → τ → Prop) (R : α → α' → Prop) (step : ExceptT Cause (StateM σ) α)
    (step' : ExceptT Cause (StateM τ) α') : Prop := Brings S S R step step'

variable {S M T : σ → τ → Prop} {R : α → α' → Prop} {Q : β → β' → Prop}

namespace Brings

theorem bind {step : ExceptT Cause (StateM σ) α} {step' : ExceptT Cause (StateM τ) α'}
    {next : α → ExceptT Cause (StateM σ) β} {next' : α' → ExceptT Cause (StateM τ) β'}
    (h : Brings S M R step step') (stops : ∀ s s', M s s' → T s s')
    (h' : ∀ x x', R x x' → Brings M T Q (next x) (next' x')) :
    Brings S T Q (step >>= next) (step' >>= next') := by
  intro s s' hs
  obtain ⟨results, states⟩ := h s s' hs
  rw [run_bind, run_bind]
  generalize hr : (step.run s).1 = r at results
  generalize hr' : (step'.run s').1 = r' at results
  cases results with
  | ok together => exact h' _ _ together _ _ states
  | error cause => exact ⟨.error cause, stops _ _ states⟩

/-- A sequence whose first results are equal. -/
theorem next {step : ExceptT Cause (StateM σ) α} {step' : ExceptT Cause (StateM τ) α}
    {next : α → ExceptT Cause (StateM σ) β} {next' : α → ExceptT Cause (StateM τ) β'}
    (h : Brings S M Eq step step') (stops : ∀ s s', M s s' → T s s')
    (h' : ∀ x, Brings M T Q (next x) (next' x)) : Brings S T Q (step >>= next) (step' >>= next') :=
  h.bind stops fun x _ same => same ▸ h' x

/-- Steps behind one that does not stop. -/
theorem after {step : ExceptT Cause (StateM σ) α} {step' : ExceptT Cause (StateM τ) α'}
    {next : α → ExceptT Cause (StateM σ) β} {next' : α' → ExceptT Cause (StateM τ) β'}
    (h : Brings S M R step step') (succeeds : ∀ s, ∃ x s₁, Ends step s x s₁)
    (h' : ∀ x x', R x x' → Brings M T Q (next x) (next' x')) :
    Brings S T Q (step >>= next) (step' >>= next') := by
  intro s s' hs
  obtain ⟨results, states⟩ := h s s' hs
  obtain ⟨x, s₁, ends⟩ := succeeds s
  rw [run_bind, run_bind]
  rw [show step.run s = (.ok x, s₁) from ends] at results states ⊢
  generalize hr' : (step'.run s').1 = r' at results
  cases results with
  | ok together => exact h' _ _ together _ _ states

theorem change {f : σ → σ} {f' : τ → τ} (h : ∀ s s', S s s' → T (f s) (f' s')) :
    Brings S T Eq (modify f : ExceptT Cause (StateM σ) PUnit)
      (modify f' : ExceptT Cause (StateM τ) PUnit) :=
  fun s s' hs => ⟨.ok rfl, h s s' hs⟩

end Brings

namespace Abreast

theorem pure {x : α} {x' : α'} (h : R x x') : Abreast S R (Pure.pure x) (Pure.pure x') :=
  fun _ _ hs => ⟨.ok h, hs⟩

theorem throw (cause : Cause) :
    Abreast S R (MonadExcept.throw cause) (MonadExcept.throw cause) :=
  fun _ _ hs => ⟨.error cause, hs⟩

theorem bind {step : ExceptT Cause (StateM σ) α} {step' : ExceptT Cause (StateM τ) α'}
    {next : α → ExceptT Cause (StateM σ) β} {next' : α' → ExceptT Cause (StateM τ) β'}
    (h : Abreast S R step step') (h' : ∀ x x', R x x' → Abreast S Q (next x) (next' x')) :
    Abreast S Q (step >>= next) (step' >>= next') :=
  Brings.bind h (fun _ _ => id) h'

/-- A sequence whose first results are equal. -/
theorem next {step : ExceptT Cause (StateM σ) α} {step' : ExceptT Cause (StateM τ) α}
    {next : α → ExceptT Cause (StateM σ) β} {next' : α → ExceptT Cause (StateM τ) β'}
    (h : Abreast S Eq step step') (h' : ∀ x, Abreast S Q (next x) (next' x)) :
    Abreast S Q (step >>= next) (step' >>= next') :=
  h.bind fun x _ same => same ▸ h' x

/-- Steps in front of which it is checked whether to stop. -/
theorem check {p : Prop} [Decidable p] {cause : Cause} {step : ExceptT Cause (StateM σ) β}
    {step' : ExceptT Cause (StateM τ) β'} (h : Abreast S Q step step') :
    Abreast S Q (if p then (MonadExcept.throw cause : ExceptT Cause (StateM σ) α) >>= fun _ => step
        else step)
      (if p then (MonadExcept.throw cause : ExceptT Cause (StateM τ) α) >>= fun _ => step'
        else step') := by
  split
  · exact .throw cause
  · exact h

theorem look {next : σ → ExceptT Cause (StateM σ) β} {next' : τ → ExceptT Cause (StateM τ) β'}
    (h : ∀ s s', S s s' → Abreast S Q (next s) (next' s')) :
    Abreast S Q (get >>= next) (get >>= next') :=
  fun s s' hs => h s s' hs s s' hs

theorem change {f : σ → σ} {f' : τ → τ} (h : ∀ s s', S s s' → S (f s) (f' s')) :
    Abreast S Eq (modify f : ExceptT Cause (StateM σ) PUnit)
      (modify f' : ExceptT Cause (StateM τ) PUnit) :=
  Brings.change h

theorem put {s : σ} {s' : τ} (h : S s s') :
    Abreast S Eq (set s : ExceptT Cause (StateM σ) PUnit) (set s' : ExceptT Cause (StateM τ) PUnit) :=
  fun _ _ _ => ⟨.ok rfl, h⟩

/-- A step goes side by side with itself, and keeps what it keeps. -/
theorem of_keeps {I : σ → Prop} {step : ExceptT Cause (StateM σ) α}
    (h : ∀ s, I s → I (step.run s).2) : Abreast (fun s s' => s = s' ∧ I s) Eq step step := by
  rintro s _ ⟨rfl, hs⟩
  refine ⟨?_, rfl, h s hs⟩
  cases (step.run s).1 with
  | ok => exact .ok rfl
  | error cause => exact .error cause

/-- Steps that succeed side by side. -/
theorem of_ends {step : ExceptT Cause (StateM σ) α} {step' : ExceptT Cause (StateM τ) α'}
    (h : Abreast S R step step') {s s₁ : σ} {s' : τ} {x : α} (hs : S s s')
    (ends : Ends step s x s₁) : ∃ x' s₁', Ends step' s' x' s₁' ∧ R x x' ∧ S s₁ s₁' := by
  obtain ⟨results, states⟩ := h s s' hs
  rw [show step.run s = (.ok x, s₁) from ends] at results states
  generalize hr' : (step'.run s').1 = r' at results
  cases results with
  | ok together => exact ⟨_, _, Prod.ext hr' rfl, together, states⟩

end Abreast

end Steps

/-! ## Drafts -/

/-- What a layout does to the code by itself. -/
inductive Assembler.Move : (Assembler → Assembler) → Prop where
  | touch {f : Assembler → Assembler} : Touch f → Move f
  | place (l : Label) : Move (·.place l)
  | pin : Move (·.pin)
  | beginHandler (depth : Nat) : Move (·.beginHandler depth)

/-- What a layout decides by is the same in both drafts, and their offsets belong together. -/
structure Draft.Seen (O : Nat → Nat → Prop) (d d' : Draft) : Prop where
  offset : O d.asm.offset d'.asm.offset
  labels : d.asm.labels.size = d'.asm.labels.size
  reachable : d.asm.reachable = d'.asm.reachable
  depth : d.asm.depth = d'.asm.depth
  slots : d.asm.slots = d'.asm.slots

/-- Drafts that belong together at the start of a block: a label has just got its place in both. -/
def Draft.Begun (D : Draft → Draft → Prop) (d d' : Draft) : Prop :=
  ∃ l e e', D e e' ∧ d = { e with asm := e.asm.place l } ∧ d' = { e' with asm := e'.asm.place l }

/-- **Drafts that belong together whatever is written to both**: code in two environments, or
whatever a layout writes by itself. Statements stand at the start of a block only. -/
structure Tandem (env env' : BodyEnv) (O : Nat → Nat → Prop) (D : Draft → Draft → Prop) : Prop where
  params : env.params = env'.params
  hasContext : env.hasContext = env'.hasContext
  seen : ∀ d d', D d d' → d.Seen O d'
  move : ∀ f, Assembler.Move f → ∀ d d', D d d' →
    D { d with asm := f d.asm } { d' with asm := f d'.asm }
  value : ∀ e, Abreast D Eq (emitValue env e) (emitValue env' e)
  statements : ∀ statements, Brings (Draft.Begun D) D Eq (emitStatements env statements)
    (emitStatements env' statements)

/-- Regions whose offsets belong together. -/
structure Region.Along (O : Nat → Nat → Prop) (region region' : Region) : Prop where
  kind : region.kind = region'.kind
  tryStart : O region.tryStart region'.tryStart
  tryEnd : O region.tryEnd region'.tryEnd
  handlerStart : O region.handlerStart region'.handlerStart
  handlerEnd : O region.handlerEnd region'.handlerEnd

/-- **Layouts that belong together**: they differ in their drafts and offsets only. -/
structure LayoutState.Along (O : Nat → Nat → Prop) (D : Draft → Draft → Prop)
    (s s' : LayoutState) : Prop where
  draft : D s.draft s'.draft
  labels : s.labels = s'.labels
  placed : s.placed = s'.placed
  blockOffsets : List.Forall₂ (fun p p' => p.1 = p'.1 ∧ O p.2 p'.2) s.blockOffsets.toList
    s'.blockOffsets.toList
  regions : List.Forall₂ (Region.Along O) s.regions.toList s'.regions.toList
  enumerators : s.enumerators = s'.enumerators
  queue : s.queue = s'.queue
  escapes : s.escapes = s'.escapes
  exitTargeted : s.exitTargeted = s'.exitTargeted

variable {env env' : BodyEnv} {O : Nat → Nat → Prop} {D E : Draft → Draft → Prop} {α α' : Type}

/-! ## Code -/

namespace Tandem

/-- A change of the code. -/
theorem onAssembler (t : Tandem env env' O D) {f : Assembler → Assembler}
    (move : Assembler.Move f) : Abreast D Eq (onAssembler f) (onAssembler f) :=
  .change fun d d' hd => t.move f move d d' hd

theorem emit (t : Tandem env env' O D) {i : Instruction} (site : i.site? = none)
    (target : i.target? = none) : Abreast D Eq (Emit.emit i) (Emit.emit i) :=
  t.onAssembler (.touch (.emit site target))

theorem branch (t : Tandem env env' O D) (kind : BranchKind) (l : Label) :
    Abreast D Eq (branch kind l) (branch kind l) :=
  t.onAssembler (.touch (.branch kind l))

theorem mark (t : Tandem env env' O D) (l : Label) : Abreast D Eq (mark l) (mark l) :=
  t.onAssembler (.touch (.mark l))

/-- A new label has the same number. -/
theorem defineLabel (t : Tandem env env' O D) : Abreast D Eq defineLabel defineLabel :=
  fun d d' hd => ⟨.ok (t.seen d d' hd).labels, t.move _ (.touch .defineLabel) d d' hd⟩

/-- A slot that is handed out is the same. -/
theorem slot (t : Tandem env env' O D) (f : Slots → LocalId × Slots) :
    Abreast D Eq (withSlots f) (withSlots f) :=
  fun d d' hd => ⟨.ok (congrArg (fun slots => (f slots).1) (t.seen d d' hd).slots),
    t.move _ (.touch (.slots fun slots => (f slots).2)) d d' hd⟩

theorem release (t : Tandem env env' O D) (id : LocalId) :
    Abreast D Eq (release id) (release id) :=
  t.onAssembler (.touch (.slots fun slots => slots.release id))

theorem storeVariable (t : Tandem env env' O D) (name : String) :
    Abreast D Eq (storeVariable env name) (storeVariable env' name) := by
  have meaning : env'.meaning name = env.meaning name := by
    rw [BodyEnv.meaning, BodyEnv.meaning, t.params]
  unfold StackScript.storeVariable
  rw [meaning]
  split
  · exact .throw _
  · refine Abreast.next (S := D) ?_ fun slot => t.emit rfl rfl
    unfold argumentSlot
    split
    · exact .pure rfl
    · exact .throw _
  · exact (t.slot _).next fun slot => t.emit rfl rfl

end Tandem

/-- Drafts that belong together in one way do so in another. -/
theorem LayoutState.Along.weaken (h : ∀ d d', D d d' → E d d') {s s' : LayoutState}
    (hs : LayoutState.Along O D s s') : LayoutState.Along O E s s' :=
  { hs with draft := h _ _ hs.draft }

/-- A step that writes code. -/
theorem Brings.write {R : α → α' → Prop} {step : Emit α} {step' : Emit α'}
    (h : Brings D E R step step') :
    Brings (LayoutState.Along O D) (LayoutState.Along O E) R (Arrange.write step)
      (Arrange.write step') := by
  intro s s' hs
  obtain ⟨results, drafts⟩ := h s.draft s'.draft hs.draft
  exact ⟨results, { hs with draft := drafts }⟩

theorem Abreast.write {R : α → α' → Prop} {step : Emit α} {step' : Emit α'}
    (h : Abreast D R step step') :
    Abreast (LayoutState.Along O D) R (Arrange.write step) (Arrange.write step') :=
  Brings.write h

namespace Tandem

variable (t : Tandem env env' O D) {graph : Graph} {ranges : List BlockRange} {scope : Scope}
  {b : BlockId}

include t

/-! ## Single steps -/

theorem pinnedOffset : Abreast (LayoutState.Along O D) O pinnedOffset pinnedOffset :=
  .write fun d d' hd => ⟨.ok (t.seen d d' hd).offset, t.move _ .pin d d' hd⟩

theorem blockLabel : Abreast (LayoutState.Along O D) Eq (blockLabel b) (blockLabel b) := by
  refine .look fun s s' hs => ?_
  rw [hs.labels]
  split
  · exact .pure rfl
  · refine (Abreast.write t.defineLabel).next fun l => Abreast.next ?_ fun _ => .pure rfl
    exact .change fun s s' hs => { hs with labels := by rw [hs.labels] }

omit t in
theorem isPlaced : Abreast (LayoutState.Along O D) Eq (isPlaced b) (isPlaced b) :=
  .look fun s s' hs => .pure (by rw [hs.placed])

theorem endsInTransfer : Abreast (LayoutState.Along O D) Eq endsInTransfer endsInTransfer :=
  .look fun s s' hs => .pure (by rw [(t.seen _ _ hs.draft).reachable])

omit t in
theorem routeTo : Abreast (LayoutState.Along O D) Eq (routeTo ⟨env, graph, ranges⟩ scope b)
    (routeTo ⟨env', graph, ranges⟩ scope b) := by
  unfold Arrange.routeTo
  dsimp only
  cases route ranges scope b with
  | ok => exact .pure rfl
  | error => exact .throw _

omit t in
theorem queueFirst : Abreast (LayoutState.Along O D) Eq (queueFirst b) (queueFirst b) := by
  refine isPlaced.next fun placed => ?_
  split
  · exact .change fun s s' hs => { hs with queue := by rw [hs.queue] }
  · exact .pure rfl

omit t in
theorem queueLast : Abreast (LayoutState.Along O D) Eq (queueLast b) (queueLast b) := by
  refine isPlaced.next fun placed => ?_
  split
  · exact .change fun s s' hs => { hs with queue := by rw [hs.queue] }
  · exact .pure rfl

omit t in
theorem targetExit : Abreast (LayoutState.Along O D) Eq targetExit targetExit :=
  .change fun _ _ hs => { hs with exitTargeted := rfl }

omit t in
theorem noteEscape : Abreast (LayoutState.Along O D) Eq (noteEscape b) (noteEscape b) := by
  unfold Arrange.noteEscape
  split
  · exact targetExit
  · exact .change fun s s' hs => { hs with escapes := by rw [hs.escapes] }

/-! ## Jumps -/

omit t in
theorem enqueue : Abreast (LayoutState.Along O D) Eq (enqueue ⟨env, graph, ranges⟩ scope b)
    (enqueue ⟨env', graph, ranges⟩ scope b) := by
  refine routeTo.next fun route => ?_
  cases route
  · exact queueLast
  · exact targetExit
  · exact noteEscape
  · exact .pure rfl

theorem transfer : Abreast (LayoutState.Along O D) Eq (transfer ⟨env, graph, ranges⟩ scope b)
    (transfer ⟨env', graph, ranges⟩ scope b) := by
  refine t.endsInTransfer.next fun behind => ?_
  split
  · exact enqueue
  · refine t.blockLabel.next fun l => routeTo.next fun route => ?_
    cases route
    · exact (Abreast.write (t.branch _ _)).next fun _ => queueFirst
    · exact targetExit.next fun _ => .write (t.branch _ _)
    · exact noteEscape.next fun _ => .write (t.branch _ _)
    · exact .write (t.emit rfl rfl)

theorem transferIf {kind : BranchKind} :
    Abreast (LayoutState.Along O D) Eq (transferIf ⟨env, graph, ranges⟩ scope kind b)
      (transferIf ⟨env', graph, ranges⟩ scope kind b) := by
  refine t.blockLabel.next fun l => routeTo.next fun route => ?_
  cases route
  case within | exit => exact (Abreast.write (t.branch _ _)).next fun _ => enqueue
  case leave | endFinally =>
    exact (Abreast.write t.defineLabel).next fun _ => (Abreast.write (t.branch _ _)).next fun _ =>
      t.transfer.next fun _ => .write (t.mark _)

omit t in
theorem enqueueEscapes (targets : List BlockId) :
    Abreast (LayoutState.Along O D) Eq (enqueueEscapes ⟨env, graph, ranges⟩ scope targets)
      (enqueueEscapes ⟨env', graph, ranges⟩ scope targets) := by
  induction targets with
  | nil => exact .pure rfl
  | cons target rest ih =>
    exact routeTo.next fun route => .check (enqueue.next fun _ => ih)

theorem enumeratorSlot (e : EdgeId) :
    Abreast (LayoutState.Along O D) Eq (enumeratorSlot e) (enumeratorSlot e) := by
  refine .look fun s s' hs => ?_
  rw [hs.enumerators]
  split
  · exact .pure rfl
  · refine (Abreast.write (t.slot _)).next fun _ => Abreast.next ?_ fun _ => .pure rfl
    exact .change fun s s' hs => { hs with enumerators := by rw [hs.enumerators] }

/-! ## Handlers -/

omit t in
/-- One region more. -/
theorem pushRegion {region region' : Region} (h : region.Along O region') :
    Abreast (LayoutState.Along O D) Eq
      (modify fun s => { s with regions := s.regions.push region } : Arrange PUnit)
      (modify fun s => { s with regions := s.regions.push region' }) := by
  refine .change fun s s' hs => { hs with regions := ?_ }
  rw [Array.toList_push, Array.toList_push]
  exact List.rel_append hs.regions (.cons h .nil)

theorem bindCaught (clause : CatchClause) :
    Abreast D Eq (bindCaught ⟨env, graph, ranges⟩ clause)
      (bindCaught ⟨env', graph, ranges⟩ clause) := by
  unfold StackScript.bindCaught
  split
  · exact t.storeVariable _
  · exact t.emit rfl rfl

variable {enter enter' : Enter}
  (hEnter : ∀ scope seed, Abreast (LayoutState.Along O D) Eq (enter scope seed) (enter' scope seed))

include hEnter

theorem placeCatches {tryStart tryStart' tryEnd tryEnd' : Nat} (start : O tryStart tryStart')
    (stop : O tryEnd tryEnd') (past : BlockId) (clauses : List CatchClause) :
    Abreast (LayoutState.Along O D) Eq
      (placeCatches ⟨env, graph, ranges⟩ enter tryStart tryEnd past clauses)
      (placeCatches ⟨env', graph, ranges⟩ enter' tryStart' tryEnd' past clauses) := by
  induction clauses with
  | nil => exact .pure rfl
  | cons clause rest ih =>
    refine t.pinnedOffset.bind fun first first' hfirst => Abreast.next (.write ?_) fun _ =>
      (hEnter _ _).next fun _ => t.pinnedOffset.bind fun last last' hlast =>
        Abreast.next (pushRegion ?_) fun _ => ih.next fun _ => .pure rfl
    · exact (t.onAssembler (.beginHandler 1)).next fun _ => t.bindCaught clause
    · exact ⟨rfl, start, stop, hfirst, hlast⟩

theorem placeFinally {tryStart tryStart' : Nat} (start : O tryStart tryStart')
    (handler next : BlockId) :
    Abreast (LayoutState.Along O D) Eq (placeFinally enter tryStart handler next)
      (placeFinally enter' tryStart' handler next) :=
  t.pinnedOffset.bind fun _ _ hfirst => (Abreast.write (t.onAssembler (.beginHandler 0))).next
    fun _ => (hEnter _ _).next fun _ => t.pinnedOffset.bind fun _ _ hlast =>
      pushRegion (.mk rfl start hfirst hfirst hlast)

theorem placeTry (body : BlockId) (catches : List CatchClause) (finally? : Option BlockId)
    (next : BlockId) :
    Abreast (LayoutState.Along O D) Eq
      (placeTry ⟨env, graph, ranges⟩ enter scope body catches finally? next)
      (placeTry ⟨env', graph, ranges⟩ enter' scope body catches finally? next) := by
  have behind (targets : List BlockId) : Abreast (LayoutState.Along O D) Eq (do
      StackScript.enqueueEscapes ⟨env, graph, ranges⟩ scope targets
      StackScript.enqueue ⟨env, graph, ranges⟩ scope next) (do
      StackScript.enqueueEscapes ⟨env', graph, ranges⟩ scope targets
      StackScript.enqueue ⟨env', graph, ranges⟩ scope next) :=
    (enqueueEscapes targets).next fun _ => enqueue
  refine t.pinnedOffset.bind fun first first' hfirst => (hEnter _ _).next fun _ =>
    t.pinnedOffset.bind fun last last' hlast =>
      (t.placeCatches hEnter hfirst hlast _ _).next fun _ => ?_
  cases finally? with
  | none => exact behind _
  | some handler => exact (t.placeFinally hEnter hfirst _ _).next fun _ => behind _

omit hEnter

/-! ## The ends of blocks -/

theorem placeCases (subject : LocalId) (cases_ : List SwitchCase) :
    Abreast (LayoutState.Along O D) Eq (placeCases ⟨env, graph, ranges⟩ scope subject cases_)
      (placeCases ⟨env', graph, ranges⟩ scope subject cases_) := by
  induction cases_ with
  | nil => exact .pure rfl
  | cons c rest ih =>
    unfold StackScript.placeCases
    split
    · exact ih
    · refine Abreast.next (.write ?_) fun _ => t.transferIf.next fun _ => ih
      exact (t.emit rfl rfl).next fun _ => (t.value _).next fun _ => t.emit rfl rfl

include hEnter

/-- **The edge that ends a block.** -/
theorem placeEdge (e : EdgeId) (edge : Edge) :
    Abreast (LayoutState.Along O D) Eq (placeEdge ⟨env, graph, ranges⟩ enter scope e edge)
      (placeEdge ⟨env', graph, ranges⟩ enter' scope e edge) := by
  unfold StackScript.placeEdge
  split
  · exact t.transfer
  · exact (Abreast.write (t.value _)).next fun _ => t.transferIf.next fun _ => t.transfer
  · exact t.placeTry hEnter _ _ _ _
  · refine Abreast.next (.write ((t.value _).next fun _ => t.emit rfl rfl)) fun _ =>
      (t.enumeratorSlot _).next fun _ => ?_
    exact (Abreast.write (t.emit rfl rfl)).next fun _ => t.transfer
  · refine .look fun s s' hs => ?_
    rw [hs.enumerators]
    split
    · exact .throw _
    · refine Abreast.next (.write ((t.emit rfl rfl).next fun _ => t.emit rfl rfl)) fun _ =>
        t.transferIf.next fun _ => Abreast.next (.write ?_) fun _ => t.transfer
      refine (t.emit rfl rfl).next fun _ => (t.emit rfl rfl).next fun _ =>
        (t.storeVariable _).next fun _ => ?_
      split
      · exact (t.emit rfl rfl).next fun _ => (t.emit rfl rfl).next fun _ => t.storeVariable _
      · exact .pure rfl
  · refine Abreast.next (.write ?_) fun slot => (t.placeCases _ _).next fun _ =>
      (Abreast.write (t.release _)).next fun _ => t.transfer.next fun _ => enqueue
    exact (t.value _).next fun _ => (t.slot _).next fun _ => (t.emit rfl rfl).next fun _ => .pure rfl

omit hEnter

/-! ## Blocks and scopes -/

omit t in
/-- The label of a block has just got its place, so the offset is kept already. -/
theorem pin_place (asm : Assembler) (l : Label) : (asm.place l).pin = asm.place l := by
  have pinned : (asm.place l).pinned = (asm.place l).code.size := by
    rw [Assembler.place, Assembler.pinned_mark, Assembler.code_mark]
  rw [Assembler.pin, Assembler.offset, ← pinned]

theorem begun {d d' : Draft} (h : d.Begun D d') : D d d' := by
  obtain ⟨l, e, e', h, rfl, rfl⟩ := h
  exact t.move _ (.place l) e e' h

theorem beginBlock : Brings (LayoutState.Along O D) (LayoutState.Along O (Draft.Begun D)) Eq
    (beginBlock b) (beginBlock b) := by
  have keep {d d' : Draft} (h : d.Begun D d') : Draft.Begun D { d with asm := d.asm.pin }
      { d' with asm := d'.asm.pin } := by
    obtain ⟨l, e, e', h, rfl, rfl⟩ := h
    rw [pin_place, pin_place]
    exact ⟨l, e, e', h, rfl, rfl⟩
  have placed : Abreast (LayoutState.Along O D) Eq
      (modify fun s => { s with placed := b :: s.placed } : Arrange PUnit)
      (modify fun s => { s with placed := b :: s.placed }) :=
    .change fun s s' hs => { hs with placed := by rw [hs.placed] }
  refine Brings.after placed (fun s => ⟨⟨⟩, _, rfl⟩) fun _ _ _ =>
    Brings.after t.blockLabel (fun s => ⟨_, _, ends_blockLabel.mpr rfl⟩) fun l l' same => ?_
  subst same
  have marked : Brings D (Draft.Begun D) Eq (Emit.onAssembler fun asm => (asm.elide l).mark l)
      (Emit.onAssembler fun asm => (asm.elide l).mark l) :=
    .change fun d d' hd => ⟨l, d, d', hd, rfl, rfl⟩
  have kept : Abreast (LayoutState.Along O (Draft.Begun D)) O StackScript.Arrange.pinnedOffset
      StackScript.Arrange.pinnedOffset :=
    .write fun d d' hd => ⟨.ok (t.seen d d' (t.begun hd)).offset, keep hd⟩
  refine Brings.next (Brings.write marked) (fun _ _ => id) fun _ => kept.bind fun n n' offsets =>
    .change fun s s' hs => { hs with blockOffsets := ?_ }
  rw [Array.toList_push, Array.toList_push]
  exact List.rel_append hs.blockOffsets (.cons ⟨rfl, offsets⟩ .nil)

theorem placeStatements :
    Brings (LayoutState.Along O (Draft.Begun D)) (LayoutState.Along O D) Eq
      (placeStatements ⟨env, graph, ranges⟩ b) (placeStatements ⟨env', graph, ranges⟩ b) := by
  unfold StackScript.placeStatements
  dsimp only
  split
  · exact fun s s' hs => ⟨.error _, hs.weaken fun _ _ => t.begun⟩
  · refine (Brings.write (t.statements _)).next (fun _ _ => id) fun _ => Abreast.look fun s s' hs => ?_
    rw [(t.seen _ _ hs.draft).depth]
    split
    · exact Abreast.throw _
    · exact Abreast.pure rfl

include hEnter

theorem placeBlock :
    Abreast (LayoutState.Along O D) Eq (placeBlock ⟨env, graph, ranges⟩ enter scope b)
      (placeBlock ⟨env', graph, ranges⟩ enter' scope b) := by
  unfold StackScript.placeBlock
  refine .check (t.beginBlock.next (fun _ _ => .weaken fun _ _ => t.begun) fun _ =>
    t.placeStatements.next (fun _ _ => id) fun _ => ?_)
  dsimp only
  split
  · exact Abreast.throw _
  · split
    · exact Abreast.throw _
    · exact t.placeEdge hEnter _ _

omit hEnter t

theorem enterScope {drained drained' : Scope → Arrange Unit}
    (h : ∀ scope, Abreast (LayoutState.Along O D) Eq (drained scope) (drained' scope))
    (scope : Scope) (seed : BlockId) :
    Abreast (LayoutState.Along O D) Eq (enterScope drained scope seed)
      (enterScope drained' scope seed) := by
  refine isPlaced.next fun placed => .check (.look fun outer outer' hs => ?_)
  refine (Abreast.put { hs with queue := rfl, escapes := rfl }).next fun _ => (h scope).next fun _ =>
    .look fun inner inner' hs' => ?_
  rw [hs'.escapes]
  exact (Abreast.put { hs' with queue := hs.queue, escapes := hs.escapes }).next fun _ => .pure rfl

include t

/-- **Scopes.** -/
theorem drain (steps : Nat) (scope : Scope) :
    Abreast (LayoutState.Along O D) Eq (drain ⟨env, graph, ranges⟩ steps scope)
      (drain ⟨env', graph, ranges⟩ steps scope) := by
  induction steps generalizing scope with
  | zero =>
    refine .look fun s s' hs => ?_
    rw [hs.queue]
    split
    · exact .throw _
    · exact .pure rfl
  | succ steps ih =>
    refine .look fun s s' hs => ?_
    rw [hs.queue]
    split
    · exact .pure rfl
    · refine Abreast.next (.change fun s s' hs => { hs with queue := rfl }) fun _ =>
        isPlaced.next fun placed => ?_
      split
      · exact (t.placeBlock (enterScope ih)).next fun _ => ih _
      · exact ih _

theorem placeExit : Abreast (LayoutState.Along O D) Eq (placeExit ⟨env, graph, ranges⟩)
    (placeExit ⟨env', graph, ranges⟩) := by
  refine t.beginBlock.next (fun _ _ => .weaken fun _ _ => t.begun) fun _ =>
    t.placeStatements.next (fun _ _ => id) fun _ => .write ?_
  refine Abreast.look fun d d' hd => ?_
  rw [(t.seen d d' hd).slots]
  split
  · exact (t.emit rfl rfl).next fun _ => t.emit rfl rfl
  · exact (t.emit rfl rfl).next fun _ => t.emit rfl rfl

/-- **Whole layouts go side by side** if drafts belong together whatever is written to both. -/
theorem placeAll : Abreast (LayoutState.Along O D) Eq (placeAll ⟨env, graph, ranges⟩)
    (placeAll ⟨env', graph, ranges⟩) := by
  refine (t.drain _ _).next fun _ => .look fun s s' hs => ?_
  rw [hs.exitTargeted]
  split
  · exact t.placeExit
  · exact .pure rfl

end Tandem

end StackScript
