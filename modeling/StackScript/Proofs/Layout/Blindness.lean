import StackScript.Proofs.Layout.Derivation
import StackScript.Proofs.Writing.Renumbered

/-!
# Layouts under other numbers of call sites

A layout draws the numbers of call sites while it writes code, and decides nothing by them. So the
same graph is laid out alike whatever the number of the next call site is, and stops with the same
cause if it stops.

## Main results

* `blind_placeEdge`, `blind_drain`: the parts of a layout
* `blind_placeAll`: a whole layout
-/

namespace StackScript

open Emit Arrange

instance : SiteCounter LayoutState where
  draft := LayoutState.draft
  later n s := { s with draft := SiteCounter.later n s.draft }

/-- A step that writes code. -/
theorem Blind.write {α : Type} {step : Emit α} (h : Blind step) : Blind (write step) := by
  intro s
  have run (s : LayoutState) : (Arrange.write step).run s =
    ((step.run s.draft).1, { s with draft := (step.run s.draft).2 }) := rfl
  refine ⟨fun n => ?_, (h s.draft).le, (h s.draft).fresh⟩
  have draft : (SiteCounter.later n s).draft = SiteCounter.later n s.draft := rfl
  rw [run, run, draft, (h s.draft).run n]
  rfl

/-! ## Single steps -/

section Steps

variable {α : Type} {env : LayoutEnv} {scope : Scope} {b : BlockId}

theorem blind_pinnedOffset : Blind pinnedOffset :=
  .write (.withAssembler (fun g asm => by rw [Assembler.offset_renumber, Assembler.pin_renumber])
    fun _ _ h => h)

theorem blind_beginHandler (depth : Nat) : Blind (onAssembler (·.beginHandler depth)) :=
  .onAssembler (fun g _ => Assembler.beginHandler_renumber g depth) fun _ _ h => h

theorem blind_blockLabel : Blind (blockLabel b) := by
  refine .look (fun s => ?_) fun _ _ => rfl
  split
  · exact .pure _
  · refine (Blind.write .defineLabel).bind fun l => ?_
    exact Blind.bind (.change (fun _ _ => rfl) fun _ => rfl) fun _ => .pure _

theorem blind_isPlaced : Blind (isPlaced b) := by
  unfold isPlaced
  exact Blind.look (fun _ => .pure _) fun _ _ => rfl

theorem blind_endsInTransfer : Blind endsInTransfer := by
  unfold endsInTransfer
  exact Blind.look (fun _ => .pure _) fun _ _ => rfl

theorem blind_routeTo : Blind (routeTo env scope b) := by
  unfold routeTo
  split
  · exact .pure _
  · exact .throw _

theorem blind_queueFirst : Blind (queueFirst b) := by
  refine blind_isPlaced.bind fun placed => ?_
  split
  · exact .change (fun _ _ => rfl) fun _ => rfl
  · exact .pure _

theorem blind_queueLast : Blind (queueLast b) := by
  refine blind_isPlaced.bind fun placed => ?_
  split
  · exact .change (fun _ _ => rfl) fun _ => rfl
  · exact .pure _

theorem blind_targetExit : Blind targetExit := .change (fun _ _ => rfl) fun _ => rfl

theorem blind_noteEscape : Blind (noteEscape b) := by
  unfold noteEscape
  split
  · exact blind_targetExit
  · exact .change (fun _ _ => rfl) fun _ => rfl

theorem blind_enqueue : Blind (enqueue env scope b) := by
  refine blind_routeTo.bind fun route => ?_
  cases route
  · exact blind_queueLast
  · exact blind_targetExit
  · exact blind_noteEscape
  · exact .pure _

theorem blind_transfer : Blind (transfer env scope b) := by
  refine blind_endsInTransfer.bind fun behind => ?_
  split
  · exact blind_enqueue
  · refine blind_blockLabel.bind fun l => blind_routeTo.bind fun route => ?_
    cases route
    · exact (Blind.write (.branch _ _)).bind fun _ => blind_queueFirst
    · exact blind_targetExit.bind fun _ => .write (.branch _ _)
    · exact blind_noteEscape.bind fun _ => .write (.branch _ _)
    · exact .write (.emit fun _ => rfl)

theorem blind_transferIf {kind : BranchKind} : Blind (transferIf env scope kind b) := by
  refine blind_blockLabel.bind fun l => blind_routeTo.bind fun route => ?_
  have skipped : Blind (do
      let skip ← write defineLabel
      write (branch kind.negate skip)
      transfer env scope b
      write (mark skip)) :=
    (Blind.write .defineLabel).bind fun _ => (Blind.write (.branch _ _)).bind fun _ =>
      blind_transfer.bind fun _ => .write (.mark _)
  cases route
  · exact (Blind.write (.branch _ _)).bind fun _ => blind_enqueue
  · exact (Blind.write (.branch _ _)).bind fun _ => blind_enqueue
  · exact skipped
  · exact skipped

theorem blind_enqueueEscapes (targets : List BlockId) : Blind (enqueueEscapes env scope targets) := by
  induction targets with
  | nil => exact .pure _
  | cons target rest ih =>
    exact blind_routeTo.bind fun route =>
      Blind.check (.throw _) (blind_enqueue.bind fun _ => ih)

theorem blind_enumeratorSlot (e : EdgeId) : Blind (enumeratorSlot e) := by
  refine .look (fun s => ?_) fun _ _ => rfl
  split
  · exact .pure _
  · refine (Blind.write (.slot _)).bind fun _ => Blind.bind ?_ fun _ => .pure _
    exact .change (fun _ _ => rfl) fun _ => rfl

theorem blind_placeFinally {enter : Enter}
    (hEnter : ∀ scope seed, Blind (enter scope seed)) (tryStart : Nat)
    (handler next : BlockId) : Blind (placeFinally enter tryStart handler next) := by
  refine blind_pinnedOffset.bind fun _ => Blind.bind ?_ fun _ => (hEnter _ _).bind fun _ =>
    blind_pinnedOffset.bind fun _ => .change (fun _ _ => rfl) fun _ => rfl
  exact .write (blind_beginHandler 0)

theorem blind_beginBlock : Blind (beginBlock b) := by
  refine Blind.bind (.change (fun _ _ => rfl) fun _ => rfl) fun _ =>
    blind_blockLabel.bind fun l => Blind.bind (.write (.onAssembler (fun g asm => ?_) ?_)) fun _ =>
      blind_pinnedOffset.bind fun _ => .change (fun _ _ => rfl) fun _ => rfl
  · rw [Assembler.elide_renumber, Assembler.mark_renumber]
  · exact fun _ _ used => Assembler.uses_elide (Assembler.uses_mark used)

end Steps

/-! ## The ends of blocks -/

section Blocks

-- A layout is that of a routine, which is one of the bodies of a program.
variable {env : LayoutEnv} {scope : Scope} {b : BlockId} (item : WorkItem)

include item

/-- The code of an expression, for its value. -/
theorem blind_emitValue {env : BodyEnv} (e : Expr) : Blind (emitValue env e) :=
  have written : Written env item .blank _ (emitValue env e) := written_emitValue e
  written.blind rfl

/-- The code of statements. -/
theorem blind_emitStatements {env : BodyEnv} (statements : List Statement) :
    Blind (emitStatements env statements) :=
  have written : Written env item .blank _ (emitStatements env statements) :=
    written_emitStatements statements
  written.blind rfl

theorem blind_storeVariable {env : BodyEnv} (name : String) : Blind (storeVariable env name) := by
  unfold storeVariable
  split
  · exact .throw _
  · refine Blind.bind ?_ fun _ => .emit fun _ => rfl
    exact (@written_argumentSlot env item .blank _).blind rfl
  · exact (Blind.slot _).bind fun _ => .emit fun _ => rfl

theorem blind_bindCaught (clause : CatchClause) : Blind (bindCaught env clause) := by
  unfold bindCaught
  split
  · exact blind_storeVariable item _
  · exact .emit fun _ => rfl

variable {enter : Enter} (hEnter : ∀ scope seed, Blind (enter scope seed))

include hEnter

theorem blind_placeCatches (tryStart tryEnd : Nat) (past : BlockId) (clauses : List CatchClause) :
    Blind (placeCatches env enter tryStart tryEnd past clauses) := by
  induction clauses with
  | nil => exact .pure _
  | cons clause rest ih =>
    refine blind_pinnedOffset.bind fun _ => Blind.bind ?_ fun _ => (hEnter _ _).bind fun _ =>
      blind_pinnedOffset.bind fun _ => Blind.bind ?_ fun _ => ih.bind fun _ => .pure _
    · exact .write ((blind_beginHandler 1).bind fun _ => blind_bindCaught item clause)
    · exact .change (fun _ _ => rfl) fun _ => rfl

theorem blind_placeTry (body : BlockId) (catches : List CatchClause) (finally? : Option BlockId)
    (next : BlockId) : Blind (placeTry env enter scope body catches finally? next) := by
  have behind (targets : List BlockId) : Blind (do
      enqueueEscapes env scope targets
      enqueue env scope next) :=
    (blind_enqueueEscapes targets).bind fun _ => blind_enqueue
  refine blind_pinnedOffset.bind fun _ => (hEnter _ _).bind fun _ =>
    blind_pinnedOffset.bind fun _ => (blind_placeCatches item hEnter _ _ _ _).bind fun _ => ?_
  cases finally? with
  | none => exact behind _
  | some handler => exact (blind_placeFinally hEnter _ _ _).bind fun _ => behind _

omit hEnter

theorem blind_placeCases (subject : LocalId) (cases_ : List SwitchCase) :
    Blind (placeCases env scope subject cases_) := by
  induction cases_ with
  | nil => exact .pure _
  | cons c rest ih =>
    unfold placeCases
    split
    · exact ih
    · refine Blind.bind (.write ?_) fun _ => blind_transferIf.bind fun _ => ih
      exact (Blind.emit fun _ => rfl).bind fun _ => (blind_emitValue item _).bind fun _ =>
        .emit fun _ => rfl

include hEnter

/-- The edge that ends a block. -/
theorem blind_placeEdge (e : EdgeId) (edge : Edge) : Blind (placeEdge env enter scope e edge) := by
  unfold placeEdge
  split
  · exact blind_transfer
  · exact (Blind.write (blind_emitValue item _)).bind fun _ => blind_transferIf.bind fun _ =>
      blind_transfer
  · exact blind_placeTry item hEnter _ _ _ _
  · refine Blind.bind (.write ((blind_emitValue item _).bind fun _ => .emit fun _ => rfl)) fun _ =>
      (blind_enumeratorSlot _).bind fun _ => ?_
    exact (Blind.write (.emit fun _ => rfl)).bind fun _ => blind_transfer
  · refine .look (fun s => ?_) fun _ _ => rfl
    split
    · exact .throw _
    · refine Blind.bind (.write ((Blind.emit fun _ => rfl).bind fun _ => .emit fun _ => rfl))
        fun _ => blind_transferIf.bind fun _ => Blind.bind (.write ?_) fun _ => blind_transfer
      refine (Blind.emit fun _ => rfl).bind fun _ => (Blind.emit fun _ => rfl).bind fun _ =>
        (blind_storeVariable item _).bind fun _ => ?_
      split
      · exact (Blind.emit fun _ => rfl).bind fun _ => (Blind.emit fun _ => rfl).bind fun _ =>
          blind_storeVariable item _
      · exact .pure _
  · refine Blind.bind (.write ?_) fun slot => (blind_placeCases item _ _).bind fun _ =>
      (Blind.write (.release _)).bind fun _ => blind_transfer.bind fun _ => blind_enqueue
    exact (blind_emitValue item _).bind fun _ => (Blind.slot _).bind fun _ =>
      (Blind.emit fun _ => rfl).bind fun _ => .pure _

omit hEnter

/-! ## Blocks and scopes -/

theorem blind_placeStatements : Blind (placeStatements env b) := by
  unfold placeStatements
  split
  · exact .throw _
  · refine Blind.bind (.write (blind_emitStatements item _)) fun _ =>
      .look (fun s => ?_) fun _ _ => rfl
    dsimp only
    split
    · exact .throw _
    · exact .pure _

include hEnter

theorem blind_placeBlock : Blind (placeBlock env enter scope b) := by
  unfold placeBlock
  refine Blind.check (.throw _) (blind_beginBlock.bind fun _ =>
    (blind_placeStatements item).bind fun _ => ?_)
  split
  · exact .throw _
  · split
    · exact .throw _
    · exact blind_placeEdge item hEnter _ _

omit hEnter item

/-- A nested scope, with a queue and escapes of its own. -/
def nestScope (drained : Arrange Unit) (seed : BlockId) : Arrange (List BlockId) := do
  let outer ← get
  set { outer with queue := [seed], escapes := [] }
  drained
  let inner ← get
  set { inner with queue := outer.queue, escapes := outer.escapes }
  pure inner.escapes

theorem run_nestScope (drained : Arrange Unit) (seed : BlockId) (s : LayoutState) :
    (nestScope drained seed).run s = (match (drained.run (s.openScope seed)).1 with
      | .ok _ => (.ok (drained.run (s.openScope seed)).2.escapes,
          (drained.run (s.openScope seed)).2.closeScope s)
      | .error cause => (.error cause, (drained.run (s.openScope seed)).2)) := by
  have get_run {β : Type} (next : LayoutState → Arrange β) (s : LayoutState) :
    (get >>= next).run s = (next s).run s := rfl
  have set_run {β : Type} (s' : LayoutState) (next : PUnit → Arrange β) (s : LayoutState) :
    (set s' >>= next).run s = (next ⟨⟩).run s' := rfl
  have opened : ({ s with queue := [seed], escapes := [] } : LayoutState) = s.openScope seed := rfl
  unfold nestScope
  rw [get_run, set_run, run_bind, opened]
  cases (drained.run (s.openScope seed)).1 <;> rfl

theorem blind_nestScope {drained : Arrange Unit} (h : Blind drained) (seed : BlockId) :
    Blind (nestScope drained seed) := by
  intro s
  have inner := h (s.openScope seed)
  have opened n : (SiteCounter.later n s).openScope seed = SiteCounter.later n (s.openScope seed) := rfl
  cases ends : (drained.run (s.openScope seed)).1 with
  | ok =>
    refine ⟨fun n => ?_, ?_, ?_⟩
    · rw [run_nestScope, run_nestScope, opened, inner.run n, ends]
      rfl
    · rw [run_nestScope, ends]
      exact inner.le
    · rw [run_nestScope, ends]
      exact inner.fresh
  | error cause =>
    refine ⟨fun n => ?_, ?_, ?_⟩
    · rw [run_nestScope, run_nestScope, opened, inner.run n, ends]
    · rw [run_nestScope, ends]
      exact inner.le
    · rw [run_nestScope, ends]
      exact inner.fresh

theorem blind_enterScope {drained : Scope → Arrange Unit} (h : ∀ scope, Blind (drained scope))
    (scope : Scope) (seed : BlockId) : Blind (enterScope drained scope seed) := by
  have inside : Blind (nestScope (drained scope) seed) := blind_nestScope (h scope) seed
  exact blind_isPlaced.bind fun placed => Blind.check (.throw _) inside

include item

/-- **Scopes are laid out alike.** -/
theorem blind_drain (steps : Nat) (scope : Scope) : Blind (drain env steps scope) := by
  induction steps generalizing scope with
  | zero =>
    refine .look (fun s => ?_) fun _ _ => rfl
    split
    · exact .throw _
    · exact .pure _
  | succ steps ih =>
    refine .look (fun s => ?_) fun _ _ => rfl
    split
    · exact .pure _
    · refine Blind.bind (.change (fun _ _ => rfl) fun _ => rfl) fun _ =>
        blind_isPlaced.bind fun placed => ?_
      split
      · exact (blind_placeBlock item (blind_enterScope ih)).bind fun _ => ih _
      · exact ih _

theorem blind_placeExit : Blind (placeExit env) := by
  refine blind_beginBlock.bind fun _ => (blind_placeStatements item).bind fun _ => .write ?_
  refine Blind.look (fun d => ?_) fun _ _ => rfl
  split
  · exact (Blind.emit fun _ => rfl).bind fun _ => .emit fun _ => rfl
  · exact (Blind.emit fun _ => rfl).bind fun _ => .emit fun _ => rfl

/-- **A graph is laid out alike** whatever the number of the next call site is. -/
theorem blind_placeAll : Blind (placeAll env) := by
  refine (blind_drain item _ _).bind fun _ => .look (fun s => ?_) fun _ _ => rfl
  split
  · exact blind_placeExit item
  · exact .pure _

end Blocks

end StackScript
