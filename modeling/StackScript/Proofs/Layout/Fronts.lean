import StackScript.Proofs.Layout.Placement
import StackScript.Proofs.Layout.Strokes
import StackScript.Proofs.Writing.Fronts

/-!
# What is known in front of the instructions of a layout

Blocks start and end with nothing on the stack, and so do `finally` handlers; a `catch` handler
starts with the caught value. So the labels of blocks are for nothing on the stack, and the code of a
layout bears notes out in which the starts of its handlers are entries.

## Main definitions

* `LayoutState.Bears`: the layout so far bears notes out
* `Upholds`, `Maintains`: a layout that goes on, and steps by which it does

## Main results

* `upholds_of_lays`: every part of a layout bears out the notes that are taken on the way
* `upholds_of_ends_placeAll`: a whole layout does
-/

namespace StackScript

open Emit Arrange

/-- **The layout so far bears the notes out**: its blocks start with nothing on the stack. -/
structure LayoutState.Bears (table : Table) (item : WorkItem) (s : LayoutState) (notes : Notes)
    (here : Shape) : Prop where
  holds : s.asm.Holds table item notes here
  labels : ∀ b l, s.labels.lookup b = some l → l < s.asm.labels.size ∧ notes.goal l = .blank
  regions : ∀ region ∈ s.regions, notes.entry region.handlerStart region.known

/-- A layout that goes on, in front of which `a` is known, and `b` behind it. -/
structure Upholds (table : Table) (item : WorkItem) (a b : Shape) (s s' : LayoutState) : Prop where
  fault : s'.asm.fault = none → s.asm.fault = none
  labels_le : s.asm.labels.size ≤ s'.asm.labels.size
  bears : s'.asm.fault = none → ∀ notes, s.Bears table item notes a →
    ∃ next, notes.Within s.asm.labels.size next ∧ s'.Bears table item next b

/-- A step by which a layout goes on. -/
def Maintains {α : Type} (table : Table) (item : WorkItem) (a b : Shape) (step : Arrange α) : Prop :=
  ∀ s x s', Ends step s x s' → Upholds table item a b s s'

variable {table : Table} {item : WorkItem} {a b c here : Shape} {s s₁ s' : LayoutState}
  {notes : Notes}

namespace Upholds

theorem refl (s : LayoutState) : Upholds table item a a s s :=
  ⟨id, Nat.le_refl _, fun _ notes bears => ⟨notes, .refl _, bears⟩⟩

theorem trans (h : Upholds table item a b s s₁) (h' : Upholds table item b c s₁ s') :
    Upholds table item a c s s' where
  fault hf := h.fault (h'.fault hf)
  labels_le := Nat.le_trans h.labels_le h'.labels_le
  bears hf notes bears := by
    obtain ⟨notes₁, within₁, bears₁⟩ := h.bears (h'.fault hf) notes bears
    obtain ⟨notes₂, within₂, bears₂⟩ := h'.bears hf notes₁ bears₁
    exact ⟨notes₂, within₁.trans within₂ h.labels_le, bears₂⟩

/-- The code, its labels and its regions stay as they are. -/
theorem same (draft : s'.draft = s.draft) (labels : s'.labels = s.labels)
    (regions : s'.regions = s.regions) : Upholds table item a a s s' := by
  have asm : s'.asm = s.asm := congrArg Draft.asm draft
  refine ⟨fun hf => asm ▸ hf, Nat.le_of_eq (asm ▸ rfl), fun _ notes bears => ⟨notes, .refl _, ?_⟩⟩
  exact ⟨asm ▸ bears.holds, by rw [labels, asm]; exact bears.labels, regions ▸ bears.regions⟩

/-- Only the code changes. -/
theorem code {d : Draft} (fault : d.asm.fault = none → s.asm.fault = none)
    (labels_le : s.asm.labels.size ≤ d.asm.labels.size)
    (takes : Assembler.Takes table item a b s.asm d.asm) :
    Upholds table item a b s { s with draft := d } where
  fault := fault
  labels_le := labels_le
  bears hf notes bears := by
    obtain ⟨next, within, holds⟩ := takes hf notes bears.holds
    refine ⟨next, within, holds, fun c l known => ?_, fun region mem =>
      within.entry _ _ (bears.regions region mem)⟩
    obtain ⟨lt, goal⟩ := bears.labels c l known
    exact ⟨Nat.lt_of_lt_of_le lt labels_le, (within.goal l lt).trans goal⟩

/-- The code is pinned. -/
theorem pin (s : LayoutState) : Upholds table item a a s (s.mapAsm (·.pin)) :=
  .code id (Nat.le_refl _) fun hf notes holds => ⟨notes, .refl _, holds.same
    (Assembler.Write.pin.sound holds.sound hf) rfl rfl rfl (fun _ => rfl) holds.sound.pinned_le⟩

/-- An instruction that does not branch. -/
theorem emit {i : Instruction} (ht : i.target? = none) (fine : Fine table item a i) :
    Upholds table item a (i.after a) s (s.mapAsm (·.emit i)) := by
  refine .code (fun hf => (Assembler.fault_emit hf).1)
    (Nat.le_of_eq (congrArg Array.size Assembler.labels_emit.symm)) fun _ notes holds => ?_
  exact ⟨_, Assembler.within_noteHere _, holds.emit ht fine⟩

end Upholds

/-! ## Steps -/

namespace Maintains

variable {α β : Type} {step : Arrange α}

theorem bind {next : α → Arrange β} (h : Maintains table item a b step)
    (h' : ∀ x, Maintains table item b c (next x)) : Maintains table item a c (step >>= next) := by
  intro s y s' ends
  obtain ⟨x, s₁, first, second⟩ := ends_bind.mp ends
  exact (h s x s₁ first).trans (h' x s₁ y s' second)

theorem pure (x : α) : Maintains table item a a (Pure.pure x) := by
  intro s y s' ends
  obtain ⟨-, rfl⟩ := ends_pure.mp ends
  exact .refl s

theorem throw (cause : Cause) : Maintains (α := α) table item a b (MonadExcept.throw cause) :=
  fun _ _ _ ends => (not_ends_throw ends).elim

/-- Code that is written. -/
theorem write {env : BodyEnv} {step : Emit α} (h : Written env item a b step) :
    Maintains env.table item a b (Arrange.write step) := by
  intro s x s' ends
  obtain ⟨d, written, rfl⟩ := ends_write.mp ends
  have levels := h.levels written
  exact .code levels.fault levels.labels_le (h.takes written)

/-- A look at the state. -/
theorem look {next : LayoutState → Arrange α} (h : ∀ s, Maintains table item a b (next s)) :
    Maintains table item a b (get >>= next) := by
  intro s x s' ends
  simp only [ends_bind, ends_get] at ends
  obtain ⟨_, _, ⟨rfl, rfl⟩, ends⟩ := ends
  exact h _ _ _ _ ends

/-- A change of something else than code, labels and regions. -/
theorem change {f : LayoutState → LayoutState} (draft : ∀ s, (f s).draft = s.draft)
    (labels : ∀ s, (f s).labels = s.labels) (regions : ∀ s, (f s).regions = s.regions) :
    Maintains table item a a (modify f : Arrange PUnit) := by
  intro s x s' ends
  obtain rfl := ends_modify.mp ends
  exact .same (draft s) (labels s) (regions s)

end Maintains

/-! ## Jumps -/

section Jumps

variable {env : LayoutEnv} {scope : Scope} {t : BlockId} {l : Label} {kind : BranchKind}

/-- The label of a block is for nothing on the stack. -/
theorem upholds_withLabel (s : LayoutState) (t : BlockId) :
    Upholds table item a a s (s.withLabel t).2 := by
  unfold LayoutState.withLabel
  cases known : s.labels.lookup t with
  | some l => exact .refl s
  | none =>
    refine ⟨id, ?_, fun hf notes bears => ?_⟩
    · exact Nat.le_trans (Nat.le_succ _) (Nat.le_of_eq Assembler.labels_defineLabel.symm)
    · refine ⟨notes.noteGoal s.asm.labels.size .blank, Assembler.within_noteGoal (Nat.le_refl _) _,
        bears.holds.defineLabel hf .blank, ?_, bears.regions⟩
      have size : s.asm.defineLabel.2.labels.size = s.asm.labels.size + 1 :=
        Assembler.labels_defineLabel
      intro c l found
      rw [List.lookup_cons] at found
      split at found
      case h_1 =>
        cases found
        exact ⟨Nat.lt_of_lt_of_eq (Nat.lt_succ_self _) size.symm, if_pos rfl⟩
      case h_2 =>
        obtain ⟨lt, goal⟩ := bears.labels c l found
        exact ⟨Nat.lt_of_lt_of_eq (Nat.lt_succ_of_lt lt) size.symm,
          (if_neg (Nat.ne_of_lt lt)).trans goal⟩

/-- A branch to a block. -/
theorem upholds_branch (known : s.labels.lookup t = some l)
    (pops : (kind.instruction 0).pops ≤ a.cells.length) (clears : kind = .leave → a.cells = [])
    (after : (kind.instruction 0).after a = .blank) :
    Upholds table item a .blank s (s.mapAsm (·.branch kind l)) := by
  refine ⟨fun hf => (Assembler.fault_branch hf).1, Nat.le_of_eq Assembler.labels_branch.symm,
    fun hf notes bears => ?_⟩
  obtain ⟨lt, goal⟩ := bears.labels t l known
  have branched := bears.holds.branch lt hf pops clears fun _ => .of_eq (after.trans goal.symm)
  rw [after] at branched
  refine ⟨_, Assembler.within_noteHere _, branched, fun c k found => ?_, bears.regions⟩
  obtain ⟨lt, goal⟩ := bears.labels c k found
  exact ⟨Nat.lt_of_lt_of_eq lt Assembler.labels_branch.symm, goal⟩

theorem upholds_accept (s : LayoutState) (t : BlockId) (r : Route) :
    Upholds table item a a s (s.accept t r) := by
  refine .same (draft_accept s t r) (labels_accept s t r) ?_
  cases r <;> simp only [LayoutState.accept, LayoutState.pushLast, LayoutState.escape] <;>
    split <;> rfl

theorem maintains_enqueue : Maintains table item a a (enqueue env scope t) := by
  intro s x s' ends
  obtain ⟨r, -, rfl⟩ := ends_enqueue.mp ends
  exact upholds_accept s t r

theorem upholds_goTo {r : Route} (known : s.labels.lookup t = some l) :
    Upholds table item .blank .blank s (s.goTo t l r) := by
  have branched {kind : BranchKind} {s : LayoutState} (known : s.labels.lookup t = some l)
      (plain : kind = .always ∨ kind = .leave) :
      Upholds table item .blank .blank s (s.mapAsm (·.branch kind l)) := by
    refine upholds_branch known ?_ (fun _ => rfl) ?_ <;> rcases plain with rfl | rfl
    · exact Nat.le_refl _
    · exact Nat.le_refl _
    · rfl
    · rfl
  cases r with
  | within =>
    refine (branched known (.inl rfl)).trans (.same ?_ ?_ ?_) <;>
      simp only [LayoutState.goTo, LayoutState.pushFirst] <;> split <;> rfl
  | exit =>
    have targeted : Upholds table item .blank .blank s { s with exitTargeted := true } :=
      .same rfl rfl rfl
    exact targeted.trans (branched known (.inl rfl))
  | leave =>
    exact (upholds_accept s t .leave).trans
      (branched ((labels_escape s t).symm ▸ known) (.inr rfl))
  | endFinally =>
    have fine : Fine table item .blank .endFinally :=
      ⟨fun refers => absurd refers Bool.false_ne_true, Nat.le_refl _, fun _ => rfl,
        fun shape used => absurd used (Option.not_mem_none shape)⟩
    exact .emit rfl fine

/-- Control goes on at a block with nothing on the stack. -/
theorem maintains_transfer : Maintains table item .blank .blank (transfer env scope t) := by
  intro s x s' ends
  obtain ⟨r, -, rfl⟩ := goTo_of_ends_transfer ends
  split
  · exact (upholds_withLabel s t).trans (upholds_goTo (lookup_withLabel s t))
  · exact upholds_accept s t r

/-- A part of the layout that is skipped by a test of the value on the stack. -/
theorem upholds_skipped (test : kind = .ifTrue ∨ kind = .ifFalse)
    (inside : Upholds table item .blank .blank
      ((s.mapAsm (·.defineLabel.2)).mapAsm (·.branch kind s.asm.labels.size)) s₁) :
    Upholds table item (Shape.blank.push .any) .blank s (s₁.mapAsm (·.mark s.asm.labels.size)) := by
  have size : (s.asm.defineLabel.2.branch kind s.asm.labels.size).labels.size =
      s.asm.labels.size + 1 := by
    rw [Assembler.labels_branch, Assembler.labels_defineLabel]
  have le : s.asm.labels.size + 1 ≤ s₁.asm.labels.size := size ▸ inside.labels_le
  refine ⟨fun hf => ?_, ?_, fun hf notes bears => ?_⟩
  · exact (Assembler.fault_branch (inside.fault (Assembler.fault_mark hf).1)).1
  · exact Nat.le_trans (Nat.le_of_succ_le le) (Nat.le_of_eq Assembler.labels_mark.symm)
  · have hf₁ := (Assembler.fault_mark hf).1
    have hf₀ := inside.fault hf₁
    have defined : s.asm.labels.size < s.asm.defineLabel.2.labels.size :=
      Nat.lt_of_lt_of_eq (Nat.lt_succ_self _) Assembler.labels_defineLabel.symm
    have holds := (bears.holds.defineLabel (Assembler.fault_branch hf₀).1 .blank).branchTest test
      defined hf₀ (if_pos rfl)
    obtain ⟨next, within, bears₁⟩ := inside.bears hf₁ _ ⟨holds, fun c l known => by
      obtain ⟨lt, goal⟩ := bears.labels c l known
      exact ⟨Nat.lt_of_lt_of_eq (Nat.lt_succ_of_lt lt) size.symm,
        (if_neg (Nat.ne_of_lt lt)).trans goal⟩, bears.regions⟩
    have within : Notes.Within (s.asm.labels.size + 1) _ next := size ▸ within
    have goal : next.goal s.asm.labels.size = .blank :=
      (within.goal _ (Nat.lt_succ_self _)).trans (if_pos rfl)
    have marked := bears₁.holds.mark (Nat.lt_of_lt_of_le (Nat.lt_succ_self _) le) hf
      fun _ => .of_eq goal.symm
    rw [goal] at marked
    refine ⟨next, ⟨fun l lt => ?_, within.entry⟩, marked, fun c l known => ?_, bears₁.regions⟩
    · exact (within.goal l (Nat.lt_succ_of_lt lt)).trans (if_neg (Nat.ne_of_lt lt))
    · obtain ⟨lt, goal⟩ := bears₁.labels c l known
      exact ⟨Nat.lt_of_lt_of_eq lt Assembler.labels_mark.symm, goal⟩

/-- Control goes on at a block by the value on the stack. -/
theorem maintains_transferIf (test : kind = .ifTrue ∨ kind = .ifFalse) :
    Maintains table item (Shape.blank.push .any) .blank (transferIf env scope kind t) := by
  intro s x s' ends
  obtain ⟨r, -, ends⟩ := branch_of_ends_transferIf ends
  have labeled : Upholds table item (Shape.blank.push .any) (Shape.blank.push .any) s
      (s.withLabel t).2 := upholds_withLabel s t
  have branched (s : LayoutState) (l : Label) (known : s.labels.lookup t = some l) :
      Upholds table item (Shape.blank.push .any) .blank s (s.mapAsm (·.branch kind l)) := by
    refine upholds_branch known ?_ ?_ ?_ <;> rcases test with rfl | rfl
    · exact Nat.le_refl _
    · exact Nat.le_refl _
    · nofun
    · nofun
    · rfl
    · rfl
  cases r
  case within | exit =>
    rw [ends]
    exact (labeled.trans (branched _ _ (lookup_withLabel s t))).trans (upholds_accept _ t _)
  case leave | endFinally =>
    obtain ⟨s₁, transferred, rfl⟩ := ends
    refine labeled.trans (upholds_skipped ?_ (maintains_transfer _ _ _ transferred))
    rcases test with rfl | rfl
    · exact .inr rfl
    · exact .inl rfl

end Jumps

/-! ## Blocks -/

section Blocks

variable {env : LayoutEnv} {scope : Scope} {b : BlockId}

/-- The slot of an enumerator is no code. -/
theorem maintains_enumeratorSlot (e : EdgeId) :
    Maintains env.body.table item a a (enumeratorSlot e) := by
  refine .look fun s => ?_
  split
  · exact .pure _
  · refine (Maintains.write (.slot _)).bind fun _ => Maintains.bind ?_ fun _ => .pure _
    exact .change (fun _ => rfl) (fun _ => rfl) fun _ => rfl

/-- A handler binds the caught value, or drops it. -/
theorem written_bindCaught (clause : CatchClause) :
    Written env.body item (a.push .any) a (bindCaught env clause) := by
  unfold bindCaught
  split
  · exact written_storeVariable _
  · exact written_popped rfl rfl (.refl _)

theorem maintains_placeCases (subject : LocalId) (cases_ : List SwitchCase) :
    Maintains env.body.table item .blank .blank (placeCases env scope subject cases_) := by
  induction cases_ with
  | nil => exact .pure _
  | cons c rest ih =>
    unfold placeCases
    split
    · exact ih
    · refine Maintains.bind (.write ?_) fun _ => (maintains_transferIf (.inl rfl)).bind fun _ => ih
      refine Written.bind (written_pushed rfl rfl (.refl _)) fun _ =>
        (written_emitValue _).bind fun _ => ?_
      exact written_inward rfl (Nat.le_refl 2) (.refl _)

/-- The edge that ends a block, if it opens no scope. -/
theorem maintains_placeEdge {enter : Enter} {e : EdgeId} {edge : Edge}
    (plain : edge.kind.isTry = false) :
    Maintains env.body.table item .blank .blank (placeEdge env enter scope e edge) := by
  have load (slot : LocalId) : Written env.body item .blank (Shape.blank.push .any)
      (Emit.emit (.loadLocal slot)) := written_pushed rfl rfl (.refl _)
  unfold placeEdge
  split
  case h_1 => exact maintains_transfer
  case h_2 =>
    exact (Maintains.write (written_emitValue _)).bind fun _ =>
      (maintains_transferIf (.inr rfl)).bind fun _ => maintains_transfer
  case h_3 kind =>
    rw [kind] at plain
    cases plain
  case h_4 =>
    refine Maintains.bind (b := Shape.blank.push .any) (.write ?_) fun _ =>
      (maintains_enumeratorSlot _).bind fun _ => ?_
    · exact (written_emitValue _).bind fun _ => written_inward rfl (Nat.le_refl 1) (.refl _)
    · exact (Maintains.write (written_popped rfl rfl (.refl _))).bind fun _ => maintains_transfer
  case h_5 =>
    refine .look fun s => ?_
    split
    · exact .throw _
    · refine Maintains.bind (.write ((load _).bind fun _ => written_replaced rfl rfl (.refl _)))
        fun _ => (maintains_transferIf (.inr rfl)).bind fun _ =>
          Maintains.bind (.write ?_) fun _ => maintains_transfer
      refine (load _).bind fun _ => (written_replaced rfl rfl (.refl _)).bind fun _ =>
        (written_storeVariable _).bind fun _ => ?_
      split
      · exact (load _).bind fun _ => (written_replaced rfl rfl (.refl _)).bind fun _ =>
          written_storeVariable _
      · exact .pure _
  case h_6 =>
    refine Maintains.bind (.write ?_) fun _ => (maintains_placeCases _ _).bind fun _ =>
      (Maintains.write (.release _)).bind fun _ => maintains_transfer.bind fun _ => maintains_enqueue
    exact (written_emitValue _).bind fun _ => (Written.slot _).bind fun _ =>
      (written_popped rfl rfl (.refl _)).bind fun _ => .pure _

/-- The statements of a block leave nothing on the stack. -/
theorem maintains_placeStatements :
    Maintains env.body.table item .blank .blank (placeStatements env b) := by
  unfold placeStatements
  split
  · exact .throw _
  · refine (Maintains.write (written_emitStatements _)).bind fun _ => .look fun s => ?_
    dsimp only
    split
    · exact .throw _
    · exact .pure _

/-- The start of a block is its label, behind the code that is there. -/
theorem upholds_beginBlock (s : LayoutState) (b : BlockId) :
    Upholds table item .blank .blank s (s.beginBlock b) := by
  obtain ⟨l, s₁, labeled, same⟩ := beginBlock_cases s b
  have known : s₁.labels.lookup b = some l := by
    have := lookup_withLabel { s with placed := b :: s.placed } b
    rwa [labeled] at this
  have first : Upholds table item .blank .blank s s₁ := by
    have begun : Upholds table item .blank .blank s { s with placed := b :: s.placed } :=
      .same rfl rfl rfl
    have further : Upholds table item .blank .blank { s with placed := b :: s.placed } _ :=
      upholds_withLabel _ b
    rw [labeled] at further
    exact begun.trans further
  have placed : Upholds table item .blank .blank s₁ (s₁.mapAsm (·.place l)) := by
    refine ⟨fun hf => ?_, Nat.le_of_eq (by simp [Assembler.place]), fun hf notes bears => ?_⟩
    · exact Assembler.fault_elide.symm.trans (Assembler.fault_mark hf).1
    · obtain ⟨lt, goal⟩ := bears.labels b l known
      have elided := bears.holds.elide (l := l) fun _ => .of_eq goal.symm
      have marked := elided.mark (l := l) (by rwa [Assembler.labels_elide]) hf fun _ => .refl _
      refine ⟨notes, .refl _, goal ▸ marked, fun c k found => ?_, bears.regions⟩
      obtain ⟨lt, goal⟩ := bears.labels c k found
      exact ⟨by simpa [Assembler.place] using lt, goal⟩
  rw [same]
  exact first.trans (placed.trans ((Upholds.pin _).trans (.same rfl rfl rfl)))

/-- The targets that nested scopes have left. -/
theorem maintains_enqueueEscapes (targets : List BlockId) :
    Maintains table item a a (enqueueEscapes env scope targets) := by
  induction targets with
  | nil => exact .pure _
  | cons target rest ih =>
    intro s x s' ends
    obtain ⟨r, -, -, ends⟩ := ends_enqueueEscapes_cons.mp ends
    exact (upholds_accept s target r).trans (ih _ _ _ ends)

end Blocks

/-! ## Handlers -/

section Parts

variable {env : LayoutEnv} {job : Job} {p p' : Progress}

/-- The start of a handler is an entry, for as much as is known there. -/
theorem upholds_handler {depth : Nat} {region : Nat → Region}
    (unreachable : s.asm.reachable = false) (start : ∀ n, (region n).handlerStart = s.asm.offset)
    (known : ∀ n, (region n).known = a)
    (inside : Upholds table item a .blank (s.beginHandler depth) s₁) :
    Upholds table item .blank .blank s (s₁.endHandler region) := by
  refine ⟨fun hf => inside.fault hf, inside.labels_le, fun hf notes bears => ?_⟩
  have hf₀ : s.asm.fault = none := inside.fault hf
  have pinned : s.asm.pin.Holds table item notes .blank := bears.holds.same
    (Assembler.Write.pin.sound bears.holds.sound hf₀) rfl rfl rfl (fun _ => rfl)
    bears.holds.sound.pinned_le
  have begun := pinned.beginHandler hf₀ unreachable rfl depth a
  obtain ⟨next, within, bears₁⟩ := inside.bears hf _ ⟨begun, bears.labels, fun region mem =>
    .inl (bears.regions region mem)⟩
  refine ⟨next, ⟨within.goal, fun n b h => within.entry n b (.inl h)⟩, ?_, bears₁.labels, ?_⟩
  · exact bears₁.holds.same (Assembler.Write.pin.sound bears₁.holds.sound hf) rfl rfl rfl
      (fun _ => rfl) bears₁.holds.sound.pinned_le
  · intro r mem
    obtain mem | rfl := Array.mem_push.mp mem
    · exact bears₁.regions r mem
    · rw [start, known]
      exact within.entry _ _ (.inr ⟨rfl, rfl⟩)

/-! ## Whole layouts -/

/-- **Every part of a layout bears out** the notes that are taken on the way. -/
theorem upholds_of_lays (h : Lays env job p p') (ready : p.state.Ready)
    (slots : p.state.asm.slots.Sound) (starts : job.Starts p.state) :
    Upholds env.body.table item .blank .blank p.state p'.state := by
  -- The notes of a block with its statements, and those of a step that only takes from the queue.
  have statements {s s₁ : LayoutState} {b : BlockId}
      (ends : Ends (placeStatements env b) (s.beginBlock b) () s₁) :
      Upholds env.body.table item .blank .blank s s₁ :=
    (upholds_beginBlock s b).trans (maintains_placeStatements _ _ _ ends)
  have taken (p : Progress) (rest : List BlockId) : Upholds env.body.table item .blank .blank p.state
      (p.map fun s => { s with queue := rest }).state := .same rfl rfl rfl
  induction h with
  | done => exact .refl _
  | @skip path p b rest p' hq hb _ ih =>
    exact (taken p rest).trans
      (ih ready slots (starts_of_unreachable (starts.unreachable hq hb)))
  | @place path p b rest p₁ p' hq hb h₁ _ ih₁ ih₂ =>
    obtain ⟨first, unreachable⟩ := continues_of_lays h₁ ready slots trivial
    exact (taken p rest).trans ((ih₁ ready slots trivial).trans
      (ih₂ first.ready first.slots (starts_of_unreachable unreachable)))
  | plain _ hstatements _ hk hedge =>
    exact (statements hstatements).trans (maintains_placeEdge hk _ _ _ hedge)
  | @guard path p b e edge body catches finally? next s₁ p₂ p₃ p₄ s₅ r fromBody fromCatches
      hrange hstatements hends hkind h₂ h₃ h₄ hescapes hr ih₂ ih₃ ih₄ =>
    have goes := guardGoes ready slots hstatements (continues_of_lays h₂) (continues_of_lays h₃)
      (continues_of_lays h₄) hescapes hr
    have head := (statements hstatements).trans
      ((Upholds.pin s₁).trans (ih₂ goes.pin.ready goes.pin.slots trivial))
    have handlers := (Upholds.pin p₂.state).trans
      ((ih₃ goes.pinBehind.ready goes.pinBehind.slots goes.unreachable₂).trans
        (ih₄ goes.catches.ready goes.catches.slots goes.unreachable₃))
    exact (head.trans handlers).trans
      ((maintains_enqueueEscapes _ _ _ _ hescapes).trans (upholds_accept s₅ next r))
  | @enter path p seed p₁ hseed _ ih =>
    have opened : Upholds env.body.table item .blank .blank p.state (p.state.openScope seed) :=
      .same rfl rfl rfl
    have closed : Upholds env.body.table item .blank .blank p₁.state (p₁.state.closeScope p.state) :=
      .same rfl rfl rfl
    exact opened.trans ((ih ready slots (starts_openScope hseed)).trans closed)
  | noCatch => exact .refl _
  | @«catch» source path tryStart tryEnd past clause rest p s₁ p₂ p' escapes others hbind h₁ _ ih₁
      ih₂ =>
    have goes := catchGoes ready slots starts hbind (continues_of_lays h₁)
    let region := (⟨.catch clause.type, tryStart, tryEnd, p.state.asm.offset, ·⟩ : Nat → Region)
    have handler : Upholds env.body.table item .blank .blank p.state (p₂.state.endHandler region) :=
      upholds_handler starts (fun _ => rfl) (fun _ => rfl)
        ((Maintains.write (written_bindCaught clause) _ _ _ hbind).trans
          (ih₁ goes.bound.ready goes.bound.slots trivial))
    exact handler.trans (ih₂ (goes.behind _).ready (goes.behind _).slots goes.unreachable)
  | noFinally => exact .refl _
  | @«finally» source path tryStart handler next p p₁ escapes h₁ ih =>
    have goes := finallyGoes ready slots starts (continues_of_lays h₁)
    exact upholds_handler starts (fun _ => rfl) (fun _ => rfl)
      (ih goes.head.ready goes.head.slots trivial)

/-- The exit block pushes the result, and returns it. -/
theorem ExitPlaced.upholds (h : ExitPlaced env s s') :
    Upholds env.body.table item .blank .blank s s' := by
  obtain ⟨s₁, hstatements, rfl⟩ := h.placed
  have load {i : Instruction} (fine : Fine env.body.table item .blank i) (ht : i.target? = none)
      (after : i.after .blank = Shape.blank.push .any) :
      Upholds env.body.table item .blank (Shape.blank.push .any) s₁ (s₁.mapAsm (·.emit i)) :=
    after ▸ .emit ht fine
  have loaded : Upholds env.body.table item .blank (Shape.blank.push .any) s₁
      (s₁.mapAsm (·.emit s₁.asm.resultLoad)) := by
    unfold Assembler.resultLoad
    split
    · exact load (.plain rfl rfl rfl (Nat.zero_le _)) rfl rfl
    · exact load (.plain rfl rfl rfl (Nat.zero_le _)) rfl rfl
  have fine : Fine env.body.table item (Shape.blank.push .any) .return :=
    .plain rfl rfl rfl (Nat.le_refl _)
  have returned : Upholds env.body.table item (Shape.blank.push .any) .blank
      (s₁.mapAsm (·.emit s₁.asm.resultLoad))
      ((s₁.mapAsm (·.emit s₁.asm.resultLoad)).mapAsm (·.emit .return)) := .emit rfl fine
  exact (upholds_beginBlock s _).trans
    ((maintains_placeStatements _ _ _ hstatements).trans (loaded.trans returned))

/-- **A whole layout bears notes out** in which nothing is known at its start, and the starts of its
handlers are entries. -/
theorem upholds_of_ends_placeAll (ready : s.Ready) (slots : s.asm.slots.Sound)
    (starts : Job.Starts s (.drain [])) (h : Ends (placeAll env) s () s') :
    Upholds env.body.table item .blank .blank s s' := by
  obtain ⟨p, laid, last⟩ := lays_of_ends_placeAll h
  have placed : Upholds env.body.table item .blank .blank s p.state :=
    upholds_of_lays laid ready slots starts
  split at last
  · exact placed.trans last.upholds
  · rwa [last]

/-- Control does not reach the end of a whole layout. -/
theorem unreachable_of_ends_placeAll (ready : s.Ready) (slots : s.asm.slots.Sound)
    (starts : Job.Starts s (.drain [])) (h : Ends (placeAll env) s () s') :
    s'.asm.reachable = false := by
  obtain ⟨p, laid, last⟩ := lays_of_ends_placeAll h
  obtain ⟨placed, unreachable⟩ := continues_of_lays laid ready slots starts
  split at last
  · exact (last.continues placed.ready placed.slots).2.1
  · rw [last]
    exact unreachable

end Parts

end StackScript
