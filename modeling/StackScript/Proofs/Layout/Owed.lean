import StackScript.Proofs.Layout.Fronts
import StackScript.Proofs.Layout.Labelled
import StackScript.Proofs.Writing.Owed

/-!
# No branch of a layout waits in vain

A label that a branch waits for gets its place before the layout ends: one inside a block at once,
and that of a block when the block is placed, for the targets of branches become part of the layout.
So a layout that succeeds without a fault owes no label its place.

## Main definitions

* `Owing`: a layout that goes on, and owes a place to the labels of its own blocks only
* `Pays`: a step by which it goes on so

## Main results

* `owing_of_lays`: every part of a layout
* `resolved_of_ends_placeAll`: whole layouts
-/

namespace StackScript

open Emit Arrange

/-- **A layout that goes on** and owes a place to labels of blocks only that are part of the layout,
or are left to the parts around it. -/
structure Owing (left : List BlockId) (s s' : LayoutState) : Prop where
  fault : s'.asm.fault = none → s.asm.fault = none
  labels_le : s.asm.labels.size ≤ s'.asm.labels.size
  ready : s'.Ready
  labels : ∀ b l, s.labels.lookup b = some l → s'.labels.lookup b = some l
  placed : ∀ b ∈ s.placed, b ∈ s'.placed
  exitTargeted : s.exitTargeted = true → s'.exitTargeted = true
  settled : ∀ t, s.Settled t → s'.Settled t
  owes : s'.asm.fault = none → ∀ l, s'.asm.Owes l →
    s.asm.Owes l ∨ ∃ b, s'.labels.lookup b = some l ∧ (s'.Settled b ∨ b ∈ left)

/-- A step by which a layout goes on, and owes a place to the labels of its blocks only. -/
def Pays {α : Type} (step : Arrange α) : Prop :=
  ∀ s x s', s.Ready → Ends step s x s' → Owing [] s s'

variable {left left' : List BlockId} {s s₁ s' : LayoutState} {t : BlockId}

namespace Owing

theorem refl (ready : s.Ready) : Owing left s s :=
  ⟨id, Nat.le_refl _, ready, fun _ _ => id, fun _ => id, id, fun _ => id, fun _ _ => .inl⟩

theorem trans (h : Owing left s s₁) (h' : Owing left s₁ s') : Owing left s s' where
  fault hf := h.fault (h'.fault hf)
  labels_le := Nat.le_trans h.labels_le h'.labels_le
  ready := h'.ready
  labels b l known := h'.labels b l (h.labels b l known)
  placed b hb := h'.placed b (h.placed b hb)
  exitTargeted hx := h'.exitTargeted (h.exitTargeted hx)
  settled t ht := h'.settled t (h.settled t ht)
  owes hf l owes := by
    obtain owes | known := h'.owes hf l owes
    · refine (h.owes (h'.fault hf) l owes).imp_right fun ⟨b, named, kept⟩ => ?_
      exact ⟨b, h'.labels b l named, kept.imp_left (h'.settled b)⟩
    · exact .inr known

/-- What was left may have become part of the layout. -/
theorem mono (h : Owing left s s') (kept : ∀ b ∈ left, s'.Settled b ∨ b ∈ left') :
    Owing left' s s' :=
  { h with owes := fun hf l owes => (h.owes hf l owes).imp_right fun ⟨b, named, there⟩ =>
      ⟨b, named, there.elim .inl (kept b)⟩ }

theorem weaken (h : Owing [] s s') : Owing left s s' := h.mono fun _ hb => nomatch hb

theorem retains (h : Owing left s s') : Retains s s' := ⟨h.placed, h.exitTargeted, h.settled⟩

/-- The first block is taken out of the queue, and is part of the layout behind it all the same. -/
theorem of_taken {b : BlockId} {rest : List BlockId}
    (h : Owing left { s with queue := rest } s') (queue : s.queue = b :: rest)
    (hb : s'.Settled b) : Owing left s s' :=
  { h with settled := (h.retains.of_taken queue hb).settled }

/-- The queue and the escapes are known to go on. -/
theorem of_extends {scope : Scope} {targets : List BlockId} (h : Extends scope targets s s')
    (owes : s'.asm.fault = none → ∀ l, s'.asm.Owes l →
      s.asm.Owes l ∨ ∃ b, s'.labels.lookup b = some l ∧ (s'.Settled b ∨ b ∈ left)) :
    Owing left s s' :=
  ⟨h.evolves.fault, h.evolves.labels_le, h.ready, h.labels, fun _ hb => h.placed ▸ hb, h.exitTargeted,
    fun _ => h.settled, owes⟩

/-- Only the code changes, and its labels are owed no place. -/
theorem code {d : Draft} (ready : s.Ready) (h : Assembler.Repays [] s.asm d.asm) :
    Owing left s { s with draft := d } where
  fault := h.fault
  labels_le := h.labels_le
  ready b l known := Nat.lt_of_lt_of_le (ready b l known) h.labels_le
  labels _ _ := id
  placed _ := id
  exitTargeted := id
  settled _ := id
  owes hf l owes := .inl ((h.owes hf l owes).resolve_right List.not_mem_nil)

end Owing

/-! ## Steps -/

namespace Pays

variable {α β : Type} {step : Arrange α}

theorem bind {next : α → Arrange β} (h : Pays step) (h' : ∀ x, Pays (next x)) :
    Pays (step >>= next) := by
  intro s y s' ready ends
  obtain ⟨x, s₁, first, second⟩ := ends_bind.mp ends
  have begun := h s x s₁ ready first
  exact begun.trans (h' x s₁ y s' begun.ready second)

theorem pure (x : α) : Pays (Pure.pure x) := by
  intro s y s' ready ends
  obtain ⟨-, rfl⟩ := ends_pure.mp ends
  exact .refl ready

theorem throw (cause : Cause) : Pays (MonadExcept.throw cause : Arrange α) :=
  fun _ _ _ _ ends => (not_ends_throw ends).elim

/-- Code that is written in one piece. -/
theorem write {env : BodyEnv} {item : WorkItem} {a b : Shape} {step : Emit α}
    (h : Written env item a b step) : Pays (Arrange.write step) := by
  intro s x s' ready ends
  obtain ⟨d, written, rfl⟩ := ends_write.mp ends
  exact .code ready (h.repays written)

/-- A look at the state. -/
theorem look {next : LayoutState → Arrange α} (h : ∀ s, Pays (next s)) : Pays (get >>= next) := by
  intro s x s' ready ends
  simp only [ends_bind, ends_get] at ends
  obtain ⟨_, _, ⟨rfl, rfl⟩, ends⟩ := ends
  exact h _ _ _ _ ready ends

end Pays

/-! ## Jumps -/

section Jumps

variable {env : LayoutEnv} {scope : Scope} {kind : BranchKind} {l : Label} {r : Route}

@[simp] theorem owes_withLabel : (s.withLabel t).2.asm.Owes l ↔ s.asm.Owes l := by
  unfold LayoutState.withLabel
  split
  · rfl
  · exact Assembler.owes_defineLabel

theorem owing_withLabel (ready : s.Ready) (t : BlockId) : Owing left s (s.withLabel t).2 := by
  have labeled : Extends .root [] s (s.withLabel t).2 := extends_withLabel ready t
  exact .of_extends labeled fun _ l owes => .inl (owes_withLabel.mp owes)

theorem owing_accept (ready : s.Ready) (hr : route env.ranges scope t = .ok r) :
    Owing left s (s.accept t r) := by
  have accepted : Extends scope [t] s (s.accept t r) :=
    (extends_accept ready hr (List.mem_singleton_self t)).1
  exact .of_extends accepted fun _ l owes => .inl (by rwa [asm_accept] at owes)

/-- A jump to a target owes the label of the target, which becomes part of the layout. -/
theorem owing_goTo (ready : s.Ready) (known : s.labels.lookup t = some l)
    (hr : route env.ranges scope t = .ok r) : Owing left s (s.goTo t l r) := by
  have size : l < s.asm.labels.size := ready t l known
  have jumped : Extends scope [t] s (s.goTo t l r) :=
    (extends_goTo ready size hr (List.mem_singleton_self t)).1
  refine .of_extends jumped fun hf k owes => ?_
  have named : (s.goTo t l r).labels.lookup t = some l := jumped.labels t l known
  cases r with
  | within =>
    have asm : (s.goTo t l .within).asm = s.asm.branch .always l :=
      asm_pushFirst (s.mapAsm (·.branch .always l)) t
    rw [asm] at owes hf
    refine (Assembler.owes_of_branch size hf owes).imp_right fun same => ?_
    exact ⟨t, same ▸ named, .inl (settled_pushFirst _ t)⟩
  | exit =>
    obtain ⟨rfl, -⟩ := route_exit hr
    refine (Assembler.owes_of_branch size hf owes).imp_right fun same => ?_
    exact ⟨_, same ▸ named, .inl (.inr (.inr (.inr ⟨rfl, rfl⟩)))⟩
  | leave =>
    have asm : (s.goTo t l .leave).asm = s.asm.branch .leave l :=
      congrArg (·.branch .leave l) (asm_accept s t .leave)
    rw [asm] at owes hf
    refine (Assembler.owes_of_branch size hf owes).imp_right fun same => ?_
    exact ⟨t, same ▸ named, .inl (settled_escape s t)⟩
  | endFinally => exact .inl (Assembler.owes_emit.mp owes)

/-- Control that goes on at a target. -/
theorem pays_transfer : Pays (transfer env scope t) := by
  intro s x s' ready ends
  obtain ⟨r, hr, rfl⟩ := goTo_of_ends_transfer ends
  split
  · have labeled : Owing [] s (s.withLabel t).2 := owing_withLabel ready t
    exact labeled.trans (owing_goTo labeled.ready (lookup_withLabel s t) hr)
  · exact owing_accept ready hr

theorem pays_enqueue : Pays (enqueue env scope t) := by
  intro s x s' ready ends
  obtain ⟨r, hr, rfl⟩ := ends_enqueue.mp ends
  exact owing_accept ready hr

/-- A branch to a target that is accepted. -/
theorem owing_branch_accept (ready : s.Ready) (known : s.labels.lookup t = some l)
    (hr : route env.ranges scope t = .ok r) (other : r ≠ .endFinally) :
    Owing left s ((s.mapAsm (·.branch kind l)).accept t r) := by
  have size : l < s.asm.labels.size := ready t l known
  have branched : Extends scope [t] s (s.mapAsm (·.branch kind l)) :=
    extends_branch kind ready size
  have accepted : Extends scope [t] _ ((s.mapAsm (·.branch kind l)).accept t r) :=
    (extends_accept branched.ready hr (List.mem_singleton_self t)).1
  refine .of_extends (branched.trans accepted) fun hf k owes => ?_
  rw [asm_accept] at owes hf
  refine (Assembler.owes_of_branch size hf owes).imp_right fun same => ?_
  exact ⟨t, same ▸ accepted.labels t l known, .inl (settled_accept _ hr other)⟩

/-- A part of the layout that is skipped by a test. -/
theorem owing_skipped (inside : Owing left
      ((s.mapAsm (·.defineLabel.2)).mapAsm (·.branch kind s.asm.labels.size)) s₁) :
    Owing left s (s₁.mapAsm (·.mark s.asm.labels.size)) := by
  let skip : Label := s.asm.labels.size
  have defined : skip < s.asm.defineLabel.2.labels.size :=
    Nat.lt_of_lt_of_eq (Nat.lt_succ_self _) Assembler.labels_defineLabel.symm
  have size : skip < s₁.asm.labels.size :=
    Nat.lt_of_lt_of_le (Nat.lt_of_lt_of_eq defined Assembler.labels_branch.symm) inside.labels_le
  refine ⟨fun hf => ?_, ?_, fun b l known => ?_, inside.labels, inside.placed, inside.exitTargeted,
    inside.settled, fun hf l owes => ?_⟩
  · exact (Assembler.fault_branch (inside.fault (Assembler.fault_mark hf).1)).1
  · exact Nat.le_trans (Nat.le_of_lt size) (Nat.le_of_eq Assembler.labels_mark.symm)
  · exact Nat.lt_of_lt_of_eq (inside.ready b l known) Assembler.labels_mark.symm
  · have hf₁ : s₁.asm.fault = none := (Assembler.fault_mark hf).1
    obtain ⟨owes, other⟩ := Assembler.owes_of_mark size hf owes
    refine (inside.owes hf₁ l owes).imp_left fun owes => ?_
    have owes := Assembler.owes_of_branch defined (inside.fault hf₁) owes
    exact Assembler.owes_defineLabel.mp (owes.resolve_right other)

/-- Control that goes on at a target in one case. -/
theorem pays_transferIf : Pays (transferIf env scope kind t) := by
  intro s x s' ready ends
  obtain ⟨r, hr, ends⟩ := branch_of_ends_transferIf ends
  have labeled : Owing [] s (s.withLabel t).2 := owing_withLabel ready t
  cases r
  case within | exit =>
    rw [ends]
    exact labeled.trans
      (owing_branch_accept labeled.ready (lookup_withLabel s t) hr (by decide))
  case leave | endFinally =>
    obtain ⟨s₁, transferred, rfl⟩ := ends
    have ready₁ : (((s.withLabel t).2.mapAsm (·.defineLabel.2)).mapAsm
        (·.branch kind.negate (s.withLabel t).2.asm.labels.size)).Ready := fun b l known => by
      have lt := labeled.ready b l known
      exact Nat.lt_of_lt_of_eq (Nat.lt_succ_of_lt lt)
        (Assembler.labels_defineLabel.symm.trans Assembler.labels_branch.symm)
    exact labeled.trans (owing_skipped (pays_transfer _ _ _ ready₁ transferred))

end Jumps

/-! ## Blocks -/

section Blocks

variable {env : LayoutEnv} {scope : Scope} {b : BlockId}

/-- The slot of an enumerator is no code. -/
theorem pays_enumeratorSlot (e : EdgeId) : Pays (enumeratorSlot e) := by
  intro s slot s' ready ends
  obtain ⟨-, rfl⟩ | ⟨-, -, rfl⟩ := enumeratorSlot_cases ends
  · exact .refl ready
  · exact ⟨id, Nat.le_refl _, ready, fun _ _ => id, fun _ => id, id, fun _ => id, fun _ _ => .inl⟩

/-- Code that is written where nothing is on the stack. -/
theorem pays_write {α : Type} {step : Emit α} (env : BodyEnv) (item : WorkItem) (a : Shape)
    (h : Written env item .blank a step) : Pays (write step) :=
  .write h

theorem pays_placeCases (item : WorkItem) (subject : LocalId) (cases_ : List SwitchCase) :
    Pays (placeCases env scope subject cases_) := by
  induction cases_ with
  | nil => exact .pure _
  | cons c rest ih =>
    unfold placeCases
    split
    · exact ih
    · refine (pays_write env.body item (Shape.blank.push .any) ?_).bind fun _ =>
        pays_transferIf.bind fun _ => ih
      refine Written.bind (written_pushed rfl rfl (.refl _)) fun _ =>
        (written_emitValue _).bind fun _ => ?_
      exact written_inward rfl (Nat.le_refl 2) (.refl _)

/-- The edge that ends a block, if it opens no scope. -/
theorem pays_placeEdge (item : WorkItem) {enter : Enter} {e : EdgeId} {edge : Edge}
    (plain : edge.kind.isTry = false) : Pays (placeEdge env enter scope e edge) := by
  have load (slot : LocalId) : Written env.body item .blank (Shape.blank.push .any)
      (Emit.emit (.loadLocal slot)) := written_pushed rfl rfl (.refl _)
  have store (slot : LocalId) : Written env.body item (Shape.blank.push .any) .blank
      (Emit.emit (.storeLocal slot)) := written_popped rfl rfl (.refl _)
  unfold placeEdge
  split
  case h_1 => exact pays_transfer
  case h_2 =>
    exact (pays_write env.body item _ (written_emitValue _)).bind fun _ =>
      pays_transferIf.bind fun _ => pays_transfer
  case h_3 kind =>
    rw [kind] at plain
    cases plain
  -- An enumerator is taken from the stack before the edge goes on.
  case h_4 =>
    refine (pays_write env.body item (Shape.blank.push .any) ?_).bind fun _ =>
      (pays_enumeratorSlot _).bind fun _ => (Pays.write (store _)).bind fun _ => pays_transfer
    exact (written_emitValue _).bind fun _ => written_inward rfl (Nat.le_refl 1) (.refl _)
  case h_5 =>
    refine .look fun s => ?_
    split
    · exact .throw _
    · refine (pays_write env.body item (Shape.blank.push .any) ?_).bind fun _ =>
        pays_transferIf.bind fun _ => (pays_write env.body item .blank ?_).bind fun _ =>
          pays_transfer
      · exact (load _).bind fun _ => written_replaced rfl rfl (.refl _)
      · refine (load _).bind fun _ => (written_replaced rfl rfl (.refl _)).bind fun _ =>
          (written_storeVariable _).bind fun _ => ?_
        split
        · exact (load _).bind fun _ => (written_replaced rfl rfl (.refl _)).bind fun _ =>
            written_storeVariable _
        · exact .pure _
  case h_6 =>
    refine (pays_write env.body item .blank ?_).bind fun _ =>
      (pays_placeCases item _ _).bind fun _ =>
      (pays_write env.body item .blank (.release _)).bind fun _ =>
      pays_transfer.bind fun _ => pays_enqueue
    exact (written_emitValue _).bind fun _ => (Written.slot _).bind fun _ =>
      (store _).bind fun _ => .pure _

/-- The statements of a block only write code. -/
theorem pays_placeStatements (item : WorkItem) : Pays (placeStatements env b) := by
  unfold placeStatements
  split
  · exact .throw _
  · refine (pays_write env.body item .blank (written_emitStatements _)).bind fun _ =>
      .look fun s => ?_
    dsimp only
    split
    · exact .throw _
    · exact .pure _

/-- The label of a block that starts is owed no more. -/
theorem owes_of_beginBlock {l : Label} (ready : s.Ready) (hf : (s.beginBlock b).asm.fault = none)
    (owes : (s.beginBlock b).asm.Owes l) : s.asm.Owes l ∧ s.labels.lookup b ≠ some l := by
  have ready' : LayoutState.Ready { s with placed := b :: s.placed } := ready
  have labeled : Extends .root [] _ _ := extends_withLabel ready' b
  have named := lookup_withLabel { s with placed := b :: s.placed } b
  have known := label_withLabel ready' b
  obtain ⟨k, s₁, same, begun⟩ := beginBlock_cases s b
  have kept : s₁.asm.Owes l ↔ s.asm.Owes l := by
    have kept := owes_withLabel (s := { s with placed := b :: s.placed }) (t := b) (l := l)
    rwa [same] at kept
  rw [same] at labeled named known
  rw [begun] at owes hf
  have known : k < (s₁.asm.elide k).labels.size :=
    Nat.lt_of_lt_of_eq known (congrArg Array.size Assembler.labels_elide.symm)
  obtain ⟨owes, other⟩ := Assembler.owes_of_mark known hf owes
  refine ⟨kept.mp (Assembler.owes_of_elide owes), fun found => other ?_⟩
  exact Option.some.inj ((labeled.labels b l found).symm.trans named)

theorem owing_beginBlock (ready : s.Ready) (b : BlockId) : Owing left s (s.beginBlock b) := by
  obtain ⟨evolves, ready', labels, -⟩ := extends_beginBlock ready b
  have kept := retains_beginBlock s b
  exact ⟨evolves.fault, evolves.labels_le, ready', labels, kept.placed, kept.exitTargeted,
    kept.settled, fun hf l owes => .inl (owes_of_beginBlock ready hf owes).1⟩

/-- The targets that nested scopes have left become part of the layout around them. -/
theorem owing_of_ends_enqueueEscapes {targets : List BlockId} (ready : s.Ready)
    (ends : Ends (enqueueEscapes env scope targets) s () s') : Owing left s s' := by
  obtain ⟨escaped, same, -⟩ := extends_of_ends_enqueueEscapes ready ends
  have same : s'.asm = s.asm := congrArg Draft.asm same
  exact .of_extends escaped fun _ l owes => .inl (same ▸ owes)

end Blocks

/-! ## Whole layouts -/

section Parts

variable {env : LayoutEnv} {job : Job} {p p' : Progress}

/-- The code is pinned. -/
theorem owing_pin (ready : s.Ready) : Owing left s (s.mapAsm (·.pin)) :=
  .code ready (.same rfl rfl rfl)

theorem owing_beginHandler (ready : s.Ready) (depth : Nat) :
    Owing left s (s.beginHandler depth) :=
  .code ready (.same rfl rfl rfl)

theorem owing_endHandler (ready : s.Ready) (region : Nat → Region) :
    Owing left s (s.endHandler region) := by
  have pinned : Owing left s (s.mapAsm (·.pin)) := owing_pin ready
  exact ⟨pinned.fault, pinned.labels_le, pinned.ready, pinned.labels, pinned.placed,
    pinned.exitTargeted, pinned.settled, pinned.owes⟩

/-- **Every part of a layout** owes a place to the labels of its own blocks only, and of those that
it leaves. -/
theorem owing_of_lays (item : WorkItem) (h : Lays env job p p') (ready : p.state.Ready)
    (slots : p.state.asm.slots.Sound) (starts : job.Starts p.state) :
    Owing job.escapes p.state p'.state := by
  induction h with
  | done | noCatch | noFinally => exact .refl ready
  | @skip path p b rest p' hq hb _ ih =>
    have owing := ih ready slots (starts_of_unreachable (starts.unreachable hq hb))
    exact owing.of_taken hq (owing.settled b (.inl hb))
  | @place path p b rest p₁ p' hq hb h₁ _ ih₁ ih₂ =>
    obtain ⟨-, placed, -⟩ := retains_of_lays h₁ ready slots trivial
    obtain ⟨goes, unreachable⟩ := continues_of_lays h₁ ready slots trivial
    have first : Owing [] p.state p₁.state := (ih₁ ready slots trivial).of_taken hq (.inl placed)
    exact first.trans (ih₂ goes.ready goes.slots (starts_of_unreachable unreachable))
  | @plain path p b e edge s₁ s' enter _ hstatements hends hk hedge =>
    have begun := continues_beginBlock ready slots b
    have head : Owing [] p.state s₁ := (owing_beginBlock ready b).trans
      (pays_placeStatements item _ _ _ begun.ready hstatements)
    exact head.trans (pays_placeEdge item hk _ _ _ head.ready hedge)
  | @guard path p b e edge body catches finally? next s₁ p₂ p₃ p₄ s₅ r fromBody fromCatches _
      hstatements hends hkind h₂ h₃ h₄ hescapes hr ih₂ ih₃ ih₄ =>
    have goes := guardGoes ready slots hstatements (continues_of_lays h₂) (continues_of_lays h₃)
      (continues_of_lays h₄) hescapes hr
    have begun := continues_beginBlock ready slots b
    have head : Owing (fromBody ++ fromCatches) p.state s₁ := (owing_beginBlock ready b).trans
      (pays_placeStatements item _ _ _ begun.ready hstatements).weaken
    have inBody : Owing (fromBody ++ fromCatches) _ p₂.state :=
      (ih₂ goes.pin.ready goes.pin.slots trivial).mono fun t ht =>
        .inr (List.mem_append_left _ ht)
    have inCatches : Owing (fromBody ++ fromCatches) _ p₃.state :=
      (ih₃ goes.pinBehind.ready goes.pinBehind.slots goes.unreachable₂).mono fun t ht =>
        .inr (List.mem_append_right _ ht)
    have inFinally := ih₄ goes.catches.ready goes.catches.slots goes.unreachable₃
    have inside : Owing (fromBody ++ fromCatches) s₁ p₄.state :=
      (((owing_pin head.ready).trans inBody).trans
        ((owing_pin goes.body.ready).trans inCatches)).trans inFinally.weaken
    -- All that the parts of the block leave is part of the layout behind them.
    obtain ⟨escaped, -, settled⟩ := extends_of_ends_enqueueEscapes goes.final.ready hescapes
    have accepted : Extends (scopeOf path) [next] _ _ :=
      (extends_accept goes.escapes.ready hr (List.mem_singleton_self next)).1
    have behind : Owing (fromBody ++ fromCatches) p₄.state (s₅.accept next r) :=
      (owing_of_ends_enqueueEscapes inFinally.ready hescapes).trans
        (owing_accept escaped.ready hr)
    exact ((head.trans inside).trans behind).mono fun t ht =>
      .inl (accepted.settled (settled t ht))
  | @enter path p seed p₁ hseed h ih =>
    have starts' : (Job.drain path).Starts (p.state.openScope seed) := starts_openScope hseed
    have inner := ih ready slots starts'
    have kept : Retains p.state (p₁.state.closeScope p.state) := inner.retains.closeScope
    obtain ⟨-, ⟨queue, -⟩, -⟩ := retains_of_lays h ready slots starts'
    refine ⟨inner.fault, inner.labels_le, inner.ready, inner.labels, kept.placed,
      kept.exitTargeted, kept.settled, fun hf l owes => ?_⟩
    refine (inner.owes hf l owes).imp_right fun ⟨b, named, there⟩ => ⟨b, named, ?_⟩
    -- The scope is drained, and what it leaves is handed to the scope around it.
    obtain (ht | ht | ht | ht) | ht := there
    · exact .inl (.inl ht)
    · rw [queue] at ht
      cases ht
    · exact .inr ht
    · exact .inl (.inr (.inr (.inr ht)))
    · cases ht
  | @«catch» source path tryStart tryEnd past clause rest p s₁ p₂ p' escapes others hbind h₁ _ ih₁
      ih₂ =>
    have goes := catchGoes ready slots starts hbind (continues_of_lays h₁)
    have binds : Written env.body item (Shape.blank.push .any) .blank (bindCaught env clause) :=
      written_bindCaught clause
    have head : Owing (escapes ++ others) p.state s₁ := (owing_beginHandler ready 1).trans
      (Pays.write binds _ _ _ goes.head.ready hbind).weaken
    have inside : Owing (escapes ++ others) s₁ p₂.state :=
      (ih₁ goes.bound.ready goes.bound.slots trivial).mono fun t ht =>
        .inr (List.mem_append_left _ ht)
    have rest : Owing (escapes ++ others) p₂.state p'.state :=
      (owing_endHandler goes.handler.ready _).trans
        ((ih₂ (goes.behind _).ready (goes.behind _).slots goes.unreachable).mono fun t ht =>
          .inr (List.mem_append_right _ ht))
    exact (head.trans inside).trans rest
  | @«finally» source path tryStart handler next p p₁ escapes h₁ ih =>
    have goes := finallyGoes ready slots starts (continues_of_lays h₁)
    have inside := ih goes.head.ready goes.head.slots trivial
    obtain ⟨-, -, -, none⟩ := retains_of_lays h₁ goes.head.ready goes.head.slots trivial
    rw [Job.escapes, none rfl] at inside
    exact ((owing_beginHandler ready 0).trans inside).trans (owing_endHandler goes.handler.ready _)

/-- The exit block owes no label a place, and its own has one. -/
theorem ExitPlaced.owes (item : WorkItem) {l : Label} (h : ExitPlaced env s s') (ready : s.Ready)
    (hf : s'.asm.fault = none) (owes : s'.asm.Owes l) :
    s.asm.fault = none ∧ s.asm.Owes l ∧ s.labels.lookup Graph.exit ≠ some l := by
  obtain ⟨s₁, statements, rfl⟩ := h.placed
  have fault : s₁.asm.fault = none := (Assembler.fault_emit (Assembler.fault_emit hf).1).1
  have owes : s₁.asm.Owes l := Assembler.owes_emit.mp (Assembler.owes_emit.mp owes)
  obtain ⟨block, d, -, ends, -, rfl⟩ := ends_placeStatements statements
  have written : Written env.body item .blank .blank _ := written_emitStatements block.statements
  have repays := written.repays ends
  have begun : Owing [] s (s.beginBlock Graph.exit) := owing_beginBlock ready Graph.exit
  have owes := (repays.owes fault l owes).resolve_right List.not_mem_nil
  exact ⟨begun.fault (repays.fault fault), owes_of_beginBlock ready (repays.fault fault) owes⟩

/-- **A whole layout** gives every label its place that a branch waits for. -/
theorem resolved_of_ends_placeAll (item : WorkItem) {draft : Draft}
    (evolves : Assembler.Evolves .empty draft.asm) (fresh : ∀ n l, ¬ draft.asm.Awaits n l)
    (h : Ends (placeAll env) (.start draft) () s) (hf : s.asm.fault = none) :
    s.asm.Sound ∧ ∀ n l, s.asm.Awaits n l → ∃ o, s.asm.PlacedAt l o := by
  obtain ⟨ready, slots, starts⟩ := begins_start evolves
  have whole := (continues_of_ends_placeAll ready slots starts h).evolves
  obtain ⟨p, lays, last⟩ := lays_of_ends_placeAll h
  have owing := owing_of_lays item lays ready slots starts
  refine ⟨whole.sound (evolves.sound Assembler.sound_empty (whole.fault hf)) hf, fun n l waits => ?_⟩
  by_contra unplaced
  have owes : s.asm.Owes l := ⟨⟨n, waits⟩, fun o there => unplaced ⟨o, there⟩⟩
  -- The label belongs to a block of the drained root scope, so it is placed, or it is the exit.
  obtain ⟨owes, fault, other⟩ : p.state.asm.Owes l ∧ p.state.asm.fault = none ∧
      (p.state.exitTargeted = true → p.state.labels.lookup Graph.exit ≠ some l) := by
    by_cases targeted : p.state.exitTargeted = true
    · rw [if_pos targeted] at last
      obtain ⟨fault, owes, other⟩ := last.owes item owing.ready hf owes
      exact ⟨owes, fault, fun _ => other⟩
    · rw [if_neg targeted] at last
      exact ⟨last ▸ owes, last ▸ hf, fun is => (targeted is).elim⟩
  obtain ⟨⟨m, waits⟩, free⟩ := owes
  obtain owes | ⟨b, named, there⟩ := owing.owes fault l ⟨⟨m, waits⟩, free⟩
  · obtain ⟨⟨m, waits⟩, -⟩ := owes
    exact fresh m l waits
  · obtain placed | ⟨rfl, targeted⟩ := placed_of_settled lays evolves (there.resolve_right nofun)
    · have laid : p.state.Laid env.graph := laid_of_lays lays ready slots starts
        (laid_start (evolves.sound Assembler.sound_empty (owing.fault fault))) fault
      obtain ⟨o, there⟩ := laid.placedAt placed named
      exact free o there
    · exact other targeted named

end Parts

end StackScript
