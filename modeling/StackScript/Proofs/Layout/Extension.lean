import StackScript.Proofs.Layout.Derivation
import StackScript.Proofs.Writing.Careful

/-!
# What a layout keeps

The end of a block writes code, gives labels to blocks, and makes the targets of its edge part of
the layout: they are queued, left to the scope around, or are the exit. Nothing that is part of the
layout already is lost.

## Main definitions

* `LayoutState.Ready`: the labels of blocks are labels of the code
* `LayoutState.Settled`, `Scope.Settles`: a target is part of the layout
* `Extends scope targets s s'`: a layout with more code, and some targets more

## Main results

* `extends_of_ends_placeEdge`: behind the end of a block whose edge opens no scope, every target of
  the edge is part of the layout
-/

namespace StackScript

open Emit Arrange

/-! ## Settled targets -/

namespace LayoutState

/-- The labels of blocks are labels of the code. -/
def Ready (s : LayoutState) : Prop := ∀ b l, s.labels.lookup b = some l → l < s.asm.labels.size

/-- A target is part of the layout: placed or queued, left to the scope around, or the exit. -/
def Settled (s : LayoutState) (t : BlockId) : Prop :=
  t ∈ s.placed ∨ t ∈ s.queue ∨ t ∈ s.escapes ∨ t = Graph.exit ∧ s.exitTargeted = true

end LayoutState

namespace Scope

/-- The scope is left by `leave`, to a target that the scope around it places. -/
def isLeft (scope : Scope) : Bool :=
  match scope.kind with
  | .body | .catch => true
  | .root | .finally _ => false

/-- A target of a scope is part of the layout, or it is where the scope's `try` goes on. -/
def Settles (scope : Scope) (s : LayoutState) (t : BlockId) : Prop :=
  s.Settled t ∨ scope.kind = .finally t

end Scope

section Routes

variable {ranges : List BlockRange} {scope : Scope} {t : BlockId}

theorem route_cases {r : Route} (h : route ranges scope t = .ok r) :
    (r = .within ∧ t ≠ Graph.exit ∧ innermost? ranges t = scope.range) ∨
      scope.routeOut t = .ok r := by
  unfold route at h
  split at h
  case isTrue => exact .inr h
  case isFalse hne =>
    dsimp only at h
    split at h
    case isTrue hr =>
      cases h
      exact .inl ⟨rfl, hne, hr⟩
    case isFalse =>
      split at h
      · split at h
        · cases h
        · exact .inr h
      · exact .inr h

theorem route_within (h : route ranges scope t = .ok .within) :
    t ≠ Graph.exit ∧ innermost? ranges t = scope.range := by
  obtain ⟨-, h⟩ | h := route_cases h
  · exact h
  · unfold Scope.routeOut at h
    split at h <;> (try split at h) <;> cases h

theorem route_exit (h : route ranges scope t = .ok .exit) :
    t = Graph.exit ∧ scope.kind = .root := by
  obtain ⟨hr, -⟩ | h := route_cases h
  · cases hr
  · unfold Scope.routeOut at h
    split at h
    case h_1 hk =>
      split at h
      · exact ⟨‹_›, hk⟩
      · cases h
    case h_4 => split at h <;> cases h
    all_goals cases h

theorem route_leave (h : route ranges scope t = .ok .leave) : scope.isLeft = true := by
  obtain ⟨hr, -⟩ | h := route_cases h
  · cases hr
  · unfold Scope.routeOut at h
    unfold Scope.isLeft
    split at h
    case h_1 => split at h <;> cases h
    case h_2 hk => rw [hk]
    case h_3 hk => rw [hk]
    case h_4 => split at h <;> cases h

theorem route_endFinally (h : route ranges scope t = .ok .endFinally) :
    scope.kind = .finally t := by
  obtain ⟨hr, -⟩ | h := route_cases h
  · cases hr
  · unfold Scope.routeOut at h
    split at h
    case h_1 => split at h <;> cases h
    case h_4 next hk =>
      split at h
      case isTrue ht => rw [hk, ht]
      case isFalse => cases h
    all_goals cases h

end Routes

/-! ## Extensions -/

/-- A layout with more code, in which some targets more are settled. -/
structure Extends (scope : Scope) (targets : List BlockId) (s s' : LayoutState) : Prop where
  evolves : s.asm.Evolves s'.asm
  ready : s'.Ready
  labels : ∀ b l, s.labels.lookup b = some l → s'.labels.lookup b = some l
  placed : s'.placed = s.placed
  blockOffsets : s'.blockOffsets = s.blockOffsets
  regions : s'.regions = s.regions
  enumerators : ∀ e slot, s.enumerators.lookup e = some slot → s'.enumerators.lookup e = some slot
  queue : ∀ t ∈ s.queue, t ∈ s'.queue
  escapes : ∀ t ∈ s.escapes, t ∈ s'.escapes
  stays : scope.isLeft = false → s'.escapes = s.escapes
  exitTargeted : s.exitTargeted = true → s'.exitTargeted = true
  new : ∀ t, s'.Settled t → s.Settled t ∨ t ∈ targets

section Extension

variable {scope : Scope} {targets targets' : List BlockId} {s s₁ s' : LayoutState} {t : BlockId}

namespace Extends

theorem refl (hs : s.Ready) : Extends scope targets s s where
  evolves := .refl _
  ready := hs
  labels _ _ h := h
  placed := rfl
  blockOffsets := rfl
  regions := rfl
  enumerators _ _ h := h
  queue _ h := h
  escapes _ h := h
  stays _ := rfl
  exitTargeted h := h
  new _ h := .inl h

theorem trans (h : Extends scope targets s s₁) (h' : Extends scope targets s₁ s') :
    Extends scope targets s s' where
  evolves := h.evolves.trans h'.evolves
  ready := h'.ready
  labels b l hl := h'.labels b l (h.labels b l hl)
  placed := h'.placed.trans h.placed
  blockOffsets := h'.blockOffsets.trans h.blockOffsets
  regions := h'.regions.trans h.regions
  enumerators e slot he := h'.enumerators e slot (h.enumerators e slot he)
  queue t ht := h'.queue t (h.queue t ht)
  escapes t ht := h'.escapes t (h.escapes t ht)
  stays hl := (h'.stays hl).trans (h.stays hl)
  exitTargeted hx := h'.exitTargeted (h.exitTargeted hx)
  new t ht := (h'.new t ht).elim (h.new t) .inr

theorem mono (h : Extends scope targets s s') (ht : ∀ t ∈ targets, t ∈ targets') :
    Extends scope targets' s s' :=
  { h with new := fun t hs => (h.new t hs).imp_right (ht t) }

/-- What is part of the layout stays so. -/
theorem settled (h : Extends scope targets s s') (hs : s.Settled t) : s'.Settled t := by
  obtain hs | hs | hs | ⟨hs, hx⟩ := hs
  · exact .inl (h.placed ▸ hs)
  · exact .inr (.inl (h.queue t hs))
  · exact .inr (.inr (.inl (h.escapes t hs)))
  · exact .inr (.inr (.inr ⟨hs, h.exitTargeted hx⟩))

theorem settles (h : Extends scope targets s s') (hs : scope.Settles s t) : scope.Settles s' t :=
  hs.imp_left h.settled

end Extends

/-- More code, and nothing else. -/
theorem extends_code {d : Draft} (hs : s.Ready) (h : s.asm.Evolves d.asm) :
    Extends scope targets s { s with draft := d } where
  evolves := h
  ready b l hl := Nat.lt_of_lt_of_le (hs b l hl) h.labels_le
  labels _ _ h := h
  placed := rfl
  blockOffsets := rfl
  regions := rfl
  enumerators _ _ h := h
  queue _ h := h
  escapes _ h := h
  stays _ := rfl
  exitTargeted h := h
  new _ h := .inl h

/-- Code in one piece, and nothing else. -/
theorem extends_write {α : Type} {k : Int} {step : Emit α} {x : α} (hk : Emits k step)
    (hs : s.Ready) (hslots : s.asm.slots.Sound) (h : Ends (write step) s x s') :
    Extends scope targets s s' := by
  obtain ⟨d, hd, rfl⟩ := ends_write.mp h
  exact extends_code hs (hk.grows hslots hd).evolves

theorem lookup_withLabel (s : LayoutState) (b : BlockId) :
    (s.withLabel b).2.labels.lookup b = some (s.withLabel b).1 := by
  unfold LayoutState.withLabel
  cases h : s.labels.lookup b with
  | some l => exact h
  | none => simp

/-- A label for a block, and nothing else. -/
theorem extends_withLabel (hs : s.Ready) (b : BlockId) :
    Extends scope targets s (s.withLabel b).2 := by
  unfold LayoutState.withLabel
  cases h : s.labels.lookup b with
  | some l => exact .refl hs
  | none =>
    have defined : Extends scope targets s (s.mapAsm (·.defineLabel.2)) :=
      extends_code hs (.single .defineLabel)
    refine { defined with ready := ?_, labels := ?_, new := fun _ h => .inl h }
    · intro c l hl
      have size : s.asm.defineLabel.2.labels.size = s.asm.labels.size + 1 :=
        Assembler.labels_defineLabel
      refine Nat.lt_of_lt_of_eq ?_ size.symm
      simp only [List.lookup_cons] at hl
      split at hl
      · cases hl
        exact Nat.lt_succ_self _
      · exact Nat.lt_succ_of_lt (hs c l hl)
    · intro c l hl
      simp only [List.lookup_cons]
      split
      case h_1 hc =>
        rw [beq_iff_eq.mp hc, h] at hl
        cases hl
      case h_2 => exact hl

theorem label_withLabel (hs : s.Ready) (b : BlockId) :
    (s.withLabel b).1 < (s.withLabel b).2.asm.labels.size :=
  by
  have labeled : Extends .root [] _ _ := extends_withLabel hs b
  exact labeled.ready b _ (lookup_withLabel s b)

/-! ## Targets that are accepted -/

/-- A target waits in the queue, unless it is placed. -/
theorem extends_queue {queue : List BlockId} (hs : s.Ready) (ht : t ∈ targets)
    (hq : ∀ c, c ∈ queue ↔ c = t ∨ c ∈ s.queue) :
    Extends scope targets s (if t ∈ s.placed then s else { s with queue }) := by
  have base : Extends scope targets s s := .refl hs
  split
  · exact base
  · refine { base with queue := fun c hc => (hq c).mpr (.inr hc), new := fun c hc => ?_ }
    obtain hc | hc | hc := hc
    · exact .inl (.inl hc)
    · obtain rfl | hc := (hq c).mp hc
      · exact .inr ht
      · exact .inl (.inr (.inl hc))
    · exact .inl (.inr (.inr hc))

theorem extends_pushLast (hs : s.Ready) (ht : t ∈ targets) :
    Extends scope targets s (s.pushLast t) :=
  extends_queue hs ht fun c => by simp [or_comm]

theorem extends_pushFirst (hs : s.Ready) (ht : t ∈ targets) :
    Extends scope targets s (s.pushFirst t) :=
  extends_queue hs ht fun _ => List.mem_cons

theorem extends_exit (hs : s.Ready) (ht : Graph.exit ∈ targets) :
    Extends scope targets s { s with exitTargeted := true } := by
  have base : Extends scope targets s s := .refl hs
  refine { base with exitTargeted := fun _ => rfl, new := fun c hc => ?_ }
  obtain hc | hc | hc | ⟨hc, -⟩ := hc
  · exact .inl (.inl hc)
  · exact .inl (.inr (.inl hc))
  · exact .inl (.inr (.inr (.inl hc)))
  · exact .inr (hc ▸ ht)

theorem extends_escape (hs : s.Ready) (hl : scope.isLeft = true) (ht : t ∈ targets) :
    Extends scope targets s (s.escape t) := by
  have base : Extends scope targets s s := .refl hs
  unfold LayoutState.escape
  split
  case isTrue hx => exact extends_exit hs (hx ▸ ht)
  case isFalse =>
    refine { base with
      escapes := fun c hc => List.mem_append_left _ hc
      stays := fun hl' => absurd (hl.symm.trans hl') (by decide)
      new := fun c hc => ?_ }
    obtain hc | hc | hc | hc := hc
    · exact .inl (.inl hc)
    · exact .inl (.inr (.inl hc))
    · obtain hc | hc := List.mem_append.mp hc
      · exact .inl (.inr (.inr (.inl hc)))
      · exact .inr (List.mem_singleton.mp hc ▸ ht)
    · exact .inl (.inr (.inr (.inr hc)))

theorem settled_pushLast (s : LayoutState) (t : BlockId) : (s.pushLast t).Settled t := by
  unfold LayoutState.pushLast
  split
  case isTrue h => exact .inl h
  case isFalse => exact .inr (.inl (List.mem_append_right _ (List.mem_singleton.mpr rfl)))

theorem settled_pushFirst (s : LayoutState) (t : BlockId) : (s.pushFirst t).Settled t := by
  unfold LayoutState.pushFirst
  split
  case isTrue h => exact .inl h
  case isFalse => exact .inr (.inl List.mem_cons_self)

theorem settled_escape (s : LayoutState) (t : BlockId) : (s.escape t).Settled t := by
  unfold LayoutState.escape
  split
  case isTrue h => exact .inr (.inr (.inr ⟨h, rfl⟩))
  case isFalse => exact .inr (.inr (.inl (List.mem_append_right _ (List.mem_singleton.mpr rfl))))

section Routed

variable {ranges : List BlockRange} {r : Route} {l : Label}

/-- A target that is accepted by a route is part of the layout, unless it is where a handler ends. -/
theorem settled_accept (s : LayoutState) (hr : route ranges scope t = .ok r)
    (other : r ≠ .endFinally) : (s.accept t r).Settled t := by
  cases r with
  | within => exact settled_pushLast s t
  | exit => exact .inr (.inr (.inr ⟨(route_exit hr).1, rfl⟩))
  | leave => exact settled_escape s t
  | endFinally => exact (other rfl).elim

/-- A target becomes part of the layout, and nothing else does. -/
theorem extends_accept (hs : s.Ready) (hr : route ranges scope t = .ok r) (ht : t ∈ targets) :
    Extends scope targets s (s.accept t r) ∧ scope.Settles (s.accept t r) t := by
  cases r with
  | within => exact ⟨extends_pushLast hs ht, .inl (settled_pushLast s t)⟩
  | exit =>
    obtain ⟨rfl, -⟩ := route_exit hr
    exact ⟨extends_exit hs ht, .inl (.inr (.inr (.inr ⟨rfl, rfl⟩)))⟩
  | leave => exact ⟨extends_escape hs (route_leave hr) ht, .inl (settled_escape s t)⟩
  | endFinally => exact ⟨.refl hs, .inr (route_endFinally hr)⟩

/-- A branch to a label that is known, and nothing else. -/
theorem extends_branch (kind : BranchKind) (hs : s.Ready) (hl : l < s.asm.labels.size) :
    Extends scope targets s (s.mapAsm (·.branch kind l)) :=
  extends_code hs (.single (.branch hl))

/-- A jump to a target whose label is known: the target becomes part of the layout. -/
theorem extends_goTo (hs : s.Ready) (hl : l < s.asm.labels.size)
    (hr : route ranges scope t = .ok r) (ht : t ∈ targets) :
    Extends scope targets s (s.goTo t l r) ∧ scope.Settles (s.goTo t l r) t := by
  cases r with
  | within =>
    have branched : Extends scope targets s (s.mapAsm (·.branch .always l)) :=
      extends_branch .always hs hl
    exact ⟨branched.trans (extends_pushFirst branched.ready ht),
      .inl (settled_pushFirst _ t)⟩
  | exit =>
    obtain ⟨rfl, -⟩ := route_exit hr
    have targeted : Extends scope targets s _ := extends_exit hs ht
    exact ⟨targeted.trans (extends_branch .always targeted.ready hl),
      .inl (.inr (.inr (.inr ⟨rfl, rfl⟩)))⟩
  | leave =>
    have escaped := extends_escape hs (route_leave hr) ht
    have branched : Extends scope targets (s.escape t) ((s.escape t).mapAsm (·.branch .leave l)) :=
      extends_branch .leave escaped.ready (Nat.lt_of_lt_of_le hl escaped.evolves.labels_le)
    exact ⟨escaped.trans branched, .inl (branched.settled (settled_escape s t))⟩
  | endFinally =>
    exact ⟨extends_code hs (.single (.emit rfl)), .inr (route_endFinally hr)⟩

end Routed

section Edges

variable {env : LayoutEnv} {u : PUnit} {c : SwitchCase} {cases : List SwitchCase} {d d' : Draft}
    {value : Expr}

theorem extends_of_ends_enqueue (hs : s.Ready) (ht : t ∈ targets)
    (h : Ends (enqueue env scope t) s u s') :
    Extends scope targets s s' ∧ scope.Settles s' t := by
  obtain ⟨r, hr, rfl⟩ := ends_enqueue.mp h
  exact extends_accept hs hr ht

theorem extends_of_ends_transfer (hs : s.Ready) (ht : t ∈ targets)
    (h : Ends (transfer env scope t) s u s') :
    Extends scope targets s s' ∧ scope.Settles s' t := by
  obtain ⟨r, hr, rfl⟩ := goTo_of_ends_transfer h
  split
  · have labeled : Extends scope targets s (s.withLabel t).2 := extends_withLabel hs t
    obtain ⟨jumped, settles⟩ := extends_goTo labeled.ready (label_withLabel hs t) hr ht
    exact ⟨labeled.trans jumped, settles⟩
  · exact extends_accept hs hr ht

theorem extends_of_ends_transferIf {kind : BranchKind} (hs : s.Ready) (ht : t ∈ targets)
    (h : Ends (transferIf env scope kind t) s u s') :
    Extends scope targets s s' ∧ scope.Settles s' t := by
  obtain ⟨r, hr, h⟩ := branch_of_ends_transferIf h
  have labeled : Extends scope targets s (s.withLabel t).2 := extends_withLabel hs t
  cases r
  case within | exit =>
    rw [h]
    have branched := labeled.trans (extends_branch kind labeled.ready (label_withLabel hs t))
    obtain ⟨accepted, settles⟩ := extends_accept branched.ready hr ht
    exact ⟨branched.trans accepted, settles⟩
  case leave | endFinally =>
    obtain ⟨s₁, htransfer, rfl⟩ := h
    have skip : (s.withLabel t).2.asm.labels.size <
        (s.withLabel t).2.asm.defineLabel.2.labels.size := by
      rw [Assembler.labels_defineLabel]
      exact Nat.lt_succ_self _
    have defined := labeled.trans (extends_code
      (d := ⟨(s.withLabel t).2.asm.defineLabel.2, (s.withLabel t).2.draft.nextSite⟩)
      labeled.ready (.single .defineLabel))
    have branched := defined.trans (extends_branch kind.negate defined.ready skip)
    obtain ⟨jumped, settles⟩ := extends_of_ends_transfer branched.ready ht htransfer
    have size := jumped.evolves.labels_le
    have marked : Extends scope targets s₁
        (s₁.mapAsm (·.mark (s.withLabel t).2.asm.labels.size)) := by
      refine extends_code jumped.ready (.single (.mark (Nat.lt_of_lt_of_le skip ?_)))
      refine Nat.le_trans (Nat.le_of_eq ?_) size
      exact Assembler.labels_branch.symm
    exact ⟨(branched.trans jumped).trans marked, marked.settles settles⟩

/-- The slot of a loop's enumerator is the one that the loop has, or a new one. -/
theorem enumeratorSlot_cases {e : EdgeId} {slot : LocalId} (h : Ends (enumeratorSlot e) s slot s') :
    s.enumerators.lookup e = some slot ∧ s' = s ∨
      s.enumerators.lookup e = none ∧ slot = s.asm.slots.enumerator.1 ∧
        s' = { s.mapAsm fun asm => { asm with slots := s.asm.slots.enumerator.2 } with
          enumerators := (e, slot) :: s.enumerators } := by
  simp only [enumeratorSlot, ends_bind, ends_get] at h
  obtain ⟨_, _, ⟨rfl, rfl⟩, h⟩ := h
  cases he : s.enumerators.lookup e with
  | some slot' =>
    simp only [he, ends_pure] at h
    obtain ⟨rfl, rfl⟩ := h
    exact .inl ⟨rfl, rfl⟩
  | none =>
    simp only [he, ends_bind, ends_write, ends_withSlots, ends_modify, ends_pure] at h
    obtain ⟨_, _, ⟨_, ⟨rfl, rfl⟩, rfl⟩, _, _, rfl, rfl, rfl⟩ := h
    exact .inr ⟨rfl, rfl, rfl⟩

theorem extends_of_ends_enumeratorSlot {e : EdgeId} {slot : LocalId} (hs : s.Ready)
    (h : Ends (enumeratorSlot e) s slot s') :
    Extends scope targets s s' ∧ s'.enumerators.lookup e = some slot := by
  obtain ⟨he, rfl⟩ | ⟨he, rfl, rfl⟩ := enumeratorSlot_cases h
  · exact ⟨.refl hs, he⟩
  · have served : Extends scope targets s (s.mapAsm fun asm =>
        { asm with slots := s.asm.slots.enumerator.2 }) :=
      extends_code hs (.single (.serve (.enumerator _)))
    refine ⟨{ served with enumerators := fun e' slot' he' => ?_ }, by simp⟩
    simp only [List.lookup_cons]
    split
    case h_1 hc =>
      rw [beq_iff_eq.mp hc, he] at he'
      cases he'
    case h_2 => exact he'

/-- Compares the subject of a switch with the value of a case. -/
def compareCase (env : BodyEnv) (subject : LocalId) (value : Expr) : Emit Unit := do
  emit (.loadLocal subject)
  emitValue env value
  emit (.binary .eq)

theorem grows_of_ends_compareCase {env : BodyEnv} {subject : LocalId} (hslots : d.asm.slots.Sound)
    (hsubject : d.asm.HasLocal subject) (h : Ends (compareCase env subject value) d u d') :
    Assembler.Grows 1 d.asm d'.asm := by
  simp only [compareCase, ends_bind, ends_emit] at h
  obtain ⟨_, _, rfl, _, d₁, hvalue, rfl⟩ := h
  have load := Assembler.grows_local (i := .loadLocal subject) hsubject rfl rfl rfl
  exact ((load.trans ((emits_emitValue value).grows
    (d := ⟨d.asm.emit (.loadLocal subject), d.nextSite⟩) (load.sound hslots) hvalue)).emit
    (i := .binary .eq) rfl rfl rfl).cast rfl

/-- A case of a switch, taken apart: the comparison, the jump, and the cases behind it. -/
theorem case_of_ends_placeCases {subject : LocalId} {rest : List SwitchCase}
    (hv : c.value = some value) (h : Ends (placeCases env scope subject (c :: rest)) s u s') :
    ∃ d s₁, Ends (compareCase env.body subject value) s.draft () d ∧
      Ends (transferIf env scope .ifTrue c.target) { s with draft := d } () s₁ ∧
      Ends (placeCases env scope subject rest) s₁ u s' := by
  simp only [placeCases, hv] at h
  obtain ⟨_, _, written, behind⟩ := ends_bind.mp h
  obtain ⟨_, s₁, jumped, others⟩ := ends_bind.mp behind
  obtain ⟨d, compared, rfl⟩ := ends_write.mp written
  exact ⟨d, s₁, compared, jumped, others⟩

/-- The cases of a switch: what is compared, and the targets of all cases but the default. -/
theorem extends_of_ends_placeCases {subject : LocalId} (hs : s.Ready) (hslots : s.asm.slots.Sound)
    (hsubject : s.asm.HasLocal subject) (ht : ∀ c ∈ cases, c.target ∈ targets)
    (h : Ends (placeCases env scope subject cases) s u s') :
    Extends scope targets s s' ∧
      ∀ c ∈ cases, c.isDefault = false → scope.Settles s' c.target := by
  induction cases generalizing s with
  | nil =>
    obtain ⟨-, rfl⟩ := ends_pure.mp h
    exact ⟨.refl hs, by simp⟩
  | cons c rest ih =>
    have hrest : ∀ c ∈ rest, c.target ∈ targets := fun c hc => ht c (List.mem_cons_of_mem _ hc)
    cases hv : c.value with
    | none =>
      -- The default is not compared, and jumps nowhere by itself.
      simp only [placeCases, hv] at h
      obtain ⟨extended, settles⟩ := ih hs hslots hsubject hrest h
      refine ⟨extended, fun c' hc' hd => ?_⟩
      obtain rfl | hc' := List.mem_cons.mp hc'
      · simp [SwitchCase.isDefault, hv] at hd
      · exact settles c' hc' hd
    | some value =>
      obtain ⟨d, s₂, hcompare, htransfer, h⟩ := case_of_ends_placeCases hv h
      have grows := grows_of_ends_compareCase hslots hsubject hcompare
      have written : Extends scope targets s _ := extends_code hs grows.evolves
      obtain ⟨jumped, settles⟩ := extends_of_ends_transferIf written.ready
        (ht c List.mem_cons_self) htransfer
      have both := written.trans jumped
      have hsubject₂ : s₂.asm.HasLocal subject := by
        obtain ⟨slot, hslot, hrole⟩ := hsubject
        exact ⟨slot, both.evolves.slots_within _ _ hslot, hrole⟩
      obtain ⟨extended, others⟩ := ih both.ready (both.evolves.slots_sound hslots) hsubject₂ hrest h
      refine ⟨both.trans extended, fun c' hc' hd => ?_⟩
      obtain rfl | hc' := List.mem_cons.mp hc'
      · exact extended.settles settles
      · exact others c' hc' hd

/-- Binds the entry that an enumerator stands on: the value, then the key if it is asked for. -/
def bindEntry (env : BodyEnv) (slot : LocalId) (key : Option String) (value : String) :
    Emit Unit := do
  emit (.loadLocal slot)
  emit .enumeratorValue
  storeVariable env value
  match key with
  | some key =>
    emit (.loadLocal slot)
    emit .enumeratorKey
    storeVariable env key
  | none => pure ()

theorem evolves_of_ends_bindEntry {env : BodyEnv} {slot : LocalId} {key : Option String}
    {value : String} (hslots : d.asm.slots.Sound) (h : Ends (bindEntry env slot key value) d u d') :
    d.asm.Evolves d'.asm := by
  simp only [bindEntry, ends_bind, ends_emit] at h
  obtain ⟨_, _, rfl, _, _, rfl, _, d₁, hvalue, h⟩ := h
  have loaded : d.asm.Evolves ((d.asm.emit (.loadLocal slot)).emit .enumeratorValue) :=
    (Assembler.Evolves.single (.emit rfl)).trans (.single (.emit rfl))
  have stored := loaded.trans ((emits_storeVariable value).grows
    (d := ⟨(d.asm.emit (.loadLocal slot)).emit .enumeratorValue, d.nextSite⟩)
    (loaded.slots_sound hslots) hvalue).evolves
  cases key with
  | none =>
    obtain ⟨-, rfl⟩ := ends_pure.mp h
    exact stored
  | some key =>
    simp only [ends_bind, ends_emit] at h
    obtain ⟨_, _, rfl, _, _, rfl, hkey⟩ := h
    have loaded : d.asm.Evolves ((d₁.asm.emit (.loadLocal slot)).emit .enumeratorKey) :=
      stored.trans ((Assembler.Evolves.single (.emit rfl)).trans (.single (.emit rfl)))
    exact loaded.trans ((emits_storeVariable key).grows
      (d := ⟨(d₁.asm.emit (.loadLocal slot)).emit .enumeratorKey, d₁.nextSite⟩)
      (loaded.slots_sound hslots) hkey).evolves

/-- The default of a switch, if there is one. -/
def defaultTarget? (cases : List SwitchCase) : Option BlockId :=
  (cases.find? (·.isDefault)).map (·.target)

/-- Where a switch goes on if no case is taken is one of its targets. -/
theorem otherwise_mem_targets (subject : Expr) (cases : List SwitchCase) (next : BlockId) :
    (defaultTarget? cases).getD next ∈ (EdgeKind.switch subject cases next).targets := by
  unfold defaultTarget?
  cases h : cases.find? (·.isDefault) with
  | none => exact List.mem_append_right _ (List.mem_singleton.mpr rfl)
  | some c =>
    exact List.mem_append_left _ (List.mem_map.mpr ⟨c, List.mem_of_find?_eq_some h, rfl⟩)

/-- A switch with one default goes there. -/
theorem defaultTarget_of_mem (hcount : cases.countP (·.isDefault) ≤ 1) (hc : c ∈ cases)
    (hd : c.isDefault = true) : defaultTarget? cases = some c.target := by
  induction cases with
  | nil => simp at hc
  | cons first rest ih =>
    unfold defaultTarget?
    rw [List.countP_cons] at hcount
    cases hf : first.isDefault with
    | true =>
      rw [List.find?_cons_of_pos hf, Option.map_some]
      obtain rfl | hc := List.mem_cons.mp hc
      · rfl
      · have : 0 < rest.countP (·.isDefault) := List.countP_pos_iff.mpr ⟨c, hc, hd⟩
        rw [if_pos hf] at hcount
        omega
    | false =>
      rw [List.find?_cons_of_neg (by simp [hf])]
      obtain rfl | hc := List.mem_cons.mp hc
      · rw [hd] at hf
        cases hf
      · exact ih (by omega) hc

/-! ### The parts of an edge -/

section Parts

variable {a : Assembler} {enter : Enter} {e : EdgeId} {number : UInt32} {source : BlockId}
    {subject : Expr}

/-- The parts of a branch: the condition, the jump if it does not hold, and the jump if it does. -/
theorem parts_of_ends_branch {condition : Expr} {ifTrue ifFalse : BlockId}
    (h : Ends (placeEdge env enter scope e ⟨number, source, .branch condition ifTrue ifFalse⟩) s u s') :
    ∃ d s₁, Ends (emitValue env.body condition) s.draft () d ∧
      Ends (transferIf env scope (.deciding false) ifFalse) { s with draft := d } () s₁ ∧
      Ends (transfer env scope ifTrue) s₁ u s' := by
  simp only [placeEdge] at h
  obtain ⟨_, _, hcondition, h⟩ := ends_bind.mp h
  obtain ⟨_, s₁, hfalse, htrue⟩ := ends_bind.mp h
  obtain ⟨d, hvalue, rfl⟩ := ends_write.mp hcondition
  exact ⟨d, s₁, hvalue, hfalse, htrue⟩

/-- The parts of the start of a loop: the value, the slot of its enumerator, and the jump. -/
theorem parts_of_ends_enumerate {target : BlockId}
    (h : Ends (placeEdge env enter scope e ⟨number, source, .enumerate subject target⟩) s u s') :
    ∃ d slot s₁, Ends (emitValue env.body subject) s.draft () d ∧
      Ends (enumeratorSlot e) { s with draft := ⟨d.asm.emit .getEnumerator, d.nextSite⟩ } slot s₁ ∧
      Ends (transfer env scope target) (s₁.mapAsm (·.emit (.storeLocal slot))) u s' := by
  simp only [placeEdge] at h
  obtain ⟨_, _, hvalue, h⟩ := ends_bind.mp h
  obtain ⟨slot, s₁, hslot, h⟩ := ends_bind.mp h
  obtain ⟨_, _, hstore, hjump⟩ := ends_bind.mp h
  simp only [ends_write, ends_bind, ends_emit] at hvalue hstore
  obtain ⟨_, ⟨_, d, hvalue, rfl⟩, rfl⟩ := hvalue
  obtain ⟨_, rfl, rfl⟩ := hstore
  exact ⟨d, slot, s₁, hvalue, hslot, hjump⟩

/-- The parts of a step of a loop: the test whether there is another entry, its binding, and the
jump. -/
theorem parts_of_ends_advance {loop : EdgeId} {key : Option String} {value : String}
    {body next : BlockId}
    (h : Ends (placeEdge env enter scope e ⟨number, source, .advance loop key value body next⟩) s u s') :
    ∃ slot s₁ d, s.enumerators.lookup loop = some slot ∧
      Ends (transferIf env scope (.deciding false) next)
        (s.mapAsm fun asm => (asm.emit (.loadLocal slot)).emit .advance) () s₁ ∧
      Ends (bindEntry env.body slot key value) s₁.draft () d ∧
      Ends (transfer env scope body) { s₁ with draft := d } u s' := by
  simp only [placeEdge, ends_bind, ends_get] at h
  obtain ⟨_, _, ⟨rfl, rfl⟩, h⟩ := h
  cases hslot : s.enumerators.lookup loop with
  | none => simp [hslot] at h
  | some slot =>
    simp only [hslot] at h
    obtain ⟨_, _, hload, h⟩ := ends_bind.mp h
    obtain ⟨_, s₁, hnext, h⟩ := ends_bind.mp h
    obtain ⟨_, _, hwrite, hbody⟩ := ends_bind.mp h
    simp only [ends_write, ends_bind, ends_emit] at hload
    obtain ⟨_, ⟨_, _, rfl, rfl⟩, rfl⟩ := hload
    obtain ⟨d, hbind, rfl⟩ := ends_write.mp hwrite
    exact ⟨slot, s₁, d, rfl, hnext, hbind, hbody⟩

/-- The value on the stack goes into a scratch slot. -/
def Assembler.stow (a : Assembler) : Assembler :=
  { a with slots := a.slots.scratch.2 }.emit (.storeLocal a.slots.scratch.1)

@[simp] theorem code_stow : a.stow.code.size = a.code.size + 1 := by simp [Assembler.stow]

@[simp] theorem slots_stow : a.stow.slots = a.slots.scratch.2 := by simp [Assembler.stow]

@[simp] theorem reachable_stow : a.stow.reachable = a.reachable := by
  rw [Assembler.stow, Assembler.reachable_emit]
  exact Bool.and_true _

theorem evolves_stow : a.Evolves a.stow :=
  (Assembler.Evolves.single (.serve (.scratch _))).trans (.single (.emit rfl))

theorem hasLocal_stow (sound : a.slots.Sound) : a.stow.HasLocal a.slots.scratch.1 := by
  obtain ⟨slot, hslot, hrole⟩ := Slots.slot_scratch sound
  exact ⟨slot, by rwa [slots_stow], by rw [hrole]; decide⟩

/-- The subject of a switch is evaluated into a scratch slot. -/
def storeSubject (env : BodyEnv) (subject : Expr) : Emit LocalId := do
  emitValue env subject
  let slot ← scratch
  emit (.storeLocal slot)
  return slot

theorem parts_of_ends_storeSubject {env : BodyEnv} {d d' : Draft} {id : LocalId}
    (h : Ends (storeSubject env subject) d id d') :
    ∃ e, Ends (emitValue env subject) d () e ∧ id = e.asm.slots.scratch.1 ∧
      d' = ⟨e.asm.stow, e.nextSite⟩ := by
  simp only [storeSubject, ends_bind, ends_scratch, ends_emit, ends_pure] at h
  obtain ⟨_, e, hvalue, _, _, ⟨rfl, rfl⟩, _, _, rfl, rfl, rfl⟩ := h
  exact ⟨e, hvalue, rfl, rfl⟩

/-- Behind the subject of a switch, in front of its first case. -/
def LayoutState.stowed (s : LayoutState) (d : Draft) : LayoutState :=
  { s with draft := ⟨d.asm.stow, d.nextSite⟩ }

/-- Behind the cases of a switch, where the subject is not needed any longer. -/
def LayoutState.freed (s : LayoutState) (id : LocalId) : LayoutState :=
  { s with draft := ⟨{ s.asm with slots := s.asm.slots.release id }, s.draft.nextSite⟩ }

/-- The queues of a layout are no part of its code. -/
theorem same_of_ends_enqueue (h : Ends (enqueue env scope t) s u s') :
    s'.draft = s.draft ∧ s'.labels = s.labels := by
  obtain ⟨r, -, rfl⟩ := ends_enqueue.mp h
  exact ⟨draft_accept _ _ _, labels_accept _ _ _⟩

/-- The parts of a switch: the subject, the cases, and the jump to where it goes on if no case is
taken. -/
theorem parts_of_ends_switch {cases : List SwitchCase} {next : BlockId}
    (h : Ends (placeEdge env enter scope e ⟨number, source, .switch subject cases next⟩) s u s') :
    ∃ d s₂ s₃, Ends (emitValue env.body subject) s.draft () d ∧
      Ends (placeCases env scope d.asm.slots.scratch.1 cases) (s.stowed d) () s₂ ∧
      Ends (transfer env scope ((defaultTarget? cases).getD next)) (s₂.freed d.asm.slots.scratch.1)
        () s₃ ∧ Ends (enqueue env scope next) s₃ u s' := by
  simp only [placeEdge] at h
  obtain ⟨id, _, hsubject, behindSubject⟩ := ends_bind.mp h
  obtain ⟨_, s₂, hcases, behindCases⟩ := ends_bind.mp behindSubject
  obtain ⟨_, _, hrelease, behindRelease⟩ := ends_bind.mp behindCases
  obtain ⟨_, s₃, hother, hnext⟩ := ends_bind.mp behindRelease
  obtain ⟨_, hstored, rfl⟩ := ends_write.mp hsubject
  obtain ⟨d, hvalue, rfl, rfl⟩ := parts_of_ends_storeSubject hstored
  obtain ⟨_, released, rfl⟩ := ends_write.mp hrelease
  obtain rfl := ends_release.mp released
  exact ⟨d, s₂, s₃, hvalue, hcases, hother, hnext⟩

end Parts

/-- **The end of a block** whose edge opens no scope makes the targets of the edge part of the
layout, and nothing else. -/
theorem extends_of_ends_placeEdge {enter : Enter} {e : EdgeId} {edge : Edge} (hs : s.Ready)
    (hslots : s.asm.slots.Sound) (hk : edge.kind.isTry = false)
    (h : Ends (placeEdge env enter scope e edge) s u s') :
    Extends scope edge.kind.targets s s' ∧
      ((∀ subject cases next, edge.kind = .switch subject cases next →
          cases.countP (·.isDefault) ≤ 1) →
        ∀ t ∈ edge.kind.targets, scope.Settles s' t) := by
  obtain ⟨number, source, kind⟩ := edge
  cases kind with
  | tryCatch => cases hk
  | jump target =>
    obtain ⟨extended, settles⟩ := extends_of_ends_transfer hs (List.mem_singleton_self target) h
    refine ⟨extended, fun _ t ht => ?_⟩
    cases List.mem_singleton.mp ht
    exact settles
  | branch condition ifTrue ifFalse =>
    obtain ⟨d, s₁, hvalue, hfalse, htrue⟩ := parts_of_ends_branch h
    have written : Extends scope [ifTrue, ifFalse] s { s with draft := d } :=
      extends_code hs ((emits_emitValue condition).grows hslots hvalue).evolves
    obtain ⟨extended₁, settles₁⟩ := extends_of_ends_transferIf written.ready
      (List.mem_cons_of_mem _ (List.mem_singleton.mpr rfl)) hfalse
    obtain ⟨extended₂, settles₂⟩ := extends_of_ends_transfer extended₁.ready List.mem_cons_self
      htrue
    refine ⟨(written.trans extended₁).trans extended₂, fun _ t ht => ?_⟩
    obtain rfl | ht := List.mem_cons.mp ht
    · exact settles₂
    · cases List.mem_singleton.mp ht
      exact extended₂.settles settles₁
  | enumerate subject target =>
    obtain ⟨d, slot, s₁, hvalue, hslot, hjump⟩ := parts_of_ends_enumerate h
    have grows := (emits_emitValue subject).grows hslots hvalue
    have opened : Extends scope [target] s _ := extends_code
      (d := ⟨d.asm.emit .getEnumerator, d.nextSite⟩) hs
      (grows.evolves.trans (.single (.emit rfl)))
    have named : Extends scope [target] _ _ :=
      (extends_of_ends_enumeratorSlot opened.ready hslot).1
    have stored := (opened.trans named).trans (extends_code
      (d := ⟨s₁.asm.emit (.storeLocal slot), s₁.draft.nextSite⟩) named.ready
      (.single (.emit rfl)))
    obtain ⟨jumped, settles⟩ := extends_of_ends_transfer stored.ready
      (List.mem_singleton_self target) hjump
    refine ⟨stored.trans jumped, fun _ t ht => ?_⟩
    cases List.mem_singleton.mp ht
    exact settles
  | advance loop key value body next =>
    obtain ⟨slot, s₁, d, -, hnext, hbind, hbody⟩ := parts_of_ends_advance h
    have advanced : Extends scope [body, next] s _ := extends_code
      (d := ⟨(s.asm.emit (.loadLocal slot)).emit .advance, s.draft.nextSite⟩) hs
      ((Assembler.Evolves.single (.emit rfl)).trans (.single (.emit rfl)))
    obtain ⟨ended, settles₁⟩ := extends_of_ends_transferIf advanced.ready
      (List.mem_cons_of_mem _ (List.mem_singleton.mpr rfl)) hnext
    have both := advanced.trans ended
    have bound := both.trans (extends_code both.ready
      (evolves_of_ends_bindEntry (both.evolves.slots_sound hslots) hbind))
    obtain ⟨jumped, settles₂⟩ := extends_of_ends_transfer bound.ready List.mem_cons_self hbody
    refine ⟨bound.trans jumped, fun _ t ht => ?_⟩
    obtain rfl | ht := List.mem_cons.mp ht
    · exact settles₂
    · cases List.mem_singleton.mp ht
      exact jumped.settles settles₁
  | switch subject cases next =>
    obtain ⟨d, s₂, s₃, hvalue, hcases, hother, hnext⟩ := parts_of_ends_switch h
    have grows := (emits_emitValue subject).grows hslots hvalue
    -- The value waits in a slot while it is compared, and the slot is free again in front of the
    -- jump that is taken otherwise.
    have stored : Extends scope (EdgeKind.switch subject cases next).targets s (s.stowed d) :=
      extends_code hs (grows.evolves.trans evolves_stow)
    obtain ⟨compared, settles⟩ := extends_of_ends_placeCases stored.ready
      (stored.evolves.slots_sound hslots) (hasLocal_stow (grows.sound hslots))
      (fun c hc => List.mem_append_left _ (List.mem_map.mpr ⟨c, hc, rfl⟩)) hcases
    have released := (stored.trans compared).trans (extends_code
      (d := (s₂.freed d.asm.slots.scratch.1).draft) compared.ready
      (.single (.serve (.release _ _))))
    obtain ⟨jumped, settles₁⟩ := extends_of_ends_transfer released.ready
      (otherwise_mem_targets subject cases next) hother
    obtain ⟨ended, settles₂⟩ := extends_of_ends_enqueue jumped.ready
      (List.mem_append_right _ (List.mem_singleton.mpr rfl)) hnext
    refine ⟨(released.trans jumped).trans ended, fun one t ht => ?_⟩
    obtain ht | ht := List.mem_append.mp ht
    · obtain ⟨c, hc, rfl⟩ := List.mem_map.mp ht
      cases hdefault : c.isDefault with
      | false =>
        refine ended.settles (jumped.settles ?_)
        exact (settles c hc hdefault).imp_left id
      | true =>
        -- The default is where the last jump goes, if there is one default.
        have other := defaultTarget_of_mem (one subject cases next rfl) hc hdefault
        rw [other] at settles₁
        exact ended.settles settles₁
    · cases List.mem_singleton.mp ht
      exact settles₂

end Edges

end Extension

end StackScript
