import StackScript.Proofs.Layout.Acquisition
import StackScript.Proofs.Writing.Surveys
import Mathlib.Order.Basic

/-!
# The enumerators of a layout

Wherever control comes to a block, the slots have got their enumerators that no way to the block
goes without. So the code of a block starts with them, and the code of a `try` has at least those of
the block in front of it: that is what its handlers may count on.

## Main definitions

* `Outlook`: the slots and the enumerators that a layout has in the end
* `LayoutState.Grips`: the layout so far bears out what is known of the enumerators
* `Secures`, `Stays`: a layout that goes on, and steps by which it does

## Main results

* `grips_of_lays`: every part of a layout bears it out
* `exists_grips_of_ends_placeAll`: a whole layout does
-/

namespace StackScript

open Emit Arrange

/-- What a layout has in the end. -/
structure Outlook where
  graph : Graph
  enumerators : List (EdgeId × LocalId)
  final : Slots
  /-- Enumerators are there where they are asked for. -/
  owed : Prop

namespace Outlook

/-- The analysis of its enumerators. -/
abbrev analysis (o : Outlook) : Analysis Grip := grips o.final o.owed

/-- The slots that have got their enumerators wherever control comes to a block. -/
def known (o : Outlook) (b : BlockId) : LocalId → Prop :=
  fun slot => ¬ o.graph.Lacks o.enumerators slot b

/-- The layout comes to what it has in the end. -/
structure Foresees (o : Outlook) (s : LayoutState) : Prop where
  fault : s.asm.fault = none
  slots : s.asm.slots.Within o.final
  enumerators : ∀ e slot, s.enumerators.lookup e = some slot → o.enumerators.lookup e = some slot

variable {o : Outlook} {b t : BlockId} {e : EdgeId} {edge : Edge} {slot : LocalId}

/-- What is known of a target is known in front of it, or comes with the edge. -/
theorem known_of_target (ends : o.graph.EndsBlock b e edge) (target : t ∈ edge.kind.targets)
    (known : o.known t slot) : o.known b slot ∨ Graph.Acquires o.enumerators slot e edge := by
  by_contra other
  obtain ⟨lacks, without⟩ := not_or.mp other
  exact known (.step (not_not.mp lacks) ends target without)

/-- Nothing comes with an edge that starts no loop. -/
theorem known_le_of_target (ends : o.graph.EndsBlock b e edge) (target : t ∈ edge.kind.targets)
    (other : ∀ subject target, edge.kind ≠ .enumerate subject target) : o.known t ≤ o.known b := by
  intro slot known
  obtain known | ⟨⟨subject, target, kind⟩, -⟩ := known_of_target ends target known
  · exact known
  · exact (other subject target kind).elim

end Outlook

/-- Between two offsets nothing is noted that does not have the enumerators of some slots. -/
def Survey.Keeps (survey : Survey Grip) (first past : Nat) (slots : LocalId → Prop) : Prop :=
  ∀ n g, first ≤ n → n < past → survey.front n = some g → slots ≤ g.slots

/-- **The layout so far bears out** what is known of the enumerators. -/
structure LayoutState.Grips (o : Outlook) (s : LayoutState) (survey : Survey Grip) (here : Grip) :
    Prop where
  surveyed : s.asm.Surveyed o.analysis survey here
  fresh : ∀ l, s.asm.labels.size ≤ l → survey.goal l = none
  labels : ∀ b l, s.labels.lookup b = some l → survey.goal l = some (.stored (o.known b))
  regions : ∀ region ∈ s.regions, region.tryEnd ≤ s.asm.pinned ∧ ∃ slots,
    survey.entry region.handlerStart (.stored slots) ∧
      survey.Keeps region.tryStart region.tryEnd slots
  enumerators : ∀ e slot, s.enumerators.lookup e = some slot → s.asm.slots.Enumerates slot

/-- A layout that goes on, in front of which `a` is known, and `b` behind it; all its code has the
enumerators of some slots. -/
structure Secures (o : Outlook) (floor : LocalId → Prop) (a b : Grip) (s s' : LayoutState) :
    Prop where
  continues : Continues s s'
  bears : o.Foresees s' → ∀ survey, s.Grips o survey a →
    ∃ next, survey.Extends (floor ≤ ·.slots) s.asm s'.asm next ∧ s'.Grips o next b

/-- A step by which a layout goes on. -/
def Stays {α : Type} (o : Outlook) (floor : LocalId → Prop) (a b : Grip) (step : Arrange α) :
    Prop :=
  ∀ s x s', Ends step s x s' → s.Ready → s.asm.slots.Sound → Secures o floor a b s s'

variable {o : Outlook} {floor more slots : LocalId → Prop} {a b c here : Grip}
  {s s₁ s' : LayoutState} {survey next : Survey Grip}

namespace Survey

variable {asm asm' : Assembler} {P : Grip → Prop} {first past : Nat}

/-- What is noted of code that is kept stays. -/
theorem Keeps.extend (h : survey.Keeps first past slots) (le : past ≤ asm.pinned)
    (extended : survey.Extends P asm asm' next) : next.Keeps first past slots :=
  fun n g from_ lt known =>
    h n g from_ lt ((extended.kept n (Nat.lt_of_lt_of_le lt le)).symm.trans known)

/-- What is noted of new code has what all of it has. -/
theorem Extends.keeps (h : survey.Extends (floor ≤ ·.slots) asm asm' next)
    (le : past ≤ asm'.code.size) (most : slots ≤ floor) : next.Keeps asm.code.size past slots := by
  intro n g from_ lt known
  obtain ⟨old, -⟩ | new := h.fresh n g (Nat.lt_of_lt_of_le lt le) known
  · exact (Nat.not_lt.mpr from_ old).elim
  · exact le_trans most new

end Survey

theorem Slots.Enumerates.mono {small big : Slots} {id : LocalId} (h : small.Enumerates id)
    (within : small.Within big) : big.Enumerates id := by
  obtain ⟨slot, there, loop⟩ := h
  exact ⟨slot, within id slot there, loop⟩

/-- A layout that has gone on may still come to what it has in the end. -/
theorem Continues.foresees (h : Continues s s') (foreseen : o.Foresees s') : o.Foresees s where
  fault := h.evolves.fault foreseen.fault
  slots := h.evolves.slots_within.trans foreseen.slots
  enumerators e slot known := foreseen.enumerators e slot (h.enumerators e slot known)

namespace LayoutState.Grips

/-- What is asked of labels, regions and enumerators stays true while the survey goes on. -/
theorem goes {P : Grip → Prop} (h : s.Grips o survey a) (within : s.asm.slots.Within s'.asm.slots)
    (extended : survey.Extends P s.asm s'.asm next)
    (surveyed : s'.asm.Surveyed o.analysis next b)
    (fresh : ∀ l, s'.asm.labels.size ≤ l → next.goal l = none) (labels : s'.labels = s.labels)
    (regions : s'.regions = s.regions) (enumerators : s'.enumerators = s.enumerators) :
    s'.Grips o next b where
  surveyed := surveyed
  fresh := fresh
  labels c l known := extended.goal l _ (h.labels c l (labels ▸ known))
  regions region mem := by
    obtain ⟨le, slots, entry, keeps⟩ := h.regions region (regions ▸ mem)
    exact ⟨Nat.le_trans le extended.pinned_le, slots, extended.entry _ _ entry,
      keeps.extend le extended⟩
  enumerators e slot known := (h.enumerators e slot (enumerators ▸ known)).mono within

/-- The code, its labels, its regions and its enumerators stay as they are. -/
theorem same (h : s.Grips o survey a) (draft : s'.draft = s.draft) (labels : s'.labels = s.labels)
    (regions : s'.regions = s.regions) (enumerators : s'.enumerators = s.enumerators) :
    s'.Grips o survey a := by
  have asm : s'.asm = s.asm := congrArg Draft.asm draft
  exact h.goes (P := (fun _ => True)) (asm ▸ .refl _) (asm ▸ .refl _ _) (asm ▸ h.surveyed)
    (asm ▸ h.fresh) labels regions enumerators

/-- The code is pinned. -/
theorem pin {P : Grip → Prop} (h : s.Grips o survey a) (hf : s.asm.fault = none) :
    survey.Extends P s.asm s.asm.pin survey ∧ (s.mapAsm (·.pin)).Grips o survey a := by
  have le : s.asm.pinned ≤ s.asm.pin.pinned := h.surveyed.sound.pinned_le
  have extended : survey.Extends P s.asm s.asm.pin survey :=
    .same rfl le (Nat.le_refl _) (fun _ _ => id) fun _ _ => id
  have surveyed := h.surveyed.same (Assembler.Write.pin.sound h.surveyed.sound hf) rfl rfl rfl
    (fun _ => rfl) le
  exact ⟨extended, h.goes (.refl _) extended surveyed h.fresh rfl rfl rfl⟩

/-- Where control does not come, anything may be known. -/
theorem elsewhere (h : s.Grips o survey a) (unreachable : s.asm.reachable = false) (g : Grip) :
    s.Grips o survey g :=
  { h with surveyed := h.surveyed.forget fun there => by rw [unreachable] at there; cases there }

end LayoutState.Grips

namespace Secures

variable {d : Draft}

theorem refl (ready : s.Ready) (sound : s.asm.slots.Sound) : Secures o floor a a s s :=
  ⟨.refl ready sound, fun _ survey grips => ⟨survey, .refl _ _, grips⟩⟩

theorem trans (h : Secures o floor a b s s₁) (h' : Secures o floor b c s₁ s') :
    Secures o floor a c s s' where
  continues := h.continues.trans h'.continues
  bears foreseen survey grips := by
    obtain ⟨survey₁, extended₁, grips₁⟩ := h.bears (h'.continues.foresees foreseen) survey grips
    obtain ⟨survey₂, extended₂, grips₂⟩ := h'.bears foreseen survey₁ grips₁
    exact ⟨survey₂, extended₁.trans extended₂, grips₂⟩

theorem forget (h : Secures o floor a b s s')
    (fits : s'.asm.reachable = true → o.analysis.Fits b c) :
    Secures o floor a c s s' where
  continues := h.continues
  bears foreseen survey grips := by
    obtain ⟨next, extended, grips⟩ := h.bears foreseen survey grips
    exact ⟨next, extended, { grips with surveyed := grips.surveyed.forget fits }⟩

/-- What is foreseen, and what is known so far, may be used for the whole step. -/
theorem of_grips (continues : Continues s s')
    (h : o.Foresees s' → ∀ survey, s.Grips o survey a → Secures o floor a b s s') :
    Secures o floor a b s s' :=
  ⟨continues, fun foreseen survey grips => (h foreseen survey grips).bears foreseen survey grips⟩

/-- The code, its labels, its regions and its enumerators stay as they are. -/
theorem same (ready : s.Ready) (sound : s.asm.slots.Sound) (draft : s'.draft = s.draft)
    (labels : s'.labels = s.labels) (regions : s'.regions = s.regions)
    (enumerators : s'.enumerators = s.enumerators) : Secures o floor a a s s' := by
  have asm : s'.asm = s.asm := congrArg Draft.asm draft
  refine ⟨⟨asm ▸ .refl _, ?_, asm ▸ sound, fun b l => labels ▸ id, fun e slot => enumerators ▸ id⟩,
    fun _ survey grips => ⟨survey, asm ▸ .refl _ _, ?_⟩⟩
  · intro b l known
    rw [asm]
    exact ready b l (labels ▸ known)
  · exact grips.same draft labels regions enumerators

/-- Only the code changes. -/
theorem code (ready : s.Ready) (sound : s.asm.slots.Sound) (evolves : s.asm.Evolves d.asm)
    (h : o.Foresees { s with draft := d } → ∀ survey, s.Grips o survey a →
      ∃ next, survey.Extends (floor ≤ ·.slots) s.asm d.asm next ∧ d.asm.Surveyed o.analysis next b ∧
      ∀ l, d.asm.labels.size ≤ l → next.goal l = none) :
    Secures o floor a b s { s with draft := d } where
  continues := ⟨evolves, fun b l known => Nat.lt_of_lt_of_le (ready b l known) evolves.labels_le,
    evolves.slots_sound sound, fun _ _ => id, fun _ _ => id⟩
  bears foreseen survey grips := by
    obtain ⟨next, extended, surveyed, fresh⟩ := h foreseen survey grips
    exact ⟨next, extended, grips.goes evolves.slots_within extended surveyed fresh rfl rfl rfl⟩

/-- The code is pinned. -/
theorem pin (ready : s.Ready) (sound : s.asm.slots.Sound) :
    Secures o floor a a s (s.mapAsm (·.pin)) :=
  ⟨continues_mapAsm ready sound (.single .pin), fun foreseen survey grips =>
    ⟨survey, grips.pin foreseen.fault⟩⟩

/-- An instruction that does not branch. -/
theorem emit {i : Instruction} (ready : s.Ready) (sound : s.asm.slots.Sound)
    (ht : i.target? = none) (allows : o.analysis.Allows a i) (le : floor ≤ a.slots) :
    Secures o floor a (o.analysis.after i a) s (s.mapAsm (·.emit i)) := by
  refine .code ready sound (.single (.emit ht)) fun _ survey grips => ⟨_,
    Assembler.extends_surveyHere grips.surveyed.sound ?_ Assembler.pinned_emit le,
    grips.surveyed.emit ht fun _ => allows, fun l hl => grips.fresh l ?_⟩
  · exact (congrArg Array.size Assembler.code_emit).trans (Array.size_push _)
  · exact Nat.le_trans (Nat.le_of_eq (congrArg Array.size Assembler.labels_emit.symm)) hl

/-- Code in one piece. -/
theorem scribes (ready : s.Ready) (sound : s.asm.slots.Sound)
    (h : Assembler.Scribes s.asm.labels.size s.asm d.asm) (le : floor ≤ slots) :
    Secures o floor (.stored slots) (.stored slots) s { s with draft := d } := by
  refine .code ready sound h.evolves fun foreseen survey grips => ?_
  -- The labels of the piece are for what is known in front of it.
  let goal (l : Label) : Option Grip :=
    if s.asm.labels.size ≤ l ∧ l < d.asm.labels.size then some (.stored slots) else survey.goal l
  have more (l : Label) (a : Grip) (known : survey.goal l = some a) : goal l = some a := by
    refine (if_neg fun between => ?_).trans known
    rw [grips.fresh l between.1] at known
    cases known
  obtain ⟨next, extended, goals, surveyed⟩ := h.surveyed foreseen.fault foreseen.slots
    (fun l le lt => if_pos ⟨le, lt⟩) (grips.surveyed.goals fun l _ => more l)
  have first : survey.Extends (floor ≤ ·.slots) s.asm s.asm { survey with goal } :=
    .same rfl (Nat.le_refl _) (Nat.le_refl _) more fun _ _ => id
  refine ⟨next, first.trans (extended.mono fun g is => is ▸ le), surveyed, fun l beyond => ?_⟩
  rw [goals]
  exact (if_neg fun between => absurd between.2 (Nat.not_lt.mpr beyond)).trans
    (grips.fresh l (Nat.le_trans h.evolves.labels_le beyond))

end Secures

/-! ## Steps -/

namespace Stays

variable {α β : Type} {step : Arrange α}

theorem bind {next : α → Arrange β} (h : Stays o floor a b step)
    (h' : ∀ x, Stays o floor b c (next x)) : Stays o floor a c (step >>= next) := by
  intro s y s' ends ready sound
  obtain ⟨x, s₁, first, second⟩ := ends_bind.mp ends
  have secures := h s x s₁ first ready sound
  exact secures.trans (h' x s₁ y s' second secures.continues.ready secures.continues.slots)

theorem pure (x : α) : Stays o floor a a (Pure.pure x) := by
  intro s y s' ends ready sound
  obtain ⟨-, rfl⟩ := ends_pure.mp ends
  exact .refl ready sound

/-- Code in one piece. -/
theorem write {k : Int} {step : Emit α} (h : Emits k step) (le : floor ≤ slots) :
    Stays o floor (.stored slots) (.stored slots) (Arrange.write step) := by
  intro s x s' ends ready sound
  obtain ⟨d, written, rfl⟩ := ends_write.mp ends
  exact .scribes ready sound (h.grows sound written).scribes le

/-- An instruction that does not branch. -/
theorem emit {i : Instruction} (ht : i.target? = none) (allows : o.analysis.Allows a i)
    (le : floor ≤ a.slots) :
    Stays o floor a (o.analysis.after i a) (Arrange.write (Emit.emit i)) := by
  intro s x s' ends ready sound
  obtain ⟨d, written, rfl⟩ := ends_write.mp ends
  rw [Emit.ends_emit.mp written]
  exact .emit ready sound ht allows le

/-- What is written in two parts. -/
theorem writes {step : Emit α} {next : α → Emit β} (h : Stays o floor a b (Arrange.write step))
    (h' : ∀ x, Stays o floor b c (Arrange.write (next x))) :
    Stays o floor a c (Arrange.write (step >>= next)) := by
  intro s y s' ends ready sound
  obtain ⟨d, written, rfl⟩ := ends_write.mp ends
  obtain ⟨x, d₁, first, second⟩ := ends_bind.mp written
  have secures := h s x { s with draft := d₁ } (ends_write.mpr ⟨d₁, first, rfl⟩) ready sound
  exact secures.trans (h' x { s with draft := d₁ } y _ (ends_write.mpr ⟨d, second, rfl⟩)
    secures.continues.ready secures.continues.slots)

end Stays

/-! ## Jumps -/

section Jumps

variable {env : LayoutEnv} {scope : Scope} {t : BlockId} {l : Label} {kind : BranchKind}

/-- A label of which nothing is known yet is for what is known of a block. -/
theorem LayoutState.Grips.label (h : s.Grips o survey a) (hf : s.asm.fault = none) (g : Grip) :
    survey.Extends (floor ≤ ·.slots) s.asm s.asm.defineLabel.2
        (survey.noteGoal s.asm.labels.size g) ∧
      s.asm.defineLabel.2.Surveyed o.analysis (survey.noteGoal s.asm.labels.size g) a ∧
      ∀ l, s.asm.defineLabel.2.labels.size ≤ l →
        (survey.noteGoal s.asm.labels.size g).goal l = none := by
  have size : s.asm.defineLabel.2.labels.size = s.asm.labels.size + 1 :=
    Assembler.labels_defineLabel
  have more (l : Label) (a : Grip) (known : survey.goal l = some a) :
      (survey.noteGoal s.asm.labels.size g).goal l = some a := by
    refine (if_neg ?_).trans known
    rintro rfl
    rw [h.fresh _ (Nat.le_refl _)] at known
    cases known
  refine ⟨.same rfl (Nat.le_refl _) (Nat.le_refl _) more fun _ _ => id, ?_, fun l beyond => ?_⟩
  · have sound := Assembler.Write.defineLabel.sound h.surveyed.sound hf
    exact (h.surveyed.goals fun l _ => more l).same sound rfl rfl rfl
      (fun _ => Assembler.label_defineLabel) (Nat.le_refl _)
  · have beyond : s.asm.labels.size + 1 ≤ l := size ▸ beyond
    exact (if_neg (Nat.ne_of_gt beyond)).trans (h.fresh l (Nat.le_of_succ_le beyond))

/-- The label of a block is for what is known of it. -/
theorem secures_withLabel (ready : s.Ready) (sound : s.asm.slots.Sound) (t : BlockId) :
    Secures o floor a a s (s.withLabel t).2 := by
  have extended : Extends .root [] s (s.withLabel t).2 := extends_withLabel ready t
  refine ⟨extended.continues sound, ?_⟩
  unfold LayoutState.withLabel
  cases known : s.labels.lookup t with
  | some l => exact fun _ survey grips => ⟨survey, .refl _ _, grips⟩
  | none =>
    intro foreseen survey grips
    obtain ⟨extended, surveyed, fresh⟩ := grips.label foreseen.fault (.stored (o.known t))
    have defined : (s.mapAsm (·.defineLabel.2)).Grips o _ a :=
      grips.goes (.refl _) extended surveyed fresh rfl rfl rfl
    refine ⟨_, extended, { defined with labels := fun c l found => ?_ }⟩
    rw [List.lookup_cons] at found
    split at found
    case h_1 same =>
      cases found
      exact beq_iff_eq.mp same ▸ if_pos rfl
    case h_2 => exact extended.goal l _ (grips.labels c l found)

/-- A branch to a label for which not more is asked than is known. -/
theorem LayoutState.Grips.branch (h : s.Grips o survey (.stored slots))
    (hf : (s.asm.branch kind l).fault = none) (lt : l < s.asm.labels.size)
    (goal : survey.goal l = some (.stored more)) (most : more ≤ slots) (le : floor ≤ slots) :
    survey.Extends (floor ≤ ·.slots) s.asm (s.asm.branch kind l)
        (s.asm.surveyHere survey (.stored slots)) ∧
      (s.mapAsm (·.branch kind l)).Grips o (s.asm.surveyHere survey (.stored slots))
        (.stored slots) := by
  have branched := h.surveyed.branch lt hf goal (fun _ => fits_after _ most)
    fun _ => by cases kind <;> trivial
  have extended : survey.Extends (floor ≤ ·.slots) s.asm (s.asm.branch kind l)
      (s.asm.surveyHere survey (.stored slots)) :=
    Assembler.extends_surveyHere h.surveyed.sound
      ((congrArg Array.size Assembler.code_branch).trans (Array.size_push _))
      Assembler.pinned_branch le
  refine ⟨extended, h.goes (Assembler.Evolves.single (.branch lt)).slots_within extended
    (branched.forget fun _ => fits_after _ fun _ => id) (fun l beyond => h.fresh l ?_) rfl rfl rfl⟩
  exact Nat.le_trans (Nat.le_of_eq Assembler.labels_branch.symm) beyond

/-- A branch to a block. -/
theorem secures_branchTo (ready : s.Ready) (sound : s.asm.slots.Sound)
    (known : s.labels.lookup t = some l) (le : floor ≤ slots) (most : o.known t ≤ slots) :
    Secures o floor (.stored slots) (.stored slots) s (s.mapAsm (·.branch kind l)) :=
  ⟨continues_mapAsm ready sound (.single (.branch (ready t l known))), fun foreseen _ grips =>
    ⟨_, grips.branch foreseen.fault (ready t l known) (grips.labels t l known) most le⟩⟩

theorem secures_accept (ready : s.Ready) (sound : s.asm.slots.Sound) (t : BlockId) (r : Route) :
    Secures o floor a a s (s.accept t r) := by
  refine .same ready sound (draft_accept s t r) (labels_accept s t r) ?_ ?_ <;>
    cases r <;> simp only [LayoutState.accept, LayoutState.pushLast, LayoutState.escape] <;>
    split <;> rfl

theorem secures_goTo {r : Route} (ready : s.Ready) (sound : s.asm.slots.Sound)
    (known : s.labels.lookup t = some l) (le : floor ≤ slots) (most : o.known t ≤ slots) :
    Secures o floor (.stored slots) (.stored slots) s (s.goTo t l r) := by
  cases r with
  | within =>
    have branched : Secures o floor _ _ s (s.mapAsm (·.branch .always l)) :=
      secures_branchTo ready sound known le most
    refine branched.trans (.same branched.continues.ready branched.continues.slots ?_ ?_ ?_ ?_) <;>
      simp only [LayoutState.goTo, LayoutState.pushFirst] <;> split <;> rfl
  | exit =>
    have targeted : Secures o floor (.stored slots) (.stored slots) s
        { s with exitTargeted := true } := .same ready sound rfl rfl rfl rfl
    exact targeted.trans (secures_branchTo ready sound known le most)
  | leave =>
    have accepted : Secures o floor (.stored slots) _ s (s.accept t .leave) :=
      secures_accept ready sound t .leave
    exact accepted.trans (secures_branchTo accepted.continues.ready accepted.continues.slots
      ((labels_escape s t).symm ▸ known) le most)
  | endFinally => exact .emit (i := .endFinally) ready sound rfl trivial le

/-- Control goes on at a block, of which not more is known. -/
theorem stays_transfer (le : floor ≤ slots) (most : o.known t ≤ slots) :
    Stays o floor (.stored slots) (.stored slots) (transfer env scope t) := by
  intro s x s' ends ready sound
  obtain ⟨r, -, rfl⟩ := goTo_of_ends_transfer ends
  split
  · have labeled : Secures o floor (.stored slots) _ s _ := secures_withLabel ready sound t
    exact labeled.trans (secures_goTo labeled.continues.ready labeled.continues.slots
      (lookup_withLabel s t) le most)
  · exact secures_accept ready sound t r

/-- A part of the layout that is skipped by a test of the value on the stack. -/
theorem secures_skipped (ready : s.Ready) (sound : s.asm.slots.Sound) (le : floor ≤ slots)
    (inside : Secures o floor (.stored slots) (.stored slots)
      ((s.mapAsm (·.defineLabel.2)).mapAsm (·.branch kind s.asm.labels.size)) s₁) :
    Secures o floor (.stored slots) (.stored slots) s (s₁.mapAsm (·.mark s.asm.labels.size)) := by
  have defined := continues_mapAsm ready sound (f := (·.defineLabel.2)) (.single .defineLabel)
  have there : s.asm.labels.size < s.asm.defineLabel.2.labels.size :=
    Nat.lt_of_lt_of_eq (Nat.lt_succ_self _) Assembler.labels_defineLabel.symm
  have branched := continues_mapAsm defined.ready defined.slots
    (f := (·.branch kind s.asm.labels.size)) (.single (.branch there))
  have lt : s.asm.labels.size < s₁.asm.labels.size :=
    Nat.lt_of_lt_of_le there (branched.trans inside.continues).evolves.labels_le
  have marked := continues_mapAsm inside.continues.ready inside.continues.slots
    (f := (·.mark s.asm.labels.size)) (.single (.mark lt))
  refine ⟨((defined.trans branched).trans inside.continues).trans marked,
    fun foreseen survey grips => ?_⟩
  have foreseen₁ := marked.foresees foreseen
  have foreseen₀ := inside.continues.foresees foreseen₁
  -- What is known at the new label is what is known in front of the test.
  obtain ⟨labeled, surveyed, fresh⟩ :=
    grips.label ((defined.trans branched).foresees foreseen₀).fault (.stored slots)
  have grips₀ : (s.mapAsm (·.defineLabel.2)).Grips o _ _ :=
    grips.goes (.refl _) labeled surveyed fresh rfl rfl rfl
  obtain ⟨first, grips₁⟩ := grips₀.branch foreseen₀.fault there (if_pos rfl) (le_refl _) le
  obtain ⟨next, rest, grips₂⟩ := inside.bears foreseen₁ _ grips₁
  have pinned : s₁.asm.pinned ≤ (s₁.asm.mark s.asm.labels.size).pinned :=
    Nat.le_trans grips₂.surveyed.sound.pinned_le (Nat.le_of_eq Assembler.pinned_mark.symm)
  have put : next.Extends (floor ≤ ·.slots) s₁.asm (s₁.asm.mark s.asm.labels.size) next :=
    .same rfl pinned (Nat.le_of_eq (congrArg Array.size Assembler.code_mark)) (fun _ _ => id)
      fun _ _ => id
  have surveyed := grips₂.surveyed.mark lt foreseen.fault (rest.goal _ _ (if_pos rfl)) fun _ =>
    o.analysis.refl _
  refine ⟨next, ((labeled.trans first).trans rest).trans put,
    grips₂.goes marked.evolves.slots_within put surveyed (fun l beyond => grips₂.fresh l ?_)
      rfl rfl rfl⟩
  exact Nat.le_trans (Nat.le_of_eq Assembler.labels_mark.symm) beyond

/-- Control goes on at a block by the value on the stack. -/
theorem stays_transferIf (le : floor ≤ slots) (most : o.known t ≤ slots) :
    Stays o floor (.stored slots) (.stored slots) (transferIf env scope kind t) := by
  intro s x s' ends ready sound
  obtain ⟨r, -, ends⟩ := branch_of_ends_transferIf ends
  have labeled : Secures o floor (.stored slots) _ s (s.withLabel t).2 :=
    secures_withLabel ready sound t
  cases r
  case within | exit =>
    rw [ends]
    have branched : Secures o floor (.stored slots) (.stored slots) s
        ((s.withLabel t).2.mapAsm (·.branch kind (s.withLabel t).1)) :=
      labeled.trans (secures_branchTo labeled.continues.ready labeled.continues.slots
        (lookup_withLabel s t) le most)
    exact branched.trans (secures_accept branched.continues.ready branched.continues.slots t _)
  case leave | endFinally =>
    obtain ⟨s₁, transferred, rfl⟩ := ends
    refine labeled.trans (@secures_skipped o floor slots _ s₁ kind.negate labeled.continues.ready
      labeled.continues.slots le ?_)
    have defined := continues_mapAsm labeled.continues.ready labeled.continues.slots
      (f := (·.defineLabel.2)) (.single .defineLabel)
    have branched := continues_mapAsm defined.ready defined.slots
      (f := (·.branch kind.negate (s.withLabel t).2.asm.labels.size)) (.single (.branch
        (Nat.lt_of_lt_of_eq (Nat.lt_succ_self _) Assembler.labels_defineLabel.symm)))
    exact stays_transfer le most _ _ _ transferred branched.ready branched.slots

end Jumps

/-! ## Blocks -/

section Blocks

variable {env : LayoutEnv} {scope : Scope} {b : BlockId} {e : EdgeId} {edge : Edge} {slot : LocalId}

/-- A loop has the slot that it has got, or it gets a new one. -/
theorem secures_enumeratorSlot (ready : s.Ready) (sound : s.asm.slots.Sound)
    (ends : Ends (enumeratorSlot e) s slot s') : Secures o floor a a s s' := by
  have extended : Extends .root [] s s' := (extends_of_ends_enumeratorSlot ready ends).1
  refine ⟨extended.continues sound, fun foreseen survey grips => ?_⟩
  obtain ⟨-, rfl⟩ | ⟨-, rfl, rfl⟩ := enumeratorSlot_cases ends
  · exact ⟨survey, .refl _ _, grips⟩
  · have serve : Assembler.Write s.asm { s.asm with slots := s.asm.slots.enumerator.2 } :=
      .serve (.enumerator _)
    let after : LayoutState := s.mapAsm fun asm => { asm with slots := asm.slots.enumerator.2 }
    have same : survey.Extends (floor ≤ ·.slots) s.asm after.asm survey :=
      .same rfl (Nat.le_refl _) (Nat.le_refl _) (fun _ _ => id) fun _ _ => id
    have served : after.Grips o survey a :=
      grips.goes (Assembler.Evolves.single serve).slots_within same
        (grips.surveyed.same (serve.sound grips.surveyed.sound foreseen.fault) rfl rfl rfl
          (fun _ => rfl) (Nat.le_refl _)) grips.fresh rfl rfl rfl
    refine ⟨survey, same, { served with enumerators := fun e' slot' known => ?_ }⟩
    rw [List.lookup_cons] at known
    split at known
    case h_1 =>
      cases known
      exact Slots.slot_enumerator
    case h_2 => exact served.enumerators e' slot' known

/-- The cases of a switch, of whose targets not more is known. -/
theorem secures_placeCases {subject : LocalId} {cases_ : List SwitchCase} (le : floor ≤ slots)
    (most : ∀ c ∈ cases_, o.known c.target ≤ slots) (ready : s.Ready) (sound : s.asm.slots.Sound)
    (there : s.asm.HasLocal subject) (ends : Ends (placeCases env scope subject cases_) s () s') :
    Secures o floor (.stored slots) (.stored slots) s s' := by
  induction cases_ generalizing s with
  | nil =>
    obtain ⟨-, rfl⟩ := ends_pure.mp ends
    exact .refl ready sound
  | cons c rest ih =>
    have others := fun c hc => most c (List.mem_cons_of_mem _ hc)
    cases value : c.value with
    | none =>
      simp only [placeCases, value] at ends
      exact ih others ready sound there ends
    | some value' =>
      obtain ⟨d, s₂, compare, jump, ends⟩ := case_of_ends_placeCases value ends
      have grows := grows_of_ends_compareCase sound there compare
      have compared : Secures o floor (.stored slots) (.stored slots) s { s with draft := d } :=
        .scribes ready sound grows.scribes le
      have jumped := stays_transferIf le (most c List.mem_cons_self) _ _ _ jump
        compared.continues.ready compared.continues.slots
      have first := compared.trans jumped
      refine first.trans (ih others first.continues.ready first.continues.slots ?_ ends)
      obtain ⟨slot, known, other⟩ := there
      exact ⟨slot, first.continues.evolves.slots_within _ _ known, other⟩

/-- The slot of a loop is loaded. -/
theorem stays_load (le : floor ≤ slots) (loop : o.final.Enumerates slot) :
    Stays o floor (.stored slots) ⟨slots, slots slot⟩
      (Arrange.write (Emit.emit (.loadLocal slot))) := by
  intro s x s' ends ready sound
  obtain ⟨there, known, -⟩ := id loop
  have lt : slot < o.final.size := (Array.getElem?_eq_some_iff.mp known).1
  exact (Stays.emit (a := .stored slots) (i := .loadLocal slot) rfl lt le _ _ _ ends ready
    sound).forget fun _ => ⟨fun _ => id, fun got => ⟨got, loop⟩⟩

/-- An enumerator that is on the stack is asked, and something else is there then. -/
theorem stays_ask {i : Instruction} {top : Prop} (asks : i = .advance ∨ i = .enumeratorKey ∨
    i = .enumeratorValue) (le : floor ≤ slots) (got : o.owed → top) :
    Stays o floor ⟨slots, top⟩ (.stored slots) (Arrange.write (Emit.emit i)) := by
  obtain rfl | rfl | rfl := asks
  · exact .emit (a := ⟨slots, top⟩) (i := .advance) rfl got le
  · exact .emit (a := ⟨slots, top⟩) (i := .enumeratorKey) rfl got le
  · exact .emit (a := ⟨slots, top⟩) (i := .enumeratorValue) rfl got le

/-- The entry that an enumerator stands on is bound. -/
theorem stays_bindEntry {env : BodyEnv} {key : Option String} {value : String} (le : floor ≤ slots)
    (loop : o.final.Enumerates slot) (got : o.owed → slots slot) :
    Stays o floor (.stored slots) (.stored slots)
      (Arrange.write (bindEntry env slot key value)) := by
  refine (stays_load le loop).writes fun _ => (stays_ask (.inr (.inr rfl)) le got).writes fun _ =>
    (Stays.write (emits_storeVariable value) le).writes fun _ => ?_
  cases key with
  | none => exact .write (k := 0) emits_pure le
  | some key =>
    exact (stays_load le loop).writes fun _ => (stays_ask (.inr (.inl rfl)) le got).writes fun _ =>
      .write (emits_storeVariable key) le

section Edges

variable {enter : Enter} {number : UInt32} {source : BlockId} {subject : Expr}

/-- **A loop that starts** has got its enumerator at the block that the edge leads to. -/
theorem secures_enumerateEdge {target : BlockId}
    (from_ : o.graph.EndsBlock b e ⟨number, source, .enumerate subject target⟩) (ready : s.Ready)
    (sound : s.asm.slots.Sound)
    (ends : Ends (placeEdge env enter scope e ⟨number, source, .enumerate subject target⟩) s () s') :
    Secures o (o.known b) (.stored (o.known b)) (.stored (o.known b)) s s' := by
  have le : o.known b ≤ o.known b := le_refl _
  obtain ⟨_, s₁, asked, ends⟩ := ends_bind.mp ends
  obtain ⟨slot, s₂, served, ends⟩ := ends_bind.mp ends
  obtain ⟨_, s₃, stored, jumped⟩ := ends_bind.mp ends
  have written : Stays o (o.known b) (.stored (o.known b)) ⟨o.known b, True⟩
      (Arrange.write do
        emitValue env.body subject
        Emit.emit .getEnumerator) :=
    (Stays.write (emits_emitValue subject) le).writes fun _ =>
      .emit (i := .getEnumerator) rfl trivial le
  have first := written _ _ _ asked ready sound
  have second := first.trans
    (secures_enumeratorSlot first.continues.ready first.continues.slots served)
  obtain ⟨-, has⟩ : Extends .root [] s₁ s₂ ∧ s₂.enumerators.lookup e = some slot :=
    extends_of_ends_enumeratorSlot first.continues.ready served
  obtain ⟨d, emitted, rfl⟩ := ends_write.mp stored
  obtain rfl := Emit.ends_emit.mp emitted
  have storing := continues_mapAsm second.continues.ready second.continues.slots
    (f := (·.emit (.storeLocal slot))) (.single (.emit rfl))
  have tail := storing.trans ((extends_of_ends_transfer storing.ready
    (List.mem_singleton_self target) jumped).1.continues storing.slots)
  refine second.trans (.of_grips tail fun foreseen survey grips => ?_)
  have foreseen := tail.foresees foreseen
  obtain ⟨_, there, -⟩ := (grips.enumerators e slot has).mono foreseen.slots
  -- The enumerator is on the stack: behind the store its slot is known besides what was known.
  have put := (Secures.emit (a := ⟨o.known b, True⟩) (i := .storeLocal slot)
    second.continues.ready second.continues.slots rfl
    ⟨(Array.getElem?_eq_some_iff.mp there).1, fun _ => trivial⟩ le).forget
    (c := .stored fun k => o.known b k ∨ k = slot)
    fun _ => ⟨fun _ => Or.imp_right fun same => ⟨same, trivial⟩, False.elim⟩
  refine put.trans ((stays_transfer (fun _ => .inl) (fun k known => ?_) _ _ _ jumped storing.ready
    storing.slots).forget fun _ => ⟨fun _ => .inl, False.elim⟩)
  refine (Outlook.known_of_target from_ (List.mem_singleton_self target) known).imp_right ?_
  rintro ⟨-, lookup⟩
  rw [foreseen.enumerators e slot has] at lookup
  exact (Option.some.inj lookup).symm

/-- A loop that goes on asks the enumerator in its slot, and leaves it there. -/
theorem secures_advanceEdge {loop : EdgeId} {key : Option String} {value : String}
    {body next : BlockId} (mostBody : o.known body ≤ o.known b)
    (mostNext : o.known next ≤ o.known b)
    (fair : ∀ slot, o.enumerators.lookup loop = some slot → o.owed → o.known b slot)
    (continues : Continues s s') (ready : s.Ready) (sound : s.asm.slots.Sound)
    (ends : Ends (placeEdge env enter scope e ⟨number, source, .advance loop key value body next⟩)
      s () s') :
    Secures o (o.known b) (.stored (o.known b)) (.stored (o.known b)) s s' := by
  have le : o.known b ≤ o.known b := le_refl _
  refine .of_grips continues fun foreseen survey grips => ?_
  simp only [placeEdge, ends_bind, ends_get] at ends
  obtain ⟨_, _, ⟨rfl, rfl⟩, ends⟩ := ends
  cases has : s.enumerators.lookup loop with
  | none => simp [has] at ends
  | some slot =>
    simp only [has] at ends
    have foreseen := continues.foresees foreseen
    have enumerates := (grips.enumerators loop slot has).mono foreseen.slots
    have got := fair slot (foreseen.enumerators loop slot has)
    have advanced : Stays o (o.known b) (.stored (o.known b)) (.stored (o.known b))
        (Arrange.write do
          Emit.emit (.loadLocal slot)
          Emit.emit .advance) :=
      (stays_load le enumerates).writes fun _ => stays_ask (.inl rfl) le got
    exact (advanced.bind fun _ => (stays_transferIf le mostNext).bind fun _ =>
      (stays_bindEntry le enumerates got).bind fun _ => stays_transfer le mostBody) _ _ _ ends
        ready sound

/-- A switch keeps its subject in a slot that is no loop's. -/
theorem secures_switchEdge {cases_ : List SwitchCase} {next : BlockId}
    (most : ∀ t ∈ (EdgeKind.switch subject cases_ next).targets, o.known t ≤ o.known b)
    (ready : s.Ready) (sound : s.asm.slots.Sound)
    (ends : Ends (placeEdge env enter scope e ⟨number, source, .switch subject cases_ next⟩) s () s') :
    Secures o (o.known b) (.stored (o.known b)) (.stored (o.known b)) s s' := by
  have le : o.known b ≤ o.known b := le_refl _
  obtain ⟨d, s₂, s₃, value, placed, jumped, queued⟩ := parts_of_ends_switch ends
  have grows := (emits_emitValue _).grows sound value
  have slotted := Assembler.hasLocal_scratch (grows.sound sound)
  have store := Assembler.grows_local (i := .storeLocal _) slotted rfl rfl rfl
  have first : Secures o (o.known b) (.stored (o.known b)) (.stored (o.known b)) s (s.stowed d) :=
    .scribes ready sound ((grows.scribes.tail (.serve (.scratch _))).trans
      (store.scribes.weaken grows.evolves.labels_le)) le
  have second := first.trans (secures_placeCases le (fun c hc => most _
    (List.mem_append_left _ (List.mem_map.mpr ⟨c, hc, rfl⟩)))
    first.continues.ready first.continues.slots (hasLocal_stow (grows.sound sound)) placed)
  have third : Secures o (o.known b) (.stored (o.known b)) (.stored (o.known b)) s
      (s₂.freed d.asm.slots.scratch.1) :=
    second.trans (.scribes second.continues.ready second.continues.slots
      (.single (.serve (.release _ _))) le)
  have fourth := third.trans (stays_transfer le
    (most _ (otherwise_mem_targets _ cases_ next)) _ _ _ jumped
    third.continues.ready third.continues.slots)
  obtain ⟨r, -, rfl⟩ := ends_enqueue.mp queued
  exact fourth.trans (secures_accept fourth.continues.ready fourth.continues.slots next r)

/-- **The edge that ends a block**, if it opens no scope, starts from what is known of the block. -/
theorem secures_placeEdge (plain : edge.kind.isTry = false) (from_ : o.graph.EndsBlock b e edge)
    (fair : ∀ loop key value body next slot, edge.kind = .advance loop key value body next →
      o.enumerators.lookup loop = some slot → o.owed → o.known b slot)
    (ready : s.Ready) (sound : s.asm.slots.Sound)
    (ends : Ends (placeEdge env enter scope e edge) s () s') :
    Secures o (o.known b) (.stored (o.known b)) (.stored (o.known b)) s s' := by
  have le : o.known b ≤ o.known b := le_refl _
  -- Only the start of a loop makes more known at its target than at the block.
  have most (other : ∀ subject target, edge.kind ≠ .enumerate subject target) {t : BlockId}
      (target : t ∈ edge.kind.targets) : o.known t ≤ o.known b :=
    Outlook.known_le_of_target from_ target other
  have continues := (extends_of_ends_placeEdge ready sound plain ends).1.continues sound
  obtain ⟨number, source, kind⟩ := edge
  cases kind with
  | tryCatch => cases plain
  | jump target =>
    exact stays_transfer le (most nofun (List.mem_singleton_self _)) _ _ _ ends ready sound
  | branch condition ifTrue ifFalse =>
    have written : Stays o (o.known b) (.stored (o.known b)) (.stored (o.known b))
        (Arrange.write (emitValue env.body condition)) := .write (emits_emitValue condition) le
    have mostFalse := most nofun (List.mem_cons_of_mem _ (List.mem_singleton_self ifFalse))
    have mostTrue := most nofun List.mem_cons_self
    exact (written.bind fun _ => (stays_transferIf le mostFalse).bind fun _ =>
      stays_transfer le mostTrue) _ _ _ ends ready sound
  | enumerate => exact secures_enumerateEdge from_ ready sound ends
  | advance loop key value body next =>
    exact secures_advanceEdge (most nofun List.mem_cons_self)
      (most nofun (List.mem_cons_of_mem _ (List.mem_singleton_self _)))
      (fun slot => fair loop key value body next slot rfl) continues ready sound ends
  | «switch» => exact secures_switchEdge (fun t => most nofun) ready sound ends

end Edges

/-- The statements of a block. -/
theorem stays_placeStatements (le : floor ≤ slots) :
    Stays o floor (.stored slots) (.stored slots) (placeStatements env b) := by
  intro s x s' ends ready sound
  obtain ⟨block, d, -, written, -, rfl⟩ := ends_placeStatements ends
  exact .scribes ready sound ((emits_emitStatements _).grows sound written).scribes le

/-- A jump may be taken back where a label is put. -/
theorem size_place_le {asm : Assembler} {l : Label} : (asm.place l).code.size ≤ asm.code.size := by
  rw [Assembler.place, Assembler.code_mark]
  obtain same | ⟨t, code, fixups, pushed, -, -, same⟩ := Assembler.elide_cases asm l
  · rw [same]
  · rw [same, pushed, Array.size_push]
    exact Nat.le_succ _

/-- The start of a block is its label: there it starts from what is known of it. -/
theorem secures_beginBlock (ready : s.Ready) (sound : s.asm.slots.Sound)
    (le : s.asm.reachable = true → o.known b ≤ here.slots) :
    Secures o floor here (.stored (o.known b)) s (s.beginBlock b) := by
  obtain ⟨l, s₁, labeled, same⟩ := beginBlock_cases s b
  have begun : Secures o floor here here s { s with placed := b :: s.placed } :=
    .same ready sound rfl rfl rfl rfl
  have further : Secures o floor here here _ _ :=
    secures_withLabel begun.continues.ready begun.continues.slots b
  rw [labeled] at further
  have first := begun.trans further
  have known : s₁.labels.lookup b = some l := by
    have := lookup_withLabel { s with placed := b :: s.placed } b
    rwa [labeled] at this
  have lt := first.continues.ready b l known
  -- A block is labeled where the code ends, so control comes there if it did so in front.
  have reachable : s₁.asm.reachable = s.asm.reachable := by
    have : s₁ = (({ s with placed := b :: s.placed } : LayoutState).withLabel b).2 := by
      rw [labeled]
    rw [this, LayoutState.withLabel]
    split <;> rfl
  have placed := continues_mapAsm first.continues.ready first.continues.slots (f := (·.place l))
    (.single (.place lt))
  have put : Secures o floor here (.stored (o.known b)) s₁ (s₁.mapAsm (·.place l)) := by
    refine ⟨placed, fun foreseen survey grips => ?_⟩
    have goal := grips.labels b l known
    have fits (there : s₁.asm.reachable = true) : o.analysis.Fits here (.stored (o.known b)) :=
      ⟨le (reachable ▸ there), False.elim⟩
    have elided := grips.surveyed.elide (l := l) fits fun _ g same => by
      rw [goal] at same
      cases same
      exact o.analysis.refl _
    have marked := elided.mark (by rwa [Assembler.labels_elide]) foreseen.fault goal
      fun _ => o.analysis.refl _
    have pinned : s₁.asm.pinned ≤ (s₁.asm.place l).pinned := by
      refine Nat.le_trans ?_ (Nat.le_of_eq Assembler.pinned_mark.symm)
      exact Assembler.pinned_elide ▸ grips.surveyed.sound.elide.pinned_le
    have extended : survey.Extends (floor ≤ ·.slots) s₁.asm (s₁.asm.place l) survey :=
      .same rfl pinned size_place_le (fun _ _ => id) fun _ _ => id
    exact ⟨survey, extended, grips.goes placed.evolves.slots_within extended marked
      (fun k beyond => grips.fresh k (Nat.le_trans placed.evolves.labels_le beyond)) rfl rfl rfl⟩
  have pinned : Secures o floor (.stored (o.known b)) (.stored (o.known b))
      (s₁.mapAsm (·.place l)) ((s₁.mapAsm (·.place l)).mapAsm (·.pin)) :=
    .pin placed.ready placed.slots
  rw [same]
  exact first.trans (put.trans (pinned.trans
    (.same pinned.continues.ready pinned.continues.slots rfl rfl rfl rfl)))

/-- The targets that nested scopes have left. -/
theorem stays_enqueueEscapes (targets : List BlockId) :
    Stays o floor a a (enqueueEscapes env scope targets) := by
  induction targets with
  | nil => exact .pure _
  | cons target rest ih =>
    intro s x s' ends ready sound
    obtain ⟨r, -, -, ends⟩ := ends_enqueueEscapes_cons.mp ends
    have accepted : Secures o floor a a s (s.accept target r) :=
      secures_accept ready sound target r
    exact accepted.trans (ih _ _ _ ends accepted.continues.ready accepted.continues.slots)

end Blocks

/-! ## Handlers -/

section Handlers

variable {depth : Nat}

/-- **A handler** starts with the enumerators that all the code has that it protects. -/
theorem LayoutState.Grips.handler (h : s.Grips o survey here) (floor : LocalId → Prop)
    (region : Nat → Region)
    (unreachable : s.asm.reachable = false)
    (start : ∀ n, (region n).handlerStart = s.asm.offset)
    (tryEnd : ∀ n, (region n).tryEnd ≤ s.asm.offset)
    (keeps : ∀ n, survey.Keeps (region n).tryStart (region n).tryEnd slots)
    (foreseen : o.Foresees s₁) (continues : Continues (s.beginHandler depth) s₁)
    (inside : ∀ survey, (s.beginHandler depth).Grips o survey (.stored slots) → ∃ next,
      survey.Extends (floor ≤ ·.slots) (s.beginHandler depth).asm s₁.asm next ∧
        ∀ g, s₁.Grips o next g) :
    ∃ next, survey.Extends (floor ≤ ·.slots) s.asm (s₁.endHandler region).asm next ∧
      ∀ g, (s₁.endHandler region).Grips o next g := by
  have hf : s.asm.fault = none := (continues.foresees foreseen).fault
  obtain ⟨pinned, grips₀⟩ := h.pin (P := (floor ≤ ·.slots)) hf
  have begun := grips₀.surveyed.beginHandler hf unreachable rfl depth (.stored slots)
  -- The start of the handler is a new entry of the survey. The code before it is not touched.
  have noted : survey.Extends (floor ≤ ·.slots) s.asm.pin (s.beginHandler depth).asm
      (survey.noteEntry s.asm.code.size (.stored slots)) :=
    .same rfl (Nat.le_refl _) (Nat.le_refl _) (fun _ _ => id) fun _ _ => .inl
  have started : (s.beginHandler depth).Grips o
      (survey.noteEntry s.asm.code.size (.stored slots)) (.stored slots) :=
    grips₀.goes (.refl _) noted begun h.fresh rfl rfl rfl
  have around (n : Nat) : (survey.noteEntry s.asm.code.size (.stored slots)).Keeps
      (region n).tryStart (region n).tryEnd slots := keeps n
  obtain ⟨next, extended, grips⟩ := inside _ started
  obtain ⟨last, -⟩ := (grips here).pin (P := (floor ≤ ·.slots)) foreseen.fault
  refine ⟨next, ((pinned.trans noted).trans extended).trans last, fun g => ?_⟩
  obtain ⟨-, kept⟩ := (grips g).pin (P := (floor ≤ ·.slots)) foreseen.fault
  -- The one region more is that of the handler. What its code keeps was known before the handler
  -- was laid out.
  refine { kept with regions := fun r mem => ?_ }
  obtain mem | rfl := Array.mem_push.mp mem
  · exact kept.regions r mem
  · refine ⟨Nat.le_trans (tryEnd _) (extended.trans last).pinned_le, slots, ?_,
      (around _).extend (tryEnd _) extended⟩
    rw [start]
    exact extended.entry _ _ (.inr ⟨rfl, rfl⟩)

end Handlers

/-! ## Whole layouts -/

namespace Job

/-- The slots that all code of a part has the enumerators of. -/
def base (o : Outlook) : Job → LocalId → Prop
  | .drain path | .enter path _ _ => fun slot => ∃ tag ∈ path, o.known tag.source slot
  | .block _ b => o.known b
  | .catches source .. | .finally source .. => o.known source

/-- What has to be known in front of a part. -/
def Given (o : Outlook) (s : LayoutState) (survey : Survey Grip) (here : Grip) : Job → Prop
  | .drain _ => s.asm.reachable = true → ∀ b ∈ s.queue.head?, o.known b ≤ here.slots
  | .block _ b | .enter _ b _ => s.asm.reachable = true → o.known b ≤ here.slots
  | .catches source _ tryStart tryEnd _ clauses _ => tryEnd ≤ s.asm.pinned ∧
    survey.Keeps tryStart tryEnd (o.known source) ∧
    ∀ clause ∈ clauses, o.known clause.target ≤ o.known source
  | .finally source _ tryStart handler _ =>
    survey.Keeps tryStart s.asm.code.size (o.known source) ∧
      ∀ b ∈ handler, o.known b ≤ o.known source

end Job

/-- A loop is advanced only where its slot has got its enumerator, if that is owed. -/
def Outlook.Fair (o : Outlook) : Prop :=
  o.owed → ∀ b e edge loop key value body next slot, o.graph.EndsBlock b e edge →
    edge.kind = .advance loop key value body next → o.enumerators.lookup loop = some slot →
      o.known b slot

section Whole

variable {env : LayoutEnv} {job : Job} {p p' : Progress}

/-- **Every part of a layout bears out** what is known of the enumerators. -/
theorem grips_of_lays (h : Lays env job p p') (hg : env.graph.Built) (graph : o.graph = env.graph)
    (fair : o.Fair)
    (nested : ∀ x ∈ p'.placements, ∀ tag ∈ x.path, o.known tag.source ≤ o.known x.block)
    (ready : p.state.Ready) (sound : p.state.asm.slots.Sound) (starts : job.Starts p.state)
    (foreseen : o.Foresees p'.state) (grips : p.state.Grips o survey here)
    (given : job.Given o p.state survey here) :
    ∃ next, survey.Extends (job.base o ≤ ·.slots) p.state.asm p'.state.asm next ∧
      ∀ g, p'.state.Grips o next g := by
  induction h generalizing survey here with
  | @done path p hq =>
    have goes : (Job.drain path).Goes p.state p.state :=
      continues_of_lays (.done hq : Lays env (.drain path) p p)
    obtain ⟨-, unreachable⟩ := goes ready sound starts
    exact ⟨survey, .refl _ _, grips.elsewhere unreachable⟩
  | @skip path p b rest p' hq hb h ih =>
    have unreachable := starts.unreachable hq hb
    exact ih nested ready sound (starts_of_unreachable unreachable) foreseen
      (grips.same rfl rfl rfl rfl) fun there => nomatch unreachable.symm.trans there
  | @place path p b rest p₁ p' hq hb h₁ h₂ ih₁ ih₂ =>
    obtain ⟨first, unreachable⟩ := continues_of_lays h₁ ready sound trivial
    have behind : (Job.drain path).Starts p₁.state := starts_of_unreachable unreachable
    have second := (continues_of_lays h₂ first.ready first.slots behind).1
    have kept := (nests_of_lays hg h₂).placements
    have seed : ⟨b, path⟩ ∈ p₁.placements := (nests_of_lays hg h₁).seeds
    obtain ⟨survey₁, extended₁, grips₁⟩ := ih₁ (fun x hx => nested x (kept x hx)) ready sound
      trivial (second.foresees foreseen) (grips.same rfl rfl rfl rfl)
      fun there => given there b (by rw [hq]; rfl)
    obtain ⟨survey₂, extended₂, grips₂⟩ := ih₂ nested first.ready first.slots behind foreseen
      (grips₁ here) fun there => nomatch unreachable.symm.trans there
    refine ⟨survey₂, (extended₁.mono fun g le => le_trans ?_ le).trans extended₂, grips₂⟩
    rintro slot ⟨tag, htag, known⟩
    exact nested _ (kept _ seed) tag htag slot known
  | @plain path p b e edge s₁ s' enter hrange hstatements hends hk hedge =>
    have begun : Secures o (o.known b) here _ p.state _ := secures_beginBlock ready sound given
    have written := begun.trans (stays_placeStatements (le_refl _) _ _ _ hstatements
      begun.continues.ready begun.continues.slots)
    have placed := written.trans (secures_placeEdge hk (graph ▸ hends)
      (fun loop key value body next slot kind known owed =>
        fair owed b e edge loop key value body next slot (graph ▸ hends) kind known)
      written.continues.ready written.continues.slots hedge)
    obtain ⟨next, extended, grips⟩ := placed.bears foreseen survey grips
    exact ⟨next, extended, grips.elsewhere (unreachable_of_ends_placeEdge hk hedge)⟩
  | @guard path p b e edge body catches finally? next s₁ p₂ p₃ p₄ s₅ r fromBody fromCatches
      hrange hstatements hends hkind h₂ h₃ h₄ hescapes hr ih₂ ih₃ ih₄ =>
    have goes := guardGoes ready sound hstatements (continues_of_lays h₂) (continues_of_lays h₃)
      (continues_of_lays h₄) hescapes hr
    have ends : o.graph.EndsBlock b e edge := graph ▸ hends
    have most {t : BlockId} (target : t ∈ edge.kind.targets) : o.known t ≤ o.known b :=
      Outlook.known_le_of_target ends target fun subject target same => by
        rw [hkind] at same
        cases same
    rw [hkind] at most
    have mostCatches : ∀ clause ∈ catches, o.known clause.target ≤ o.known b := fun clause hc =>
      most (List.mem_cons_of_mem _ (List.mem_append_left _ (List.mem_append_left _
        (List.mem_map.mpr ⟨clause, hc, rfl⟩))))
    have mostFinally : ∀ handler ∈ finally?, o.known handler ≤ o.known b := fun handler hh =>
      most (by simp [EdgeKind.targets, Option.mem_def.mp hh])
    have behind := goes.escapes.trans goes.next
    have foreseen₄ := behind.foresees foreseen
    have foreseen₃ := goes.final.foresees foreseen₄
    have foreseen₂ := goes.pinBehind.foresees (goes.catches.foresees foreseen₃)
    have kept₃ := (nests_of_lays hg h₄).placements
    have kept₂ := (nests_of_lays hg h₃).placements
    -- The block in front of the `try`.
    have begun : Secures o (o.known b) here _ p.state _ := secures_beginBlock ready sound given
    have written := begun.trans (stays_placeStatements (le_refl _) _ _ _ hstatements
      begun.continues.ready begun.continues.slots)
    have head := written.trans (.pin written.continues.ready written.continues.slots)
    obtain ⟨survey₁, extended₁, grips₁⟩ :=
      head.bears (goes.body.foresees foreseen₂) survey grips
    -- The body.
    obtain ⟨survey₂, extended₂, grips₂⟩ := ih₂ (fun x hx => nested x (kept₃ x (kept₂ x hx)))
      goes.pin.ready goes.pin.slots trivial foreseen₂ grips₁ fun _ => most List.mem_cons_self
    have inner₂ := extended₂.mono (Q := (o.known b ≤ ·.slots)) fun g le slot known =>
      le slot ⟨_, List.mem_cons_self, known⟩
    obtain ⟨pinned, grips₂⟩ := (grips₂ here).pin (P := (o.known b ≤ ·.slots)) foreseen₂.fault
    -- The handlers.
    obtain ⟨survey₃, extended₃, grips₃⟩ := ih₃ (fun x hx => nested x (kept₃ x hx))
      goes.pinBehind.ready goes.pinBehind.slots goes.unreachable₂ foreseen₃ grips₂
      ⟨Nat.le_refl _, inner₂.keeps (Nat.le_refl _) (le_refl _), mostCatches⟩
    have inner₃ := (inner₂.trans pinned).trans extended₃
    obtain ⟨survey₄, extended₄, grips₄⟩ := ih₄ nested goes.catches.ready goes.catches.slots
      goes.unreachable₃ foreseen₄ (grips₃ here)
      ⟨inner₃.keeps (Nat.le_refl _) (le_refl _), mostFinally⟩
    -- Behind the `try` nothing is written.
    have escaped : Secures o (o.known b) here here _ _ :=
      stays_enqueueEscapes _ _ _ _ hescapes goes.final.ready goes.final.slots
    have tail := escaped.trans (secures_accept goes.escapes.ready goes.escapes.slots next r)
    obtain ⟨survey₅, extended₅, grips₅⟩ := tail.bears foreseen survey₄ (grips₄ here)
    refine ⟨survey₅, ((extended₁.trans inner₃).trans extended₄).trans extended₅,
      grips₅.elsewhere ?_⟩
    exact (congrArg (fun d : Draft => d.asm.reachable) goes.same).trans goes.unreachable₄
  | @enter path p seed p₁ hseed h ih =>
    have drained := ih nested ready sound (starts_openScope hseed)
      ⟨foreseen.fault, foreseen.slots, foreseen.enumerators⟩
      (grips.same rfl rfl rfl rfl)
      (fun there b mem => by
        obtain rfl := Option.some.inj mem
        exact given there)
    obtain ⟨next, extended, grips⟩ := drained
    exact ⟨next, extended, fun g => (grips g).same rfl rfl rfl rfl⟩
  | noCatch => exact ⟨survey, .refl _ _, grips.elsewhere starts⟩
  | @«catch» source path tryStart tryEnd past clause rest p s₁ p₂ p' escapes others hbind h₁ h₂ ih₁
      ih₂ =>
    have goes := catchGoes ready sound starts hbind (continues_of_lays h₁)
    obtain ⟨le, keeps, most⟩ := given
    let region := (⟨.catch clause.type, tryStart, tryEnd, p.state.asm.offset, ·⟩ : Nat → Region)
    have behind := goes.behind region
    have others := (continues_of_lays h₂ behind.ready behind.slots goes.unreachable).1
    have foreseen₂ := behind.foresees (others.foresees foreseen)
    have kept := (nests_of_lays hg h₂).placements
    obtain ⟨survey₁, extended₁, grips₁⟩ := grips.handler (o.known source) region starts
      (fun _ => rfl) (fun _ => Nat.le_trans le grips.surveyed.sound.pinned_le)
      (fun _ => keeps) foreseen₂ (goes.bound.trans goes.handler) fun survey₀ grips₀ => by
        have bound : Secures o (o.known source) (.stored (o.known source)) _ _ s₁ :=
          Stays.write (emits_bindCaught clause) (le_refl _) _ _ _ hbind goes.head.ready
            goes.head.slots
        obtain ⟨survey₁, extended₁, grips₁⟩ :=
          bound.bears (goes.handler.foresees foreseen₂) survey₀ grips₀
        obtain ⟨survey₂, extended₂, grips₂⟩ := ih₁ (fun x hx => nested x (kept x hx))
          goes.bound.ready goes.bound.slots trivial foreseen₂ grips₁
          fun _ => most clause List.mem_cons_self
        exact ⟨survey₂, extended₁.trans (extended₂.mono fun g le slot known =>
          le slot ⟨_, List.mem_cons_self, known⟩), grips₂⟩
    obtain ⟨survey₂, extended₂, grips₂⟩ := ih₂ nested behind.ready behind.slots goes.unreachable
      foreseen (grips₁ here) ⟨Nat.le_trans le extended₁.pinned_le, keeps.extend le extended₁,
        fun c hc => most c (List.mem_cons_of_mem _ hc)⟩
    exact ⟨survey₂, extended₁.trans extended₂, grips₂⟩
  | noFinally => exact ⟨survey, .refl _ _, grips.elsewhere starts⟩
  | @«finally» source path tryStart handler next p p₁ escapes h₁ ih =>
    have goes := finallyGoes ready sound starts (continues_of_lays h₁)
    obtain ⟨keeps, most⟩ := given
    have foreseen₁ := (goes.behind _).foresees foreseen
    refine grips.handler _ _ starts (fun _ => rfl) (fun _ => Nat.le_refl _) (fun _ => keeps)
      foreseen₁ goes.handler fun survey₀ grips₀ => ?_
    obtain ⟨survey₁, extended₁, grips₁⟩ := ih nested goes.head.ready goes.head.slots trivial
      foreseen₁ grips₀ fun _ => most handler rfl
    exact ⟨survey₁, extended₁.mono fun g le slot known => le slot ⟨_, List.mem_cons_self, known⟩,
      grips₁⟩

/-- The result is loaded from its slot, which is that of no loop. -/
theorem hasLocal_resultLoad {asm : Assembler} :
    asm.resultLoad.isPlain = true ∧ ∀ id, asm.resultLoad.local? = some id → asm.HasLocal id := by
  obtain ⟨id, slot, -, found, there, role⟩ | ⟨-, none, -⟩ := Slots.result_cases asm.slots
  · rw [Assembler.resultLoad, found]
    refine ⟨rfl, fun k same => ?_⟩
    cases same
    exact ⟨slot, there, by rw [role]; decide⟩
  · rw [Assembler.resultLoad, none]
    exact ⟨rfl, by rintro _ ⟨⟩⟩

/-- The exit block pushes the result, and returns it. -/
theorem ExitPlaced.secures (h : ExitPlaced env s s') (ready : s.Ready) (sound : s.asm.slots.Sound)
    (unreachable : s.asm.reachable = false) :
    Secures o (fun _ => False) here (.stored (o.known Graph.exit)) s s' := by
  obtain ⟨s₁, statements, rfl⟩ := h.placed
  have begun : Secures o (fun _ => False) here (.stored (o.known Graph.exit)) s _ :=
    secures_beginBlock ready sound fun there => by
      rw [unreachable] at there
      cases there
  have none : (fun _ => False) ≤ o.known Graph.exit := fun _ => False.elim
  have written := begun.trans (stays_placeStatements none _ _ _ statements begun.continues.ready
    begun.continues.slots)
  have loaded := written.trans (.scribes (d := ⟨s₁.asm.emit s₁.asm.resultLoad, s₁.draft.nextSite⟩)
    written.continues.ready written.continues.slots
    (.single (.emit hasLocal_resultLoad.1 hasLocal_resultLoad.2)) none)
  exact loaded.trans (.emit (i := .return) loaded.continues.ready loaded.continues.slots rfl trivial
    none)

/-- **A loop whose start dominates its advance** has got its enumerator there. -/
theorem Outlook.fair (hg : o.graph.Built) (owed : o.owed → o.graph.EntersLoops) : o.Fair := by
  intro owes b e edge loop key value body next slot ends kind lookup
  obtain rfl := ends.source hg
  have fits := hg.fits ends.2
  rw [kind] at fits
  obtain ⟨origin, subject, start⟩ := fits
  refine Graph.not_lacks_of_dominates hg start lookup (fun same => ?_)
    (owed owes edge (Array.mem_of_getElem? ends.2) loop (by rw [kind]; rfl) _ start)
  obtain ⟨-, other⟩ := ends.unique ⟨same ▸ hg.source start, start⟩
  rw [other] at kind
  cases kind

/-- **A whole layout bears out** what is known of the enumerators, if nothing is known at its
start. -/
theorem exists_grips_of_ends_placeAll {draft : Draft} (hg : env.graph.Built)
    (checks : Assembler.Scribes 0 .empty draft.asm) (h : Ends (placeAll env) (.start draft) () s')
    (hf : s'.asm.fault = none) :
    ∃ survey : Survey Grip, survey.entry 0 (.stored fun _ => False) ∧
      s'.Grips ⟨env.graph, s'.enumerators, s'.asm.slots, env.graph.EntersLoops⟩ survey
        (.stored fun _ => False) := by
  let o : Outlook := ⟨env.graph, s'.enumerators, s'.asm.slots, env.graph.EntersLoops⟩
  have foreseen : o.Foresees s' := ⟨hf, .refl _, fun _ _ => id⟩
  obtain ⟨p, laid, last⟩ := lays_of_ends_placeAll h
  obtain ⟨ready, sound, starts⟩ := begins_start checks.evolves
  obtain ⟨placed, unreachable⟩ := continues_of_lays laid ready sound starts
  have behind : Continues p.state s' := by
    split at last
    · exact (last.continues placed.ready placed.slots).1
    · rw [last]
      exact .refl placed.ready placed.slots
  have foreseen₁ := behind.foresees foreseen
  -- What comes in front of the layout is straight code.
  let first : Survey Grip :=
    ⟨fun _ => none, fun _ => none, fun n g => n = 0 ∧ g = .stored fun _ => False⟩
  have empty :
      (LayoutState.start ⟨.empty, draft.nextSite⟩).Grips o first (.stored fun _ => False) :=
    ⟨Assembler.surveyed_empty, fun _ _ => rfl, nofun, nofun, nofun⟩
  have checked : Secures o (fun _ => False) (.stored fun _ => False) (.stored fun _ => False)
      (.start ⟨.empty, draft.nextSite⟩) (.start draft) :=
    .scribes (begins_start (.refl _)).1 (begins_start (.refl _)).2.1 checks (le_refl _)
  obtain ⟨survey₀, extended₀, grips₀⟩ := checked.bears (placed.foresees foreseen₁) first empty
  obtain ⟨survey₁, extended₁, grips₁⟩ := grips_of_lays laid hg rfl (Outlook.fair hg id)
    (fun x hx tag htag slot known lacks =>
      known (lacks_of_path hg checks.evolves laid hx htag lacks))
    ready sound starts foreseen₁ grips₀ fun _ b hb slot known => by
      obtain rfl := Option.some.inj hb
      exact (known .start).elim
  have entry := extended₁.entry _ _ (extended₀.entry 0 _ ⟨rfl, rfl⟩)
  split at last
  · have exit : Secures o (fun _ => False) (.stored fun _ => False) _ p.state s' :=
      last.secures placed.ready placed.slots unreachable
    obtain ⟨survey₂, extended₂, grips₂⟩ := exit.bears foreseen survey₁ (grips₁ _)
    refine ⟨survey₂, extended₂.entry _ _ entry, grips₂.elsewhere ?_ _⟩
    exact (last.continues placed.ready placed.slots).2.1
  · refine ⟨survey₁, entry, ?_⟩
    show s'.Grips o survey₁ _
    rw [last]
    exact grips₁ _

end Whole

end StackScript
