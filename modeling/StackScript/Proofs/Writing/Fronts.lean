import StackScript.Proofs.Writing.Members
import StackScript.Proofs.Writing.Surveys

/-!
# What is known in front of the instructions of a body

While code is written, it is noted what is known of the values on the stack, in front of each
instruction and at each label. The notes are a survey of the code in which every label is for
something. Besides, also an instruction to which control never comes may stand where it stands.

## Main definitions

* `Fine`: an instruction that may stand where something is known
* `shapes`: the analysis of the values on the stack
* `Notes`: what is known in front of the instructions, and at the labels
* `Assembler.Holds`: the code so far bears the notes out

## Main results

* `Written.takes`: code that is written bears out the notes that are taken on the way
-/

namespace StackScript

open Emit

variable {a : Shape} {i : Instruction} {item : WorkItem} {table : Table}

/-- An instruction may stand where something is known: the values that it takes are there, and if it
refers to something, they are those that are asked for. -/
structure Fine (table : Table) (item : WorkItem) (a : Shape) (i : Instruction) : Prop where
  admits : i.refers = true → Admits table item a.cells i
  pops : i.pops ≤ a.cells.length
  clears : i.clears = true → a.cells = []
  /-- Behind the values of a call through a site is the context. -/
  site : ∀ shape ∈ i.site?, a.cells[shape.pushedCount]? = some .context

/-- An instruction that refers to nothing, does not clear the stack, and is no call site. -/
theorem Fine.plain (refers : i.refers = false) (clears : i.clears = false) (site : i.site? = none)
    (pops : i.pops ≤ a.cells.length) : Fine table item a i where
  admits h := absurd (refers.symm.trans h) Bool.false_ne_true
  pops := pops
  clears h := absurd (clears.symm.trans h) Bool.false_ne_true
  site shape own := by cases site.symm.trans own

/-- A branch may stand where it stands whatever its target is. -/
theorem Fine.withTarget {kind : BranchKind} (h : Fine table item a (kind.instruction 0)) (t : Nat) :
    Fine table item a (kind.instruction t) := by
  obtain ⟨-, pops, clears, -⟩ := h
  cases kind <;> exact ⟨nofun, pops, clears, nofun⟩

/-- What is known of the values on the stack, and of the stores to static fields. -/
def shapes (table : Table) (item : WorkItem) : Analysis Shape where
  after := Instruction.after
  Allows := Fine table item
  Fits := Shape.Fits
  refl := .refl
  trans := .trans
  jump _ := .refl
  target kind t a := ⟨by cases kind <;> rfl, fun fine => fine.withTarget t⟩

/-- What is known in the code of a body. -/
structure Notes where
  /-- In front of the instructions, if control comes there. -/
  front : Nat → Option Shape
  /-- At the labels, whether they have been put somewhere or not. -/
  goal : Label → Shape
  /-- Where else control may come from outside, and what is known of it. -/
  entry : Nat → Shape → Prop

namespace Notes

variable {labels : Nat}

/-- Notes in which something more is said: of labels from a number on, and of more entries. -/
structure Within (labels : Nat) (notes next : Notes) : Prop where
  goal : ∀ l < labels, next.goal l = notes.goal l
  entry : ∀ n a, notes.entry n a → next.entry n a

theorem Within.refl (notes : Notes) : notes.Within labels notes :=
  ⟨fun _ _ => rfl, fun _ _ => id⟩

theorem Within.trans {labels' : Nat} {notes notes₁ next : Notes} (h : notes.Within labels notes₁)
    (h' : notes₁.Within labels' next) (le : labels ≤ labels') : notes.Within labels next where
  goal l lt := (h'.goal l (Nat.lt_of_lt_of_le lt le)).trans (h.goal l lt)
  entry n a known := h'.entry n a (h.entry n a known)

/-- A note in front of an instruction. -/
def noteFront (notes : Notes) (n : Nat) (a? : Option Shape) : Notes :=
  { notes with front := fun k => if k = n then a? else notes.front k }

/-- A note for a label. -/
def noteGoal (notes : Notes) (l : Label) (a : Shape) : Notes :=
  { notes with goal := fun k => if k = l then a else notes.goal k }

/-- A note of an entry. -/
def noteEntry (notes : Notes) (n : Nat) (a : Shape) : Notes :=
  { notes with entry := fun k b => notes.entry k b ∨ k = n ∧ b = a }

/-- The notes are a survey. -/
def survey (notes : Notes) : Survey Shape := ⟨notes.front, fun l => some (notes.goal l), notes.entry⟩

end Notes

namespace Assembler

variable {table : Table} {item : WorkItem} {asm asm' : Assembler} {notes notes' : Notes}
  {here a b : Shape} {i : Instruction} {l k : Label} {n : Nat}

/-- **The code so far bears the notes out.** -/
structure Holds (table : Table) (item : WorkItem) (asm : Assembler) (notes : Notes)
    (here : Shape) : Prop where
  surveyed : asm.Surveyed (shapes table item) notes.survey here
  /-- Also an instruction to which control never comes may stand where it stands. -/
  fine : ∀ n i, asm.code[n]? = some i →
    ∃ a, Fine table item a i ∧ ∀ b, notes.front n = some b → b = a

/-- Slots have nothing to do with branches and labels. -/
theorem Sound.withSlots (h : asm.Sound) {slots : Slots} : ({ asm with slots } : Assembler).Sound :=
  ⟨h.ordered, h.waiting, h.branches, h.pinned_le, h.placed⟩

/-- The notes with one of an instruction that is written now. -/
def noteHere (asm : Assembler) (notes : Notes) (here : Shape) : Notes :=
  notes.noteFront asm.code.size (if asm.reachable = true then some here else none)

namespace Holds

theorem sound (h : asm.Holds table item notes here) : asm.Sound := h.surveyed.sound

/-! ## Steps that write no instruction -/

/-- What matters of the code stays as it was. -/
theorem same (h : asm.Holds table item notes here) (sound : asm'.Sound)
    (code : asm'.code = asm.code) (reachable : asm'.reachable = asm.reachable)
    (fixups : asm'.fixups = asm.fixups) (label : ∀ l, asm'.label l = asm.label l)
    (pinned : asm.pinned ≤ asm'.pinned) : asm'.Holds table item notes here :=
  ⟨h.surveyed.same sound code reachable fixups label pinned, code ▸ h.fine⟩

/-- Less may be known of the place that the code has come to; anything, if control does not come
there. -/
theorem forget (h : asm.Holds table item notes a) (fits : asm.reachable = true → a.Fits b) :
    asm.Holds table item notes b :=
  ⟨h.surveyed.forget fits, h.fine⟩

/-- A new label may be for anything. -/
theorem defineLabel (h : asm.Holds table item notes here) (hf : asm.fault = none) (goal : Shape) :
    asm.defineLabel.2.Holds table item (notes.noteGoal asm.labels.size goal) here := by
  refine ⟨(h.surveyed.goals fun l lt a known => ?_).same (Write.defineLabel.sound h.sound hf) rfl rfl
    rfl (fun _ => label_defineLabel) (Nat.le_refl _), h.fine⟩
  rw [← known]
  exact congrArg some (if_neg (Nat.ne_of_lt lt))

/-- A place where control comes from outside only. -/
theorem beginHandler (h : asm.Holds table item notes here) (hf : asm.fault = none)
    (unreachable : asm.reachable = false) (pinned : asm.pinned = asm.code.size) (depth : Nat)
    (a : Shape) :
    (asm.beginHandler depth).Holds table item (notes.noteEntry asm.code.size a) a :=
  ⟨h.surveyed.beginHandler hf unreachable pinned depth a, h.fine⟩

/-! ## Labels -/

/-- A label that is put at the end of the code. -/
theorem mark (h : asm.Holds table item notes here) (hl : l < asm.labels.size)
    (hf : (asm.mark l).fault = none) (fits : asm.reachable = true → here.Fits (notes.goal l)) :
    (asm.mark l).Holds table item notes (notes.goal l) :=
  ⟨h.surveyed.mark hl hf rfl fits, by rw [code_mark]; exact h.fine⟩

/-- A jump that is taken back because its label comes next. -/
theorem elide (h : asm.Holds table item notes here)
    (fits : asm.reachable = true → here.Fits (notes.goal l)) :
    (asm.elide l).Holds table item notes (notes.goal l) := by
  refine ⟨h.surveyed.elide fits fun _ a known => .of_eq (Option.some.inj known).symm,
    fun n i hi => h.fine n i ?_⟩
  obtain same | ⟨t, code, fixups, hcode, -, -, same⟩ := elide_cases asm l
  · rwa [same] at hi
  · rw [same] at hi
    have lt : n < code.size := (Array.getElem?_eq_some_iff.mp hi).1
    rw [hcode, Array.getElem?_push, if_neg (Nat.ne_of_lt lt)]
    exact hi

/-! ## Instructions -/

/-- An instruction more may stand at the end of the code. -/
theorem fine_push (h : asm.Holds table item notes here) (code : asm'.code = asm.code.push i)
    (fine : Fine table item here i) : ∀ n j, asm'.code[n]? = some j →
      ∃ a, Fine table item a j ∧ ∀ b, (asm.noteHere notes here).front n = some b → b = a := by
  intro n j hj
  rw [code, Array.getElem?_push] at hj
  split at hj
  case isTrue last =>
    cases hj
    refine ⟨here, fine, fun b hb => ?_⟩
    simp only [noteHere, Notes.noteFront, last, if_true] at hb
    split at hb
    · exact (Option.some.inj hb).symm
    · cases hb
  case isFalse =>
    obtain ⟨a, fine, same⟩ := h.fine n j hj
    refine ⟨a, fine, fun b hb => same b (.trans ?_ hb)⟩
    exact (if_neg (Nat.ne_of_lt (Array.getElem?_eq_some_iff.mp hj).1)).symm

/-- An instruction that does not branch. -/
theorem emit (h : asm.Holds table item notes here) (ht : i.target? = none)
    (fine : Fine table item here i) :
    (asm.emit i).Holds table item (asm.noteHere notes here) (i.after here) :=
  ⟨h.surveyed.emit ht fun _ => fine, h.fine_push code_emit fine⟩

/-- A branch to a label for which not more is asked than is known. -/
theorem branch {kind : BranchKind} (h : asm.Holds table item notes here)
    (hl : l < asm.labels.size) (hf : (asm.branch kind l).fault = none)
    (pops : (kind.instruction 0).pops ≤ here.cells.length)
    (clears : kind = .leave → here.cells = [])
    (fits : asm.reachable = true → ((kind.instruction 0).after here).Fits (notes.goal l)) :
    (asm.branch kind l).Holds table item (asm.noteHere notes here)
      ((kind.instruction 0).after here) := by
  have fine : Fine table item here (kind.instruction 0) := by
    refine ⟨fun refers => ?_, pops, fun hc => clears ?_, fun shape own => ?_⟩
    · cases kind <;> cases refers
    · cases kind <;> first | rfl | cases hc
    · cases kind <;> cases own
  exact ⟨h.surveyed.branch hl hf rfl fits fun _ => fine, h.fine_push code_branch fine⟩

end Holds

/-- What is known stays so where only what is said of the front changes. -/
theorem within_noteHere (labels : Nat) : notes.Within labels (asm.noteHere notes here) :=
  ⟨fun _ _ => rfl, fun _ _ => id⟩

/-- New labels are not spoken of before. -/
theorem within_noteGoal {labels : Nat} (le : labels ≤ l) (goal : Shape) :
    notes.Within labels (notes.noteGoal l goal) :=
  ⟨fun _ lt => if_neg (Nat.ne_of_lt (Nat.lt_of_lt_of_le lt le)), fun _ _ => id⟩

/-- Writing in front of which `a` is known, and `b` behind it. -/
def Takes (table : Table) (item : WorkItem) (a b : Shape) (asm asm' : Assembler) : Prop :=
  asm'.fault = none → ∀ notes, asm.Holds table item notes a →
    ∃ next, notes.Within asm.labels.size next ∧ asm'.Holds table item next b

variable {c d : Assembler} {test : BranchKind}

/-- A branch that tests the last value. -/
theorem Holds.branchTest (h : asm.Holds table item notes (a.push .any))
    (ht : test = .ifTrue ∨ test = .ifFalse) (hl : l < asm.labels.size)
    (hf : (asm.branch test l).fault = none) (goal : notes.goal l = a) :
    (asm.branch test l).Holds table item (asm.noteHere notes (a.push .any)) a := by
  have after : (test.instruction 0).after (a.push .any) = a := by rcases ht with rfl | rfl <;> rfl
  have pops : (test.instruction 0).pops = 1 := by rcases ht with rfl | rfl <;> rfl
  have branched := h.branch hl hf (pops ▸ Nat.le_add_left 1 _)
    (by rcases ht with rfl | rfl <;> nofun) fun _ => by rw [after, goal]
  rwa [after] at branched

/-- A value from the code itself. -/
theorem Holds.loadBool (h : asm.Holds table item notes a) (value : Bool) :
    (asm.emit (.loadBool value)).Holds table item (asm.noteHere notes a) (a.push .any) :=
  h.emit rfl (.plain rfl rfl rfl (Nat.zero_le _))

/-- **Two operands, either of which may decide** and jump to a label behind them. -/
theorem takes_logical {decided : Bool}
    (left : Takes table item a (a.push .any) asm.defineLabel.2.defineLabel.2 c)
    (right : Takes table item a (a.push .any) (c.branch (.deciding decided) asm.labels.size) d)
    (levels : Levels asm.labels.size 1 asm.defineLabel.2.defineLabel.2 c)
    (levels' : Levels c.labels.size 1 (c.branch (.deciding decided) asm.labels.size) d) :
    Takes table item a (a.push .any) asm (d.conclude decided asm.labels.size) := by
  intro hf notes holds
  -- The labels of the operator are there from the start on, and no stage has a fault.
  have size : asm.labels.size + 2 ≤ c.labels.size := by
    simpa only [labels_defineLabel] using levels.labels_le
  have size' : c.labels.size ≤ d.labels.size := by
    simpa only [labels_branch] using levels'.labels_le
  have done_lt : asm.labels.size + 1 < d.labels.size := by omega
  have short_lt : asm.labels.size < d.labels.size := by omega
  have short_lt' : asm.labels.size < c.labels.size := by omega
  have hf₆ := (fault_emit (fault_mark hf).1).1
  have hf₅ := (fault_mark hf₆).1
  have hf₄ := (fault_branch hf₅).1
  have hf₃ := (fault_emit hf₄).1
  have hd := (fault_branch hf₃).1
  have hf₂ := levels'.fault hd
  have hc := (fault_branch hf₂).1
  have hf₀ : asm.fault = none := levels.fault hc
  have labelled := (holds.defineLabel hf₀ a).defineLabel hf₀ (a.push .any)
  have within₀ : notes.Within asm.labels.size
      ((notes.noteGoal asm.labels.size a).noteGoal (asm.labels.size + 1) (a.push .any)) :=
    (within_noteGoal (Nat.le_refl _) a).trans (within_noteGoal (Nat.le_succ _) _) (Nat.le_refl _)
  rw [labels_defineLabel] at labelled
  obtain ⟨notes₁, within₁, holds₁⟩ := left hc _ labelled
  rw [labels_defineLabel, labels_defineLabel] at within₁
  have goal₁ : notes₁.goal asm.labels.size = a := by
    rw [within₁.goal _ (by omega)]
    exact (if_neg (Nat.ne_of_lt (Nat.lt_succ_self _))).trans (if_pos rfl)
  have goal₁' : notes₁.goal (asm.labels.size + 1) = a.push .any := by
    rw [within₁.goal _ (by omega)]
    exact if_pos rfl
  obtain ⟨notes₂, within₂, holds₂⟩ :=
    right hd _ (holds₁.branchTest BranchKind.deciding_cases short_lt' hf₂ goal₁)
  rw [labels_branch] at within₂
  have goal₂ : notes₂.goal asm.labels.size = a := (within₂.goal _ (by omega)).trans goal₁
  have goal₂' : notes₂.goal (asm.labels.size + 1) = a.push .any :=
    (within₂.goal _ (by omega)).trans goal₁'
  have holds₃ := (holds₂.branchTest BranchKind.deciding_cases short_lt hf₃ goal₂).loadBool !decided
  have holds₄ := holds₃.branch (l := asm.labels.size + 1)
    (by rwa [labels_emit, labels_branch]) hf₅ (Nat.zero_le _) nofun fun _ => .of_eq goal₂'.symm
  -- Behind the jump control comes from the tests only.
  have holds₅ := holds₄.mark (l := asm.labels.size)
    (by rwa [labels_branch, labels_emit, labels_branch]) hf₆ fun there => by
      rw [reachable_branch, Bool.and_comm] at there
      cases there
  have holds₆ := (holds₅.forget fun _ => .of_eq goal₂).loadBool decided
  have holds₇ := holds₆.mark (l := asm.labels.size + 1)
    (by rwa [labels_emit, labels_mark, labels_branch, labels_emit, labels_branch]) hf
    fun _ => .of_eq goal₂'.symm
  refine ⟨_, ?_, holds₇.forget fun _ => .of_eq goal₂'⟩
  exact within₀.trans (within₁.trans ⟨within₂.goal, within₂.entry⟩ (by omega)) (by omega)

/-- **Code that is skipped** if a value is false. -/
theorem takes_skip
    (test : Takes table item a (a.push .any) asm.defineLabel.2 c)
    (code : Takes table item a a (c.branch .ifFalse asm.labels.size) d)
    (levels : Levels asm.labels.size 1 asm.defineLabel.2 c)
    (levels' : Levels c.labels.size 0 (c.branch .ifFalse asm.labels.size) d) :
    Takes table item a a asm (d.mark asm.labels.size) := by
  intro hf notes holds
  have size : asm.labels.size + 1 ≤ c.labels.size := by
    simpa only [labels_defineLabel] using levels.labels_le
  have size' : c.labels.size ≤ d.labels.size := by
    simpa only [labels_branch] using levels'.labels_le
  have skip_lt : asm.labels.size < d.labels.size := by omega
  have hd := (fault_mark hf).1
  have hf₂ := levels'.fault hd
  have hc := (fault_branch hf₂).1
  obtain ⟨notes₁, within₁, holds₁⟩ := test hc _ (holds.defineLabel (levels.fault hc) a)
  rw [labels_defineLabel] at within₁
  have goal₁ : notes₁.goal asm.labels.size = a :=
    (within₁.goal _ (Nat.lt_succ_self _)).trans (if_pos rfl)
  obtain ⟨notes₂, within₂, holds₂⟩ :=
    code hd _ (holds₁.branchTest (.inr rfl) size hf₂ goal₁)
  rw [labels_branch] at within₂
  have goal₂ : notes₂.goal asm.labels.size = a := (within₂.goal _ (by omega)).trans goal₁
  have holds₃ := holds₂.mark (l := asm.labels.size) skip_lt hf fun _ => .of_eq goal₂.symm
  refine ⟨_, ?_, holds₃.forget fun _ => .of_eq goal₂⟩
  exact (within_noteGoal (Nat.le_refl _) a).trans
    (within₁.trans ⟨within₂.goal, within₂.entry⟩ (by omega)) (Nat.le_succ _)

end Assembler

open Assembler

/-- An instruction that a body may have does not clear the stack. -/
theorem Admits.clears_eq_false {cells : List Operand} (h : Admits table item cells i) :
    i.clears = false := by
  cases h with
  | inward h => cases i <;> first | rfl | cases h
  | @static _ _ entry _ store =>
    unfold staticAccess
    split <;> rfl
  | function | method | base | conditionalBase | initializer | create | conditionalCreate
  | sharedStore | boundStore => rfl

/-- In front of a call through a site its values are on the stack, and the context behind them. -/
theorem Fine.callSite {shape : SiteShape} {n : Nat} (pushed : shape.pushedCount = n) :
    Fine table item (a.pushCall n) (.callSite shape) where
  admits := nofun
  pops := by simp [Instruction.pops, pushed, Shape.pushCall, Shape.pushMany]
  clears := nofun
  site shape' own := by
    cases own
    simp [pushed, Shape.pushCall, Shape.pushMany]

/-- **Code that is written bears out** the notes that are taken on the way. -/
theorem Written.takes {env : BodyEnv} {b : Shape} {α : Type} {step : Emit α}
    (h : Written env item a b step) {d d' : Draft} {x : α} (ends : Ends step d x d') :
    Takes env.table item a b d.asm d'.asm := by
  -- The notes grow with the code: each step has its own from those of the steps before it.
  induction h generalizing d d' with
  | pure =>
    obtain ⟨-, rfl⟩ := ends_pure.mp ends
    exact fun _ notes holds => ⟨notes, .refl _, holds⟩
  | throw => exact (not_ends_throw ends).elim
  | bind first second ih ih' =>
    obtain ⟨y, d₁, ends₁, ends₂⟩ := ends_bind.mp ends
    intro hf notes holds
    obtain ⟨notes₁, within₁, holds₁⟩ := ih ends₁ (((second y).levels ends₂).fault hf) notes holds
    obtain ⟨notes₂, within₂, holds₂⟩ := ih' y ends₂ hf notes₁ holds₁
    exact ⟨notes₂, within₁.trans within₂ (first.levels ends₁).labels_le, holds₂⟩
  | forget _ fits ih =>
    intro hf notes holds
    obtain ⟨next, within, holds⟩ := ih ends hf notes holds
    exact ⟨next, within, holds.forget fun _ => fits⟩
  | emit admits ht pops =>
    rw [ends_emit.mp ends]
    have fine : Fine env.table item _ _ := ⟨fun _ => admits, pops, fun clears =>
      absurd (admits.clears_eq_false.symm.trans clears) Bool.false_ne_true, fun _ own => by
      cases admits.site?_eq_none.symm.trans own⟩
    exact fun _ notes holds => ⟨_, within_noteHere _, holds.emit ht fine⟩
  | @site a call operands ih =>
    obtain ⟨d₁, ends₁, rfl⟩ := parts_of_ends_lateCall ends
    intro hf notes holds
    obtain ⟨next, within, pushed⟩ := ih ends₁ (fault_emit hf).1 notes holds
    have called := pushed.emit (i := .callSite ⟨d₁.nextSite, call.selector, call.shapes⟩) rfl
      (.callSite rfl)
    exact ⟨d₁.asm.noteHere next (a.pushCall call.shapes.length),
      within.trans (within_noteHere _) (Nat.le_refl _),
      called.forget fun _ => .of_eq (Shape.taken _ _ 2)⟩
  | slot =>
    obtain ⟨-, rfl⟩ := ends_withSlots.mp ends
    exact fun _ notes holds => ⟨notes, .refl _, holds.same holds.sound.withSlots rfl rfl rfl
      (fun _ => rfl) (Nat.le_refl _)⟩
  | release =>
    rw [ends_release.mp ends]
    exact fun _ notes holds => ⟨notes, .refl _, holds.same holds.sound.withSlots rfl rfl rfl
      (fun _ => rfl) (Nat.le_refl _)⟩
  | sequencePoint =>
    rw [ends_onAssembler.mp ends]
    exact fun hf notes holds => ⟨notes, .refl _, holds.same
      (Write.sequencePoint.sound holds.sound hf) rfl rfl rfl (fun _ => rfl) holds.sound.pinned_le⟩
  | @logical a decidedBy _ _ left right ihl ihr =>
    obtain ⟨d₁, d₂, hleft, hright, rfl⟩ := parts_of_ends_lowerLogical ends
    have levels : Levels d.asm.labels.size 1 d.asm.defineLabel.2.defineLabel.2 d₁.asm :=
      ((left.levels hleft).cast (a.length_push _)).weaken
        (by simp only [Assembler.labels_defineLabel]; omega)
    have levels' : Levels d₁.asm.labels.size 1
        (d₁.asm.branch (.deciding decidedBy) d.asm.labels.size) d₂.asm :=
      ((right.levels hright).cast (a.length_push _)).weaken (by simp)
    dsimp only
    exact takes_logical (ihl hleft) (ihr hright) levels levels'
  | @skip a _ _ test code iht ihc =>
    obtain ⟨d₁, d₂, htest, hcode, rfl⟩ := parts_of_ends_skipUnless ends
    have levels : Levels d.asm.labels.size 1 d.asm.defineLabel.2 d₁.asm :=
      ((test.levels htest).cast (a.length_push _)).weaken (by simp)
    have levels' : Levels d₁.asm.labels.size 0 (d₁.asm.branch .ifFalse d.asm.labels.size) d₂.asm :=
      ((code.levels hcode).cast (Int.sub_self _)).weaken (by simp)
    exact takes_skip (iht htest) (ihc hcode) levels levels'

end StackScript
