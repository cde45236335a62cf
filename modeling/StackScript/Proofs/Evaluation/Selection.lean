import StackScript.Proofs.Evaluation.Switches
import StackScript.Proofs.Value.Comparison

/-!
# Which case a switch takes

A case is taken if no case in front of it is, and if its value is loosely equal to the subject. So a
case with a value identical to the subject is taken unless a text in the subject spells a NaN, and a
switch over integers takes the first case whose label is rounded to the same number as the subject.

## Main definitions

* `CaseParts`: what is evaluated around one of the cases of a switch
* `integerCases`, `integerTarget`: a switch over integers, and where it goes on

## Main results

* `takes_identical`: which cases with identical values are taken
* `takes_rounded`: which case of a switch over integers is taken
-/

namespace StackScript

open Emit Arrange

/-! ## A case among others -/

/-- What is evaluated around one of the cases of a switch, in order. -/
structure CaseParts (σ : Type) where
  subject : Eval σ Slot
  before : List (Eval σ Slot × BlockId)
  value : Eval σ Slot
  behind : List (Eval σ Slot × BlockId)

section Parts

variable {σ : Type} (world : World σ) (env : BodyEnv)

/-- The parts of a switch around a case with a value. -/
def caseParts (subject : Expr) (before : List SwitchCase) (value : Expr)
    (behind : List SwitchCase) : Numbered (CaseParts σ) := do
  let subject ← subject.meaning world env
  let before ← meaningCases world env before
  let value ← value.meaning world env
  let behind ← meaningCases world env behind
  return { subject, before, value, behind }

/-- A switch comes to a case behind those in front of it that are not taken. -/
theorem outcome_switchMeaning {subject value : Expr} {before behind : List SwitchCase}
    (target next : BlockId) {n : SiteId} {x y : Slot} {vars vars₁ vars₂ vars₃ : Vars}
    {s s₁ s₂ s₃ : σ} {parts : CaseParts σ}
    (hparts : parts = ((caseParts world env subject before value behind).runFrom n).1)
    (hx : parts.subject.outcome vars s = some (.ok x, vars₁, s₁))
    (hbefore : (Eval.pick x.toValue parts.before).outcome vars₁ s₁ = some (.ok none, vars₂, s₂))
    (hy : parts.value.outcome vars₂ s₂ = some (.ok y, vars₃, s₃)) :
    let cases := before ++ ⟨some value, target⟩ :: behind
    ((switchMeaning world env subject cases next).runFrom n).1.outcome vars s =
      if x.toValue.looselyEqual y.toValue then some (.ok target, vars₃, s₃)
      else (Eval.pickOr ((defaultTarget? cases).getD next) x.toValue parts.behind).outcome
        vars₃ s₃ := by
  intro cases
  let first := (subject.meaning world env).runFrom n
  have hx : first.1.outcome vars s = some (.ok x, vars₁, s₁) := by rwa [hparts] at hx
  have hcases : ((meaningCases world env cases).runFrom first.2).1 =
      parts.before ++ (parts.value, target) :: parts.behind := by
    rw [hparts, meaningCases_append]
    rfl
  rw [runFrom_switchMeaning]
  dsimp only
  rw [Eval.outcome_bind, hx]
  dsimp only
  rw [hcases, Eval.pickOr_append, Eval.outcome_bind, hbefore]
  dsimp only
  rw [Eval.pickOr_cons, Eval.outcome_bind, hy]
  dsimp only
  split <;> rfl

end Parts

/-! ## Identical values -/

section Identical

variable {σ : Type}

/-- **Identical values are loosely equal**, and a case with a value identical to the subject is
taken if no case in front of it is, both unless a text in the value spells a NaN. Where one does,
control goes on with the cases behind. -/
theorem takes_identical (c : Setting σ) {env : LayoutEnv} {scope : Scope} {subject value : Expr}
    {before behind : List SwitchCase} {target next : BlockId} {s s' : LayoutState}
    (code : c.HasSwitch env scope subject (before ++ ⟨some value, target⟩ :: behind) next s s')
    (arrives : s.asm.reachable = true) (f : Frame) (w : σ) (hpc : f.pc = s.asm.code.size)
    (hsize : f.locals.size = c.final.slots.slots.size) :
    let parts :=
      ((caseParts c.world env.body subject before value behind).runFrom s.draft.nextSite).1
    let default := defaultTarget? (before ++ ⟨some value, target⟩ :: behind)
    (∀ a b : Value, a.identical b = true → a.looselyEqual b = !a.spellsNaN) ∧
      ∀ (x y : Slot) (vars₁ vars₂ vars₃ : Vars) (w₁ w₂ w₃ : σ),
        parts.subject.outcome (f.vars c.final.slots) w = some (.ok x, vars₁, w₁) →
        (Eval.pick x.toValue parts.before).outcome vars₁ w₁ = some (.ok none, vars₂, w₂) →
        parts.value.outcome vars₂ w₂ = some (.ok y, vars₃, w₃) →
        x.toValue.identical y.toValue = true →
        Arrives c s.asm s'.asm.code.size f.stack (c.HeadsFor env.ranges scope s'.labels) f w
          (if x.toValue.spellsNaN then
            (Eval.pickOr (default.getD next) x.toValue parts.behind).outcome vars₃ w₃
          else some (.ok target, vars₃, w₃)) := by
  intro parts default
  refine ⟨fun a b same => Value.looselyEqual_of_identical same, ?_⟩
  intro x y vars₁ vars₂ vars₃ w₁ w₂ w₃ hx hbefore hy same
  have arrived := code.follows arrives hpc hsize w
  have taken := outcome_switchMeaning c.world env.body target next rfl hx hbefore hy
  rw [Value.looselyEqual_of_identical same] at taken
  rw [taken] at arrived
  cases nan : x.toValue.spellsNaN with
  | true =>
    rw [nan] at arrived
    exact arrived
  | false =>
    rw [nan] at arrived
    exact arrived

/-- Two cases with texts. -/
def textCases : List SwitchCase :=
  [⟨some (.literal (.string "b")), 2⟩, ⟨some (.literal (.string "a")), 3⟩]

/-- The steps that build a switch over the text of the second case. -/
def textSwitch : List BuildStep := [
  .addBlocks 2,
  .connect 0 (.switch (.literal (.string "a")) textCases 1),
  .connect 2 (.jump 1),
  .connect 3 (.jump 1)]

theorem takes_identical_text :
    ∃ (c : Setting Unit) (env : LayoutEnv) (scope : Scope) (s s' : LayoutState) (f : Frame),
      c.HasSwitch env scope (.literal (.string "a")) textCases 1 s s' ∧
      f.pc = s.asm.code.size ∧
      Arrives c s.asm s'.asm.code.size f.stack (c.HeadsFor env.ranges scope s'.labels) f ()
        (some (.ok 3, f.vars c.final.slots, ())) := by
  let graph : Graph := ⟨#[⟨0, [], some 0⟩, ⟨1, [], none⟩, ⟨2, [], some 1⟩, ⟨3, [], some 2⟩],
    #[⟨0, 0, .switch (.literal (.string "a")) textCases 1⟩, ⟨1, 2, .jump 1⟩, ⟨2, 3, .jump 1⟩]⟩
  have built : Graph.build textSwitch = .ok graph := by rfl
  have laid : (layOut .bare graph (.start 0)).1.isOk = true := by decide +kernel
  obtain ⟨c, scope, s, s', f, -, code, arrives, hpc, hsize⟩ :=
    exists_frame_of_layOut (fun _ => pure .null : World Unit) built laid rfl rfl
  have among : c.HasSwitch ⟨.bare, graph, protectedRanges graph⟩ scope (.literal (.string "a"))
      ([⟨some (.literal (.string "b")), 2⟩] ++ ⟨some (.literal (.string "a")), 3⟩ :: []) 1 s s' :=
    code
  let a : Slot := .value (.string "a")
  let vars := f.vars c.final.slots
  have same : a.toValue.identical a.toValue = true := by decide +kernel
  have other : (Value.string "a").looselyEqual (.string "b") = false := by decide +kernel
  have passed : (Eval.pick (.string "a") [(pure (.value (.string "b")), 2)] : Eval Unit _) =
      pure none := by
    rw [Eval.pick, pure_bind, Slot.toValue, other]
    rfl
  have taken := (takes_identical c among arrives f () hpc hsize).2 a a vars vars vars () () () rfl
    (congrArg (·.outcome vars ()) passed) rfl same
  have plain : a.toValue.spellsNaN = false := by decide +kernel
  rw [plain] at taken
  exact ⟨c, _, scope, s, s', f, code, hpc, taken⟩

/-- A text that spells a NaN is identical to itself, and not loosely equal to itself. -/
theorem exists_identical_unequal :
    ∃ a b : Value, a.identical b = true ∧ a.looselyEqual b = false :=
  ⟨.string "nan", .string "nan", by decide +kernel, by decide +kernel⟩

end Identical

/-! ## Integers -/

/-- The cases of a switch over integers. A case without a label is the default. -/
def integerCases (labels : List (Option Int64 × BlockId)) : List SwitchCase :=
  labels.map fun (label, target) => ⟨label.map fun k => .literal (.long k), target⟩

/-- Where a switch over integers goes on: at the first label that passes a test, or at the default,
or behind the switch. -/
def integerTarget (labels : List (Option Int64 × BlockId)) (next : BlockId) (test : Int64 → Bool) :
    BlockId :=
  ((labels.find? fun label => label.1.any test).map (·.2)).getD
    ((defaultTarget? (integerCases labels)).getD next)

/-- Two integers are rounded to the same number. -/
def Number.roundsLike (a b : Int64) : Bool := decide (nearest a.toInt = nearest b.toInt)

section Integers

variable {σ : Type}

/-- The first label is taken that is rounded to the same number as the subject. -/
theorem pick_integerCases (world : World σ) (env : BodyEnv) (subject : Int64)
    (labels : List (Option Int64 × BlockId)) (n : SiteId) :
    Eval.pick (.long subject) ((meaningCases world env (integerCases labels)).runFrom n).1 =
      pure ((labels.find? fun label => label.1.any (Number.roundsLike subject)).map (·.2)) := by
  induction labels generalizing n with
  | nil => rfl
  | cons label labels ih =>
    obtain ⟨label | k, target⟩ := label
    · exact ih n
    · have first :
          ((meaningCases world env (integerCases ((some k, target) :: labels))).runFrom n).1 =
            (pure (.value (.long k)), target) ::
              ((meaningCases world env (integerCases labels)).runFrom n).1 := rfl
      rw [first, Eval.pick, pure_bind, Slot.toValue, Value.looselyEqual_long, ih, List.find?_cons,
        Option.any_some, Number.roundsLike]
      cases decide (Number.nearest subject.toInt = Number.nearest k.toInt) <;> rfl

/-- Two integers are rounded to the same number only if they are the same, where one of them has at
most 53 bits. -/
theorem Number.roundsLike_of_small {a b : Int64}
    (small : a.toInt.natAbs < 2 ^ 53 ∨ b.toInt.natAbs < 2 ^ 53) :
    Number.roundsLike a b = decide (a = b) := by
  rw [Number.roundsLike, Bool.eq_iff_iff, decide_eq_true_iff, decide_eq_true_iff,
    Number.nearest_eq_iff small, Int64.toInt_inj]

/-- **Integers are compared as the numbers that they are rounded to**, be it for equality or for
order, so a switch over integers takes the first case whose label is rounded to the same number as
the subject. Where one of the two has at most 53 bits, the comparison is exact; where the subject
has, the label that is taken is equal to it. -/
theorem takes_rounded (c : Setting σ) {env : LayoutEnv} {scope : Scope} {subject : Expr}
    {labels : List (Option Int64 × BlockId)} {next : BlockId} {s s' : LayoutState}
    (code : c.HasSwitch env scope subject (integerCases labels) next s s')
    (arrives : s.asm.reachable = true) (f : Frame) (w : σ) (hpc : f.pc = s.asm.code.size)
    (hsize : f.locals.size = c.final.slots.slots.size) :
    (∀ a b : Int64,
      (Value.long a).looselyEqual (.long b) = Number.roundsLike a b ∧
      BinaryOp.lt.apply (.long a) (.long b) =
        .bool (decide (Number.nearest a.toInt < Number.nearest b.toInt)) ∧
      BinaryOp.gt.apply (.long a) (.long b) =
        .bool (decide (Number.nearest b.toInt < Number.nearest a.toInt))) ∧
    (∀ a b : Int64, a.toInt.natAbs < 2 ^ 53 ∨ b.toInt.natAbs < 2 ^ 53 →
      (Value.long a).looselyEqual (.long b) = decide (a = b) ∧
      BinaryOp.lt.apply (.long a) (.long b) = .bool (decide (a < b)) ∧
      BinaryOp.gt.apply (.long a) (.long b) = .bool (decide (b < a))) ∧
    ∀ (x : Slot) (k : Int64) (vars : Vars) (w₁ : σ),
      ((subject.meaning c.world env.body).runFrom s.draft.nextSite).1.outcome
        (f.vars c.final.slots) w = some (.ok x, vars, w₁) →
      x.toValue = .long k →
      Arrives c s.asm s'.asm.code.size f.stack (c.HeadsFor env.ranges scope s'.labels) f w
        (some (.ok (integerTarget labels next (Number.roundsLike k)), vars, w₁)) ∧
      (k.toInt.natAbs < 2 ^ 53 →
        integerTarget labels next (Number.roundsLike k) =
          integerTarget labels next (decide <| k = ·)) := by
  have order {a b : Int64} (small : a.toInt.natAbs < 2 ^ 53 ∨ b.toInt.natAbs < 2 ^ 53) :
      Number.nearest a.toInt < Number.nearest b.toInt ↔ a < b :=
    (Number.nearest_lt_iff small).trans Int64.lt_iff_toInt_lt.symm
  refine ⟨fun a b => ⟨Value.looselyEqual_long a b, BinaryOp.apply_lt_long a b,
    BinaryOp.apply_gt_long a b⟩, fun a b small => ⟨?_, ?_, ?_⟩, fun x k vars w₁ hx long => ⟨?_, ?_⟩⟩
  · rw [Value.looselyEqual_long]
    exact Number.roundsLike_of_small small
  · rw [BinaryOp.apply_lt_long, decide_eq_decide.mpr (order small)]
  · rw [BinaryOp.apply_gt_long, decide_eq_decide.mpr (order small.symm)]
  · -- The switch tries the labels in turn by the comparison of values, which is that of the numbers
    -- that they are rounded to.
    have arrived := code.follows arrives hpc hsize w
    rw [runFrom_switchMeaning] at arrived
    dsimp only at arrived
    rw [Eval.outcome_bind, hx] at arrived
    dsimp only at arrived
    rw [long, Eval.pickOr, pick_integerCases, pure_bind] at arrived
    exact arrived
  · intro small
    have same : Number.roundsLike k = (decide <| k = ·) :=
      funext fun l => Number.roundsLike_of_small (.inl small)
    rw [same]

/-- The labels of a switch over integers, with a default between them. -/
def longLabels : List (Option Int64 × BlockId) := [(some 1, 2), (none, 3), (some 2, 4)]

/-- The steps that build a switch over an integer. -/
def longSwitch : List BuildStep := [
  .addBlocks 3,
  .connect 0 (.switch (.literal (.long 2)) (integerCases longLabels) 1),
  .connect 2 (.jump 1),
  .connect 3 (.jump 1),
  .connect 4 (.jump 1)]

theorem takes_rounded_long :
    ∃ (c : Setting Unit) (env : LayoutEnv) (scope : Scope) (s s' : LayoutState) (f : Frame),
      c.HasSwitch env scope (.literal (.long 2)) (integerCases longLabels) 1 s s' ∧
      f.pc = s.asm.code.size ∧
      (Value.long 2).looselyEqual (.long 1) = false ∧
      Arrives c s.asm s'.asm.code.size f.stack (c.HeadsFor env.ranges scope s'.labels) f ()
        (some (.ok 4, f.vars c.final.slots, ())) := by
  let graph : Graph := ⟨#[⟨0, [], some 0⟩, ⟨1, [], none⟩, ⟨2, [], some 1⟩, ⟨3, [], some 2⟩,
      ⟨4, [], some 3⟩],
    #[⟨0, 0, .switch (.literal (.long 2)) (integerCases longLabels) 1⟩, ⟨1, 2, .jump 1⟩, ⟨2, 3, .jump 1⟩,
      ⟨3, 4, .jump 1⟩]⟩
  have built : Graph.build longSwitch = .ok graph := by rfl
  have laid : (layOut .bare graph (.start 0)).1.isOk = true := by decide +kernel
  obtain ⟨c, scope, s, s', f, -, code, arrives, hpc, hsize⟩ :=
    exists_frame_of_layOut (fun _ => pure .null : World Unit) built laid rfl rfl
  obtain ⟨-, small, takes⟩ := takes_rounded c code arrives f () hpc hsize
  obtain ⟨taken, sameLabel⟩ := takes (.value (.long 2)) 2 (f.vars c.final.slots) () rfl rfl
  have target : integerTarget longLabels 1 (Number.roundsLike 2) = 4 :=
    (sameLabel (by decide)).trans (by decide)
  rw [target] at taken
  refine ⟨c, _, scope, s, s', f, code, hpc, ?_, taken⟩
  exact (small 2 1 (.inl (by decide))).1.trans (by decide)

/-- Two different integers may be loosely equal. -/
theorem exists_unequal_rounded :
    ∃ a b : Int64, a ≠ b ∧ (Value.long a).looselyEqual (.long b) = true :=
  ⟨9007199254740992, 9007199254740993, by decide, by decide +kernel⟩

end Integers

end StackScript
