import StackScript.Proofs.Evaluation.Operators
import StackScript.Proofs.Writing.Sites

/-!
# Expressions follow their meaning

The code of an expression follows the evaluator, by induction over the expression: its value for the
one way to write it, and its effect alone for the other.

## Main results

* `means_lower`: the code of every expression follows its meaning
* `comes_of_emitValue`: what a frame in front of the code of an expression comes to
-/

namespace StackScript

open Emit

/-! ## Parts of an expression -/

section Parts

variable {σ : Type} {world : World σ} {env : BodyEnv}

/-- What is made of the elements of one list in two ways is related if it is for each element. -/
theorem forall₂_map_same {α β γ : Type} {R : β → γ → Prop} {f : α → β} {g : α → γ} {l : List α}
    (h : ∀ a ∈ l, R (f a) (g a)) : List.Forall₂ R (l.map f) (l.map g) := by
  rw [List.forall₂_map_left_iff, List.forall₂_map_right_iff, List.forall₂_same]
  exact h

theorem meaningAll_eq (args : List Expr) :
    meaningAll world env args = Numbered.all (args.map (Expr.meaning world env)) := by
  induction args with
  | nil => rw [meaningAll, List.map_nil, Numbered.all]
  | cons arg rest ih => rw [meaningAll, ih, List.map_cons, Numbered.all]

theorem meaning_argument (arg : Argument) :
    arg.meaning world env = arg.value.meaning world env := by
  cases arg <;> rw [Argument.meaning] <;> rfl

theorem meaningArguments_eq (args : List Argument) :
    meaningArguments world env args =
      Numbered.all (args.map fun arg => arg.value.meaning world env) := by
  induction args with
  | nil => rw [meaningArguments, List.map_nil, Numbered.all]
  | cons arg rest ih => rw [meaningArguments, meaning_argument, ih, List.map_cons, Numbered.all]

theorem meaningEntries_eq (entries : List ArrayEntry) :
    meaningEntries world env entries = Numbered.all (entries.map (ArrayEntry.meaning world env)) := by
  induction entries with
  | nil => rw [meaningEntries, List.map_nil, Numbered.all]
  | cons entry rest ih => rw [meaningEntries, ih, List.map_cons, Numbered.all]

/-- The method that a call surely reaches is the same for the code and for the evaluator. -/
theorem directTarget?_eq (name : MethodName) (args : List Argument)
    (receiverType : Option QualifiedName) :
    directTarget? env (lowerName env name) (args.map (lowerArgument env)) receiverType =
      name.target? env args receiverType := by
  have plain : (args.map (lowerArgument env)).all (·.shape == .value) =
      args.all (!·.isUnpacked) := by
    rw [List.all_map]
    refine List.all_congr rfl fun arg => ?_
    cases arg <;> rw [Function.comp_apply, shape_lowerArgument] <;> rfl
  cases name with
  | computed value => rw [lowerName]; cases receiverType <;> rfl
  | direct name =>
    rw [lowerName]
    cases receiverType with
    | none => rfl
    | some type =>
      unfold directTarget? MethodName.target?
      dsimp only
      rw [plain]
      cases env.table.resolveMethod? type.text name with
      | none => rfl
      | some found => rw [Option.filter_some]

end Parts

variable {σ : Type} {c : Setting σ} {env : BodyEnv}

/-- **The code of every expression follows its meaning.** -/
theorem means_lower (e : Expr) : (lower env e).Means c (e.meaning c.world env) := by
  -- By the expression: each kind has its law from the laws of its parts.
  induction e using Expr.induction with
  | literal value =>
    rw [lower, Expr.meaning]
    exact means_ofValue fun pre => means_loadLiteral value
  | var name =>
    rw [lower, Expr.meaning]
    exact means_ofValue fun pre => means_loadVariable name
  | assign target value ih =>
    rw [lower, Expr.meaning]
    have stored (x : Slot) (pre : List Slot) :
        Means c (-1) (storeVariable env target) (x :: pre)
          (fun _ => Eval.writeVariable env target x) id fun _ => pre := means_storeVariable target
    refine ⟨fun pre => ?_, fun pre => ?_⟩
    · exact ((ih.value pre).bind fun _ x => means_dup.bind fun _ y =>
        (stored y (y :: pre)).map (fun _ => y) fun _ => rfl).cast rfl
    · exact ((ih.value pre).bind fun _ x => (stored x pre).map (fun _ => x) fun _ => rfl).cast rfl
  | binary op left right ihl ihr =>
    rw [lower, Expr.meaning]
    exact means_ofValue fun pre => means_lowerBinary ihl.value ihr.value
  | unary op operand ih =>
    rw [lower, Expr.meaning]
    exact means_ofValue fun pre => means_lowerUnary ih.value
  | call function args ih =>
    rw [lower, Expr.meaning, lowerAll_eq, meaningAll_eq]
    exact means_ofValue fun pre => means_lowerCall (forall₂_map_same ih)
  | methodCall receiver name args receiverType ihr ihn iha =>
    rw [lower, lowerArguments_eq, Expr.meaning, meaningArguments_eq]
    have hargs : List.Forall₂ (Lowered.Means c) ((args.map (lowerArgument env)).map (·.code))
        (args.map fun arg => arg.value.meaning c.world env) := by
      rw [List.map_map]
      refine forall₂_map_same fun arg ha => ?_
      rw [Function.comp_apply, code_lowerArgument]
      exact iha arg ha
    refine means_ofValue fun pre => ?_
    unfold lowerMethodCall
    rw [directTarget?_eq]
    cases name with
    | direct name =>
      cases htarget : (MethodName.direct name).target? env args receiverType with
      | some found =>
        obtain ⟨entry, method⟩ := found
        exact means_callDirect ihr.value hargs
      | none =>
        have late : Means c 1 (lowerLateCall env (lower env receiver).value (.direct name)
            (args.map (lowerArgument env))) pre _ _ _ := means_lateDirect ihr.value hargs
        rw [shapes_lowerArgument] at late
        rw [lowerName]
        exact late
    | computed value =>
      have late : Means c 1 (lowerLateCall env (lower env receiver).value
          (.computed (lower env value).value) (args.map (lowerArgument env))) pre _ _ _ :=
        means_lateComputed ihr.value (ihn value List.mem_cons_self).value hargs
      rw [shapes_lowerArgument] at late
      rw [lowerName]
      exact late
  | create type args ih =>
    rw [lower, Expr.meaning, lowerAll_eq, meaningAll_eq]
    exact means_ofValue fun pre => means_lowerCreate (forall₂_map_same ih)
  | this =>
    rw [lower, Expr.meaning]
    exact means_ofValue fun pre => means_loadThis
  | fieldLoad receiver field ih =>
    rw [lower, Expr.meaning]
    exact means_ofValue fun pre => means_lowerFieldLoad ih.value
  | fieldStore receiver field value ihr ihv =>
    rw [lower, Expr.meaning]
    exact ⟨fun pre => means_lowerFieldStore ihr.value ihv.value,
      fun pre => means_dropFieldStore ihr.value ihv.value⟩
  | staticLoad type field =>
    rw [lower, Expr.meaning]
    exact means_ofValue fun pre => means_loadStatic
  | staticStore type field value ih =>
    rw [lower, Expr.meaning]
    exact ⟨fun pre => means_storeStatic ih.value true, fun pre => means_storeStatic ih.value false⟩
  | array entries ih =>
    rw [lower, Expr.meaning, lowerEntries_eq, meaningEntries_eq]
    refine means_ofValue fun pre => means_lowerArray (forall₂_map_same fun entry he => ?_)
    have ih := ih entry he
    cases entry with
    | item value =>
      rw [lowerEntry, ArrayEntry.meaning]
      exact .item (ih value List.mem_cons_self).value
    | keyed key value =>
      rw [lowerEntry, ArrayEntry.meaning]
      exact .keyed (ih key List.mem_cons_self).value
        (ih value (List.mem_cons_of_mem _ List.mem_cons_self)).value
  | instanceOf value type ih =>
    rw [lower, Expr.meaning]
    exact means_ofValue fun pre => means_instanceOf ih.value

/-- **The code of an expression does what the evaluator says**, wherever it stands in a body: it
comes to its end with the value above what was on the stack, or stops at the error, or waits where
the evaluator does, behind the same requests. The variables are those of the evaluator, and no slot
that is in use has changed. -/
theorem comes_of_emitValue (c : Setting σ) (e : Expr) {d d' : Draft}
    (written : Assembler.empty.Evolves d.asm) (h : Ends (emitValue env e) d () d')
    (behind : d'.asm.Evolves c.final) (f : Frame) (s : σ) (hpc : f.pc = d.asm.code.size)
    (hsize : f.locals.size = c.final.slots.slots.size) :
    Comes c d.asm d'.asm f.stack (fun x => [x]) f s
      (((e.meaning c.world env).runFrom d.nextSite).1.outcome (f.vars c.final.slots) s) :=
  ((means_lower e).value []).comes written h behind s hpc rfl hsize

/-- A condition with a call in it, and an assignment to a field that is assigned in turn. -/
def assigningCondition : Expr :=
  .binary .and (.call ⟨"g"⟩ [])
    (.assign "x" (.fieldStore (.var "o") "p" (.literal (.long 1))))

/-- A body without parameters. -/
def BodyEnv.bare : BodyEnv := ⟨⟨[], none⟩, .ofPreset .release, "f", [], true, true⟩

theorem comes_of_emitValue_assigningCondition :
    ∃ (c : Setting Unit) (d' : Draft), Assembler.empty.Evolves (Draft.start 0).asm ∧
      Ends (emitValue .bare assigningCondition) (.start 0) () d' ∧ d'.asm.Evolves c.final ∧
      ∃ f : Frame, f.pc = (Draft.start 0).asm.code.size ∧
        f.locals.size = c.final.slots.slots.size ∧
        Comes c (Draft.start 0).asm d'.asm f.stack (fun x => [x]) f ()
          (((assigningCondition.meaning c.world .bare).runFrom (Draft.start 0).nextSite).1.outcome
            (f.vars c.final.slots) ()) := by
  have writes : ((emitValue .bare assigningCondition).run (.start 0)).1.isOk &&
      (((emitValue .bare assigningCondition).run (.start 0)).2.asm.finish 16).isOk = true := by
    decide +kernel
  rcases hrun : (emitValue .bare assigningCondition).run (.start 0) with ⟨result, d'⟩
  rw [hrun] at writes
  cases result with
  | error => cases writes
  | ok =>
    cases hfinish : d'.asm.finish 16 with
    | error =>
      rw [hfinish] at writes
      cases writes
    | ok out =>
      have h : Ends (emitValue .bare assigningCondition) (.start 0) () d' := hrun
      let c : Setting Unit := {
        world := fun _ => pure .null
        body := ⟨.function ⟨"f"⟩, .routine, [], true, true, "f", out.code, [], [], 0, #[], [], []⟩
        final := d'.asm
        out
        maxLocals := 16
        written := ((emits_emitValue assigningCondition).grows Slots.sound_empty h).evolves
        finished := hfinish
        code := rfl }
      let f : Frame := ⟨0, none, #[], d'.asm.slots.slots.map fun _ => .unset, #[], [], []⟩
      have hsize : f.locals.size = c.final.slots.slots.size := Array.size_map
      exact ⟨c, d', .refl _, h, .refl _, f, rfl, hsize,
        comes_of_emitValue c assigningCondition (.refl _) h (.refl _) f () rfl hsize⟩

end StackScript
