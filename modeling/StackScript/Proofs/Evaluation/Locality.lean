import StackScript.Proofs.Evaluation.Expressions

/-!
# Evaluations in worlds that answer alike

Two worlds may answer alike only in states with a property. If their answers keep the property, the
evaluation of an expression that starts where it holds is the same in both, and ends where it holds.
No expression changes the receiver or the result, and one that assigns no parameter changes none.

## Main definitions

* `World.AlikeOn`: worlds that answer alike where a property holds
* `Eval.Alike`: computations that are alike there
* `Expr.Within`: the parts of an expression
* `Expr.Spares`: the expression assigns no parameter

## Main results

* `alike_meaning`: expressions are evaluated alike
-/

namespace StackScript

variable {σ α β : Type} {P : σ → Prop} {spared : Prop}

/-- Where the property holds, both worlds answer alike, and it holds behind the answer. -/
structure World.AlikeOn (world world' : World σ) (P : σ → Prop) : Prop where
  answers : ∀ request s, P s → (world' request).run.run s = (world request).run.run s
  keeps : ∀ {request s answer s'}, P s → (world request).run.run s = some (answer, s') → P s'

/-- A world answers as it does. -/
theorem alikeOn_refl (world : World σ) : world.AlikeOn world fun _ => True where
  answers _ _ _ := rfl
  keeps _ _ := trivial

namespace Eval

/-- Where the property holds, both computations come to the same, the property holds behind them,
and the receiver and the result are what they were, as are the parameters if they are to be spared. -/
structure Alike (P : σ → Prop) (spared : Prop) (m m' : Eval σ α) : Prop where
  outcome : ∀ vars s, P s → m'.outcome vars s = m.outcome vars s
  keeps : ∀ {vars s r vars' s'}, P s → m.outcome vars s = some (r, vars', s') →
    P s' ∧ vars'.receiver = vars.receiver ∧ vars'.result = vars.result ∧
      (spared → vars'.args = vars.args)

/-! ## Computations one behind the other -/

theorem alike_pure (x : α) : Alike P spared (pure x : Eval σ α) (pure x) where
  outcome _ _ _ := rfl
  keeps h := by
    rintro ⟨⟩
    exact ⟨h, rfl, rfl, fun _ => rfl⟩

theorem alike_throw (e : DispatchError) : Alike P spared (throw e : Eval σ α) (throw e) where
  outcome _ _ _ := rfl
  keeps h := by
    rintro ⟨⟩
    exact ⟨h, rfl, rfl, fun _ => rfl⟩

theorem alike_vars : Alike P spared (vars : Eval σ Vars) vars where
  outcome _ _ _ := rfl
  keeps h := by
    rintro ⟨⟩
    exact ⟨h, rfl, rfl, fun _ => rfl⟩

theorem alike_modifyVars {f : Vars → Vars}
    (h : ∀ vars, (f vars).receiver = vars.receiver ∧ (f vars).result = vars.result)
    (h' : spared → ∀ vars, (f vars).args = vars.args) :
    Alike P spared (modifyVars f : Eval σ Unit) (modifyVars f) where
  outcome _ _ _ := rfl
  keeps {vars s r vars' s'} holds := by
    rintro ⟨⟩
    exact ⟨holds, (h vars).1, (h vars).2, fun spares => h' spares vars⟩

variable {world world' : World σ}

theorem alike_request (h : world.AlikeOn world' P) (r : Request) :
    Alike P spared (request world r) (request world' r) where
  outcome vars s holds := by rw [outcome_request, outcome_request, h.answers r s holds]
  keeps {vars s x vars' s'} holds ends := by
    rw [outcome_request] at ends
    obtain ⟨answered, answers, same⟩ := Option.map_eq_some_iff.mp ends
    cases same
    exact ⟨h.keeps holds answers, rfl, rfl, fun _ => rfl⟩

namespace Alike

variable {m m' : Eval σ α} {k k' : α → Eval σ β}

theorem bind (h : Alike P spared m m') (h' : ∀ x, Alike P spared (k x) (k' x)) :
    Alike P spared (m >>= k) (m' >>= k') where
  outcome vars s holds := by
    rw [outcome_bind, outcome_bind, h.outcome vars s holds]
    rcases first : m.outcome vars s with _ | ⟨e | x, vars', s'⟩
    · rfl
    · rfl
    · exact (h' x).outcome vars' s' (h.keeps holds first).1
  keeps {vars s r vars'' s''} holds ends := by
    rw [outcome_bind] at ends
    rcases first : m.outcome vars s with _ | ⟨e | x, vars', s'⟩
    · rw [first] at ends
      cases ends
    · rw [first] at ends
      cases ends
      exact h.keeps holds first
    · rw [first] at ends
      obtain ⟨holds', same, result, args⟩ := h.keeps holds first
      obtain ⟨holds'', same', result', args'⟩ := (h' x).keeps holds' ends
      exact ⟨holds'', same'.trans same, result'.trans result,
        fun spares => (args' spares).trans (args spares)⟩

/-- The value of a computation, changed. -/
theorem map (h : Alike P spared m m') (f : α → β) :
    Alike P spared (do return f (← m)) (do return f (← m')) :=
  h.bind fun x => alike_pure (f x)

theorem discard (h : Alike P spared m m') :
    Alike P spared (Functor.discard m) (Functor.discard m') :=
  h.bind fun _ => alike_pure ()

end Alike

/-! ## Variables and operators -/

section Operators

variable {left left' right right' : Eval σ Slot}

theorem alike_readVariable (env : BodyEnv) (name : String) :
    Alike P spared (readVariable env name : Eval σ Slot) (readVariable env name) := by
  unfold readVariable
  split
  · exact alike_pure _
  · exact alike_vars.map _
  · exact alike_vars.map _

theorem alike_writeVariable {env : BodyEnv} {name : String}
    (h : spared → ∀ index, env.meaning name ≠ .parameter index) (value : Slot) :
    Alike P spared (writeVariable env name value : Eval σ Unit)
      (writeVariable env name value) := by
  unfold writeVariable
  split
  · exact alike_pure _
  case h_2 index parameter =>
    exact alike_modifyVars (fun _ => ⟨rfl, rfl⟩) fun spares => absurd parameter (h spares index)
  · exact alike_modifyVars (fun _ => ⟨rfl, rfl⟩) fun _ _ => rfl

theorem alike_readReceiver : Alike P spared (readReceiver : Eval σ Slot) readReceiver := by
  refine alike_vars.bind fun vars => ?_
  cases vars.receiver with
  | some receiver => exact alike_pure _
  | none => exact alike_throw _

theorem alike_logical (decidedBy : Bool) (hl : Alike P spared left left')
    (hr : Alike P spared right right') :
    Alike P spared (logical decidedBy left right) (logical decidedBy left' right') := by
  refine hl.bind fun a => ?_
  split
  · exact alike_pure _
  · exact hr.map _

theorem alike_operate (op : BinaryOp) (hl : Alike P spared left left')
    (hr : Alike P spared right right') :
    Alike P spared (operate op left right) (operate op left' right') := by
  unfold operate
  split
  · exact alike_logical _ hl hr
  · exact alike_logical _ hl hr
  · exact hl.bind fun _ => hr.map _

end Operators

/-! ## Arguments -/

section Arguments

variable {args args' : List (Eval σ Slot)}

theorem alike_all (h : List.Forall₂ (Alike P spared) args args') :
    Alike P spared (all args) (all args') := by
  induction h with
  | nil => exact alike_pure _
  | cons first _ ih => exact first.bind fun x => ih.map _

theorem alike_drop (h : List.Forall₂ (Alike P spared) args args') :
    Alike P spared (drop args) (drop args') := by
  induction h with
  | nil => exact alike_pure _
  | cons first _ ih => exact first.bind fun _ => ih

theorem alike_pass (params : List Parameter) (h : List.Forall₂ (Alike P spared) args args') :
    Alike P spared (pass params args) (pass params args') := by
  induction params generalizing args args' with
  | nil => exact (alike_drop h).bind fun _ => alike_pure _
  | cons param params ih =>
    cases h with
    | nil =>
      unfold pass
      cases param.type with
      | context => exact (ih .nil).map _
      | value hint => cases param.default <;> exact (ih .nil).map _
    | cons first rest =>
      unfold pass
      cases param.type with
      | context => exact (ih (.cons first rest)).map _
      | value hint => exact first.bind fun x => (ih rest).map _

end Arguments

/-! ## Arrays -/

section Arrays

variable {items items' : List (Option (Eval σ Slot) × Eval σ Slot)}

/-- Entries of which key and value are alike. -/
def EntryAlike (P : σ → Prop) (spared : Prop) (item item' : Option (Eval σ Slot) × Eval σ Slot) : Prop :=
  Option.Rel (Alike P spared) item.1 item'.1 ∧ Alike P spared item.2 item'.2

theorem alike_entries (h : List.Forall₂ (EntryAlike P spared) items items') :
    Alike P spared (entries items) (entries items') := by
  induction h with
  | nil => exact alike_pure _
  | @cons item item' _ _ first _ ih =>
    obtain ⟨key, value⟩ := item
    obtain ⟨key', value'⟩ := item'
    obtain ⟨hkey, hvalue⟩ := first
    have hkey : Alike P spared (key.getD (return .unset)) (key'.getD (return .unset)) := by
      cases hkey with
      | none => exact alike_pure _
      | some hkey => exact hkey
    exact hkey.bind fun _ => hvalue.bind fun _ => ih.map _

theorem alike_array (h : List.Forall₂ (EntryAlike P spared) items items') :
    Alike P spared (array items) (array items') :=
  (alike_entries h).map _

end Arrays

/-! ## Calls and fields -/

section Requests

variable (h : world.AlikeOn world' P) {receiver receiver' value value' : Eval σ Slot}
    {args args' : List (Eval σ Slot)} (env : BodyEnv) (type : QualifiedName) (field : String)
include h

theorem alike_call (function : QualifiedName) (hargs : List.Forall₂ (Alike P spared) args args') :
    Alike P spared (call world env function args) (call world' env function args') := by
  unfold call
  split
  · exact (alike_pass _ hargs).bind fun _ => (alike_request h _).map _
  · exact (alike_all hargs).bind fun _ => (alike_request h _).map _

theorem alike_callDirect (entry : TypeEntry) (method : Routine) (hr : Alike P spared receiver receiver')
    (hargs : List.Forall₂ (Alike P spared) args args') :
    Alike P spared (callDirect world entry method receiver args)
      (callDirect world' entry method receiver' args') :=
  hr.bind fun _ => (alike_pass _ hargs).bind fun _ => (alike_request h _).map _

theorem alike_callLate (shape : SiteShape) (hr : Alike P spared receiver receiver')
    (hargs : List.Forall₂ (Alike P spared) args args') :
    Alike P spared (callLate world shape receiver args) (callLate world' shape receiver' args') :=
  hr.bind fun _ => (alike_all hargs).bind fun _ => (alike_request h _).map _

theorem alike_create (hargs : List.Forall₂ (Alike P spared) args args') :
    Alike P spared (create world env type args) (create world' env type args') := by
  unfold create
  split
  · split
    · exact (alike_pass _ hargs).bind fun _ => (alike_request h _).map _
    · exact (alike_drop hargs).bind fun _ => (alike_request h _).map _
  · exact (alike_all hargs).bind fun _ => (alike_request h _).map _

theorem alike_readField (r : Slot) :
    Alike P spared (readField world field r) (readField world' field r) := by
  unfold readField
  split
  · exact (alike_request h _).map _
  · exact alike_throw _

theorem alike_writeField (r x : Slot) :
    Alike P spared (writeField world field r x) (writeField world' field r x) := by
  unfold writeField
  split
  · exact (alike_request h _).discard
  · exact alike_throw _

theorem alike_loadField (hr : Alike P spared receiver receiver') :
    Alike P spared (loadField world field receiver) (loadField world' field receiver') :=
  hr.bind fun _ => alike_readField h field _

theorem alike_storeField (hr : Alike P spared receiver receiver') (hv : Alike P spared value value') :
    Alike P spared (storeField world field receiver value) (storeField world' field receiver' value') :=
  hr.bind fun _ => hv.bind fun _ => (alike_writeField h field _ _).bind fun _ => alike_pure _

theorem alike_loadStatic :
    Alike P spared (loadStatic world env type field) (loadStatic world' env type field) := by
  unfold loadStatic
  split
  · exact (alike_request h _).map _
  · exact (alike_request h _).map _
  · exact alike_pure _

theorem alike_writeStatic (x : Value) :
    Alike P spared (writeStatic world env type field x) (writeStatic world' env type field x) := by
  unfold writeStatic
  split
  · exact (alike_request h _).discard
  · exact (alike_request h _).discard
  · exact alike_pure _

theorem alike_storeStatic (hv : Alike P spared value value') :
    Alike P spared (storeStatic world env type field value) (storeStatic world' env type field value') :=
  hv.bind fun _ => (alike_writeStatic h env type field _).bind fun _ => alike_pure _

end Requests

end Eval

/-! ## Numbers of call sites -/

namespace Numbered

/-- Both take the same numbers, and what they are numbered with is related. -/
def Related (R : α → β → Prop) (x : Numbered α) (y : Numbered β) : Prop :=
  ∀ n, R (x.runFrom n).1 (y.runFrom n).1 ∧ (y.runFrom n).2 = (x.runFrom n).2

namespace Related

variable {γ δ : Type} {R : α → β → Prop} {S : γ → δ → Prop} {x : Numbered α} {y : Numbered β}

theorem pure {a : α} {b : β} (h : R a b) : Related R (Pure.pure a) (Pure.pure b) :=
  fun _ => ⟨h, rfl⟩

theorem site : Related Eq Numbered.site Numbered.site := fun _ => ⟨rfl, rfl⟩

theorem bind {f : α → Numbered γ} {g : β → Numbered δ} (h : Related R x y)
    (h' : ∀ a b, R a b → Related S (f a) (g b)) : Related S (x >>= f) (y >>= g) := by
  intro n
  rw [runFrom_bind, runFrom_bind, (h n).2]
  exact h' _ _ (h n).1 _

theorem all {xs : List (Numbered α)} {ys : List (Numbered β)}
    (h : List.Forall₂ (Related R) xs ys) :
    Related (List.Forall₂ R) (Numbered.all xs) (Numbered.all ys) := by
  induction h with
  | nil => exact .pure .nil
  | cons first _ ih => exact first.bind fun _ _ hx => ih.bind fun _ _ hxs => .pure (.cons hx hxs)

end Related

end Numbered

/-! ## Expressions -/

namespace Expr

/-- The expressions that an expression is made of. -/
def parts : Expr → List Expr
  | .literal _ | .var _ | .this | .staticLoad .. => []
  | .assign _ value | .unary _ value | .fieldLoad value _ | .staticStore _ _ value
  | .instanceOf value _ => [value]
  | .binary _ left right | .fieldStore left _ right => [left, right]
  | .call _ args | .create _ args => args
  | .methodCall receiver name args _ => receiver :: (name.parts ++ args.map (·.value))
  | .array entries => entries.flatMap (·.parts)

/-- An expression stands somewhere in another one. -/
inductive Within : Expr → Expr → Prop where
  | whole (e : Expr) : Within e e
  | part {x part e : Expr} : part ∈ e.parts → Within x part → Within x e

/-- The expression assigns no parameter of the body. -/
def Spares (env : BodyEnv) (e : Expr) : Prop :=
  ∀ target value, Within (.assign target value) e → ∀ index, env.meaning target ≠ .parameter index

variable {env : BodyEnv} {e inner : Expr}

theorem Spares.part (h : e.Spares env) (mem : inner ∈ e.parts) : inner.Spares env :=
  fun target value within => h target value (.part mem within)

end Expr

section Expressions

open Eval Numbered

variable {world world' : World σ} {env : BodyEnv}

/-- **An expression is evaluated alike** in worlds that answer alike where the evaluation starts and
comes to. -/
theorem alike_meaning (h : world.AlikeOn world' P) (e : Expr) (spares : spared → e.Spares env) :
    Related (Alike P spared) (e.meaning world env) (e.meaning world' env) := by
  have list {args : List Expr}
      (h : ∀ arg ∈ args, Related (Alike P spared) (arg.meaning world env) (arg.meaning world' env)) :
      Related (List.Forall₂ (Alike P spared)) (meaningAll world env args)
        (meaningAll world' env args) := by
    rw [meaningAll_eq, meaningAll_eq]
    exact .all (forall₂_map_same h)
  -- The induction goes along the expression. The parts of a list are taken together by `list`, and
  -- what a part spares the whole spares.
  induction e using Expr.induction with
  | literal value =>
    rw [Expr.meaning, Expr.meaning]
    exact .pure (alike_pure _)
  | var name =>
    rw [Expr.meaning, Expr.meaning]
    exact .pure (alike_readVariable env name)
  | assign target value ih =>
    rw [Expr.meaning, Expr.meaning]
    have own (spares' : spared) : ∀ index, env.meaning target ≠ .parameter index :=
      spares spares' target value (.whole _)
    exact (ih fun h => (spares h).part (by simp [Expr.parts])).bind fun _ _ hv => .pure
      (hv.bind fun x => (alike_writeVariable own x).bind fun _ => alike_pure x)
  | binary op left right ihl ihr =>
    rw [Expr.meaning, Expr.meaning]
    have ihl := ihl fun h => (spares h).part (by simp [Expr.parts])
    have ihr := ihr fun h => (spares h).part (by simp [Expr.parts])
    exact ihl.bind fun _ _ hl => ihr.bind fun _ _ hr => .pure (alike_operate op hl hr)
  | unary op operand ih =>
    rw [Expr.meaning, Expr.meaning]
    exact (ih fun h => (spares h).part (by simp [Expr.parts])).bind fun _ _ hv => .pure (hv.map _)
  | call function args ih =>
    rw [Expr.meaning, Expr.meaning]
    exact (list fun arg mem => ih arg mem fun h => (spares h).part mem).bind fun _ _ hargs =>
      .pure (alike_call h env function hargs)
  | methodCall receiver name args receiverType ihr ihn iha =>
    have named : Related (Alike P spared) (name.meaning world env) (name.meaning world' env) := by
      cases name with
      | direct name =>
        rw [MethodName.meaning, MethodName.meaning]
        exact .pure (alike_pure _)
      | computed value =>
        rw [MethodName.meaning, MethodName.meaning]
        exact ihn value List.mem_cons_self fun h =>
          (spares h).part (by simp [Expr.parts, MethodName.parts])
    have passed : Related (List.Forall₂ (Alike P spared)) (meaningArguments world env args)
        (meaningArguments world' env args) := by
      rw [meaningArguments_eq, meaningArguments_eq]
      refine .all (forall₂_map_same fun arg mem => iha arg mem fun h => (spares h).part ?_)
      exact List.mem_cons_of_mem _ (List.mem_append_right _ (List.mem_map_of_mem mem))
    have ihr := ihr fun h => (spares h).part (by simp [Expr.parts])
    rw [Expr.meaning, Expr.meaning]
    refine ihr.bind fun _ _ hr => named.bind fun _ _ hn => passed.bind fun _ _ hargs => ?_
    cases name.target? env args receiverType with
    | some target => exact .pure (alike_callDirect h _ _ hr hargs)
    | none =>
      refine Related.site.bind fun id _ same => ?_
      subst same
      cases name with
      | direct name => exact .pure (alike_callLate h _ hr hargs)
      | computed value => exact .pure (alike_callLate h _ hr (.cons hn hargs))
  | create type args ih =>
    rw [Expr.meaning, Expr.meaning]
    exact (list fun arg mem => ih arg mem fun h => (spares h).part mem).bind fun _ _ hargs =>
      .pure (alike_create h env type hargs)
  | this =>
    rw [Expr.meaning, Expr.meaning]
    exact .pure alike_readReceiver
  | fieldLoad receiver field ih =>
    rw [Expr.meaning, Expr.meaning]
    exact (ih fun h => (spares h).part (by simp [Expr.parts])).bind fun _ _ hr =>
      .pure (alike_loadField h field hr)
  | fieldStore receiver field value ihr ihv =>
    rw [Expr.meaning, Expr.meaning]
    have ihr := ihr fun h => (spares h).part (by simp [Expr.parts])
    have ihv := ihv fun h => (spares h).part (by simp [Expr.parts])
    exact ihr.bind fun _ _ hr => ihv.bind fun _ _ hv => .pure (alike_storeField h field hr hv)
  | staticLoad type field =>
    rw [Expr.meaning, Expr.meaning]
    exact .pure (alike_loadStatic h env type field)
  | staticStore type field value ih =>
    rw [Expr.meaning, Expr.meaning]
    exact (ih fun h => (spares h).part (by simp [Expr.parts])).bind fun _ _ hv =>
      .pure (alike_storeStatic h env type field hv)
  | array entries ih =>
    have here {entry part} (mem : entry ∈ entries) (mem' : part ∈ entry.parts) (h : spared) :
        part.Spares env := (spares h).part (List.mem_flatMap.mpr ⟨entry, mem, mem'⟩)
    rw [Expr.meaning, Expr.meaning, meaningEntries_eq, meaningEntries_eq]
    refine Related.bind (R := List.Forall₂ (EntryAlike P spared))
      (.all (forall₂_map_same fun entry he => ?_)) fun _ _ items => .pure (alike_array items)
    have ih (part : Expr) (mem : part ∈ entry.parts) := ih entry he part mem (here he mem)
    cases entry with
    | item value =>
      rw [ArrayEntry.meaning, ArrayEntry.meaning]
      exact (ih value List.mem_cons_self).bind fun _ _ hv => .pure ⟨.none, hv⟩
    | keyed key value =>
      rw [ArrayEntry.meaning, ArrayEntry.meaning]
      exact (ih key List.mem_cons_self).bind fun _ _ hk =>
        (ih value (List.mem_cons_of_mem _ List.mem_cons_self)).bind fun _ _ hv =>
          .pure ⟨.some hk, hv⟩
  | instanceOf value type ih =>
    rw [Expr.meaning, Expr.meaning]
    exact (ih fun h => (spares h).part (by simp [Expr.parts])).bind fun _ _ hv => .pure (hv.map _)

end Expressions

end StackScript
