import StackScript.Proofs.Evaluation.Compiled

/-!
# Calls, creations and fields follow their meaning

A direct call takes one value for every parameter from the stack, and a late-bound one all the
arguments that there are. A value that is stored and still needed waits in a scratch slot, which
belongs to nobody else.

## Main definitions

* `Pushes`, `Lowered.Means`: the code of an expression, for its value and for its effect

## Main results

* `means_pushArguments`: the arguments of direct calls
* `means_lowerCall`, `means_lateDirect`, `means_lowerCreate`: calls and creations
-/

namespace StackScript

open Emit
open Assembler (Evolves Grows)

instance : Inhabited Slot := ⟨.unset⟩

/-! ## Values from the stack -/

namespace Frame

/-- Places are taken from the stack in the order in which they were pushed. -/
theorem popMany_reverse {f : Frame} {xs base : List Slot} (h : f.stack = xs.reverse ++ base) :
    f.popMany xs.length = .ok (xs, { f with stack := base }) := by
  have hlen : xs.length = xs.reverse.length := List.length_reverse.symm
  rw [popMany, if_neg (by simp [h]), h, hlen, List.take_left, List.drop_left, List.reverse_reverse]

theorem popValues_reverse {f : Frame} {xs base : List Slot} (h : f.stack = xs.reverse ++ base) :
    f.popValues xs.length = .ok (xs.map Slot.toValue, { f with stack := base }) := by
  rw [popValues, popMany_reverse h]
  rfl

variable {f : Frame} {xs base : List Slot} {n : Nat} {receiver : Slot}

theorem popMany_withContext (h : f.stack = xs.reverse ++ .context :: base) (hn : xs.length = n) :
    f.popMany (n + 1) = .ok (.context :: xs, { f with stack := base }) := by
  rw [← hn, ← List.length_cons]
  exact popMany_reverse (by rw [h, List.reverse_cons, List.append_assoc, List.singleton_append])

theorem execute_call {body : BodyName} (h : f.stack = xs.reverse ++ .context :: base)
    (hn : xs.length = n) :
    f.execute (.call body n false) =
      .ok (.ask (.call body none (Eval.withContext xs)) { f with stack := base }) := by
  simp only [execute]
  rw [popMany_withContext h hn]
  rfl

theorem execute_callOn {body : BodyName} (h : f.stack = xs.reverse ++ .context :: receiver :: base)
    (hn : xs.length = n) :
    f.execute (.call body n true) = .ok
      (.ask (.call body (some receiver.toValue) (Eval.withContext xs)) { f with stack := base }) := by
  simp only [execute]
  rw [popMany_withContext h hn]
  rfl

theorem execute_callGlobal {name : QualifiedName} (h : f.stack = xs.reverse ++ .context :: base)
    (hn : xs.length = n) :
    f.execute (.callGlobal name n) =
      .ok (.ask (.callGlobal name (xs.map Slot.toValue)) { f with stack := base }) := by
  simp only [execute]
  rw [← hn, popValues_reverse h]
  rfl

theorem execute_callSite {shape : SiteShape}
    (h : f.stack = xs.reverse ++ .context :: receiver :: base) (hn : xs.length = shape.pushedCount) :
    f.execute (.callSite shape) = .ok
      (.ask (.callSite shape receiver.toValue (xs.map Slot.toValue)) { f with stack := base }) := by
  simp only [execute]
  rw [← hn, popValues_reverse h]
  rfl

theorem execute_newObject {type : QualifiedName} (h : f.stack = xs.reverse ++ .context :: base)
    (hn : xs.length = n) :
    f.execute (.newObject type n) =
      .ok (.ask (.create type (Eval.withContext xs)) { f with stack := base }) := by
  simp only [execute]
  rw [popMany_withContext h hn]
  rfl

end Frame

section

variable {σ : Type} {c : Setting σ} {env : BodyEnv} {k : Int} {pre : List Slot} {x : Slot}
  {i : Instruction}

theorem means_pop : Means c (-1) (emit .pop) (x :: pre) (fun _ => pure x) id fun _ => pre :=
  means_stack rfl rfl rfl fun f base hf => by
    simp only [Frame.execute, Frame.pop, hf]
    rfl

theorem means_dup :
    Means c 1 (emit .dup) (x :: pre) (fun _ => pure x) id fun y => y :: y :: pre :=
  means_stack rfl rfl rfl fun f base hf => by
    simp only [Frame.execute, hf, List.cons_append, Frame.push]
    rfl

end

/-! ## Arguments -/

section Arguments

variable {σ : Type} {c : Setting σ} {env : BodyEnv} {k : Int} {pre : List Slot} {x : Slot}
  {code first rest : Emit Unit} {m : Numbered (Eval σ Slot)} {args : List Lowered}
  {ms : List (Numbered (Eval σ Slot))}

/-- The code leaves the value of a computation above whatever there is. -/
def Pushes (c : Setting σ) (code : Emit Unit) (m : Numbered (Eval σ Slot)) : Prop :=
  ∀ pre, Means c 1 code pre (fun n => (m.runFrom n).1) (fun n => (m.runFrom n).2) fun x => x :: pre

/-- The code of an expression follows a computation, for its value and for its effect. -/
structure Lowered.Means (c : Setting σ) (lowered : Lowered) (m : Numbered (Eval σ Slot)) :
    Prop where
  value : Pushes c lowered.value m
  effect : ∀ pre, StackScript.Means c 0 lowered.effect pre (fun n => (m.runFrom n).1)
    (fun n => (m.runFrom n).2) fun _ => pre

theorem means_ofValue (h : Pushes c code m) : (Lowered.ofValue code).Means c m where
  value := h
  effect pre := ((h pre).after fun _ _ => means_pop).cast rfl

theorem means_dropArguments (h : List.Forall₂ (Lowered.Means c) args ms) :
    Means c 0 (dropArguments args) pre (fun n => Eval.drop ((Numbered.all ms).runFrom n).1)
      (fun n => ((Numbered.all ms).runFrom n).2) fun _ => pre := by
  induction h with
  | nil => exact means_pure fun _ => pre
  | cons h _ ih =>
    simp only [dropArguments, Numbered.runFrom_all_cons, Eval.drop]
    exact ((h.effect pre).bind fun _ _ => ih).cast rfl

/-- A value in front of others. -/
theorem means_cons {m : SiteId → Eval σ Slot} {m' : SiteId → Eval σ (List Slot)}
    {next next' : SiteId → SiteId} (h : Means c 1 first pre m next fun x => x :: pre)
    (h' : ∀ pre, Means c k rest pre m' next' fun xs => xs.reverse ++ pre) :
    Means c (1 + k) (do first; rest) pre
      (fun n => do
        let x ← m n
        return x :: (← m' (next n)))
      (fun n => next' (next n)) fun xs => xs.reverse ++ pre :=
  h.bind fun _ x => (h' (x :: pre)).map (x :: ·) fun xs => by simp

theorem means_pushAll (h : List.Forall₂ (Lowered.Means c) args ms) :
    Means c args.length (pushAll args) pre (fun n => Eval.all ((Numbered.all ms).runFrom n).1)
      (fun n => ((Numbered.all ms).runFrom n).2) fun xs => xs.reverse ++ pre := by
  induction h generalizing pre with
  | nil => exact means_pure (y := []) fun xs : List Slot => xs.reverse ++ pre
  | cons h _ ih =>
    simp only [pushAll, Numbered.runFrom_all_cons, Eval.all]
    refine (means_cons (h.value pre) fun _ => ih).cast ?_
    simp only [List.length_cons]
    omega

/-- **A direct call gets one value for every parameter**, and every argument is evaluated once. -/
theorem means_pushArguments {callee : String} {params : List Parameter}
    (h : List.Forall₂ (Lowered.Means c) args ms) :
    Means c params.length (pushArguments env callee params args) pre
      (fun n => Eval.pass params ((Numbered.all ms).runFrom n).1)
      (fun n => ((Numbered.all ms).runFrom n).2) fun xs => xs.reverse ++ pre := by
  induction params generalizing args ms pre with
  | nil =>
    unfold pushArguments
    simp only [Eval.pass]
    exact (means_dropArguments h).map (fun _ => []) fun _ => rfl
  | cons param params ih =>
    have length : 1 + (params.length : Int) = ((param :: params).length : Nat) := by
      simp only [List.length_cons]
      omega
    -- A parameter that takes no argument: the context, or a default.
    have constant {first rest : Emit Unit} {x : Slot} (ms' : List (Numbered (Eval σ Slot)))
        (hfirst : Means c 1 first pre (fun _ => pure x) id fun y => y :: pre)
        (hrest : ∀ pre, Means c params.length rest pre
          (fun n => Eval.pass params ((Numbered.all ms').runFrom n).1)
          (fun n => ((Numbered.all ms').runFrom n).2) fun xs => xs.reverse ++ pre) :
        Means c (param :: params).length (do first; rest) pre
          (fun n => do return x :: (← Eval.pass params ((Numbered.all ms').runFrom n).1))
          (fun n => ((Numbered.all ms').runFrom n).2) fun xs => xs.reverse ++ pre := by
      have both := means_cons hfirst hrest
      simp only [pure_bind, id] at both
      exact both.cast length
    cases hp : param.type with
    | context =>
      simp only [pushArguments, Eval.pass, hp]
      exact constant ms means_loadContext fun _ => ih h
    | value hint =>
      cases h with
      | cons h hs =>
        simp only [pushArguments, Eval.pass, hp, Numbered.runFrom_all_cons]
        exact (means_cons (h.value pre) fun _ => ih hs).cast length
      | nil =>
        simp only [pushArguments, Eval.pass, hp, Numbered.runFrom_all_nil]
        -- The arguments are used up.
        cases param.default with
        | some default => exact constant [] (means_loadLiteral default) fun _ => ih .nil
        | none => exact means_throw

end Arguments

/-! ## Calls and creations -/

namespace Eval

variable {σ : Type}

/-- There is one value for every argument. -/
theorem always_all (args : List (Eval σ Slot)) :
    (all args).Always fun xs => xs.length = args.length := by
  induction args with
  | nil => exact .pure rfl
  | cons arg rest ih =>
    rw [all]
    exact .bind .trivial fun x _ => ih.bind fun xs hxs => .pure (congrArg (· + 1) hxs)

/-- There is one value for every parameter. -/
theorem always_pass (params : List Parameter) (args : List (Eval σ Slot)) :
    (pass params args).Always fun xs => xs.length = params.length := by
  induction params generalizing args with
  | nil =>
    rw [pass]
    exact .bind .trivial fun _ _ => .pure rfl
  | cons param params ih =>
    have more {x : Slot} (args : List (Eval σ Slot)) :
        (do return x :: (← pass params args) : Eval σ (List Slot)).Always
          fun xs => xs.length = (param :: params).length :=
      (ih args).bind fun xs hxs => .pure (congrArg (· + 1) hxs)
    unfold pass
    split
    · exact more _
    · exact .bind .trivial fun x _ => more _
    · exact more []
    · exact more []

end Eval

section Calls

variable {σ : Type} {c : Setting σ} {env : BodyEnv} {k : Int} {pre : List Slot} {x : Slot}
  {args : List Lowered} {ms : List (Numbered (Eval σ Slot))} {code : Emit Unit}
  {receiver : Emit Unit} {m : Numbered (Eval σ Slot)}

theorem Numbered.length_all {α : Type} (ms : List (Numbered α)) (n : SiteId) :
    ((Numbered.all ms).runFrom n).1.length = ms.length := by
  induction ms generalizing n with
  | nil => rfl
  | cons m rest ih =>
    rw [runFrom_all_cons]
    exact congrArg (· + 1) (ih _)

/-- An instruction on what lies below the context, the context, and the arguments of a call. -/
theorem means_ask {i : Instruction} {r : Request} (xs below : List Slot) (hp : i.isPlain = true)
    (hl : i.local? = none) (hk : i.change = k) (hy : r.yields = true)
    (h : ∀ (f : Frame) base, f.stack = xs.reverse ++ .context :: (below ++ base) →
      f.execute i = .ok (.ask r { f with stack := base })) :
    Means c k (emit i) (xs.reverse ++ .context :: (below ++ pre))
      (fun _ => Eval.request c.world r >>= fun v => pure (.value v)) id fun y => y :: pre := by
  rw [← List.cons_append, ← List.append_assoc]
  exact means_request _ hp hl hk hy fun f base hf =>
    h f base (by rw [hf, List.append_assoc, List.cons_append])

/-- The context, the arguments, and the instruction of a call. -/
theorem means_passed {last : Emit Unit} {values : SiteId → Eval σ (List Slot)}
    {m' : SiteId → List Slot → Eval σ Slot} {next next' : SiteId → SiteId} {n : Nat}
    (hpush : Means c n code (.context :: below) values next fun xs => xs.reverse ++ .context :: below)
    (hn : ∀ n', (values n').Always fun xs => xs.length = n)
    (h : ∀ xs : List Slot, xs.length = n →
      Means c k last (xs.reverse ++ .context :: below) (fun n => m' n xs) next' fun x => x :: pre) :
    Means c (1 + (n + k)) (do loadContext env; code; last) below
      (fun n => values n >>= m' (next n)) (fun n => next' (next n)) fun x => x :: pre := by
  have call := hpush.bindWhere hn ⟨List.replicate n .unset, List.length_replicate⟩
    fun _ xs hxs => h xs hxs
  exact means_context.before fun _ => call

theorem means_lowerCall {function : QualifiedName} (h : List.Forall₂ (Lowered.Means c) args ms) :
    Means c 1 (lowerCall env function args) pre
      (fun n => Eval.call c.world env function ((Numbered.all ms).runFrom n).1)
      (fun n => ((Numbered.all ms).runFrom n).2) fun x => x :: pre := by
  unfold lowerCall Eval.call
  cases env.table.function? function.text with
  | some entry =>
    refine (means_passed (means_pushArguments h) (fun _ => Eval.always_pass _ _) fun xs hxs =>
      means_ask xs [] rfl rfl (change_call _ _ _) rfl fun f base hf =>
        Frame.execute_call hf hxs).cast ?_
    rw [if_neg Bool.false_ne_true]
    omega
  | none =>
    refine (means_passed (means_pushAll h) (fun n => ?_) fun xs hxs =>
      means_ask xs [] rfl rfl (change_callGlobal _ _) rfl fun f base hf =>
        Frame.execute_callGlobal hf hxs).cast (by omega)
    rw [h.length_eq, ← Numbered.length_all ms n]
    exact Eval.always_all _

theorem means_lowerCreate {type : QualifiedName} (h : List.Forall₂ (Lowered.Means c) args ms) :
    Means c 1 (lowerCreate env type args) pre
      (fun n => Eval.create c.world env type ((Numbered.all ms).runFrom n).1)
      (fun n => ((Numbered.all ms).runFrom n).2) fun x => x :: pre := by
  have ask {type : QualifiedName} {n : Nat} (xs : List Slot) (hxs : xs.length = n) :
      Means c (-n) (emit (.newObject type n)) (xs.reverse ++ .context :: pre)
        (fun _ => Eval.request c.world (.create type (Eval.withContext xs)) >>= fun v =>
          pure (.value v)) id fun x => x :: pre :=
    means_ask xs [] rfl rfl (change_newObject _ _) rfl fun f base hf =>
      Frame.execute_newObject hf hxs
  unfold lowerCreate Eval.create
  cases env.table.type? type.text with
  | some entry =>
    cases hinit : env.table.resolveInitializer? entry with
    | some found =>
      obtain ⟨owner, init⟩ := found
      simp only [hinit]
      exact (means_passed (means_pushArguments h) (fun _ => Eval.always_pass _ _) ask).cast
        (by omega)
    | none =>
      simp only [hinit]
      -- No values are passed on, so the list of those that are is empty.
      have dropped : Means c (0 : Nat) (dropArguments args) (.context :: pre)
          (fun n => Eval.drop ((Numbered.all ms).runFrom n).1 >>= fun _ => pure [])
          (fun n => ((Numbered.all ms).runFrom n).2) fun xs => xs.reverse ++ .context :: pre :=
        (means_dropArguments h).map (fun _ => []) fun _ => rfl
      have call : Means c 1 (do loadContext env; dropArguments args; emit (.newObject entry.name 0))
          pre _ _ fun x => x :: pre :=
        means_passed dropped (fun _ => .bind .trivial fun _ _ => .pure rfl) ask
      simpa only [bind_assoc, pure_bind, id] using call
  | none =>
    dsimp only
    split
    · refine (means_passed (means_pushAll h) (fun n => ?_) ask).cast (by omega)
      rw [h.length_eq, ← Numbered.length_all ms n]
      exact Eval.always_all _
    · exact means_throw

/-- A method that is known for certain is called on the receiver with one value for every
parameter. -/
theorem means_callDirect {entry : TypeEntry} {method : Routine} (hr : Pushes c receiver m)
    (h : List.Forall₂ (Lowered.Means c) args ms) :
    Means c 1
      (do
        receiver
        loadContext env
        pushArguments env method.displayName method.params args
        emit (.call (.method entry.name method.name) method.params.length true)) pre
      (fun n => Eval.callDirect c.world entry method (m.runFrom n).1
        ((Numbered.all ms).runFrom (m.runFrom n).2).1)
      (fun n => ((Numbered.all ms).runFrom (m.runFrom n).2).2) fun x => x :: pre := by
  refine ((hr pre).bind fun _ r => means_passed (means_pushArguments h)
    (fun _ => Eval.always_pass _ _) fun xs hxs => means_ask xs [r] rfl rfl (change_call _ _ _) rfl
      fun f base hf => Frame.execute_callOn hf hxs).cast ?_
  rw [if_pos rfl]
  omega

/-- The call site on a receiver, the context, and as many values as it is told. -/
theorem means_callSite {target : Selector} {shapes : List ArgShape} {n : Nat} (xs : List Slot)
    (r : Slot) (hn : xs.length = n) (hc : ∀ id, (SiteShape.mk id target shapes).pushedCount = n) :
    Means c (-1 - n) (do emit (.callSite ⟨← nextSite, target, shapes⟩))
      (xs.reverse ++ .context :: r :: pre)
      (fun id => Eval.request c.world (.callSite ⟨id, target, shapes⟩ r.toValue
        (xs.map Slot.toValue)) >>= fun v => pure (.value v)) (· + 1) fun x => x :: pre := by
  have ask (id : SiteId) := @means_ask _ c _ pre _
    (.callSite ⟨id, target, shapes⟩ r.toValue (xs.map Slot.toValue)) xs [r] rfl rfl
    (by rw [change_callSite, hc id]) rfl fun f base hf =>
      Frame.execute_callSite hf (hn.trans (hc id).symm)
  refine ⟨emits_callSite hc, fun d _ d' he => ?_, fun d _ d' hd hs he hfinal => ?_⟩
  · simp only [ends_bind, ends_nextSite, ends_emit] at he
    obtain ⟨_, _, ⟨rfl, rfl⟩, rfl⟩ := he
    rfl
  · obtain ⟨id, e, hid, hemit⟩ := ends_bind.mp he
    obtain ⟨rfl, rfl⟩ := ends_nextSite.mp hid
    exact (ask d.nextSite).follows ⟨d.asm, d.nextSite + 1⟩ _ _ hd hs hemit hfinal

/-- The values of a late-bound call, and its call site. -/
theorem means_callLate {target : Selector} {shapes : List ArgShape} {n : Nat}
    {selected : SiteId → List (Eval σ Slot)} {next : SiteId → SiteId} (hr : Pushes c receiver m)
    (hc : ∀ id, (SiteShape.mk id target shapes).pushedCount = n) (hn : ∀ id, (selected id).length = n)
    (h : ∀ pre, Means c n code pre (fun n => Eval.all (selected n)) next
      fun xs => xs.reverse ++ pre) :
    Means c 1
      (do
        receiver
        loadContext env
        code
        emit (.callSite ⟨← nextSite, target, shapes⟩)) pre
      (fun id => Eval.callLate c.world ⟨next (m.runFrom id).2, target, shapes⟩ (m.runFrom id).1
        (selected (m.runFrom id).2))
      (fun n => next (m.runFrom n).2 + 1) fun x => x :: pre := by
  have call (r : Slot) :
      Means c _ (do loadContext env; code; emit (.callSite ⟨← nextSite, target, shapes⟩))
        (r :: pre) _ _ fun x => x :: pre :=
    means_passed (h (.context :: r :: pre)) (fun id => hn id ▸ Eval.always_all _)
      fun xs hxs => means_callSite xs r hxs hc
  exact ((hr pre).bind fun _ r => call r).cast (by omega)

/-- A call of a method by name, through a call site. -/
theorem means_lateDirect {name : String} {args : List LoweredArgument} (hr : Pushes c receiver m)
    (h : List.Forall₂ (Lowered.Means c) (args.map (·.code)) ms) :
    Means c 1 (lowerLateCall env receiver (.direct name) args) pre
      (fun n => Eval.callLate c.world
        ⟨((Numbered.all ms).runFrom (m.runFrom n).2).2, .direct name, args.map (·.shape)⟩
        (m.runFrom n).1 ((Numbered.all ms).runFrom (m.runFrom n).2).1)
      (fun n => ((Numbered.all ms).runFrom (m.runFrom n).2).2 + 1) fun x => x :: pre := by
  have length : (args.map (·.code)).length = args.length := List.length_map _
  refine means_callLate (n := args.length) hr (fun id => ?_) (fun id => ?_) fun pre =>
    (means_pushAll h).cast (congrArg Nat.cast length)
  · simp [SiteShape.pushedCount]
  · rw [Numbered.length_all, ← h.length_eq, length]

/-- A call of a method whose name is computed, through a call site. -/
theorem means_lateComputed {value : Emit Unit} {selected : Numbered (Eval σ Slot)}
    {args : List LoweredArgument} (hr : Pushes c receiver m) (hv : Pushes c value selected)
    (h : List.Forall₂ (Lowered.Means c) (args.map (·.code)) ms) :
    Means c 1 (lowerLateCall env receiver (.computed value) args) pre
      (fun n => Eval.callLate c.world
        ⟨((Numbered.all (selected :: ms)).runFrom (m.runFrom n).2).2, .computed,
          .value :: args.map (·.shape)⟩
        (m.runFrom n).1 ((Numbered.all (selected :: ms)).runFrom (m.runFrom n).2).1)
      (fun n => ((Numbered.all (selected :: ms)).runFrom (m.runFrom n).2).2 + 1)
      fun x => x :: pre := by
  have length : (args.map (·.code)).length = args.length := List.length_map _
  have push (pre : List Slot) : Means c (args.length + 1 : Nat)
      (do value; pushAll (args.map (·.code))) pre
      (fun n => Eval.all ((Numbered.all (selected :: ms)).runFrom n).1)
      (fun n => ((Numbered.all (selected :: ms)).runFrom n).2) fun xs => xs.reverse ++ pre :=
    (means_cons (hv pre) fun _ => means_pushAll h).cast (by rw [length]; omega)
  have call : Means c 1
      (do
        receiver
        loadContext env
        (do value; pushAll (args.map (·.code)))
        emit (.callSite ⟨← nextSite, .computed, .value :: args.map (·.shape)⟩)) pre _ _
      fun x => x :: pre :=
    means_callLate hr (fun id => by simp [SiteShape.pushedCount])
      (fun id => by rw [Numbered.length_all, List.length_cons, ← h.length_eq, length]) push
  simp only [bind_assoc] at call
  exact call

end Calls

end StackScript
