import StackScript.Proofs.Evaluation.Locality
import StackScript.Proofs.Writing.Composed

/-!
# The code of statements follows their meaning

A statement evaluates its expression, and writes the value out, keeps it as the result of the
routine, or throws it. The result has a slot of its own in the code of every routine that sets it.

## Main definitions

* `Action.meaning`, `meaningStatements`: what statements do

## Main results

* `means_emitStatements`: the code of statements follows their meaning
* `not_ok_of_throws`: statements that throw do not end
* `alike_meaningStatements`: only `return` sets the result
* `exists_resultSlot`: where a statement sets it, the code has a slot for it
-/

namespace StackScript

open Emit

/-! ## What statements mean -/

/-- The variables with another result. -/
def Vars.setResult (vars : Vars) (value : Slot) : Vars := { vars with result := value }

/-- The value is the result of the routine. -/
def Eval.setResult {σ : Type} (value : Slot) : Eval σ Unit := modifyVars (·.setResult value)

section Meaning

variable {σ : Type} (world : World σ) (env : BodyEnv)

/-- What the action of a statement does. -/
def Action.meaning : Action → Numbered (Eval σ Unit)
  | .eval value => do
    let value ← value.meaning world env
    return discard value
  | .echo value => do
    let value ← value.meaning world env
    return do
      let x ← value
      discard (Eval.request world (.echo x.toValue.text))
  | .return none => return Eval.setResult .unset
  | .return (some value) => do
    let value ← value.meaning world env
    return do
      let x ← value
      Eval.setResult x
  | .throw value => do
    let value ← value.meaning world env
    return do
      let x ← value
      MonadExcept.throw (DispatchError.thrown x.toValue)

/-- What statements do, one behind the other. -/
def meaningStatements : List Statement → Numbered (Eval σ Unit)
  | [] => return pure ()
  | statement :: rest => do
    let first ← statement.action.meaning world env
    let others ← meaningStatements rest
    return do
      first
      others

end Meaning

/-! ## The result -/

section Results

variable {σ : Type} {c : Setting σ} {slots : Slots} {f : Frame} {vars : Vars} {own : LocalId}
  {slot : LocalSlot} {x : Slot} {pre : List Slot}

/-- The slot of the result holds the result, and no other does. -/
theorem Frame.Agrees.setResult (h : f.Agrees slots vars) (hid : slots.slots[own]? = some slot)
    (hr : slot.role = .result) (hs : slots.Sound) :
    Agrees slots { f with locals := f.locals.setIfInBounds own x } (vars.setResult x) where
  receiver := h.receiver
  args := h.args
  named id' name hid' := by
    rw [getElem?_setLocal (h.lt hid), if_neg]
    · exact h.named id' name hid'
    · rintro rfl
      rw [hid] at hid'
      cases hid'
      cases hr
  result id' slot' hid' hr' := by
    rw [getElem?_setLocal (h.lt hid), if_pos (hs.result_unique id' own slot' slot hid' hid hr' hr)]
    rfl
  size := by simpa using h.size

theorem means_storeResult :
    Means c (-1) (do emit (.storeLocal (← withSlots (·.result)))) (x :: pre)
      (fun _ => Eval.setResult x) id fun _ => pre where
  emits := emits_storeResult
  numbers d _ d' he := by
    obtain rfl := ends_emit_handed.mp he
    rfl
  follows d _ d' hd _ he hc := by
    obtain rfl := ends_emit_handed.mp he
    -- The slot of the result is handed out first, which runs no instruction.
    have served : d.asm.Evolves { d.asm with slots := d.asm.slots.result.2 } :=
      .single (.serve (.result _))
    have stored : c.Reads (Assembler.emit { d.asm with slots := d.asm.slots.result.2 }
        (.storeLocal d.asm.slots.result.1)) :=
      .of_evolves hd (served.trans (.single (.emit rfl))) hc
    obtain ⟨slot, hslot, hr⟩ := Slots.slot_result (s := d.asm.slots)
    have final : c.final.slots.slots[d.asm.slots.result.1]? = some slot :=
      stored.evolves.slots_within _ _ (by rw [Assembler.slots_emit]; exact hslot)
    have leads := (Assembler.grows_serve (.result d.asm.slots) fun id => Slots.held_result).leads
    refine (Follows.silent leads rfl).before leads_emit ?_
    refine follows_next rfl stored fun f base vars s hpc hf hvars => ?_
    refine ⟨(), vars.setResult x, { f with
      stack := pre ++ base, locals := f.locals.setIfInBounds d.asm.slots.result.1 x }, rfl, ?_, rfl,
      rfl, (hvars.setResult final hr c.slots).congr rfl rfl rfl, ?_⟩
    · simp only [Frame.execute, Frame.pop, hf]
      show (Frame.setLocal _ _ x >>= _) = _
      rw [Frame.setLocal, if_pos (hvars.lt final)]
      rfl
    · -- The slot holds the result and nothing else, so no variable changes.
      refine .congr (Frame.beside_setLocal (fun slot' hslot' _ => ?_) fun slot' hslot' => ?_)
        rfl rfl rfl
      · rw [show (Assembler.slots _).slots[_]? = _ from hslot] at hslot'
        cases hslot'
        exact hr
      · rw [final] at hslot'
        cases hslot'
        rw [hr]
        decide

end Results

/-! ## The code of statements -/

section Statements

variable {σ : Type} {c : Setting σ} {env : BodyEnv} {pre : List Slot}

/-- A value is written out. -/
theorem means_echo {x : Slot} :
    Means c (-2) (emit .echo) (x :: .context :: pre)
      (fun _ => discard (Eval.request c.world (.echo x.toValue.text))) id fun _ => pre :=
  means_command [x, .context] rfl rfl rfl rfl fun f base hf => by
    simp only [Frame.execute, Frame.popValue, Frame.pop, hf]
    rfl

/-- A value is thrown. Nothing behind it matters. -/
theorem means_throwValue {x : Slot} {rest : List Slot} :
    Means c (-1) (emit .throw) (x :: pre)
      (fun _ => (throw (DispatchError.thrown x.toValue) : Eval σ Unit)) id fun _ => rest :=
  means_emit rfl rfl rfl fun _ hc => follows_throw rfl hc fun f base vars hf _ => by
    simp only [Frame.execute, Frame.popValue, Frame.pop, hf]
    rfl

theorem means_emitAction (action : Action) :
    Means c 0 (emitAction env action) pre
      (fun n => ((action.meaning c.world env).runFrom n).1)
      (fun n => ((action.meaning c.world env).runFrom n).2) fun _ => pre := by
  have value (e : Expr) : Pushes c (emitValue env e) (e.meaning c.world env) := (means_lower e).value
  cases action with
  | eval e => exact ((means_lower e).effect pre).map (fun _ => ()) fun _ => rfl
  | echo e =>
    exact (means_context.before fun _ => (value e (.context :: pre)).bind fun _ _ =>
      means_echo).cast rfl
  | «return» e =>
    cases e with
    | none =>
      exact ((means_push rfl rfl rfl fun _ => rfl).bind fun _ x => means_storeResult).cast rfl
    | some e => exact ((value e pre).bind fun _ _ => means_storeResult).cast rfl
  | throw e => exact ((value e pre).bind fun _ _ => means_throwValue).cast rfl

/-- The mark of a statement is no code. -/
theorem means_sequencePoint (span : Span) :
    Means c 0 (onAssembler (·.sequencePoint span)) pre (fun _ => pure ()) id fun _ => pre where
  emits := emits_sequencePoint span
  numbers d _ d' h := by
    rw [ends_onAssembler.mp h]
    rfl
  follows d _ d' _ _ h _ := by
    obtain rfl := ends_onAssembler.mp h
    exact .silent Assembler.grows_sequencePoint.leads rfl

theorem means_emitStatement (statement : Statement) :
    Means c 0 (emitStatement env statement) pre
      (fun n => ((statement.action.meaning c.world env).runFrom n).1)
      (fun n => ((statement.action.meaning c.world env).runFrom n).2) fun _ => pre := by
  have action : Means c 0 (emitAction env statement.action) pre
      (fun n => ((statement.action.meaning c.world env).runFrom n).1)
      (fun n => ((statement.action.meaning c.world env).runFrom n).2) fun _ => pre :=
    means_emitAction statement.action
  unfold emitStatement
  split
  · cases statement.span with
    | none => exact action
    | some span => exact ((means_sequencePoint span).before fun _ => action).cast rfl
  · exact action

/-- **The code of statements follows their meaning.** -/
theorem means_emitStatements (statements : List Statement) :
    Means c 0 (emitStatements env statements) pre
      (fun n => ((meaningStatements c.world env statements).runFrom n).1)
      (fun n => ((meaningStatements c.world env statements).runFrom n).2) fun _ => pre := by
  induction statements with
  | nil => exact means_pure fun _ => pre
  | cons statement rest ih =>
    exact ((means_emitStatement statement).bind fun _ _ => ih).cast rfl

end Statements

/-! ## Statements that throw, and statements that set no result -/

section Kept

variable {σ : Type} {world : World σ} {env : BodyEnv} {d d' : Draft} {statements : List Statement}

/-- Statements one of which throws come to no end. -/
theorem not_ok_of_throws (h : ∃ statement ∈ statements, statement.action.goesOn = false)
    (n : SiteId) :
    ((meaningStatements world env statements).runFrom n).1.Always fun _ => False := by
  induction statements generalizing n with
  | nil =>
    obtain ⟨_, mem, -⟩ := h
    cases mem
  | cons statement rest ih =>
    let first := (statement.action.meaning world env).runFrom n
    have both {P : Unit → Prop} (head : first.1.Always P)
        (others : ∀ x, P x → ((meaningStatements world env rest).runFrom first.2).1.Always
          fun _ => False) :
        ((meaningStatements world env (statement :: rest)).runFrom n).1.Always fun _ => False :=
      head.bind others
    obtain ⟨statement', mem, throws⟩ := h
    rcases List.mem_cons.mp mem with rfl | mem
    · refine both (P := fun _ => False) ?_ fun _ => False.elim
      cases haction : statement'.action with
      | throw value =>
        have thrown (x : Slot) : (MonadExcept.throw (DispatchError.thrown x.toValue) :
            Eval σ Unit).Always fun _ => False := by
          rintro vars s y w ⟨⟩
        simp only [first, haction]
        exact Eval.Always.trivial.bind fun x _ => thrown x
      | eval | echo | «return» =>
        rw [haction] at throws
        cases throws
    · exact both .trivial fun _ _ => ih ⟨statement', mem, throws⟩ first.2

/-- Only `return` sets the result. -/
theorem alike_action {action : Action} (h : ∀ value, action ≠ .return value) (n : SiteId) :
    Eval.Alike (fun _ : σ => True) False ((action.meaning world env).runFrom n).1
      ((action.meaning world env).runFrom n).1 := by
  have value (e : Expr) : Eval.Alike (fun _ : σ => True) False
      ((e.meaning world env).runFrom n).1 ((e.meaning world env).runFrom n).1 :=
    (alike_meaning (alikeOn_refl world) e False.elim n).1
  cases action with
  | eval e => exact (value e).discard
  | echo e => exact (value e).bind fun _ => (Eval.alike_request (alikeOn_refl world) _).discard
  | «return» e => exact (h e rfl).elim
  | throw e => exact (value e).bind fun _ => Eval.alike_throw _

theorem alike_meaningStatements
    (h : ∀ statement ∈ statements, ∀ value, statement.action ≠ .return value) (n : SiteId) :
    Eval.Alike (fun _ : σ => True) False ((meaningStatements world env statements).runFrom n).1
      ((meaningStatements world env statements).runFrom n).1 := by
  induction statements generalizing n with
  | nil => exact Eval.alike_pure _
  | cons statement rest ih =>
    exact (alike_action (h statement List.mem_cons_self) n).bind fun _ =>
      ih (fun other mem => h other (List.mem_cons_of_mem _ mem)) _

/-- The code of a `return` has a slot for the result. -/
theorem exists_resultSlot_of_return {statement : Statement} {value : Option Expr}
    (h : Ends (emitStatement env statement) d () d') (returns : statement.action = .return value) :
    ∃ (id : Nat) (slot : _), d'.asm.slots.slots[id]? = some slot ∧ slot.role = .result := by
  have stored (e : Draft) (h : Ends (do emit (.storeLocal (← withSlots (·.result)))) e () d') :
      ∃ (id : Nat) (slot : _), d'.asm.slots.slots[id]? = some slot ∧ slot.role = .result := by
    obtain rfl := ends_emit_handed.mp h
    obtain ⟨slot, hslot, hr⟩ := Slots.slot_result (s := e.asm.slots)
    exact ⟨_, slot, by rwa [Assembler.slots_emit], hr⟩
  have action (e : Draft) (h : Ends (emitAction env statement.action) e () d') :
      ∃ (id : Nat) (slot : _), d'.asm.slots.slots[id]? = some slot ∧ slot.role = .result := by
    rw [returns] at h
    cases value with
    | none =>
      obtain ⟨_, e', -, h⟩ := ends_bind.mp h
      exact stored e' h
    | some value =>
      obtain ⟨_, e', -, h⟩ := ends_bind.mp h
      exact stored e' h
  unfold emitStatement at h
  split at h
  · cases hs : statement.span with
    | none =>
      rw [hs] at h
      exact action d h
    | some span =>
      rw [hs] at h
      obtain ⟨_, e, -, h⟩ := ends_bind.mp h
      exact action e h
  · exact action d h

/-- Where a statement sets the result, the code has a slot for it. -/
theorem exists_resultSlot (hslots : d.asm.slots.Sound)
    (h : Ends (emitStatements env statements) d () d')
    (returns : ∃ statement ∈ statements, ∃ value, statement.action = .return value) :
    ∃ (id : Nat) (slot : _), d'.asm.slots.slots[id]? = some slot ∧ slot.role = .result := by
  induction statements generalizing d with
  | nil =>
    obtain ⟨_, mem, -⟩ := returns
    cases mem
  | cons statement rest ih =>
    obtain ⟨_, d₁, first, others⟩ := ends_bind.mp h
    have sound := ((emits_emitStatement statement).grows hslots first).sound hslots
    obtain ⟨statement', mem, value, same⟩ := returns
    rcases List.mem_cons.mp mem with rfl | mem
    · obtain ⟨id, slot, hslot, hr⟩ := exists_resultSlot_of_return first same
      have within := ((emits_emitStatements rest).grows sound others).evolves.slots_within
      exact ⟨id, slot, within id slot hslot, hr⟩
    · exact ih sound others ⟨statement', mem, value, same⟩

end Kept

end StackScript
