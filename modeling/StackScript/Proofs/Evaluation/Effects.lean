import StackScript.Proofs.Evaluation.Expressions

/-!
# Expressions for their effect

Where the value of an expression is not needed, assignments have code of their own, which never has
the value twice. It does what the code for the value does with a `pop` behind it: there is such code
for the same expressions, and both come to the same ending in every world. Only scratch slots differ.

## Main definitions

* `Ending`, `Setting.EndsIn`: what is seen of a frame where it leaves a stretch of code
* `World.watched`: a world that remembers the request that it leaves unanswered

## Main results

* `settles_lower`: there is code for the effect of an expression exactly if there is for its value
* `exists_ending`: stretches that follow one computation come to one ending
* `emitEffect_like_emitValue`: evaluating for the effect is evaluating and dropping the value
-/

namespace StackScript

open Emit
open Assembler (Evolves)

/-! ## Code for the value and for the effect -/

/-- Both steps succeed wherever they are taken, or neither does anywhere. -/
def Emit.SettleAlike (step step' : Emit Unit) : Prop :=
  Succeeds step ∧ Succeeds step' ∨ Stops step ∧ Stops step'

namespace Emit.SettleAlike

variable {step step' : Emit Unit}

theorem ends_iff (h : SettleAlike step step') (d : Draft) :
    (∃ d', Ends step d () d') ↔ ∃ d', Ends step' d () d' := by
  rcases h with ⟨h, h'⟩ | ⟨h, h'⟩
  · obtain ⟨_, d₁, ends⟩ := h d
    obtain ⟨_, d₂, ends'⟩ := h' d
    exact ⟨fun _ => ⟨d₂, ends'⟩, fun _ => ⟨d₁, ends⟩⟩
  · constructor
    · rintro ⟨d', ends⟩
      exact (h d () d' ends).elim
    · rintro ⟨d', ends⟩
      exact (h' d () d' ends).elim

/-- Parts that always succeed do not matter: the steps settle with what they share. -/
theorem of_settled {shared : Emit Unit} (settled : Succeeds shared ∨ Stops shared)
    (h : Succeeds shared → SettleAlike step step') (stops : Stops shared → Stops step)
    (stops' : Stops shared → Stops step') : SettleAlike step step' := by
  rcases settled with succeeds | never
  · exact h succeeds
  · exact .inr ⟨stops never, stops' never⟩

end Emit.SettleAlike

section Settling

variable {env : BodyEnv} {field : String} {type : QualifiedName}

theorem settles_ofValue {value : Emit Unit} (h : Succeeds value ∨ Stops value) :
    SettleAlike (Lowered.ofValue value).effect value :=
  .of_settled h (fun succeeds => .inl ⟨succeeds.bind fun _ => succeeds_emit, succeeds⟩)
    (fun stops => stops.bind) id

theorem settles_fieldStore {receiver value : Emit Unit} (hr : Succeeds receiver ∨ Stops receiver)
    (hv : Succeeds value ∨ Stops value) :
    SettleAlike (do receiver; value; emit (.storeField field))
      (lowerFieldStore receiver field value) := by
  have handed : Succeeds scratch := fun _ => ⟨_, _, ends_scratch.mpr ⟨rfl, rfl⟩⟩
  refine .of_settled hr (fun receiver => ?_) (fun stops => stops.bind) fun stops => stops.bind
  refine .of_settled hv (fun value => .inl ⟨?_, ?_⟩) (fun stops => stops_bind fun _ => stops.bind)
    fun stops => stops_bind fun _ => stops.bind
  · exact receiver.bind fun _ => value.bind fun _ => succeeds_emit
  · exact receiver.bind fun _ => value.bind fun _ => handed.bind fun _ => succeeds_emit.bind
      fun _ => succeeds_emit.bind fun _ => succeeds_emit.bind fun _ => succeeds_emit.bind
      fun _ => succeeds_onAssembler

/-- The field is found for both, or for neither. -/
theorem settles_onStatic {next next' : QualifiedName × Bool → Emit Unit}
    (h : ∀ found, SettleAlike (next found) (next' found)) :
    SettleAlike (resolveStaticField env type field >>= next)
      (resolveStaticField env type field >>= next') := by
  have never {e : Cause} {next : QualifiedName × Bool → Emit Unit} :
      Stops ((throw e : Emit (QualifiedName × Bool)) >>= next) :=
    Stops.bind fun _ _ _ => not_ends_throw
  unfold resolveStaticField
  split
  case h_1 =>
    simp only [pure_bind]
    exact h _
  case h_2 =>
    split
    · exact .inr ⟨never, never⟩
    · exact .inr ⟨never, never⟩

/-- The context is loaded in front of the value or behind it, but it is loaded for both. -/
theorem settles_storeStatic {value : Emit Unit} (hv : Succeeds value ∨ Stops value) :
    SettleAlike (storeStatic env type field value false)
      (storeStatic env type field value true) := by
  have handed : Succeeds scratch := fun _ => ⟨_, _, ends_scratch.mpr ⟨rfl, rfl⟩⟩
  have released (id : LocalId) : Succeeds (release id) := succeeds_onAssembler
  unfold storeStatic
  refine settles_onStatic fun ⟨owner, bound⟩ => ?_
  cases bound with
  | false =>
    refine .of_settled hv (fun value => .inl ⟨?_, ?_⟩) (fun stops => stops.bind)
      fun stops => stops.bind
    · exact value.bind fun _ => succeeds_emit
    · exact value.bind fun _ => succeeds_emit.bind fun _ => succeeds_emit
  | true =>
    refine .of_settled hv (fun value => ?_) (fun stops => stops_bind fun _ => stops.bind)
      fun stops => stops.bind
    refine .of_settled careful_loadContext.settled (fun context => .inl ⟨?_, ?_⟩)
      (fun stops => stops.bind)
      fun stops => stops_bind fun _ => stops_bind fun _ => stops_bind fun _ => stops.bind
    · exact context.bind fun _ => value.bind fun _ => succeeds_emit
    · exact value.bind fun _ => handed.bind fun id => succeeds_emit.bind fun _ =>
        context.bind fun _ => succeeds_emit.bind fun _ => succeeds_emit.bind fun _ =>
        succeeds_emit.bind fun _ => released id

/-- **There is code for the effect of an expression exactly if there is code for its value.** -/
theorem settles_lower (e : Expr) : SettleAlike (lower env e).effect (lower env e).value := by
  have settled (e : Expr) : Succeeds (lower env e).value ∨ Stops (lower env e).value :=
    (careful_lower e).value.settled
  have here := settled e
  cases e with
  | assign target value =>
    rw [lower]
    refine .of_settled (settled value) (fun value => ?_) (fun stops => stops.bind)
      fun stops => stops.bind
    refine .of_settled (careful_storeVariable target).settled (fun stored => .inl ⟨?_, ?_⟩)
      (fun stops => stops_bind fun _ => stops)
      fun stops => stops_bind fun _ => stops_bind fun _ => stops
    · exact value.bind fun _ => stored
    · exact value.bind fun _ => succeeds_emit.bind fun _ => stored
  | fieldStore receiver field value =>
    rw [lower]
    exact settles_fieldStore (settled receiver) (settled value)
  | staticStore type field value =>
    rw [lower]
    exact settles_storeStatic (settled value)
  | literal | var | binary | unary | call | methodCall | create | this | fieldLoad | staticLoad
  | array | instanceOf =>
    -- Everything else is written for its value, with a `pop` behind it.
    rw [lower] at here ⊢
    exact settles_ofValue here

end Settling

/-! ## Endings -/

/-- What is seen of a frame where it leaves a stretch of code: the stack and the variables behind
the stretch, the error that stops it, or the request that is never answered. Effects that came
before are seen in the state of the world. -/
inductive Ending (σ : Type) where
  | falls (stack : List Slot) (vars : Vars) (s : σ)
  | stops (error : DispatchError) (vars : Vars) (s : σ)
  | waits (request : Request) (s : σ)

variable {σ β : Type}

/-- A frame in front of a stretch of code comes to an ending. Its enumerators, its completions and
the scratch slots in use are left alone. -/
inductive Setting.EndsIn (c : Setting σ) (a b : Assembler) (f : Frame) (s : σ) : Ending σ → Prop
  /-- Behind the stretch. -/
  | falls {f' vars s'} : c.Reaches (.running f, s) (.running f', s') → f'.pc = b.code.size →
      f'.Agrees c.final.slots vars → f.Beside a.slots c.final.slots f' →
      c.EndsIn a b f s (.falls f'.stack vars s')
  /-- At an error in the stretch. -/
  | stops {e vars f' s'} : c.Reaches (.running f, s) (c.body.raise f' e, s') →
      a.code.size ≤ f'.pc → f'.pc < b.code.size → f'.Agrees c.final.slots vars →
      f.Beside a.slots c.final.slots f' → c.EndsIn a b f s (.stops e vars s')
  /-- At a request that is never answered. -/
  | waits {r f' s'} : c.Reaches (.running f, s) (.asking r f', s') →
      (c.world r).run.run s' = none → c.EndsIn a b f s (.waits r s')

/-! ## Worlds that are watched -/

/-- The world with a watcher. A request that the world never answers fails, and is remembered with
the state of the world; nothing is asked of the world from then on. -/
def World.watched (world : World σ) : World (σ ⊕ Request × σ) := fun r => ExceptT.mk fun
  | .inl s =>
    match (world r).run.run s with
    | some (answer, s') => some (answer, .inl s')
    | none => some (.error (.failed .noReceiver), .inr (r, s))
  | .inr unanswered => some (.error (.failed .noReceiver), .inr unanswered)

/-- The setting with a watcher in its world. -/
def Setting.watched (c : Setting σ) : Setting (σ ⊕ Request × σ) where
  world := c.world.watched
  body := c.body
  final := c.final
  out := c.out
  maxLocals := c.maxLocals
  written := c.written
  finished := c.finished
  code := c.code

section Watched

variable {world : World σ} {body : Body} {c : Setting σ} {a b : Assembler} {f : Frame} {s : σ}
    {base : List Slot}

theorem World.run_watched (r : Request) (s : σ) :
    (world.watched r).run.run (.inl s) =
      match (world r).run.run s with
      | some (answer, s') => some (answer, .inl s')
      | none => some (.error (.failed .noReceiver), .inr (r, s)) := rfl

/-- What a run with the watcher tells of the run without it: the same steps, or the request that is
never answered. -/
def World.Tells (world : World σ) (body : Body) (x : Step × σ) :
    Step × (σ ⊕ Request × σ) → Prop
  | (y, .inl s) => Reaches world body x (y, s)
  | (_, .inr (r, s)) => ∃ f, Reaches world body x (.asking r f, s) ∧ (world r).run.run s = none

/-- The induction is on the last step: the watcher sees an unanswered request at most once. -/
theorem Reaches.tells {x : Step × σ} {z : Step × (σ ⊕ Request × σ)}
    (h : Reaches world.watched body (x.1, .inl x.2) z) : world.Tells body x z := by
  induction h with
  | refl => exact .refl x
  | tail _ move before =>
    cases move with
    | @step f t =>
      cases t with
      | inl s => exact before.trans (.single .step)
      | inr => exact before
    | @resume r f t answer t' answered =>
      cases t with
      | inr =>
        cases answered
        exact before
      | inl s =>
        rw [World.run_watched] at answered
        split at answered
        case h_1 answer' s' hw =>
          cases answered
          exact before.trans (.single (.resume hw))
        case h_2 hw =>
          cases answered
          exact ⟨f, before, hw⟩

/-- The ending that the outcome of a computation stands for, where the watcher looks on. -/
def Ending.of? (post : β → List Slot) (base : List Slot) :
    Option (Except DispatchError β × Vars × (σ ⊕ Request × σ)) → Option (Ending σ)
  | some (_, _, .inr (r, s)) => some (.waits r s)
  | some (.ok x, vars, .inl s) => some (.falls (post x ++ base) vars s)
  | some (.error e, vars, .inl s) => some (.stops e vars s)
  | none => none

theorem Comes.endsIn {post : β → List Slot}
    {r : Option (Except DispatchError β × Vars × (σ ⊕ Request × σ))}
    (h : Comes c.watched a b base post f (.inl s) r) :
    ∃ ending, Ending.of? post base r = some ending ∧ c.EndsIn a b f s ending := by
  have tells {z : Step × (σ ⊕ Request × σ)}
      (reach : c.watched.Reaches (.running f, .inl s) z) : c.world.Tells c.body (.running f, s) z :=
    Reaches.tells reach
  cases h with
  | @ends x vars t f' reach hpc hstack hvars beside =>
    cases t with
    | inl s' =>
      refine ⟨_, rfl, ?_⟩
      rw [← hstack]
      exact .falls (tells reach.reaches) hpc hvars beside
    | inr unanswered =>
      obtain ⟨g, waiting, hnone⟩ := tells reach.reaches
      exact ⟨_, rfl, .waits waiting hnone⟩
  | @fails e vars t f' reach hle hlt hvars beside =>
    cases t with
    | inl s' => exact ⟨_, rfl, .stops (tells reach.reaches) hle hlt hvars beside⟩
    | inr unanswered =>
      obtain ⟨g, waiting, hnone⟩ := tells reach.reaches
      exact ⟨_, rfl, .waits waiting hnone⟩
  | @waits r f' t _ hnone =>
    -- With the watcher, every request is answered.
    have answered : (c.world.watched r).run.run t ≠ none := by
      cases t with
      | inl s' =>
        rw [World.run_watched]
        split <;> exact Option.some_ne_none _
      | inr => exact Option.some_ne_none _
    exact (answered hnone).elim

/-- **Stretches that follow one computation come to one ending**, in every world. -/
theorem exists_ending {c' : Setting σ} {b' : Assembler} {pre : List Slot}
    {m : Eval (σ ⊕ Request × σ) β} {post : β → List Slot} {f' : Frame} {vars : Vars}
    (h : Follows c.watched a b pre m post) (h' : Follows c'.watched a b' pre m post)
    (hpc : f.pc = a.code.size) (hpc' : f'.pc = a.code.size) (hstack : f.stack = pre ++ base)
    (hstack' : f'.stack = f.stack) (hvars : f.Agrees c.final.slots vars)
    (hvars' : f'.Agrees c'.final.slots vars) :
    ∃ ending, c.EndsIn a b f s ending ∧ c'.EndsIn a b' f' s ending := by
  obtain ⟨ending, outcome, ends⟩ := (h.comes f base vars (.inl s) hpc hstack hvars).endsIn
  obtain ⟨ending', outcome', ends'⟩ :=
    (h'.comes f' base vars (.inl s) hpc' (hstack'.trans hstack) hvars').endsIn
  obtain rfl : ending = ending' := Option.some.inj (outcome.symm.trans outcome')
  exact ⟨ending, ends, ends'⟩

end Watched

/-! ## Effects -/

/-- The code of a step, in a body that it is part of, follows a computation. -/
theorem Means.follows_of_behind {c : Setting σ} {k : Int} {step : Emit Unit} {pre : List Slot}
    {m : SiteId → Eval σ β} {next : SiteId → SiteId} {post : β → List Slot} {d d' : Draft}
    (h : Means c k step pre m next post) (written : Assembler.empty.Evolves d.asm)
    (ends : Ends step d () d') (behind : d'.asm.Evolves c.final) :
    Follows c d.asm d'.asm pre (m d.nextSite) post := by
  have slots : d.asm.slots.Sound := written.slots_sound Slots.sound_empty
  have grows := h.emits.grows slots ends
  have fault : d.asm.fault = none :=
    (grows.evolves.trans behind).fault (Assembler.finish_cases c.finished).1
  exact h.follows d () d' (written.sound Assembler.sound_empty fault) slots ends behind

/-- **Evaluating for the effect is evaluating and dropping the value.** There is code for the one
exactly if there is code for the other, whatever was written before. Frames in front of the two
stretches of code, in bodies that they are part of, come to one ending in every world: the same
effects in the same order, the same error if there is one, the same stack, parameters and variables.
Nothing is said of scratch slots that are free. -/
theorem emitEffect_like_emitValue (env : BodyEnv) (e : Expr) (d : Draft) :
    ((∃ d', Ends (emitEffect env e) d () d') ↔ ∃ d', Ends (emitValue env e) d () d') ∧
    ∀ (c c' : Setting σ) (forEffect forValue : Draft), c'.world = c.world →
      Assembler.empty.Evolves d.asm → Ends (emitEffect env e) d () forEffect →
      Ends (do emitValue env e; emit .pop) d () forValue →
      forEffect.asm.Evolves c.final → forValue.asm.Evolves c'.final →
      ∀ (f f' : Frame) (vars : Vars) (s : σ), f.pc = d.asm.code.size → f'.pc = d.asm.code.size →
        f'.stack = f.stack → f.Agrees c.final.slots vars → f'.Agrees c'.final.slots vars →
        ∃ ending, c.EndsIn d.asm forEffect.asm f s ending ∧
          c'.EndsIn d.asm forValue.asm f' s ending := by
  refine ⟨(settles_lower e).ends_iff d, ?_⟩
  intro c c' forEffect forValue same written effect value behind behind' f f' vars s hpc hpc' hstack
    hvars hvars'
  have means (c : Setting (σ ⊕ Request × σ)) :
      (lower env e).Means c (e.meaning c.world env) := means_lower e
  have first := ((means c.watched).effect []).follows_of_behind written effect behind
  have second := ((means_ofValue (means c'.watched).value).effect []).follows_of_behind written value
    behind'
  have world : c'.watched.world = c.watched.world := congrArg World.watched same
  rw [world] at second
  exact exists_ending first second hpc hpc' rfl hstack hvars hvars'

/-- A world that records its requests and answers `null`. -/
def World.recording : World (List Request) := fun r => do
  modify (· ++ [r])
  return .null

/-- Code that can be finished is the code of a body. -/
theorem Setting.exists_of_writes {k : Int} {step : Emit Unit} (world : World σ)
    (emits : Emits k step) {n : Nat} (writes : ((step.run (.start 0)).1.isOk &&
      ((step.run (.start 0)).2.asm.finish n).isOk) = true) :
    ∃ c : Setting σ, c.world = world ∧ Ends step (.start 0) () (step.run (.start 0)).2 ∧
      c.final = (step.run (.start 0)).2.asm := by
  rcases hrun : step.run (.start 0) with ⟨result, d⟩
  rw [hrun] at writes
  obtain ⟨ok, finishes⟩ := (Bool.and_eq_true _ _).mp writes
  cases result with
  | error => cases ok
  | ok =>
    cases hfinish : d.asm.finish n with
    | error =>
      rw [hfinish] at finishes
      cases finishes
    | ok out =>
      refine ⟨{
        world
        body := ⟨.function ⟨"f"⟩, .routine, [], false, true, "f", out.code, [], [], 0, #[], [], []⟩
        final := d.asm
        out
        maxLocals := n
        written := (emits.grows Slots.sound_empty hrun).evolves
        finished := hfinish
        code := rfl }, rfl, hrun, rfl⟩

/-- An assignment to a field, with an assignment and a call in it. -/
def assigningField : Expr := .fieldStore .this "p" (.assign "x" (.call ⟨"g"⟩ []))

theorem emitEffect_like_emitValue_assigningField :
    ∃ (env : BodyEnv) (c c' : Setting (List Request)) (forEffect forValue : Draft) (f f' : Frame),
      Ends (emitEffect env assigningField) (.start 0) () forEffect ∧
      Ends (do emitValue env assigningField; emit .pop) (.start 0) () forValue ∧
      forEffect.asm.code.size < forValue.asm.code.size ∧
      ∃ ending, c.EndsIn .empty forEffect.asm f [] ending ∧
        c'.EndsIn .empty forValue.asm f' [] ending := by
  let env : BodyEnv := { BodyEnv.bare with isStatic := false }
  let effect := emitEffect env assigningField
  let value : Emit Unit := do emitValue env assigningField; emit .pop
  have writes : ((effect.run (.start 0)).1.isOk &&
        ((effect.run (.start 0)).2.asm.finish 16).isOk) = true ∧
      ((value.run (.start 0)).1.isOk && ((value.run (.start 0)).2.asm.finish 16).isOk) = true ∧
      (effect.run (.start 0)).2.asm.code.size < (value.run (.start 0)).2.asm.code.size := by
    decide +kernel
  have careful : (Lowered.ofValue (emitValue env assigningField)).Careful :=
    careful_ofValue (careful_emitValue assigningField)
  obtain ⟨c, world, hasEffect, final⟩ :=
    Setting.exists_of_writes .recording (careful_emitEffect assigningField).emits writes.1
  obtain ⟨c', world', hasValue, final'⟩ :=
    Setting.exists_of_writes .recording careful.effect.emits writes.2.1
  let receiver : Value := .object ⟨0, .extend none 0 "C" []⟩
  let f (slots : Slots) : Frame :=
    ⟨0, some receiver, #[], slots.slots.map fun _ => .unset, #[], [], []⟩
  have agrees (slots : Slots) :
      (f slots).Agrees slots ⟨some receiver, fun _ => .unset, fun _ => .unset, .unset⟩ :=
    have unset {id : Nat} {slot : LocalSlot} (h : slots.slots[id]? = some slot) :
        (f slots).locals[id]? = some .unset := by
      rw [Array.getElem?_map, h]
      rfl
    ⟨rfl, fun _ => rfl, fun _ _ h => unset h, fun _ _ h _ => unset h, Array.size_map⟩
  obtain ⟨ending, first, second⟩ := (emitEffect_like_emitValue env assigningField (.start 0)).2 c c'
    _ _ (world'.trans world.symm) (.refl _) hasEffect hasValue (final ▸ .refl _) (final' ▸ .refl _)
    (f c.final.slots) (f c'.final.slots) _ [] rfl rfl rfl (agrees _) (agrees _)
  exact ⟨env, c, c', _, _, _, _, hasEffect, hasValue, writes.2.2, ending, first, second⟩

end StackScript
