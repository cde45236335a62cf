import StackScript.Proofs.Evaluation.Follows
import StackScript.Proofs.Evaluation.Meaning

/-!
# The code of expressions follows their meaning

Each way to write code is matched with a computation, the numbers of call sites included. The parts
of an expression are put together as their code is: one computation behind the other.

## Main definitions

* `Means`: the code that a step writes follows a computation
* `Lowered.Means`: the code of an expression, for its value and for its effect

## Main results

* `Means.bind`: steps one behind the other
* `Means.comes`: what a frame in front of the code comes to
-/

namespace StackScript

open Emit
open Assembler (Evolves Grows grows_serve)

/-! ## Numbers of call sites -/

namespace Numbered

variable {α β : Type}

/-- What comes of a first number, and the number behind it. -/
def runFrom (m : Numbered α) (n : SiteId) : α × SiteId := Id.run (m.run n)

/-- One thing behind the other. -/
def all : List (Numbered α) → Numbered (List α)
  | [] => return []
  | first :: rest => do
    let x ← first
    return x :: (← all rest)

@[simp] theorem runFrom_pure (x : α) (n : SiteId) : (pure x : Numbered α).runFrom n = (x, n) := rfl

@[simp] theorem runFrom_site (n : SiteId) : site.runFrom n = (n, n + 1) := rfl

@[simp] theorem runFrom_bind (m : Numbered α) (k : α → Numbered β) (n : SiteId) :
    (m >>= k).runFrom n = (k (m.runFrom n).1).runFrom (m.runFrom n).2 := rfl

@[simp] theorem runFrom_all_nil (n : SiteId) : (all ([] : List (Numbered α))).runFrom n = ([], n) :=
  rfl

@[simp] theorem runFrom_all_cons (m : Numbered α) (rest : List (Numbered α)) (n : SiteId) :
    (all (m :: rest)).runFrom n =
      ((m.runFrom n).1 :: ((all rest).runFrom (m.runFrom n).2).1,
        ((all rest).runFrom (m.runFrom n).2).2) := rfl

end Numbered

/-! ## Steps and computations -/

/-- The code that a step writes follows a computation, for the numbers of call sites that the step
finds: it takes some values from the stack, and leaves others there. -/
structure Means {σ α β : Type} (c : Setting σ) (k : Int) (step : Emit α) (pre : List Slot)
    (m : SiteId → Eval σ β) (next : SiteId → SiteId) (post : β → List Slot) : Prop where
  emits : Emits k step
  numbers : ∀ d x d', Ends step d x d' → d'.nextSite = next d.nextSite
  follows : ∀ d x d', d.asm.Sound → d.asm.slots.Sound → Ends step d x d' →
    d'.asm.Evolves c.final → Follows c d.asm d'.asm pre (m d.nextSite) post

section Steps

variable {σ α β γ δ : Type} {c : Setting σ} {j k : Int} {step : Emit α} {cont : α → Emit β}
    {pre : List Slot} {m : SiteId → Eval σ γ} {q : SiteId → γ → Eval σ δ}
    {next next' : SiteId → SiteId} {post : γ → List Slot} {post' : δ → List Slot} {i : Instruction}
    {r : Request} (operands : List Slot)

namespace Means

/-- Steps one behind the other. -/
theorem bindWhere {P : γ → Prop} (h : Means c j step pre m next post) (hP : ∀ n, (m n).Always P)
    (hex : ∃ x, P x)
    (h' : ∀ u x, P x → Means c k (cont u) (post x) (fun n => q n x) next' post') :
    Means c (j + k) (step >>= cont) pre (fun n => m n >>= q (next n)) (fun n => next' (next n))
      post' where
  emits := h.emits.bind (fun u => (h' u hex.choose hex.choose_spec).emits) rfl
  numbers d y d' he := by
    obtain ⟨u, e, hx, hy⟩ := ends_bind.mp he
    rw [(h' u hex.choose hex.choose_spec).numbers _ _ _ hy, h.numbers _ _ _ hx]
  follows d y d' hd hslots he hc := by
    obtain ⟨u, e, hx, hy⟩ := ends_bind.mp he
    have first := h.emits.grows hslots hx
    have second := (h' u hex.choose hex.choose_spec).emits.grows (first.sound hslots) hy
    have reads := Setting.Reads.of_evolves hd first.evolves (second.evolves.trans hc)
    have head := h.follows d u e hd hslots hx reads.evolves
    refine head.bindWhere (hP _) second.leads fun x hPx => ?_
    have tail := (h' u x hPx).follows e y d' reads.sound (first.sound hslots) hy hc
    rwa [h.numbers _ _ _ hx] at tail

theorem bind [Inhabited γ] (h : Means c j step pre m next post)
    (h' : ∀ u x, Means c k (cont u) (post x) (fun n => q n x) next' post') :
    Means c (j + k) (step >>= cont) pre (fun n => m n >>= q (next n)) (fun n => next' (next n))
      post' :=
  h.bindWhere (P := fun _ => True) (fun _ => .trivial) ⟨default, trivial⟩ fun u x _ => h' u x

theorem cast (h : Means c j step pre m next post) (hk : j = k) : Means c k step pre m next post :=
  hk ▸ h

/-- The value of the computation, under another name. -/
theorem map (h : Means c k step pre m next post) (g : γ → δ) (hg : ∀ x, post' (g x) = post x) :
    Means c k step pre (fun n => m n >>= fun x => pure (g x)) next post' where
  emits := h.emits
  numbers := h.numbers
  follows d x d' hd hslots he hc :=
    (h.follows d x d' hd hslots he hc).bind (.refl _) fun y => hg y ▸ .nothing _ (.refl _) rfl

/-- Behind the computation, code that only rearranges values. -/
theorem after [Inhabited γ] {post' : γ → List Slot} (h : Means c j step pre m next post)
    (h' : ∀ u x, Means c k (cont u) (post x) (fun _ => pure x) id post') :
    Means c (j + k) (step >>= cont) pre m next post' := by
  have both := h.bind (q := fun _ x => pure x) h'
  simpa only [bind_pure, id] using both

/-- In front of the computation, code that only rearranges values. -/
theorem before {mid : List Slot} {m : SiteId → Eval σ γ}
    (h : Means c j step pre (fun _ => pure ()) id fun _ => mid)
    (h' : ∀ u, Means c k (cont u) mid m next post) :
    Means c (j + k) (step >>= cont) pre m next post := by
  have both := h.bind (q := fun n _ => m n) fun u _ => h' u
  simpa only [pure_bind, id] using both

/-- What lies below does not matter. -/
theorem frame (h : Means c k step pre m next post) (rest : List Slot) :
    Means c k step (pre ++ rest) m next fun x => post x ++ rest where
  emits := h.emits
  numbers := h.numbers
  follows d x d' hd hslots he hc := (h.follows d x d' hd hslots he hc).frame rest

/-- What a frame in front of the code comes to, wherever the code stands in a body. The variables
are those that the frame has. -/
theorem comes (h : Means c k step pre m next post) {d d' : Draft} {x : α}
    (written : Assembler.empty.Evolves d.asm) (ends : Ends step d x d')
    (behind : d'.asm.Evolves c.final) {f : Frame} {base : List Slot} (s : σ)
    (hpc : f.pc = d.asm.code.size) (hstack : f.stack = pre ++ base)
    (hsize : f.locals.size = c.final.slots.slots.size) :
    Comes c d.asm d'.asm base post f s ((m d.nextSite).outcome (f.vars c.final.slots) s) := by
  have slots : d.asm.slots.Sound := written.slots_sound Slots.sound_empty
  have grows := h.emits.grows slots ends
  have fault : d.asm.fault = none :=
    (grows.evolves.trans behind).fault (Assembler.finish_cases c.finished).1
  have follows := h.follows d x d' (written.sound Assembler.sound_empty fault) slots ends behind
  exact follows.comes f base _ s hpc hstack (Frame.agrees_vars c.slots hsize)

end Means

theorem means_pure (post : γ → List Slot) {x : α} {y : γ} :
    Means c 0 (pure x : Emit α) (post y) (fun _ => pure y) id post where
  emits := emits_pure
  numbers d _ d' h := by
    obtain ⟨-, rfl⟩ := ends_pure.mp h
    rfl
  follows d _ d' _ _ h _ := by
    obtain ⟨-, rfl⟩ := ends_pure.mp h
    exact .nothing _ (.refl _) rfl

theorem means_throw {e : Cause} : Means c k (throw e : Emit α) pre m next post where
  emits := emits_throw
  numbers _ _ _ h := (not_ends_throw h).elim
  follows _ _ _ _ _ h _ := (not_ends_throw h).elim

/-- A single instruction. -/
theorem means_emit {m : Eval σ γ} (hp : i.isPlain = true) (hl : i.local? = none)
    (hk : i.change = k) (h : ∀ a, c.Reads (a.emit i) → Follows c a (a.emit i) pre m post) :
    Means c k (emit i) pre (fun _ => m) id post where
  emits := emits_emit hp hl hk
  numbers d _ d' h := by
    rw [ends_emit.mp h]
    rfl
  follows d _ d' hd _ he hc := by
    have hd' := ends_emit.mp he
    subst hd'
    exact h _ (.of_evolves hd (.single (.emit (Instruction.target_of_isPlain hp))) hc)

/-- An instruction that only changes the stack. -/
theorem means_stack {x : γ} (hp : i.isPlain = true) (hl : i.local? = none) (hk : i.change = k)
    (h : ∀ (f : Frame) base, f.stack = pre ++ base →
      f.execute i = .ok (.next { f with stack := post x ++ base })) :
    Means c k (emit i) pre (fun _ => pure x) id post :=
  means_emit hp hl hk fun _ hc => follows_stack (Instruction.target_of_isPlain hp) hc h

/-- An instruction whose answer is pushed, in place of the operands that it takes. -/
theorem means_request (hp : i.isPlain = true) (hl : i.local? = none) (hk : i.change = k)
    (hy : r.yields = true)
    (h : ∀ (f : Frame) base, f.stack = operands ++ base →
      f.execute i = .ok (.ask r { f with stack := base })) :
    Means c k (emit i) (operands ++ pre)
      (fun _ => Eval.request c.world r >>= fun v => pure (Slot.value v)) id fun x => x :: pre := by
  have asked : Means c k (emit i) operands (fun _ => Eval.request c.world r) id
      fun v => if r.yields then [.value v] else [] :=
    means_emit hp hl hk fun _ hc => follows_request (Instruction.target_of_isPlain hp) hc h
  exact (asked.frame pre).map Slot.value fun v => by rw [hy, if_pos rfl, List.singleton_append]

/-- An instruction whose answer is none, with the operands that it takes. -/
theorem means_command (hp : i.isPlain = true) (hl : i.local? = none) (hk : i.change = k)
    (hy : r.yields = false)
    (h : ∀ (f : Frame) base, f.stack = operands ++ base →
      f.execute i = .ok (.ask r { f with stack := base })) :
    Means c k (emit i) (operands ++ pre) (fun _ => discard (Eval.request c.world r)) id
      fun _ => pre := by
  have asked : Means c k (emit i) operands (fun _ => Eval.request c.world r) id
      fun v => if r.yields then [.value v] else [] :=
    means_emit hp hl hk fun _ hc => follows_request (Instruction.target_of_isPlain hp) hc h
  rw [hy] at asked
  exact (asked.frame pre).map (fun _ => ()) fun _ => rfl

end Steps

/-- A step that never ends means anything. -/
theorem means_never {σ α β : Type} {c : Setting σ} {k : Int} {step : Emit α} {pre : List Slot}
    {m : SiteId → Eval σ β} {next : SiteId → SiteId} {post : β → List Slot}
    (h : ∀ d x d', ¬ Ends step d x d') : Means c k step pre m next post where
  emits _ _ _ _ he := (h _ _ _ he).elim
  numbers _ _ _ he := (h _ _ _ he).elim
  follows _ _ _ _ _ he _ := (h _ _ _ he).elim

/-! ## Variables -/

section Variables

variable {σ : Type} {c : Setting σ} {env : BodyEnv} {pre : List Slot} {x : Slot} (name : String)

/-- A constant is pushed, whatever lies below. -/
theorem means_push {i : Instruction} (hp : i.isPlain = true) (hl : i.local? = none)
    (hk : i.change = 1)
    (h : ∀ f : Frame, f.execute i = .ok (.next (f.push x))) :
    Means c 1 (emit i) pre (fun _ => pure x) id fun y => y :: pre :=
  means_stack hp hl hk fun f base hf => by
    rw [h, Frame.push, hf]
    rfl

/-- The context below what follows. -/
theorem means_context :
    Means c 1 (loadContext env) pre (fun _ => pure ()) id fun _ => .context :: pre := by
  unfold loadContext
  split
  · refine means_emit rfl rfl rfl fun a hc => follows_stack rfl hc fun f base hf => ?_
    rw [List.cons_append, ← hf]
    rfl
  · exact means_throw

theorem means_loadContext :
    Means c 1 (loadContext env) pre (fun _ => pure Slot.context) id fun y => y :: pre :=
  means_context.map (fun _ => Slot.context) fun _ => rfl

theorem means_loadLiteral (literal : Literal) :
    Means c 1 (loadLiteral literal) pre (fun _ => pure (.value literal.value)) id
      fun y => y :: pre := by
  cases literal <;> exact means_push rfl rfl rfl fun _ => rfl

/-- The receiver, if there is one. -/
theorem means_loadThis :
    Means c 1 (loadThis env) pre (fun _ => Eval.readReceiver) id fun y => y :: pre := by
  unfold loadThis
  split
  · exact means_throw
  refine means_emit rfl rfl rfl fun a hc => ⟨leads_emit, fun f base vars s hpc hf hvars => ?_⟩
  have hi : c.body.code[f.pc]? = some .loadThis := hpc ▸ hc.last rfl
  unfold Eval.readReceiver
  rw [Eval.outcome_bind, Eval.outcome_vars]
  dsimp only
  have receiver := hvars.receiver
  cases hr : vars.receiver with
  | some value =>
    rw [hr] at receiver
    have execute : f.execute .loadThis = .ok (.next (f.pushValue value)) := by
      simp only [Frame.execute, receiver]
      rfl
    refine .ends (.next (step_next hi execute) (Nat.lt_succ_self _) (.refl _)) ?_ ?_
      (hvars.congr rfl rfl rfl)
      (.congr (.refl _ _) rfl rfl rfl)
    · simp [Frame.pushValue, Frame.push, hpc]
    · simp [Frame.pushValue, Frame.push, hf]
  | none =>
    rw [hr] at receiver
    have execute : f.execute .loadThis = .error (.failed .noReceiver) := by
      simp only [Frame.execute, receiver]
    have inside : f.pc < (a.emit .loadThis).code.size := by simp [hpc]
    exact .fails (.step inside (step_error hi execute)) (Nat.le_of_eq hpc.symm) inside hvars
      (.refl _ f)

/-- An instruction on the argument slot of a parameter. -/
theorem means_argument {β : Type} {k : Int} {index : Nat} {i : Nat → Instruction}
    {m : SiteId → Eval σ β} {next : SiteId → SiteId} {post : β → List Slot}
    (h : Means c k (emit (i (index + 1))) pre m next post) :
    Means c k (do emit (i (← argumentSlot index))) pre m next post := by
  unfold argumentSlot
  split
  · rw [pure_bind]
    exact h
  · refine means_never fun d u d' he => ?_
    obtain ⟨_, _, hthrow, -⟩ := ends_bind.mp he
    exact not_ends_throw hthrow

/-- The value of an argument. -/
theorem means_loadArg {n : Nat} :
    Means c 1 (emit (.loadArg n)) pre (fun _ => do return (← Eval.vars).args n) id
      fun y => y :: pre := by
  refine means_emit rfl rfl rfl fun a hc => follows_next rfl hc fun f base vars s hpc hf hvars => ?_
  refine ⟨vars.args n, vars, f.push (vars.args n), rfl, ?_, rfl, ?_, hvars.congr rfl rfl rfl,
    .congr (.refl _ _) rfl rfl rfl⟩
  · rw [← hvars.args]
    rfl
  · rw [Frame.push, hf]
    rfl

/-- An instruction on the slot of a local variable. -/
theorem means_named {β : Type} {k : Int} {name : String} {i : LocalId → Instruction}
    {m : Eval σ β} {post : β → List Slot} (hp : ∀ id, (i id).isPlain = true)
    (hl : ∀ id, (i id).local? = some id) (hk : ∀ id, (i id).change = k)
    (h : ∀ a id, a.slots.slots[id]? = some ⟨name, .variable⟩ → c.Reads (a.emit (i id)) →
      Follows c a (a.emit (i id)) pre m post) :
    Means c k (do emit (i (← withSlots (·.named name)))) pre (fun _ => m) id post where
  emits := emits_named hp hl hk
  numbers d _ d' he := by
    obtain rfl := ends_emit_handed.mp he
    rfl
  follows d _ d' hd _ he hc := by
    obtain rfl := ends_emit_handed.mp he
    have served : d.asm.Evolves { d.asm with slots := (d.asm.slots.named name).2 } :=
      .single (.serve (.named _ name))
    have written := served.trans (.single (.emit (i := i (d.asm.slots.named name).1)
      (Instruction.target_of_isPlain (hp _))))
    have follows := h _ _ Slots.slot_named (.of_evolves hd written hc)
    have leads := (grows_serve (.named d.asm.slots name) fun id => Slots.held_named).leads
    exact (Follows.silent leads rfl).before follows.leads follows

theorem means_loadVariable :
    Means c 1 (loadVariable env name) pre (fun _ => Eval.readVariable env name) id
      fun y => y :: pre := by
  unfold loadVariable Eval.readVariable
  cases env.meaning name with
  | context => exact means_loadContext
  | parameter index =>
    exact means_argument means_loadArg
  | «local» =>
    refine means_named (i := .loadLocal) (fun _ => rfl) (fun _ => rfl) (fun _ => rfl)
      fun a id hid hc => follows_next rfl hc fun f base vars s hpc hf hvars => ?_
    have slot : c.final.slots.slots[id]? = some ⟨name, .variable⟩ :=
      hc.evolves.slots_within id _ (by simpa using hid)
    refine ⟨vars.locals name, vars, f.push (vars.locals name), rfl, ?_, rfl, ?_,
      hvars.congr rfl rfl rfl, .congr (.refl _ _) rfl rfl rfl⟩
    · simp only [Frame.execute, Frame.getLocal, hvars.named id name slot]
      rfl
    · rw [Frame.push, hf]
      rfl

theorem means_storeVariable :
    Means c (-1) (storeVariable env name) (x :: pre) (fun _ => Eval.writeVariable env name x) id
      fun _ => pre := by
  unfold storeVariable Eval.writeVariable
  cases env.meaning name with
  | context => exact means_never fun _ _ _ => Emit.not_ends_violate
  | parameter index =>
    refine means_argument (i := .storeArg) (means_emit rfl rfl rfl fun a hc => ?_)
    refine follows_next rfl hc fun f base vars s hpc hf hvars => ?_
    refine ⟨(), vars.setArg (index + 1) x,
      { f with stack := pre ++ base }.setArg (index + 1) x, rfl, ?_, rfl, rfl, ?_, ?_⟩
    · simp only [Frame.execute, Frame.pop, hf]
      rfl
    · exact (hvars.setArg (index + 1)).congr rfl rfl rfl
    · exact .congr (.refl _ _) rfl rfl rfl
  | «local» =>
    refine means_named (i := .storeLocal) (fun _ => rfl) (fun _ => rfl) (fun _ => rfl)
      fun a id hid hc => follows_next rfl hc fun f base vars s hpc hf hvars => ?_
    have slot : c.final.slots.slots[id]? = some ⟨name, .variable⟩ :=
      hc.evolves.slots_within id _ (by simpa using hid)
    refine ⟨(), vars.setLocal name x,
      { f with stack := pre ++ base, locals := f.locals.setIfInBounds id x }, rfl, ?_, rfl, rfl,
      ?_, ?_⟩
    · simp only [Frame.execute, Frame.pop, hf]
      show (Frame.setLocal _ id x >>= _) = _
      rw [Frame.setLocal, if_pos (hvars.lt slot)]
      rfl
    · exact (hvars.setNamed c.slots slot).congr rfl rfl rfl
    · refine .congr (Frame.beside_setLocal (fun slot' hid' held => ?_) fun slot' hid' => ?_)
        rfl rfl rfl
      · -- The slot of a variable is nobody's.
        obtain ⟨⟨slot'', hid'', hne⟩, -⟩ := held
        rw [hid] at hid''
        cases hid''
        exact (hne rfl).elim
      · rw [slot] at hid'
        cases hid'
        nofun

end Variables

end StackScript
