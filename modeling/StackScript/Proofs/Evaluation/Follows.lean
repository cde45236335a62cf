import StackScript.Proofs.Evaluation.World
import StackScript.Proofs.Writing.Careful

/-!
# Code that follows a computation

A stretch of code follows a computation if the machine, started in front of it, comes to what the
computation comes to: behind the stretch with the values that it leaves, at the error in the
stretch, or waiting for the same answer. Stretches that follow computations can be put one behind
the other.

## Main definitions

* `Setting`: a body in a world, and the code that it was finished from
* `Frame.Agrees`, `Frame.Beside`: a frame and its variables, and what it leaves alone
* `Comes`, `Follows`: what a stretch of code comes to

## Main results

* `Follows.bind`: a stretch behind another
* `follows_next`, `follows_request`, `follows_throw`: single instructions
-/

namespace StackScript

open Assembler (Evolves Kept PlacedAt Grows)

/-! ## Settings -/

/-- A body in a world, with the last stage of its code. -/
structure Setting (σ : Type) where
  world : World σ
  body : Body
  final : Assembler
  out : Assembled
  maxLocals : Nat
  written : Assembler.empty.Evolves final
  finished : final.finish maxLocals = .ok out
  code : body.code = out.code

namespace Setting

variable {σ : Type} (c : Setting σ) {asm : Assembler} {i : Instruction} {n : Nat} {l : Label}

/-- What the body does in its world. -/
abbrev Reaches : Step × σ → Step × σ → Prop := StackScript.Reaches c.world c.body

/-- What the body does going forward. -/
abbrev Climbs : Step × σ → Step × σ → Prop := StackScript.Climbs c.world c.body

/-- What the body does in code that ends at a place. -/
abbrev Sweeps (n : Nat) : Step × σ → Step × σ → Prop := StackScript.Sweeps c.world c.body n

abbrev Emerges (n : Nat) : Step × σ → Step × σ → Prop := StackScript.Emerges c.world c.body n

/-- The stage of the code is sound, and comes before the last one. -/
structure Reads (asm : Assembler) : Prop where
  sound : asm.Sound
  evolves : asm.Evolves c.final

theorem sound : c.final.Sound :=
  c.written.sound Assembler.sound_empty (Assembler.finish_cases c.finished).1

theorem slots : c.final.slots.Sound := c.written.slots_sound Slots.sound_empty

variable {c}

theorem Reads.of_evolves {a b : Assembler} (ha : a.Sound) (h : a.Evolves b)
    (hb : b.Evolves c.final) : c.Reads b :=
  ⟨h.sound ha (hb.fault (Assembler.finish_cases c.finished).1), hb⟩

theorem Reads.kept (h : c.Reads asm) : asm.Kept c.final :=
  h.evolves.kept h.sound (Assembler.finish_cases c.finished).1

/-- An instruction of a stage is one of the body. -/
theorem Reads.instruction (h : c.Reads asm) (hi : asm.code[n]? = some i) (ht : i.target? = none) :
    c.body.code[n]? = some i := by
  rw [c.code]
  exact h.kept.instruction c.sound c.finished hi ht

/-- The last instruction of a stage is one of the body. -/
theorem Reads.last (h : c.Reads (asm.emit i)) (ht : i.target? = none) :
    c.body.code[asm.code.size]? = some i :=
  h.instruction (by rw [Assembler.code_emit]; exact Array.getElem?_push_size) ht

/-- The last branch of a stage goes to the place of its label in the body; a jump may be missing
where its label is. -/
theorem Reads.branch {kind : BranchKind} (h : c.Reads (asm.branch kind l)) :
    ∃ t, c.final.PlacedAt l t ∧ (c.body.code[asm.code.size]? = some (kind.instruction t) ∨
      kind = .always ∧ t = asm.code.size) := by
  rw [c.code]
  refine h.kept.branch c.sound c.finished ?_ ?_
  · rw [Assembler.code_branch]
    exact Array.getElem?_push_size
  · rw [Assembler.Awaits, Assembler.fixups_branch]
    exact Array.mem_push_self

end Setting

/-! ## Frames and variables -/

namespace Frame

/-- The variables have their values in the arguments and the local slots of the frame. -/
structure Agrees (slots : Slots) (f : Frame) (vars : Vars) : Prop where
  receiver : f.receiver = vars.receiver
  args : ∀ n, f.arg n = vars.args n
  named : ∀ (id : Nat) name, slots.slots[id]? = some ⟨name, .variable⟩ →
    f.locals[id]? = some (vars.locals name)
  result : ∀ (id : Nat) slot, slots.slots[id]? = some slot → slot.role = .result →
    f.locals[id]? = some vars.result
  size : f.locals.size = slots.slots.size

/-- The variables of a frame. One that has no slot is unset. -/
def vars (slots : Slots) (f : Frame) : Vars where
  receiver := f.receiver
  args := f.arg
  locals name := f.locals[(slots.named name).1]?.getD .unset
  result := f.locals[slots.result.1]?.getD .unset

/-- A frame that has the slots has its variables in them. -/
theorem agrees_vars {slots : Slots} {f : Frame} (hs : slots.Sound)
    (hsize : f.locals.size = slots.slots.size) : f.Agrees slots (f.vars slots) where
  receiver := rfl
  args _ := rfl
  named id name hid := by
    have same : (slots.named name).1 = id := by
      obtain ⟨id', hnamed, hid'⟩ | ⟨-, none⟩ := Slots.named_cases slots name
      · rw [hnamed]
        exact hs.named_unique name id' id hid' hid
      · exact (none id hid).elim
    obtain ⟨hlt, -⟩ := Array.getElem?_eq_some_iff.mp hid
    simp only [vars, same, Array.getElem?_eq_getElem (hsize ▸ hlt), Option.getD_some]
  result id slot hid hr := by
    have same : slots.result.1 = id := by
      obtain ⟨id', slot', hresult, -, hid', hr'⟩ | ⟨-, -, none⟩ := Slots.result_cases slots
      · rw [hresult]
        exact hs.result_unique id' id slot' slot hid' hid hr' hr
      · exact (none id slot hid hr).elim
    obtain ⟨hlt, -⟩ := Array.getElem?_eq_some_iff.mp hid
    simp only [vars, same, Array.getElem?_eq_getElem (hsize ▸ hlt), Option.getD_some]
  size := hsize

/-- A later stage of a frame: its enumerators, its completions and the scratch slots in use are
left alone, and so are the slots that enumerators have in the end. -/
structure Beside (slots final : Slots) (f f' : Frame) : Prop where
  cursors : f'.cursors = f.cursors
  pending : f'.pending = f.pending
  loops : ∀ (id : Nat) slot, final.slots[id]? = some slot → slot.role = .enumerator →
    f'.locals[id]? = f.locals[id]?
  held : ∀ (id : Nat) slot, slots.slots[id]? = some slot → slot.role ≠ .result → slots.Held id →
    f'.locals[id]? = f.locals[id]?

variable {slots later final : Slots} {f f' g : Frame} {vars : Vars} {id : LocalId} {x : Slot}

theorem Beside.refl (slots : Slots) (f : Frame) : f.Beside slots final f :=
  ⟨rfl, rfl, fun _ _ _ _ => rfl, fun _ _ _ _ _ => rfl⟩

theorem Beside.trans (h : f.Beside slots final f') (h' : f'.Beside later final g)
    (hw : slots.Within later) (hh : ∀ id, slots.Held id → later.Held id) :
    f.Beside slots final g where
  cursors := h'.cursors.trans h.cursors
  pending := h'.pending.trans h.pending
  loops id slot hs hr := (h'.loops id slot hs hr).trans (h.loops id slot hs hr)
  held id slot hs hr hid :=
    (h'.held id slot (hw id slot hs) hr (hh id hid)).trans (h.held id slot hs hr hid)

/-- Values on the stack, and the place in the code, are no variables. -/
theorem Agrees.congr (h : f.Agrees slots vars) (hr : g.receiver = f.receiver) (ha : g.args = f.args)
    (hl : g.locals = f.locals) : g.Agrees slots vars where
  receiver := hr.trans h.receiver
  args n := by rw [← h.args n, Frame.arg, Frame.arg, ha]
  named := by
    rw [hl]
    exact h.named
  result := by
    rw [hl]
    exact h.result
  size := by
    rw [hl]
    exact h.size

theorem Beside.congr (h : f.Beside slots final f') (hc : g.cursors = f'.cursors)
    (hp : g.pending = f'.pending) (hl : g.locals = f'.locals) : f.Beside slots final g where
  cursors := hc.trans h.cursors
  pending := hp.trans h.pending
  loops := by
    rw [hl]
    exact h.loops
  held := by
    rw [hl]
    exact h.held

/-- A slot that is nobody's may change. -/
theorem beside_setLocal (hid : ∀ slot, slots.slots[id]? = some slot → slots.Held id →
    slot.role = .result)
    (hl : ∀ slot, final.slots[id]? = some slot → slot.role ≠ .enumerator) :
    f.Beside slots final { f with locals := f.locals.setIfInBounds id x } where
  cursors := rfl
  pending := rfl
  loops id' slot hs hr := by
    rw [Array.getElem?_setIfInBounds, if_neg]
    rintro rfl
    exact hl slot hs hr
  held id' slot hs hr hh := by
    rw [Array.getElem?_setIfInBounds, if_neg]
    rintro rfl
    exact hr (hid slot hs hh)

section Stores

/-- What is stored is what is loaded; no other slot changes. -/
theorem getElem?_setLocal (hlt : id < f.locals.size) (n : Nat) :
    (f.locals.setIfInBounds id x)[n]? = if n = id then some x else f.locals[n]? := by
  rw [Array.getElem?_setIfInBounds]
  by_cases hn : n = id
  · subst hn
    rw [if_pos rfl, if_pos rfl, if_pos hlt]
  · rw [if_neg (fun h => hn h.symm), if_neg hn]

variable (h : f.Agrees slots vars) (hs : slots.Sound)
include h

theorem Agrees.lt {slot : LocalSlot} (hid : slots.slots[id]? = some slot) :
    id < f.locals.size := by
  rw [h.size]
  exact (Array.getElem?_eq_some_iff.mp hid).1

/-- A slot that is no variable holds none. -/
theorem Agrees.setLocal {slot : LocalSlot} (hid : slots.slots[id]? = some slot)
    (hv : slot.role ≠ .variable) (hr : slot.role ≠ .result) :
    Agrees slots { f with locals := f.locals.setIfInBounds id x } vars where
  receiver := h.receiver
  args := h.args
  named id' name hid' := by
    rw [getElem?_setLocal (h.lt hid), if_neg, h.named id' name hid']
    rintro rfl
    rw [hid] at hid'
    cases hid'
    exact hv rfl
  result id' slot' hid' hr' := by
    rw [getElem?_setLocal (h.lt hid), if_neg, h.result id' slot' hid' hr']
    rintro rfl
    rw [hid] at hid'
    cases hid'
    exact hr hr'
  size := by simpa using h.size

include hs in
/-- The slot of a variable holds the variable, and no other. -/
theorem Agrees.setNamed {name : String} (hid : slots.slots[id]? = some ⟨name, .variable⟩) :
    Agrees slots { f with locals := f.locals.setIfInBounds id x } (vars.setLocal name x) where
  receiver := h.receiver
  args := h.args
  named id' other hid' := by
    rw [getElem?_setLocal (h.lt hid), Vars.locals_setLocal]
    by_cases ho : other = name
    · subst ho
      rw [if_pos (hs.named_unique other id' id hid' hid), if_pos rfl]
    · rw [if_neg, if_neg ho, h.named id' other hid']
      rintro rfl
      rw [hid] at hid'
      cases hid'
      exact ho rfl
  result id' slot' hid' hr' := by
    rw [getElem?_setLocal (h.lt hid), if_neg]
    · exact h.result id' slot' hid' hr'
    · rintro rfl
      rw [hid] at hid'
      cases hid'
      cases hr'
  size := by simpa using h.size

theorem Agrees.setArg (n : Nat) : Agrees slots (f.setArg n x) (vars.setArg n x) where
  receiver := h.receiver
  args k := by
    have hk := h.args k
    unfold Frame.arg at hk
    unfold Frame.arg Frame.setArg
    simp only [Vars.args_setArg, Array.getElem?_setIfInBounds, Array.size_append,
      Array.size_replicate]
    by_cases he : k = n
    · subst he
      rw [if_pos rfl, if_pos (by omega), if_pos rfl]
      rfl
    · rw [if_neg (fun h => he h.symm), if_neg he, ← hk, Array.getElem?_append]
      split
      · rfl
      case isFalse hlt =>
        rw [show f.args[k]? = none from Array.getElem?_eq_none (by omega), Array.getElem?_replicate]
        split <;> rfl
  named := h.named
  result := h.result
  size := h.size

end Stores

end Frame

/-! ## Stretches of code -/

/-- From one stage of the code to a later one, nothing that was written is taken back, and no slot
in use is given away. -/
structure Leads (a b : Assembler) : Prop where
  size_le : a.code.size ≤ b.code.size
  within : a.slots.Within b.slots
  held : ∀ id, a.slots.Held id → b.slots.Held id

/-- What a stretch of code comes to, for a frame in front of it with some values below its own. -/
inductive Comes {σ β : Type} (c : Setting σ) (a b : Assembler) (base : List Slot)
    (post : β → List Slot) (f : Frame) (s : σ) : Option (Except DispatchError β × Vars × σ) → Prop
  /-- Behind the stretch, with the values that it leaves. -/
  | ends {x vars s' f'} : c.Climbs (.running f, s) (.running f', s') → f'.pc = b.code.size →
      f'.stack = post x ++ base → f'.Agrees c.final.slots vars →
      f.Beside a.slots c.final.slots f' → Comes c a b base post f s (some (.ok x, vars, s'))
  /-- At an error in the stretch. -/
  | fails {e vars s' f'} : c.Sweeps b.code.size (.running f, s) (c.body.raise f' e, s') →
      a.code.size ≤ f'.pc → f'.pc < b.code.size → f'.Agrees c.final.slots vars →
      f.Beside a.slots c.final.slots f' → Comes c a b base post f s (some (.error e, vars, s'))
  /-- At a request that is never answered. -/
  | waits {r f' s'} : c.Climbs (.running f, s) (.asking r f', s') →
      (c.world r).run.run s' = none → Comes c a b base post f s none

/-- The code from one stage to a later one follows a computation: it takes some values from the
stack, and leaves others there. -/
structure Follows {σ β : Type} (c : Setting σ) (a b : Assembler) (pre : List Slot) (m : Eval σ β)
    (post : β → List Slot) : Prop where
  leads : Leads a b
  comes : ∀ f base vars s, f.pc = a.code.size → f.stack = pre ++ base →
    f.Agrees c.final.slots vars → Comes c a b base post f s (m.outcome vars s)

namespace Leads

variable {a b d : Assembler}

theorem refl (a : Assembler) : Leads a a := ⟨Nat.le_refl _, .refl _, fun _ h => h⟩

theorem trans (h : Leads a b) (h' : Leads b d) : Leads a d :=
  ⟨Nat.le_trans h.size_le h'.size_le, h.within.trans h'.within, fun id hid =>
    h'.held id (h.held id hid)⟩

end Leads

theorem Assembler.Scribes.size_le {base : Nat} {a b : Assembler} (h : a.Scribes base b) :
    a.code.size ≤ b.code.size := by
  induction h with
  | refl => exact Nat.le_refl _
  | tail _ step ih =>
    refine Nat.le_trans ih ?_
    cases step <;> simp [sequencePoint, pin, defineLabel]

theorem Assembler.Grows.leads {k : Int} {a b : Assembler} (h : Grows k a b) : Leads a b :=
  ⟨h.scribes.size_le, h.evolves.slots_within, h.held⟩

/-! ## Stretches behind one another -/

section Comes

variable {σ α β : Type} {c : Setting σ} {a b d : Assembler} {base : List Slot} {m : Eval σ α}
  {k : α → Eval σ β} {post : α → List Slot} {post' : β → List Slot} {f : Frame} {vars : Vars}
  {s : σ}

/-- Behind a stretch, the next one starts from where the first one ends. -/
theorem Comes.bind (h : Comes c a b base post f s (m.outcome vars s)) (ha : Leads a b)
    (hb : b.code.size ≤ d.code.size)
    (h' : ∀ {x vars' s' f'}, m.outcome vars s = some (.ok x, vars', s') → f'.pc = b.code.size →
      f'.stack = post x ++ base → f'.Agrees c.final.slots vars' →
      f.Beside a.slots c.final.slots f' → Comes c b d base post' f' s' ((k x).outcome vars' s')) :
    Comes c a d base post' f s ((m >>= k).outcome vars s) := by
  rw [Eval.outcome_bind]
  revert h h'
  cases m.outcome vars s with
  | none =>
    intro h _
    cases h with
    | waits reach hnone => exact .waits reach hnone
  | some r =>
    obtain ⟨e | x, vars', s'⟩ := r
    · intro h _
      cases h with
      | fails reach hle hlt hvars' beside =>
        exact .fails (reach.mono hb) hle (Nat.lt_of_lt_of_le hlt hb) hvars' beside
    · intro h h'
      cases h with
      | @ends _ _ _ f' reach hpc' hstack' hvars' beside =>
        have second := h' rfl hpc' hstack' hvars' beside
        revert second
        dsimp only
        generalize (k x).outcome vars' s' = r'
        intro second
        -- What the second stretch leaves alone was left alone by the first one.
        have onward {g : Frame} (hg : f'.Beside b.slots c.final.slots g) :
            f.Beside a.slots c.final.slots g :=
          beside.trans hg ha.within ha.held
        cases second with
        | ends reach' hpc'' hstack'' hvars'' beside' =>
          exact .ends (reach.trans reach') hpc'' hstack'' hvars'' (onward beside')
        | fails reach' hle hlt hvars'' beside' =>
          exact .fails (.behind reach reach') (Nat.le_trans ha.size_le hle) hlt hvars''
            (onward beside')
        | waits reach' hnone => exact .waits (reach.trans reach') hnone

/-- In front of a stretch, steps that bring the frame there. -/
theorem Comes.behind {g : Frame} {r : Option (Except DispatchError α × Vars × σ)}
    (reach : c.Climbs (.running f, s) (.running g, s)) (ha : Leads a b)
    (beside : f.Beside a.slots c.final.slots g)
    (h : Comes c b d base post g s r) : Comes c a d base post f s r := by
  have onward {g' : Frame} (hg : g.Beside b.slots c.final.slots g') :
      f.Beside a.slots c.final.slots g' :=
    beside.trans hg ha.within ha.held
  cases h with
  | ends reach' hpc hstack hvars beside' =>
    exact .ends (reach.trans reach') hpc hstack hvars (onward beside')
  | fails reach' hle hlt hvars beside' =>
    exact .fails (.behind reach reach') (Nat.le_trans ha.size_le hle) hlt hvars (onward beside')
  | waits reach' hnone => exact .waits (reach.trans reach') hnone

end Comes

namespace Follows

variable {σ α β γ : Type} {c : Setting σ} {a b d : Assembler} {pre rest : List Slot} {m : Eval σ α}
  {k : α → Eval σ β} {post : α → List Slot} {post' : β → List Slot}

/-- Nothing is written. -/
theorem nothing (post : α → List Slot) {x : α} (leads : Leads a b) (hsize : b.code.size = a.code.size) :
    Follows c a b (post x) (pure x) post where
  leads := leads
  comes f base vars s hpc hstack hvars := by
    rw [Eval.outcome_pure]
    exact .ends (.refl _) (hpc.trans hsize.symm) hstack hvars (.refl _ f)

theorem silent (leads : Leads a b) (hsize : b.code.size = a.code.size) :
    Follows c a b pre (pure ()) fun _ => pre :=
  nothing (fun _ => pre) leads hsize

/-- What lies below does not matter. -/
theorem frame (h : Follows c a b pre m post) (rest : List Slot) :
    Follows c a b (pre ++ rest) m fun x => post x ++ rest where
  leads := h.leads
  comes f base vars s hpc hstack hvars := by
    have comes := h.comes f (rest ++ base) vars s hpc (by rw [hstack, List.append_assoc]) hvars
    revert comes
    generalize m.outcome vars s = r
    intro comes
    cases comes with
    | ends reach hpc' hstack' hvars' beside =>
      exact .ends reach hpc' (by rw [hstack', List.append_assoc]) hvars' beside
    | fails reach hle hlt hvars' beside => exact .fails reach hle hlt hvars' beside
    | waits reach hnone => exact .waits reach hnone

/-- **A stretch behind another** follows the one computation behind the other. -/
theorem bindWhere {P : α → Prop} (h : Follows c a b pre m post) (hP : m.Always P)
    (hb : Leads b d) (h' : ∀ x, P x → Follows c b d (post x) (k x) post') :
    Follows c a d pre (m >>= k) post' where
  leads := h.leads.trans hb
  comes f base vars s hpc hstack hvars :=
    (h.comes f base vars s hpc hstack hvars).bind h.leads hb.size_le fun hm hpc' hstack' hvars' _ =>
      (h' _ (hP _ _ _ _ hm)).comes _ base _ _ hpc' hstack' hvars'

theorem bind (h : Follows c a b pre m post) (hb : Leads b d)
    (h' : ∀ x, Follows c b d (post x) (k x) post') : Follows c a d pre (m >>= k) post' :=
  h.bindWhere .trivial hb fun x _ => h' x

/-- Behind the computation, code that only rearranges values. -/
theorem after {post' : α → List Slot} (h : Follows c a b pre m post) (hb : Leads b d)
    (h' : ∀ x, Follows c b d (post x) (pure x) post') : Follows c a d pre m post' := by
  have both := h.bind hb h'
  rwa [bind_pure] at both

/-- In front of the computation, code that only rearranges values. -/
theorem before {u : γ} {mid : γ → List Slot} (h : Follows c a b pre (pure u) mid) (hb : Leads b d)
    (h' : Follows c b d (mid u) m post) : Follows c a d pre m post := by
  have both := h.bindWhere (P := (· = u)) (.pure rfl) hb (k := fun _ => m) fun x hx => hx ▸ h'
  rwa [pure_bind] at both

end Follows

/-! ## Single instructions -/

section Instructions

variable {σ α : Type} {c : Setting σ} {a : Assembler} {i : Instruction} {pre : List Slot}

section Steps

variable {body : Body} {f f' : Frame} (hi : body.code[f.pc]? = some i)
include hi

theorem step_next (h : f.execute i = .ok (.next f')) :
    body.step f = .running { f' with pc := f'.pc + 1 } := by
  simp only [Body.step, hi, h]

theorem step_jump {t : Nat} (h : f.execute i = .ok (.jump t f')) :
    body.step f = .running { f' with pc := t } := by
  simp only [Body.step, hi, h]

theorem step_ask {r : Request} (h : f.execute i = .ok (.ask r f')) :
    body.step f = .asking r f' := by
  simp only [Body.step, hi, h]

theorem step_error {e : DispatchError} (h : f.execute i = .error e) :
    body.step f = body.raise f e := by
  simp only [Body.step, hi, h]

end Steps

theorem leads_emit : Leads a (a.emit i) where
  size_le := by simp
  within := by simpa using Slots.Within.refl _
  held _ h := by simpa using h

/-- An instruction that goes on with the next one. -/
theorem follows_next {m : Eval σ α} {post : α → List Slot} (ht : i.target? = none)
    (hc : c.Reads (a.emit i))
    (h : ∀ (f : Frame) base vars s, f.pc = a.code.size → f.stack = pre ++ base →
      f.Agrees c.final.slots vars → ∃ x vars' f', m.outcome vars s = some (.ok x, vars', s) ∧
        f.execute i = .ok (.next f') ∧ f'.pc = f.pc ∧ f'.stack = post x ++ base ∧
        f'.Agrees c.final.slots vars' ∧ f.Beside a.slots c.final.slots f') :
    Follows c a (a.emit i) pre m post where
  leads := leads_emit
  comes f base vars s hpc hstack hvars := by
    obtain ⟨x, vars', f', hm, hexec, hpc', hstack', hvars', beside⟩ :=
      h f base vars s hpc hstack hvars
    have step := step_next (hpc ▸ hc.last ht) hexec
    rw [hm]
    have later : f.pc < f'.pc + 1 := hpc' ▸ Nat.lt_succ_self _
    refine .ends (.next step later (.refl _)) ?_ hstack'
      (hvars'.congr rfl rfl rfl) (beside.congr rfl rfl rfl)
    simp [hpc', hpc]

/-- An instruction that only changes the stack. -/
theorem follows_stack {x : α} {post : α → List Slot} (ht : i.target? = none)
    (hc : c.Reads (a.emit i))
    (h : ∀ (f : Frame) base, f.stack = pre ++ base →
      f.execute i = .ok (.next { f with stack := post x ++ base })) :
    Follows c a (a.emit i) pre (pure x) post :=
  follows_next ht hc fun f base vars _ _ hstack hvars =>
    ⟨x, vars, _, rfl, h f base hstack, rfl, rfl,
      hvars.congr rfl rfl rfl, .congr (.refl _ _) rfl rfl rfl⟩

/-- An instruction that asks the world. -/
theorem follows_request {r : Request} (ht : i.target? = none) (hc : c.Reads (a.emit i))
    (h : ∀ (f : Frame) base, f.stack = pre ++ base →
      f.execute i = .ok (.ask r { f with stack := base })) :
    Follows c a (a.emit i) pre (Eval.request c.world r)
      fun v => if r.yields then [.value v] else [] where
  leads := leads_emit
  comes f base vars s hpc hstack hvars := by
    have step := step_ask (hpc ▸ hc.last ht) (h f base hstack)
    have inside : f.pc < (a.emit i).code.size := by simp [hpc]
    have asks : c.Climbs (.running f, s) (.asking r { f with stack := base }, s) := .asks step rfl
    rw [Eval.outcome_request]
    cases hw : (c.world r).run.run s with
    | none => exact .waits asks hw
    | some answer =>
      obtain ⟨e | v, s'⟩ := answer
      · exact .fails (.emerges ⟨_, asks, .asking inside, .resume hw⟩) (Nat.le_of_eq hpc.symm) inside
          (hvars.congr rfl rfl rfl) (.congr (.refl _ _) rfl rfl rfl)
      · have resumed : Moves c.world c.body (.asking r { f with stack := base }, s)
            (c.body.resume r { f with stack := base } (.ok v), s') := .resume hw
        unfold Body.resume at resumed
        dsimp only at resumed
        cases hy : r.yields with
        | true =>
          rw [hy, if_pos rfl] at resumed
          refine .ends (asks.answered resumed (Nat.lt_succ_self _)) ?_ ?_ (hvars.congr rfl rfl rfl)
            (.congr (.refl _ _) rfl rfl rfl)
          · simp [Frame.pushValue, Frame.push, hpc]
          · simp [Frame.pushValue, Frame.push]
        | false =>
          rw [hy, if_neg Bool.false_ne_true] at resumed
          refine .ends (asks.answered resumed (Nat.lt_succ_self _)) ?_ ?_ (hvars.congr rfl rfl rfl)
            (.congr (.refl _ _) rfl rfl rfl)
          · simp [hpc]
          · simp

/-- An instruction that fails. -/
theorem follows_throw {e : DispatchError} {post : α → List Slot} (ht : i.target? = none)
    (hc : c.Reads (a.emit i))
    (h : ∀ (f : Frame) base vars, f.stack = pre ++ base → f.Agrees c.final.slots vars →
      f.execute i = .error e) :
    Follows c a (a.emit i) pre (throw e) post where
  leads := leads_emit
  comes f base vars s hpc hstack hvars := by
    have step := step_error (hpc ▸ hc.last ht) (h f base vars hstack hvars)
    rw [Eval.outcome_throw]
    have inside : f.pc < (a.emit i).code.size := by simp [hpc]
    exact .fails (.step inside step) (Nat.le_of_eq hpc.symm) inside hvars (.refl _ f)

end Instructions

end StackScript
