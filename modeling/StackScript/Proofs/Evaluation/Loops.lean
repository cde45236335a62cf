import StackScript.Proofs.Evaluation.Statements
import StackScript.Proofs.Evaluation.Switches

/-!
# Loops and their enumerators

A loop has an enumerator: the edge that starts the loop makes one, and the edge that advances it moves
it on and binds the entry that it stands on. In the code each enumerator has a slot of its own.

## Main definitions

* `Loops`: the enumerators of the loops that have been started
* `Frame.Tracks`: the enumerators are in the slots that the loops have
* `LayoutState.Looped`: the loops have slots of their own

## Main results

* `Frame.Tracks.opens`, `Frame.Tracks.moves`: a loop starts, and goes on
* `LayoutState.Looped.placeEdge`: every edge leaves each loop a slot of its own
* `comes_of_ends_bindEntry`: the code that binds an entry
-/

namespace StackScript

open Emit Arrange
open Assembler (Evolves)

/-! ## Enumerators of loops -/

/-- The enumerators of the loops that have been started, each known by the edge that starts it. -/
abbrev Loops := EdgeId → Option Cursor

namespace Loops

/-- No loop has been started. -/
def idle : Loops := fun _ => none

/-- The loops with another enumerator for one of them. -/
def set (loops : Loops) (loop : EdgeId) (cursor : Cursor) : Loops := fun e =>
  if e = loop then some cursor else loops e

end Loops

/-- Binds an entry: the value, then the key if it is asked for. -/
def Eval.bindEntry {σ : Type} (env : BodyEnv) (key : Option String) (value : String)
    (entry : Value × Value) : Eval σ Unit := do
  writeVariable env value (.value entry.2)
  match key with
  | some key => writeVariable env key (.value entry.1)
  | none => return ()

/-! ## Enumerators in their slots -/

/-- The enumerators of the loops are in the slots that the loops have, each in one of its own. -/
structure Frame.Tracks (seats : EdgeId → Option LocalId) (f : Frame) (loops : Loops) : Prop where
  idle : ∀ {e id}, seats e = some id → loops e = none → f.locals[id]? = some .unset
  runs : ∀ {e id cursor}, seats e = some id → loops e = some cursor →
    ∃ k, f.locals[id]? = some (.enumerator k) ∧ f.cursors[k]? = some cursor
  apart : ∀ {e e' id id' k}, seats e = some id → seats e' = some id' →
    f.locals[id]? = some (.enumerator k) → f.locals[id']? = some (.enumerator k) → e = e'

/-- The slots that loops have in finished code are those of enumerators, and no two loops share
one. -/
structure Setting.Seats {σ : Type} (c : Setting σ) (seats : EdgeId → Option LocalId) : Prop where
  slot : ∀ {e id}, seats e = some id →
    ∃ slot, c.final.slots.slots[id]? = some slot ∧ slot.role = .enumerator
  distinct : ∀ {e e' id}, seats e = some id → seats e' = some id → e = e'

namespace Frame.Tracks

variable {σ : Type} {c : Setting σ} {seats : EdgeId → Option LocalId} {f g : Frame} {loops : Loops}
  {slots : Slots} {e : EdgeId} {id : LocalId} {k : Nat} {cursor : Cursor}

theorem congr (h : f.Tracks seats loops)
    (locals : ∀ {e id}, seats e = some id → g.locals[id]? = f.locals[id]?)
    (cursors : g.cursors = f.cursors) : g.Tracks seats loops where
  idle he hl := (locals he).trans (h.idle he hl)
  runs he hl := by
    rw [locals he, cursors]
    exact h.runs he hl
  apart he he' hl hl' := h.apart he he' ((locals he).symm.trans hl) ((locals he').symm.trans hl')

theorem beside (h : f.Tracks seats loops) (hs : c.Seats seats)
    (beside : f.Beside slots c.final.slots g) : g.Tracks seats loops := by
  refine h.congr (fun {e id} he => ?_) beside.cursors
  obtain ⟨slot, hslot, hrole⟩ := hs.slot he
  exact beside.loops id slot hslot hrole

/-- An enumerator that is in a slot is there. -/
theorem lt (h : f.Tracks seats loops) (he : seats e = some id)
    (hk : f.locals[id]? = some (.enumerator k)) : k < f.cursors.size := by
  cases hl : loops e with
  | none =>
    rw [h.idle he hl] at hk
    cases hk
  | some cursor =>
    obtain ⟨k', hk', hc⟩ := h.runs he hl
    rw [hk] at hk'
    cases hk'
    exact (Array.getElem?_eq_some_iff.mp hc).1

/-- A loop starts: its enumerator is new. -/
theorem opens (h : f.Tracks seats loops) (hs : c.Seats seats) (he : seats e = some id)
    (hlt : id < f.locals.size) (cursor : Cursor) :
    Tracks seats { f with
      cursors := f.cursors.push cursor
      locals := f.locals.setIfInBounds id (.enumerator f.cursors.size) } (loops.set e cursor) := by
  -- No other loop has the slot, and no other enumerator has the number of the new one.
  have other {e' id'} (he' : seats e' = some id') (hne : e' ≠ e) :
      (f.locals.setIfInBounds id (.enumerator f.cursors.size))[id']? = f.locals[id']? := by
    rw [Frame.getElem?_setLocal hlt, if_neg]
    rintro rfl
    exact hne (hs.distinct he' he)
  have own : (f.locals.setIfInBounds id (.enumerator f.cursors.size))[id]? =
      some (.enumerator f.cursors.size) := by
    rw [Frame.getElem?_setLocal hlt, if_pos rfl]
  have fresh {e' id' k} (he' : seats e' = some id') (hne : e' ≠ e)
      (hk : (f.locals.setIfInBounds id (.enumerator f.cursors.size))[id']? =
        some (.enumerator k)) : k < f.cursors.size := h.lt he' ((other he' hne).symm.trans hk)
  refine ⟨fun {e' id'} he' hl => ?_, fun {e' id' cursor'} he' hl => ?_,
    fun {e₁ e₂ id₁ id₂ k} he₁ he₂ hk₁ hk₂ => ?_⟩
  · by_cases hne : e' = e
    · rw [Loops.set, if_pos hne] at hl
      cases hl
    · rw [Loops.set, if_neg hne] at hl
      exact (other he' hne).trans (h.idle he' hl)
  · by_cases hne : e' = e
    · subst hne
      rw [Loops.set, if_pos rfl] at hl
      cases hl
      obtain rfl := Option.some.inj (he.symm.trans he')
      exact ⟨_, own, by simp⟩
    · rw [Loops.set, if_neg hne] at hl
      obtain ⟨k, hk, hc⟩ := h.runs he' hl
      refine ⟨k, (other he' hne).trans hk, ?_⟩
      dsimp only
      rw [Array.getElem?_push, if_neg (Nat.ne_of_lt (Array.getElem?_eq_some_iff.mp hc).1), hc]
  · by_cases hne₁ : e₁ = e
    · by_cases hne₂ : e₂ = e
      · exact hne₁.trans hne₂.symm
      · subst hne₁
        obtain rfl := Option.some.inj (he.symm.trans he₁)
        have same := own.symm.trans hk₁
        cases same
        exact (Nat.lt_irrefl _ (fresh he₂ hne₂ hk₂)).elim
    · by_cases hne₂ : e₂ = e
      · subst hne₂
        obtain rfl := Option.some.inj (he.symm.trans he₂)
        have same := own.symm.trans hk₂
        cases same
        exact (Nat.lt_irrefl _ (fresh he₁ hne₁ hk₁)).elim
      · exact h.apart he₁ he₂ ((other he₁ hne₁).symm.trans hk₁) ((other he₂ hne₂).symm.trans hk₂)

/-- A loop goes on: its enumerator moves. -/
theorem moves (h : f.Tracks seats loops) (he : seats e = some id)
    (hk : f.locals[id]? = some (.enumerator k)) (cursor : Cursor) :
    Tracks seats { f with cursors := f.cursors.setIfInBounds k cursor } (loops.set e cursor) := by
  refine ⟨fun {e' id'} he' hl => ?_, fun {e' id' cursor'} he' hl => ?_, h.apart⟩
  · by_cases hne : e' = e
    · rw [Loops.set, if_pos hne] at hl
      cases hl
    · rw [Loops.set, if_neg hne] at hl
      exact h.idle he' hl
  · by_cases hne : e' = e
    · subst hne
      rw [Loops.set, if_pos rfl] at hl
      cases hl
      obtain rfl := Option.some.inj (he.symm.trans he')
      exact ⟨k, hk, by simp [h.lt he hk]⟩
    · rw [Loops.set, if_neg hne] at hl
      obtain ⟨k', hk', hc⟩ := h.runs he' hl
      refine ⟨k', hk', ?_⟩
      dsimp only
      rw [Array.getElem?_setIfInBounds, if_neg, hc]
      rintro rfl
      exact hne (h.apart he' he hk' hk)

end Frame.Tracks

/-! ## The edges of loops -/

section Parts

variable {env : LayoutEnv} {enter : Enter} {scope : Scope} {s s' : LayoutState} {u : PUnit}
  {e : EdgeId} {number : UInt32} {source : BlockId}

/-- A slot for an enumerator is no code. -/
theorem opened_of_ends_enumeratorSlot {slot : LocalId} (opened : s.Open)
    (h : Ends (enumeratorSlot e) s slot s') (hf : s'.asm.fault = none) :
    s'.Open ∧ s'.asm.code = s.asm.code := by
  have extended : Extends .root [] s s' := (extends_of_ends_enumeratorSlot opened.ready h).1
  have same : s'.asm.code = s.asm.code ∧ s'.asm.reachable = s.asm.reachable := by
    obtain ⟨-, rfl⟩ | ⟨-, -, rfl⟩ := enumeratorSlot_cases h <;> exact ⟨rfl, rfl⟩
  exact ⟨⟨extended.ready, extended.evolves.sound opened.sound hf,
    extended.evolves.slots_sound opened.slots, same.2.trans opened.arrives⟩, same.1⟩

end Parts

/-! ## The enumerators of loops -/

/-- The enumerators of loops have slots, each one of its own. -/
structure LayoutState.Looped (s : LayoutState) : Prop where
  slot : ∀ {e id}, s.enumerators.lookup e = some id →
    ∃ slot, s.asm.slots.slots[id]? = some slot ∧ slot.role = .enumerator
  distinct : ∀ {e e' id}, s.enumerators.lookup e = some id → s.enumerators.lookup e' = some id →
    e = e'

/-- A step that starts no loop. -/
def KeepsLoops {α : Type} (step : Arrange α) : Prop :=
  ∀ ⦃s x s'⦄, Ends step s x s' → s'.enumerators = s.enumerators

namespace KeepsLoops

variable {α β : Type} {step : Arrange α} {next : α → Arrange β} {env : LayoutEnv} {scope : Scope}
  {t : BlockId}

theorem bind (h : KeepsLoops step) (h' : ∀ x, KeepsLoops (next x)) : KeepsLoops (step >>= next) := by
  intro s y s' ends
  obtain ⟨x, s₁, first, second⟩ := ends_bind.mp ends
  exact (h' x second).trans (h first)

theorem write (step : Emit α) : KeepsLoops (Arrange.write step) := by
  intro s x s' ends
  obtain ⟨d, -, rfl⟩ := ends_write.mp ends
  rfl

theorem transfer : KeepsLoops (transfer env scope t) := fun _ _ _ ends =>
  (jumped_of_ends_transfer ends).enumerators

theorem transferIf {kind : BranchKind} : KeepsLoops (transferIf env scope kind t) := fun _ _ _ ends =>
  (jumped_of_ends_transferIf ends).enumerators

theorem enqueue : KeepsLoops (enqueue env scope t) := by
  intro s x s' ends
  obtain ⟨r, -, rfl⟩ := ends_enqueue.mp ends
  exact jumped_accept.enumerators

theorem placeCases (subject : LocalId) (cases : List SwitchCase) :
    KeepsLoops (placeCases env scope subject cases) := by
  intro s x s' ends
  induction cases generalizing s with
  | nil => rw [(ends_pure.mp ends).2]
  | cons case rest ih =>
    cases hv : case.value with
    | none =>
      simp only [StackScript.placeCases, hv] at ends
      exact ih ends
    | some value =>
      obtain ⟨d, s₁, -, hjump, hrest⟩ := case_of_ends_placeCases hv ends
      have jumped := jumped_of_ends_transferIf hjump
      exact (ih hrest).trans jumped.enumerators

end KeepsLoops

section Loops

variable {env : LayoutEnv} {enter : Enter} {scope : Scope} {b : BlockId} {e : EdgeId} {edge : Edge}
  {s front s' : LayoutState} {u : PUnit}

/-- What happens to the code takes no slot from a loop. -/
theorem LayoutState.Looped.same (h : s.Looped) (enumerators : s'.enumerators = s.enumerators)
    (evolves : s.asm.Evolves s'.asm) : s'.Looped where
  slot he := by
    rw [enumerators] at he
    obtain ⟨slot, hslot, hrole⟩ := h.slot he
    exact ⟨slot, evolves.slots_within _ _ hslot, hrole⟩
  distinct he he' := by
    rw [enumerators] at he he'
    exact h.distinct he he'

/-- A new loop gets a new slot. -/
theorem LayoutState.Looped.enumeratorSlot (h : s.Looped) {slot : LocalId}
    (ends : Ends (enumeratorSlot e) s slot s') : s'.Looped := by
  obtain ⟨-, rfl⟩ | ⟨fresh, rfl, rfl⟩ := enumeratorSlot_cases ends
  · exact h
  have lookup {e' : EdgeId} {id : LocalId}
      (he' : ((e, s.asm.slots.enumerator.1) :: s.enumerators).lookup e' = some id) :
      e' = e ∧ id = s.asm.slots.slots.size ∨ e' ≠ e ∧ s.enumerators.lookup e' = some id := by
    rw [List.lookup_cons] at he'
    split at he'
    case h_1 same =>
      cases he'
      exact .inl ⟨beq_iff_eq.mp same, rfl⟩
    case h_2 other => exact .inr ⟨by simpa using other, he'⟩
  have old {e' : EdgeId} {id : LocalId} (he' : s.enumerators.lookup e' = some id) :
      id < s.asm.slots.slots.size := by
    obtain ⟨slot, hslot, -⟩ := h.slot he'
    exact (Array.getElem?_eq_some_iff.mp hslot).1
  refine ⟨fun {e' id} he' => ?_, fun {e₁ e₂ id} he₁ he₂ => ?_⟩
  · obtain ⟨rfl, rfl⟩ | ⟨-, he'⟩ := lookup he'
    · exact Slots.slot_enumerator
    · obtain ⟨slot, hslot, hrole⟩ := h.slot he'
      exact ⟨slot, (Slots.Serve.enumerator _).within _ _ hslot, hrole⟩
  · obtain ⟨same₁, new₁⟩ | ⟨-, known₁⟩ := lookup he₁ <;>
      obtain ⟨same₂, new₂⟩ | ⟨-, known₂⟩ := lookup he₂
    · exact same₁.trans same₂.symm
    · exact absurd new₁ (Nat.ne_of_lt (old known₂))
    · exact absurd new₂ (Nat.ne_of_lt (old known₁))
    · exact h.distinct known₁ known₂

/-- **Every edge** leaves each loop a slot of its own. -/
theorem LayoutState.Looped.placeEdge (h : s.Looped) (ready : s.Ready) (slots : s.asm.slots.Sound)
    (plain : edge.kind.isTry = false) (ends : Ends (placeEdge env enter scope e edge) s u s') :
    s'.Looped := by
  have evolves := (extends_of_ends_placeEdge ready slots plain ends).1.evolves
  obtain ⟨number, source, kind⟩ := edge
  cases kind with
  | tryCatch => cases plain
  | jump => exact h.same (KeepsLoops.transfer ends) evolves
  | branch condition ifTrue ifFalse =>
    have keeps : KeepsLoops
        (placeEdge env enter scope e ⟨number, source, .branch condition ifTrue ifFalse⟩) :=
      (KeepsLoops.write _).bind fun _ => KeepsLoops.transferIf.bind fun _ => .transfer
    exact h.same (keeps ends) evolves
  | enumerate subject target =>
    -- The only edge that takes a slot for an enumerator. The code around it leaves all slots alone.
    obtain ⟨d, slot, s₁, hvalue, hslot, hjump⟩ := parts_of_ends_enumerate ends
    have valued := ((emits_emitValue subject).grows slots hvalue).evolves
    have emitted : d.asm.Evolves (d.asm.emit .getEnumerator) := .single (.emit rfl)
    have front : LayoutState.Looped { s with draft := ⟨d.asm.emit .getEnumerator, d.nextSite⟩ } :=
      h.same rfl (valued.trans emitted)
    have stored : s₁.asm.Evolves (s₁.asm.emit (.storeLocal slot)) := .single (.emit rfl)
    have named : (s₁.mapAsm (·.emit (.storeLocal slot))).Looped :=
      (front.enumeratorSlot hslot).same rfl stored
    have jumped := jumped_of_ends_transfer hjump
    refine ⟨fun he => ?_, fun he he' => ?_⟩
    · rw [jumped.enumerators] at he
      rw [jumped.slots]
      exact named.slot he
    · rw [jumped.enumerators] at he he'
      exact named.distinct he he'
  | advance =>
    obtain ⟨slot, s₁, d, -, hnext, -, hbody⟩ := parts_of_ends_advance ends
    have tested := jumped_of_ends_transferIf hnext
    have jumped := jumped_of_ends_transfer hbody
    exact h.same (jumped.enumerators.trans tested.enumerators) evolves
  | switch subject cases next =>
    have keeps : KeepsLoops (placeEdge env enter scope e ⟨number, source, .switch subject cases next⟩) :=
      (KeepsLoops.write _).bind fun _ => (KeepsLoops.placeCases _ _).bind fun _ =>
        (KeepsLoops.write _).bind fun _ => KeepsLoops.transfer.bind fun _ => .enqueue
    exact h.same (keeps ends) evolves

end Loops

/-! ## Instructions on enumerators -/

namespace Frame

variable {f : Frame} {x : Slot} {base : List Slot} {id : LocalId} {k : Nat} {cursor : Cursor}
  {entries : List (Value × Value)}

theorem execute_getEnumerator_none (hstack : f.stack = x :: base)
    (h : x.toValue.entries? = none) :
    f.execute .getEnumerator = .error (.failed (.notIterable x.toValue.kind)) := by
  simp only [execute, popValue, pop, hstack, bind, Except.bind, pure, Except.pure, h]

theorem execute_getEnumerator_some (hstack : f.stack = x :: base)
    (h : x.toValue.entries? = some entries) :
    f.execute .getEnumerator = .ok (.next { f with
      stack := .enumerator f.cursors.size :: base
      cursors := f.cursors.push (.start entries) }) := by
  simp only [execute, popValue, pop, hstack, bind, Except.bind, pure, Except.pure, h]
  rfl

theorem popCursor_of_stack (hstack : f.stack = .enumerator k :: base)
    (hk : f.cursors[k]? = some cursor) :
    f.popCursor = .ok (k, cursor, { f with stack := base }) := by
  simp only [popCursor, pop, hstack, bind, Except.bind]
  rw [hk]
  rfl

/-- A slot that was never set holds no enumerator. -/
theorem execute_advance_unset (hstack : f.stack = .unset :: base) :
    f.execute .advance = .error (.ofFault .notAnEnumerator) := by
  simp only [execute, popCursor, pop, hstack]
  rfl

theorem execute_advance (hstack : f.stack = .enumerator k :: base)
    (hk : f.cursors[k]? = some cursor) :
    f.execute .advance = .ok (.next { f with
      stack := .value (.bool cursor.advance.current.isSome) :: base
      cursors := f.cursors.setIfInBounds k cursor.advance }) := by
  simp only [execute, popCursor_of_stack hstack hk]
  rfl

theorem execute_enumeratorValue {entry : Value × Value} (hstack : f.stack = .enumerator k :: base)
    (hk : f.cursors[k]? = some cursor) (h : cursor.current = some entry) :
    f.execute .enumeratorValue = .ok (.next { f with stack := .value entry.2 :: base }) := by
  simp only [execute, popCursor_of_stack hstack hk, bind, Except.bind, h]
  rfl

theorem execute_enumeratorKey {entry : Value × Value} (hstack : f.stack = .enumerator k :: base)
    (hk : f.cursors[k]? = some cursor) (h : cursor.current = some entry) :
    f.execute .enumeratorKey = .ok (.next { f with stack := .value entry.1 :: base }) := by
  simp only [execute, popCursor_of_stack hstack hk, bind, Except.bind, h]
  rfl

theorem execute_storeLocal (hstack : f.stack = x :: base) (hlt : id < f.locals.size) :
    f.execute (.storeLocal id) = .ok (.next { f with
      stack := base, locals := f.locals.setIfInBounds id x }) := by
  simp only [execute, pop, hstack]
  show (Frame.setLocal _ id x >>= _) = _
  rw [setLocal, if_pos hlt]
  rfl

end Frame

/-! ## Entries that are bound -/

/-- A part of the entry that an enumerator stands on, bound to a variable. -/
def bindPart (env : BodyEnv) (slot : LocalId) (part : Instruction) (name : String) : Emit Unit := do
  emit (.loadLocal slot)
  emit part
  storeVariable env name

section Entries

variable {env : BodyEnv} {slot : LocalId} {key : Option String} {value name : String}
  {part : Instruction} {d d' : Draft} {u : PUnit}

/-- An entry is bound part by part. -/
theorem parts_of_ends_bindEntry (h : Ends (bindEntry env slot key value) d u d') :
    ∃ d₁, Ends (bindPart env slot .enumeratorValue value) d () d₁ ∧
      (key = none ∧ d' = d₁ ∨
        ∃ name, key = some name ∧ Ends (bindPart env slot .enumeratorKey name) d₁ u d') := by
  obtain ⟨_, e₁, load, h⟩ := ends_bind.mp h
  obtain ⟨_, e₂, took, h⟩ := ends_bind.mp h
  obtain ⟨_, d₁, stored, h⟩ := ends_bind.mp h
  refine ⟨d₁, ends_bind.mpr ⟨_, e₁, load, ends_bind.mpr ⟨_, e₂, took, stored⟩⟩, ?_⟩
  cases key with
  | none => exact .inl ⟨rfl, (ends_pure.mp h).2.symm⟩
  | some key => exact .inr ⟨key, rfl, h⟩

theorem grows_of_ends_bindPart (ht : part.target? = none) (slots : d.asm.slots.Sound)
    (h : Ends (bindPart env slot part name) d u d') :
    Leads d.asm d'.asm ∧ d.asm.Evolves d'.asm := by
  simp only [bindPart, ends_bind, ends_emit] at h
  obtain ⟨_, _, rfl, _, _, rfl, hstore⟩ := h
  have loaded : d.asm.Evolves ((d.asm.emit (.loadLocal slot)).emit part) :=
    (Evolves.single (.emit rfl)).tail (.emit ht)
  have grows := (emits_storeVariable name).grows (loaded.slots_sound slots) hstore
  exact ⟨(leads_emit.trans leads_emit).trans grows.leads, loaded.trans grows.evolves⟩

theorem leads_of_ends_bindEntry (slots : d.asm.slots.Sound)
    (h : Ends (bindEntry env slot key value) d u d') : Leads d.asm d'.asm := by
  obtain ⟨d₁, hvalue, ⟨-, rfl⟩ | ⟨name, -, hkey⟩⟩ := parts_of_ends_bindEntry h
  · exact (grows_of_ends_bindPart rfl slots hvalue).1
  · obtain ⟨leads, evolves⟩ := grows_of_ends_bindPart rfl slots hvalue
    exact leads.trans (grows_of_ends_bindPart rfl (evolves.slots_sound slots) hkey).1

theorem onward_bindEntry : Onward (bindEntry env slot key value) := by
  have emitted {i : Instruction} (stays : i.isTransfer = false) : Onward (emit i) := .emit stays
  refine (emitted rfl).bind fun _ => (emitted rfl).bind fun _ =>
    (composed_storeVariable value).onward.bind fun _ => ?_
  cases key with
  | none => exact .pure _
  | some key =>
    exact (emitted rfl).bind fun _ => (emitted rfl).bind fun _ => (composed_storeVariable key).onward

section Running

variable {σ : Type} {c : Setting σ} {f : Frame} {vars : Vars} {w : σ} {k : Nat} {cursor : Cursor}
  (sound : d.asm.Sound) (slots : d.asm.slots.Sound) (behind : d'.asm.Evolves c.final)
  (hpc : f.pc = d.asm.code.size) (hstack : f.stack = []) (hvars : f.Agrees c.final.slots vars)
  (hk : f.locals[slot]? = some (.enumerator k))

include sound slots behind hpc hstack hvars hk

theorem comes_of_ends_bindPart {x : Value} (ht : part.target? = none)
    (h : Ends (bindPart env slot part name) d () d')
    (execute : ∀ g : Frame, g.stack = [.enumerator k] → g.cursors = f.cursors →
      g.execute part = .ok (.next { g with stack := [.value x] })) :
    Comes c d.asm d'.asm [] (fun _ => []) f w
      ((Eval.writeVariable env name (.value x)).outcome vars w) := by
  simp only [bindPart, ends_bind, ends_emit] at h
  obtain ⟨_, _, rfl, _, _, rfl, hstore⟩ := h
  let loaded := d.asm.emit (.loadLocal slot)
  let front : Draft := ⟨loaded.emit part, d.nextSite⟩
  have evolves : loaded.Evolves front.asm := .single (.emit ht)
  have toFront : d.asm.Evolves front.asm := (Evolves.single (.emit rfl)).trans evolves
  have slots₁ : front.asm.slots.Sound := toFront.slots_sound slots
  have stored := ((emits_storeVariable name).grows slots₁ hstore).evolves
  have reads : c.Reads loaded :=
    .of_evolves sound (.single (.emit rfl)) (evolves.trans (stored.trans behind))
  have reads₁ : c.Reads front.asm := .of_evolves reads.sound evolves (stored.trans behind)
  have size : f.pc + 1 = loaded.code.size := by simp [loaded, hpc]
  let g : Frame := { f.push (.enumerator k) with pc := f.pc + 1 }
  have hi : c.body.code[g.pc]? = some part := by
    show c.body.code[f.pc + 1]? = _
    rw [size]
    exact reads₁.last ht
  have took := execute g (by simp [g, Frame.push, hstack]) rfl
  have stores : Means c (-1) (storeVariable env name) [.value x]
      (fun _ => Eval.writeVariable env name (.value x)) id fun _ => [] := means_storeVariable name
  have leads : Leads d.asm front.asm := (leads_emit (i := .loadLocal slot)).trans leads_emit
  refine .behind ((climbs_loadLocal reads hpc hk).trans
      (.next (step_next hi took) (Nat.lt_succ_self _) (.refl _)))
    leads (.congr (.refl _ f) rfl rfl rfl) ?_
  refine (stores.follows front () d' reads₁.sound slots₁ hstore behind).comes _ [] vars w ?_ rfl
    (hvars.congr rfl rfl rfl)
  simp [front, g, size]

/-- **The code that binds an entry** binds the value, and then the key. -/
theorem comes_of_ends_bindEntry {entry : Value × Value}
    (role : ∃ place, c.final.slots.slots[slot]? = some place ∧ place.role = .enumerator)
    (h : Ends (bindEntry env slot key value) d () d') (hc : f.cursors[k]? = some cursor)
    (hentry : cursor.current = some entry) :
    Comes c d.asm d'.asm [] (fun _ => []) f w
      ((Eval.bindEntry env key value entry).outcome vars w) := by
  obtain ⟨d₁, hvalue, hkey⟩ := parts_of_ends_bindEntry h
  obtain ⟨leads, evolves⟩ := grows_of_ends_bindPart rfl slots hvalue
  have slots₁ := evolves.slots_sound slots
  have toEnd : d₁.asm.Evolves d'.asm ∧ d₁.asm.code.size ≤ d'.asm.code.size := by
    obtain ⟨-, rfl⟩ | ⟨name, -, hkey⟩ := hkey
    · exact ⟨.refl _, Nat.le_refl _⟩
    · obtain ⟨leads, evolves⟩ := grows_of_ends_bindPart rfl slots₁ hkey
      exact ⟨evolves, leads.size_le⟩
  have behind₁ := toEnd.1.trans behind
  have value := comes_of_ends_bindPart (w := w) sound slots behind₁ hpc hstack hvars hk rfl hvalue
    fun g hg hcursors => Frame.execute_enumeratorValue hg (hcursors ▸ hc) hentry
  refine value.bind leads toEnd.2 ?_
  intro _ vars' w' g _ hpc' hstack' hvars' beside
  obtain ⟨rfl, rfl⟩ | ⟨name, rfl, hkey⟩ := hkey
  · exact .ends (.refl _) hpc' hstack' hvars' (.refl _ g)
  · -- The slot of the enumerator is still what it was, and so is the enumerator.
    obtain ⟨place, hplace, hrole⟩ := role
    have hk' : g.locals[slot]? = some (.enumerator k) :=
      (beside.loops slot place hplace hrole).trans hk
    have hc' : g.cursors[k]? = some cursor := by rw [beside.cursors, hc]
    have sound₁ := evolves.sound sound (behind₁.fault (Assembler.finish_cases c.finished).1)
    exact comes_of_ends_bindPart sound₁ slots₁ behind hpc' hstack' hvars' hk' rfl hkey
      fun g' hg hcursors => Frame.execute_enumeratorKey hg (hcursors ▸ hc') hentry

end Running

end Entries

end StackScript
