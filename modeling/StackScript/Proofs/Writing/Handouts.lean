import Mathlib.Order.Lattice
import Mathlib.Tactic.IntervalCases
import StackScript.Proofs.Writing.Slots

/-!
# Slots over any sequence of calls

Slots are handed out and given back in any order, by callers that know nothing of each other. A slot
is only ever shared by calls that ask for the same thing: one variable, the result, or a scratch
slot. A scratch slot goes from one caller to the next only after it has been given back. Names do
not matter for this, so a variable that is spelled like a slot of another kind has a slot of its
own.

Callers know a slot by 32 bits of its number, so this is so for the first 2 ^ 32 slots. The next one
is taken for the first.

## Main definitions

* `SlotCall`, `SlotCall.run`: a call, with its answer and the slots that it leaves
* `SlotCall.slotsAt`, `SlotCall.HandsOut`: a sequence of calls, and what one of them hands out
* `SlotCall.Answers`: what the caller gets to know of it
* `SlotCall.purpose`: what a slot is asked for

## Main results

* `SlotCall.held_slotsAt`: a scratch slot stays in use until it is given back
* `SlotCall.slots_never_alias`: every sequence of calls that gives back only what was handed out
* `SlotCall.exists_alias`: a slot that has been given back, and one slot too many
-/

namespace StackScript

/-- A call that hands out a slot or gives one back. -/
inductive SlotCall where
  | named (name : String)
  | scratch
  | enumerator
  | result
  /-- Asks for the slot of the result, if there is one. -/
  | existingResult
  | release (id : UInt32)
  deriving Repr, DecidableEq

namespace SlotCall

/-- The slot that the call hands out, and the slots behind it. -/
def run (s : Slots) : SlotCall → Option LocalId × Slots
  | .named name => (some (s.named name).1, (s.named name).2)
  | .scratch => (some s.scratch.1, s.scratch.2)
  | .enumerator => (some s.enumerator.1, s.enumerator.2)
  | .result => (some s.result.1, s.result.2)
  | .existingResult => (s.result?, s)
  | .release id => (none, s.release id.toNat)

/-- The slots in front of the call at a place. -/
def slotsAt (calls : List SlotCall) (n : Nat) : Slots :=
  (calls.take n).foldl (fun s call => (call.run s).2) .empty

/-- The call at a place hands out a slot. -/
def HandsOut (calls : List SlotCall) (n : Nat) (call : SlotCall) (id : LocalId) : Prop :=
  calls[n]? = some call ∧ (call.run (slotsAt calls n)).1 = some id

/-- The call at a place answers with 32 bits of the number of the slot that it hands out. -/
def Answers (calls : List SlotCall) (n : Nat) (call : SlotCall) (id : UInt32) : Prop :=
  ∃ k, HandsOut calls n call k ∧ id = .ofNat k

/-- What is given back has been handed out before. -/
def GivesBackOwn (calls : List SlotCall) : Prop :=
  ∀ n id, calls[n]? = some (.release id) → ∃ m < n, ∃ call, Answers calls m call id

/-- All slots have numbers of 32 bits. -/
def Fits (calls : List SlotCall) : Prop := (slotsAt calls calls.length).size ≤ 2 ^ 32

/-- What a slot is asked for. Every call for an enumerator asks for another one. -/
inductive Purpose where
  | variable (name : String)
  | scratch
  | enumerator (place : Nat)
  | result
  deriving DecidableEq

/-- What the call at a place asks for. -/
def purpose (n : Nat) : SlotCall → Option Purpose
  | .named name => some (.variable name)
  | .scratch => some .scratch
  | .enumerator => some (.enumerator n)
  | .result | .existingResult => some .result
  | .release _ => none

/-- The slot is of the kind that the call asks for, and has the name of the variable. -/
def Suits : SlotCall → LocalSlot → Prop
  | .named name, slot => slot = ⟨name, .variable⟩
  | .scratch, slot => slot.role = .scratch
  | .enumerator, slot => slot.role = .enumerator
  | .result, slot | .existingResult, slot => slot.role = .result
  | .release _, _ => False

variable {calls : List SlotCall} {call a b : SlotCall} {s : Slots} {slot : LocalSlot}
  {id i j : LocalId} {m n : Nat}

/-! ## One call -/

theorem run_serves (call : SlotCall) (s : Slots) :
    (call.run s).2 = s ∨ s.Serve (call.run s).2 := by
  cases call with
  | named name => exact .inr (.named s name)
  | scratch => exact .inr (.scratch s)
  | enumerator => exact .inr (.enumerator s)
  | result => exact .inr (.result s)
  | existingResult => exact .inl rfl
  | release id => exact .inr (.release s id.toNat)

theorem within_run (call : SlotCall) (s : Slots) : s.Within (call.run s).2 := by
  rcases run_serves call s with same | serves
  · rw [same]
    exact .refl s
  · exact serves.within

theorem sound_run (hs : s.Sound) (call : SlotCall) : (call.run s).2.Sound := by
  rcases run_serves call s with same | serves
  · rwa [same]
  · exact serves.sound hs

/-- A slot that is handed out is of the kind that was asked for. -/
theorem suits_run (hs : s.Sound) (answer : (call.run s).1 = some id) :
    ∃ slot, (call.run s).2.slots[id]? = some slot ∧ call.Suits slot := by
  cases call with
  | named name =>
    cases answer
    exact ⟨_, Slots.slot_named, rfl⟩
  | scratch =>
    cases answer
    exact Slots.slot_scratch hs
  | enumerator =>
    cases answer
    exact Slots.slot_enumerator
  | result =>
    cases answer
    exact Slots.slot_result
  | existingResult =>
    have answer : s.result? = some id := answer
    obtain ⟨_, slot, -, found, hslot, hrole⟩ | ⟨-, none, -⟩ := Slots.result_cases s
    · rw [answer] at found
      cases found
      exact ⟨slot, hslot, hrole⟩
    · rw [answer] at none
      cases none
  | release => cases answer

/-- A slot that suits two calls is asked for by both for one purpose. -/
theorem purpose_eq_of_suits (ha : a.Suits slot) (hb : b.Suits slot)
    (not_enumerator : a ≠ .enumerator) : a.purpose m = b.purpose n := by
  -- The role of the slot rules out all pairs of different kinds.
  cases a <;> cases b <;> simp_all [Suits, purpose]

/-- A slot in use stays in use, unless it is given back. -/
theorem held_run (held : s.Held id) (hne : ∀ r, call = .release r → r.toNat ≠ id) :
    (call.run s).2.Held id := by
  cases call with
  | named name => exact Slots.held_named held
  | scratch => exact Slots.held_scratch held
  | enumerator => exact Slots.held_enumerator held
  | result => exact Slots.held_result held
  | existingResult => exact held
  | release r => exact Slots.held_release held (hne r rfl).symm

/-! ## Sequences of calls -/

theorem slotsAt_succ (h : calls[n]? = some call) :
    slotsAt calls (n + 1) = (call.run (slotsAt calls n)).2 := by
  simp [slotsAt, List.take_add_one, h]

theorem slotsAt_succ_of_none (h : calls[n]? = none) : slotsAt calls (n + 1) = slotsAt calls n := by
  simp [slotsAt, List.take_add_one, h]

theorem sound_slotsAt (calls : List SlotCall) (n : Nat) : (slotsAt calls n).Sound := by
  induction n with
  | zero => exact Slots.sound_empty
  | succ n ih =>
    cases h : calls[n]? with
    | none => rwa [slotsAt_succ_of_none h]
    | some call =>
      rw [slotsAt_succ h]
      exact sound_run ih call

/-- No slot gets another number, name or role later. -/
theorem within_slotsAt (hmn : m ≤ n) : (slotsAt calls m).Within (slotsAt calls n) := by
  induction n, hmn using Nat.le_induction with
  | base => exact .refl _
  | succ n _ ih =>
    cases h : calls[n]? with
    | none => rwa [slotsAt_succ_of_none h]
    | some call =>
      rw [slotsAt_succ h]
      exact ih.trans (within_run call _)

/-- **What is handed out keeps its number, name and role** for good. -/
theorem HandsOut.exists_slot (h : HandsOut calls n call id) :
    ∃ slot, call.Suits slot ∧ ∀ k, n < k → (slotsAt calls k).slots[id]? = some slot := by
  obtain ⟨slot, hslot, suits⟩ := suits_run (sound_slotsAt calls n) h.2
  refine ⟨slot, suits, fun k hk => ?_⟩
  rw [← slotsAt_succ h.1] at hslot
  exact within_slotsAt hk _ _ hslot

theorem HandsOut.lt (h : HandsOut calls n call id) (hmn : n < m) :
    id < (slotsAt calls m).size := by
  obtain ⟨slot, -, stays⟩ := h.exists_slot
  exact (Array.getElem?_eq_some_iff.mp (stays m hmn)).1

/-- An enumerator is new. -/
theorem HandsOut.ne_of_enumerator (h : HandsOut calls m a i)
    (h' : HandsOut calls n .enumerator j) (hmn : m < n) : i ≠ j := by
  have new : (slotsAt calls n).size = j := Option.some.inj h'.2
  exact new ▸ Nat.ne_of_lt (h.lt hmn)

/-- **A scratch slot stays in use until it is given back.** -/
theorem held_slotsAt (h : HandsOut calls m .scratch id) (hmn : m < n)
    (kept : ∀ k, m < k → k < n → ∀ r, calls[k]? = some (.release r) → r.toNat ≠ id) :
    (slotsAt calls n).Held id := by
  induction n, hmn using Nat.le_induction with
  | base =>
    rw [slotsAt_succ h.1, ← Option.some.inj h.2]
    exact Slots.held_scratch_self (sound_slotsAt calls m)
  | succ n hmn ih =>
    have held := ih fun k hmk hkn => kept k hmk (Nat.lt_succ_of_lt hkn)
    cases hcall : calls[n]? with
    | none => rwa [slotsAt_succ_of_none hcall]
    | some call =>
      rw [slotsAt_succ hcall]
      refine held_run held fun r same => ?_
      subst same
      exact kept n hmn (Nat.lt_succ_self n) r hcall

/-- Only calls with one purpose share a slot. -/
theorem HandsOut.purpose_eq (h : HandsOut calls m a id) (h' : HandsOut calls n b id) :
    a.purpose m = b.purpose n := by
  obtain ⟨slot, suits, stays⟩ := h.exists_slot
  obtain ⟨slot', suits', stays'⟩ := h'.exists_slot
  have one : slot = slot' := by
    have here := stays (max m n + 1) (Nat.lt_succ_of_le (le_max_left m n))
    rw [stays' (max m n + 1) (Nat.lt_succ_of_le (le_max_right m n))] at here
    exact (Option.some.inj here).symm
  subst one
  by_cases ha : a = .enumerator
  · by_cases hb : b = .enumerator
    · subst ha hb
      -- Two enumerators are different slots unless it is one call.
      rcases Nat.lt_trichotomy m n with hmn | rfl | hnm
      · exact (h.ne_of_enumerator h' hmn rfl).elim
      · rfl
      · exact (h'.ne_of_enumerator h hnm rfl).elim
    · exact (purpose_eq_of_suits suits' suits hb).symm
  · exact purpose_eq_of_suits suits suits' ha

/-- A variable has one slot, and so has the result. -/
theorem HandsOut.id_eq (h : HandsOut calls m a i) (h' : HandsOut calls n b j)
    (hp : a.purpose m = b.purpose n) (not_scratch : a ≠ .scratch) : i = j := by
  obtain ⟨slot, suits, stays⟩ := h.exists_slot
  obtain ⟨slot', suits', stays'⟩ := h'.exists_slot
  have sound := sound_slotsAt calls (max m n + 1)
  have here := stays (max m n + 1) (Nat.lt_succ_of_le (le_max_left m n))
  have there := stays' (max m n + 1) (Nat.lt_succ_of_le (le_max_right m n))
  cases a with
  | named name =>
    cases b <;> cases hp
    exact sound.named_unique name i j (suits ▸ here) (suits' ▸ there)
  | scratch => exact (not_scratch rfl).elim
  | enumerator =>
    cases b <;> cases hp
    exact Option.some.inj (h.2.symm.trans h'.2)
  | result | existingResult =>
    cases b <;> cases hp <;> exact sound.result_unique i j slot slot' here there suits suits'
  | release => cases h.2

/-- **A caller knows which slot it has got**, if all slots have numbers of 32 bits. -/
theorem Answers.handsOut {id : UInt32} (h : Answers calls n call id) (fits : Fits calls) :
    HandsOut calls n call id.toNat := by
  obtain ⟨k, handsOut, rfl⟩ := h
  have inside : n < calls.length := (List.getElem?_eq_some_iff.mp handsOut.1).1
  have small : k < 2 ^ 32 := Nat.lt_of_lt_of_le (handsOut.lt inside) fits
  rwa [UInt32.toNat_ofNat_of_lt' small]

/-- **Slots never alias**, whatever the calls are, if they give back only what was handed out and all
slots have numbers of 32 bits. Two calls get one slot only if they ask for one variable, both for the
result, or both for a scratch slot; and always if they ask for one variable or for the result.
Between two calls that get one scratch slot the slot is given back. What is handed out is among the
slots ever after, with the same name and role, so nothing is given back that is not there. -/
theorem slots_never_alias (calls : List SlotCall) (own : GivesBackOwn calls) (fits : Fits calls) :
    (∀ m n a b i j, Answers calls m a i → Answers calls n b j →
      (i = j → a.purpose m = b.purpose n) ∧
      (a.purpose m = b.purpose n → a ≠ .scratch → i = j)) ∧
    (∀ m n id, m < n → Answers calls m .scratch id → Answers calls n .scratch id →
      ∃ k, m < k ∧ k < n ∧ calls[k]? = some (.release id)) ∧
    (∀ n call id, Answers calls n call id → ∃ slot, call.Suits slot ∧ ∀ k, n < k →
      id.toNat < (slotsAt calls k).size ∧ (slotsAt calls k).slots[id.toNat]? = some slot) ∧
    ∀ n id, calls[n]? = some (.release id) → id.toNat < (slotsAt calls n).size := by
  refine ⟨fun m n a b i j h h' => ⟨?_, fun hp hne => ?_⟩, fun m n id hmn h h' => ?_,
    fun n call id h => ?_, fun n id h => ?_⟩
  · rintro rfl
    exact (h.handsOut fits).purpose_eq (h'.handsOut fits)
  · exact UInt32.toNat_inj.mp ((h.handsOut fits).id_eq (h'.handsOut fits) hp hne)
  · by_contra never
    push Not at never
    have held := held_slotsAt (h.handsOut fits) hmn fun k hmk hkn r given same =>
      never k hmk hkn (UInt32.toNat_inj.mp same ▸ given)
    rw [← Option.some.inj (h'.handsOut fits).2] at held
    exact Slots.not_held_scratch held
  · obtain ⟨slot, suits, stays⟩ := (h.handsOut fits).exists_slot
    exact ⟨slot, suits, fun k hk => ⟨(h.handsOut fits).lt hk, stays k hk⟩⟩
  · obtain ⟨m, hmn, call, answers⟩ := own n id h
    exact (answers.handsOut fits).lt hmn

/-- Variables that are spelled like other slots, and a scratch slot that is given back twice. -/
def lookalikes : List SlotCall :=
  [.named "<tmp1>", .scratch, .release 1, .release 1, .release 0, .scratch, .scratch,
    .named "<ret>", .result, .enumerator, .named "<tmp1>", .existingResult]

/-- What is given back twice is handed out once, a variable is not given back at all, and no
variable is the scratch slot or the result that is spelled like it. -/
theorem slots_never_alias_lookalikes :
    GivesBackOwn lookalikes ∧
      Fits lookalikes ∧
      (lookalikes.zipIdx.map fun (call, n) => (call.run (slotsAt lookalikes n)).1) =
        [some 0, some 1, none, none, none, some 1, some 2, some 3, some 4, some 5, some 0,
          some 4] ∧
      (∃ k, 1 < k ∧ k < 5 ∧ lookalikes[k]? = some (.release 1)) ∧
      1 < (slotsAt lookalikes 3).size := by
  have own : GivesBackOwn lookalikes := by
    intro n id h
    have hn : n < 12 := (List.getElem?_eq_some_iff.mp h).1
    interval_cases n <;> cases h
    · exact ⟨1, by decide, .scratch, 1, ⟨rfl, by decide +kernel⟩, rfl⟩
    · exact ⟨1, by decide, .scratch, 1, ⟨rfl, by decide +kernel⟩, rfl⟩
    · exact ⟨0, by decide, .named "<tmp1>", 0, ⟨rfl, by decide +kernel⟩, rfl⟩
  have fits : Fits lookalikes := by
    unfold Fits
    decide +kernel
  obtain ⟨-, recycled, -, there⟩ := slots_never_alias lookalikes own fits
  have given : Answers lookalikes 1 .scratch 1 := ⟨1, ⟨rfl, by decide +kernel⟩, rfl⟩
  have again : Answers lookalikes 5 .scratch 1 := ⟨1, ⟨rfl, by decide +kernel⟩, rfl⟩
  exact ⟨own, fits, by decide +kernel, recycled 1 5 1 (by decide) given again, there 3 1 rfl⟩

/-- Every call for an enumerator makes a slot. -/
theorem size_slotsAt_replicate (count : Nat) (le : n ≤ count) :
    (slotsAt (List.replicate count .enumerator) n).size = n := by
  induction n with
  | zero => rfl
  | succ n ih =>
    have call : (List.replicate count SlotCall.enumerator)[n]? = some .enumerator :=
      List.getElem?_replicate_of_lt le
    rw [slotsAt_succ call]
    change ((slotsAt _ n).slots.push _).size = n + 1
    rw [Array.size_push]
    exact congrArg (· + 1) (ih (Nat.le_of_succ_le le))

/-- A scratch slot that has been given back is handed out again; and behind 2 ^ 32 slots comes one
with the number of the first. -/
theorem exists_alias :
    (GivesBackOwn [.scratch, .release 0, .scratch] ∧
      Answers [.scratch, .release 0, .scratch] 0 .scratch 0 ∧
      Answers [.scratch, .release 0, .scratch] 2 .scratch 0) ∧
    GivesBackOwn (List.replicate (2 ^ 32 + 1) .enumerator) ∧
      Answers (List.replicate (2 ^ 32 + 1) .enumerator) 0 .enumerator 0 ∧
      Answers (List.replicate (2 ^ 32 + 1) .enumerator) (2 ^ 32) .enumerator 0 := by
  have answers (n : Nat) (lt : n < 2 ^ 32 + 1) :
      Answers (List.replicate (2 ^ 32 + 1) .enumerator) n .enumerator (.ofNat n) :=
    ⟨n, ⟨List.getElem?_replicate_of_lt lt,
      congrArg some (size_slotsAt_replicate _ (Nat.le_of_lt lt))⟩, rfl⟩
  refine ⟨⟨fun n id h => ?_, ⟨0, ⟨rfl, rfl⟩, rfl⟩, ⟨0, ⟨rfl, by decide +kernel⟩, rfl⟩⟩,
    fun n id h => ?_, answers 0 (Nat.succ_pos _), answers (2 ^ 32) (Nat.lt_succ_self _)⟩
  · have lt : n < 3 := (List.getElem?_eq_some_iff.mp h).1
    interval_cases n <;> cases h
    exact ⟨0, by decide, .scratch, 0, ⟨rfl, rfl⟩, rfl⟩
  · cases (List.mem_replicate.mp (List.mem_of_getElem? h)).2

end SlotCall

end StackScript
