import Mathlib.Tactic.Common
import StackScript.Code.Body

/-!
# Slots that are handed out

A slot keeps its number and its role for good. A scratch slot that is handed out is a new one or
one that had been given back, so no slot that somebody still relies on is handed out again.

## Main definitions

* `Slots.Serve`: a step in handing out slots
* `Slots.Within`: slots that are all there later
* `Slots.Sound`: what holds of slots at any time
* `Slots.Held`: somebody relies on the value in a slot

## Main results

* `Slots.Serve.within`, `Slots.Serve.sound`: what a step keeps
* `Slots.not_held_scratch`: a scratch slot that is handed out is nobody's
-/

namespace StackScript.Slots

variable {s t u : Slots} {name : String} {role : SlotRole} {slot : LocalSlot} {id : Nat}

/-! ## Steps -/

/-- A step in handing out slots. -/
inductive Serve : Slots → Slots → Prop where
  | named (s : Slots) (name : String) : Serve s (s.named name).2
  | scratch (s : Slots) : Serve s s.scratch.2
  | enumerator (s : Slots) : Serve s s.enumerator.2
  | result (s : Slots) : Serve s s.result.2
  | release (s : Slots) (id : Nat) : Serve s (s.release id)

/-- The slots of the one are also slots of the other, with the same numbers. -/
def Within (s t : Slots) : Prop :=
  ∀ (id : Nat) (slot : LocalSlot), s.slots[id]? = some slot → t.slots[id]? = some slot

theorem Within.refl (s : Slots) : s.Within s := fun _ _ h => h

theorem Within.trans (h : s.Within t) (h' : t.Within u) : s.Within u :=
  fun id slot hs => h' id slot (h id slot hs)

theorem within_push : s.Within (s.push name role).2 := by
  intro id slot hs
  simp only [push, Array.getElem?_push]
  rw [if_neg, hs]
  rintro rfl
  simp at hs

/-- A step that hands out a new slot, or one that is there and changes nothing. -/
theorem named_cases (s : Slots) (name : String) :
    (∃ id, s.named name = (id, s) ∧ s.slots[id]? = some ⟨name, .variable⟩) ∨
      s.named name = s.push name .variable ∧
        ∀ id : Nat, s.slots[id]? ≠ some ⟨name, .variable⟩ := by
  unfold named
  split
  case h_1 id h =>
    obtain ⟨hlt, hp, -⟩ := Array.findIdx?_eq_some_iff_getElem.mp h
    refine .inl ⟨id, rfl, ?_⟩
    rw [Array.getElem?_eq_getElem hlt]
    simp only [Bool.and_eq_true, beq_iff_eq] at hp
    obtain ⟨hrole, hname⟩ := hp
    rw [← hrole, ← hname]
  case h_2 h =>
    refine .inr ⟨rfl, fun id hid => ?_⟩
    have := Array.findIdx?_eq_none_iff.mp h _ (Array.mem_of_getElem? hid)
    simp at this

theorem result_cases (s : Slots) :
    (∃ id slot, s.result = (id, s) ∧ s.result? = some id ∧ s.slots[id]? = some slot ∧
        slot.role = .result) ∨
      s.result = s.push "<ret>" .result ∧ s.result? = none ∧
        ∀ (id : Nat) slot, s.slots[id]? = some slot → slot.role ≠ .result := by
  unfold result
  cases h : s.result? with
  | some id =>
    obtain ⟨hlt, hp, -⟩ := Array.findIdx?_eq_some_iff_getElem.mp h
    exact .inl ⟨id, _, rfl, rfl, Array.getElem?_eq_getElem hlt, by simpa using hp⟩
  | none =>
    refine .inr ⟨rfl, rfl, fun id slot hid => ?_⟩
    simpa using Array.findIdx?_eq_none_iff.mp h _ (Array.mem_of_getElem? hid)

theorem scratch_cases (s : Slots) :
    (∃ id rest, s.free = id :: rest ∧ s.scratch = (id, { s with free := rest })) ∨
      s.free = [] ∧ ∃ name, s.scratch = s.push name .scratch := by
  unfold scratch
  split
  case h_1 id rest h => exact .inl ⟨id, rest, h, rfl⟩
  case h_2 h => exact .inr ⟨h, _, rfl⟩

theorem release_cases (s : Slots) (id : Nat) :
    s.release id = s ∨
      ∃ slot, s.slots[id]? = some slot ∧ slot.role = .scratch ∧ id ∉ s.free ∧
        s.release id = { s with free := id :: s.free } := by
  unfold release
  split
  case h_1 slot h =>
    split
    case isTrue hr => exact .inr ⟨slot, h, hr.1, hr.2, rfl⟩
    case isFalse => exact .inl rfl
  case h_2 => exact .inl rfl

/-- **No slot is ever given another number.** -/
theorem Serve.within (h : Serve s t) : s.Within t := by
  cases h with
  | named name =>
    obtain ⟨_, h, -⟩ | ⟨h, -⟩ := named_cases s name
    · rw [h]
      exact .refl s
    · rw [h]
      exact within_push
  | scratch =>
    obtain ⟨_, _, -, h⟩ | ⟨-, _, h⟩ := scratch_cases s
    · rw [h]
      exact .refl s
    · rw [h]
      exact within_push
  | enumerator => exact within_push
  | result =>
    obtain ⟨_, _, h, -⟩ | ⟨h, -⟩ := result_cases s
    · rw [h]
      exact .refl s
    · rw [h]
      exact within_push
  | release id =>
    obtain h | ⟨_, -, -, -, h⟩ := release_cases s id
    · rw [h]
      exact .refl s
    · rw [h]
      exact .refl s

/-! ## Soundness -/

/-- The free slots are scratch slots, each free once; a name has one slot, and so has the
result. -/
structure Sound (s : Slots) : Prop where
  free_scratch : ∀ id ∈ s.free, ∃ slot, s.slots[id]? = some slot ∧ slot.role = .scratch
  free_nodup : s.free.Nodup
  named_unique : ∀ name (id id' : Nat), s.slots[id]? = some ⟨name, .variable⟩ →
    s.slots[id']? = some ⟨name, .variable⟩ → id = id'
  result_unique : ∀ (id id' : Nat) slot slot', s.slots[id]? = some slot →
    s.slots[id']? = some slot' → slot.role = .result → slot'.role = .result → id = id'

theorem sound_empty : empty.Sound where
  free_scratch := by simp [empty]
  free_nodup := by simp [empty]
  named_unique := by simp [empty]
  result_unique := by simp [empty]

theorem getElem?_push (hid : (s.push name role).2.slots[id]? = some slot) :
    s.slots[id]? = some slot ∨ id = s.size ∧ slot = ⟨name, role⟩ := by
  simp only [push, Array.getElem?_push] at hid
  split at hid
  case isTrue h =>
    cases hid
    exact .inr ⟨h, rfl⟩
  case isFalse => exact .inl hid

/-- A new slot, of a role and name of which there is none. -/
theorem Sound.push (hs : s.Sound)
    (named : role = .variable → ∀ id : Nat, s.slots[id]? ≠ some ⟨name, .variable⟩)
    (result : role = .result → ∀ (id : Nat) slot, s.slots[id]? = some slot →
      slot.role ≠ .result) :
    (s.push name role).2.Sound where
  free_scratch id hid := by
    obtain ⟨slot, hslot, hrole⟩ := hs.free_scratch id hid
    exact ⟨slot, within_push _ _ hslot, hrole⟩
  free_nodup := hs.free_nodup
  named_unique x id id' hid hid' := by
    obtain h | ⟨h, he⟩ := getElem?_push hid
    · obtain h' | ⟨h', he'⟩ := getElem?_push hid'
      · exact hs.named_unique x id id' h h'
      · cases he'
        exact (named rfl id h).elim
    · cases he
      obtain h' | ⟨h', -⟩ := getElem?_push hid'
      · exact (named rfl id' h').elim
      · exact h.trans h'.symm
  result_unique id id' a b hid hid' ha hb := by
    obtain h | ⟨h, he⟩ := getElem?_push hid
    · obtain h' | ⟨h', he'⟩ := getElem?_push hid'
      · exact hs.result_unique id id' a b h h' ha hb
      · subst he'
        exact (result hb id a h ha).elim
    · subst he
      obtain h' | ⟨h', -⟩ := getElem?_push hid'
      · exact (result ha id' b h' hb).elim
      · exact h.trans h'.symm

/-- A step keeps slots sound. -/
theorem Serve.sound (h : Serve s t) (hs : s.Sound) : t.Sound := by
  cases h with
  | named name =>
    obtain ⟨_, h, -⟩ | ⟨h, fresh⟩ := named_cases s name
    · rwa [h]
    · rw [h]
      exact hs.push (fun _ => fresh) (fun h => by cases h)
  | scratch =>
    obtain ⟨id, rest, hfree, h⟩ | ⟨-, _, h⟩ := scratch_cases s
    · rw [h]
      have nodup := hs.free_nodup
      rw [hfree] at nodup
      refine ⟨fun id hid => hs.free_scratch id ?_, (List.nodup_cons.mp nodup).2, hs.named_unique,
        hs.result_unique⟩
      rw [hfree]
      exact List.mem_cons_of_mem _ hid
    · rw [h]
      exact hs.push (fun h => by cases h) (fun h => by cases h)
  | enumerator => exact hs.push (fun h => by cases h) (fun h => by cases h)
  | result =>
    obtain ⟨_, _, h, -⟩ | ⟨h, -, fresh⟩ := result_cases s
    · rwa [h]
    · rw [h]
      exact hs.push (fun h => by cases h) (fun _ => fresh)
  | release id =>
    obtain h | ⟨slot, hslot, hrole, hid, h⟩ := release_cases s id
    · rwa [h]
    · rw [h]
      refine ⟨fun id' hid' => ?_, List.nodup_cons.mpr ⟨hid, hs.free_nodup⟩, hs.named_unique,
        hs.result_unique⟩
      rcases List.mem_cons.mp hid' with rfl | hid'
      · exact ⟨slot, hslot, hrole⟩
      · exact hs.free_scratch id' hid'

/-! ## Slots in use -/

/-- Somebody relies on the value in a slot: the slot is no variable, and is not free. -/
def Held (s : Slots) (id : Nat) : Prop :=
  (∃ slot, s.slots[id]? = some slot ∧ slot.role ≠ .variable) ∧ id ∉ s.free

/-- A slot of a name has the name. -/
theorem slot_named : (s.named name).2.slots[(s.named name).1]? = some ⟨name, .variable⟩ := by
  obtain ⟨_, h, hid⟩ | ⟨h, -⟩ := named_cases s name
  · rwa [h]
  · rw [h]
    exact Array.getElem?_push_size

theorem held_named (h : s.Held id) : (s.named name).2.Held id := by
  obtain ⟨_, hn, -⟩ | ⟨hn, -⟩ := named_cases s name
  · rwa [hn]
  · rw [hn]
    obtain ⟨⟨slot, hslot, hrole⟩, hid⟩ := h
    exact ⟨⟨slot, within_push _ _ hslot, hrole⟩, hid⟩

theorem slot_result : ∃ slot, s.result.2.slots[s.result.1]? = some slot ∧ slot.role = .result := by
  obtain ⟨_, slot, h, -, hslot, hrole⟩ | ⟨h, -⟩ := result_cases s
  · exact ⟨slot, by rwa [h], hrole⟩
  · rw [h]
    exact ⟨_, Array.getElem?_push_size, rfl⟩

theorem held_result (h : s.Held id) : s.result.2.Held id := by
  obtain ⟨_, _, hn, -⟩ | ⟨hn, -⟩ := result_cases s
  · rwa [hn]
  · rw [hn]
    obtain ⟨⟨slot, hslot, hrole⟩, hid⟩ := h
    exact ⟨⟨slot, within_push _ _ hslot, hrole⟩, hid⟩

theorem slot_scratch (hs : s.Sound) :
    ∃ slot, s.scratch.2.slots[s.scratch.1]? = some slot ∧ slot.role = .scratch := by
  obtain ⟨id, rest, hfree, h⟩ | ⟨-, _, h⟩ := scratch_cases s
  · rw [h]
    exact hs.free_scratch id (hfree ▸ List.mem_cons_self)
  · rw [h]
    exact ⟨_, Array.getElem?_push_size, rfl⟩

/-- **A scratch slot that is handed out is nobody's.** -/
theorem not_held_scratch : ¬ s.Held s.scratch.1 := by
  rintro ⟨⟨slot, hslot, -⟩, hid⟩
  obtain ⟨id, rest, hfree, h⟩ | ⟨hfree, _, h⟩ := scratch_cases s
  · rw [h, hfree] at hid
    exact hid List.mem_cons_self
  · rw [h] at hslot
    simp [push, size] at hslot

theorem held_scratch (h : s.Held id) : s.scratch.2.Held id := by
  obtain ⟨⟨slot, hslot, hrole⟩, hid⟩ := h
  obtain ⟨id', rest, hfree, hs⟩ | ⟨hfree, _, hs⟩ := scratch_cases s
  · rw [hs]
    exact ⟨⟨slot, hslot, hrole⟩, fun h => hid (hfree ▸ List.mem_cons_of_mem _ h)⟩
  · rw [hs]
    exact ⟨⟨slot, within_push _ _ hslot, hrole⟩, hid⟩

/-- A scratch slot that is handed out is in use from then on. -/
theorem held_scratch_self (hs : s.Sound) : s.scratch.2.Held s.scratch.1 := by
  obtain ⟨slot, hslot, hrole⟩ := slot_scratch hs
  refine ⟨⟨slot, hslot, by rw [hrole]; decide⟩, ?_⟩
  obtain ⟨id, rest, hfree, h⟩ | ⟨hfree, _, h⟩ := scratch_cases s
  · have nodup := hs.free_nodup
    rw [hfree] at nodup
    rw [h]
    exact (List.nodup_cons.mp nodup).1
  · rw [h]
    show _ ∉ s.free
    simp [hfree]

theorem held_release {id' : Nat} (h : s.Held id) (hne : id ≠ id') : (s.release id').Held id := by
  obtain hr | ⟨_, -, -, -, hr⟩ := release_cases s id'
  · rwa [hr]
  · rw [hr]
    exact ⟨h.1, fun hid => (List.mem_cons.mp hid).elim hne h.2⟩

theorem held_enumerator (h : s.Held id) : s.enumerator.2.Held id := by
  obtain ⟨⟨slot, hslot, hrole⟩, hid⟩ := h
  exact ⟨⟨slot, within_push _ _ hslot, hrole⟩, hid⟩

theorem slot_enumerator :
    ∃ slot, s.enumerator.2.slots[s.enumerator.1]? = some slot ∧ slot.role = .enumerator :=
  ⟨_, Array.getElem?_push_size, rfl⟩

end StackScript.Slots
