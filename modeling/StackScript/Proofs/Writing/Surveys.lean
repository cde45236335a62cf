import StackScript.Proofs.Writing.Straight

/-!
# Surveys of code

An analysis says what becomes of the knowledge in front of an instruction, and which instructions
may stand where something is known. A survey notes what is known in front of the instructions, and
at labels of which something is known. While code is written the survey goes on with it: what is
noted of code that is kept stays, and each instruction finds noted what is known where it is
written.

An enumerator comes into a slot when it is stored there, and the slot of a loop never gets anything
else. So it is enough to know which slots have got theirs, and whether an enumerator is on top of
the stack.

## Main definitions

* `Analysis`: what instructions do to knowledge
* `Survey`, `Survey.Extends`: the notes on code, and notes on code that goes on
* `Assembler.Surveyed`: the code so far bears a survey out
* `Body.Surveyed`: so does a finished body
* `Grip`: what is known of the enumerators of a frame
* `grips`: the analysis of the enumerators

## Main results

* `Assembler.Surveyed.write`, `Assembler.Surveyed.mark`, `Assembler.Surveyed.elide`: the steps of
  writing
* `Body.surveyed_of_finish`: finished code bears out the survey of the code that was written
* `Assembler.Scribes.surveyed`: code in one piece leaves the enumerators alone
-/

namespace StackScript

/-- What instructions do to knowledge. -/
structure Analysis (α : Type) where
  /-- What is known behind an instruction. -/
  after : Instruction → α → α
  /-- The instruction may stand where so much is known. -/
  Allows : α → Instruction → Prop
  /-- Who knows the one knows the other. -/
  Fits : α → α → Prop
  refl : ∀ a, Fits a a
  trans : ∀ {a b c}, Fits a b → Fits b c → Fits a c
  /-- A jump teaches nothing. -/
  jump : ∀ t a, Fits a (after (.jump t) a)
  /-- The target of a branch does not matter. -/
  target : ∀ (kind : BranchKind) t a, after (kind.instruction t) a = after (kind.instruction 0) a ∧
    (Allows a (kind.instruction 0) → Allows a (kind.instruction t))

/-- The notes on code. -/
structure Survey (α : Type) where
  /-- In front of the instructions, if control comes there. -/
  front : Nat → Option α
  /-- At the labels, if something is known there. -/
  goal : Label → Option α
  /-- Where else control may come from outside, and what is known of it. -/
  entry : Nat → α → Prop

section Surveys

variable {α : Type} {A : Analysis α} {survey next : Survey α} {here a b : α} {P Q : α → Prop}
  {asm asm' : Assembler} {i : Instruction} {l k : Label} {n : Nat}

namespace Survey

/-- A note in front of an instruction. -/
def noteFront (survey : Survey α) (n : Nat) (a? : Option α) : Survey α :=
  { survey with front := fun k => if k = n then a? else survey.front k }

/-- A note for a label. -/
def noteGoal (survey : Survey α) (l : Label) (a : α) : Survey α :=
  { survey with goal := fun k => if k = l then some a else survey.goal k }

/-- A note of an entry. -/
def noteEntry (survey : Survey α) (n : Nat) (a : α) : Survey α :=
  { survey with entry := fun k b => survey.entry k b ∨ k = n ∧ b = a }

/-- **Notes on code that goes on**: what was said of kept code and of labels is still said, and what
is new has a property. -/
structure Extends (P : α → Prop) (asm asm' : Assembler) (survey next : Survey α) : Prop where
  pinned_le : asm.pinned ≤ asm'.pinned
  kept : ∀ n < asm.pinned, next.front n = survey.front n
  fresh : ∀ n a, n < asm'.code.size → next.front n = some a →
    n < asm.code.size ∧ survey.front n = some a ∨ P a
  goal : ∀ l a, survey.goal l = some a → next.goal l = some a
  entry : ∀ n a, survey.entry n a → next.entry n a

namespace Extends

theorem refl (asm : Assembler) (survey : Survey α) : Extends P asm asm survey survey :=
  ⟨Nat.le_refl _, fun _ _ => rfl, fun _ _ lt known => .inl ⟨lt, known⟩, fun _ _ => id,
    fun _ _ => id⟩

theorem trans {asm₁ : Assembler} {survey₁ : Survey α} (h : Extends P asm asm₁ survey survey₁)
    (h' : Extends P asm₁ asm' survey₁ next) : Extends P asm asm' survey next where
  pinned_le := Nat.le_trans h.pinned_le h'.pinned_le
  kept n lt := (h'.kept n (Nat.lt_of_lt_of_le lt h.pinned_le)).trans (h.kept n lt)
  fresh n a lt known := by
    obtain ⟨lt, known⟩ | new := h'.fresh n a lt known
    · exact h.fresh n a lt known
    · exact .inr new
  goal l a known := h'.goal l a (h.goal l a known)
  entry n a known := h'.entry n a (h.entry n a known)

theorem mono (h : Extends P asm asm' survey next) (le : ∀ a, P a → Q a) :
    Extends Q asm asm' survey next :=
  { h with fresh := fun n a lt known => (h.fresh n a lt known).imp_right (le a) }

/-- Nothing is said of more instructions. -/
theorem same (front : next.front = survey.front) (pinned_le : asm.pinned ≤ asm'.pinned)
    (size_le : asm'.code.size ≤ asm.code.size)
    (goal : ∀ l a, survey.goal l = some a → next.goal l = some a)
    (entry : ∀ n a, survey.entry n a → next.entry n a) : Extends P asm asm' survey next :=
  ⟨pinned_le, fun _ _ => by rw [front],
    fun _ _ lt known => .inl ⟨Nat.lt_of_lt_of_le lt size_le, front ▸ known⟩, goal, entry⟩

end Extends

end Survey

namespace Assembler

/-! ## Where control goes on -/

/-- What is said of an offset, that of the next instruction included. -/
def said (asm : Assembler) (survey : Survey α) (here : α) (n : Nat) : Option α :=
  if n < asm.code.size then survey.front n
  else if n = asm.code.size ∧ asm.reachable = true then some here
  else none

theorem said_of_lt (h : n < asm.code.size) : asm.said survey here n = survey.front n := if_pos h

theorem said_size (h : asm.reachable = true) : asm.said survey here asm.code.size = some here := by
  simp [said, h]

/-- What is said is what is noted, or what is known at the end of the code. -/
theorem said_cases (h : asm.said survey here n = some a) :
    n < asm.code.size ∧ survey.front n = some a ∨
      n = asm.code.size ∧ asm.reachable = true ∧ a = here := by
  unfold said at h
  split at h
  case isTrue lt => exact .inl ⟨lt, h⟩
  case isFalse =>
    split at h
    case isTrue there => exact .inr ⟨there.1, there.2, (Option.some.inj h).symm⟩
    case isFalse => cases h

/-- Control may go on at an offset with what is known. -/
def Accepts (A : Analysis α) (asm : Assembler) (survey : Survey α) (here : α) (n : Nat) (a : α) :
    Prop :=
  ∃ b, asm.said survey here n = some b ∧ A.Fits a b

theorem Accepts.mono (h : asm.Accepts A survey here n b) (fits : A.Fits a b) :
    asm.Accepts A survey here n a := by
  obtain ⟨c, said, fits'⟩ := h
  exact ⟨c, said, A.trans fits fits'⟩

theorem accepts_size (h : asm.reachable = true) (fits : A.Fits a here) :
    asm.Accepts A survey here asm.code.size a :=
  ⟨here, said_size h, fits⟩

/-- **The code so far bears the survey out.** -/
structure Surveyed (A : Analysis α) (asm : Assembler) (survey : Survey α) (here : α) : Prop where
  sound : asm.Sound
  allows : ∀ n i a, asm.code[n]? = some i → survey.front n = some a → A.Allows a i
  next : ∀ n i a, asm.code[n]? = some i → survey.front n = some a → i.isTransfer = false →
    asm.Accepts A survey here (n + 1) (A.after i a)
  awaits : ∀ n l i a, asm.Awaits n l → asm.code[n]? = some i → survey.front n = some a →
    ∃ goal, survey.goal l = some goal ∧ A.Fits (A.after i a) goal
  placed : ∀ l n, asm.PlacedAt l n → ∃ goal, survey.goal l = some goal ∧
    asm.Accepts A survey here n goal
  entry : ∀ n a, survey.entry n a → n ≤ asm.pinned ∧ asm.Accepts A survey here n a

/-- What is said anywhere is said later as well. -/
def Relays (A : Analysis α) (asm : Assembler) (survey : Survey α) (here : α) (asm' : Assembler)
    (next : Survey α) (here' : α) : Prop :=
  ∀ n a, asm.Accepts A survey here n a → asm'.Accepts A next here' n a

theorem relays_of_said {here' : α}
    (h : ∀ n b, asm.said survey here n = some b → asm'.Accepts A next here' n b) :
    asm.Relays A survey here asm' next here' := by
  rintro n a ⟨b, said, fits⟩
  exact (h n b said).mono fits

/-- Of the empty code nothing is known but that control comes to its start. -/
theorem surveyed_empty {goal : Label → Option α} :
    empty.Surveyed A ⟨fun _ => none, goal, fun n b => n = 0 ∧ b = a⟩ a where
  sound := sound_empty
  allows n i b hi := by cases hi
  next n i b hi := by cases hi
  awaits n l i b waits hi := by cases hi
  placed l n placed := by cases placed
  entry := by
    rintro n b ⟨rfl, rfl⟩
    exact ⟨Nat.le_refl _, accepts_size rfl (A.refl _)⟩

namespace Surveyed

/-! ## Steps that write no instruction -/

/-- What matters of the code stays as it was. -/
theorem same (h : asm.Surveyed A survey here) (sound : asm'.Sound) (code : asm'.code = asm.code)
    (reachable : asm'.reachable = asm.reachable) (fixups : asm'.fixups = asm.fixups)
    (label : ∀ l, asm'.label l = asm.label l) (pinned : asm.pinned ≤ asm'.pinned) :
    asm'.Surveyed A survey here := by
  have accepts (n : Nat) (a : α) :
      asm'.Accepts A survey here n a ↔ asm.Accepts A survey here n a := by
    rw [Accepts, Accepts, said, said, code, reachable]
  refine ⟨sound, ?_, ?_, ?_, ?_, ?_⟩
  · rw [code]
    exact h.allows
  · simp only [code, accepts]
    exact h.next
  · simp only [Awaits, fixups, code]
    exact h.awaits
  · simp only [PlacedAt, label, accepts]
    exact h.placed
  · simp only [accepts]
    exact fun n a known => (h.entry n a known).imp_left fun le => Nat.le_trans le pinned

/-- More may be said of labels of which nothing was known, and anything of labels to come. -/
theorem goals (h : asm.Surveyed A survey here) {goal : Label → Option α}
    (more : ∀ l < asm.labels.size, ∀ a, survey.goal l = some a → goal l = some a) :
    asm.Surveyed A { survey with goal } here where
  sound := h.sound
  allows := h.allows
  next := h.next
  awaits n l i a waits hi ha := by
    obtain ⟨b, known, fits⟩ := h.awaits n l i a waits hi ha
    exact ⟨b, more l (h.sound.waiting waits).1 b known, fits⟩
  placed l n placed := by
    obtain ⟨b, known, accepts⟩ := h.placed l n placed
    exact ⟨b, more l placed.lt b known, accepts⟩
  entry := h.entry

/-- Less may be known of the place that the code has come to; anything, if control does not come
there. -/
theorem forget (h : asm.Surveyed A survey a) (fits : asm.reachable = true → A.Fits a b) :
    asm.Surveyed A survey b := by
  have goes : asm.Relays A survey a asm survey b := by
    refine relays_of_said fun n c known => ?_
    obtain ⟨lt, known⟩ | ⟨rfl, there, rfl⟩ := said_cases known
    · exact ⟨c, by rw [said_of_lt lt, known], A.refl _⟩
    · exact accepts_size there (fits there)
  refine ⟨h.sound, h.allows, fun n i c hi hc ht => goes _ _ (h.next n i c hi hc ht), h.awaits,
    fun l n hl => ?_, fun n c hc => (h.entry n c hc).imp_right (goes _ _)⟩
  obtain ⟨goal, known, accepts⟩ := h.placed l n hl
  exact ⟨goal, known, goes _ _ accepts⟩

/-- A place where control comes from outside only. -/
theorem beginHandler (h : asm.Surveyed A survey here) (hf : asm.fault = none)
    (unreachable : asm.reachable = false) (pinned : asm.pinned = asm.code.size) (depth : Nat)
    (a : α) :
    (asm.beginHandler depth).Surveyed A (survey.noteEntry asm.code.size a) a := by
  have goes : asm.Relays A survey here (asm.beginHandler depth)
      (survey.noteEntry asm.code.size a) a := by
    refine relays_of_said fun n c known => ?_
    obtain ⟨lt, known⟩ | ⟨-, there, -⟩ := said_cases known
    · exact ⟨c, (if_pos lt).trans known, A.refl _⟩
    · exact absurd (unreachable.symm.trans there) (by decide)
  refine ⟨(Write.beginHandler unreachable pinned).sound h.sound hf, h.allows,
    fun n i c hi hc ht => goes _ _ (h.next n i c hi hc ht), h.awaits, fun l n hl => ?_, ?_⟩
  · obtain ⟨goal, known, accepts⟩ := h.placed l n hl
    exact ⟨goal, known, goes _ _ accepts⟩
  · rintro n c (old | ⟨rfl, rfl⟩)
    · exact (h.entry n c old).imp_right (goes _ _)
    · have there : (asm.beginHandler depth).reachable = true := rfl
      exact ⟨Nat.le_of_eq pinned.symm, accepts_size there (A.refl _)⟩

/-! ## Labels -/

/-- A label that is put at the end of the code. -/
theorem mark (h : asm.Surveyed A survey here) (hl : l < asm.labels.size)
    (hf : (asm.mark l).fault = none) (known : survey.goal l = some a)
    (fits : asm.reachable = true → A.Fits here a) : (asm.mark l).Surveyed A survey a := by
  have goes : asm.Relays A survey here (asm.mark l) survey a := by
    refine relays_of_said fun n c known => ?_
    obtain ⟨lt, known⟩ | ⟨rfl, there, rfl⟩ := said_cases known
    · exact ⟨c, (said_of_lt (by rwa [code_mark])).trans known, A.refl _⟩
    · rw [← @code_mark asm l]
      exact accepts_size (reachable_mark hf) (fits there)
  refine ⟨h.sound.mark hl hf, ?_, ?_, ?_, fun k n placed => ?_, fun n c hc => ?_⟩
  · rw [code_mark]
    exact h.allows
  · rw [code_mark]
    exact fun n i c hi hc ht => goes _ _ (h.next n i c hi hc ht)
  · simp only [Awaits, fixups_mark, code_mark]
    exact h.awaits
  · rw [PlacedAt, label_mark hl hf] at placed
    by_cases same : k = l
    · rw [if_pos same] at placed
      cases placed
      refine ⟨a, same ▸ known, ?_⟩
      rw [← @code_mark asm l]
      exact accepts_size (reachable_mark hf) (A.refl _)
    · rw [if_neg same] at placed
      obtain ⟨goal, known, accepts⟩ := h.placed k n placed
      exact ⟨goal, known, goes _ _ accepts⟩
  · obtain ⟨le, accepts⟩ := h.entry n c hc
    rw [pinned_mark]
    exact ⟨Nat.le_trans le h.sound.pinned_le, goes _ _ accepts⟩

/-- A jump that is taken back because its label comes next. -/
theorem elide (h : asm.Surveyed A survey here) (fits : asm.reachable = true → A.Fits here b)
    (goal : (asm.elide l).reachable = true → ∀ a, survey.goal l = some a → A.Fits a b) :
    (asm.elide l).Surveyed A survey b := by
  obtain same | ⟨t, code, fixups, hcode, hfixups, hpinned, same⟩ := elide_cases asm l
  · rw [same]
    exact h.forget fits
  · have size : asm.code.size = code.size + 1 := by rw [hcode, Array.size_push]
    have old {n : Nat} (lt : n < code.size) : asm.code[n]? = code[n]? := by
      rw [hcode, Array.getElem?_push, if_neg (Nat.ne_of_lt lt)]
    -- What came to the jump comes to the label now.
    have goes {n : Nat} {c : α} (le : n ≤ code.size) (accepts : asm.Accepts A survey here n c) :
        (asm.elide l).Accepts A survey b n c := by
      obtain ⟨d, known, fits⟩ := accepts
      refine Accepts.mono ?_ fits
      rw [said_of_lt (by omega)] at known
      obtain lt | rfl := Nat.lt_or_eq_of_le le
      · exact ⟨d, by rw [same]; exact (if_pos lt).trans known, A.refl _⟩
      · have waits : asm.Awaits code.size l := by
          rw [Awaits, hfixups]
          exact Array.mem_push_self
        obtain ⟨g, hg, fits⟩ := h.awaits _ l (.jump t) d waits
          (by rw [hcode, Array.getElem?_push_size]) known
        have there : (asm.elide l).reachable = true := by rw [same]
        have size_eq : (asm.elide l).code.size = code.size := by rw [same]
        rw [← size_eq]
        exact accepts_size there (A.trans (A.jump t d) (A.trans fits (goal there g hg)))
    have sound := h.sound.elide (l := l)
    rw [same] at goes sound ⊢
    refine ⟨sound, fun n i c hi => ?_, fun n i c hi hc ht => ?_, fun n k i c waits hi hc => ?_,
      fun k n placed => ?_, fun n c hc => ?_⟩
    · rw [← old (Array.getElem?_eq_some_iff.mp hi).1] at hi
      exact h.allows n i c hi
    · have lt := (Array.getElem?_eq_some_iff.mp hi).1
      rw [← old lt] at hi
      exact goes lt (h.next n i c hi hc ht)
    · have lt := (Array.getElem?_eq_some_iff.mp hi).1
      rw [← old lt] at hi
      refine h.awaits n k i c ?_ hi hc
      rw [Awaits, hfixups]
      exact Array.mem_push.mpr (.inl waits)
    · obtain ⟨g, known, accepts⟩ := h.placed k n placed
      exact ⟨g, known, goes (Nat.le_trans (h.sound.placed placed).1 hpinned) accepts⟩
    · obtain ⟨le, accepts⟩ := h.entry n c hc
      exact ⟨le, goes (Nat.le_trans le hpinned) accepts⟩

/-! ## Instructions -/

end Surveyed

/-- The survey with a note in front of an instruction that is written now. -/
def surveyHere (asm : Assembler) (survey : Survey α) (here : α) : Survey α :=
  survey.noteFront asm.code.size (if asm.reachable = true then some here else none)

theorem front_surveyHere (lt : n < asm.code.size) :
    (asm.surveyHere survey here).front n = survey.front n :=
  if_neg (Nat.ne_of_lt lt)

/-- The note is the only one that is new. -/
theorem extends_surveyHere (hs : asm.Sound) (size : asm'.code.size = asm.code.size + 1)
    (pinned : asm'.pinned = asm.pinned) (new : P here) :
    survey.Extends P asm asm' (asm.surveyHere survey here) where
  pinned_le := Nat.le_of_eq pinned.symm
  kept n lt := front_surveyHere (Nat.lt_of_lt_of_le lt hs.pinned_le)
  fresh n a lt known := by
    by_cases last : n = asm.code.size
    · simp only [surveyHere, Survey.noteFront, last, if_true] at known
      split at known
      · cases known
        exact .inr new
      · cases known
    · have lt : n < asm.code.size := by omega
      exact .inl ⟨lt, (front_surveyHere lt).symm.trans known⟩
  goal _ _ := id
  entry _ _ := id

namespace Surveyed

/-- An instruction more, with what is known behind it. -/
theorem write (h : asm.Surveyed A survey here) (sound : asm'.Sound)
    (code : asm'.code = asm.code.push i)
    (reachable : asm'.reachable = (asm.reachable && !i.isTransfer))
    (pinned : asm'.pinned = asm.pinned)
    (placed : ∀ l n, asm'.PlacedAt l n → asm.PlacedAt l n)
    (awaits : ∀ n l, asm'.Awaits n l → asm.Awaits n l ∨ n = asm.code.size ∧
      (asm.reachable = true → ∃ goal, survey.goal l = some goal ∧ A.Fits (A.after i here) goal))
    (allows : asm.reachable = true → A.Allows here i) :
    asm'.Surveyed A (asm.surveyHere survey here) (A.after i here) := by
  have size : asm'.code.size = asm.code.size + 1 := by rw [code, Array.size_push]
  have goes : asm.Relays A survey here asm' (asm.surveyHere survey here) (A.after i here) := by
    refine relays_of_said fun n c known => ⟨c, ?_, A.refl _⟩
    obtain ⟨lt, known⟩ | ⟨rfl, there, rfl⟩ := said_cases known
    · rw [said_of_lt (by omega), front_surveyHere lt]
      exact known
    · rw [said_of_lt (by omega)]
      exact (if_pos rfl).trans (if_pos there)
  -- An instruction is one of those before, or the new one.
  have cases_ {n : Nat} {j : Instruction} {c : α} (hj : asm'.code[n]? = some j)
      (hc : (asm.surveyHere survey here).front n = some c) :
      asm.code[n]? = some j ∧ survey.front n = some c ∨
        n = asm.code.size ∧ j = i ∧ c = here ∧ asm.reachable = true := by
    rw [code, Array.getElem?_push] at hj
    by_cases last : n = asm.code.size
    · rw [if_pos last] at hj
      simp only [surveyHere, Survey.noteFront, last, if_true] at hc
      split at hc
      case isTrue there =>
        cases hj
        cases hc
        exact .inr ⟨last, rfl, rfl, there⟩
      case isFalse => cases hc
    · rw [if_neg last] at hj
      exact .inl ⟨hj, by rw [← front_surveyHere (Array.getElem?_eq_some_iff.mp hj).1, hc]⟩
  refine ⟨sound, fun n j c hj hc => ?_, fun n j c hj hc ht => ?_, fun n l j c waits hj hc => ?_,
    fun l n hl => ?_, fun n c hc => ?_⟩
  · obtain ⟨old, known⟩ | ⟨rfl, rfl, rfl, there⟩ := cases_ hj hc
    · exact h.allows n j c old known
    · exact allows there
  · obtain ⟨old, known⟩ | ⟨rfl, rfl, rfl, there⟩ := cases_ hj hc
    · exact goes _ _ (h.next n j c old known ht)
    · rw [← size]
      exact accepts_size (by rw [reachable, there, ht]; rfl) (A.refl _)
  · obtain ⟨old, known⟩ | ⟨rfl, rfl, rfl, there⟩ := cases_ hj hc
    · obtain waits | ⟨rfl, -⟩ := awaits n l waits
      · exact h.awaits n l j c waits old known
      · rw [Array.getElem?_eq_none (Nat.le_refl _)] at old
        cases old
    · obtain waits | ⟨-, fits⟩ := awaits _ l waits
      · exact (Nat.lt_irrefl _ (h.sound.lt waits)).elim
      · exact fits there
  · obtain ⟨goal, known, accepts⟩ := h.placed l n (placed l n hl)
    exact ⟨goal, known, goes _ _ accepts⟩
  · rw [pinned]
    exact (h.entry n c hc).imp_right (goes _ _)

/-- An instruction that does not branch. -/
theorem emit (h : asm.Surveyed A survey here) (ht : i.target? = none)
    (allows : asm.reachable = true → A.Allows here i) :
    (asm.emit i).Surveyed A (asm.surveyHere survey here) (A.after i here) :=
  h.write (h.sound.emit ht) code_emit reachable_emit pinned_emit
    (fun l n hl => by simpa [PlacedAt] using hl)
    (fun n l waits => .inl (by simpa [Awaits] using waits)) allows

/-- A branch to a label for which not more is asked than is known. -/
theorem branch {kind : BranchKind} (h : asm.Surveyed A survey here) (hl : l < asm.labels.size)
    (hf : (asm.branch kind l).fault = none) (known : survey.goal l = some a)
    (fits : asm.reachable = true → A.Fits (A.after (kind.instruction 0) here) a)
    (allows : asm.reachable = true → A.Allows here (kind.instruction 0)) :
    (asm.branch kind l).Surveyed A (asm.surveyHere survey here)
      (A.after (kind.instruction 0) here) := by
  refine h.write (h.sound.branch hl hf) code_branch reachable_branch pinned_branch
    (fun k n hk => ?_) (fun n k waits => ?_) allows
  · rw [PlacedAt, label_branch hl hf] at hk
    split at hk
    case isTrue same => rwa [same]
    case isFalse => exact hk
  · simp only [Awaits, fixups_branch, Array.mem_push, Prod.mk.injEq] at waits
    refine waits.imp_right fun new => ⟨new.1, fun there => ⟨a, ?_, fits there⟩⟩
    rw [new.2, known]

end Surveyed

end Assembler

/-! ## Finished code -/

/-- Where something is known, control may come to an offset of the code. -/
def Body.Welcomes (A : Analysis α) (body : Body) (front : Nat → Option α) (n : Nat) (a : α) :
    Prop :=
  n < body.code.size ∧ ∃ b, front n = some b ∧ A.Fits a b

/-- **A body bears out what is noted in front of its instructions.** -/
structure Body.Surveyed (A : Analysis α) (body : Body) (front : Nat → Option α) : Prop where
  allows : ∀ n i a, body.code[n]? = some i → front n = some a → A.Allows a i
  next : ∀ n i a, body.code[n]? = some i → front n = some a → i.isTransfer = false →
    body.Welcomes A front (n + 1) (A.after i a)
  target : ∀ n i a t, body.code[n]? = some i → front n = some a → i.target? = some t →
    body.Welcomes A front t (A.after i a)

section Finished

variable {body : Body} {out : Assembled} {max : Nat}

/-- Where control does not reach the end of the code, it goes on at an instruction. -/
theorem Assembler.Accepts.welcomes (h : asm.Accepts A survey here n a)
    (unreachable : asm.reachable = false) (size : body.code.size = asm.code.size) :
    body.Welcomes A survey.front n a := by
  obtain ⟨b, said, fits⟩ := h
  obtain ⟨lt, known⟩ | ⟨-, there, -⟩ := Assembler.said_cases said
  · exact ⟨size ▸ lt, b, known, fits⟩
  · exact absurd (unreachable.symm.trans there) (by decide)

/-- An instruction of finished code is one that was written, but for its target. -/
theorem Assembler.written_of_finish (sound : asm.Sound) (finished : asm.finish max = .ok out)
    (hi : out.code[n]? = some i) :
    i.target? = none ∧ asm.code[n]? = some i ∨
      ∃ kind t l, i = BranchKind.instruction kind t ∧ asm.code[n]? = some (kind.instruction 0) ∧
        asm.Awaits n l ∧ asm.PlacedAt l t := by
  cases ht : i.target? with
  | none => exact .inl ⟨rfl, finish_instruction sound finished hi ht⟩
  | some t =>
    obtain ⟨l, kind, waits, placed, hkind, rfl⟩ := finish_branch sound finished hi ht
    exact .inr ⟨kind, t, l, rfl, hkind, waits, placed⟩

/-- **Finished code bears out the survey** of the code that was written. -/
theorem Body.surveyed_of_finish (h : asm.Surveyed A survey here)
    (unreachable : asm.reachable = false) (finished : asm.finish max = .ok out)
    (code : body.code = out.code) :
    body.Surveyed A survey.front ∧
      ∀ n a, survey.entry n a → body.Welcomes A survey.front n a := by
  have size : body.code.size = asm.code.size := code ▸ Assembler.finish_size h.sound finished
  have welcomes {n : Nat} {a : α} (accepts : asm.Accepts A survey here n a) :
      body.Welcomes A survey.front n a := accepts.welcomes unreachable size
  have written {n : Nat} {i : Instruction} (hi : body.code[n]? = some i) :=
    Assembler.written_of_finish h.sound finished (code ▸ hi)
  refine ⟨⟨fun n i a hi known => ?_, fun n i a hi known transfer => ?_,
    fun n i a t hi known target => ?_⟩, fun n a known => welcomes (h.entry n a known).2⟩
  · obtain ⟨-, old⟩ | ⟨kind, t, l, rfl, old, -, -⟩ := written hi
    · exact h.allows n i a old known
    · exact (A.target kind t a).2 (h.allows n _ a old known)
  · obtain ⟨-, old⟩ | ⟨kind, t, l, rfl, old, -, -⟩ := written hi
    · exact welcomes (h.next n i a old known transfer)
    · rw [(A.target kind t a).1]
      exact welcomes (h.next n _ a old known (by cases kind <;> first | rfl | cases transfer))
  · obtain ⟨plain, -⟩ | ⟨kind, t', l, rfl, old, waits, placed⟩ := written hi
    · rw [plain] at target
      cases target
    · have same : t' = t := by cases kind <;> exact Option.some.inj target
      rw [same] at placed
      obtain ⟨goal, known', accepts⟩ := h.placed l t placed
      obtain ⟨goal', known'', fits⟩ := h.awaits n l _ a waits old known
      rw [known'] at known''
      cases known''
      rw [(A.target kind t' a).1]
      exact welcomes (accepts.mono fits)

end Finished

end Surveys

/-! ## Enumerators -/

section Enumerators

/-- The slot is that of a loop. -/
def Slots.Enumerates (slots : Slots) (id : LocalId) : Prop :=
  ∃ slot, slots.slots[id]? = some slot ∧ slot.role = .enumerator

/-- What is known of the enumerators of a frame. -/
structure Grip where
  /-- The slots that have got their enumerators, if they are slots of loops. -/
  slots : LocalId → Prop
  /-- An enumerator is on top of the stack. -/
  top : Prop

/-- Enumerators in slots, and none known to be on the stack. -/
def Grip.stored (slots : LocalId → Prop) : Grip := ⟨slots, False⟩

/-- Enumerators are stored in the slots of loops, and nothing else is. The slots are those that the
code has in the end. If it is owed, enumerators are there where they are asked for. -/
def grips (final : Slots) (owed : Prop) : Analysis Grip where
  after i g :=
    match i with
    | .getEnumerator => ⟨g.slots, True⟩
    | .loadLocal id => ⟨g.slots, g.slots id ∧ final.Enumerates id⟩
    | .storeLocal id => ⟨fun k => g.slots k ∨ k = id ∧ g.top, False⟩
    | _ => ⟨g.slots, False⟩
  Allows g i :=
    match i with
    | .loadLocal id => id < final.size
    | .storeLocal id => id < final.size ∧ (final.Enumerates id → g.top)
    | .advance | .enumeratorKey | .enumeratorValue => owed → g.top
    | _ => True
  Fits a b := (∀ id, b.slots id → a.slots id) ∧ (b.top → a.top)
  refl _ := ⟨fun _ => id, id⟩
  trans h h' := ⟨fun id known => h.1 id (h'.1 id known), fun known => h.2 (h'.2 known)⟩
  jump _ _ := ⟨fun _ => id, False.elim⟩
  target kind t g := by
    cases kind <;> exact ⟨rfl, id⟩

variable {final : Slots} {owed : Prop} {g : Grip} {slots more : LocalId → Prop} {i : Instruction}
  {id : LocalId}

/-- No instruction takes an enumerator out of a slot. -/
theorem fits_after (i : Instruction) (le : ∀ id, more id → g.slots id) :
    (grips final owed).Fits ((grips final owed).after i g) (.stored more) := by
  refine ⟨fun id known => ?_, False.elim⟩
  cases i with
  | storeLocal => exact .inl (le id known)
  | _ => exact le id known

/-- A plain instruction may stand anywhere, if its slot is there and is not that of a loop. -/
theorem allows_of_isPlain (plain : i.isPlain = true)
    (slot : ∀ id, i.local? = some id → id < final.size ∧ ¬ final.Enumerates id) :
    (grips final owed).Allows g i := by
  cases i with
  | loadLocal id => exact (slot id rfl).1
  | storeLocal id => exact ⟨(slot id rfl).1, fun loop => ((slot id rfl).2 loop).elim⟩
  | advance | enumeratorKey | enumeratorValue => cases plain
  | _ => trivial

namespace Assembler

variable {a b : Assembler} {base : Nat} {survey : Survey Grip}

/-- A slot that holds no enumerator is not that of a loop. -/
theorem HasLocal.not_enumerates (h : a.HasLocal id) (within : a.slots.Within final) :
    id < final.size ∧ ¬ final.Enumerates id := by
  obtain ⟨slot, there, other⟩ := h
  have there := within id slot there
  refine ⟨(Array.getElem?_eq_some_iff.mp there).1, ?_⟩
  rintro ⟨slot', there', loop⟩
  rw [there] at there'
  cases there'
  exact other loop

/-- A plain instruction. -/
theorem Surveyed.plain (h : a.Surveyed (grips final owed) survey (.stored slots))
    (within : a.slots.Within final) (plain : i.isPlain = true)
    (slot : ∀ id, i.local? = some id → a.HasLocal id) :
    (a.emit i).Surveyed (grips final owed) (a.surveyHere survey (.stored slots))
      (.stored slots) := by
  have allows : (grips final owed).Allows (.stored slots) i :=
    allows_of_isPlain plain fun id known => (slot id known).not_enumerates within
  exact (h.emit (Instruction.target_of_isPlain plain) fun _ => allows).forget
    fun _ => fits_after i fun _ => id

/-- **Code in one piece** leaves the enumerators alone. -/
theorem Scribes.surveyed (h : Scribes base a b) (hf : b.fault = none)
    (within : b.slots.Within final)
    (labels : ∀ l, base ≤ l → l < b.labels.size → survey.goal l = some (.stored slots))
    (s : a.Surveyed (grips final owed) survey (.stored slots)) :
    ∃ next, survey.Extends (· = .stored slots) a b next ∧ next.goal = survey.goal ∧
      b.Surveyed (grips final owed) next (.stored slots) := by
  induction h with
  | refl => exact ⟨survey, .refl a survey, rfl, s⟩
  | @tail b c _ step ih =>
    have le := (Evolves.single step.write).labels_le
    obtain ⟨next, extended, goal, s⟩ := ih (step.write.fault hf)
      ((Evolves.single step.write).slots_within.trans within)
      fun l base_le lt => labels l base_le (Nat.lt_of_lt_of_le lt le)
    have known {l : Label} (base_le : base ≤ l) (lt : l < b.labels.size) :
        next.goal l = some (.stored slots) := by
      rw [goal]
      exact labels l base_le (Nat.lt_of_lt_of_le lt le)
    have sound := step.write.sound s.sound hf
    -- Behind every kind of write as much is known as in front of it.
    cases step with
    | emit plain slot =>
      rw [slots_emit] at within
      refine ⟨_, extended.trans (extends_surveyHere s.sound ?_ pinned_emit rfl), goal,
        s.plain within plain slot⟩
      rw [code_emit, Array.size_push]
    | @branch kind l _ base_le lt =>
      have fits : (grips final owed).Fits
          ((grips final owed).after (kind.instruction 0) (.stored slots)) (.stored slots) :=
        fits_after _ fun _ => id
      have branched := s.branch lt hf (known base_le lt) (fun _ => fits) fun _ => by
        cases kind <;> trivial
      refine ⟨_, extended.trans (extends_surveyHere s.sound ?_ pinned_branch rfl), goal,
        branched.forget fun _ => fits⟩
      rw [code_branch, Array.size_push]
    | @mark l base_le lt =>
      refine ⟨next, extended.trans (.same rfl ?_ (Nat.le_of_eq (congrArg Array.size code_mark))
        (fun _ _ => id) fun _ _ => id), goal,
        s.mark lt hf (known base_le lt) fun _ => (grips final owed).refl _⟩
      rw [pinned_mark]
      exact s.sound.pinned_le
    | defineLabel =>
      exact ⟨next, extended.trans (.same rfl (Nat.le_refl _) (Nat.le_refl _) (fun _ _ => id)
        fun _ _ => id), goal, s.same sound rfl rfl rfl (fun _ => label_defineLabel) (Nat.le_refl _)⟩
    | sequencePoint =>
      exact ⟨next, extended.trans (.same rfl s.sound.pinned_le (Nat.le_refl _) (fun _ _ => id)
        fun _ _ => id), goal, s.same sound rfl rfl rfl (fun _ => rfl) s.sound.pinned_le⟩
    | serve =>
      exact ⟨next, extended.trans (.same rfl (Nat.le_refl _) (Nat.le_refl _) (fun _ _ => id)
        fun _ _ => id), goal, s.same sound rfl rfl rfl (fun _ => rfl) (Nat.le_refl _)⟩

end Assembler

end Enumerators

end StackScript
