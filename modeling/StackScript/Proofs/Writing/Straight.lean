import StackScript.Proofs.Writing.Finished
import StackScript.Proofs.Writing.Syntax

/-!
# The code of expressions and statements

Most writing leaves the labels alone that were there before it, and behind it there are so many
values more on the stack than in front of it. Branches that stay inside such writing do no harm:
they leave their label at the depth at which it is put.

Expressions and statements are written in one piece: their branches stay inside, no handler starts
or ends in them, and enumerators are none of their business. An expression leaves one value more on
the stack, a statement as many as before.

## Main definitions

* `Assembler.conclude`: what stands behind the operands of `and` and `or`
* `setAside`: a value that waits in a scratch slot
* `Assembler.Levels base k a b`: the labels below `base` are left alone, and there are `k` values more
* `Assembler.Scribe`, `Assembler.Scribes`: writing that stays in one piece
* `Assembler.Grows`: such writing, with what becomes of the stack and of the slots in use
* `Emits`: a step whose writing is of that kind

## Main results

* `parts_of_ends_lowerLogical`: the parts of `and` and `or`
* `Assembler.Levels.logical`: two operands, either of which may decide
* `Assembler.Levels.skip`: code that is skipped if a value is false
* `Assembler.Scribes.label`: labels from elsewhere are left alone
* `Emits.bind`: such steps one behind the other
-/

namespace StackScript

/-! ## Operands that decide -/

namespace BranchKind

variable {decided : Bool}

/-- The branch that is taken by a value as truthy as given. -/
abbrev deciding (decided : Bool) : BranchKind := if decided then .ifTrue else .ifFalse

theorem deciding_cases : deciding decided = .ifTrue ∨ deciding decided = .ifFalse := by
  cases decided
  case false => exact .inr rfl
  case true => exact .inl rfl

theorem deciding_ne_leave : deciding decided ≠ .leave := by cases decided <;> exact nofun

theorem deciding_ne_always : deciding decided ≠ .always := by cases decided <;> exact nofun

theorem negate_deciding : (deciding decided).negate = deciding (!decided) := by
  cases decided <;> rfl

/-- The value that decides is taken from the stack. -/
theorem pops_deciding {target : Nat} : ((deciding decided).instruction target).pops = 1 := by
  cases decided <;> rfl

end BranchKind

/-- The code behind the second one of two operands, either of which may decide. The first of two
labels stands where the operands that decide go, the second one behind it all. -/
abbrev Assembler.conclude (asm : Assembler) (decided : Bool) (short : Label) : Assembler :=
  (((((asm.branch (.deciding decided) short).emit (.loadBool !decided)).branch .always
    (short + 1)).mark short).emit (.loadBool decided)).mark (short + 1)

/-- The parts of `and` and `or`: two labels, and two operands with a branch between them. -/
theorem parts_of_ends_lowerLogical {decided : Bool} {left right : Emit Unit} {d d' : Draft}
    {u : Unit} (ends : Ends (lowerLogical decided left right) d u d') :
    ∃ d₁ d₂, Ends left ⟨d.asm.defineLabel.2.defineLabel.2, d.nextSite⟩ ⟨⟩ d₁ ∧
      Ends right ⟨d₁.asm.branch (.deciding decided) d.asm.labels.size, d₁.nextSite⟩ ⟨⟩ d₂ ∧
      d' = ⟨d₂.asm.conclude decided d.asm.labels.size, d₂.nextSite⟩ := by
  simp only [lowerLogical, ends_bind, Emit.ends_defineLabel, Emit.ends_branch, Emit.ends_emit,
    Emit.ends_mark] at ends
  obtain ⟨_, _, ⟨rfl, rfl⟩, _, _, ⟨rfl, rfl⟩, _, d₁, first, _, _, rfl, _, d₂, second, _, _, rfl,
    _, _, rfl, _, _, rfl, _, _, rfl, _, _, rfl, rfl⟩ := ends
  refine ⟨d₁, d₂, first, second, ?_⟩
  rw [Assembler.labels_defineLabel]

/-! ## Slots that are handed out -/

section Slots

open Emit

variable {d d' : Draft} {u : Unit}

/-- An instruction on a slot that is handed out for it. -/
theorem ends_emit_handed {f : Slots → LocalId × Slots} {i : LocalId → Instruction} :
    Ends (do emit (i (← withSlots f))) d u d' ↔
      d' = ⟨Assembler.emit { d.asm with slots := (f d.asm.slots).2 } (i (f d.asm.slots).1),
        d.nextSite⟩ := by
  simp only [ends_bind, ends_withSlots, ends_emit]
  constructor
  · rintro ⟨_, _, ⟨rfl, rfl⟩, rfl⟩
    rfl
  · rintro rfl
    exact ⟨_, _, ⟨rfl, rfl⟩, rfl⟩

/-- A value waits in a scratch slot while others are pushed below it, is taken by an instruction,
and is there again. -/
def setAside (below last : Emit Unit) : Emit Unit := do
  let slot ← scratch
  emit (.storeLocal slot)
  below
  emit (.loadLocal slot)
  last
  emit (.loadLocal slot)
  release slot

/-- The parts around a value that waits: the one that is pushed below it, and the one that takes it. -/
theorem parts_of_ends_setAside {below last : Emit Unit} (ends : Ends (setAside below last) d u d') :
    ∃ d₁ d₂, Ends below ⟨Assembler.emit { d.asm with slots := d.asm.slots.scratch.2 }
        (.storeLocal d.asm.slots.scratch.1), d.nextSite⟩ ⟨⟩ d₁ ∧
      Ends last ⟨d₁.asm.emit (.loadLocal d.asm.slots.scratch.1), d₁.nextSite⟩ ⟨⟩ d₂ ∧
      d' = ⟨{ d₂.asm.emit (.loadLocal d.asm.slots.scratch.1) with
        slots := (d₂.asm.emit (.loadLocal d.asm.slots.scratch.1)).slots.release
          d.asm.slots.scratch.1 }, d₂.nextSite⟩ := by
  simp only [setAside, ends_bind, ends_scratch, ends_emit, ends_release] at ends
  obtain ⟨_, _, ⟨rfl, rfl⟩, _, _, rfl, _, d₁, first, _, _, rfl, _, d₂, second, _, _, rfl, rfl⟩ := ends
  exact ⟨d₁, d₂, first, second, rfl⟩

/-- An assignment to a field keeps the value with nothing below it. -/
theorem lowerFieldStore_eq {receiver value : Emit Unit} {field : String} :
    lowerFieldStore receiver field value = (do
      receiver
      value
      setAside (pure ()) (emit (.storeField field))) := by
  simp only [lowerFieldStore, setAside, pure_bind]

end Slots

namespace Assembler

variable {a b c asm : Assembler} {base base' : Nat} {j k : Int} {kind : BranchKind} {l : Label}

/-! ## Labels and the depth of the stack -/

/-- Writing that leaves the labels below a number alone, and behind which there are so many values
more on the stack. -/
structure Levels (base : Nat) (k : Int) (a b : Assembler) : Prop where
  fault : b.fault = none → a.fault = none
  labels_le : a.labels.size ≤ b.labels.size
  label : b.fault = none → ∀ l < base, b.label l = a.label l
  depth : b.fault = none → (b.depth : Int) = a.depth + k

namespace Levels

theorem refl (asm : Assembler) : Levels base 0 asm asm :=
  ⟨id, Nat.le_refl _, fun _ _ _ => rfl, fun _ => (Int.add_zero _).symm⟩

theorem trans (h : Levels base j a b) (h' : Levels base k b c) : Levels base (j + k) a c where
  fault hf := h.fault (h'.fault hf)
  labels_le := Nat.le_trans h.labels_le h'.labels_le
  label hf l hl := (h'.label hf l hl).trans (h.label (h'.fault hf) l hl)
  depth hf := by
    have := h.depth (h'.fault hf)
    have := h'.depth hf
    omega

theorem weaken (h : Levels base k a b) (hb : base' ≤ base) : Levels base' k a b :=
  { h with label := fun hf l hl => h.label hf l (Nat.lt_of_lt_of_le hl hb) }

theorem cast (h : Levels base j a b) (hk : j = k) : Levels base k a b := hk ▸ h

/-- Such writing one behind the other, each leaving the labels alone that were there before it. -/
theorem bind (h : Levels a.labels.size j a b) (h' : Levels b.labels.size k b c) :
    Levels a.labels.size (j + k) a c :=
  h.trans (h'.weaken h.labels_le)

end Levels

/-- Writing that changes neither labels nor the stack. -/
theorem levels_same (labels : b.labels = a.labels) (depth : b.depth = a.depth)
    (fault : b.fault = a.fault) : Levels base 0 a b where
  fault hf := fault.symm.trans hf
  labels_le := Nat.le_of_eq (congrArg Array.size labels.symm)
  label _ _ _ := by rw [label, label, labels]
  depth _ := by rw [depth, Int.add_zero]

theorem levels_emit {i : Instruction} : Levels base (i.pushes - i.pops) asm (asm.emit i) where
  fault hf := (fault_emit hf).1
  labels_le := by simp
  label _ _ _ := label_emit
  depth hf := by
    have := (fault_emit hf).2
    rw [depth_emit]
    omega

theorem levels_defineLabel : Levels base 0 asm asm.defineLabel.2 where
  fault := id
  labels_le := by
    rw [labels_defineLabel]
    omega
  label _ _ _ := label_defineLabel
  depth _ := (Int.add_zero _).symm

/-- A branch leaves all labels alone but its own. -/
theorem levels_branch (hb : base ≤ l) (hl : l < asm.labels.size) :
    Levels base (-(kind.instruction 0).pops) asm (asm.branch kind l) where
  fault hf := (fault_branch hf).1
  labels_le := by simp
  label hf k hk := by rw [label_branch hl hf, if_neg (Nat.ne_of_lt (Nat.lt_of_lt_of_le hk hb))]
  depth hf := by
    have := (fault_branch hf).2.1
    rw [depth_branch]
    omega

/-- A label that is put leaves all labels alone but itself, and control comes to it at a depth that
is known already. -/
theorem levels_mark (hb : base ≤ l) (hl : l < asm.labels.size)
    (depth : (asm.mark l).fault = none → (asm.depthAt l : Int) = asm.depth + k) :
    Levels base k asm (asm.mark l) where
  fault hf := (fault_mark hf).1
  labels_le := by simp
  label hf k hk := by rw [label_mark hl hf, if_neg (Nat.ne_of_lt (Nat.lt_of_lt_of_le hk hb))]
  depth hf := by rw [depth_mark hf, depth hf]

/-- What is known of a label behind a branch to it. -/
theorem depth_label_branch (hl : l < asm.labels.size) (hf : (asm.branch kind l).fault = none) :
    ((asm.branch kind l).label l).depth = some (asm.branch kind l).depth := by
  rw [label_branch hl hf, if_pos rfl, depth_branch]

/-- **Two operands, either of which may decide** and jump to a label behind them: on either way
there is one value. -/
theorem Levels.logical {decided : Bool}
    (left : Levels a.labels.size 1 a.defineLabel.2.defineLabel.2 b)
    (right : Levels b.labels.size 1 (b.branch (.deciding decided) a.labels.size) c) :
    Levels a.labels.size 1 a (c.conclude decided a.labels.size) := by
  have size₁ := left.labels_le
  have size₂ := right.labels_le
  simp only [labels_defineLabel, labels_branch] at size₁ size₂
  have short₁ : a.labels.size < b.labels.size := by omega
  have short₂ : a.labels.size < c.labels.size := by omega
  have done₂ : a.labels.size + 1 < c.labels.size := by omega
  -- All that comes in front of the label of the operand that decides.
  have undecidedWay : Levels a.labels.size 1 a
      (((c.branch (.deciding decided) a.labels.size).emit (.loadBool !decided)).branch .always
        (a.labels.size + 1)) := by
    refine (((((levels_defineLabel.trans levels_defineLabel).trans left).trans
      (levels_branch (Nat.le_refl _) short₁)).trans (right.weaken (Nat.le_of_lt short₁))).trans
      ((levels_branch (Nat.le_refl _) short₂).trans (levels_emit.trans
      (levels_branch (Nat.le_succ _) (by simpa using done₂))))).cast ?_
    rw [BranchKind.pops_deciding]
    rfl
  have decidedWay : Levels a.labels.size (-1)
      (((c.branch (.deciding decided) a.labels.size).emit (.loadBool !decided)).branch .always
        (a.labels.size + 1))
      ((((c.branch (.deciding decided) a.labels.size).emit (.loadBool !decided)).branch .always
        (a.labels.size + 1)).mark a.labels.size) := by
    refine levels_mark (Nat.le_refl _) (by simpa using short₂) fun hf => ?_
    have hf₅ := (fault_mark hf).1
    have hf₃ := (fault_emit (fault_branch hf₅).1).1
    rw [depthAt, label_branch (by simpa using done₂) hf₅, if_neg (Nat.ne_of_lt (Nat.lt_succ_self _)),
      label_emit, depth_label_branch short₂ hf₃]
    simp only [reachable_branch, BranchKind.instruction, Instruction.isTransfer, Bool.not_true,
      Bool.and_false, Bool.false_eq_true, if_false, Option.getD_some, depth_branch, depth_emit,
      Instruction.pops, Instruction.pushes]
    omega
  refine ((undecidedWay.trans decidedWay).trans (levels_emit.trans (levels_mark (k := 0)
    (Nat.le_succ _) (by simpa using done₂) fun hf => ?_))).cast rfl
  rw [depthAt, reachable_emit, reachable_mark (fault_emit (fault_mark hf).1).1]
  simp [Instruction.isTransfer]

/-- **Code that is skipped if a value is false**: on either way there is the same on the stack. -/
theorem Levels.skip (test : Levels a.labels.size 1 a.defineLabel.2 b)
    (code : Levels b.labels.size 0 (b.branch .ifFalse a.labels.size) c) :
    Levels a.labels.size 0 a (c.mark a.labels.size) := by
  have size₁ := test.labels_le
  have size₂ := code.labels_le
  simp only [labels_defineLabel, labels_branch] at size₁ size₂
  have skip₁ : a.labels.size < b.labels.size := by omega
  have taken : Levels a.labels.size 0 a c :=
    ((levels_defineLabel.trans test).trans ((levels_branch (Nat.le_refl _) skip₁).trans
      (code.weaken (Nat.le_of_lt skip₁)))).cast rfl
  refine (taken.trans (levels_mark (k := 0) (Nat.le_refl _)
    (Nat.lt_of_lt_of_le skip₁ size₂) fun hf => ?_)).cast rfl
  have hf₂ := (fault_mark hf).1
  have depth₂ := code.depth hf₂
  rw [depthAt, code.label hf₂ _ skip₁, depth_label_branch skip₁ (code.fault hf₂)]
  split
  · exact (Int.add_zero _).symm
  · simp only [Option.getD_some]
    omega

end Assembler

/-! ## Plain instructions -/

namespace Instruction

/-- The instruction goes on with the next one, or throws; it knows nothing of enumerators. -/
def isPlain : Instruction → Bool
  | .jump _ | .jumpIfTrue _ | .jumpIfFalse _ | .leave _ | .endFinally | .return => false
  | .getEnumerator | .advance | .enumeratorKey | .enumeratorValue => false
  | _ => true

/-- The local slot that the instruction loads or stores. -/
def local? : Instruction → Option LocalId
  | .loadLocal id | .storeLocal id => some id
  | _ => none

/-- The effect on the number of values on the stack. -/
def change (i : Instruction) : Int := i.pushes - i.pops

theorem target_of_isPlain {i : Instruction} (h : i.isPlain = true) : i.target? = none := by
  cases i <;> first | rfl | cases h

end Instruction

namespace Assembler

/-! ## Writing in one piece -/

/-- The local slot is there, and holds no enumerator. -/
def HasLocal (asm : Assembler) (id : LocalId) : Prop :=
  ∃ slot, asm.slots.slots[id]? = some slot ∧ slot.role ≠ .enumerator

/-- A step of writing that stays in one piece: it branches to no label below a number. -/
inductive Scribe (base : Nat) : Assembler → Assembler → Prop where
  | emit {asm i} : i.isPlain = true → (∀ id, i.local? = some id → asm.HasLocal id) →
      Scribe base asm (asm.emit i)
  | defineLabel {asm} : Scribe base asm asm.defineLabel.2
  | branch {asm kind l} : kind ≠ .leave → base ≤ l → l < asm.labels.size →
      Scribe base asm (asm.branch kind l)
  | mark {asm l} : base ≤ l → l < asm.labels.size → Scribe base asm (asm.mark l)
  | sequencePoint {asm span} : Scribe base asm (asm.sequencePoint span)
  | serve {asm slots} : asm.slots.Serve slots → Scribe base asm { asm with slots }

/-- Any number of steps of writing in one piece. -/
def Scribes (base : Nat) : Assembler → Assembler → Prop := Relation.ReflTransGen (Scribe base)

variable {a b c : Assembler} {base base' : Nat} {j k : Int} {asm : Assembler} {i : Instruction}

theorem Scribe.write (h : Scribe base a b) : Write a b := by
  cases h with
  | emit hp => exact .emit (Instruction.target_of_isPlain hp)
  | defineLabel => exact .defineLabel
  | branch _ _ hl => exact .branch hl
  | mark _ hl => exact .mark hl
  | sequencePoint => exact .sequencePoint
  | serve hs => exact .serve hs

theorem Scribe.weaken (hb : base' ≤ base) (h : Scribe base a b) : Scribe base' a b := by
  cases h with
  | emit hp hslot => exact .emit hp hslot
  | defineLabel => exact .defineLabel
  | branch hk hl => exact .branch hk (Nat.le_trans hb hl) ‹_›
  | mark hl => exact .mark (Nat.le_trans hb hl) ‹_›
  | sequencePoint => exact .sequencePoint
  | serve hs => exact .serve hs

namespace Scribes

theorem evolves (h : Scribes base a b) : Evolves a b :=
  Relation.ReflTransGen.mono (fun _ _ => Scribe.write) _ _ h

theorem weaken (hb : base' ≤ base) (h : Scribes base a b) : Scribes base' a b :=
  Relation.ReflTransGen.mono (fun _ _ => Scribe.weaken hb) _ _ h

/-- Labels from elsewhere are left alone. -/
theorem label (h : Scribes base a b) (hf : b.fault = none) {l : Label} (hl : l < base) :
    b.label l = a.label l := by
  induction h with
  | refl => rfl
  | tail h step ih =>
    refine Eq.trans ?_ (ih (step.write.fault hf))
    cases step with
    | branch _ hb hlt => rw [label_branch hlt hf, if_neg (Nat.ne_of_lt (Nat.lt_of_lt_of_le hl hb))]
    | mark hb hlt => rw [label_mark hlt hf, if_neg (Nat.ne_of_lt (Nat.lt_of_lt_of_le hl hb))]
    | emit => exact label_emit
    | defineLabel => exact label_defineLabel
    | sequencePoint | serve => rfl

/-- Nothing that is written in one piece returns. -/
theorem return_of_code (h : Scribes base a b) {n : Nat} (there : b.code[n]? = some .return) :
    a.code[n]? = some .return := by
  induction h with
  | refl => exact there
  | @tail b c h step ih =>
    refine ih ?_
    have pushed {i : Instruction} (other : i ≠ .return) (there : (b.code.push i)[n]? = some .return) :
        b.code[n]? = some .return := by
      rw [Array.getElem?_push] at there
      split at there
      · exact (other (Option.some.inj there)).elim
      · exact there
    cases step with
    | emit plain =>
      rw [code_emit] at there
      exact pushed (by rintro rfl; cases plain) there
    | @branch kind =>
      rw [code_branch] at there
      exact pushed (by cases kind <;> nofun) there
    | mark => rwa [code_mark] at there
    | defineLabel | sequencePoint | serve => exact there

end Scribes

/-! ## The stack and the slots in use -/

/-- Writing in one piece, behind which there are so many values more on the stack; slots in use
stay in use. -/
structure Grows (k : Int) (a b : Assembler) : Prop where
  scribes : Scribes a.labels.size a b
  depth : b.fault = none → (b.depth : Int) = a.depth + k
  held : ∀ id, a.slots.Held id → b.slots.Held id

namespace Grows

theorem refl (a : Assembler) : Grows 0 a a where
  scribes := .refl
  depth _ := by omega
  held _ h := h

theorem trans (h : Grows j a b) (h' : Grows k b c) : Grows (j + k) a c where
  scribes := h.scribes.trans (h'.scribes.weaken h.scribes.evolves.labels_le)
  depth hf := by
    have := h.depth (h'.scribes.evolves.fault hf)
    have := h'.depth hf
    omega
  held id hid := h'.held id (h.held id hid)

theorem cast (h : Grows j a b) (hk : j = k) : Grows k a b := hk ▸ h

theorem evolves (h : Grows k a b) : Evolves a b := h.scribes.evolves

theorem sound (h : Grows k a b) (ha : a.slots.Sound) : b.slots.Sound := h.evolves.slots_sound ha

theorem levels (h : Grows k a b) : Levels a.labels.size k a b where
  fault := h.evolves.fault
  labels_le := h.evolves.labels_le
  label hf _ hl := h.scribes.label hf hl
  depth := h.depth

end Grows

theorem HasLocal.grows {id : LocalId} (hid : a.HasLocal id) (h : Grows k a b) : b.HasLocal id := by
  obtain ⟨slot, hslot, hrole⟩ := hid
  exact ⟨slot, h.evolves.slots_within _ _ hslot, hrole⟩

theorem hasLocal_named {name : String} :
    HasLocal { asm with slots := (asm.slots.named name).2 } (asm.slots.named name).1 :=
  ⟨_, Slots.slot_named, fun h => by cases h⟩

theorem hasLocal_result : HasLocal { asm with slots := asm.slots.result.2 } asm.slots.result.1 := by
  obtain ⟨slot, hslot, hrole⟩ := Slots.slot_result (s := asm.slots)
  exact ⟨slot, hslot, by rw [hrole]; decide⟩

theorem hasLocal_scratch (hs : asm.slots.Sound) :
    HasLocal { asm with slots := asm.slots.scratch.2 } asm.slots.scratch.1 := by
  obtain ⟨slot, hslot, hrole⟩ := Slots.slot_scratch hs
  exact ⟨slot, hslot, by rw [hrole]; decide⟩

theorem grows_emit (hp : i.isPlain = true) (hslot : ∀ id, i.local? = some id → asm.HasLocal id)
    (hk : i.change = k) : Grows k asm (asm.emit i) where
  scribes := .single (.emit hp hslot)
  depth hf := by
    obtain ⟨-, hpops⟩ := fault_emit hf
    simp only [depth_emit, ← hk, Instruction.change]
    omega
  held id h := by simpa using h

/-- An instruction on a local slot that is there. -/
theorem grows_local {id : LocalId} (hid : asm.HasLocal id) (hp : i.isPlain = true)
    (hl : i.local? = some id) (hk : i.change = k) : Grows k asm (asm.emit i) := by
  refine grows_emit hp (fun id' h => ?_) hk
  rw [hl] at h
  cases h
  exact hid

/-- An instruction more, behind such writing. -/
theorem Grows.emit (h : Grows j a b) (hp : i.isPlain = true) (hl : i.local? = none)
    (hk : i.change = k) : Grows (j + k) a (b.emit i) :=
  h.trans (grows_emit hp (fun id hid => by simp [hl] at hid) hk)

/-- An instruction more, on a local slot that has been there from the start. -/
theorem Grows.onLocal {id : LocalId} (h : Grows j a b) (hid : a.HasLocal id) (hp : i.isPlain = true)
    (hl : i.local? = some id) (hk : i.change = k) : Grows (j + k) a (b.emit i) :=
  h.trans (grows_local (hid.grows h) hp hl hk)

theorem grows_sequencePoint {span : Span} : Grows 0 asm (asm.sequencePoint span) where
  scribes := .single .sequencePoint
  depth _ := (Int.add_zero _).symm
  held _ h := h

theorem grows_serve {slots : Slots} (hs : asm.slots.Serve slots)
    (held : ∀ id, asm.slots.Held id → slots.Held id) : Grows 0 asm { asm with slots } where
  scribes := .single (.serve hs)
  depth _ := (Int.add_zero _).symm
  held := held

/-- A scratch slot for a while: it is nobody's when it is handed out, and nobody's when it is given
back. -/
theorem Grows.scratch (h : Grows k { a with slots := a.slots.scratch.2 } b) :
    Grows k a { b with slots := b.slots.release a.slots.scratch.1 } where
  scribes :=
    .head (.serve (.scratch _)) (h.scribes.tail (.serve (.release _ _)))
  depth := h.depth
  held id hid := by
    refine Slots.held_release (h.held id (Slots.held_scratch hid)) ?_
    rintro rfl
    exact Slots.not_held_scratch hid

end Assembler

open Assembler

/-! ## Steps that write in one piece -/

/-- What the step writes is in one piece and leaves so many values more on the stack. -/
def Emits {α : Type} (k : Int) (step : Emit α) : Prop :=
  ∀ d x d', d.asm.slots.Sound → Ends step d x d' → Grows k d.asm d'.asm

section Combinators

variable {α β : Type} {j k : Int} {step : Emit α} {next : α → Emit β}

theorem Emits.grows {d d' : Draft} {x : α} (h : Emits k step) (hd : d.asm.slots.Sound)
    (he : Ends step d x d') : Grows k d.asm d'.asm :=
  h d x d' hd he

theorem emits_pure {x : α} : Emits 0 (pure x : Emit α) := by
  intro d y d' _ h
  obtain ⟨-, rfl⟩ := ends_pure.mp h
  exact .refl _

/-- Such steps one behind the other. -/
theorem Emits.bind {n : Int} (h : Emits j step) (h' : ∀ x, Emits k (next x))
    (hn : j + k = n) : Emits n (step >>= next) := by
  intro d y d' hd hends
  obtain ⟨x, e, hx, hy⟩ := ends_bind.mp hends
  have grows := h.grows hd hx
  exact (grows.trans ((h' x).grows (grows.sound hd) hy)).cast hn

theorem emits_emit {i : Instruction} (hp : i.isPlain = true) (hl : i.local? = none)
    (hk : i.change = k) : Emits k (Emit.emit i) := by
  intro d _ d' _ h
  rw [Emit.ends_emit.mp h]
  exact grows_emit hp (fun id hid => by simp [hl] at hid) hk

theorem emits_throw {e : Cause} : Emits k (throw e : Emit α) := by
  intro d x d' _ h
  exact (not_ends_throw h).elim

theorem emits_nextSite : Emits 0 Emit.nextSite := by
  intro d n d' _ h
  obtain ⟨-, rfl⟩ := Emit.ends_nextSite.mp h
  exact .refl _

end Combinators

end StackScript
