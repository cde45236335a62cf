import StackScript.Proofs.Writing.Straight

/-!
# Writing without a fault

The assembler finds fault with an instruction that takes more values than there are, with branches
that do not agree on the depth at their label, and with a label that is put twice. Straight code
that finds the values it takes does none of this, and has no branch left behind it that waits for a
label of its own.

## Main definitions

* `Assembler.Clean`: writing that runs into no fault and leaves no label without a place
* `Careful`: a step of that kind, which stops with a cause always or never

## Main results

* `Careful.bind`: such steps one behind the other
* `Careful.total`: a step that succeeds somewhere succeeds everywhere
-/

namespace StackScript

namespace Assembler

variable {a b c asm : Assembler} {i : Instruction} {kind : BranchKind} {l : Label} {o : Nat}

/-! ## Single writings -/

/-- An instruction that finds the values that it takes. -/
theorem faultless_emit (hf : asm.fault = none) (hp : i.pops ≤ asm.depth) :
    (asm.emit i).fault = none := by
  change (asm.adjust i).fault = none
  simp only [adjust, if_neg (Nat.not_lt.mpr hp)]
  exact hf

/-- A branch that agrees with the others to its label. -/
theorem faultless_branch (hf : asm.fault = none) (hp : (kind.instruction 0).pops ≤ asm.depth)
    (hd : ∀ d, (asm.label l).depth = some d → d = asm.depth - (kind.instruction 0).pops) :
    (asm.branch kind l).fault = none := by
  have emitted : (asm.emit (kind.instruction 0)).fault = none := faultless_emit hf hp
  have label (fixups) : ({ asm.emit (kind.instruction 0) with fixups } : Assembler).label l =
      asm.label l := label_emit
  unfold branch
  simp only [label]
  split
  case h_1 expected hexpected =>
    rw [if_pos (by simpa using hd _ hexpected)]
    exact emitted
  case h_2 => exact emitted

/-- A label that has no place yet, at the depth of the branches to it. -/
theorem faultless_mark (hf : asm.fault = none) (ho : (asm.label l).offset = none)
    (hd : ∀ d, (asm.label l).depth = some d → d = asm.depthAt l) :
    (asm.mark l).fault = none := by
  have label : asm.pin.label l = asm.label l := rfl
  have free : (asm.pin.label l).offset.isSome = false := by rw [label, ho]; rfl
  unfold mark
  simp only [free, Bool.false_eq_true, if_false]
  split
  case h_1 expected hr hexpected =>
    have hr : asm.reachable = true := hr
    have agrees := hd _ hexpected
    rw [depthAt, hr, if_pos rfl] at agrees
    have agrees : expected = (asm.pin.setLabel l ⟨some asm.pin.offset, some expected⟩).depth :=
      agrees
    rw [if_pos agrees]
    exact hf
  all_goals exact hf

/-- A label that is put somewhere is there. -/
theorem placedAt_of_mark (hl : l < asm.labels.size) (hf : (asm.mark l).fault = none) :
    (asm.mark l).PlacedAt l asm.code.size := by
  rw [PlacedAt, label_mark hl hf, if_pos rfl]

/-! ## Writing in one piece -/

/-- A label that has a place keeps it. -/
theorem Scribes.placedAt {base : Nat} (h : Scribes base a b) (hf : b.fault = none)
    (hl : a.PlacedAt l o) : b.PlacedAt l o := by
  induction h with
  | refl => exact hl
  | tail h step ih =>
    have ih := ih (step.write.fault hf)
    cases step with
    | emit => simpa [PlacedAt] using ih
    | defineLabel => simpa [PlacedAt] using ih
    | @branch kind k _ _ hlt =>
      rw [PlacedAt, label_branch hlt hf]
      split
      case isTrue hk =>
        subst hk
        exact ih
      case isFalse => exact ih
    | @mark k _ hlt =>
      rw [PlacedAt, label_mark hlt hf]
      split
      case isTrue hk =>
        obtain ⟨-, free, -⟩ := fault_mark hf
        rw [hk, PlacedAt, free] at ih
        cases ih
      case isFalse => exact ih
    | sequencePoint => exact ih
    | serve => exact ih

/-- Writing that runs into no fault where there are so many values on the stack, and behind which
no branch of its own waits for a label without a place. -/
structure Clean (need : Nat) (a b : Assembler) : Prop where
  faultless : a.fault = none → need ≤ a.depth → b.fault = none
  resolved : b.fault = none → ∀ n l, b.Awaits n l → a.Awaits n l ∨ ∃ o, b.PlacedAt l o

namespace Clean

variable {n m t : Nat} {j k : Int}

theorem refl (a : Assembler) : Clean n a a where
  faultless hf _ := hf
  resolved _ _ _ h := .inl h

theorem trans (h : Clean n a b) (g : Grows j a b) (h' : Clean m b c) (g' : Grows k b c)
    (hn : n ≤ t) (hm : (m : Int) ≤ max 0 (t + j)) : Clean t a c where
  faultless hf ht := by
    have hb := h.faultless hf (Nat.le_trans hn ht)
    have depth := g.depth hb
    exact h'.faultless hb (by omega)
  resolved hf n l hw := by
    obtain hw | hp := h'.resolved hf n l hw
    · refine (h.resolved (g'.evolves.fault hf) n l hw).imp_right fun ⟨o, ho⟩ => ⟨o, ?_⟩
      exact g'.scribes.placedAt hf ho
    · exact .inr hp

end Clean

theorem clean_emit {need : Nat} (hp : i.pops ≤ need) : Clean need asm (asm.emit i) where
  faultless hf hd := faultless_emit hf (Nat.le_trans hp hd)
  resolved _ _ _ h := .inl (by simpa [Awaits] using h)

/-- An instruction more, behind such writing. -/
theorem Clean.emit {need : Nat} {j : Int} (h : Clean need a b) (g : Grows j a b)
    (hp : (i.pops : Int) ≤ max 0 (need + j)) : Clean need a (b.emit i) where
  faultless hf hd := by
    have hb := h.faultless hf hd
    have depth := g.depth hb
    exact faultless_emit hb (by omega)
  resolved hf n l hw := by
    obtain hw | ⟨o, ho⟩ := h.resolved (fault_emit hf).1 n l (by simpa [Awaits] using hw)
    · exact .inl hw
    · exact .inr ⟨o, by simpa [PlacedAt] using ho⟩

/-- Slots and places in the source are no business of the stack, nor of the labels. -/
theorem Clean.congr {need : Nat} {a' b' : Assembler} (h : Clean need a b)
    (ha : a'.fault = a.fault) (hd : a'.depth = a.depth) (hw : a'.fixups = a.fixups)
    (hb : b'.fault = b.fault) (hw' : b'.fixups = b.fixups) (hl : b'.labels = b.labels) :
    Clean need a' b' where
  faultless hf hn := hb.trans (h.faultless (ha.symm.trans hf) (hd ▸ hn))
  resolved hf n l h' := by
    have same := h.resolved (hb.symm.trans hf) n l (by simpa [Awaits, hw'] using h')
    simpa [Awaits, PlacedAt, label, hw, hl] using same

/-- An instruction behind a slot that is handed out. -/
theorem clean_emit_slots {need : Nat} (slots : Slots) (hp : i.pops ≤ need) :
    Clean need asm (Assembler.emit { asm with slots } i) := by
  have written : Clean need { asm with slots } (Assembler.emit { asm with slots } i) :=
    clean_emit hp
  exact written.congr rfl rfl rfl rfl rfl rfl

end Assembler

open Assembler

/-! ## Steps -/

section Steps

variable {α β : Type} {step : Emit α} {next : α → Emit β}

/-- The step succeeds, whatever has been written. -/
def Succeeds (step : Emit α) : Prop := ∀ d, ∃ x d', Ends step d x d'

/-- The step stops with a cause, whatever has been written. -/
def Stops (step : Emit α) : Prop := ∀ d x d', ¬ Ends step d x d'

/-- The step succeeds on some draft. -/
def Lowers (step : Emit α) : Prop := ∃ d x d', Ends step d x d'

theorem succeeds_pure {x : α} : Succeeds (pure x) := fun d => ⟨x, d, ends_pure.mpr ⟨rfl, rfl⟩⟩

theorem Succeeds.bind (h : Succeeds step) (h' : ∀ x, Succeeds (next x)) :
    Succeeds (step >>= next) := fun d => by
  obtain ⟨x, d₁, hx⟩ := h d
  obtain ⟨y, d₂, hy⟩ := h' x d₁
  exact ⟨y, d₂, ends_bind.mpr ⟨x, d₁, hx, hy⟩⟩

theorem Stops.bind (h : Stops step) : Stops (step >>= next) := fun d y d' hy => by
  obtain ⟨x, d₁, hx, -⟩ := ends_bind.mp hy
  exact h d x d₁ hx

theorem stops_bind (h : ∀ x, Stops (next x)) : Stops (step >>= next) := fun d y d' hy => by
  obtain ⟨x, d₁, -, hy⟩ := ends_bind.mp hy
  exact h x d₁ y d' hy

theorem succeeds_onAssembler {f : Assembler → Assembler} : Succeeds (Emit.onAssembler f) :=
  fun _ => ⟨⟨⟩, _, Emit.ends_onAssembler.mpr rfl⟩

theorem succeeds_withAssembler {f : Assembler → α × Assembler} :
    Succeeds (Emit.withAssembler f) :=
  fun _ => ⟨_, _, Emit.ends_withAssembler.mpr ⟨rfl, rfl⟩⟩

theorem succeeds_emit {i : Instruction} : Succeeds (Emit.emit i) := succeeds_onAssembler

end Steps

/-- A step that writes in one piece. It runs into no fault where there are so many values on the
stack, and it stops with a cause always or never. -/
structure Careful {α : Type} (need : Nat) (change : Int) (step : Emit α) : Prop where
  emits : Emits change step
  clean : ∀ d x d', d.asm.slots.Sound → Ends step d x d' → Clean need d.asm d'.asm
  settled : Succeeds step ∨ Stops step

section Combinators

variable {α β : Type} {n m t : Nat} {j k : Int} {step : Emit α} {next : Emit β}

/-- A step that succeeds somewhere succeeds everywhere. -/
theorem Careful.total (h : Careful n k step) (hl : Lowers step) : Succeeds step := by
  obtain ⟨d, x, d', he⟩ := hl
  exact h.settled.resolve_right fun hs => hs d x d' he

/-- Such steps one behind the other. -/
theorem Careful.bind {r : Int} (h : Careful n j step) (h' : Careful m k next) (hn : n ≤ t)
    (hm : (m : Int) ≤ max 0 (t + j)) (hr : j + k = r) : Careful t r (step >>= fun _ => next) where
  emits := h.emits.bind (fun _ => h'.emits) hr
  clean d y d' hd he := by
    obtain ⟨x, d₁, hx, hy⟩ := ends_bind.mp he
    have grows := h.emits.grows hd hx
    have grows' := h'.emits.grows (grows.sound hd) hy
    exact (h.clean d x d₁ hd hx).trans grows (h'.clean d₁ y d' (grows.sound hd) hy) grows' hn hm
  settled := by
    obtain h | h := h.settled
    · obtain h' | h' := h'.settled
      · exact .inl (h.bind fun _ => h')
      · exact .inr (stops_bind fun _ => h')
    · exact .inr h.bind

theorem careful_pure {x : α} : Careful n 0 (pure x : Emit α) where
  emits := emits_pure
  clean d y d' _ h := by
    obtain ⟨-, rfl⟩ := ends_pure.mp h
    exact .refl _
  settled := .inl succeeds_pure

theorem careful_throw {e : Cause} : Careful n k (throw e : Emit α) where
  emits := emits_throw
  clean _ _ _ _ h := (not_ends_throw h).elim
  settled := .inr fun _ _ _ h => not_ends_throw h

theorem careful_emit {i : Instruction} (hp : i.isPlain = true) (hl : i.local? = none)
    (hn : i.pops ≤ n) (hk : i.change = k) : Careful n k (Emit.emit i) where
  emits := emits_emit hp hl hk
  clean d _ d' _ h := by
    rw [Emit.ends_emit.mp h]
    exact clean_emit hn
  settled := .inl succeeds_emit

end Combinators

end StackScript
