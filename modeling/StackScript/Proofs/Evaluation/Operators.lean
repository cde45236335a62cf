import StackScript.Proofs.Evaluation.Fields

/-!
# Operators and arrays follow their meaning

The left operand of `and` and `or` jumps over the right one if it decides, and both ways meet with
one value on the stack.

## Main definitions

* `Setting.Decides`: what the code around two operands does, of which either may decide

## Main results

* `reaches_test`, `reaches_jump`: branches
* `means_lowerLogical`, `means_lowerBinary`: operators
* `means_lowerArray`: arrays
-/

namespace StackScript

open Emit
open Assembler (Evolves Grows)

/-! ## Branches -/

section Branches

variable {σ : Type} {c : Setting σ} {a : Assembler} {l : Label} {t : Nat} {f : Frame} {s : σ}
  {x : Slot} {base : List Slot}

theorem leads_branch {kind : BranchKind} : Leads a (a.branch kind l) where
  size_le := by simp
  within := by simpa using Slots.Within.refl _
  held _ h := by simpa using h

theorem leads_mark : Leads a (a.mark l) where
  size_le := by simp
  within := by simpa using Slots.Within.refl _
  held _ h := by simpa using h

/-- A label that is put somewhere has its place there in the finished code. -/
theorem Setting.Reads.placed (h : c.Reads (a.mark l)) (hl : l < a.labels.size) :
    c.final.PlacedAt l a.code.size := by
  have hf := h.evolves.fault (Assembler.finish_cases c.finished).1
  refine h.kept.placed l _ ?_
  rw [Assembler.PlacedAt, Assembler.label_mark hl hf, if_pos rfl]

/-- A jump goes to its label; one that is missing has nothing to do. -/
theorem step_of_jump (hc : c.Reads (a.branch .always l)) (hl : c.final.PlacedAt l t)
    (hpc : f.pc = a.code.size) : t = f.pc ∨ c.body.step f = .running { f with pc := t } := by
  obtain ⟨t', ht', hi | ⟨-, he⟩⟩ := hc.branch
  · cases hl.unique ht'
    rw [← hpc] at hi
    exact .inr (step_jump hi rfl)
  · cases hl.unique ht'
    exact .inl (he.trans hpc.symm)

/-- A jump to a label behind it. -/
theorem climbs_jump (hc : c.Reads (a.branch .always l)) (hl : c.final.PlacedAt l t)
    (hpc : f.pc = a.code.size) (ahead : a.code.size ≤ t) :
    c.Climbs (.running f, s) (.running { f with pc := t }, s) := by
  by_cases there : t = f.pc
  · subst there
    exact .refl _
  · have step := (step_of_jump hc hl hpc).resolve_left there
    exact .next step (Nat.lt_of_le_of_ne (hpc ▸ ahead) (Ne.symm there)) (.refl _)

theorem Frame.execute_test (decided : Bool) (hf : f.stack = x :: base) :
    f.execute ((BranchKind.deciding decided).instruction t) =
      .ok (if x.toValue.truthy = decided then .jump t { f with stack := base }
        else .next { f with stack := base }) := by
  cases decided <;> cases hx : x.toValue.truthy <;>
    simp [BranchKind.deciding, BranchKind.instruction, execute, popValue, pop, hf, hx, bind,
      Except.bind, pure, Except.pure]

/-- A test takes a value from the stack, and jumps if it is as truthy as given. -/
theorem sweeps_test {decided : Bool} (hc : c.Reads (a.branch (.deciding decided) l))
    (hl : c.final.PlacedAt l t) (hpc : f.pc = a.code.size) (hf : f.stack = x :: base) :
    c.Sweeps (a.code.size + 1) (.running f, s)
      (.running { f with
        pc := if x.toValue.truthy = decided then t else a.code.size + 1, stack := base }, s) := by
  obtain ⟨t', ht', hi | ⟨hk, -⟩⟩ := hc.branch
  · cases hl.unique ht'
    rw [← hpc] at hi ⊢
    have execute := Frame.execute_test (t := t) decided hf
    refine .step (Nat.lt_succ_self _) ?_
    by_cases hx : x.toValue.truthy = decided
    · rw [if_pos hx] at execute ⊢
      exact step_jump hi execute
    · rw [if_neg hx] at execute ⊢
      exact step_next hi execute
  · cases decided <;> cases hk

/-- An instruction that pushes a constant. -/
theorem climbs_loadBool {b : Bool} (hc : c.Reads (a.emit (.loadBool b)))
    (hpc : f.pc = a.code.size) :
    c.Climbs (.running f, s)
      (.running { f with pc := a.code.size + 1, stack := .value (.bool b) :: f.stack }, s) := by
  have hi : c.body.code[f.pc]? = some (.loadBool b) := hpc ▸ hc.last rfl
  rw [← hpc]
  have execute : f.execute (.loadBool b) = .ok (.next (f.pushValue (.bool b))) := rfl
  exact .next (step_next hi execute) (Nat.lt_succ_self _) (.refl _)

end Branches

/-! ## Operators that decide -/

section Logical

variable {σ : Type} {c : Setting σ} {a b e e₁ e₂ e₃ e₄ e₅ e₆ : Assembler} {short done : Label}
  {decided : Bool} {pre : List Slot} {left right : Eval σ Slot}

/-- **What the code around two operands does**: behind each operand a test brings control to the end
with the truth that decides, if the operand is as truthy, and goes on else. Behind the second one
the end comes with the other truth. -/
structure Setting.Decides (c : Setting σ) (decided : Bool) (b e last : Assembler) : Prop where
  first : ∀ {f s x base}, f.pc = b.code.size → f.stack = x :: base → x.toValue.truthy = decided →
    c.Climbs (.running f, s) (.running { f with
      pc := last.code.size, stack := .value (.bool decided) :: base }, s)
  goesOn : ∀ {f s x base}, f.pc = b.code.size → f.stack = x :: base →
    ¬ x.toValue.truthy = decided →
      c.Climbs (.running f, s) (.running { f with pc := b.code.size + 1, stack := base }, s)
  second : ∀ {f s x base}, f.pc = e.code.size → f.stack = x :: base → x.toValue.truthy = decided →
    c.Climbs (.running f, s) (.running { f with
      pc := last.code.size, stack := .value (.bool decided) :: base }, s)
  other : ∀ {f s x base}, f.pc = e.code.size → f.stack = x :: base →
    ¬ x.toValue.truthy = decided →
      c.Climbs (.running f, s) (.running { f with
        pc := last.code.size, stack := .value (.bool !decided) :: base }, s)

/-- The code that decides: two tests for the same label, the truth that does not decide in front of
the label, and the other one behind it. -/
theorem decides_of_reads (h₂ : e₂ = e₁.emit (.loadBool !decided)) (h₃ : e₃ = e₂.branch .always done)
    (h₄ : e₄ = e₃.mark short) (h₅ : e₅ = e₄.emit (.loadBool decided)) (h₆ : e₆ = e₅.mark done)
    (r₀ : c.Reads (b.branch (.deciding decided) short))
    (r₁ : c.Reads (e.branch (.deciding decided) short)) (h₁ : e₁ = e.branch (.deciding decided) short)
    (r₂ : c.Reads e₂) (r₃ : c.Reads e₃) (r₅ : c.Reads e₅) (size : b.code.size < e.code.size)
    (atShort : c.final.PlacedAt short e₃.code.size) (atDone : c.final.PlacedAt done e₅.code.size) :
    c.Decides decided b e e₆ := by
  have size₁ : e₁.code.size = e.code.size + 1 := by simp [h₁]
  have size₅ : e₅.code.size = e₃.code.size + 1 := by simp [h₅, h₄]
  have size₃ : e₃.code.size = e.code.size + 3 := by simp [h₃, h₂, h₁]
  have size₆ : e₆.code.size = e₅.code.size := by simp [h₆]
  -- Where either operand decides, its value is pushed behind the second label.
  have decides {g : Frame} {s : σ} (hg : g.pc = e₃.code.size) :
      c.Climbs (.running g, s) (.running { g with
        pc := e₆.code.size, stack := .value (.bool decided) :: g.stack }, s) := by
    have load := climbs_loadBool (s := s) (h₅ ▸ r₅) (by simpa [h₄] using hg)
    rwa [h₄, Assembler.code_mark, ← size₅, ← size₆] at load
  refine ⟨fun {f s x base} hpc hstack hx => ?_, fun {f s x base} hpc hstack hx => ?_,
    fun {f s x base} hpc hstack hx => ?_, fun {f s x base} hpc hstack hx => ?_⟩
  · have test := sweeps_test (s := s) r₀ atShort hpc hstack
    rw [if_pos hx] at test
    exact (test.climbs (by dsimp only; omega)).trans (decides rfl)
  · have test := sweeps_test (s := s) r₀ atShort hpc hstack
    rw [if_neg hx] at test
    exact test.climbs (Nat.le_refl _)
  · have test := sweeps_test (s := s) r₁ atShort hpc hstack
    rw [if_pos hx] at test
    exact (test.climbs (by dsimp only; omega)).trans (decides rfl)
  · have test := sweeps_test (s := s) r₁ atShort hpc hstack
    rw [if_neg hx] at test
    have load := climbs_loadBool (s := s) (f := { f with pc := e.code.size + 1, stack := base })
      (h₂ ▸ r₂) size₁.symm
    have jump := climbs_jump (s := s) (f := { f with
      pc := e₁.code.size + 1, stack := .value (.bool !decided) :: base }) (h₃ ▸ r₃) atDone
      (by simp [h₂]) (by simp [h₂]; omega)
    rw [size₆]
    exact (test.climbs (Nat.le_refl _)).trans (load.trans jump)

/-- **The operand that decides jumps over the other one**, and on either way there is one value. -/
theorem Follows.logical (hshort : short = a.labels.size) (hdone : done = a.labels.size + 1)
    (h₁ : e₁ = e.branch (.deciding decided) short) (h₂ : e₂ = e₁.emit (.loadBool !decided))
    (h₃ : e₃ = e₂.branch .always done) (h₄ : e₄ = e₃.mark short)
    (h₅ : e₅ = e₄.emit (.loadBool decided)) (h₆ : e₆ = e₅.mark done) (ha : a.Sound)
    (hleft : a.defineLabel.2.defineLabel.2.Evolves b)
    (hright : (b.branch (.deciding decided) short).Evolves e) (hc : e₆.Evolves c.final)
    (first : b.Evolves c.final →
      Follows c a.defineLabel.2.defineLabel.2 b pre left fun x => x :: pre)
    (second : (b.branch (.deciding decided) short).Sound → e.Evolves c.final →
      Follows c (b.branch (.deciding decided) short) e pre right fun x => x :: pre) :
    Follows c a e₆ pre (Eval.logical decided left right) fun x => x :: pre := by
  have size := hleft.labels_le
  have size' := hright.labels_le
  simp only [Assembler.labels_defineLabel, Assembler.labels_branch] at size size'
  have short₀ : a.labels.size < b.labels.size := by omega
  have done₀ : a.labels.size + 1 < e.labels.size := by omega
  have short₁ : short < b.labels.size := hshort ▸ short₀
  have short₂ : short < e.labels.size := Nat.lt_of_lt_of_le short₁ size'
  have done₂ : done < e.labels.size := hdone ▸ done₀
  have short₃ : short < e₃.labels.size := by simpa [h₃, h₂, h₁] using short₂
  have done₅ : done < e₅.labels.size := by simpa [h₅, h₄, h₃, h₂, h₁] using done₂
  -- The stages of the code, one behind the other.
  have w₁ : a.Evolves (b.branch (.deciding decided) short) :=
    .trans (.single .defineLabel) (.trans (.single .defineLabel)
      (hleft.trans (.single (.branch short₁))))
  have w₂ : e.Evolves e₁ := h₁ ▸ .single (.branch short₂)
  have w₃ : e₁.Evolves e₂ := h₂ ▸ .single (.emit rfl)
  have w₄ : e₂.Evolves e₃ := h₃ ▸ .single (.branch (by simpa [h₂, h₁] using done₂))
  have w₅ : e₃.Evolves e₄ := h₄ ▸ .single (.mark short₃)
  have w₆ : e₄.Evolves e₅ := h₅ ▸ .single (.emit rfl)
  have w₇ : e₅.Evolves e₆ := h₆ ▸ .single (.mark done₅)
  -- What is left to write behind each of them, up to the finished code.
  have t₅ := w₇.trans hc
  have t₄ := w₆.trans t₅
  have t₃ := w₅.trans t₄
  have t₂ := w₄.trans t₃
  have t₁ := w₃.trans t₂
  have t₀ := w₂.trans t₁
  have r₀ : c.Reads (b.branch (.deciding decided) short) := .of_evolves ha w₁ (hright.trans t₀)
  have r₁ : c.Reads e₁ := .of_evolves r₀.sound (hright.trans w₂) t₁
  have r₂ : c.Reads e₂ := .of_evolves r₁.sound w₃ t₂
  have r₃ : c.Reads e₃ := .of_evolves r₂.sound w₄ t₃
  have r₄ : c.Reads e₄ := .of_evolves r₃.sound w₅ t₄
  have r₅ : c.Reads e₅ := .of_evolves r₄.sound w₆ t₅
  have r₆ : c.Reads e₆ := .of_evolves r₅.sound w₇ hc
  have first := first (.trans (.single (.branch short₁)) (hright.trans t₀))
  have second := second r₀.sound t₀
  have decides : c.Decides decided b e e₆ := decides_of_reads h₂ h₃ h₄ h₅ h₆ r₀ (h₁ ▸ r₁) h₁ r₂ r₃
    r₅ (Nat.lt_of_succ_le (by simpa using second.leads.size_le)) ((h₄ ▸ r₄).placed short₃)
        ((h₆ ▸ r₆).placed done₅)
  have start : Leads a a.defineLabel.2.defineLabel.2 := ⟨Nat.le_refl _, .refl _, fun _ h => h⟩
  have tested : Leads b (b.branch (.deciding decided) short) := leads_branch
  have closed : Leads e e₆ := by
    rw [h₆, h₅, h₄, h₃, h₂, h₁]
    exact leads_branch.trans (leads_emit.trans (leads_branch.trans
      (leads_mark.trans (leads_emit.trans leads_mark))))
  refine ⟨start.trans (first.leads.trans (tested.trans (second.leads.trans closed))),
    fun f base vars s hpc hstack hvars => ?_⟩
  unfold Eval.logical
  refine .behind (.refl _) start (.refl _ f) ?_
  refine (first.comes f base vars s hpc hstack hvars).bind first.leads
    (tested.trans (second.leads.trans closed)).size_le ?_
  intro x vars₁ s₁ f₁ _ hpc₁ hstack₁ hvars₁ _
  by_cases hx : x.toValue.truthy = decided
  · rw [if_pos hx]
    exact .ends (decides.first hpc₁ hstack₁ hx) rfl rfl (hvars₁.congr rfl rfl rfl)
      (.congr (.refl _ f₁) rfl rfl rfl)
  · rw [if_neg hx]
    refine .behind (decides.goesOn hpc₁ hstack₁ hx) tested (.congr (.refl _ f₁) rfl rfl rfl) ?_
    have right := second.comes { f₁ with pc := b.code.size + 1, stack := pre ++ base } base vars₁ s₁
      (by simp) rfl (hvars₁.congr rfl rfl rfl)
    refine right.bind second.leads closed.size_le ?_
    intro y vars₂ s₂ f₂ _ hpc₂ hstack₂ hvars₂ _
    by_cases hy : y.toValue.truthy = decided
    · rw [hy]
      exact .ends (decides.second hpc₂ hstack₂ hy) rfl rfl (hvars₂.congr rfl rfl rfl)
        (.congr (.refl _ f₂) rfl rfl rfl)
    · have undecided : y.toValue.truthy = !decided := by cases decided <;> simpa using hy
      rw [undecided]
      exact .ends (decides.other hpc₂ hstack₂ hy) rfl rfl (hvars₂.congr rfl rfl rfl)
        (.congr (.refl _ f₂) rfl rfl rfl)

variable {l r : Emit Unit} {m m' : Numbered (Eval σ Slot)}

/-- `and` and `or`. -/
theorem means_lowerLogical (hl : Pushes c l m) (hr : Pushes c r m') :
    Means c 1 (lowerLogical decided l r) pre
      (fun n => Eval.logical decided (m.runFrom n).1 (m'.runFrom (m.runFrom n).2).1)
      (fun n => (m'.runFrom (m.runFrom n).2).2) fun x => x :: pre := by
  refine ⟨emits_lowerLogical (hl pre).emits (hr pre).emits, fun d _ d' he => ?_,
    fun d _ d' hd hs he hc => ?_⟩
  all_goals
    obtain ⟨d₁, d₂, hleft, hright, rfl⟩ := parts_of_ends_lowerLogical he
    have first := (hl pre).numbers _ _ _ hleft
    have second := (hr pre).numbers _ _ _ hright
    simp only at first second
  · rw [second, first]
  · have labelled : d.asm.Evolves d.asm.defineLabel.2.defineLabel.2 :=
      .trans (.single .defineLabel) (.single .defineLabel)
    have grows := (hl pre).emits.grows
      (d := ⟨d.asm.defineLabel.2.defineLabel.2, d.nextSite⟩) hs hleft
    have slots : (d₁.asm.branch (.deciding decided) d.asm.labels.size).slots.Sound := by
      rw [Assembler.slots_branch]
      exact grows.sound hs
    have grows' := (hr pre).emits.grows (d := ⟨d₁.asm.branch _ _, d₁.nextSite⟩) slots hright
    dsimp only at hc ⊢
    refine Follows.logical rfl rfl rfl rfl rfl rfl rfl rfl hd grows.evolves
      grows'.evolves hc (fun hfinal => ?_) fun sound hfinal => ?_
    · have start := Setting.Reads.of_evolves hd labelled (grows.evolves.trans hfinal)
      exact (hl pre).follows ⟨_, d.nextSite⟩ _ d₁ start.sound hs hleft hfinal
    · rw [← first]
      exact (hr pre).follows ⟨_, d₁.nextSite⟩ _ d₂ sound slots hright hfinal

end Logical

/-! ## Operators -/

section Operators

variable {σ : Type} {c : Setting σ} {pre : List Slot} {l r : Emit Unit}
  {m m' : Numbered (Eval σ Slot)}

/-- An operator takes its operands from the stack, the right one first. -/
theorem means_operator (op : BinaryOp) (x y : Slot) :
    Means c (-1) (emit (.binary op)) (y :: x :: pre)
      (fun _ => pure (Slot.value (op.apply x.toValue y.toValue))) id fun z => z :: pre :=
  means_stack rfl rfl rfl fun f base hf => by
    simp only [Frame.execute, Frame.popValue, Frame.pop, hf]
    rfl

theorem means_lowerBinary {op : BinaryOp} (hl : Pushes c l m) (hr : Pushes c r m') :
    Means c 1 (lowerBinary op l r) pre
      (fun n => Eval.operate op (m.runFrom n).1 (m'.runFrom (m.runFrom n).2).1)
      (fun n => (m'.runFrom (m.runFrom n).2).2) fun x => x :: pre := by
  cases op with
  | and => exact means_lowerLogical hl hr
  | or => exact means_lowerLogical hl hr
  | _ =>
    exact ((hl pre).bind fun _ x => (hr (x :: pre)).bind fun _ y => means_operator _ x y).cast rfl

/-- An instruction that puts another value in the place of one. -/
theorem means_applied {i : Instruction} {g : Slot → Slot} (hp : i.isPlain = true)
    (ho : i.local? = none) (hk : i.change = 0)
    (h : ∀ (f : Frame) x base, f.stack = x :: base →
      f.execute i = .ok (.next { f with stack := g x :: base }))
    (hl : Pushes c l m) :
    Means c 1 (do l; emit i) pre (fun n => (m.runFrom n).1 >>= fun x => pure (g x))
      (fun n => (m.runFrom n).2) fun x => x :: pre := by
  have applied (x : Slot) :
      Means c 0 (emit i) (x :: pre) (fun _ => pure (g x)) id fun y => y :: pre :=
    means_stack hp ho hk fun f base hf => h f x (pre ++ base) hf
  exact ((hl pre).bind fun _ x => applied x).cast rfl

theorem means_lowerUnary {op : UnaryOp} (hl : Pushes c l m) :
    Means c 1 (do l; emit (.unary op)) pre
      (fun n => (m.runFrom n).1 >>= fun x => pure (.value (op.apply x.toValue)))
      (fun n => (m.runFrom n).2) fun x => x :: pre :=
  means_applied rfl rfl rfl (fun f x base hf => by
    simp only [Frame.execute, Frame.popValue, Frame.pop, hf]
    rfl) hl

theorem means_instanceOf {type : QualifiedName} (hl : Pushes c l m) :
    Means c 1 (do l; emit (.isInstance type)) pre
      (fun n => (m.runFrom n).1 >>= fun x => pure (.value (.bool (x.toValue.isInstanceOf type))))
      (fun n => (m.runFrom n).2) fun x => x :: pre :=
  means_applied rfl rfl rfl (fun f x base hf => by
    simp only [Frame.execute, Frame.popValue, Frame.pop, hf]
    rfl) hl

end Operators

/-! ## Arrays -/

/-- The code of an entry follows its meaning. -/
inductive LoweredEntry.Means {σ : Type} (c : Setting σ) :
    LoweredEntry → Numbered (Option (Eval σ Slot) × Eval σ Slot) → Prop where
  | item {value m} : Pushes c value m → Means c ⟨none, value⟩ (do return (none, ← m))
  | keyed {key value m m'} : Pushes c key m → Pushes c value m' →
      Means c ⟨some key, value⟩ (do
        let k ← m
        let v ← m'
        return (some k, v))

/-- The entries of an array as they are pushed. -/
def layEntries (keyed : Bool) : List (Slot × Slot) → List Slot
  | [] => []
  | (key, value) :: rest =>
    if keyed then key :: value :: layEntries keyed rest else value :: layEntries keyed rest

theorem length_layEntries (keyed : Bool) (pairs : List (Slot × Slot)) :
    (layEntries keyed pairs).length = if keyed then pairs.length * 2 else pairs.length := by
  induction pairs with
  | nil => cases keyed <;> rfl
  | cons pair rest ih =>
    unfold layEntries
    cases keyed with
    | false => simpa using ih
    | true =>
      simp only [if_true, List.length_cons] at ih ⊢
      omega

/-- Keys and values that were pushed in turn are entries again. -/
theorem pairs_layEntries (pairs : List (Slot × Slot)) :
    Value.pairs ((layEntries true pairs).map Slot.toValue) =
      pairs.map fun (key, value) => (key.toValue, value.toValue) := by
  induction pairs with
  | nil => rfl
  | cons pair rest ih =>
    unfold layEntries
    rw [if_pos rfl]
    exact congrArg _ ih

/-- Values without keys are entries whose keys are null. -/
theorem values_layEntries {pairs : List (Slot × Slot)} (h : ∀ pair ∈ pairs, pair.1 = .unset) :
    ((layEntries false pairs).map Slot.toValue).map (fun value => (Value.null, value)) =
      pairs.map fun (key, value) => (key.toValue, value.toValue) := by
  induction pairs with
  | nil => rfl
  | cons pair rest ih =>
    obtain ⟨hpair, hrest⟩ := List.forall_mem_cons.mp h
    obtain ⟨key, value⟩ := pair
    obtain rfl : key = .unset := hpair
    unfold layEntries
    rw [if_neg Bool.false_ne_true]
    exact congrArg _ (ih hrest)

/-- What is known of the entries of an array when they have been evaluated. -/
structure EntriesOf (keyed : Bool) (size : Nat) (pairs : List (Slot × Slot)) : Prop where
  length : pairs.length = size
  unset : keyed = false → ∀ pair ∈ pairs, pair.1 = .unset

namespace Eval

variable {σ : Type}

theorem always_entries {keyed : Bool} {items : List (Option (Eval σ Slot) × Eval σ Slot)}
    (h : keyed = false → ∀ item ∈ items, item.1 = none) :
    (entries items).Always (EntriesOf keyed items.length) := by
  induction items with
  | nil => exact .pure ⟨rfl, fun _ pair hp => by cases hp⟩
  | cons item rest ih =>
    obtain ⟨key, value⟩ := item
    rw [entries]
    have hkey : (key.getD (return .unset)).Always fun k => keyed = false → k = .unset := by
      cases key with
      | none => exact .pure fun _ => rfl
      | some key =>
        intro vars s x w _ hkeyed
        cases h hkeyed _ List.mem_cons_self
    refine .bind hkey fun k hk => .bind .trivial fun v _ => ?_
    refine (ih fun hkeyed item hi => h hkeyed item (List.mem_cons_of_mem _ hi)).bind fun ps hps => ?_
    refine .pure ⟨congrArg (· + 1) hps.length, fun hkeyed => ?_⟩
    exact List.forall_mem_cons.mpr ⟨hk hkeyed, hps.unset hkeyed⟩

end Eval

section Arrays

variable {σ : Type} {c : Setting σ} {pre : List Slot} {keyed : Bool} {entries : List LoweredEntry}
  {ms : List (Numbered (Option (Eval σ Slot) × Eval σ Slot))}

theorem means_pushEntries (h : List.Forall₂ (LoweredEntry.Means c) entries ms)
    (hkeyed : keyed = false → ∀ entry ∈ entries, entry.key = none) :
    Means c (if keyed then entries.length * 2 else entries.length : Nat)
      (pushEntries keyed entries) pre (fun n => Eval.entries ((Numbered.all ms).runFrom n).1)
      (fun n => ((Numbered.all ms).runFrom n).2)
      fun pairs => (layEntries keyed pairs).reverse ++ pre := by
  induction h generalizing pre with
  | nil =>
    cases keyed <;>
      exact means_pure (y := []) fun pairs => (layEntries _ pairs).reverse ++ pre
  | cons h _ ih =>
    have rest (pre : List Slot) := @ih pre fun hk entry he =>
      hkeyed hk entry (List.mem_cons_of_mem _ he)
    cases h with
    | @item value m hv =>
      cases keyed with
      | false =>
        refine ((hv pre).bind fun _ v => (rest (v :: pre)).map ((Slot.unset, v) :: ·) ?_).cast ?_
        · intro ps
          simp [layEntries]
        · simp only [Bool.false_eq_true, if_false, List.length_cons]
          omega
      | true =>
        -- Where other entries have keys, an entry without one has null in its place.
        have null : Means c 1 (emit .loadNull) pre (fun _ => pure Slot.unset) id fun k => k :: pre :=
          means_push rfl rfl rfl fun _ => rfl
        refine (null.bind fun _ k => (hv (k :: pre)).bind fun _ v =>
          (rest (v :: k :: pre)).map ((k, v) :: ·) ?_).cast ?_
        · intro ps
          simp [layEntries]
        · simp only [if_true, List.length_cons]
          omega
    | @keyed key value m m' hk hv =>
      cases keyed with
      | false => cases hkeyed rfl _ List.mem_cons_self
      | true =>
        refine ((hk pre).bind fun _ k => (hv (k :: pre)).bind fun _ v =>
          (rest (v :: k :: pre)).map ((k, v) :: ·) ?_).cast ?_
        · intro ps
          simp [layEntries]
        · simp only [if_true, List.length_cons]
          omega

/-- Entries without keys have none when they are evaluated. -/
theorem keys_entries (h : List.Forall₂ (LoweredEntry.Means c) entries ms)
    (hkeys : ∀ entry ∈ entries, entry.key = none) (n : SiteId) :
    ∀ item ∈ ((Numbered.all ms).runFrom n).1, item.1 = none := by
  induction h generalizing n with
  | nil =>
    intro item hi
    cases hi
  | cons h _ ih =>
    obtain ⟨hkey, hkeys⟩ := List.forall_mem_cons.mp hkeys
    rw [Numbered.runFrom_all_cons]
    refine List.forall_mem_cons.mpr ⟨?_, ih hkeys _⟩
    cases h with
    | item => rfl
    | keyed => cases hkey

/-- The instruction that takes the entries of an array from the stack. -/
theorem means_newArray {size : Nat} {pairs : List (Slot × Slot)} (h : EntriesOf keyed size pairs) :
    Means c (1 - (if keyed then size * 2 else size : Nat)) (emit (.newArray size keyed))
      ((layEntries keyed pairs).reverse ++ pre)
      (fun _ => pure (Slot.value (.ofEntries (pairs.map fun (key, value) =>
        (key.toValue, value.toValue)))))
      id fun x => x :: pre := by
  have length := length_layEntries keyed pairs
  rw [h.length] at length
  refine means_stack rfl rfl ?_ fun f base hf => ?_
  · simp only [Instruction.change, Instruction.pops, Instruction.pushes]
    omega
  rw [List.append_assoc] at hf
  cases keyed with
  | true =>
    rw [if_pos rfl] at length
    simp only [Frame.execute, ← length, Frame.popValues_reverse hf, ← pairs_layEntries]
    rfl
  | false =>
    rw [if_neg Bool.false_ne_true] at length
    simp only [Frame.execute, ← length, Frame.popValues_reverse hf,
      ← values_layEntries (h.unset rfl)]
    rfl

theorem means_lowerArray (h : List.Forall₂ (LoweredEntry.Means c) entries ms) :
    Means c 1 (lowerArray entries) pre (fun n => Eval.array ((Numbered.all ms).runFrom n).1)
      (fun n => ((Numbered.all ms).runFrom n).2) fun x => x :: pre := by
  unfold lowerArray
  have hkeyed : (entries.any (·.key.isSome)) = false → ∀ entry ∈ entries, entry.key = none := by
    intro hnone entry he
    simpa using List.any_eq_false.mp hnone entry he
  generalize entries.any (·.key.isSome) = keyed at hkeyed
  have items (n : SiteId) : keyed = false → ∀ item ∈ ((Numbered.all ms).runFrom n).1,
      item.1 = none := fun hk => keys_entries h (hkeyed hk) n
  have size (n : SiteId) : ((Numbered.all ms).runFrom n).1.length = entries.length := by
    rw [Numbered.length_all, ← h.length_eq]
  have some : EntriesOf keyed entries.length (List.replicate entries.length (.unset, .unset)) :=
    ⟨List.length_replicate, fun _ pair hp => by rw [List.eq_of_mem_replicate hp]⟩
  refine ((means_pushEntries h hkeyed).bindWhere (P := EntriesOf keyed entries.length)
    (fun n => ?_) ⟨_, some⟩ fun _ ps hps => means_newArray hps).cast ?_
  · rw [← size n]
    exact Eval.always_entries (items n)
  · omega

end Arrays

end StackScript
