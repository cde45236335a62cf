import StackScript.Proofs.Layout.Labelled

/-!
# Jumps to blocks, executed

A jump brings a frame on the way to its block: to the block itself, or to the instruction that
leaves the scope for it. Which of them depends on the scopes that the block is in. Code that ends in
jumps has several ways out.

## Main definitions

* `Setting.HeadsFor`: code on the way to a block
* `Setting.Lands`: where the last jump of a stage leads
* `Arrives`: what code with several ways out comes to

## Main results

* `exists_headsFor`: a jump goes to its block
* `tests_of_ends_transferIf`: a conditional jump goes there if the value is as truthy as asked
* `Comes.arrives`, `Arrives.bind`: code with several ways out, part by part
-/

namespace StackScript

open Emit Arrange
open Assembler (Evolves)

/-! ## Jumps to blocks -/

/-- At an offset, control is on the way to a block: the block starts there, or there stands the
instruction that leaves the scope for the block. -/
inductive Setting.HeadsFor {σ : Type} (c : Setting σ) (ranges : List BlockRange) (scope : Scope)
    (labels : List (BlockId × Label)) (b : BlockId) (pc : Nat) : Prop
  | block {r l} : route ranges scope b = .ok r → r = .within ∨ r = .exit →
      labels.lookup b = some l → c.final.PlacedAt l pc → HeadsFor c ranges scope labels b pc
  | leave {l n} : route ranges scope b = .ok .leave → labels.lookup b = some l →
      c.final.PlacedAt l n → c.body.code[pc]? = some (.leave n) →
      HeadsFor c ranges scope labels b pc
  | endFinally : route ranges scope b = .ok .endFinally → c.body.code[pc]? = some .endFinally →
      HeadsFor c ranges scope labels b pc

theorem Setting.HeadsFor.mono {σ : Type} {c : Setting σ} {ranges : List BlockRange} {scope : Scope}
    {labels labels' : List (BlockId × Label)} {b : BlockId} {pc : Nat}
    (h : c.HeadsFor ranges scope labels b pc)
    (more : ∀ b l, labels.lookup b = some l → labels'.lookup b = some l) :
    c.HeadsFor ranges scope labels' b pc := by
  cases h with
  | block hr plain hl placed => exact .block hr plain (more _ _ hl) placed
  | leave hr hl placed hi => exact .leave hr (more _ _ hl) placed hi
  | endFinally hr hi => exact .endFinally hr hi

/-- A jump writes code behind what there is, takes no slot and no number of a call site, and starts
no loop. -/
structure LayoutState.Jumped (s s' : LayoutState) : Prop where
  size_le : s.asm.code.size ≤ s'.asm.code.size
  slots : s'.asm.slots = s.asm.slots
  nextSite : s'.draft.nextSite = s.draft.nextSite
  enumerators : s'.enumerators = s.enumerators

namespace LayoutState.Jumped

variable {s s₁ s' : LayoutState} {kind : BranchKind} {l : Label}

theorem refl (s : LayoutState) : s.Jumped s := ⟨Nat.le_refl _, rfl, rfl, rfl⟩

theorem trans (h : s.Jumped s₁) (h' : s₁.Jumped s') : s.Jumped s' :=
  ⟨Nat.le_trans h.size_le h'.size_le, h'.slots.trans h.slots, h'.nextSite.trans h.nextSite,
    h'.enumerators.trans h.enumerators⟩

theorem leads (h : s.Jumped s') : Leads s.asm s'.asm where
  size_le := h.size_le
  within := h.slots ▸ .refl _
  held _ held := by
    rw [h.slots]
    exact held

end LayoutState.Jumped

section Jumps

variable {env : LayoutEnv} {scope : Scope} {s s' : LayoutState} {t : BlockId} {u : PUnit}
  {kind : BranchKind} {l : Label}

theorem jumped_branch : s.Jumped (s.mapAsm (·.branch kind l)) :=
  ⟨by simp, by simp, rfl, rfl⟩

theorem jumped_withLabel : s.Jumped (s.withLabel t).2 := by
  unfold LayoutState.withLabel
  split
  · exact .refl s
  · exact ⟨Nat.le_refl _, rfl, rfl, rfl⟩

theorem jumped_accept {r : Route} : s.Jumped (s.accept t r) := by
  refine ⟨Nat.le_of_eq (by rw [asm_accept]), by rw [asm_accept], ?_, ?_⟩ <;> cases r with
  | within =>
    dsimp only [LayoutState.accept, LayoutState.pushLast]
    split <;> rfl
  | leave =>
    dsimp only [LayoutState.accept, LayoutState.escape]
    split <;> rfl
  | exit | endFinally => rfl

theorem jumped_goTo {r : Route} : s.Jumped (s.goTo t l r) := by
  have accepted (r : Route) : s.Jumped (s.accept t r) := jumped_accept
  cases r with
  | within =>
    have queued : s.Jumped (s.pushFirst t) := by
      unfold LayoutState.pushFirst
      split
      · exact .refl s
      · exact ⟨Nat.le_refl _, rfl, rfl, rfl⟩
    rw [LayoutState.goTo, pushFirst_mapAsm]
    exact queued.trans jumped_branch
  | exit => exact (accepted .exit).trans jumped_branch
  | leave => exact (accepted .leave).trans jumped_branch
  | endFinally => exact ⟨by simp [LayoutState.goTo], by simp [LayoutState.goTo], rfl, rfl⟩

theorem jumped_of_ends_transfer (h : Ends (transfer env scope t) s u s') : s.Jumped s' := by
  obtain ⟨r, -, rfl⟩ := goTo_of_ends_transfer h
  split
  · exact jumped_withLabel.trans jumped_goTo
  · exact jumped_accept

theorem jumped_of_ends_transferIf (h : Ends (transferIf env scope kind t) s u s') :
    s.Jumped s' := by
  obtain ⟨r, -, h⟩ := branch_of_ends_transferIf h
  have named : s.Jumped (s.withLabel t).2 := jumped_withLabel
  cases r
  case within | exit =>
    rw [h]
    exact (named.trans jumped_branch).trans jumped_accept
  case leave | endFinally =>
    obtain ⟨s₁, htransfer, rfl⟩ := h
    have defined : (s.withLabel t).2.Jumped ((s.withLabel t).2.mapAsm (·.defineLabel.2)) :=
      ⟨Nat.le_refl _, rfl, rfl, rfl⟩
    have marked : s₁.Jumped (s₁.mapAsm (·.mark (s.withLabel t).2.asm.labels.size)) :=
      ⟨by simp, by simp, rfl, rfl⟩
    exact (((named.trans defined).trans jumped_branch).trans
      (jumped_of_ends_transfer htransfer)).trans marked

theorem reachable_withLabel (s : LayoutState) (t : BlockId) :
    (s.withLabel t).2.asm.reachable = s.asm.reachable := by
  unfold LayoutState.withLabel
  split <;> rfl

theorem fault_withLabel (s : LayoutState) (t : BlockId) :
    (s.withLabel t).2.asm.fault = s.asm.fault := by
  unfold LayoutState.withLabel
  split <;> rfl

/-- Control arrives behind a conditional jump. -/
theorem reachable_of_ends_transferIf (decided : Bool) (arrives : s.asm.reachable = true)
    (h : Ends (transferIf env scope (.deciding decided) t) s u s') (hf : s'.asm.fault = none) :
    s'.asm.reachable = true := by
  obtain ⟨r, -, h⟩ := branch_of_ends_transferIf h
  cases r
  case within | exit =>
    rw [h, asm_accept, LayoutState.asm_mapAsm, Assembler.reachable_branch, reachable_withLabel,
      arrives]
    cases decided <;> rfl
  case leave | endFinally =>
    obtain ⟨s₁, -, rfl⟩ := h
    exact Assembler.reachable_mark hf

/-- Where control arrives, a jump is one instruction. -/
theorem size_of_ends_transfer (h : Ends (transfer env scope t) s u s')
    (arrives : s.asm.reachable = true) : s'.asm.code.size = s.asm.code.size + 1 := by
  obtain ⟨r, -, rfl⟩ := goTo_of_ends_transfer h
  have named : (s.withLabel t).2.asm.code = s.asm.code := (named_withLabel s t).code
  rw [if_pos arrives]
  -- Whatever else a jump notes, it writes one instruction.
  have written (asm : Assembler) (same : asm = (s.withLabel t).2.asm) (i : Instruction) :
      (asm.code.push i).size = s.asm.code.size + 1 := by
    rw [Array.size_push, same, named]
  cases r with
  | within =>
    rw [LayoutState.goTo, asm_pushFirst, LayoutState.asm_mapAsm, Assembler.code_branch]
    exact written _ rfl _
  | exit =>
    rw [LayoutState.goTo, LayoutState.asm_mapAsm, Assembler.code_branch]
    exact written _ (asm_accept _ t .exit) _
  | leave =>
    rw [LayoutState.goTo, LayoutState.asm_mapAsm, Assembler.code_branch]
    exact written _ (asm_accept _ t .leave) _
  | endFinally =>
    rw [LayoutState.goTo, LayoutState.asm_mapAsm, Assembler.code_emit]
    exact written _ rfl _

section Running

variable {σ : Type} {c : Setting σ} {f : Frame} {w : σ} {x : Slot} {base : List Slot}

/-- A frame in front of the last jump of a stage gets to a place: it is there, or the jump leads
there. -/
inductive Setting.Lands (c : Setting σ) (asm : Assembler) (f : Frame) (pc : Nat) : Prop
  | there : pc = f.pc → Lands c asm f pc
  | jumps {l : Label} : asm.Awaits f.pc l → c.final.PlacedAt l pc →
      c.body.step f = .running { f with pc } → Lands c asm f pc

theorem Setting.Lands.sweeps {asm : Assembler} {pc n : Nat} (h : c.Lands asm f pc) (lt : f.pc < n) :
    c.Sweeps n (.running f, w) (.running { f with pc }, w) := by
  cases h with
  | there same =>
    subst same
    exact .stays (Nat.le_of_lt lt)
  | jumps _ _ step => exact .step lt step

/-- **A jump brings a frame on the way to its block.** -/
theorem exists_headsFor (h : Ends (transfer env scope t) s u s') (ready : s.Ready)
    (sound : s.asm.Sound) (behind : s'.asm.Evolves c.final) (arrives : s.asm.reachable = true)
    (hpc : f.pc = s.asm.code.size) :
    ∃ pc, c.HeadsFor env.ranges scope s'.labels t pc ∧ c.Lands s'.asm f pc := by
  obtain ⟨r, hr, rfl⟩ := goTo_of_ends_transfer h
  rw [if_pos arrives] at behind ⊢
  have labeled : Extends .root [] s (s.withLabel t).2 := extends_withLabel ready t
  have known := label_withLabel ready t
  have name : ((s.withLabel t).2.goTo t (s.withLabel t).1 r).labels.lookup t =
      some (s.withLabel t).1 := by
    rw [labels_goTo]
    exact lookup_withLabel s t
  have reads {asm : Assembler} (step : (s.withLabel t).2.asm.Evolves asm)
      (behind : asm.Evolves c.final) : c.Reads asm :=
    .of_evolves sound (labeled.evolves.trans step) behind
  have here : f.pc = (s.withLabel t).2.asm.code.size := by
    rw [(named_withLabel s t).code, hpc]
  have lands {asm : Assembler} {pc : Nat}
      (jump : c.Reads ((s.withLabel t).2.asm.branch .always (s.withLabel t).1))
      (placed : c.final.PlacedAt (s.withLabel t).1 pc)
      (same : asm = (s.withLabel t).2.asm.branch .always (s.withLabel t).1) : c.Lands asm f pc := by
    obtain there | step := step_of_jump jump placed here
    · exact .there there
    · refine .jumps ?_ placed step
      rw [same, Assembler.Awaits, Assembler.fixups_branch, here]
      exact Array.mem_push_self
  cases r with
  | within =>
    rw [LayoutState.goTo, asm_pushFirst] at behind
    have jump := reads (.single (.branch known)) behind
    obtain ⟨pc, placed, -⟩ := jump.branch
    exact ⟨pc, .block hr (.inl rfl) name placed, lands jump placed (asm_pushFirst _ _)⟩
  | exit =>
    have jump := reads (.single (.branch known)) behind
    obtain ⟨pc, placed, -⟩ := jump.branch
    exact ⟨pc, .block hr (.inr rfl) name placed, lands jump placed rfl⟩
  | leave =>
    -- The `leave` stays where it is: the frame is in front of it without a step.
    have escaped : ((s.withLabel t).2.escape t).asm = (s.withLabel t).2.asm :=
      asm_accept _ t .leave
    rw [LayoutState.goTo, LayoutState.asm_mapAsm, escaped] at behind
    obtain ⟨n, placed, hi | ⟨other, -⟩⟩ := (reads (.single (.branch known)) behind).branch
    · exact ⟨_, .leave hr name placed hi, .there here.symm⟩
    · cases other
  | endFinally =>
    have ended := reads (.single (.emit (i := .endFinally) rfl)) behind
    exact ⟨_, .endFinally hr (ended.last rfl), .there here.symm⟩

/-- A jump that is skipped by the values that are not to take it. -/
theorem tests_of_skip {decided : Bool} {s₁ : LayoutState}
    (h : Ends (transfer env scope t) ((s.mapAsm (·.defineLabel.2)).mapAsm
      (·.branch (.deciding !decided) s.asm.labels.size)) () s₁)
    (ready : s.Ready) (sound : s.asm.Sound)
    (behind : (s₁.asm.mark s.asm.labels.size).Evolves c.final) (arrives : s.asm.reachable = true)
    (hpc : f.pc = s.asm.code.size) (hstack : f.stack = x :: base) :
    if x.toValue.truthy = decided then ∃ pc, c.HeadsFor env.ranges scope s₁.labels t pc ∧
      c.Sweeps s₁.asm.code.size (.running f, w) (.running { f with pc, stack := base }, w)
    else c.Climbs (.running f, w)
      (.running { f with pc := s₁.asm.code.size, stack := base }, w) := by
  have known : s.asm.labels.size < s.asm.defineLabel.2.labels.size := by
    rw [Assembler.labels_defineLabel]
    exact Nat.lt_succ_self _
  let front := s.asm.defineLabel.2.branch (.deciding !decided) s.asm.labels.size
  have size : front.labels.size = s.asm.labels.size + 1 :=
    Assembler.labels_branch.trans Assembler.labels_defineLabel
  have toFront : s.asm.Evolves front :=
    (Evolves.single .defineLabel).trans (.single (.branch known))
  have ready₁ : LayoutState.Ready ((s.mapAsm (·.defineLabel.2)).mapAsm
      (·.branch (.deciding !decided) s.asm.labels.size)) := fun b l hl =>
    Nat.lt_of_lt_of_eq (Nat.lt_succ_of_lt (ready b l hl)) size.symm
  have jumped := (extends_of_ends_transfer ready₁ (List.mem_singleton_self t) h).1.evolves
  have known₁ : s.asm.labels.size < s₁.asm.labels.size :=
    Nat.lt_of_lt_of_le (Nat.lt_of_lt_of_eq (Nat.lt_succ_self _) size.symm) jumped.labels_le
  have toMark : s₁.asm.Evolves (s₁.asm.mark s.asm.labels.size) := .single (.mark known₁)
  have branch : c.Reads front := .of_evolves sound toFront (jumped.trans (toMark.trans behind))
  have marked : c.Reads (s₁.asm.mark s.asm.labels.size) :=
    .of_evolves branch.sound (jumped.trans toMark) behind
  -- The test skips the jump if the value is not as asked, for the branch is the opposite one.
  have test := sweeps_test (s := w) branch (marked.placed known₁) hpc hstack
  split
  case isTrue taken =>
    -- The skip is not taken, so control reaches the jump.
    rw [if_neg (by rw [taken]; cases decided <;> decide)] at test
    have arrives₁ : front.reachable = true := by
      rw [Assembler.reachable_branch]
      show (s.asm.reachable && _) = true
      rw [arrives]
      cases decided <;> rfl
    have next : s.asm.code.size + 1 = front.code.size := by
      rw [Assembler.code_branch, Array.size_push]
      rfl
    obtain ⟨pc, heads, lands⟩ := exists_headsFor
      (f := { f with pc := s.asm.code.size + 1, stack := base }) h ready₁ branch.sound
      (toMark.trans behind) arrives₁ next
    have lt : s.asm.code.size + 1 < s₁.asm.code.size := by
      rw [size_of_ends_transfer h arrives₁]
      exact next ▸ Nat.lt_succ_self _
    exact ⟨pc, heads, .behind (test.climbs (Nat.le_refl _)) (lands.sweeps lt)⟩
  case isFalse passed =>
    rw [if_pos (by revert passed; cases decided <;> cases x.toValue.truthy <;> decide)] at test
    exact test.climbs (by simpa [front] using (jumped_of_ends_transfer h).size_le)

/-- **A conditional jump** takes a value from the stack and brings a frame on the way to its block
if the value is as truthy as asked, else behind the jump. -/
theorem tests_of_ends_transferIf {decided : Bool}
    (h : Ends (transferIf env scope (.deciding decided) t) s u s') (ready : s.Ready)
    (sound : s.asm.Sound) (behind : s'.asm.Evolves c.final) (arrives : s.asm.reachable = true)
    (hpc : f.pc = s.asm.code.size) (hstack : f.stack = x :: base) :
    if x.toValue.truthy = decided then ∃ pc, c.HeadsFor env.ranges scope s'.labels t pc ∧
      c.Sweeps s'.asm.code.size (.running f, w) (.running { f with pc, stack := base }, w)
    else c.Climbs (.running f, w)
      (.running { f with pc := s'.asm.code.size, stack := base }, w) := by
  have whole := (extends_of_ends_transferIf ready (List.mem_singleton_self t) h).1.evolves
  have fault := (whole.trans behind).fault (Assembler.finish_cases c.finished).1
  obtain ⟨r, hr, h⟩ := branch_of_ends_transferIf h
  have labeled : Extends .root [] s (s.withLabel t).2 := extends_withLabel ready t
  have known := label_withLabel ready t
  have named := named_withLabel s t
  have here : f.pc = (s.withLabel t).2.asm.code.size := by rw [named.code, hpc]
  cases r
  case within | exit =>
    -- The branch leads to the block itself.
    subst h
    rw [asm_accept, LayoutState.asm_mapAsm] at behind
    have branch := Setting.Reads.of_evolves sound (labeled.evolves.trans (.single (.branch known)))
      behind
    obtain ⟨pc, placed, -⟩ := branch.branch
    have test := sweeps_test (s := w) branch placed here hstack
    split
    case isTrue taken =>
      rw [if_pos taken] at test
      refine ⟨pc, .block hr (by simp) ?_ placed, test.mono (by simp [asm_accept])⟩
      rw [labels_accept]
      exact lookup_withLabel s t
    case isFalse passed =>
      rw [if_neg passed] at test
      simpa [asm_accept] using test.climbs (Nat.le_refl _)
  case leave | endFinally =>
    -- A way out of a scope cannot be conditional. The opposite branch skips it.
    obtain ⟨s₁, htransfer, rfl⟩ := h
    rw [BranchKind.negate_deciding] at htransfer
    have sound := named.sound ((fault_withLabel s t).trans fault) sound
    have skipped := tests_of_skip (w := w) htransfer labeled.ready sound behind
      ((reachable_withLabel s t).trans arrives) here hstack
    rw [LayoutState.asm_mapAsm, Assembler.code_mark]
    exact skipped

end Running

end Jumps

/-! ## Code with several ways out -/

section Arrives

variable {σ α β : Type} {c : Setting σ} {a b : Assembler} {base : List Slot} {past : Nat}
  {out : β → Nat → Prop} {m : Eval σ α} {k : α → Eval σ β} {post : α → List Slot} {f : Frame}
  {vars : Vars} {s : σ}

/-- What code with several ways out comes to, for a frame in front of it with some values on the
stack: with these values where the value of a computation says, at an error in the code, or at a
request that is never answered. -/
inductive Arrives (c : Setting σ) (a : Assembler) (past : Nat) (base : List Slot)
    (out : β → Nat → Prop) (f : Frame) (s : σ) : Option (Except DispatchError β × Vars × σ) → Prop
  | ends {x vars s' g} : c.Sweeps past (.running f, s) (.running g, s') → out x g.pc → g.stack = base →
      g.Agrees c.final.slots vars → f.Beside a.slots c.final.slots g →
      Arrives c a past base out f s (some (.ok x, vars, s'))
  | fails {e vars s' g} : c.Sweeps past (.running f, s) (c.body.raise g e, s') → a.code.size ≤ g.pc →
      g.pc < past → g.Agrees c.final.slots vars → f.Beside a.slots c.final.slots g →
      Arrives c a past base out f s (some (.error e, vars, s'))
  | waits {r g s'} : c.Climbs (.running f, s) (.asking r g, s') → (c.world r).run.run s' = none →
      Arrives c a past base out f s none

/-- In front of the code, steps that bring the frame there. -/
theorem Arrives.behind {g : Frame} {s' : σ} {r : Option (Except DispatchError β × Vars × σ)}
    (reach : c.Climbs (.running f, s) (.running g, s')) (ha : Leads a b)
    (beside : f.Beside a.slots c.final.slots g) (h : Arrives c b past base out g s' r) :
    Arrives c a past base out f s r := by
  have onward {g' : Frame} (hg : g.Beside b.slots c.final.slots g') :
      f.Beside a.slots c.final.slots g' :=
    beside.trans hg ha.within ha.held
  cases h with
  | ends reach' at_ hstack hvars beside' =>
    exact .ends (.behind reach reach') at_ hstack hvars (onward beside')
  | fails reach' hle hlt hvars beside' =>
    exact .fails (.behind reach reach') (Nat.le_trans ha.size_le hle) hlt hvars (onward beside')
  | waits reach' hnone => exact .waits (reach.trans reach') hnone

/-- Behind a stretch of code that follows a computation, code with several ways out. -/
theorem Comes.arrives {low : List Slot} (h : Comes c a b low post f s (m.outcome vars s))
    (ha : Leads a b) (hb : b.code.size ≤ past)
    (h' : ∀ {x vars' s' g}, m.outcome vars s = some (.ok x, vars', s') → g.pc = b.code.size →
      g.stack = post x ++ low → g.Agrees c.final.slots vars' → f.Beside a.slots c.final.slots g →
      Arrives c b past base out g s' ((k x).outcome vars' s')) :
    Arrives c a past base out f s ((m >>= k).outcome vars s) := by
  rw [Eval.outcome_bind]
  revert h h'
  cases m.outcome vars s with
  | none =>
    intro h _
    cases h with
    | waits reach hnone => exact .waits reach hnone
  | some r =>
    obtain ⟨e | x, vars', s'⟩ := r
    · intro h _
      cases h with
      | fails reach hle hlt hvars' beside =>
        exact .fails (reach.mono hb) hle (Nat.lt_of_lt_of_le hlt hb) hvars' beside
    · intro h h'
      cases h with
      | ends reach hpc hstack hvars' beside =>
        exact .behind reach ha beside (h' rfl hpc hstack hvars' beside)

/-- Behind a stretch of code with several ways out, further code at its end. -/
theorem Arrives.bind {mid : Nat} {out' : α → Nat → Prop}
    (h : Arrives c a mid base out' f s (m.outcome vars s)) (hle : mid ≤ past)
    (h' : ∀ {x vars' s' g}, out' x g.pc → g.stack = base → g.Agrees c.final.slots vars' →
      (∃ y, k x = pure y ∧ out y g.pc) ∨
        mid ≤ g.pc ∧ Arrives c a past base out g s' ((k x).outcome vars' s')) :
    Arrives c a past base out f s ((m >>= k).outcome vars s) := by
  rw [Eval.outcome_bind]
  revert h h'
  generalize m.outcome vars s = r
  intro h h'
  cases h with
  | @ends x vars' s' g reach at_ hstack hvars beside =>
    dsimp only
    obtain ⟨y, done, out⟩ | ⟨ahead, further⟩ := @h' x vars' s' g at_ hstack hvars
    · rw [done, Eval.outcome_pure]
      exact .ends (reach.mono hle) out hstack hvars beside
    · exact .behind (reach.climbs ahead) (.refl a) beside further
  | fails reach hle' hlt hvars beside =>
    exact .fails (reach.mono hle) hle' (Nat.lt_of_lt_of_le hlt hle) hvars beside
  | waits reach hnone => exact .waits reach hnone

end Arrives

end StackScript
