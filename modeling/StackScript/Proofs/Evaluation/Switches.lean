import StackScript.Proofs.Evaluation.Jumps
import StackScript.Proofs.Layout.Blocks

/-!
# Switches go where they are meant to go

The subject of a switch is evaluated once. Its cases are evaluated in order, as far as one whose
value is loosely equal to the subject: control goes on at the block of that case, else at that of
the default, else behind the switch.

## Main definitions

* `Eval.pick`, `switchMeaning`: where a switch goes on

## Main results

* `Eval.pick_append`: the cases behind others are considered if none of those is taken
* `arrives_of_ends_placeCases`, `arrives_of_ends_switch`: the code of a switch follows its meaning
-/

namespace StackScript

open Emit Arrange
open Assembler (Evolves)

/-! ## What a switch means -/

namespace Eval

variable {σ : Type}

/-- The target of the first case whose value is loosely equal to the subject. The cases behind it
are not evaluated. -/
def pick (subject : Value) : List (Eval σ Slot × BlockId) → Eval σ (Option BlockId)
  | [] => return none
  | (value, target) :: rest => do
    let x ← value
    if subject.looselyEqual x.toValue then return some target else pick subject rest

/-- The target of the first case that is taken, or another block if none is. -/
def pickOr (other : BlockId) (subject : Value) (cases : List (Eval σ Slot × BlockId)) :
    Eval σ BlockId :=
  return (← pick subject cases).getD other

theorem pick_append (subject : Value) (cases others : List (Eval σ Slot × BlockId)) :
    pick subject (cases ++ others) = pick subject cases >>= fun
      | some target => pure (some target)
      | none => pick subject others := by
  induction cases with
  | nil => rw [List.nil_append, pick, pure_bind]
  | cons case rest ih =>
    rw [List.cons_append, pick, pick, bind_assoc]
    congr 1
    funext x
    split
    · rw [pure_bind]
    · exact ih

theorem pickOr_cons (other : BlockId) (subject : Value) (value : Eval σ Slot) (target : BlockId)
    (rest : List (Eval σ Slot × BlockId)) :
    pickOr other subject ((value, target) :: rest) = value >>= fun x =>
      if subject.looselyEqual x.toValue then pure target else pickOr other subject rest := by
  rw [pickOr, pick, bind_assoc]
  congr 1
  funext x
  split
  · rw [pure_bind, Option.getD_some]
  · rfl

theorem pickOr_append (other : BlockId) (subject : Value)
    (cases others : List (Eval σ Slot × BlockId)) :
    pickOr other subject (cases ++ others) = pick subject cases >>= fun
      | some target => pure target
      | none => pickOr other subject others := by
  rw [pickOr, pick_append, bind_assoc]
  congr 1
  funext target
  cases target with
  | some target => rw [pure_bind, Option.getD_some]
  | none => rfl

end Eval

section Meaning

variable {σ : Type} (world : World σ) (env : BodyEnv)

/-- The values of the cases of a switch with their targets. The default has no value. -/
def meaningCases : List SwitchCase → Numbered (List (Eval σ Slot × BlockId))
  | [] => return []
  | c :: rest =>
    match c.value with
    | none => meaningCases rest
    | some value => do
      let value ← value.meaning world env
      return (value, c.target) :: (← meaningCases rest)

/-- Where a switch goes on. -/
def switchMeaning (subject : Expr) (cases : List SwitchCase) (next : BlockId) :
    Numbered (Eval σ BlockId) := do
  let value ← subject.meaning world env
  let values ← meaningCases world env cases
  return do
    let x ← value
    Eval.pickOr ((defaultTarget? cases).getD next) x.toValue values

theorem runFrom_switchMeaning (subject : Expr) (cases : List SwitchCase) (next : BlockId)
    (n : SiteId) :
    ((switchMeaning world env subject cases next).runFrom n).1 =
      let value := (subject.meaning world env).runFrom n
      value.1 >>= fun x => Eval.pickOr ((defaultTarget? cases).getD next) x.toValue
        ((meaningCases world env cases).runFrom value.2).1 := rfl

theorem meaningCases_append (before after : List SwitchCase) (n : SiteId) :
    (meaningCases world env (before ++ after)).runFrom n =
      let first := (meaningCases world env before).runFrom n
      let rest := (meaningCases world env after).runFrom first.2
      (first.1 ++ rest.1, rest.2) := by
  induction before generalizing n with
  | nil => rfl
  | cons case before ih =>
    rw [List.cons_append, meaningCases, meaningCases]
    cases case.value with
    | none => exact ih n
    | some value =>
      simp only [Numbered.runFrom_bind, Numbered.runFrom_pure, ih]
      rfl

end Meaning

/-! ## Cases -/

section Comparisons

variable {σ : Type} {c : Setting σ} {env : BodyEnv} {subject : LocalId} {value : Expr}
  {d d' : Draft}

theorem comes_of_compareCase {f : Frame} {x : Slot} {vars : Vars} {w : σ}
    (h : Ends (compareCase env subject value) d () d') (sound : d.asm.Sound)
    (slots : d.asm.slots.Sound) (behind : d'.asm.Evolves c.final) (hpc : f.pc = d.asm.code.size)
    (hvars : f.Agrees c.final.slots vars) (hx : f.locals[subject]? = some x) :
    Comes c d.asm d'.asm f.stack (fun y => [y]) f w
      ((((value.meaning c.world env).runFrom d.nextSite).1 >>= fun y =>
        pure (Slot.value (BinaryOp.eq.apply x.toValue y.toValue))).outcome vars w) := by
  obtain ⟨_, e, load, rest⟩ := ends_bind.mp h
  obtain rfl := ends_emit.mp load
  have compared : Means c (1 + -1) (emitValue env value >>= fun _ => emit (.binary .eq)) [x]
      (fun n => ((value.meaning c.world env).runFrom n).1 >>= fun y =>
        pure (Slot.value (BinaryOp.eq.apply x.toValue y.toValue)))
      (fun n => ((value.meaning c.world env).runFrom n).2) fun z => [z] :=
    ((means_lower value).value [x]).bind fun _ y => means_operator .eq x y
  let front : Draft := ⟨d.asm.emit (.loadLocal subject), d.nextSite⟩
  have slots : front.asm.slots.Sound := by
    show (d.asm.emit _).slots.Sound
    rwa [Assembler.slots_emit]
  have grows := compared.emits.grows slots rest
  have loaded : c.Reads (d.asm.emit (.loadLocal subject)) :=
    .of_evolves sound (.single (.emit rfl)) (grows.evolves.trans behind)
  have follows := compared.follows front () d' loaded.sound slots rest behind
  have load : Leads d.asm front.asm := leads_emit
  refine .behind (climbs_loadLocal loaded hpc hx) load (.congr (.refl _ _) rfl rfl rfl) ?_
  exact follows.comes _ f.stack vars w (by simp [front, hpc]) rfl (hvars.congr rfl rfl rfl)

theorem nextSite_of_compareCase (c : Setting σ) (h : Ends (compareCase env subject value) d () d') :
    d'.nextSite = ((value.meaning c.world env).runFrom d.nextSite).2 := by
  simp only [compareCase, ends_bind, ends_emit] at h
  obtain ⟨_, _, rfl, _, d₁, middle, rfl⟩ := h
  have pushed : Pushes c (emitValue env value) (value.meaning c.world env) :=
    (means_lower value).value
  exact (pushed []).numbers ⟨d.asm.emit (.loadLocal subject), d.nextSite⟩ _ d₁ middle

theorem onward_compareCase : Onward (compareCase env subject value) := by
  have emitted {i : Instruction} (stays : i.isTransfer = false) : Onward (emit i) := .emit stays
  exact (emitted rfl).bind fun _ => (onward_emitValue value).bind fun _ => emitted rfl

end Comparisons

section Cases

variable {σ : Type} {c : Setting σ} {env : LayoutEnv} {scope : Scope} {s s' : LayoutState}
  {u : PUnit} {subject : LocalId} {cases : List SwitchCase}

/-- A layout in front of the cases of a switch whose subject is in a slot. -/
structure LayoutState.Poised (s : LayoutState) (subject : LocalId) : Prop where
  ready : s.Ready
  sound : s.asm.Sound
  slots : s.asm.slots.Sound
  kept : ∃ slot, s.asm.slots.slots[subject]? = some slot ∧ slot.role = .scratch
  held : s.asm.slots.Held subject
  arrives : s.asm.reachable = true

theorem LayoutState.Poised.hasLocal (h : s.Poised subject) : s.asm.HasLocal subject := by
  obtain ⟨slot, hslot, hrole⟩ := h.kept
  exact ⟨slot, hslot, by rw [hrole]; decide⟩

/-- Between two cases of a switch, and from the first to behind the last. -/
structure LayoutState.Proceeded (s s' : LayoutState) (subject : LocalId) : Prop where
  poised : s'.Poised subject
  leads : Leads s.asm s'.asm
  evolves : s.asm.Evolves s'.asm
  labels : ∀ b l, s.labels.lookup b = some l → s'.labels.lookup b = some l

theorem LayoutState.Proceeded.trans {s₁ : LayoutState} (h : s.Proceeded s₁ subject)
    (h' : s₁.Proceeded s' subject) : s.Proceeded s' subject :=
  ⟨h'.poised, h.leads.trans h'.leads, h.evolves.trans h'.evolves,
    fun b l hl => h'.labels b l (h.labels b l hl)⟩

section Case

variable {value : Expr} {t : BlockId} {d : Draft} {s₁ : LayoutState} (poised : s.Poised subject)
  (hcompare : Ends (compareCase env.body subject value) s.draft () d)
  (hjump : Ends (transferIf env scope .ifTrue t) { s with draft := d } () s₁)

include poised hcompare hjump

theorem extends_of_ends_case : Extends scope [t] s s₁ := by
  have grows := grows_of_ends_compareCase poised.slots poised.hasLocal hcompare
  have written : Extends scope [t] s { s with draft := d } :=
    extends_code poised.ready grows.evolves
  exact written.trans
    (extends_of_ends_transferIf written.ready (List.mem_singleton_self t) hjump).1

/-- The comparison of a case, and the jump to its block. -/
theorem proceeded_of_ends_case (hf : s₁.asm.fault = none) :
    s.Proceeded { s with draft := d } subject ∧ s.Proceeded s₁ subject := by
  have grows := grows_of_ends_compareCase poised.slots poised.hasLocal hcompare
  have written : Extends scope [t] s { s with draft := d } :=
    extends_code poised.ready grows.evolves
  obtain ⟨jumped, -⟩ := extends_of_ends_transferIf written.ready (List.mem_singleton_self t) hjump
  have extended := written.trans jumped
  have leads : Leads s.asm s₁.asm := grows.leads.trans (jumped_of_ends_transferIf hjump).leads
  have kept {s' : LayoutState} (leads : Leads s.asm s'.asm) :
      ∃ slot, s'.asm.slots.slots[subject]? = some slot ∧ slot.role = .scratch := by
    obtain ⟨slot, hslot, hrole⟩ := poised.kept
    exact ⟨slot, leads.within _ _ hslot, hrole⟩
  have fault : d.asm.fault = none := jumped.evolves.fault hf
  have arrives : ({ s with draft := d } : LayoutState).asm.reachable = true :=
    (onward_compareCase _ _ _ hcompare fault).2 poised.arrives
  refine ⟨⟨⟨written.ready, written.evolves.sound poised.sound fault, grows.sound poised.slots,
    kept grows.leads, grows.held _ poised.held, arrives⟩, grows.leads, grows.evolves,
    written.labels⟩, ⟨?_, leads, extended.evolves, extended.labels⟩⟩
  exact ⟨extended.ready, extended.evolves.sound poised.sound hf,
    extended.evolves.slots_sound poised.slots, kept leads, leads.held _ poised.held,
    reachable_of_ends_transferIf true arrives hjump hf⟩

/-- Where the cases behind a case are written without a fault, the case is. -/
theorem fault_of_ends_case {rest : List SwitchCase}
    (hrest : Ends (placeCases env scope subject rest) s₁ u s') (hf : s'.asm.fault = none) :
    s₁.asm.fault = none := by
  have extended := extends_of_ends_case poised hcompare hjump
  have hasLocal : s₁.asm.HasLocal subject := by
    obtain ⟨slot, hslot, hrole⟩ := poised.hasLocal
    exact ⟨slot, extended.evolves.slots_within _ _ hslot, hrole⟩
  have others : Extends scope (rest.map (·.target)) s₁ s' :=
    (extends_of_ends_placeCases extended.ready (extended.evolves.slots_sound poised.slots) hasLocal
      (fun c mem => List.mem_map_of_mem mem) hrest).1
  exact others.evolves.fault hf

end Case

theorem proceeded_of_ends_placeCases (poised : s.Poised subject)
    (h : Ends (placeCases env scope subject cases) s u s') (hf : s'.asm.fault = none) :
    s.Proceeded s' subject := by
  induction cases generalizing s with
  | nil =>
    obtain ⟨-, rfl⟩ := ends_pure.mp h
    exact ⟨poised, .refl _, .refl _, fun _ _ => id⟩
  | cons case rest ih =>
    cases hv : case.value with
    | none =>
      simp only [placeCases, hv] at h
      exact ih poised h
    | some value =>
      obtain ⟨d, s₁, hcompare, hjump, hrest⟩ := case_of_ends_placeCases hv h
      have fault := fault_of_ends_case poised hcompare hjump hrest hf
      obtain ⟨-, first⟩ := proceeded_of_ends_case poised hcompare hjump fault
      exact first.trans (ih first.poised hrest)

/-- The ways out of the cases of a switch. -/
def Setting.CaseExit (c : Setting σ) (ranges : List BlockRange) (scope : Scope)
    (labels : List (BlockId × Label)) (past : Nat) : Option BlockId → Nat → Prop
  | some b, pc => c.HeadsFor ranges scope labels b pc
  | none, pc => pc = past

/-- **The code of cases** follows their meaning: it comes to the block of the first case whose value
is loosely equal to the subject, or behind the cases. -/
theorem arrives_of_ends_placeCases {f : Frame} {x : Slot} {vars : Vars} {w : σ}
    (poised : s.Poised subject) (h : Ends (placeCases env scope subject cases) s u s')
    (behind : s'.asm.Evolves c.final) (hpc : f.pc = s.asm.code.size)
    (hvars : f.Agrees c.final.slots vars) (hx : f.locals[subject]? = some x) :
    Arrives c s.asm s'.asm.code.size f.stack
      (c.CaseExit env.ranges scope s'.labels s'.asm.code.size) f w
      ((Eval.pick x.toValue ((meaningCases c.world env.body cases).runFrom
        s.draft.nextSite).1).outcome vars w) := by
  have fault : s'.asm.fault = none := behind.fault (Assembler.finish_cases c.finished).1
  induction cases generalizing s f vars w with
  | nil =>
    obtain ⟨-, rfl⟩ := ends_pure.mp h
    exact .ends (.stays (Nat.le_of_eq hpc)) hpc rfl hvars (.refl _ f)
  | cons case rest ih =>
    cases hv : case.value with
    | none =>
      simp only [placeCases, hv] at h
      rw [meaningCases, hv]
      exact ih poised h hpc hvars hx
    | some value =>
      obtain ⟨d, s₁, hcompare, hjump, hrest⟩ := case_of_ends_placeCases hv h
      have fault₁ := fault_of_ends_case poised hcompare hjump hrest fault
      obtain ⟨compared, first⟩ := proceeded_of_ends_case poised hcompare hjump fault₁
      have others := proceeded_of_ends_placeCases first.poised hrest fault
      have jumped := jumped_of_ends_transferIf hjump
      obtain ⟨extended, -⟩ :=
        extends_of_ends_transferIf compared.poised.ready (List.mem_singleton_self _) hjump
      have toRest : d.asm.Evolves s₁.asm := extended.evolves
      have behind₁ := others.evolves.trans behind
      have meant : Eval.pick x.toValue ((meaningCases c.world env.body (case :: rest)).runFrom
            s.draft.nextSite).1 =
          ((((value.meaning c.world env.body).runFrom s.draft.nextSite).1 >>= fun y =>
            pure (Slot.value (BinaryOp.eq.apply x.toValue y.toValue))) >>= fun z =>
            if z.toValue.truthy then pure (some case.target)
            else Eval.pick x.toValue
              ((meaningCases c.world env.body rest).runFrom s₁.draft.nextSite).1) := by
        rw [meaningCases, hv, jumped.nextSite, nextSite_of_compareCase c hcompare, bind_assoc]
        simp only [pure_bind]
        rfl
      rw [meant]
      refine (comes_of_compareCase hcompare poised.sound poised.slots (toRest.trans behind₁) hpc
        hvars hx).arrives compared.leads (jumped.leads.trans others.leads).size_le ?_
      intro z vars₁ w₁ g _ hpc₁ hstack₁ hvars₁ beside₁
      have jump : Ends (transferIf env scope (.deciding true) case.target)
        { s with draft := d } () s₁ := hjump
      have test := tests_of_ends_transferIf (w := w₁) jump compared.poised.ready
        compared.poised.sound behind₁ compared.poised.arrives hpc₁ hstack₁
      by_cases taken : z.toValue.truthy = true
      · rw [if_pos taken] at test ⊢
        obtain ⟨pc, heads, reach⟩ := test
        exact .ends (reach.mono others.leads.size_le) (heads.mono others.labels) rfl
          (hvars₁.congr rfl rfl rfl) (.congr (.refl _ g) rfl rfl rfl)
      · rw [if_neg taken] at test ⊢
        -- The slot of the subject is in use, so the value is still there.
        obtain ⟨slot, hslot, hrole⟩ := poised.kept
        have hx₁ : g.locals[subject]? = some x :=
          (beside₁.held subject slot hslot (by rw [hrole]; decide) poised.held).trans hx
        let onward : Frame := { g with pc := s₁.asm.code.size, stack := f.stack }
        have others := ih (f := onward) (w := w₁) first.poised hrest rfl
          (hvars₁.congr rfl rfl rfl) hx₁
        exact .behind test jumped.leads (.congr (.refl _ g) rfl rfl rfl) others

end Cases

/-! ## Switches -/

section Subjects

variable {env : BodyEnv} {subject : Expr} {a : Assembler} {d d' : Draft} {id : LocalId}

theorem leads_stow : Leads a a.stow where
  size_le := by simp
  within := by simpa using (Slots.Serve.scratch _).within
  held id hid := by simpa using Slots.held_scratch hid

/-- A layout in front of a switch. -/
structure LayoutState.Open (s : LayoutState) : Prop where
  ready : s.Ready
  sound : s.asm.Sound
  slots : s.asm.slots.Sound
  arrives : s.asm.reachable = true

section Written

variable {s : LayoutState} (opened : s.Open) (hvalue : Ends (emitValue env subject) s.draft () d)

include opened hvalue

theorem stowed_evolves : s.asm.Evolves (s.stowed d).asm :=
  ((emits_emitValue subject).grows opened.slots hvalue).evolves.trans evolves_stow

/-- In front of the first case, the subject is in its slot. -/
theorem poised_of_ends_emitValue (hf : (s.stowed d).asm.fault = none) :
    (s.stowed d).Poised d.asm.slots.scratch.1 := by
  have slots := ((emits_emitValue subject).grows opened.slots hvalue).sound opened.slots
  have evolves := stowed_evolves opened hvalue
  have extended : Extends .root [] s (s.stowed d) := extends_code opened.ready evolves
  refine ⟨extended.ready, evolves.sound opened.sound hf, evolves.slots_sound opened.slots, ?_, ?_,
    ?_⟩
  · show ∃ slot, d.asm.stow.slots.slots[_]? = _ ∧ _
    rw [slots_stow]
    exact Slots.slot_scratch slots
  · show d.asm.stow.slots.Held _
    rw [slots_stow]
    exact Slots.held_scratch_self slots
  · show d.asm.stow.reachable = true
    rw [reachable_stow]
    exact (onward_emitValue subject _ _ _ hvalue (evolves_stow.fault hf)).2 opened.arrives

end Written

end Subjects

section Switches

variable {σ : Type} {c : Setting σ} {env : LayoutEnv} {scope : Scope} {s s' : LayoutState}
  {u : PUnit} {subject : Expr} {cases : List SwitchCase} {next : BlockId}

section Parts

variable {d : Draft} {s₂ : LayoutState} (opened : s.Open)
  (hvalue : Ends (emitValue env.body subject) s.draft () d)
  (hcases : Ends (placeCases env scope d.asm.slots.scratch.1 cases) (s.stowed d) () s₂)

include opened hvalue hcases

theorem extends_of_ends_switch : Extends scope (cases.map (·.target)) (s.stowed d) s₂ := by
  have hd := ((emits_emitValue subject).grows opened.slots hvalue).sound opened.slots
  have stowed := stowed_evolves opened hvalue
  have written : Extends scope [] s (s.stowed d) := extends_code opened.ready stowed
  exact (extends_of_ends_placeCases written.ready (stowed.slots_sound opened.slots)
    (hasLocal_stow hd) (fun _ mem => List.mem_map_of_mem mem) hcases).1

/-- The subject of a switch is in its slot in front of the cases, and still behind them. -/
theorem proceeded_of_ends_switch (hf : s₂.asm.fault = none) :
    (s.stowed d).Poised d.asm.slots.scratch.1 ∧
      (s.stowed d).Proceeded s₂ d.asm.slots.scratch.1 := by
  have compared := extends_of_ends_switch opened hvalue hcases
  have poised := poised_of_ends_emitValue opened hvalue (compared.evolves.fault hf)
  exact ⟨poised, proceeded_of_ends_placeCases poised hcases hf⟩

end Parts

section Other

variable {d : Draft} {s₂ s₃ : LayoutState} {f : Frame} {x : Slot} {base : List Slot} {vars : Vars}
  {w : σ} (opened : s.Open) (hvalue : Ends (emitValue env.body subject) s.draft () d)
  (hcases : Ends (placeCases env scope d.asm.slots.scratch.1 cases) (s.stowed d) () s₂)
  (hother : Ends (transfer env scope ((defaultTarget? cases).getD next))
    (s₂.freed d.asm.slots.scratch.1) () s₃)
  (behind : s₃.asm.Evolves c.final)

include opened hvalue hcases hother behind

/-- The cases are tried in finished code, and in front of the last jump the code is in order. -/
theorem stages_of_ends_switch :
    s₂.asm.Evolves c.final ∧ (s.stowed d).Poised d.asm.slots.scratch.1 ∧
      (s.stowed d).Proceeded s₂ d.asm.slots.scratch.1 ∧
      (s₂.freed d.asm.slots.scratch.1).Ready ∧ (s₂.freed d.asm.slots.scratch.1).asm.Sound := by
  have ready : (s₂.freed d.asm.slots.scratch.1).Ready :=
    (extends_of_ends_switch opened hvalue hcases).ready
  obtain ⟨jumped, -⟩ := extends_of_ends_transfer ready (List.mem_singleton_self _) hother
  have freed : s₂.asm.Evolves (s₂.freed d.asm.slots.scratch.1).asm := .single (.serve (.release _ _))
  have last := jumped.evolves.trans behind
  have fault := (Assembler.finish_cases c.finished).1
  obtain ⟨poised, proceeded⟩ :=
    proceeded_of_ends_switch opened hvalue hcases ((freed.trans last).fault fault)
  exact ⟨freed.trans last, poised, proceeded, ready,
    freed.sound proceeded.poised.sound (last.fault fault)⟩

/-- Behind the subject of a switch, its value is put into its slot, and the cases are tried. -/
theorem arrives_at_cases (hpc : f.pc = d.asm.code.size) (hstack : f.stack = x :: base)
    (hvars : f.Agrees c.final.slots vars) :
    Arrives c d.asm s₂.asm.code.size base
      (c.CaseExit env.ranges scope s₂.labels s₂.asm.code.size) f w
      ((Eval.pick x.toValue ((meaningCases c.world env.body cases).runFrom
        d.nextSite).1).outcome vars w) := by
  obtain ⟨behind₂, poised, proceeded, -⟩ :=
    stages_of_ends_switch opened hvalue hcases hother behind
  have hd := ((emits_emitValue subject).grows opened.slots hvalue).sound opened.slots
  have stow : c.Reads d.asm.stow := ⟨poised.sound, proceeded.evolves.trans behind₂⟩
  obtain ⟨g₁, reach, hpc₂, hstack₂, hvars₂, beside, hx⟩ :=
    exists_storeScratch (s := w) hd rfl stow hpc hstack hvars
  refine .behind reach leads_stow beside ?_
  have picked := arrives_of_ends_placeCases (w := w) poised hcases behind₂
    (by rw [hpc₂, hpc]; exact code_stow.symm) hvars₂ hx
  rwa [hstack₂] at picked

/-- Behind the cases, if none is taken, the last jump is. -/
theorem lands_behind_cases (hpc : f.pc = s₂.asm.code.size) :
    ∃ pc, c.HeadsFor env.ranges scope s₃.labels ((defaultTarget? cases).getD next) pc ∧
      c.Lands s₃.asm f pc := by
  obtain ⟨-, -, proceeded, ready, sound⟩ :=
    stages_of_ends_switch opened hvalue hcases hother behind
  exact exists_headsFor hother ready sound behind proceeded.poised.arrives hpc

omit behind in
theorem labels_of_ends_switch (b : BlockId) (l : Label) (named : s₂.labels.lookup b = some l) :
    s₃.labels.lookup b = some l := by
  have ready : (s₂.freed d.asm.slots.scratch.1).Ready :=
    (extends_of_ends_switch opened hvalue hcases).ready
  exact (extends_of_ends_transfer ready (List.mem_singleton_self _) hother).1.labels b l named

/-- Behind the subject of a switch, the cases are tried, and if none is taken the last jump is. -/
theorem arrives_behind_subject (hpc : f.pc = d.asm.code.size) (hstack : f.stack = x :: base)
    (hvars : f.Agrees c.final.slots vars) :
    Arrives c d.asm s₃.asm.code.size base (c.HeadsFor env.ranges scope s₃.labels) f w
      ((Eval.pickOr ((defaultTarget? cases).getD next) x.toValue
        ((meaningCases c.world env.body cases).runFrom d.nextSite).1).outcome vars w) := by
  have picked := arrives_at_cases (w := w) opened hvalue hcases hother behind hpc hstack hvars
  obtain ⟨-, -, proceeded, -⟩ := stages_of_ends_switch opened hvalue hcases hother behind
  have size : s₃.asm.code.size = s₂.asm.code.size + 1 :=
    size_of_ends_transfer (s := s₂.freed d.asm.slots.scratch.1) hother proceeded.poised.arrives
  have more := labels_of_ends_switch opened hvalue hcases hother
  rw [Eval.pickOr]
  refine picked.bind (size ▸ Nat.le_succ _) fun {t _ _ g₂} out hstack₃ hvars₃ => ?_
  cases t with
  | some b => exact .inl ⟨b, rfl, out.mono more⟩
  | none =>
    obtain ⟨pc, heads, lands⟩ :=
      lands_behind_cases (f := g₂) opened hvalue hcases hother behind out
    have lt : g₂.pc < s₃.asm.code.size := by rw [out, size]; exact Nat.lt_succ_self _
    exact .inr ⟨Nat.le_of_eq out.symm, .ends (lands.sweeps lt) heads hstack₃
      (hvars₃.congr rfl rfl rfl) (.congr (.refl _ g₂) rfl rfl rfl)⟩

end Other

/-- **The code of a switch** follows its meaning: it comes to the block where the switch goes on,
with the values on the stack that were there before. -/
theorem arrives_of_ends_switch {enter : Enter} {e : EdgeId} {number : UInt32}
    {source : BlockId} {f : Frame}
    {vars : Vars} {w : σ} (opened : s.Open)
    (h : Ends (placeEdge env enter scope e ⟨number, source, .switch subject cases next⟩) s u s')
    (behind : s'.asm.Evolves c.final) (hpc : f.pc = s.asm.code.size)
    (hvars : f.Agrees c.final.slots vars) :
    Arrives c s.asm s'.asm.code.size f.stack (c.HeadsFor env.ranges scope s'.labels) f w
      (((switchMeaning c.world env.body subject cases next).runFrom
        s.draft.nextSite).1.outcome vars w) := by
  obtain ⟨d, s₂, s₃, hvalue, hcases, hother, hnext⟩ := parts_of_ends_switch h
  obtain ⟨hdraft, hlabels⟩ := same_of_ends_enqueue hnext
  have hasm : s'.asm = s₃.asm := congrArg Draft.asm hdraft
  rw [hasm] at behind ⊢
  rw [hlabels]
  obtain ⟨behind₂, -, proceeded, -⟩ := stages_of_ends_switch opened hvalue hcases hother behind
  have size : s₂.asm.code.size ≤ s₃.asm.code.size := (jumped_of_ends_transfer hother).size_le
  have grows := (emits_emitValue subject).grows opened.slots hvalue
  have pushed : Pushes c (emitValue env.body subject) (subject.meaning c.world env.body) :=
    (means_lower subject).value
  have value := (pushed []).follows _ _ _ opened.sound opened.slots hvalue
    (evolves_stow.trans (proceeded.evolves.trans behind₂))
  rw [runFrom_switchMeaning]
  dsimp only
  rw [← (pushed []).numbers _ _ _ hvalue]
  refine (value.comes f f.stack vars w hpc rfl hvars).arrives grows.leads
    ((leads_stow.trans proceeded.leads).size_le.trans size) ?_
  intro x vars₁ w₁ g _ hpc₁ hstack₁ hvars₁ _
  exact arrives_behind_subject opened hvalue hcases hother behind hpc₁ hstack₁ hvars₁

end Switches

/-! ## Switches in finished code -/

/-- Finished code has a switch in it, written between two stages of its layout. -/
structure Setting.HasSwitch {σ : Type} (c : Setting σ) (env : LayoutEnv) (scope : Scope)
    (subject : Expr) (cases : List SwitchCase) (next : BlockId) (s s' : LayoutState) : Prop where
  ready : s.Ready
  written : Assembler.empty.Evolves s.asm
  compiled : ∃ enter e number source,
    Ends (placeEdge env enter scope e ⟨number, source, .switch subject cases next⟩) s () s'
  behind : s'.asm.Evolves c.final

section Finished

variable {σ : Type} {c : Setting σ} {env : LayoutEnv} {scope : Scope} {s s' : LayoutState}
  {subject : Expr} {cases : List SwitchCase} {next : BlockId}

/-- **A switch in finished code** follows its meaning, for every frame in front of it. -/
theorem Setting.HasSwitch.follows (code : c.HasSwitch env scope subject cases next s s')
    (arrives : s.asm.reachable = true) {f : Frame} (hpc : f.pc = s.asm.code.size)
    (hsize : f.locals.size = c.final.slots.slots.size) (w : σ) :
    Arrives c s.asm s'.asm.code.size f.stack (c.HeadsFor env.ranges scope s'.labels) f w
      (((switchMeaning c.world env.body subject cases next).runFrom s.draft.nextSite).1.outcome
        (f.vars c.final.slots) w) := by
  obtain ⟨enter, e, number, source, compiled⟩ := code.compiled
  have slots : s.asm.slots.Sound := code.written.slots_sound Slots.sound_empty
  have ended := (extends_of_ends_placeEdge code.ready slots rfl compiled).1
  have fault : s.asm.fault = none :=
    (ended.evolves.trans code.behind).fault (Assembler.finish_cases c.finished).1
  have sound : s.asm.Sound := code.written.sound Assembler.sound_empty fault
  exact arrives_of_ends_switch ⟨code.ready, sound, slots, arrives⟩ compiled code.behind hpc
    (f.agrees_vars c.slots hsize)

/-- Control arrives at the edge of a block whose statements throw nothing of their own. -/
theorem reachable_of_ends_placeStatements {b : BlockId} {block : Block} {s₁ : LayoutState}
    (h : Ends (placeStatements env b) (s.beginBlock b) () s₁)
    (found : env.graph.blocks[b]? = some block)
    (goesOn : ∀ statement ∈ block.statements, statement.action.goesOn = true)
    (hf : s₁.asm.fault = none) : s₁.asm.reachable = true := by
  obtain ⟨block', d, found', statements, -, rfl⟩ := ends_placeStatements h
  obtain rfl : block' = block := Option.some.inj (found'.symm.trans found)
  obtain ⟨fault, arrives⟩ := onward_emitStatements goesOn _ _ _ statements hf
  refine arrives ?_
  obtain ⟨l, s₁, -, same⟩ := beginBlock_cases s b
  rw [same] at fault ⊢
  exact Assembler.reachable_mark fault

variable {body : BodyEnv} {graph : Graph} {draft : Draft} {layout : Layout} {b : BlockId}
  {e : EdgeId} {number : UInt32} {source : BlockId} {steps : List BuildStep}

/-- **The switches of a layout** are in its code, each behind the statements of its block, and
control arrives there unless one of these throws. Control on the way to a block is at the offset
that is listed for the block, or at the instruction that goes there, or at the end of a `finally`
handler. -/
theorem hasSwitch_of_layOut (hg : Graph.build steps = .ok graph)
    (hdraft : Assembler.Evolves .empty draft.asm) (h : (layOut body graph draft).1 = .ok layout)
    (final : c.final = (layOut body graph draft).2.asm)
    (placed : b ∈ layout.blockOffsets.map (·.1))
    (ends : graph.EndsBlock b e ⟨number, source, .switch subject cases next⟩) :
    ∃ scope start s s',
      c.HasSwitch ⟨body, graph, protectedRanges graph⟩ scope subject cases next s s' ∧
      Ends (placeStatements ⟨body, graph, protectedRanges graph⟩ b)
        (LayoutState.beginBlock start b) () s ∧
      (∀ block, graph.blocks[b]? = some block →
        (∀ statement ∈ block.statements, statement.action.goesOn = true) →
          s.asm.reachable = true) ∧
      ∀ t pc o, c.HeadsFor (protectedRanges graph) scope s'.labels t pc →
        (t, o) ∈ layout.blockOffsets →
        pc = o ∨ c.body.code[pc]? = some (.leave o) ∨ c.body.code[pc]? = some .endFinally := by
  obtain ⟨last, same, -, ⟨path, enter, start, s, s', toStart, statements, ended, rest⟩, offsets⟩ :=
    writesBlock_of_layOut hg hdraft h placed ends rfl
  have front := (continues_head toStart.ready toStart.slots statements).1
  have final : c.final = last.asm := final.trans (congrArg Draft.asm same)
  have behind : s'.asm.Evolves c.final := final ▸ rest.evolves
  have slots : s.asm.slots.Sound := front.slots
  have fault : s.asm.fault = none :=
    ((extends_of_ends_placeEdge front.ready slots rfl ended).1.evolves.trans behind).fault
      (Assembler.finish_cases c.finished).1
  refine ⟨scopeOf path, start, s, s', ⟨front.ready, hdraft.trans (toStart.trans front).evolves,
    ⟨enter, e, number, source, ended⟩, behind⟩, statements, fun block found goesOn =>
      reachable_of_ends_placeStatements statements found goesOn fault,
    fun t pc o heads listed => ?_⟩
  -- A label has one place. So a label of a block that is named behind the switch is where the
  -- layout lists the block.
  have at_ {l n} (named : s'.labels.lookup t = some l) (put : c.final.PlacedAt l n) : n = o :=
    put.unique (final ▸ offsets t o l listed (rest.labels t l named))
  cases heads with
  | block _ _ named put => exact .inl (at_ named put)
  | leave _ named put hi => exact .inr (.inl (at_ named put ▸ hi))
  | endFinally _ hi => exact .inr (.inr hi)

/-- Finished code, in a world. -/
theorem exists_setting_of_layOut (world : World σ) (hdraft : Assembler.Evolves .empty draft.asm)
    (h : (layOut body graph draft).1 = .ok layout) :
    ∃ c : Setting σ, c.world = world ∧ c.final = (layOut body graph draft).2.asm := by
  obtain ⟨s, hends, hfinish, -⟩ := ends_of_layOut h
  obtain ⟨ready, slots, starts⟩ := begins_start hdraft
  refine ⟨{
    world
    body := ⟨.function ⟨"f"⟩, .routine, [], true, true, "f", layout.assembled.code, [], [], 0, #[],
      [], []⟩
    final := s.asm
    out := layout.assembled
    maxLocals := body.settings.maxLocals
    written := hdraft.trans (continues_of_ends_placeAll ready slots starts hends).evolves
    finished := hfinish
    code := rfl }, rfl, congrArg Draft.asm (draft_of_layOut hends).symm⟩

/-- A frame in front of a switch that is all of the first block. -/
theorem exists_frame_of_layOut (world : World σ) (hg : Graph.build steps = .ok graph)
    (laid : (layOut body graph (.start 0)).1.isOk = true)
    (found : graph.blocks[Graph.start]? = some ⟨0, [], some e⟩)
    (edge : graph.edges[e]? = some ⟨number, source, .switch subject cases next⟩) :
    ∃ (c : Setting σ) (scope : Scope) (s s' : LayoutState) (f : Frame), c.world = world ∧
      c.HasSwitch ⟨body, graph, protectedRanges graph⟩ scope subject cases next s s' ∧
      s.asm.reachable = true ∧ f.pc = s.asm.code.size ∧
      f.locals.size = c.final.slots.slots.size := by
  cases h : (layOut body graph (.start 0)).1 with
  | error =>
    rw [h] at laid
    cases laid
  | ok layout =>
    have hdraft : Assembler.Evolves .empty (Draft.start 0).asm := .refl _
    obtain ⟨c, hworld, final⟩ := exists_setting_of_layOut world hdraft h
    have ends : graph.EndsBlock Graph.start e ⟨number, source, .switch subject cases next⟩ :=
      ⟨by rw [found]; rfl, edge⟩
    obtain ⟨scope, -, s, s', code, -, arrives, -⟩ :=
      hasSwitch_of_layOut hg hdraft h final (start_mem_of_layOut hg hdraft h) ends
    let unset := c.final.slots.slots.map fun _ => Slot.unset
    let f : Frame := ⟨s.asm.code.size, none, #[], unset, #[], [], []⟩
    exact ⟨c, scope, s, s', f, hworld, code, arrives _ found nofun, rfl, Array.size_map⟩

end Finished

end StackScript
