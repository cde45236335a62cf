import StackScript.Proofs.Layout.Extension

/-!
# How far a layout has come

Every part of a layout writes code, and control does not reach the end of it: the code of a block
ends in a transfer. So a handler starts where nothing comes from above.

## Main definitions

* `Job.Starts`: where a part of a layout may start
* `Continues`: a layout goes on

## Main results

* `continues_of_lays`: every part of a layout writes code, and control does not reach the end of it
-/

namespace StackScript

open Emit Arrange

/-! ## Single steps -/

section Steps

variable {env : LayoutEnv} {scope : Scope} {s s' : LayoutState} {b t : BlockId} {u : PUnit}

/-- The statements of a block leave nothing on the stack. -/
theorem ends_placeStatements (h : Ends (placeStatements env b) s u s') :
    ∃ block d, env.graph.blocks[b]? = some block ∧
      Ends (emitStatements env.body block.statements) s.draft () d ∧ d.asm.depth = 0 ∧
      s' = { s with draft := d } := by
  unfold placeStatements at h
  cases hb : env.graph.blocks[b]? with
  | none => simp [hb] at h
  | some block =>
    simp only [hb, ends_bind, ends_write, ends_get] at h
    obtain ⟨_, _, ⟨d, hd, rfl⟩, _, _, ⟨rfl, rfl⟩, h⟩ := h
    refine ⟨block, d, rfl, hd, ?_⟩
    by_cases hdepth : d.asm.depth = 0
    · refine ⟨hdepth, ?_⟩
      simp only [hdepth, ne_eq, not_true_eq_false, if_false, ends_pure] at h
      exact h.2.symm
    · simp [hdepth] at h

theorem extends_of_ends_placeStatements {targets : List BlockId} (hs : s.Ready)
    (hslots : s.asm.slots.Sound) (h : Ends (placeStatements env b) s u s') :
    Extends scope targets s s' := by
  obtain ⟨block, d, -, hd, -, rfl⟩ := ends_placeStatements h
  exact extends_code hs ((emits_emitStatements _).grows hslots hd).evolves

/-- Behind a transfer control is elsewhere. -/
theorem unreachable_of_ends_transfer (h : Ends (transfer env scope t) s u s') :
    s'.asm.reachable = false := by
  obtain ⟨r, -, rfl⟩ := goTo_of_ends_transfer h
  split
  case isFalse hr => simpa using hr
  case isTrue =>
    cases r
    · simp only [LayoutState.goTo, LayoutState.pushFirst]
      split <;> simp [LayoutState.asm, LayoutState.mapAsm, BranchKind.instruction,
        Instruction.isTransfer]
    · simp [LayoutState.goTo, BranchKind.instruction, Instruction.isTransfer]
    · simp [LayoutState.goTo, BranchKind.instruction, Instruction.isTransfer]
    · simp [LayoutState.goTo, Instruction.isTransfer]

theorem unreachable_of_ends_placeEdge {enter : Enter} {e : EdgeId} {edge : Edge}
    (hk : edge.kind.isTry = false) (h : Ends (placeEdge env enter scope e edge) s u s') :
    s'.asm.reachable = false := by
  obtain ⟨number, source, kind⟩ := edge
  cases kind with
  | tryCatch => cases hk
  | jump target => exact unreachable_of_ends_transfer h
  | branch condition ifTrue ifFalse =>
    obtain ⟨_, _, -, -, h⟩ := parts_of_ends_branch h
    exact unreachable_of_ends_transfer h
  | enumerate subject target =>
    obtain ⟨_, _, _, -, -, h⟩ := parts_of_ends_enumerate h
    exact unreachable_of_ends_transfer h
  | advance loop key value body next =>
    obtain ⟨_, _, _, -, -, -, h⟩ := parts_of_ends_advance h
    exact unreachable_of_ends_transfer h
  | switch subject cases next =>
    obtain ⟨_, _, _, -, -, h, hnext⟩ := parts_of_ends_switch h
    rw [LayoutState.asm, (same_of_ends_enqueue hnext).1]
    exact unreachable_of_ends_transfer h

/-- The start of a block: it has a label, and the label is put where the block starts. -/
theorem beginBlock_cases (s : LayoutState) (b : BlockId) :
    ∃ l s₁, ({ s with placed := b :: s.placed }).withLabel b = (l, s₁) ∧
      s.beginBlock b = { s₁.mapAsm (fun asm => (asm.place l).pin) with
        blockOffsets := s₁.blockOffsets.push (b, (s₁.asm.place l).code.size) } :=
  ⟨_, _, rfl, rfl⟩

/-- The start of a block is writing, and gives it a label. -/
theorem extends_beginBlock (hs : s.Ready) (b : BlockId) :
    s.asm.Evolves (s.beginBlock b).asm ∧ (s.beginBlock b).Ready ∧
      (∀ c l, s.labels.lookup c = some l → (s.beginBlock b).labels.lookup c = some l) ∧
      ∀ e slot, s.enumerators.lookup e = some slot →
        (s.beginBlock b).enumerators.lookup e = some slot := by
  have hs' : LayoutState.Ready { s with placed := b :: s.placed } := hs
  have labeled : Extends .root [] _ _ := extends_withLabel hs' b
  have known := label_withLabel hs' b
  obtain ⟨l, s₁, hl, h⟩ := beginBlock_cases s b
  rw [hl] at labeled known
  have marked : s₁.asm.Evolves ((s₁.asm.place l).pin) :=
    (Assembler.Evolves.single (.place known)).tail .pin
  rw [h]
  exact ⟨labeled.evolves.trans marked,
    fun c k hk => Nat.lt_of_lt_of_le (labeled.ready c k hk) marked.labels_le,
    labeled.labels, labeled.enumerators⟩

/-- Escapes of nested scopes become part of the scope around them; no code is written. -/
theorem extends_of_ends_enqueueEscapes {escapes : List BlockId} (hs : s.Ready)
    (h : Ends (enqueueEscapes env scope escapes) s u s') :
    Extends scope escapes s s' ∧ s'.draft = s.draft ∧ ∀ t ∈ escapes, s'.Settled t := by
  induction escapes generalizing s with
  | nil =>
    obtain ⟨-, rfl⟩ := ends_pure.mp h
    exact ⟨.refl hs, rfl, by simp⟩
  | cons target rest ih =>
    obtain ⟨r, hr, hf, h⟩ := ends_enqueueEscapes_cons.mp h
    have accepted : Extends scope (target :: rest) _ _ :=
      (extends_accept hs hr List.mem_cons_self).1
    obtain ⟨extended, same, settled⟩ := ih accepted.ready h
    have extended : Extends scope (target :: rest) _ _ :=
      extended.mono fun t ht => List.mem_cons_of_mem _ ht
    refine ⟨accepted.trans extended, same.trans (draft_accept _ _ _), fun t ht => ?_⟩
    obtain rfl | ht := List.mem_cons.mp ht
    · exact extended.settled (settled_accept s hr hf)
    · exact settled t ht

end Steps

/-! ## Parts of a layout -/

/-- A part of a layout starts where control does not come from above, or at a block. -/
def Job.Starts (s : LayoutState) : Job → Prop
  | .drain _ => s.asm.reachable = true → ∃ b rest, s.queue = b :: rest ∧ b ∉ s.placed
  | .block .. | .enter .. => True
  | .catches .. | .finally .. => s.asm.reachable = false

section Starts

variable {s : LayoutState} {path : Path} {b : BlockId} {rest : List BlockId}

/-- Where control is elsewhere, the blocks that wait may be placed. -/
theorem starts_of_unreachable (hr : s.asm.reachable = false) : (Job.drain path).Starts s :=
  fun reachable => nomatch hr.symm.trans reachable

/-- Control does not come from above to a block that has its place already. -/
theorem Job.Starts.unreachable (h : (Job.drain path).Starts s) (hq : s.queue = b :: rest)
    (hb : b ∈ s.placed) : s.asm.reachable = false := by
  by_contra reachable
  obtain ⟨b', rest', hq', hb'⟩ := h (by simpa using reachable)
  obtain ⟨rfl, -⟩ := List.cons.inj (hq.symm.trans hq')
  exact hb' hb

/-- A nested scope starts with its first block. -/
theorem starts_openScope (hb : b ∉ s.placed) : (Job.drain path).Starts (s.openScope b) :=
  fun _ => ⟨b, [], rfl, hb⟩

end Starts

/-- In front of a whole layout, nothing has a label yet, and the first block waits. -/
theorem begins_start {draft : Draft} (hdraft : Assembler.Evolves .empty draft.asm) :
    (LayoutState.start draft).Ready ∧ (LayoutState.start draft).asm.slots.Sound ∧
      (Job.drain []).Starts (LayoutState.start draft) :=
  ⟨fun _ _ named => (by cases named), hdraft.slots_sound Slots.sound_empty,
    fun _ => ⟨Graph.start, [], rfl, by simp [LayoutState.start]⟩⟩

/-- A layout goes on: it writes code, and gives labels to blocks and slots to enumerators. -/
structure Continues (s s' : LayoutState) : Prop where
  evolves : s.asm.Evolves s'.asm
  ready : s'.Ready
  slots : s'.asm.slots.Sound
  labels : ∀ b l, s.labels.lookup b = some l → s'.labels.lookup b = some l
  enumerators : ∀ e slot, s.enumerators.lookup e = some slot → s'.enumerators.lookup e = some slot

section Continuing

variable {scope : Scope} {targets : List BlockId} {s s₁ s' : LayoutState}

theorem Continues.refl (hs : s.Ready) (hslots : s.asm.slots.Sound) : Continues s s :=
  ⟨.refl _, hs, hslots, fun _ _ h => h, fun _ _ h => h⟩

theorem Continues.trans (h : Continues s s₁) (h' : Continues s₁ s') : Continues s s' where
  evolves := h.evolves.trans h'.evolves
  ready := h'.ready
  slots := h'.slots
  labels b l hl := h'.labels b l (h.labels b l hl)
  enumerators e slot he := h'.enumerators e slot (h.enumerators e slot he)

theorem Extends.continues (h : Extends scope targets s s') (hslots : s.asm.slots.Sound) :
    Continues s s' :=
  ⟨h.evolves, h.ready, h.evolves.slots_sound hslots, h.labels, h.enumerators⟩

/-- Only the code changes. -/
theorem continues_mapAsm {f : Assembler → Assembler} (hs : s.Ready) (hslots : s.asm.slots.Sound)
    (h : s.asm.Evolves (f s.asm)) : Continues s (s.mapAsm f) where
  evolves := h
  ready b l hl := Nat.lt_of_lt_of_le (hs b l hl) h.labels_le
  slots := h.slots_sound hslots
  labels _ _ h := h
  enumerators _ _ h := h

theorem continues_beginBlock (hs : s.Ready) (hslots : s.asm.slots.Sound) (b : BlockId) :
    Continues s (s.beginBlock b) := by
  obtain ⟨evolves, ready, labels, enumerators⟩ := extends_beginBlock hs b
  exact ⟨evolves, ready, evolves.slots_sound hslots, labels, enumerators⟩

/-- The statements of a block only write code. -/
theorem continues_of_ends_placeStatements {env : LayoutEnv} {b : BlockId} {u : PUnit} (hs : s.Ready)
    (hslots : s.asm.slots.Sound) (h : Ends (placeStatements env b) s u s') : Continues s s' := by
  have written : Extends .root [] s s' := extends_of_ends_placeStatements hs hslots h
  exact written.continues hslots

section Head

variable {env : LayoutEnv} {b : BlockId} {u : PUnit}

/-- A block as far as its statements. -/
theorem continues_of_ends_head (hs : s.Ready) (hslots : s.asm.slots.Sound)
    (h : Ends (placeStatements env b) (s.beginBlock b) u s') : Continues s s' :=
  have begun := continues_beginBlock hs hslots b
  begun.trans (continues_of_ends_placeStatements begun.ready begun.slots h)

/-- The statements of a block, behind its start. -/
theorem extends_of_ends_head (hs : s.Ready) (hslots : s.asm.slots.Sound)
    (h : Ends (placeStatements env b) (s.beginBlock b) u s') :
    Extends scope targets (s.beginBlock b) s' :=
  have begun := continues_beginBlock hs hslots b
  extends_of_ends_placeStatements begun.ready begun.slots h

/-- A whole block whose edge opens no scope, behind its start. -/
theorem extends_of_ends_plain {enter : Enter} {e : EdgeId} {edge : Edge} (hs : s.Ready)
    (hslots : s.asm.slots.Sound) (h : Ends (placeStatements env b) (s.beginBlock b) u s₁)
    (hk : edge.kind.isTry = false) (hedge : Ends (placeEdge env enter scope e edge) s₁ u s') :
    Extends scope edge.kind.targets (s.beginBlock b) s' :=
  have head := continues_of_ends_head hs hslots h
  (extends_of_ends_head hs hslots h).trans
    (extends_of_ends_placeEdge head.ready head.slots hk hedge).1

end Head

end Continuing

section Parts

variable {env : LayoutEnv} {job : Job} {p p' : Progress} {s s₁ s₂ : LayoutState}

/-- A handler pops the value that it handles. -/
theorem emits_bindCaught (clause : CatchClause) : Emits (-1) (bindCaught env clause) := by
  unfold bindCaught
  split
  · exact emits_storeVariable _
  · exact emits_emit rfl rfl rfl

/-- The part of a layout goes on where it may start, and control does not reach the end of it. -/
def Job.Goes (job : Job) (s s' : LayoutState) : Prop :=
  s.Ready → s.asm.slots.Sound → job.Starts s → Continues s s' ∧ s'.asm.reachable = false

/-- The layout of a block that guards a body, part by part. -/
structure GuardGoes (s s₁ s₂ s₃ s₄ s₅ s' : LayoutState) : Prop where
  head : Continues s s₁
  pin : Continues s₁ (s₁.mapAsm (·.pin))
  body : Continues (s₁.mapAsm (·.pin)) s₂
  pinBehind : Continues s₂ (s₂.mapAsm (·.pin))
  catches : Continues (s₂.mapAsm (·.pin)) s₃
  final : Continues s₃ s₄
  escapes : Continues s₄ s₅
  next : Continues s₅ s'
  unreachable₂ : s₂.asm.reachable = false
  unreachable₃ : s₃.asm.reachable = false
  unreachable₄ : s₄.asm.reachable = false
  same : s'.draft = s₄.draft

theorem guardGoes {s₃ s₄ s₅ : LayoutState} {path bodyPath : Path} {source b body : BlockId}
    {tryStart tryEnd tryStart' : Nat} {past : BlockId} {clauses : List CatchClause}
    {fromBody fromCatches escapes : List BlockId} {handler : Option BlockId} {next : BlockId}
    {r : Route} (hs : s.Ready) (hslots : s.asm.slots.Sound)
    (hstatements : Ends (placeStatements env b) (s.beginBlock b) () s₁)
    (h₂ : (Job.enter bodyPath body fromBody).Goes (s₁.mapAsm (·.pin)) s₂)
    (h₃ : (Job.catches source path tryStart tryEnd past clauses fromCatches).Goes (s₂.mapAsm (·.pin)) s₃)
    (h₄ : (Job.finally source path tryStart' handler next).Goes s₃ s₄)
    (hescapes : Ends (enqueueEscapes env (scopeOf path) escapes) s₄ () s₅)
    (hr : route env.ranges (scopeOf path) next = .ok r) :
    GuardGoes s s₁ s₂ s₃ s₄ s₅ (s₅.accept next r) := by
  have head := continues_of_ends_head hs hslots hstatements
  have pin := continues_mapAsm head.ready head.slots (f := (·.pin)) (.single .pin)
  obtain ⟨inBody, unreachable₂⟩ := h₂ pin.ready pin.slots trivial
  have pinBehind := continues_mapAsm inBody.ready inBody.slots (f := (·.pin)) (.single .pin)
  obtain ⟨inCatches, unreachable₃⟩ := h₃ pinBehind.ready pinBehind.slots unreachable₂
  obtain ⟨inFinally, unreachable₄⟩ := h₄ inCatches.ready inCatches.slots unreachable₃
  obtain ⟨escaped, same, -⟩ := extends_of_ends_enqueueEscapes inFinally.ready hescapes
  have accepted : Extends _ [next] _ _ :=
    (extends_accept escaped.ready hr (List.mem_singleton.mpr rfl)).1
  have escaped := escaped.continues inFinally.slots
  exact ⟨head, pin, inBody, pinBehind, inCatches, inFinally, escaped,
    accepted.continues escaped.slots, unreachable₂, unreachable₃, unreachable₄,
    (draft_accept _ _ _).trans same⟩

/-- The layout of a `catch` handler, part by part. -/
structure CatchGoes (s s₁ s₂ : LayoutState) : Prop where
  head : Continues s (s.beginHandler 1)
  bound : Continues (s.beginHandler 1) s₁
  handler : Continues s₁ s₂
  behind (region : Nat → Region) : Continues s₂ (s₂.endHandler region)
  unreachable : s₂.asm.reachable = false

theorem catchGoes {handlerPath : Path} {clause : CatchClause} {escapes : List BlockId}
    (hs : s.Ready) (hslots : s.asm.slots.Sound) (hstart : s.asm.reachable = false)
    (hbind : Ends (write (bindCaught env clause)) (s.beginHandler 1) () s₁)
    (h : (Job.enter handlerPath clause.target escapes).Goes s₁ s₂) : CatchGoes s s₁ s₂ := by
  have head : Continues s (s.beginHandler 1) :=
    continues_mapAsm hs hslots
      ((Assembler.Evolves.single .pin).trans (.single (.beginHandler hstart rfl)))
  have bound : Continues (s.beginHandler 1) s₁ := by
    have written : Extends .root [] _ _ :=
      extends_write (emits_bindCaught clause) head.ready head.slots hbind
    exact written.continues head.slots
  obtain ⟨entered, unreachable⟩ := h bound.ready bound.slots trivial
  obtain ⟨evolves, ready, slots, labels, enumerators⟩ := continues_mapAsm entered.ready
    entered.slots (f := (·.pin)) (.single .pin)
  exact ⟨head, bound, entered, fun _ => ⟨evolves, ready, slots, labels, enumerators⟩, unreachable⟩

/-- The layout of a `finally` handler, part by part. -/
structure FinallyGoes (s s₁ : LayoutState) : Prop where
  head : Continues s (s.beginHandler 0)
  handler : Continues (s.beginHandler 0) s₁
  behind (region : Nat → Region) : Continues s₁ (s₁.endHandler region)
  unreachable : s₁.asm.reachable = false

theorem finallyGoes {handlerPath : Path} {seed : BlockId} {escapes : List BlockId} (hs : s.Ready)
    (hslots : s.asm.slots.Sound) (hstart : s.asm.reachable = false)
    (h : (Job.enter handlerPath seed escapes).Goes (s.beginHandler 0) s₁) : FinallyGoes s s₁ := by
  have head : Continues s (s.beginHandler 0) :=
    continues_mapAsm hs hslots
      ((Assembler.Evolves.single .pin).trans (.single (.beginHandler hstart rfl)))
  obtain ⟨entered, unreachable⟩ := h head.ready head.slots trivial
  obtain ⟨evolves, ready, slots, labels, enumerators⟩ := continues_mapAsm entered.ready
    entered.slots (f := (·.pin)) (.single .pin)
  exact ⟨head, entered, fun _ => ⟨evolves, ready, slots, labels, enumerators⟩, unreachable⟩

/-- **Every part of a layout writes code**, and control does not reach the end of it. -/
theorem continues_of_lays (h : Lays env job p p') : job.Goes p.state p'.state := by
  induction h with
  | @done path p hq =>
    intro hs hslots hstart
    refine ⟨.refl hs hslots, ?_⟩
    -- If control were here, a block would be waiting.
    by_contra hr
    obtain ⟨b, rest, hq', -⟩ := hstart (by simpa using hr)
    rw [hq] at hq'
    cases hq'
  | @skip path p b rest p' hq hb _ ih =>
    intro hs hslots hstart
    obtain ⟨⟨evolves, ready, slots, labels, enumerators⟩, unreachable⟩ :=
      ih hs hslots (starts_of_unreachable (hstart.unreachable hq hb))
    exact ⟨⟨evolves, ready, slots, labels, enumerators⟩, unreachable⟩
  | @place path p b rest p₁ p' hq hb _ _ ih₁ ih₂ =>
    intro hs hslots hstart
    obtain ⟨⟨evolves, ready, slots, labels, enumerators⟩, unreachable⟩ := ih₁ hs hslots trivial
    obtain ⟨second, unreachable'⟩ := ih₂ ready slots (starts_of_unreachable unreachable)
    exact ⟨Continues.trans ⟨evolves, ready, slots, labels, enumerators⟩ second, unreachable'⟩
  | @plain path p b e edge s₁ s' enter _ hstatements _ hk hedge =>
    intro hs hslots hstart
    have written := continues_of_ends_head hs hslots hstatements
    have ended := (extends_of_ends_placeEdge written.ready written.slots hk hedge).1
    exact ⟨written.trans (ended.continues written.slots), unreachable_of_ends_placeEdge hk hedge⟩
  | guard _ hstatements _ _ _ _ _ hescapes hr ih₂ ih₃ ih₄ =>
    intro hs hslots hstart
    have goes := guardGoes hs hslots hstatements ih₂ ih₃ ih₄ hescapes hr
    refine ⟨((((((goes.head.trans goes.pin).trans goes.body).trans goes.pinBehind).trans
      goes.catches).trans goes.final).trans goes.escapes).trans goes.next, ?_⟩
    exact (congrArg (fun d : Draft => d.asm.reachable) goes.same).trans goes.unreachable₄
  | @enter path p seed p₁ hseed _ ih =>
    intro hs hslots hstart
    obtain ⟨⟨evolves, ready, slots, labels, enumerators⟩, unreachable⟩ :=
      ih hs hslots (starts_openScope hseed)
    exact ⟨⟨evolves, ready, slots, labels, enumerators⟩, unreachable⟩
  | noCatch =>
    intro hs hslots hstart
    exact ⟨.refl hs hslots, hstart⟩
  | «catch» hbind _ _ ih₁ ih₂ =>
    intro hs hslots hstart
    have goes := catchGoes hs hslots hstart hbind ih₁
    obtain ⟨others, unreachable⟩ := ih₂ (goes.behind _).ready (goes.behind _).slots goes.unreachable
    exact ⟨(((goes.head.trans goes.bound).trans goes.handler).trans (goes.behind _)).trans others,
      unreachable⟩
  | noFinally =>
    intro hs hslots hstart
    exact ⟨.refl hs hslots, hstart⟩
  | «finally» _ ih =>
    intro hs hslots hstart
    have goes := finallyGoes hs hslots hstart ih
    exact ⟨(goes.head.trans goes.handler).trans (goes.behind _), goes.unreachable⟩

end Parts

end StackScript
