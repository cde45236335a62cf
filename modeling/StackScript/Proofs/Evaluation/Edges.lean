import StackScript.Proofs.Evaluation.Loops

/-!
# Edges go where they are meant to go

An edge evaluates what it depends on and says where control goes on: at another block, at the body of
a loop with its next entry, or behind the loop.

Most edges run code of their own. A jump may be taken back where its target comes next; it takes no
step then.

## Main definitions

* `EdgeKind.meaning`: where an edge goes on
* `Setting.EndsAt`: where the code of a block ends
* `Departs`: what the code of an edge comes to

## Main results

* `alike_edge`: no edge sets the result
* `departs_of_ends_placeEdge`: the code of an edge follows its meaning
-/

namespace StackScript

open Emit Arrange
open Assembler (Evolves)

/-! ## What edges mean -/

section Meaning

variable {σ : Type} (world : World σ) (env : BodyEnv)

/-- One step of a loop: the next entry is bound in front of the body, and behind the last one the
loop is over. -/
def Eval.advance (loops : Loops) (loop : EdgeId) (key : Option String) (value : String)
    (body next : BlockId) : Eval σ (BlockId × Loops) :=
  match loops loop with
  | none => throw (.ofFault .notAnEnumerator)
  | some cursor =>
    match cursor.advance.current with
    | none => return (next, loops.set loop cursor.advance)
    | some entry => do
      bindEntry env key value entry
      return (body, loops.set loop cursor.advance)

/-- The start of a loop over the entries of a value. -/
def Eval.enumerate (loops : Loops) (loop : EdgeId) (target : BlockId) (subject : Slot) :
    Eval σ (BlockId × Loops) :=
  match subject.toValue.entries? with
  | none => throw (.failed (.notIterable subject.toValue.kind))
  | some entries => return (target, loops.set loop (.start entries))

/-- Where an edge of a number goes on, and the loops behind it. An edge that opens scopes has no
meaning of its own, and says that it goes to the body. -/
def EdgeKind.meaning (e : EdgeId) (loops : Loops) :
    EdgeKind → Numbered (Eval σ (BlockId × Loops))
  | .jump target => return return (target, loops)
  | .branch condition ifTrue ifFalse => do
    let value ← condition.meaning world env
    return do
      let x ← value
      return (if x.toValue.truthy then ifTrue else ifFalse, loops)
  | .tryCatch body _ _ _ => return return (body, loops)
  | .enumerate subject target => do
    let value ← subject.meaning world env
    return value >>= Eval.enumerate loops e target
  | .advance loop key value body next => return Eval.advance env loops loop key value body next
  | .switch subject cases next => do
    let chosen ← switchMeaning world env subject cases next
    return do
      let target ← chosen
      return (target, loops)

end Meaning

/-! ## Edges do not set the result -/

section Kept

variable {σ : Type} {world : World σ} {env : BodyEnv} {spared : Prop}

open Eval

theorem alike_value (e : Expr) (n : SiteId) :
    Alike (fun _ : σ => True) False ((e.meaning world env).runFrom n).1
      ((e.meaning world env).runFrom n).1 :=
  (alike_meaning (alikeOn_refl world) e False.elim n).1

theorem alike_pick (subject : Value) (cases : List SwitchCase) (n : SiteId) :
    Alike (fun _ : σ => True) False
      (pick subject ((meaningCases world env cases).runFrom n).1)
      (pick subject ((meaningCases world env cases).runFrom n).1) := by
  induction cases generalizing n with
  | nil => exact alike_pure _
  | cons case rest ih =>
    rw [meaningCases]
    cases case.value with
    | none => exact ih n
    | some value =>
      refine (alike_value value n).bind fun x => ?_
      split
      · exact alike_pure _
      · exact ih _

theorem alike_bindEntry (key : Option String) (value : String) (entry : Value × Value) :
    Alike (fun _ : σ => True) False (Eval.bindEntry env key value entry)
      (Eval.bindEntry env key value entry) := by
  refine (alike_writeVariable False.elim _).bind fun _ => ?_
  cases key with
  | none => exact alike_pure _
  | some key => exact alike_writeVariable False.elim _

/-- No edge sets the result. -/
theorem alike_edge (kind : EdgeKind) (e : EdgeId) (loops : Loops) (n : SiteId) :
    Alike (fun _ : σ => True) False ((kind.meaning world env e loops).runFrom n).1
      ((kind.meaning world env e loops).runFrom n).1 := by
  cases kind with
  | jump | tryCatch => exact alike_pure _
  | branch condition => exact (alike_value condition n).map _
  | enumerate subject target =>
    refine (alike_value subject n).bind fun x => ?_
    unfold Eval.enumerate
    split
    · exact alike_throw _
    · exact alike_pure _
  | advance loop key value body next =>
    change Alike _ _ (Eval.advance env loops loop key value body next)
      (Eval.advance env loops loop key value body next)
    unfold Eval.advance
    split
    · exact alike_throw _
    · split
      · exact alike_pure _
      · exact (alike_bindEntry key value _).map _
  | switch subject cases next =>
    exact ((alike_value subject n).bind fun x => (alike_pick x.toValue cases _).map _).map _

end Kept

/-! ## Ways out of a block -/

/-- A number of steps, one at least. -/
abbrev Setting.Advances {σ : Type} (c : Setting σ) : Step × σ → Step × σ → Prop :=
  Relation.TransGen (Moves c.world c.body)

/-- A frame is at an offset, with nothing on its stack, and has the variables and the loops. -/
structure Setting.Stands {σ : Type} (c : Setting σ) (seats : EdgeId → Option LocalId) (f : Frame)
    (n : Nat) (vars : Vars) (loops : Loops) : Prop where
  pc : f.pc = n
  stack : f.stack = []
  agrees : f.Agrees c.final.slots vars
  tracks : f.Tracks seats loops

/-- The code of a stage ends at a place: behind its last instruction, or in front of that if it is a
jump to this very place, which is taken back. -/
inductive Setting.EndsAt {σ : Type} (c : Setting σ) (asm : Assembler) : Nat → Prop
  | whole : EndsAt c asm asm.code.size
  | elided {n : Nat} {l : Label} : asm.code.size = n + 1 → asm.Awaits n l →
      (∀ o, ¬ asm.PlacedAt l o) → c.final.PlacedAt l n → EndsAt c asm n

section Ends

variable {σ : Type} {c : Setting σ} {asm : Assembler} {f : Frame} {s : σ} {n pc : Nat}

theorem Setting.EndsAt.size_le (h : c.EndsAt asm n) : asm.code.size ≤ n + 1 := by
  cases h with
  | whole => exact Nat.le_succ _
  | elided size => exact Nat.le_of_eq size

/-- A jump that is taken back led to the place where it was. -/
theorem Setting.Lands.sweeps_to (h : c.Lands asm f pc) (sound : asm.Sound)
    (size : asm.code.size = f.pc + 1) (ends : c.EndsAt asm n) :
    c.Sweeps n (.running f, s) (.running { f with pc }, s) := by
  cases ends with
  | whole => exact h.sweeps (size ▸ Nat.lt_succ_self _)
  | elided size' awaits _ placed =>
    obtain rfl : f.pc = n := Nat.succ.inj (size.symm.trans size')
    have same : pc = f.pc := by
      cases h with
      | there same => exact same
      | jumps awaits' placed' =>
        obtain rfl := sound.awaits_unique awaits awaits'
        exact placed'.unique placed
    subst same
    exact .stays (Nat.le_refl _)

/-- A jump to a label that has its place already is not taken back. -/
theorem Setting.EndsAt.emerges {l : Label} (ends : c.EndsAt asm n) (sound : asm.Sound)
    (size : asm.code.size = f.pc + 1) (awaits : asm.Awaits f.pc l) (placed : asm.PlacedAt l pc)
    (step : c.body.step f = .running { f with pc }) :
    c.Emerges n (.running f, s) (.running { f with pc }, s) := by
  cases ends with
  | whole => exact .step (size ▸ Nat.lt_succ_self _) step
  | elided size' awaits' new =>
    obtain rfl : f.pc = n := Nat.succ.inj (size.symm.trans size')
    obtain rfl := sound.awaits_unique awaits awaits'
    exact (new _ placed).elim

end Ends

section Departs

variable {σ α : Type} {c : Setting σ} {seats : EdgeId → Option LocalId} {past : Nat}
  {later : BlockId → Prop} {out out' : BlockId → Nat → Prop} {f g : Frame} {s s' : σ}
  {vars : Vars} {loops : Loops}

/-- What a frame in front of the edge of a block comes to, in the code of the block: to the block
where the edge goes on, or to an error, or to a request that is never answered. Blocks that come
later may be reached without a step. -/
inductive Departs (c : Setting σ) (seats : EdgeId → Option LocalId) (past : Nat)
    (later : BlockId → Prop) (out : BlockId → Nat → Prop) (f : Frame) (s : σ) :
    Option (Except DispatchError (BlockId × Loops) × Vars × σ) → Prop
  | goes {t loops vars s' g n} : c.Sweeps past (.running f, s) (.running g, s') →
      later t ∨ c.Emerges past (.running f, s) (.running g, s') → out t n →
      c.Stands seats g n vars loops →
      Departs c seats past later out f s (some (.ok (t, loops), vars, s'))
  | fails {e vars s' g} : c.Sweeps past (.running f, s) (c.body.raise g e, s') →
      Departs c seats past later out f s (some (.error e, vars, s'))
  | waits {r g s'} : c.Climbs (.running f, s) (.asking r g, s') → (c.world r).run.run s' = none →
      Departs c seats past later out f s none

/-- Code that leaves the loops alone, and then a jump. -/
theorem Setting.Stands.landed {n : Nat} {slots : Slots} {vars' : Vars}
    (h : c.Stands seats f n vars loops) (hs : c.Seats seats)
    (beside : f.Beside slots c.final.slots g) (hvars : g.Agrees c.final.slots vars') (m : Nat) :
    c.Stands seats { g with pc := m, stack := [] } m vars' loops :=
  ⟨rfl, rfl, hvars.congr rfl rfl rfl, (h.tracks.beside hs beside).congr (fun _ => rfl) rfl⟩

namespace Departs

variable {r : Option (Except DispatchError (BlockId × Loops) × Vars × σ)}

/-- In front of the code, steps that bring the frame there. -/
theorem behind (reach : c.Climbs (.running f, s) (.running g, s'))
    (h : Departs c seats past later out g s' r) : Departs c seats past later out f s r := by
  cases h with
  | goes reach' progress at_ stands =>
    exact .goes (.behind reach reach') (progress.imp_right (.behind reach)) at_ stands
  | fails reach' => exact .fails (.behind reach reach')
  | waits reach' hnone => exact .waits (reach.trans reach') hnone

/-- Steps behind which the stack is another one are some, so it does not matter whether there are
others. -/
theorem advance (reach : c.Climbs (.running f, s) (.running g, s')) (other : g.stack ≠ f.stack)
    (h : Departs c seats past (fun _ => True) out g s' r) : Departs c seats past later out f s r := by
  have moves : (Step.running f, s) ≠ (.running g, s') := by
    rintro ⟨⟩
    exact other rfl
  cases h with
  | goes reach' _ at_ stands =>
    refine .goes (.behind reach reach') (.inr ?_) at_ stands
    cases reach' with
    | stays le => exact .of_climbs reach le moves
    | emerges emerges => exact emerges.behind reach
  | fails reach' => exact .fails (.behind reach reach')
  | waits reach' hnone => exact .waits (reach.trans reach') hnone

end Departs

variable {a b : Assembler} {m : Eval σ α} {k : α → Eval σ (BlockId × Loops)} {post : α → List Slot}

/-- Behind a stretch of code that follows a computation, the rest of a block. -/
theorem Comes.departs (h : Comes c a b [] post f s (m.outcome vars s)) (hb : b.code.size ≤ past)
    (h' : ∀ {x vars' s' g}, m.outcome vars s = some (.ok x, vars', s') →
      c.Climbs (.running f, s) (.running g, s') → g.pc = b.code.size → g.stack = post x →
      g.Agrees c.final.slots vars' → f.Beside a.slots c.final.slots g →
      Departs c seats past later out f s ((k x).outcome vars' s')) :
    Departs c seats past later out f s ((m >>= k).outcome vars s) := by
  rw [Eval.outcome_bind]
  revert h h'
  cases m.outcome vars s with
  | none =>
    intro h _
    cases h with
    | waits reach hnone => exact .waits reach hnone
  | some r =>
    obtain ⟨e | x, vars', s'⟩ := r
    · intro h _
      cases h with
      | fails reach => exact .fails (reach.mono hb)
    · intro h h'
      cases h with
      | ends reach hpc hstack hvars beside =>
        rw [List.append_nil] at hstack
        exact h' rfl reach hpc hstack hvars beside

/-- Behind a value that has been pushed, which takes a step. -/
theorem Comes.departs_pushed {m : Eval σ Slot} {k : Slot → Eval σ (BlockId × Loops)}
    (h : Comes c a b [] (fun x => [x]) f s (m.outcome vars s)) (hb : b.code.size ≤ past)
    (hstack : f.stack = [])
    (h' : ∀ {x vars' s' g}, m.outcome vars s = some (.ok x, vars', s') → g.pc = b.code.size →
      g.stack = [x] → g.Agrees c.final.slots vars' → f.Beside a.slots c.final.slots g →
      Departs c seats past (fun _ => True) out g s' ((k x).outcome vars' s')) :
    Departs c seats past later out f s ((m >>= k).outcome vars s) :=
  h.departs hb fun {x _ _ _} hm reach hpc hstack' hvars beside =>
    have other : [x] ≠ f.stack := by simp [hstack]
    .advance reach (hstack' ▸ other) (h' hm hpc hstack' hvars beside)

end Departs

/-! ## Jumps -/

section Jumps

variable {σ : Type} {c : Setting σ} {seats : EdgeId → Option LocalId} {env : LayoutEnv}
    {scope : Scope} {s s' : LayoutState} {t : BlockId} {u : PUnit} {f : Frame} {w : σ} {vars : Vars}
    {loops : Loops} {past : Nat} {d : Draft}

/-- In front of the last jump of a block, its code ends in front of the jump or behind it. -/
theorem Setting.EndsAt.ahead (last : c.EndsAt s'.asm past) (h : Ends (transfer env scope t) s u s')
    (arrives : s.asm.reachable = true) : s.asm.code.size ≤ past := by
  have := last.size_le
  rw [size_of_ends_transfer h arrives] at this
  exact Nat.le_of_succ_le_succ this

/-- The last jump of a block. -/
theorem Setting.Lands.sweeps_transfer {pc : Nat} (lands : c.Lands s'.asm f pc)
    (h : Ends (transfer env scope t) s u s') (ready : s.Ready) (sound : s.asm.Sound)
    (arrives : s.asm.reachable = true) (behind : s'.asm.Evolves c.final)
    (last : c.EndsAt s'.asm past) (hpc : f.pc = s.asm.code.size) :
    c.Sweeps past (.running f, w) (.running { f with pc }, w) := by
  have evolves := (extends_of_ends_transfer ready (List.mem_singleton_self _) h).1.evolves
  have fault := behind.fault (Assembler.finish_cases c.finished).1
  exact lands.sweeps_to (evolves.sound sound fault)
    (hpc ▸ size_of_ends_transfer h arrives) last

/-- A jump behind code of its block. -/
theorem departs_of_ends_transfer (h : Ends (transfer env scope t) s u s') (opened : s.Open)
    (behind : s'.asm.Evolves c.final) (last : c.EndsAt s'.asm past)
    (stands : c.Stands seats f s.asm.code.size vars loops) :
    Departs c seats past (fun _ => True) (c.HeadsFor env.ranges scope s'.labels) f w
      (some (.ok (t, loops), vars, w)) := by
  obtain ⟨pc, heads, lands⟩ := exists_headsFor h opened.ready opened.sound behind
    opened.arrives stands.pc
  have reach := lands.sweeps_transfer (w := w) h opened.ready opened.sound opened.arrives behind
    last stands.pc
  exact .goes reach (.inl trivial) heads
    ⟨rfl, stands.stack, stands.agrees.congr rfl rfl rfl, stands.tracks.congr (fun _ => rfl) rfl⟩

/-- Behind a jump the labels of blocks are what they were, and the code is sound. -/
theorem opened_of_ends_transferIf {decided : Bool} (opened : s.Open)
    (h : Ends (transferIf env scope (.deciding decided) t) s u s') (hf : s'.asm.fault = none) :
    s'.Open := by
  have extended := (extends_of_ends_transferIf opened.ready (List.mem_singleton_self t) h).1
  exact ⟨extended.ready, extended.evolves.sound opened.sound hf,
    extended.evolves.slots_sound opened.slots, reachable_of_ends_transferIf decided opened.arrives h hf⟩

/-- More code takes no label from a block. -/
theorem LayoutState.Ready.code (ready : s.Ready) (evolves : s.asm.Evolves d.asm) :
    LayoutState.Ready { s with draft := d } :=
  fun b l named => Nat.lt_of_lt_of_le (ready b l named) evolves.labels_le

/-- Code that goes on leaves a layout open. -/
theorem LayoutState.Open.code (opened : s.Open) (evolves : s.asm.Evolves d.asm)
    (onward : d.asm.reachable = true) (hf : d.asm.fault = none) :
    LayoutState.Open { s with draft := d } where
  ready := opened.ready.code evolves
  sound := evolves.sound opened.sound hf
  slots := evolves.slots_sound opened.slots
  arrives := onward

theorem LayoutState.Open.emit {i : Instruction} (opened : s.Open) (ht : i.target? = none)
    (stays : i.isTransfer = false) (hf : (s.asm.emit i).fault = none) :
    LayoutState.Open (s.mapAsm (·.emit i)) :=
  opened.code (d := ⟨s.asm.emit i, s.draft.nextSite⟩) (.single (.emit ht))
    (by rw [Assembler.reachable_emit, opened.arrives, stays]; rfl) hf

end Jumps

/-! ## Edges in their code -/

section Edges

variable {σ : Type} {c : Setting σ} {seats : EdgeId → Option LocalId} {env : LayoutEnv}
    {enter : Enter} {scope : Scope} {s s' : LayoutState} {u : PUnit} {e : EdgeId} {number : UInt32}
    {source : BlockId} {f : Frame} {w : σ} {vars : Vars} {loops : Loops} {later : BlockId → Prop}
    {past : Nat} {a : Assembler} {d : Draft} {key : Option String} {subject : Expr} {value : String}

/-- The value that an edge depends on. -/
theorem value_of_ends_emitValue {value : Expr} (opened : s.Open)
    (h : Ends (emitValue env.body value) s.draft () d) (behind : d.asm.Evolves c.final)
    (stands : c.Stands seats f s.asm.code.size vars loops) :
    LayoutState.Open { s with draft := d } ∧
      d.nextSite = ((value.meaning c.world env.body).runFrom s.draft.nextSite).2 ∧
      Comes c s.asm d.asm [] (fun x => [x]) f w
        (((value.meaning c.world env.body).runFrom s.draft.nextSite).1.outcome vars w) := by
  have pushed : Pushes c (emitValue env.body value) (value.meaning c.world env.body) :=
    (means_lower value).value
  have evolves := ((emits_emitValue value).grows opened.slots h).evolves
  have fault := behind.fault (Assembler.finish_cases c.finished).1
  refine ⟨opened.code evolves ((onward_emitValue value _ _ _ h fault).2 opened.arrives) fault,
    (pushed []).numbers _ _ _ h, ?_⟩
  exact ((pushed []).follows _ _ _ opened.sound opened.slots h behind).comes f [] vars w stands.pc
    stands.stack stands.agrees

/-- A branch goes on by the truth of its condition. -/
theorem departs_of_ends_branch (hs : c.Seats seats) {condition : Expr} {ifTrue ifFalse : BlockId}
    (opened : s.Open)
    (h : Ends (placeEdge env enter scope e ⟨number, source, .branch condition ifTrue ifFalse⟩) s u s')
    (behind : s'.asm.Evolves c.final) (last : c.EndsAt s'.asm past)
    (stands : c.Stands seats f s.asm.code.size vars loops) :
    Departs c seats past later (c.HeadsFor env.ranges scope s'.labels) f w
      ((((EdgeKind.branch condition ifTrue ifFalse).meaning c.world env.body e loops).runFrom
        s.draft.nextSite).1.outcome vars w) := by
  obtain ⟨d, s₁, hvalue, hfalse, htrue⟩ := parts_of_ends_branch h
  have evolves := ((emits_emitValue condition).grows opened.slots hvalue).evolves
  have ready : LayoutState.Ready { s with draft := d } := opened.ready.code evolves
  obtain ⟨tested, -⟩ := extends_of_ends_transferIf ready (List.mem_singleton_self _) hfalse
  obtain ⟨jumped, -⟩ := extends_of_ends_transfer tested.ready (List.mem_singleton_self _) htrue
  have behind₁ := jumped.evolves.trans behind
  obtain ⟨opened₁, -, comes⟩ := value_of_ends_emitValue (w := w) opened hvalue
    (tested.evolves.trans behind₁) stands
  have fault₁ := behind₁.fault (Assembler.finish_cases c.finished).1
  have opened₂ := opened_of_ends_transferIf opened₁ hfalse fault₁
  have ahead : s₁.asm.code.size ≤ past := last.ahead htrue opened₂.arrives
  refine comes.departs_pushed ((jumped_of_ends_transferIf hfalse).size_le.trans ahead) stands.stack ?_
  intro x vars' w' g _ hpc hstack hvars beside
  have test := tests_of_ends_transferIf (w := w') hfalse ready opened₁.sound behind₁
    opened₁.arrives hpc hstack
  by_cases holds : x.toValue.truthy = true
  · rw [if_neg (by simp [holds])] at test
    rw [if_pos holds]
    exact .behind test (departs_of_ends_transfer htrue opened₂ behind last
      (stands.landed hs beside hvars _))
  · rw [if_pos (by simpa using holds)] at test
    rw [if_neg holds]
    obtain ⟨pc, heads, reach⟩ := test
    exact .goes (reach.mono ahead) (.inl trivial) (heads.mono jumped.labels)
      (stands.landed hs beside hvars pc)

/-- The start of a loop makes an enumerator of its value. -/
theorem departs_of_ends_enumerate (hs : c.Seats seats) {target : BlockId} (opened : s.Open)
    (h : Ends (placeEdge env enter scope e ⟨number, source, .enumerate subject target⟩) s u s')
    (known : ∀ e id, s'.enumerators.lookup e = some id → seats e = some id)
    (behind : s'.asm.Evolves c.final) (last : c.EndsAt s'.asm past)
    (stands : c.Stands seats f s.asm.code.size vars loops) :
    Departs c seats past later (c.HeadsFor env.ranges scope s'.labels) f w
      ((((EdgeKind.enumerate subject target).meaning c.world env.body e loops).runFrom
        s.draft.nextSite).1.outcome vars w) := by
  obtain ⟨d, slot, s₁, hvalue, hslot, hjump⟩ := parts_of_ends_enumerate h
  have evolves := ((emits_emitValue subject).grows opened.slots hvalue).evolves
  have emitted : d.asm.Evolves (d.asm.emit .getEnumerator) := .single (.emit rfl)
  have ready : LayoutState.Ready { s with draft := ⟨d.asm.emit .getEnumerator, d.nextSite⟩ } :=
    opened.ready.code (evolves.trans emitted)
  obtain ⟨seated, lookup⟩ : Extends scope [] _ s₁ ∧ _ :=
    extends_of_ends_enumeratorSlot ready hslot
  have stored : s₁.asm.Evolves (s₁.asm.emit (.storeLocal slot)) := .single (.emit rfl)
  have ready₁ : (s₁.mapAsm (·.emit (.storeLocal slot))).Ready := fun b l hl =>
    Nat.lt_of_lt_of_le (seated.ready b l hl) stored.labels_le
  obtain ⟨jumped, -⟩ := extends_of_ends_transfer ready₁ (List.mem_singleton_self _) hjump
  have behind₂ : (s₁.asm.emit (.storeLocal slot)).Evolves c.final := jumped.evolves.trans behind
  have behind₁ : (d.asm.emit .getEnumerator).Evolves c.final :=
    seated.evolves.trans (stored.trans behind₂)
  have fault := (Assembler.finish_cases c.finished).1
  obtain ⟨valued, -, comes⟩ := value_of_ends_emitValue (w := w) opened hvalue
    (emitted.trans behind₁) stands
  have opening := valued.emit (i := .getEnumerator) rfl rfl (behind₁.fault fault)
  obtain ⟨named, code⟩ := opened_of_ends_enumeratorSlot opening hslot
    ((stored.trans behind₂).fault fault)
  have storing := named.emit (i := .storeLocal slot) rfl rfl (behind₂.fault fault)
  have seat : seats e = some slot := known e slot (jumped.enumerators e slot lookup)
  obtain ⟨place, hplace, hrole⟩ := hs.slot seat
  have role : place.role ≠ .variable ∧ place.role ≠ .result := by simp [hrole]
  have size : s₁.asm.code.size = d.asm.code.size + 1 := by
    rw [code, LayoutState.asm_mapAsm, Assembler.code_emit, Array.size_push]
    rfl
  -- Behind the subject stand two more instructions: the value becomes an enumerator, which is put
  -- into the slot of the loop.
  have stored_size : (s₁.asm.emit (.storeLocal slot)).code.size = d.asm.code.size + 2 := by
    rw [Assembler.code_emit, Array.size_push, size]
  have ahead : d.asm.code.size + 2 ≤ past := stored_size ▸ last.ahead hjump storing.arrives
  refine comes.departs_pushed (by omega) stands.stack ?_
  intro x vars' w' g _ hpc hstack hvars beside
  have reads : c.Reads (d.asm.emit .getEnumerator) := ⟨opening.sound, behind₁⟩
  have reads₁ : c.Reads (s₁.asm.emit (.storeLocal slot)) := ⟨storing.sound, behind₂⟩
  have hi : c.body.code[g.pc]? = some .getEnumerator := hpc ▸ reads.last rfl
  have hi₁ : c.body.code[g.pc + 1]? = some (.storeLocal slot) := by
    rw [hpc, ← size]
    exact reads₁.last rfl
  unfold Eval.enumerate
  cases hentries : x.toValue.entries? with
  | none =>
    have execute := Frame.execute_getEnumerator_none hstack hentries
    exact .fails (.step (by omega) (step_error hi execute))
  | some entries =>
    have execute := Frame.execute_getEnumerator_some hstack hentries
    have hlt : slot < g.locals.size := hvars.lt hplace
    have tracks := (stands.tracks.beside hs beside).opens hs seat hlt (.start entries)
    refine .behind (.next (step_next hi execute) (Nat.lt_succ_self _) (.next (step_next hi₁
      (Frame.execute_storeLocal rfl hlt)) (Nat.lt_succ_self _) (.refl _)))
      (departs_of_ends_transfer hjump storing behind last ?_)
    refine ⟨?_, rfl, (hvars.setLocal hplace role.1 role.2).congr rfl rfl rfl,
      tracks.congr (fun _ => rfl) rfl⟩
    simp [hpc, size]

/-- The step of a loop loads its enumerator, and moves it. -/
theorem code_of_reads {slot : LocalId} (reads : c.Reads ((a.emit (.loadLocal slot)).emit .advance)) :
    c.body.code[a.code.size]? = some (.loadLocal slot) ∧
      c.body.code[a.code.size + 1]? = some .advance := by
  have size : (a.emit (.loadLocal slot)).code.size = a.code.size + 1 := by
    rw [Assembler.code_emit, Array.size_push]
  refine ⟨reads.instruction ?_ rfl, size ▸ reads.last rfl⟩
  rw [Assembler.code_emit, Assembler.code_emit, Array.getElem?_push_lt, ← Array.getElem?_eq_getElem]
  · exact Array.getElem?_push_size
  · rw [Array.size_push]
    exact Nat.lt_succ_self _

/-- The step of a loop that has been started moves its enumerator, and asks whether that stands on an
entry. -/
theorem climbs_of_reads {slot : LocalId} {k : Nat} {cursor : Cursor}
    (reads : c.Reads ((a.emit (.loadLocal slot)).emit .advance)) (hpc : f.pc = a.code.size)
    (hstack : f.stack = []) (hk : f.locals[slot]? = some (.enumerator k))
    (hc : f.cursors[k]? = some cursor) :
    c.Climbs (.running f, w) (.running { f with
      pc := ((a.emit (.loadLocal slot)).emit .advance).code.size
      stack := [.value (.bool cursor.advance.current.isSome)]
      cursors := f.cursors.setIfInBounds k cursor.advance }, w) := by
  obtain ⟨load, move⟩ := code_of_reads reads
  rw [← hpc] at load move
  have loaded : f.execute (.loadLocal slot) = .ok (.next (f.push (.enumerator k))) := by
    simp only [Frame.execute, Frame.getLocal, hk]
    rfl
  have moved : ({ f.push (.enumerator k) with pc := f.pc + 1 } : Frame).execute .advance = _ :=
    Frame.execute_advance rfl hc
  refine .next (step_next load loaded) (Nat.lt_succ_self _)
    (.next (step_next move moved) (Nat.lt_succ_self _) ?_)
  simp only [Frame.push, hstack, hpc, Assembler.code_emit, Array.size_push]
  exact .refl _

/-- The step of a loop that was never started finds no enumerator. -/
theorem raises_of_reads {slot : LocalId}
    (reads : c.Reads ((a.emit (.loadLocal slot)).emit .advance)) (hpc : f.pc = a.code.size)
    (hidle : f.locals[slot]? = some .unset) :
    ∃ g, c.Sweeps ((a.emit (.loadLocal slot)).emit .advance).code.size (.running f, w)
      (c.body.raise g (.ofFault .notAnEnumerator), w) := by
  obtain ⟨load, move⟩ := code_of_reads reads
  rw [← hpc] at load move
  have loaded : f.execute (.loadLocal slot) = .ok (.next (f.push .unset)) := by
    simp only [Frame.execute, Frame.getLocal, hidle]
    rfl
  have fails : ({ f.push .unset with pc := f.pc + 1 } : Frame).execute .advance = _ :=
    Frame.execute_advance_unset rfl
  refine ⟨_, .behind (.next (step_next load loaded) (Nat.lt_succ_self _) (.refl _))
    (.step ?_ (step_error move fails))⟩
  simp [Frame.push, hpc]

/-- The code of a step of a loop, up to one of its stages. -/
structure AdvanceStages (c : Setting σ) (s s₁ s' : LayoutState) (d : Draft) (slot : LocalId) :
    Prop where
  front : (s.mapAsm fun asm => (asm.emit (.loadLocal slot)).emit .advance).Open
  tested : s₁.Open
  bound : LayoutState.Open { s₁ with draft := d }
  front_evolves : ((s.asm.emit (.loadLocal slot)).emit .advance).Evolves c.final
  tested_evolves : s₁.asm.Evolves c.final
  bound_evolves : d.asm.Evolves c.final
  labels : ∀ b l, s₁.labels.lookup b = some l → s'.labels.lookup b = some l

/-- Control goes on from each of the stages, and what is written at them stays. -/
theorem advanceStages {s₁ : LayoutState} {slot : LocalId} {body next : BlockId} (opened : s.Open)
    (hnext : Ends (transferIf env scope (.deciding false) next)
      (s.mapAsm fun asm => (asm.emit (.loadLocal slot)).emit .advance) () s₁)
    (hbind : Ends (bindEntry env.body slot key value) s₁.draft () d)
    (hbody : Ends (transfer env scope body) { s₁ with draft := d } u s')
    (behind : s'.asm.Evolves c.final) : AdvanceStages c s s₁ s' d slot := by
  have loaded : s.asm.Evolves (s.asm.emit (.loadLocal slot)) := .single (.emit rfl)
  have moved : (s.asm.emit (.loadLocal slot)).Evolves ((s.asm.emit (.loadLocal slot)).emit .advance) :=
    .single (.emit rfl)
  have ready := opened.ready.code (d := ⟨_, s.draft.nextSite⟩) (loaded.trans moved)
  obtain ⟨tested, -⟩ := extends_of_ends_transferIf ready (List.mem_singleton_self _) hnext
  have slots₁ := ((loaded.trans moved).trans tested.evolves).slots_sound opened.slots
  have bound := evolves_of_ends_bindEntry slots₁ hbind
  obtain ⟨jumped, -⟩ :=
    extends_of_ends_transfer (tested.ready.code bound) (List.mem_singleton_self _) hbody
  have bound_evolves := jumped.evolves.trans behind
  have tested_evolves := bound.trans bound_evolves
  have front_evolves := tested.evolves.trans tested_evolves
  have fault := (Assembler.finish_cases c.finished).1
  have front := (opened.emit (i := .loadLocal slot) rfl rfl
    ((moved.trans front_evolves).fault fault)).emit (i := .advance) rfl rfl
      (front_evolves.fault fault)
  have opened₁ := opened_of_ends_transferIf front hnext (tested_evolves.fault fault)
  have goes := onward_bindEntry _ _ _ hbind (bound_evolves.fault fault)
  exact ⟨front, opened₁, opened₁.code bound (goes.2 opened₁.arrives) (bound_evolves.fault fault),
    front_evolves, tested_evolves, bound_evolves, jumped.labels⟩

/-- A step of a loop binds the next entry, or ends the loop. -/
theorem departs_of_ends_advance (hs : c.Seats seats) {loop : EdgeId} {body next : BlockId}
    (opened : s.Open)
    (h : Ends (placeEdge env enter scope e ⟨number, source, .advance loop key value body next⟩) s u s')
    (known : ∀ e id, s'.enumerators.lookup e = some id → seats e = some id)
    (behind : s'.asm.Evolves c.final) (last : c.EndsAt s'.asm past)
    (stands : c.Stands seats f s.asm.code.size vars loops) :
    Departs c seats past later (c.HeadsFor env.ranges scope s'.labels) f w
      ((((EdgeKind.advance loop key value body next).meaning c.world env.body e loops).runFrom
        s.draft.nextSite).1.outcome vars w) := by
  have whole := (extends_of_ends_placeEdge opened.ready opened.slots rfl h).1
  obtain ⟨slot, s₁, d, hslot, hnext, hbind, hbody⟩ := parts_of_ends_advance h
  have seat : seats loop = some slot := known loop slot (whole.enumerators loop slot hslot)
  have stages := advanceStages opened hnext hbind hbody behind
  have reads : c.Reads ((s.asm.emit (.loadLocal slot)).emit .advance) :=
    ⟨stages.front.sound, stages.front_evolves⟩
  -- In front of the last jump are the test and the code that binds the entry.
  have ahead : d.asm.code.size ≤ past := last.ahead hbody stages.bound.arrives
  have tested : s₁.asm.code.size ≤ past :=
    (leads_of_ends_bindEntry stages.tested.slots hbind).size_le.trans ahead
  have moved : ((s.asm.emit (.loadLocal slot)).emit .advance).code.size ≤ past :=
    (jumped_of_ends_transferIf hnext).size_le.trans tested
  change Departs _ _ _ _ _ _ _ ((Eval.advance env.body loops loop key value body next).outcome vars w)
  unfold Eval.advance
  cases hl : loops loop with
  | none =>
    obtain ⟨g, reach⟩ := raises_of_reads (w := w) reads stands.pc (stands.tracks.idle seat hl)
    exact .fails (reach.mono moved)
  | some cursor =>
    dsimp only
    obtain ⟨k, hk, hc⟩ := stands.tracks.runs seat hl
    have advances := climbs_of_reads (w := w) reads stands.pc stands.stack hk hc
    -- The frame behind the instructions that move the enumerator on and ask whether it has an
    -- entry.
    let g : Frame := { f with
      pc := ((s.asm.emit (.loadLocal slot)).emit .advance).code.size
      stack := [.value (.bool cursor.advance.current.isSome)]
      cursors := f.cursors.setIfInBounds k cursor.advance }
    have other : g.stack ≠ f.stack := by simp [g, stands.stack]
    have hg : g.Agrees c.final.slots vars := stands.agrees.congr rfl rfl rfl
    have tracks : g.Tracks seats (loops.set loop cursor.advance) :=
      (stands.tracks.moves seat hk cursor.advance).congr (fun _ => rfl) rfl
    have test := tests_of_ends_transferIf (w := w) hnext stages.front.ready stages.front.sound
      stages.tested_evolves stages.front.arrives (f := g) rfl rfl
    cases hentry : cursor.advance.current with
    | none =>
      rw [hentry] at test
      -- No entry is left, so the jump leads to the block behind the loop.
      obtain ⟨pc, heads, reach'⟩ := test
      exact .advance advances other (.goes (reach'.mono tested) (.inl trivial) (heads.mono stages.labels)
        ⟨rfl, rfl, hg.congr rfl rfl rfl, tracks.congr (fun _ => rfl) rfl⟩)
    | some entry =>
      rw [hentry] at test
      -- The jump is passed, the entry is bound to its variables, and the body of the loop comes
      -- next.
      let g₁ : Frame := { g with pc := s₁.asm.code.size, stack := [] }
      have tracks₁ : g₁.Tracks seats (loops.set loop cursor.advance) :=
        tracks.congr (fun _ => rfl) rfl
      have hc₁ : g₁.cursors[k]? = some cursor.advance := by
        have := (Array.getElem?_eq_some_iff.mp hc).1
        simp [g₁, g, this]
      have binds := comes_of_ends_bindEntry (f := g₁) (w := w) stages.tested.sound
        stages.tested.slots stages.bound_evolves rfl rfl (hg.congr rfl rfl rfl) hk (hs.slot seat)
        hbind hc₁ hentry
      refine .advance advances other (.behind test (binds.departs ahead ?_))
      intro _ vars' w' g₂ _ reach₂ hpc₂ hstack₂ hvars₂ beside₂
      exact .behind reach₂ (departs_of_ends_transfer hbody stages.bound behind last
        ⟨hpc₂, hstack₂, hvars₂, tracks₁.beside hs beside₂⟩)

/-- A switch goes on at the block that it chooses. -/
theorem departs_of_ends_switch (hs : c.Seats seats) {cases : List SwitchCase} {next : BlockId}
    (opened : s.Open)
    (h : Ends (placeEdge env enter scope e ⟨number, source, .switch subject cases next⟩) s u s')
    (behind : s'.asm.Evolves c.final) (last : c.EndsAt s'.asm past)
    (stands : c.Stands seats f s.asm.code.size vars loops) :
    Departs c seats past later (c.HeadsFor env.ranges scope s'.labels) f w
      ((((EdgeKind.switch subject cases next).meaning c.world env.body e loops).runFrom
        s.draft.nextSite).1.outcome vars w) := by
  obtain ⟨d, s₂, s₃, hvalue, hcases, hother, hnext⟩ := parts_of_ends_switch h
  obtain ⟨hdraft, hlabels⟩ := same_of_ends_enqueue hnext
  have hasm : s'.asm = s₃.asm := congrArg Draft.asm hdraft
  rw [hasm] at behind last
  rw [hlabels]
  obtain ⟨behind₂, -, proceeded, ready, sound⟩ :=
    stages_of_ends_switch opened hvalue hcases hother behind
  obtain ⟨-, number, comes⟩ := value_of_ends_emitValue (w := w) opened hvalue
    (evolves_stow.trans (proceeded.evolves.trans behind₂)) stands
  change Departs _ _ _ _ _ _ _ ((((switchMeaning c.world env.body subject cases next).runFrom
    s.draft.nextSite).1 >>= fun target => pure (target, loops)).outcome vars w)
  rw [runFrom_switchMeaning]
  dsimp only
  rw [← number, bind_assoc]
  have ahead : s₂.asm.code.size ≤ past :=
    last.ahead (s := s₂.freed d.asm.slots.scratch.1) hother proceeded.poised.arrives
  refine comes.departs_pushed
    ((leads_stow.trans proceeded.leads).size_le.trans ahead) stands.stack ?_
  intro x vars' w' g _ hpc hstack hvars beside
  have arrives := arrives_at_cases (w := w') opened hvalue hcases hother behind hpc hstack hvars
  have more := labels_of_ends_switch opened hvalue hcases hother
  rw [Eval.pickOr, bind_assoc, Eval.outcome_bind]
  revert arrives
  generalize Eval.outcome (Eval.pick _ _) vars' w' = r
  intro arrives
  cases arrives with
  | @ends b _ w₂ g' reach at_ hstack' hvars' beside' =>
    have tracks := (stands.tracks.beside hs beside).beside hs beside'
    cases b with
    | some b =>
      -- A case is taken in front of the last jump.
      exact .goes (reach.mono ahead) (.inl trivial) (at_.mono more) ⟨rfl, hstack', hvars', tracks⟩
    | none =>
      obtain ⟨pc, heads, lands⟩ :=
        lands_behind_cases (f := g') opened hvalue hcases hother behind at_
      have left := lands.sweeps_transfer (s := s₂.freed d.asm.slots.scratch.1) (w := w₂) hother ready
        sound proceeded.poised.arrives behind last at_
      exact .behind (reach.climbs (Nat.le_of_eq at_.symm)) (.goes left (.inl trivial) heads
        ⟨rfl, hstack', hvars'.congr rfl rfl rfl, tracks.congr (fun _ => rfl) rfl⟩)
  | fails reach => exact .fails (reach.mono ahead)
  | waits reach hnone => exact .waits reach hnone

/-- Placed blocks have labels, which have their places. -/
def LayoutState.Seated (s : LayoutState) : Prop :=
  ∀ b ∈ s.placed, ∃ l n, s.labels.lookup b = some l ∧ s.asm.PlacedAt l n

/-- A jump to a block that is placed already is an instruction of its own. Only a jump to a block
that is placed later may be missing, and be no step. -/
theorem departs_of_ends_jump {target : BlockId} (root : scope.kind = .root) (opened : s.Open)
    (seated : s.Seated) (h : Ends (transfer env scope target) s u s')
    (behind : s'.asm.Evolves c.final) (last : c.EndsAt s'.asm past)
    (stands : c.Stands seats f s.asm.code.size vars loops) :
    Departs c seats past (· ∉ s.placed) (c.HeadsFor env.ranges scope s'.labels) f w
      (some (.ok (target, loops), vars, w)) := by
  have stays {pc : Nat} : c.Stands seats { f with pc } pc vars loops :=
    ⟨rfl, stands.stack, stands.agrees.congr rfl rfl rfl, stands.tracks.congr (fun _ => rfl) rfl⟩
  by_cases mem : target ∈ s.placed
  · obtain ⟨l, n, name, placed⟩ := seated target mem
    obtain ⟨r, hr, rfl⟩ := goTo_of_ends_transfer h
    have known : s.withLabel target = (l, s) := by rw [LayoutState.withLabel, name]
    -- Outside of all scopes no target is left to another scope, and no handler ends.
    have plain : r = .within ∨ r = .exit := by
      cases r with
      | within => exact .inl rfl
      | exit => exact .inr rfl
      | leave =>
        have left := route_leave hr
        rw [Scope.isLeft, root] at left
        cases left
      | endFinally =>
        have kind := route_endFinally hr
        rw [root] at kind
        cases kind
    rw [if_pos opened.arrives, known] at behind last ⊢
    have written : (s.goTo target l r).asm = s.asm.branch .always l := by
      obtain rfl | rfl := plain
      · exact asm_pushFirst _ _
      · rfl
    rw [written] at behind
    have step : s.asm.Evolves (s.asm.branch .always l) :=
      .single (.branch (opened.ready target l name))
    have jump : c.Reads (s.asm.branch .always l) := .of_evolves opened.sound step behind
    have fault := behind.fault (Assembler.finish_cases c.finished).1
    have placed₁ := (step.kept opened.sound fault).placed l n placed
    -- In finished code the branch has the place of its label.
    have hi : c.body.code[f.pc]? = some (.jump n) := by
      rw [c.code, stands.pc]
      change c.out.code[s.asm.code.size]? = some (BranchKind.always.instruction n)
      refine jump.kept.branch_of_placed c.sound c.finished ?_ ?_ placed₁
      · rw [Assembler.code_branch]
        exact Array.getElem?_push_size
      · rw [Assembler.Awaits, Assembler.fixups_branch]
        exact Array.mem_push_self
    have heads : c.HeadsFor env.ranges scope (s.goTo target l r).labels target n :=
      .block hr plain (by rw [labels_goTo]; exact name) (jump.kept.placed l n placed₁)
    have step : c.body.step f = .running { f with pc := n } := step_jump hi rfl
    have awaits : (s.asm.branch .always l).Awaits f.pc l := by
      rw [Assembler.Awaits, Assembler.fixups_branch, stands.pc]
      exact Array.mem_push_self
    have size : (s.asm.branch .always l).code.size = f.pc + 1 := by
      rw [Assembler.code_branch, Array.size_push, stands.pc]
    have emerges : c.Emerges past (.running f, w) (.running { f with pc := n }, w) :=
      Setting.EndsAt.emerges (written ▸ last) jump.sound size awaits placed₁ step
    exact .goes (.emerges emerges) (.inr emerges) heads stays
  · obtain ⟨pc, heads, lands⟩ := exists_headsFor h opened.ready opened.sound behind
      opened.arrives stands.pc
    exact .goes (lands.sweeps_transfer h opened.ready opened.sound opened.arrives behind last
      stands.pc) (.inl mem) heads stays

/-- **The code of an edge** follows its meaning. Only a block that is placed later may be reached
without a step. -/
theorem departs_of_ends_placeEdge {edge : Edge} (hs : c.Seats seats) (root : scope.kind = .root)
    (plain : edge.kind.isTry = false) (opened : s.Open) (seated : s.Seated)
    (h : Ends (placeEdge env enter scope e edge) s u s')
    (known : ∀ e id, s'.enumerators.lookup e = some id → seats e = some id)
    (behind : s'.asm.Evolves c.final) (last : c.EndsAt s'.asm past)
    (stands : c.Stands seats f s.asm.code.size vars loops) :
    Departs c seats past (· ∉ s.placed) (c.HeadsFor env.ranges scope s'.labels) f w
      (((edge.kind.meaning c.world env.body e loops).runFrom s.draft.nextSite).1.outcome vars w) := by
  obtain ⟨number, source, kind⟩ := edge
  cases kind with
  | jump target => exact departs_of_ends_jump root opened seated h behind last stands
  | branch condition ifTrue ifFalse => exact departs_of_ends_branch hs opened h behind last stands
  | tryCatch => cases plain
  | enumerate subject target =>
    exact departs_of_ends_enumerate hs opened h known behind last stands
  | advance loop key value body next =>
    exact departs_of_ends_advance hs opened h known behind last stands
  | switch subject cases next => exact departs_of_ends_switch hs opened h behind last stands

end Edges

/-! ## Call sites in edges -/

section Sites

variable {σ : Type} (c : Setting σ) {env : LayoutEnv} {enter : Enter} {scope : Scope}
    {s s' : LayoutState} {u : PUnit} {e : EdgeId} {edge : Edge} {d d' : Draft}

theorem nextSite_of_ends_emitValue {env : BodyEnv} {value : Expr}
    (h : Ends (emitValue env value) d () d') :
    d'.nextSite = ((value.meaning c.world env).runFrom d.nextSite).2 := by
  have pushed : Pushes c (emitValue env value) (value.meaning c.world env) :=
    (means_lower value).value
  exact (pushed []).numbers _ _ _ h

include c in
theorem nextSite_of_ends_bindEntry {env : BodyEnv} {slot : LocalId} {key : Option String}
    {value : String} (h : Ends (bindEntry env slot key value) d u d') :
    d'.nextSite = d.nextSite := by
  have part {part : Instruction} {name : String} {d d' : Draft} {u : PUnit}
      (h : Ends (bindPart env slot part name) d u d') : d'.nextSite = d.nextSite := by
    simp only [bindPart, ends_bind, ends_emit] at h
    obtain ⟨_, _, rfl, _, _, rfl, hstore⟩ := h
    have stores : Means c (-1) (storeVariable env name) [.unset]
        (fun _ => Eval.writeVariable env name .unset) id fun _ => [] := means_storeVariable name
    have same := stores.numbers _ _ _ hstore
    exact same
  obtain ⟨d₁, hvalue, ⟨-, rfl⟩ | ⟨name, -, hkey⟩⟩ := parts_of_ends_bindEntry h
  · exact part hvalue
  · exact (part hkey).trans (part hvalue)

theorem nextSite_of_ends_placeCases {subject : LocalId} {cases : List SwitchCase}
    (h : Ends (placeCases env scope subject cases) s u s') :
    s'.draft.nextSite = ((meaningCases c.world env.body cases).runFrom s.draft.nextSite).2 := by
  induction cases generalizing s with
  | nil => rw [(ends_pure.mp h).2]; rfl
  | cons case rest ih =>
    rw [meaningCases]
    cases hv : case.value with
    | none =>
      simp only [placeCases, hv] at h
      exact ih h
    | some value =>
      obtain ⟨d, s₁, hcompare, hjump, hrest⟩ := case_of_ends_placeCases hv h
      have jumped := jumped_of_ends_transferIf hjump
      rw [ih hrest, jumped.nextSite, nextSite_of_compareCase c hcompare]
      rfl

/-- **An edge draws the numbers** of its call sites, whatever loops have been started. -/
theorem nextSite_of_ends_placeEdge (plain : edge.kind.isTry = false)
    (h : Ends (placeEdge env enter scope e edge) s u s') (loops : Loops) :
    s'.draft.nextSite =
      ((edge.kind.meaning c.world env.body e loops).runFrom s.draft.nextSite).2 := by
  obtain ⟨number, source, kind⟩ := edge
  cases kind with
  | jump => exact (jumped_of_ends_transfer h).nextSite
  | branch condition ifTrue ifFalse =>
    obtain ⟨d, s₁, hvalue, hfalse, htrue⟩ := parts_of_ends_branch h
    rw [(jumped_of_ends_transfer htrue).nextSite, (jumped_of_ends_transferIf hfalse).nextSite]
    exact nextSite_of_ends_emitValue c hvalue
  | tryCatch => cases plain
  | enumerate subject target =>
    obtain ⟨d, slot, s₁, hvalue, hslot, hjump⟩ := parts_of_ends_enumerate h
    have named : s₁.draft.nextSite = d.nextSite := by
      obtain ⟨-, rfl⟩ | ⟨-, -, rfl⟩ := enumeratorSlot_cases hslot <;> rfl
    refine (jumped_of_ends_transfer hjump).nextSite.trans (named.trans ?_)
    exact nextSite_of_ends_emitValue c hvalue
  | advance loop key value body next =>
    obtain ⟨slot, s₁, d, -, hnext, hbind, hbody⟩ := parts_of_ends_advance h
    refine (jumped_of_ends_transfer hbody).nextSite.trans ?_
    exact (nextSite_of_ends_bindEntry c hbind).trans (jumped_of_ends_transferIf hnext).nextSite
  | switch subject cases next =>
    obtain ⟨d, s₂, s₃, hvalue, hcases, hother, hnext⟩ := parts_of_ends_switch h
    obtain ⟨hdraft, -⟩ := same_of_ends_enqueue hnext
    have jumped := (jumped_of_ends_transfer hother).nextSite
    have tried := nextSite_of_ends_placeCases c hcases
    rw [hdraft, jumped, show (s₂.freed _).draft.nextSite = s₂.draft.nextSite from rfl, tried,
      show (s.stowed d).draft.nextSite = d.nextSite from rfl, nextSite_of_ends_emitValue c hvalue]
    rfl

end Sites

end StackScript
