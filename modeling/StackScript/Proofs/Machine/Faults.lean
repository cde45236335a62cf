import StackScript.Proofs.Machine.Completion

/-!
# What a frame may stumble over

An instruction stumbles only over values that are not there: on the stack, in a slot, or as an
enumerator.

A handler that is abandoned leaves its completion behind, so the end of a `finally` handler may take
up one that is not its own. But a handler is entered with a completion, and no other code starts in
it: at any time at least as many completions wait as handlers are running, and as many wait behind
a completion as handlers are running where it goes on. So one waits for every end of a handler.

## Main definitions

* `Instruction.Lacking`: what an instruction needs and does not find
* `Body.Backs`, `Body.Backed`: enough completions wait behind one, and behind all of them
* `Body.Supplied`: enough completions wait in a frame

## Main results

* `Frame.fails_execute`: an instruction that finds what it needs has no fault
* `Body.lacking_of_step`: so has a frame whose instruction does
* `Body.Runs.supplied`: enough completions wait in every frame of every run
* `Body.Supplied.exists_completion`: one waits for the end of a handler
-/

namespace StackScript

/-! ## Instructions -/

/-- An error, if there is one, has the property. -/
def Fails {α : Type} (P : DispatchError → Prop) (x : Except DispatchError α) : Prop :=
  ∀ e, x = .error e → P e

namespace Fails

variable {α β : Type} {P : DispatchError → Prop} {Q : α → Prop} {x : Except DispatchError α}

theorem ok (a : α) : Fails P (.ok a) := nofun

theorem error {e : DispatchError} (h : P e) : Fails P (.error e : Except DispatchError α) := by
  intro e' he
  cases he
  exact h

theorem bind {f : α → Except DispatchError β} (h : Fails P x) (h' : Yields Q x)
    (next : ∀ a, Q a → Fails P (f a)) : Fails P (x >>= f) := by
  intro e he
  cases x with
  | error =>
    cases he
    exact h _ rfl
  | ok a => exact next a (h' a rfl) e he

end Fails

/-- What an instruction needs and does not find, if it stumbles. -/
def Instruction.Lacking (i : Instruction) (frame : Frame) : DispatchError → Prop
  | .failed (.fault fault) =>
    frame.stack.length < i.pops ∨
      (∃ id, i.local? = some id ∧ frame.locals.size ≤ id) ∨
      fault = .notAnEnumerator ∧ (i = .advance ∨ i = .enumeratorKey ∨ i = .enumeratorValue) ∧
        ∀ k rest, frame.stack = .enumerator k :: rest → frame.cursors.size ≤ k
  | _ => True

namespace Frame

variable {frame f : Frame} {i : Instruction} {n : Nat}

/-- A value that an instruction takes is missing only if there are too few. -/
theorem fails_pop (h : frame.Trades n [] f) (lt : n < i.pops) : Fails (i.Lacking frame) f.pop := by
  unfold pop
  split
  case h_1 => exact .ok _
  case h_2 empty =>
    refine .error (.inl ?_)
    have none : frame.stack.drop n = [] := (h.stack.symm.trans empty)
    exact Nat.lt_of_le_of_lt (List.drop_eq_nil_iff.mp none) lt

theorem fails_popValue (h : frame.Trades n [] f) (lt : n < i.pops) :
    Fails (i.Lacking frame) f.popValue :=
  (fails_pop h lt).bind (yields_pop h) fun _ _ => .ok _

theorem fails_popMany {count : Nat} (le : count ≤ i.pops) :
    Fails (i.Lacking frame) (frame.popMany count) := by
  unfold popMany
  split
  case isTrue few => exact .error (.inl (Nat.lt_of_lt_of_le few le))
  case isFalse => exact .ok _

theorem fails_popValues {count : Nat} (le : count ≤ i.pops) :
    Fails (i.Lacking frame) (frame.popValues count) :=
  (fails_popMany le).bind yields_popMany fun _ _ => .ok _

/-- An enumerator that is asked is missing, or something else is there. -/
theorem fails_popCursor (asks : i = .advance ∨ i = .enumeratorKey ∨ i = .enumeratorValue) :
    Fails (i.Lacking frame) frame.popCursor := by
  have lacking (stack : ∀ k rest, frame.stack = .enumerator k :: rest → frame.cursors.size ≤ k) :
      i.Lacking frame (.ofFault .notAnEnumerator) := .inr (.inr ⟨rfl, asks, stack⟩)
  unfold popCursor pop
  cases stack : frame.stack with
  | nil =>
    refine .error (.inl ?_)
    rw [stack]
    obtain rfl | rfl | rfl := asks <;> exact Nat.zero_lt_one
  | cons slot rest =>
    rw [stack] at lacking
    cases slot with
    | enumerator k =>
      dsimp only [bind, Except.bind]
      split
      case h_1 => exact .ok _
      case h_2 none =>
        refine .error (lacking ?_)
        rintro _ _ ⟨⟩
        exact Array.getElem?_eq_none_iff.mp none
    | value => exact .error (lacking (by rintro _ _ ⟨⟩))
    | context => exact .error (lacking (by rintro _ _ ⟨⟩))

/-- **An instruction that finds what it needs** has no fault. -/
theorem fails_execute (frame : Frame) (i : Instruction) :
    Fails (i.Lacking frame) (frame.execute i) := by
  have start : frame.Trades 0 [] frame := .refl frame
  have pop {n : Nat} {f : Frame} : frame.Trades n [] f → n < i.pops →
      Fails (i.Lacking frame) f.pop := fails_pop
  have popValue {n : Nat} {f : Frame} : frame.Trades n [] f → n < i.pops →
      Fails (i.Lacking frame) f.popValue := fails_popValue
  cases i with
  | nop | loadNull | loadBool | loadLong | loadDouble | loadString | loadArg | loadContext
  | loadShared | jump | leave | endFinally => exact .ok _
  | loadThis =>
    simp only [execute]
    split
    · exact .ok _
    · exact .error trivial
  | loadLocal id =>
    simp only [execute, getLocal]
    split
    case h_1 => exact .ok _
    case h_2 none => exact .error (.inr (.inl ⟨id, rfl, Array.getElem?_eq_none_iff.mp none⟩))
  | storeLocal id =>
    have same : Yields (fun x => x.2.locals = frame.locals) frame.pop := by
      unfold Frame.pop
      split
      · exact .pure rfl
      · exact .error
    refine (pop start Nat.zero_lt_one).bind same ?_
    rintro ⟨slot, f⟩ locals
    show Fails _ ((setLocal f id slot).bind fun f => .ok (Effect.next f))
    unfold setLocal
    split
    case isTrue => exact .ok _
    case isFalse few =>
      exact .error (.inr (.inl ⟨id, rfl, Nat.le_of_not_lt (locals ▸ few)⟩))
  | dup =>
    simp only [execute]
    split
    case h_1 => exact .ok _
    case h_2 empty => exact .error (.inl (by rw [empty]; exact Nat.zero_lt_one))
  | assertNotNull =>
    simp only [execute]
    split
    · exact .error trivial
    · exact .error trivial
    · exact .ok _
  | storeArg | pop | loadBound =>
    exact (pop start Nat.zero_lt_one).bind (yields_pop start) fun _ _ => .ok _
  | storeShared | unary | isInstance | isExactType | «return» =>
    exact (popValue start Nat.zero_lt_one).bind (yields_popValue start) fun _ _ => .ok _
  | throw =>
    exact (popValue start Nat.zero_lt_one).bind (yields_popValue start) fun _ _ =>
      .error trivial
  | binary =>
    exact (popValue start Nat.zero_lt_two).bind (yields_popValue start) fun _ h =>
      (popValue h Nat.one_lt_two).bind (yields_popValue h) fun _ _ => .ok _
  | storeBound | echo =>
    exact (popValue start Nat.zero_lt_two).bind (yields_popValue start) fun _ h =>
      (pop h Nat.one_lt_two).bind (yields_pop h) fun _ _ => .ok _
  | newArray size keyed =>
    cases keyed <;>
      exact (fails_popValues (Nat.le_refl _)).bind yields_popValues fun _ _ => .ok _
  | newObject => exact (fails_popMany (Nat.le_refl _)).bind yields_popMany fun _ _ => .ok _
  | call body argc onObject =>
    cases onObject with
    | false => exact (fails_popMany (Nat.le_refl _)).bind yields_popMany fun _ _ => .ok _
    | true =>
      exact (fails_popMany (Nat.le_succ _)).bind yields_popMany fun _ h =>
        (popValue h (Nat.lt_succ_self _)).bind (yields_popValue h) fun _ _ => .ok _
  | callGlobal =>
    exact (fails_popValues (Nat.le_succ _)).bind yields_popValues fun _ h =>
      (pop h (Nat.lt_succ_self _)).bind (yields_pop h) fun _ _ => .ok _
  | callSite =>
    exact (fails_popValues (Nat.le_add_right _ 2)).bind yields_popValues fun _ h =>
      (pop h (Nat.lt_add_of_pos_right Nat.zero_lt_two)).bind (yields_pop h) fun _ h =>
        (popValue h (Nat.lt_succ_self _)).bind (yields_popValue h) fun _ _ => .ok _
  | loadField field =>
    refine (popValue start Nat.zero_lt_one).bind (yields_popValue start) ?_
    rintro ⟨value, f⟩ -
    dsimp only
    split
    · exact .ok _
    · exact .error trivial
  | storeField field =>
    refine (popValue start Nat.zero_lt_two).bind (yields_popValue start) fun _ h =>
      (popValue h Nat.one_lt_two).bind (yields_popValue h) ?_
    rintro ⟨receiver, f⟩ -
    dsimp only
    split
    · exact .ok _
    · exact .error trivial
  | getEnumerator =>
    refine (popValue start Nat.zero_lt_one).bind (yields_popValue start) ?_
    rintro ⟨value, f⟩ -
    dsimp only
    split
    · exact .ok _
    · exact .error trivial
  | advance => exact (fails_popCursor (.inl rfl)).bind (yields_popCursor start) fun _ _ => .ok _
  | enumeratorKey | enumeratorValue =>
    refine (fails_popCursor (by simp)).bind (yields_popCursor start) ?_
    rintro ⟨id, cursor, f⟩ -
    dsimp only
    split
    · exact .ok _
    · exact .error trivial
  | jumpIfTrue | jumpIfFalse =>
    exact (popValue start Nat.zero_lt_one).bind (yields_popValue start) fun _ _ => .ok _

end Frame

namespace Body

variable {body : Body} {frame : Frame} {i : Instruction} {error e : DispatchError} {fault : Fault}

/-- An error that ends the frame is the one that was raised. -/
theorem eq_of_raise (h : body.raise frame error = .failed e) : e = error := by
  unfold raise at h
  split at h
  · split at h
    · cases h
    · exact (Step.failed.inj h).symm
  · exact (Step.failed.inj h).symm

/-- **A fault of a frame** is that its instruction does not find what it needs. -/
theorem lacking_of_step (hi : body.code[frame.pc]? = some i)
    (waits : i = .endFinally → frame.pending ≠ [])
    (h : body.step frame = .failed (.ofFault fault)) : i.Lacking frame (.ofFault fault) := by
  unfold step at h
  rw [hi] at h
  dsimp only at h
  split at h
  case h_1 error failed => exact eq_of_raise h ▸ Frame.fails_execute frame i _ failed
  case h_6 ends =>
    obtain rfl : i = .endFinally := Frame.yields_execute frame i _ ends
    split at h
    case h_1 => cases h
    case h_2 => cases eq_of_raise h
    case h_3 none => exact (waits rfl none).elim
  all_goals cases h

end Body

/-! ## The ends of handlers -/

namespace Body

/-- So many completions are enough behind this one: for the handlers that are running at its target,
and for those on the way there but for the first of them. -/
def Backs (body : Body) (waiting : Nat) : Completion → Prop
  | .leave t remaining =>
    ∃ n regions, body.Way n t regions ∧ remaining = regions.map (·.handlerStart) ∧
      (body.running t).length ≤ waiting ∧
      ∀ region ∈ regions, (body.running region.handlerStart).length ≤ waiting + 1
  | .rethrow _ => True

/-- Behind each of the completions there are enough. -/
inductive Backed (body : Body) : List Completion → Prop where
  | nil : Backed body []
  | cons {completion waiting} : body.Backs waiting.length completion → Backed body waiting →
      Backed body (completion :: waiting)

/-- **Enough completions wait** for the handlers that are running. -/
structure Supplied (body : Body) (frame : Frame) : Prop where
  comes : body.ComesTo frame.pc
  enough : (body.running frame.pc).length ≤ frame.pending.length
  backed : body.Backed frame.pending

variable {body : Body} {frame after waits : Frame} {history : List Frame} {region : Region}
  {regions : List Region} {completion : Completion} {waiting : List Completion} {n t : Nat}

theorem Backed.tail (h : body.Backed waiting) : body.Backed waiting.tail := by
  cases h with
  | nil => exact .nil
  | cons _ h => exact h

namespace Orderly

/-- Handlers that are among others are not more. -/
theorem length_running (hb : body.Orderly) {others : List Region}
    (h : ∀ region ∈ body.running n, region ∈ others) :
    (body.running n).length ≤ others.length :=
  ((hb.nodup.sublist List.filter_sublist).subperm h).length_le

/-- At the start of a handler there is one handler more than around it. -/
theorem length_handler (hb : body.Orderly) {others : List Region}
    (h : ∀ other ∈ body.running region.handlerStart, other ≠ region → other ∈ others) :
    (body.running region.handlerStart).length ≤ others.length + 1 := by
  have fewer : (body.running region.handlerStart).length ≤ (region :: others).length := by
    refine hb.length_running fun other ho => ?_
    by_cases he : other = region
    · exact he ▸ List.mem_cons_self
    · exact List.mem_cons_of_mem _ (h other ho he)
  exact fewer

end Orderly

namespace Supplied

/-- The handlers that stay have enough completions behind the instruction. -/
theorem staying (h : body.Supplied frame) :
    (body.staying frame).length ≤ (body.waiting frame).length := by
  unfold Body.staying Body.waiting
  split
  · simpa only [List.length_tail] using Nat.sub_le_sub_right h.enough 1
  · exact h.enough

theorem backed_waiting (h : body.Supplied frame) : body.Backed (body.waiting frame) := by
  unfold Body.waiting
  split
  · exact h.backed.tail
  · exact h.backed

/-- Control goes on without a new completion. -/
theorem goes_on (hb : body.Orderly) (h : body.Supplied frame) (hcomes : body.ComesTo after.pc)
    (hpending : after.pending = body.waiting frame)
    (hsub : ∀ region ∈ body.running after.pc, region ∈ body.staying frame) :
    body.Supplied after where
  comes := hcomes
  enough := hpending ▸ Nat.le_trans (hb.length_running hsub) h.staying
  backed := hpending ▸ h.backed_waiting

/-- Control starts a handler with a completion. -/
theorem enters (hb : body.Orderly) (h : body.Supplied frame) (hr : region ∈ body.regions)
    (hpc : after.pc = region.handlerStart)
    (hpending : after.pending = completion :: body.waiting frame)
    (hbacks : body.Backs (body.waiting frame).length completion)
    (hsub : ∀ other ∈ body.running region.handlerStart, other ≠ region →
      other ∈ body.staying frame) :
    body.Supplied after where
  comes := hpc ▸ .handler hr
  enough := by
    rw [hpc, hpending, List.length_cons]
    exact Nat.le_trans (hb.length_handler hsub) (Nat.succ_le_succ h.staying)
  backed := hpending ▸ .cons hbacks h.backed_waiting

/-- A completion that is taken up goes on, to the next handler on its way or to its target. -/
theorem completes (way : body.Way n t regions)
    (hafter : after = complete waits t (regions.map (·.handlerStart)))
    (target : (body.running t).length ≤ waits.pending.length)
    (handlers : ∀ region ∈ regions,
      (body.running region.handlerStart).length ≤ waits.pending.length + 1)
    (backed : body.Backed waits.pending) : body.Supplied after := by
  subst hafter
  cases regions with
  | nil => exact ⟨.branch way.comes way.branch rfl, target, backed⟩
  | cons region rest =>
    refine ⟨.handler (way.crossed region List.mem_cons_self).1, ?_, .cons ?_ backed⟩
    · exact handlers region List.mem_cons_self
    · exact ⟨n, rest, way.tail, rfl, target, fun other ho =>
        handlers other (List.mem_cons_of_mem _ ho)⟩

/-- A `leave` sets out. -/
theorem leave (hb : body.Orderly) (h : body.Supplied frame)
    (hi : body.code[frame.pc]? = some (.leave t))
    (hafter : after = complete { frame with stack := [] } t (body.crossed frame.pc t)) :
    body.Supplied after := by
  obtain ⟨regions, way, hcrossed⟩ := hb.exists_way h.comes hi
  rw [hcrossed] at hafter
  have waits : body.waiting frame = frame.pending := waiting_of_ne (hi ▸ nofun)
  have enough := h.staying
  rw [waits] at enough
  refine completes way hafter ?_ (fun region hr => ?_) h.backed
  · exact Nat.le_trans (hb.length_running fun _ => hb.staying_branch hi rfl) enough
  · obtain ⟨hr, -, hprotects, -⟩ := way.crossed region hr
    exact Nat.le_trans (hb.length_handler fun _ => hb.staying_crossed hi hr hprotects)
      (Nat.succ_le_succ enough)

/-- The end of a handler goes on with the completion that it takes up. -/
theorem ends (h : body.Supplied frame) {remaining : List Nat} {rest : List Completion}
    (hpending : frame.pending = .leave t remaining :: rest)
    (hafter : after = complete { frame with pending := rest } t remaining) :
    body.Supplied after := by
  have backed := h.backed
  rw [hpending] at backed
  cases backed with
  | cons backs backed =>
    obtain ⟨n, regions, way, rfl, target, handlers⟩ := backs
    exact completes way hafter target handlers backed

/-- A thrown value comes to its handler. -/
theorem raised (hb : body.Orderly) (h : body.Supplied frame) {thrown : Frame} {value : Value}
    (hpending : thrown.pending = body.waiting frame) (hr : region ∈ body.regions)
    (hprotects : region.protects frame.pc = true)
    (hafter : after = enterHandler thrown region value) : body.Supplied after := by
  have stays : ∀ other ∈ body.running region.handlerStart, other ≠ region →
      other ∈ body.staying frame := fun _ ho hne => hb.staying_raised hr hprotects ho hne
  subst hafter
  unfold enterHandler
  split
  case h_1 type hkind =>
    refine h.goes_on hb (.handler hr) hpending fun other ho => stays other ho ?_
    rintro rfl
    have hf := (mem_running.mp ho).2.1
    rw [Region.isFinally_iff, hkind] at hf
    cases hf
  case h_2 => exact h.enters hb hr rfl (congrArg _ hpending) trivial stays

/-- **Every move** leaves enough completions. -/
theorem move (hb : body.Orderly) (h : body.Supplied frame) (hm : body.Move frame after) :
    body.Supplied after := by
  cases hm with
  | @next i _ hi transfer hpc hpending =>
    have ne : body.code[frame.pc]? ≠ some .endFinally := by
      rw [hi]
      rintro ⟨⟩
      cases transfer
    refine h.goes_on hb (hpc ▸ .next h.comes hi transfer)
      (hpending.trans (waiting_of_ne ne).symm) fun region hr => ?_
    exact hb.staying_next h.comes hi transfer (hpc ▸ hr)
  | @jump i t hi target hne hpc hpending =>
    have ne : body.code[frame.pc]? ≠ some .endFinally := by
      rw [hi]
      rintro ⟨⟩
      cases target
    refine h.goes_on hb (hpc ▸ .branch h.comes hi target)
      (hpending.trans (waiting_of_ne ne).symm) fun region hr => ?_
    exact hb.staying_branch hi target (hpc ▸ hr)
  | leave hi hafter => exact h.leave hb hi hafter
  | ends _ hpending hafter => exact h.ends hpending hafter
  | raised hpending hr hprotects hafter => exact h.raised hb hpending hr hprotects hafter

/-- A completion waits for the end of a handler. -/
theorem exists_completion (hb : body.Orderly) (h : body.Supplied frame)
    (hi : body.code[frame.pc]? = some .endFinally) :
    ∃ completion rest, frame.pending = completion :: rest := by
  obtain ⟨region, around, hrunning, -⟩ := hb.running_ends hi
  have enough := h.enough
  rw [hrunning] at enough
  cases hpending : frame.pending with
  | nil =>
    rw [hpending] at enough
    exact absurd enough (by simp)
  | cons completion rest => exact ⟨completion, rest, rfl⟩

end Supplied

/-- **Enough completions wait** in every frame of every run, whatever handlers were abandoned. -/
theorem Runs.supplied (hb : body.Orderly) (h : body.Runs (frame :: history)) :
    body.Supplied frame := by
  induction history generalizing frame with
  | nil =>
    cases h
    refine ⟨.first, Nat.le_of_eq ?_, .nil⟩
    exact congrArg List.length hb.running_start
  | cons before history ih =>
    cases h with
    | goes h hgoes => exact (ih h).move hb hgoes.move

end Body

end StackScript
