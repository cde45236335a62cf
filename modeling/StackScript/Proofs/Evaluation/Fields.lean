import StackScript.Proofs.Evaluation.Calls

/-!
# Fields follow their meaning

A value that is stored and still needed waits in a scratch slot. The slot is nobody's when it is
handed out, and whatever runs in between leaves it alone.

## Main results

* `Follows.scratch`: a value that waits in a scratch slot
* `means_lowerFieldLoad`, `means_lowerFieldStore`: fields of objects
* `means_loadStatic`, `means_storeStatic`: static fields
-/

namespace StackScript

open Emit
open Assembler (Evolves Grows)

/-! ## Values that wait -/

section Scratch

variable {σ β : Type} {c : Setting σ} {a b d : Assembler} {id : LocalId} {slot : LocalSlot}
  {x : Slot} {rest mid after base : List Slot} {m : Eval σ β} {f : Frame} {vars : Vars} {s : σ}

/-- The load of a slot that holds a value. -/
theorem climbs_loadLocal (hc : c.Reads (a.emit (.loadLocal id))) (hpc : f.pc = a.code.size)
    (hx : f.locals[id]? = some x) :
    c.Climbs (.running f, s) (.running { f.push x with pc := f.pc + 1 }, s) := by
  have execute : f.execute (.loadLocal id) = .ok (.next (f.push x)) := by
    simp only [Frame.execute, Frame.getLocal, hx]
    rfl
  have hi : c.body.code[f.pc]? = some (.loadLocal id) := hpc ▸ hc.last rfl
  exact .next (step_next hi execute) (Nat.lt_succ_self _) (.refl _)

/-- A value goes into a scratch slot that is handed out for it, and nobody misses what was there. -/
theorem exists_storeScratch (ha : a.slots.Sound) (hid : id = a.slots.scratch.1)
    (hc : c.Reads ({ a with slots := a.slots.scratch.2 }.emit (.storeLocal id)))
    (hpc : f.pc = a.code.size) (hstack : f.stack = x :: base)
    (hvars : f.Agrees c.final.slots vars) :
    ∃ g : Frame, c.Climbs (.running f, s) (.running g, s) ∧ g.pc = f.pc + 1 ∧ g.stack = base ∧
      g.Agrees c.final.slots vars ∧ f.Beside a.slots c.final.slots g ∧ g.locals[id]? = some x := by
  obtain ⟨slot, hslot, hrole⟩ := Slots.slot_scratch ha
  have role : slot.role ≠ .variable ∧ slot.role ≠ .result := by simp [hrole]
  have final : c.final.slots.slots[id]? = some slot :=
    hc.evolves.slots_within id slot (by rw [Assembler.slots_emit, hid]; exact hslot)
  let g : Frame := { f with pc := f.pc + 1, stack := base, locals := f.locals.setIfInBounds id x }
  have hi : c.body.code[f.pc]? = some (.storeLocal id) := hpc ▸ hc.last rfl
  have execute : f.execute (.storeLocal id) = .ok (.next { g with pc := f.pc }) := by
    simp only [Frame.execute, Frame.pop, hstack]
    show (Frame.setLocal _ id x >>= _) = _
    rw [Frame.setLocal, if_pos (hvars.lt final)]
    rfl
  refine ⟨g, .next (step_next hi execute) (Nat.lt_succ_self _) (.refl _), rfl, rfl,
    (hvars.setLocal final role.1 role.2).congr rfl rfl rfl, ?_, ?_⟩
  · refine .congr (Frame.beside_setLocal (fun _ _ h => (Slots.not_held_scratch (hid ▸ h)).elim)
      fun slot' hslot' => ?_) rfl rfl rfl
    obtain rfl := Option.some.inj (final.symm.trans hslot')
    simp [hrole]
  · rw [Frame.getElem?_setLocal (hvars.lt final), if_pos rfl]

/-- **A value that waits in a scratch slot** is there when it is needed: for the instructions that
take it, and behind them. -/
theorem Follows.scratch (ha : a.slots.Sound) (hid : id = a.slots.scratch.1)
    (below : Follows c ({ a with slots := a.slots.scratch.2 }.emit (.storeLocal id)) b rest
      (pure ()) fun _ => mid)
    (last : Follows c (b.emit (.loadLocal id)) d (x :: mid) m fun _ => after)
    (hstore : c.Reads ({ a with slots := a.slots.scratch.2 }.emit (.storeLocal id)))
    (hload : c.Reads (b.emit (.loadLocal id))) (hload' : c.Reads (d.emit (.loadLocal id))) :
    Follows c a { d.emit (.loadLocal id) with slots := (d.emit (.loadLocal id)).slots.release id }
      (x :: rest) (m >>= fun _ => pure x) fun y => y :: after := by
  set store := { a with slots := a.slots.scratch.2 }.emit (.storeLocal id) with hs
  have slots : store.slots = a.slots.scratch.2 := by rw [hs, Assembler.slots_emit]
  have held : store.slots.Held id := by
    rw [slots, hid]
    exact Slots.held_scratch_self ha
  obtain ⟨slot, hslot, hrole⟩ := Slots.slot_scratch ha
  rw [← slots, ← hid] at hslot
  have role : slot.role ≠ .result := by simp [hrole]
  have start : Leads a store := by
    refine ⟨by simp [hs], ?_, fun id hid => ?_⟩
    · rw [slots]
      exact (Slots.Serve.scratch _).within
    · rw [slots]
      exact Slots.held_scratch hid
  have load : Leads b (b.emit (.loadLocal id)) := leads_emit
  have loaded : Leads store (b.emit (.loadLocal id)) := below.leads.trans load
  have stored : Leads a (d.emit (.loadLocal id)) :=
    start.trans (loaded.trans (last.leads.trans leads_emit))
  refine ⟨⟨stored.size_le, stored.within.trans (Slots.Serve.release _ _).within, fun id' h => ?_⟩,
    fun f base vars s hpc hstack hvars => ?_⟩
  · refine Slots.held_release (stored.held id' h) ?_
    rintro rfl
    exact Slots.not_held_scratch (hid ▸ h)
  -- The slot is in use from here on, so it keeps the value.
  have kept {e : Assembler} {g g' : Frame} (he : Leads store e)
      (hg : g.Beside e.slots c.final.slots g') (hx : g.locals[id]? = some x) : g'.locals[id]? = some x :=
    (hg.held id slot (he.within id slot hslot) role (he.held id held)).trans hx
  obtain ⟨g, reach, hpc₀, hstack₀, hvars₀, beside, here⟩ :=
    exists_storeScratch (s := s) ha hid hstore hpc hstack hvars
  refine .behind reach start beside ?_
  rw [← pure_bind () fun _ => m >>= fun _ => pure x]
  refine Comes.bind (below.comes g base vars s (by simp [hpc₀, hs, hpc]) hstack₀ hvars₀) below.leads
    (load.trans (last.leads.trans leads_emit)).size_le ?_
  intro u vars₁ s₁ f₁ hu hpc₁ hstack₁ hvars₁ beside₁
  cases hu
  have there : f₁.locals[id]? = some x := kept (.refl _) beside₁ here
  refine .behind (climbs_loadLocal hload hpc₁ there) load (.congr (.refl _ _) rfl rfl rfl) ?_
  refine Comes.bind (last.comes { f₁.push x with pc := f₁.pc + 1 } base vars s (by simp [hpc₁])
    (by simp [Frame.push, hstack₁]) (hvars₁.congr rfl rfl rfl)) last.leads leads_emit.size_le ?_
  intro y vars₂ s₂ f₂ _ hpc₂ hstack₂ hvars₂ beside₂
  have still : f₂.locals[id]? = some x := kept loaded beside₂ there
  rw [Eval.outcome_pure]
  refine .ends (climbs_loadLocal hload' hpc₂ still) ?_ ?_ (hvars₂.congr rfl rfl rfl)
    (.congr (.refl _ _) rfl rfl rfl)
  · simp [hpc₂]
  · simp [Frame.push, hstack₂]

end Scratch

section SetAside

variable {σ β : Type} {c : Setting σ} {x : Slot} {rest mid after : List Slot} {m : Eval σ β}

/-- A value waits while others are pushed below it and is there again behind what takes it. -/
theorem means_setAside {j k : Int} {below last : Emit Unit}
    (hbelow : Means c j below rest (fun _ => pure ()) id fun _ => mid)
    (hlast : Means c k last (x :: mid) (fun _ => m) id fun _ => after) :
    Means c (j + k + 1) (setAside below last) (x :: rest) (fun _ => m >>= fun _ => pure x) id
      fun y => y :: after := by
  refine ⟨emits_setAside hbelow.emits hlast.emits, fun d _ d' he => ?_, fun d _ d' hd hs he hc => ?_⟩
  · obtain ⟨d₁, d₂, hends, hends', rfl⟩ := parts_of_ends_setAside he
    have same := hbelow.numbers _ _ _ hends
    have same' := hlast.numbers _ _ _ hends'
    exact same'.trans same
  · -- The slot stays free of other values from the store to the second load, whatever is pushed.
    obtain ⟨d₁, d₂, hends, hends', rfl⟩ := parts_of_ends_setAside he
    have serve : d.asm.Evolves { d.asm with slots := d.asm.slots.scratch.2 } :=
      .single (.serve (.scratch _))
    have store := serve.trans (.single (.emit (i := .storeLocal d.asm.slots.scratch.1) rfl))
    have sound := store.slots_sound hs
    have grows := hbelow.emits.grows (d := ⟨_, d.nextSite⟩) sound hends
    have sound' : (d₁.asm.emit (.loadLocal d.asm.slots.scratch.1)).slots.Sound := by
      rw [Assembler.slots_emit]
      exact grows.sound sound
    have grows' := hlast.emits.grows (d := ⟨_, d₁.nextSite⟩) sound' hends'
    have load : d₁.asm.Evolves (d₁.asm.emit (.loadLocal d.asm.slots.scratch.1)) :=
      .single (.emit rfl)
    have load' : d₂.asm.Evolves (d₂.asm.emit (.loadLocal d.asm.slots.scratch.1)) :=
      .single (.emit rfl)
    have back := load'.trans (Evolves.trans (.single (.serve (.release _ _))) hc)
    have onward := load.trans (grows'.evolves.trans back)
    have reads := Setting.Reads.of_evolves hd store (grows.evolves.trans onward)
    have reads₁ := Setting.Reads.of_evolves reads.sound (grows.evolves.trans load)
      (grows'.evolves.trans back)
    have reads₂ := Setting.Reads.of_evolves reads₁.sound (grows'.evolves.trans load')
      (Evolves.trans (.single (.serve (.release _ _))) hc)
    exact .scratch hs rfl (hbelow.follows ⟨_, d.nextSite⟩ _ _ reads.sound sound hends onward)
      (hlast.follows ⟨_, d₁.nextSite⟩ _ _ reads₁.sound sound' hends' back) reads reads₁ reads₂

end SetAside

/-! ## Fields of objects -/

namespace Frame

variable {f : Frame} {base : List Slot} {r x : Slot} {object : ObjectRef} {field : String}

theorem execute_loadField (h : f.stack = r :: base) (ho : r.toValue.object? = some object) :
    f.execute (.loadField field) =
      .ok (.ask (.loadField object field) { f with stack := base }) := by
  simp [execute, popValue, pop, h, ho, bind, Except.bind, pure, Except.pure]

theorem execute_loadField_error (h : f.stack = r :: base) (ho : r.toValue.object? = none) :
    f.execute (.loadField field) = .error (.failed (.fieldRead field r.toValue.kind)) := by
  simp [execute, popValue, pop, h, ho, bind, Except.bind, pure, Except.pure]

theorem execute_storeField (h : f.stack = x :: r :: base) (ho : r.toValue.object? = some object) :
    f.execute (.storeField field) =
      .ok (.ask (.storeField object field x.toValue) { f with stack := base }) := by
  simp [execute, popValue, pop, h, ho, bind, Except.bind, pure, Except.pure]

theorem execute_storeField_error (h : f.stack = x :: r :: base) (ho : r.toValue.object? = none) :
    f.execute (.storeField field) = .error (.failed (.fieldWrite field r.toValue.kind)) := by
  simp [execute, popValue, pop, h, ho, bind, Except.bind, pure, Except.pure]

end Frame

section Fields

variable {σ : Type} {c : Setting σ} {pre : List Slot} {x r : Slot} {field : String}
  {receiver value : Emit Unit} {m mr : Numbered (Eval σ Slot)}

/-- The field of a receiver that is known, if it is an object. -/
theorem means_readField :
    Means c 0 (emit (.loadField field)) (r :: pre) (fun _ => Eval.readField c.world field r) id
      fun y => y :: pre := by
  unfold Eval.readField
  cases ho : r.toValue.object? with
  | some object =>
    exact means_request [r] rfl rfl rfl rfl fun f base hf => Frame.execute_loadField hf ho
  | none =>
    exact means_emit rfl rfl rfl fun _ hc => follows_throw rfl hc fun f base vars hf _ =>
      Frame.execute_loadField_error hf ho

theorem means_writeField :
    Means c (-2) (emit (.storeField field)) (x :: r :: pre)
      (fun _ => Eval.writeField c.world field r x) id fun _ => pre := by
  unfold Eval.writeField
  cases ho : r.toValue.object? with
  | some object =>
    exact means_command [x, r] rfl rfl rfl rfl fun f base hf => Frame.execute_storeField hf ho
  | none =>
    exact means_emit rfl rfl rfl fun _ hc => follows_throw rfl hc fun f base vars hf _ =>
      Frame.execute_storeField_error hf ho

theorem means_lowerFieldLoad (hr : Pushes c receiver mr) :
    Means c 1 (do receiver; emit (.loadField field)) pre
      (fun n => Eval.loadField c.world field (mr.runFrom n).1) (fun n => (mr.runFrom n).2)
      fun y => y :: pre :=
  ((hr pre).bind fun _ _ => means_readField).cast rfl

/-- An assignment to a field, whose value is kept in a scratch slot. -/
theorem means_lowerFieldStore (hr : Pushes c receiver mr) (hv : Pushes c value m) :
    Means c 1 (lowerFieldStore receiver field value) pre
      (fun n => Eval.storeField c.world field (mr.runFrom n).1 (m.runFrom (mr.runFrom n).2).1)
      (fun n => (m.runFrom (mr.runFrom n).2).2) fun y => y :: pre := by
  have kept (r x : Slot) :
      Means c _ _ (x :: r :: pre) (fun _ => Eval.writeField c.world field r x >>= fun _ => pure x) id
        fun y => y :: pre :=
    means_setAside (means_pure (x := ()) (y := ()) fun _ => r :: pre) means_writeField
  rw [lowerFieldStore_eq]
  exact ((hr pre).bind fun _ r => (hv (r :: pre)).bind fun _ x => kept r x).cast rfl

/-- An assignment to a field, whose value is not needed. -/
theorem means_dropFieldStore (hr : Pushes c receiver mr) (hv : Pushes c value m) :
    Means c 0 (do receiver; value; emit (.storeField field)) pre
      (fun n => Eval.storeField c.world field (mr.runFrom n).1 (m.runFrom (mr.runFrom n).2).1)
      (fun n => (m.runFrom (mr.runFrom n).2).2) fun _ => pre :=
  ((hr pre).bind fun _ r => (hv (r :: pre)).bind fun _ x =>
    means_writeField.map (fun _ => x) fun _ => rfl).cast rfl

end Fields

/-! ## Static fields -/

section Statics

variable {σ : Type} {c : Setting σ} {env : BodyEnv} {pre : List Slot} {x : Slot}
  {type owner : QualifiedName} {field : String} {value : Emit Unit} {m : Numbered (Eval σ Slot)}
  {bound : Bool}

/-- A static field is known when code is written for it. -/
theorem resolveStaticField_eq (h : Eval.staticField? env type field = some (owner, bound)) :
    resolveStaticField env type field = pure (owner, bound) := by
  unfold Eval.staticField? at h
  unfold resolveStaticField
  cases hr : env.table.resolveStatic? type.text field with
  | none => simp [hr] at h
  | some entry =>
    rw [hr] at h
    exact congrArg pure (Option.some.inj h)

theorem not_ends_resolveStaticField (h : Eval.staticField? env type field = none) {d d' : Draft}
    {found : QualifiedName × Bool} : ¬ Ends (resolveStaticField env type field) d found d' := by
  unfold Eval.staticField? at h
  unfold resolveStaticField
  cases hr : env.table.resolveStatic? type.text field with
  | none =>
    dsimp only
    split
    · exact not_ends_throw
    · exact not_ends_throw
  | some entry => simp [hr] at h

/-- Code behind the look-up of a static field. -/
theorem means_resolveStaticField {β : Type} {k : Int}
    {cont : QualifiedName × Bool → Emit Unit} {m : SiteId → Eval σ β} {next : SiteId → SiteId}
    {post : β → List Slot}
    (h : ∀ owner bound, Eval.staticField? env type field = some (owner, bound) →
      Means c k (cont (owner, bound)) pre m next post) :
    Means c k (resolveStaticField env type field >>= cont) pre m next post := by
  cases hs : Eval.staticField? env type field with
  | none =>
    refine means_never fun d u d' he => ?_
    obtain ⟨_, _, hfound, -⟩ := ends_bind.mp he
    exact not_ends_resolveStaticField hs hfound
  | some found =>
    rw [resolveStaticField_eq hs, pure_bind]
    exact h _ _ hs

theorem means_loadStatic :
    Means c 1 (loadStatic env type field) pre (fun _ => Eval.loadStatic c.world env type field) id
      fun y => y :: pre := by
  unfold loadStatic
  refine means_resolveStaticField fun owner bound hs => ?_
  unfold Eval.loadStatic
  rw [hs]
  cases bound with
  | true =>
    exact (means_context.before fun _ => means_request [.context] rfl rfl rfl rfl fun f base hf => by
      simp only [Frame.execute, Frame.pop, hf]
      rfl).cast rfl
  | false =>
    exact means_request [] rfl rfl rfl rfl fun f base hf => by
      rw [List.nil_append] at hf
      rw [← hf]
      rfl

/-- An assignment to a static field, whose value is kept or not. -/
theorem means_storeStatic (hv : Pushes c value m) (keep : Bool) :
    Means c (if keep then 1 else 0) (storeStatic env type field value keep) pre
      (fun n => Eval.storeStatic c.world env type field (m.runFrom n).1)
      (fun n => (m.runFrom n).2) fun y => if keep then y :: pre else pre := by
  have shared {owner : QualifiedName} (x : Slot) (pre : List Slot) :
      Means c (-1) (emit (.storeShared owner field)) (x :: pre)
        (fun _ => discard (Eval.request c.world (.storeShared owner field x.toValue))) id
        fun _ => pre :=
    means_command [x] rfl rfl rfl rfl fun f base hf => by
      simp only [Frame.execute, Frame.popValue, Frame.pop, hf]
      rfl
  have ofContext {owner : QualifiedName} (x : Slot) :
      Means c (-2) (emit (.storeBound owner field)) (x :: .context :: pre)
        (fun _ => discard (Eval.request c.world (.storeBound owner field x.toValue))) id
        fun _ => pre :=
    means_command [x, .context] rfl rfl rfl rfl fun f base hf => by
      simp only [Frame.execute, Frame.popValue, Frame.pop, hf]
      rfl
  unfold storeStatic
  refine means_resolveStaticField fun owner bound hs => ?_
  unfold Eval.storeStatic Eval.writeStatic
  rw [hs]
  cases bound <;> cases keep
  · exact ((hv pre).bind fun _ x => (shared x pre).map (fun _ => x) fun _ => rfl).cast rfl
  · exact ((hv pre).bind fun _ x => means_dup.bind fun _ y =>
      (shared y (y :: pre)).map (fun _ => y) fun _ => rfl).cast rfl
  · exact (means_context.before fun _ => (hv (.context :: pre)).bind fun _ x =>
      (ofContext x).map (fun _ => x) fun _ => rfl).cast rfl
  · exact ((hv pre).bind fun _ x => means_setAside means_context (ofContext x)).cast rfl

end Statics

end StackScript
