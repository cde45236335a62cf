import StackScript.Proofs.Machine.Initializers
import StackScript.Proofs.Program.Fronts
import StackScript.Proofs.Writing.ContextFree

/-!
# The code of type initializers

The initial values of the static fields that all contexts share are expressions that need no
execution context. So the initializer of these fields does nothing but store them: it asks for
nothing else, in whatever memory and context it runs. There is code for it, unless one of the
expressions mentions `this` or the body has too many local slots.

## Main definitions

* `Instruction.Initializes`: what the initializer of a type is made of

## Main results

* `WorkItem.cause_of_compile`: why there may be no initializer
* `WorkItem.initializes_of_compile`, `WorkItem.quiet_of_compile`: what the body is made of
* `contextFree_initializers`: expressions that need no context, and type initializers
-/

namespace StackScript

open Emit

/-! ## Writing initializers -/

/-- The instruction stays inside its frame, or stores to a static field of the type that all contexts
share. -/
def Instruction.Initializes (entry : TypeEntry) (i : Instruction) : Prop :=
  i.staysInside = true ∨ ∃ field ∈ entry.sharedFields, i = .storeShared entry.name field.name

/-- An initial value of a static field that all contexts share mentions `this`. -/
def TypeEntry.InitializesByThis (entry : TypeEntry) : Prop :=
  ∃ field ∈ entry.sharedFields, ∃ value, field.initializer = some value ∧ value.MentionsThis

section Writing

variable {env : BodyEnv} {entry : TypeEntry} {field : Field}

theorem requiresContext_of_mem_sharedFields (mem : field ∈ entry.sharedFields) :
    field.requiresContext = false := by
  simpa using (List.mem_filter.mp mem).2

theorem writesOnly_initialValue (noContext : ∀ param ∈ env.params, param.isContext = false)
    (mem : field ∈ entry.sharedFields) :
    StaysInside env entry.InitializesByThis (initialValue env field) := by
  have free := requiresContext_of_mem_sharedFields mem
  unfold initialValue
  unfold Field.requiresContext at free
  split
  case h_1 value given =>
    rw [given] at free
    exact (staysInside_emitValue noContext value free).mono fun mentions =>
      ⟨field, mem, value, given, mentions⟩
  case h_2 => exact .emit rfl

/-- Initializers of shared fields, written behind one another. -/
theorem writesOnly_initializeShared (noContext : ∀ param ∈ env.params, param.isContext = false)
    {fields : List Field} (own : ∀ field ∈ fields, field ∈ entry.sharedFields) :
    WritesOnly (Instruction.Initializes entry) (LacksThisOrSlot env entry.InitializesByThis)
      (initializeShared env entry fields) := by
  induction fields with
  | nil => exact .pure ()
  | cons field rest ih =>
    obtain ⟨mem, own⟩ := List.forall_mem_cons.mp own
    have stored : WritesOnly (Instruction.Initializes entry)
        (LacksThisOrSlot env entry.InitializesByThis) (emit (.storeShared entry.name field.name)) :=
      .emit (.inr ⟨field, mem, rfl⟩)
    have value : WritesOnly (Instruction.Initializes entry)
        (LacksThisOrSlot env entry.InitializesByThis) (initialValue env field) :=
      WritesOnly.mono (writesOnly_initialValue noContext mem) (fun _ => .inl) fun _ => id
    exact value.bind fun _ => stored.bind fun _ => ih own

theorem writesOnly_sharedInitializerCode
    (noContext : ∀ param ∈ env.params, param.isContext = false) :
    WritesOnly (Instruction.Initializes entry) (LacksThisOrSlot env entry.InitializesByThis)
      (sharedInitializerCode env entry) := by
  have written {i : Instruction} (own : i.staysInside = true) :
      WritesOnly (Instruction.Initializes entry) (LacksThisOrSlot env entry.InitializesByThis)
        (emit i) := .emit (.inl own)
  exact (writesOnly_initializeShared noContext fun _ => id).bind fun _ =>
    (written rfl).bind fun _ => written rfl

theorem careful_initializeShared (fields : List Field) :
    Careful 0 0 (initializeShared env entry fields) := by
  have value (field : Field) : Careful 0 1 (initialValue env field) := by
    unfold initialValue
    split
    · exact careful_emitValue _
    · exact careful_emit rfl rfl (Nat.le_refl 0) rfl
  induction fields with
  | nil => exact careful_pure
  | cons field rest ih =>
    exact (value field).bind (m := 1) (k := -1) ((careful_emit rfl rfl (Nat.le_refl 1) rfl).bind ih
      (Nat.le_refl 1) (by omega) (by rfl)) (Nat.le_refl 0) (by omega) rfl

/-- **Initializers run into no fault**: they are finished unless there are too many local slots. -/
theorem finish_sharedInitializerCode {n maxLocals : Nat} {d : Draft}
    (ends : Ends (sharedInitializerCode env entry) (.start n) () d) {cause : Cause}
    (fails : d.asm.finish maxLocals = .error cause) :
    maxLocals < d.asm.slots.size ∧ cause = .capacity .local d.asm.slots.size maxLocals := by
  unfold sharedInitializerCode returnNull at ends
  simp only [ends_bind, ends_emit] at ends
  obtain ⟨_, stored, initialized, _, _, rfl, rfl⟩ := ends
  have careful : Careful 0 0 (initializeShared env entry entry.sharedFields) :=
    careful_initializeShared _
  have clean := careful.clean _ _ _ Slots.sound_empty initialized
  have grows := careful.emits.grows Slots.sound_empty initialized
  have fault : stored.asm.fault = none := clean.faultless rfl (Nat.zero_le _)
  have fault' : ((stored.asm.emit .loadNull).emit .return).fault = none := by
    refine Assembler.faultless_emit (Assembler.faultless_emit fault (Nat.zero_le _)) ?_
    rw [Assembler.depth_emit]
    exact Nat.le_add_left 1 _
  have resolved (n : Nat) (l : Label)
      (waits : ((stored.asm.emit .loadNull).emit .return).Awaits n l) :
      ∃ o, ((stored.asm.emit .loadNull).emit .return).PlacedAt l o := by
    have waits : stored.asm.Awaits n l := by simpa [Assembler.Awaits] using waits
    rcases clean.resolved fault n l waits with before | ⟨o, place⟩
    · simp [Assembler.Awaits, Draft.start, Assembler.empty] at before
    · exact ⟨o, by simpa [Assembler.PlacedAt] using place⟩
  by_cases many : maxLocals < ((stored.asm.emit .loadNull).emit .return).slots.size
  · rw [Assembler.finish_of_lt fault' resolved many] at fails
    cases fails
    exact ⟨many, rfl⟩
  · obtain ⟨out, finished⟩ := Assembler.exists_finish fault' resolved (Nat.not_lt.mp many)
    rw [finished] at fails
    cases fails

end Writing

/-! ## Bodies of initializers -/

namespace WorkItem

variable {table : Table} {settings : Settings} {entry : TypeEntry} {n : SiteId} {body : Body}

/-- **Why there may be no initializer**: an initial value mentions `this`, or there are too many local
slots. -/
theorem cause_of_compile {error : CodegenError}
    (h : ((sharedInitializer entry).compile table settings n).1 = .error error) :
    entry.InitializesByThis ∧ error.cause = .invariant .thisInStaticBody ∨
      ∃ count, settings.maxLocals < count ∧
        error.cause = .capacity .local count settings.maxLocals := by
  let env : BodyEnv :=
    ⟨table, settings, (sharedInitializer entry).bodyName.text, [], true, false⟩
  have only : WritesOnly (Instruction.Initializes entry) _ (sharedInitializerCode env entry) :=
    writesOnly_sharedInitializerCode nofun
  rcases cause_of_compileMember h with stops | ⟨d, ends, fails⟩
  · generalize error.cause = cause at stops
    cases only.cause _ cause stops with
    | this _ mentioned => exact .inl ⟨mentioned, rfl⟩
    | slot lt => exact (Nat.not_lt_zero _ lt).elim
  · obtain ⟨many, cause⟩ := finish_sharedInitializerCode ends fails
    exact .inr ⟨_, many, cause⟩

/-- **What the body of an initializer is made of.** -/
theorem initializes_of_compile
    (h : ((sharedInitializer entry).compile table settings n).1 = .ok body) :
    ∀ i ∈ body.code, i.Initializes entry := by
  obtain ⟨d, out, ends, finished, rfl⟩ := exists_assembled_of_compileMember h
  let env : BodyEnv :=
    ⟨table, settings, (sharedInitializer entry).bodyName.text, [], true, false⟩
  have written : Written env (.sharedInitializer entry) .blank _ (sharedInitializerCode env entry) :=
    written_sharedInitializerCode
  obtain ⟨notes, -, holds⟩ := written.takes ends (Assembler.finish_cases finished).1 _
    Assembler.holds_empty
  intro i mem
  obtain ⟨m, at_⟩ := Array.getElem?_of_mem mem
  cases target : i.target? with
  | some t =>
    -- A branch of finished code has the place of its label for its target.
    obtain ⟨l, kind, -, -, -, rfl⟩ := Assembler.finish_branch holds.sound finished at_ target
    exact .inl (by cases kind <;> rfl)
  | none =>
    have there := Assembler.finish_instruction holds.sound finished at_ target
    have only : WritesOnly (Instruction.Initializes entry) _ (sharedInitializerCode env entry) :=
      writesOnly_sharedInitializerCode nofun
    obtain ⟨code, added, own⟩ := only.code (.start n)
    have same : (sharedInitializerCode env entry).run (.start n) = (.ok (), d) := ends
    rw [same] at added
    have mem := Array.mem_of_getElem? there
    rw [show d.asm.code = #[] ++ code from added, Array.empty_append] at mem
    exact own i mem

/-- **The body of an initializer of shared static fields is quiet.** -/
theorem quiet_of_compile (h : ((sharedInitializer entry).compile table settings n).1 = .ok body) :
    body.Quiet (nameKey entry.name.text) := by
  intro i mem
  rcases initializes_of_compile h i mem with inside | ⟨field, -, rfl⟩
  · cases i <;> trivial
  · rfl

theorem regions_of_compile (h : ((sharedInitializer entry).compile table settings n).1 = .ok body) :
    body.regions = [] := by
  obtain ⟨_, _, -, -, rfl⟩ := exists_assembled_of_compileMember h
  rfl

end WorkItem

/-! ## Runs of initializers -/

section Runs

variable {σ : Type} {world : World σ} {body : Body} {key : String} {entry : TypeEntry}
    {y : Step × σ}

/-- Whatever it is answered, a quiet body without regions stays quiet, or fails. -/
theorem quiet_of_moves (quiet : body.Quiet key) (none : body.regions = []) {x : Step × σ}
    (move : Moves world body x y) (h : x.1.Quiet body ∨ ∃ error, x.1 = .failed error) :
    y.1.Quiet body ∨ ∃ error, y.1 = .failed error := by
  cases move with
  | step =>
    rcases h with h | ⟨error, failed⟩
    · exact .inl (h.bare_frame.step body)
    · cases failed
  | @resume request frame s answer s' answered =>
    rcases h with h | ⟨error, failed⟩
    · obtain ⟨type, field, value, rfl, -, -, resumed⟩ := h.stores quiet
      cases answer with
      | error e => exact .inr ⟨e, body.raise_of_regions none frame e⟩
      | ok v => exact .inl resumed
    · cases failed

/-- A run of a quiet body without regions is quiet, or has failed. -/
theorem quiet_of_reaches (quiet : body.Quiet key) (none : body.regions = []) {s : σ}
    (run : Reaches world body (.running (.enter body Option.none []), s) y) :
    y.1.Quiet body ∨ ∃ error, y.1 = .failed error := by
  induction run with
  | refl => exact .inl ((Frame.Bare.enter body).running body)
  | tail _ move ih => exact quiet_of_moves quiet none move ih

/-- What an initializer asks for. -/
theorem Step.Quiet.initializes {request : Request} {frame : Frame}
    (h : (Step.asking request frame).Quiet body) (quiet : body.Quiet key)
    (made : ∀ i ∈ body.code, i.Initializes entry) :
    ∃ field ∈ entry.sharedFields, ∃ value, request = .storeShared entry.name field.name value := by
  obtain ⟨type, name, value, rfl, -⟩ := h.stores quiet
  obtain ⟨i, mem, rfl⟩ := h.asked
  rcases made _ mem with inside | ⟨field, own, same⟩
  · cases inside
  · cases same
    exact ⟨field, own, value, rfl⟩

/-- **What an initializer stores are initial values of its own fields.** -/
theorem Body.fields_of_settle (quiet : body.Quiet key)
    (made : ∀ i ∈ body.code, i.Initializes entry) {fuel : Nat} {step : Step}
    {settled : Except DispatchError Value × Stores} (h : step.Quiet body)
    (settles : body.settle fuel step = some settled) :
    ∀ stored ∈ settled.2, ∃ field ∈ entry.sharedFields, field.name = stored.1 := by
  induction fuel generalizing step settled with
  | zero => cases settles
  | succ fuel ih =>
    unfold settle at settles
    cases step with
    | returned | failed =>
      cases settles
      exact fun _ mem => by simp at mem
    | running frame => exact ih (h.bare_frame.step body) settles
    | asking request frame =>
      obtain ⟨type, name, value, rfl, -, -, resumed⟩ := h.stores quiet
      obtain ⟨field, own, _, same⟩ := h.initializes quiet made
      cases same
      obtain ⟨later, ends, rfl⟩ := Option.map_eq_some_iff.mp settles
      intro stored mem
      rcases List.mem_cons.mp mem with rfl | mem
      · exact ⟨field, own, rfl⟩
      · exact ih resumed ends stored mem

end Runs

/-- **Expressions that need no context never use one, and neither do the initializers made of them.**

The code of such an expression has no call site and no instruction that reaches out of its frame,
wherever it is written without a context among the parameters, and it can be written unless `this`
or the slot of a parameter is missing. So there is an initializer for the shared static fields of
every type unless an initial value mentions `this` or there are too many local slots. In every world
it asks for stores to these fields alone; on the machine it comes to the same outcome in every
memory and in every context, and changes nothing else. -/
theorem contextFree_initializers (table : Table) (settings : Settings) (entry : TypeEntry)
    (n : SiteId) :
    (∀ (env : BodyEnv) (e : Expr) (d : Draft), e.requiresContext = false →
      (∀ param ∈ env.params, param.isContext = false) →
      ((emitValue env e).run d).2.nextSite = d.nextSite ∧
      (∃ code, ((emitValue env e).run d).2.asm.code = d.asm.code ++ code ∧
        ∀ i ∈ code, i.staysInside = true) ∧
      ∀ cause, ((emitValue env e).run d).1 = .error cause →
        LacksThisOrSlot env e.MentionsThis cause) ∧
    (∀ error, ((WorkItem.sharedInitializer entry).compile table settings n).1 = .error error →
      entry.InitializesByThis ∧ error.cause = .invariant .thisInStaticBody ∨
        ∃ count, settings.maxLocals < count ∧
          error.cause = .capacity .local count settings.maxLocals) ∧
    ∀ body, ((WorkItem.sharedInitializer entry).compile table settings n).1 = .ok body →
      (∀ {σ : Type} (world : World σ) (s s' : σ) (request : Request) (frame : Frame),
        Reaches world body (.running (.enter body none []), s) (.asking request frame, s') →
        ∃ field ∈ entry.sharedFields, ∃ value,
          request = .storeShared entry.name field.name value) ∧
      ∀ fuel, (∀ outcome stores,
          body.settle fuel (.running (.enter body none [])) = some (outcome, stores) →
          ∀ stored ∈ stores, ∃ field ∈ entry.sharedFields, field.name = stored.1) ∧
        ∀ (image : Image) (context : ContextId) (memory : Memory),
          memory.shared.meets (nameKey entry.name.text) = .granted →
          (image.run fuel context (.frame body (.running (.enter body none [])))).run memory =
            (body.settle fuel (.running (.enter body none []))).map fun (outcome, stores) =>
              (outcome, memory.withShared (memory.shared.store entry.name.text stores)) := by
  refine ⟨fun env e d free noContext => ?_, fun error => WorkItem.cause_of_compile,
    fun body compiled => ?_⟩
  · have stays := staysInside_emitValue noContext e free
    exact ⟨stays.nextSite d, stays.code d, stays.cause d⟩
  have quiet := WorkItem.quiet_of_compile compiled
  have made := WorkItem.initializes_of_compile compiled
  refine ⟨fun world s s' request frame run => ?_, fun fuel => ⟨fun outcome stores settles => ?_,
    fun image context memory granted => ?_⟩⟩
  · rcases quiet_of_reaches quiet (WorkItem.regions_of_compile compiled) run with h | ⟨_, failed⟩
    · exact h.initializes quiet made
    · cases failed
  · exact Body.fields_of_settle quiet made ((Frame.Bare.enter body).running body) settles
  · exact image.run_quiet fuel quiet ((Frame.Bare.enter body).running body) granted

/-- A type with a counter that all contexts share. -/
def countedType : TypeEntry :=
  ⟨⟨"C"⟩, ⟨"a.php", false, ⟨0, 0⟩⟩, none, [⟨"count", true, some (.literal (.long 1))⟩], [], false,
    false⟩

/-- A type with a static field that would be an object. -/
def selfishType : TypeEntry :=
  ⟨⟨"C"⟩, ⟨"a.php", false, ⟨0, 0⟩⟩, none, [⟨"own", true, some .this⟩], [], false, false⟩

theorem contextFree_initializers_counted :
    ∃ (settings : Settings) (env : BodyEnv) (body : Body) (error : CodegenError) (memory : Memory),
      ((emitValue env (.binary .or .this (.var "x"))).run (.start 7)).2.nextSite = 7 ∧
      ((WorkItem.sharedInitializer countedType).compile ⟨[], none⟩ settings 0).1 = .ok body ∧
      ((WorkItem.sharedInitializer selfishType).compile ⟨[], none⟩ settings 0).1 = .error error ∧
      (selfishType.InitializesByThis ∧ error.cause = .invariant .thisInStaticBody ∨
        ∃ count, settings.maxLocals < count ∧
          error.cause = .capacity .local count settings.maxLocals) ∧
      (∃ field ∈ countedType.sharedFields, ∃ value,
        Request.storeShared ⟨"C"⟩ "count" (.long 1) =
          .storeShared countedType.name field.name value) ∧
      ((Image.load ⟨⟨[], none⟩, [], []⟩).run 8 0
        (.frame body (.running (.enter body none [])))).run memory =
        some (.ok .null, memory.withShared (memory.shared.store "C" [("count", .long 1)])) := by
  obtain ⟨expressions, -, bodies⟩ := contextFree_initializers ⟨[], none⟩ (.ofPreset .release)
    countedType 0
  obtain ⟨-, causes, -⟩ := contextFree_initializers ⟨[], none⟩ (.ofPreset .release) selfishType 0
  obtain ⟨body, compiled, code, locals⟩ : ∃ body, ((WorkItem.sharedInitializer countedType).compile
      ⟨[], none⟩ (.ofPreset .release) 0).1 = .ok body ∧
      body.code = #[.loadLong 1, .storeShared ⟨"C"⟩ "count", .loadNull, .return] ∧
      body.locals = #[] := ⟨_, rfl, rfl, rfl⟩
  obtain ⟨asked, ends⟩ := bodies body compiled
  obtain ⟨-, runs⟩ := ends 8
  let env : BodyEnv := ⟨⟨[], none⟩, .ofPreset .release, "f", [], false, false⟩
  obtain ⟨sites, -⟩ := expressions env (.binary .or .this (.var "x")) (.start 7) rfl nofun
  let start : Frame := .enter body none []
  let pushed : Frame := { start with pc := 1, stack := [.value (.long 1)] }
  let waiting : Frame := { start with pc := 1 }
  let null : Frame := { start with pc := 3, stack := [.value .null] }
  -- The body asks for its store on the way to the end of it.
  have first : body.step start = .running pushed := by rw [Body.step, code]; rfl
  have second : body.step pushed = .asking (.storeShared ⟨"C"⟩ "count" (.long 1)) waiting := by
    rw [Body.step, code]; rfl
  have third : body.step { start with pc := 2 } = .running null := by rw [Body.step, code]; rfl
  have fourth : body.step null = .returned .null := by rw [Body.step, code]; rfl
  have settles : body.settle 8 (.running start) = some (.ok .null, [("count", .long 1)]) := by
    rw [Body.settle, first, Body.settle, second, Body.settle]
    change (body.settle 5 (.running { start with pc := 2 })).map _ = _
    rw [Body.settle, third, Body.settle, fourth]
    rfl
  have run : Reaches (fun _ => pure .null : World Unit) body (.running start, ())
      (.asking (.storeShared ⟨"C"⟩ "count" (.long 1)) waiting, ()) :=
    .running first (.running second (.refl _))
  let memory := (Memory.empty 1).marked "C"
  have granted : memory.shared.meets (nameKey countedType.name.text) = .granted := by
    change ((Memory.empty 1).marked "C").shared.meets (nameKey "C") = .granted
    rw [Memory.marked, Memory.withShared, SharedStatics.meets_setState, if_pos rfl]
    rfl
  have ran := runs (Image.load ⟨⟨[], none⟩, [], []⟩) 0 memory granted
  rw [settles] at ran
  exact ⟨_, env, body, _, memory, sites, compiled, rfl, causes _ rfl, asked _ () () _ waiting run, ran⟩

end StackScript
