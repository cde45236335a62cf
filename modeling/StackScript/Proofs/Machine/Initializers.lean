import StackScript.Machine.Run
import StackScript.Proofs.Machine.Mirrors
import StackScript.Proofs.Memory.Statics

/-!
# Type initializers keep to themselves

The initializer of the static fields that all contexts share asks for nothing but stores to these
fields, and no object is among its values. So what it does depends on nothing in the memory: it is
the same whenever and in whichever context the fields are first accessed. Where no initializer is
running, the shared fields of every type are untouched, or as its initializer has left them.

## Main definitions

* `Body.Quiet`: a body that asks for stores to the shared fields of one type alone
* `Body.settle`: what such a body comes to, and the stores that it makes
* `Image.settle`: what the initialization of the shared fields of a type comes to
* `SharedStatics.Settled`: all shared fields are untouched, or as their initializers leave them

## Main results

* `Image.run_quiet`: a quiet body comes to what it settles, in any memory and in any context
* `Image.settled_initializeShared`: what an access comes to, and that the fields stay settled
* `Image.exists_initializeShared`: an access ends where the initialization does
-/

namespace StackScript

/-! ## Frames without objects -/

/-- There is no object in the value. -/
def Value.Bare (v : Value) : Prop := v.Mirrors (.none : Pairing fun _ => False) v

/-- What mirrors each other where no objects stand for each other, does so anyhow. -/
theorem Value.Mirrors.of_none {Given Given' : RuntimeType → Prop} {v w : Value}
    (h : v.Mirrors (.none : Pairing Given) w) (p : Pairing Given') : v.Mirrors p w :=
  h.imp fun _ _ => False.elim

theorem Value.Bare.mirrors {Given : RuntimeType → Prop} {v : Value} (h : v.Bare)
    (p : Pairing Given) : v.Mirrors p v := h.of_none p

/-- There is no object in the error. -/
def DispatchError.Bare (e : DispatchError) : Prop :=
  e.Mirrors (.none : Pairing fun _ => False) e

theorem DispatchError.Bare.mirrors {Given : RuntimeType → Prop} {e : DispatchError} (h : e.Bare)
    (p : Pairing Given) : e.Mirrors p e := by
  cases e with
  | thrown v =>
    cases h with
    | thrown bare => exact .thrown (bare.of_none p)
    | alike ordinary => exact (ordinary v rfl).elim
  | _ => exact .same nofun

/-- The instruction asks for nothing, or for a store to a shared static field of the type of a key;
an access to the field of an object is one where there are objects only. -/
def Instruction.Quiet (key : String) : Instruction → Prop
  | .storeShared type _ => nameKey type.text = key
  | .loadShared .. | .loadBound .. | .storeBound .. | .call .. | .callGlobal .. | .callSite ..
  | .newObject .. | .echo => False
  | _ => True

/-- The body asks for stores to the shared static fields of a type alone. -/
def Body.Quiet (key : String) (body : Body) : Prop := ∀ i ∈ body.code, i.Quiet key

/-- The next step of a frame without objects. -/
structure Step.Quiet (body : Body) (step : Step) : Prop where
  bare : step.Mirrors (.none : Pairing fun _ => False) step
  asked : step.By body

/-- A frame without objects. -/
def Frame.Bare (frame : Frame) : Prop := frame.Mirrors (.none : Pairing fun _ => False) frame

namespace Frame.Bare

variable {frame : Frame}

theorem enter (body : Body) : (Frame.enter body none []).Bare :=
  Frame.Mirrors.enter body .none .nil

theorem step (body : Body) (h : frame.Bare) : (body.step frame).Quiet body :=
  ⟨body.step_of_mirrors h, body.step_by frame⟩

theorem running (body : Body) (h : frame.Bare) : (Step.running frame).Quiet body :=
  ⟨.running h, trivial⟩

end Frame.Bare

namespace Step.Quiet

variable {body : Body} {key : String} {frame : Frame} {request : Request}

theorem bare_frame (h : (Step.running frame).Quiet body) : frame.Bare := by
  cases h.bare with
  | running bare => exact bare

/-- The frame asks for a store, and goes on without objects. -/
theorem stores (h : (Step.asking request frame).Quiet body) (quiet : body.Quiet key) :
    ∃ type field value, request = .storeShared type field value ∧ nameKey type.text = key ∧
      value.Bare ∧ (body.resume request frame (.ok .null)).Quiet body := by
  obtain ⟨i, mem, own⟩ := h.asked
  have fine := quiet i mem
  cases h.bare with
  | asking requests frames =>
    have resumed : (body.resume request frame (.ok .null)).Quiet body :=
      ⟨body.resume_of_mirrors requests frames (.ok .null), body.resume_by _ _ _⟩
    cases requests with
    | storeShared type field value =>
      obtain rfl : i = .storeShared type field := own
      exact ⟨type, field, _, rfl, fine, value, resumed⟩
    | loadField field pair | storeField field pair => exact pair.elim
    | call name =>
      obtain ⟨argc, onObject, rfl⟩ := own
      exact fine.elim
    | callGlobal | create =>
      obtain ⟨argc, rfl⟩ := own
      exact fine.elim
    | echo text =>
      obtain rfl : i = .echo := own
      exact fine.elim
    | loadShared type field =>
      obtain rfl : i = .loadShared type field := own
      exact fine.elim
    | loadBound type field =>
      obtain rfl : i = .loadBound type field := own
      exact fine.elim
    | storeBound type field =>
      obtain rfl : i = .storeBound type field := own
      exact fine.elim
    | callSite shape =>
      obtain rfl : i = .callSite shape := own
      exact fine.elim

end Step.Quiet

/-! ## What quiet bodies come to -/

/-- What a frame that asks for stores to shared static fields alone comes to, and the stores. -/
def Body.settle (body : Body) : Nat → Step → Option (Except DispatchError Value × Stores)
  | 0, _ => none
  | fuel + 1, step =>
    match step with
    | .returned value => some (.ok value, [])
    | .failed error => some (.error error, [])
    | .running frame => body.settle fuel (body.step frame)
    | .asking (.storeShared type field value) frame =>
      (body.settle fuel (body.resume (.storeShared type field value) frame (.ok .null))).map
        fun (outcome, stores) => (outcome, (field, value) :: stores)
    | .asking _ _ => none

/-- There are no objects in the error, if there is one, and in the stores. -/
structure BareSettlement {α : Type} (settled : Except DispatchError α × Stores) : Prop where
  error : ∀ e, settled.1 = .error e → e.Bare
  stores : ∀ entry ∈ settled.2, entry.2.Bare

namespace Body

variable {body : Body} {key : String} {fuel fuel' : Nat} {step : Step}
  {settled : Except DispatchError Value × Stores}

theorem settle_mono (enough : fuel ≤ fuel') (h : body.settle fuel step = some settled) :
    body.settle fuel' step = some settled := by
  induction fuel generalizing fuel' step settled with
  | zero => cases h
  | succ fuel ih =>
    obtain ⟨fuel', rfl⟩ : ∃ n, fuel' = n + 1 := ⟨fuel' - 1, by omega⟩
    have enough := Nat.le_of_succ_le_succ enough
    unfold settle at h ⊢
    cases step with
    | returned | failed => exact h
    | running frame => exact ih enough h
    | asking request frame =>
      cases request with
      | storeShared type field value =>
        obtain ⟨later, ends, rfl⟩ := Option.map_eq_some_iff.mp h
        exact Option.map_eq_some_iff.mpr ⟨later, ih enough ends, rfl⟩
      | _ => cases h

/-- There are no objects in what a frame without objects comes to. -/
theorem bare_of_settle (quiet : body.Quiet key) (h : step.Quiet body)
    (settles : body.settle fuel step = some settled) : BareSettlement settled := by
  induction fuel generalizing step settled with
  | zero => cases settles
  | succ fuel ih =>
    unfold settle at settles
    cases step with
    | returned =>
      cases settles
      exact ⟨nofun, nofun⟩
    | failed error =>
      cases settles
      have bare := h.bare
      cases bare with
      | failed bare =>
        refine ⟨?_, nofun⟩
        rintro _ ⟨⟩
        exact bare
    | running frame => exact ih (h.bare_frame.step body) settles
    | asking request frame =>
      obtain ⟨type, field, value, rfl, -, bare, resumed⟩ := h.stores quiet
      obtain ⟨later, ends, rfl⟩ := Option.map_eq_some_iff.mp settles
      obtain ⟨error, stores⟩ := ih resumed ends
      refine ⟨error, fun entry mem => ?_⟩
      obtain rfl | mem := List.mem_cons.mp mem
      · exact bare
      · exact stores entry mem

end Body

namespace Image

variable (image : Image) {context : ContextId} {body : Body} {step : Step} {memory : Memory}
  {typeName : String}

/-- **A quiet body comes to what it settles**, wherever its type is marked or initialized: it makes
its stores, and does nothing else to the memory. -/
theorem run_quiet (fuel : Nat) (quiet : body.Quiet (nameKey typeName)) (h : step.Quiet body)
    (granted : memory.shared.meets (nameKey typeName) = .granted) :
    (image.run fuel context (.frame body step)).run memory =
      (body.settle fuel step).map fun (outcome, stores) =>
        (outcome, memory.withShared (memory.shared.store typeName stores)) := by
  induction fuel generalizing step memory with
  | zero => rfl
  | succ fuel ih =>
    unfold run Body.settle
    cases step with
    | returned | failed => rfl
    | running frame => exact ih (h.bare_frame.step body) granted
    | asking request frame =>
      obtain ⟨type, field, value, rfl, named, -, resumed⟩ := h.stores quiet
      have stored : (image.answer (image.run fuel) context (.storeShared type field value)).run
          memory = some (.ok .null, memory.withShared (memory.shared.set typeName field value)) := by
        have entered := run_ensureInitialized type.text (image.runInitializer (image.run fuel)
          context type BodyName.typeInitializerName []) memory
        rw [named, granted] at entered
        change ((image.initializeShared (image.run fuel) context type).run memory).bind _ = _
        rw [initializeShared, entered, memory.shared.set_congr named.symm]
        rfl
      have granted' : (memory.withShared (memory.shared.set typeName field value)).shared.meets
          (nameKey typeName) = .granted := granted
      have rest := ih resumed granted'
      change (((Run.attempt _).run memory).bind _) = _
      simp only [Run.attempt, ExceptT.run_mk, stored]
      refine rest.trans ?_
      rw [Option.map_map]
      rfl

/-! ## Initialization -/

/-- The initializer of the shared static fields of the type of a key. -/
def sharedInitializer? (key : String) : Option Body :=
  image.body? (key ++ "::" ++ Text.foldCase BodyName.typeInitializerName)

/-- The initializer of the shared static fields of a type is quiet, if there is one. -/
def InitializesQuietly (typeName : String) : Prop :=
  ∀ body, image.sharedInitializer? (nameKey typeName) = some body → body.Quiet (nameKey typeName)

/-- What the initialization of the shared static fields of a type comes to, and its stores. -/
def settle (fuel : Nat) (key : String) : Option (Except DispatchError Unit × Stores) :=
  match image.sharedInitializer? key with
  | none => some (.ok (), [])
  | some body => (body.settle fuel (.running (.enter body none []))).map fun (outcome, stores) =>
    (outcome.map fun _ => (), stores)

variable {image} {fuel fuel' : Nat} {key : String}

theorem settle_mono {settled : Except DispatchError Unit × Stores} (enough : fuel ≤ fuel')
    (h : image.settle fuel key = some settled) : image.settle fuel' key = some settled := by
  unfold settle at h ⊢
  split at h
  · exact h
  · obtain ⟨result, ends, rfl⟩ := Option.map_eq_some_iff.mp h
    exact Option.map_eq_some_iff.mpr ⟨result, Body.settle_mono enough ends, rfl⟩

/-- The initialization comes to one outcome. -/
theorem settle_unique {settled settled' : Except DispatchError Unit × Stores}
    (h : image.settle fuel key = some settled) (h' : image.settle fuel' key = some settled') :
    settled = settled' := by
  have first := settle_mono (Nat.le_max_left fuel fuel') h
  have second := settle_mono (Nat.le_max_right fuel fuel') h'
  exact Option.some.inj (first.symm.trans second)

theorem bare_of_settle {typeName : String} (quiet : image.InitializesQuietly typeName)
    {settled : Except DispatchError Unit × Stores}
    (h : image.settle fuel (nameKey typeName) = some settled) : BareSettlement settled := by
  unfold settle at h
  split at h
  · cases h
    exact ⟨nofun, nofun⟩
  · next body found =>
    obtain ⟨⟨outcome, stores⟩, ends, rfl⟩ := Option.map_eq_some_iff.mp h
    obtain ⟨error, bare⟩ := Body.bare_of_settle (quiet body found)
      ((Frame.Bare.enter body).running body) ends
    refine ⟨fun e failed => error e ?_, bare⟩
    cases outcome <;> cases failed
    rfl

/-- **Some fuel is enough for every initialization** that ends. -/
theorem exists_settle_of_ends (image : Image) : ∃ enough, ∀ fuel key settled,
    image.settle fuel key = some settled → image.settle enough key = some settled := by
  -- There are as many initializers as there are bodies at most.
  have bounded (bodies : List (String × Body)) : ∃ enough, ∀ entry ∈ bodies, ∀ fuel settled,
      entry.2.settle fuel (.running (.enter entry.2 none [])) = some settled →
      entry.2.settle enough (.running (.enter entry.2 none [])) = some settled := by
    induction bodies with
    | nil => exact ⟨0, nofun⟩
    | cons entry rest ih =>
      obtain ⟨enough, ih⟩ := ih
      by_cases ends : ∃ fuel, (entry.2.settle fuel (.running (.enter entry.2 none []))).isSome
      · obtain ⟨n, ends⟩ := ends
        obtain ⟨first, ends⟩ := Option.isSome_iff_exists.mp ends
        refine ⟨max n enough, fun other mem fuel settled h => ?_⟩
        obtain rfl | mem := List.mem_cons.mp mem
        · have same := (Body.settle_mono (Nat.le_max_left n fuel) ends).symm.trans
            (Body.settle_mono (Nat.le_max_right n fuel) h)
          cases same
          exact Body.settle_mono (Nat.le_max_left n enough) ends
        · exact Body.settle_mono (Nat.le_max_right n enough) (ih other mem fuel settled h)
      · refine ⟨enough, fun other mem fuel settled h => ?_⟩
        obtain rfl | mem := List.mem_cons.mp mem
        · exact (ends ⟨fuel, by rw [h]; rfl⟩).elim
        · exact ih other mem fuel settled h
  obtain ⟨enough, bounded⟩ := bounded image.bodies
  refine ⟨enough, fun fuel key settled h => ?_⟩
  unfold settle at h ⊢
  split at h
  · exact h
  · next body found =>
    obtain ⟨result, ends, rfl⟩ := Option.map_eq_some_iff.mp h
    obtain ⟨entry, mem, rfl⟩ := Option.map_eq_some_iff.mp found
    exact Option.map_eq_some_iff.mpr
      ⟨result, bounded entry (List.mem_of_find?_eq_some mem) fuel result ends, rfl⟩

end Image

/-! ## Settled fields -/

/-- The shared static fields of every type are untouched, or as their initializer leaves them. -/
structure SharedStatics.Settled (image : Image) (shared : SharedStatics) : Prop where
  untouched : ∀ typeName, shared.meets (nameKey typeName) = .first →
    shared.fieldsOf typeName = .empty
  granted : ∀ typeName, shared.meets (nameKey typeName) = .granted → ∃ fuel stores,
    image.settle fuel (nameKey typeName) = some (.ok (), stores) ∧
      shared.fieldsOf typeName = Fields.empty.store stores
  refused : ∀ typeName error, shared.meets (nameKey typeName) = .refused error → ∃ fuel stores,
    image.settle fuel (nameKey typeName) = some (.error error, stores)

namespace Image

variable {image : Image} {context : ContextId} {memory after : Memory} {fuel : Nat}
  {type : QualifiedName} {outcome : Except DispatchError Unit}

theorem settled_empty : SharedStatics.empty.Settled image where
  untouched _ _ := rfl
  granted _ := nofun
  refused _ _ := nofun

/-- The initializer of a type is found by its key. -/
theorem body?_typeInitializer (named : type.key = nameKey type.text) :
    image.body? (BodyName.method type BodyName.typeInitializerName).key =
      image.sharedInitializer? (nameKey type.text) := by
  rw [sharedInitializer?, ← named]
  simp [BodyName.key, BodyName.method]

/-- What the initializer of a type does in a memory in which the type is marked. -/
theorem run_runInitializer (quiet : image.InitializesQuietly type.text)
    (named : type.key = nameKey type.text) :
    (image.runInitializer (image.run fuel) context type BodyName.typeInitializerName []).run
        (memory.marked type.text) =
      (image.settle fuel (nameKey type.text)).map fun (outcome, stores) =>
        (outcome, (memory.marked type.text).withShared
          ((memory.marked type.text).shared.store type.text stores)) := by
  unfold runInitializer settle
  rw [body?_typeInitializer named]
  cases found : image.sharedInitializer? (nameKey type.text) with
  | none => rfl
  | some body =>
    have marked : (memory.marked type.text).shared.meets (nameKey type.text) = .granted := by
      rw [Memory.marked, Memory.withShared, SharedStatics.meets_setState, if_pos rfl]
      rfl
    change ((image.run fuel context (.frame body (.running (.enter body none [])))).run _).bind _ = _
    rw [image.run_quiet fuel (quiet body found) ((Frame.Bare.enter body).running body) marked]
    dsimp only
    cases body.settle fuel (.running (.enter body none [])) with
    | none => rfl
    | some settled =>
      obtain ⟨outcome, stores⟩ := settled
      cases outcome <;> rfl

/-- What an access to shared static fields comes to. -/
theorem run_initializeShared (quiet : image.InitializesQuietly type.text)
    (named : type.key = nameKey type.text) :
    (image.initializeShared (image.run fuel) context type).run memory =
      match memory.shared.meets (nameKey type.text) with
      | .granted => some (.ok (), memory)
      | .refused error => some (.error error, memory)
      | .first => (image.settle fuel (nameKey type.text)).map fun (outcome, stores) =>
          (outcome, memory.withShared (((memory.shared.setState (nameKey type.text) .running).store
            type.text stores).leave type.text outcome)) := by
  rw [initializeShared, run_ensureInitialized, run_runInitializer quiet named]
  cases memory.shared.meets (nameKey type.text) with
  | granted | refused => rfl
  | first =>
    dsimp only
    rw [Option.map_map]
    rfl

/-- Behind an initializer the shared fields are settled again. -/
theorem settled_leave (settled : memory.shared.Settled image) {typeName : String} {stores : Stores}
    (first : memory.shared.meets (nameKey typeName) = .first)
    (h : image.settle fuel (nameKey typeName) = some (outcome, stores)) :
    (((memory.shared.setState (nameKey typeName) .running).store typeName stores).leave typeName
      outcome).Settled image := by
  -- Names that are not that of the type meet and read what they did before.
  have meets (other : String) : (((memory.shared.setState (nameKey typeName) .running).store
      typeName stores).leave typeName outcome).meets (nameKey other) =
      if nameKey typeName = nameKey other then (InitState.ofOutcome outcome).admission
      else memory.shared.meets (nameKey other) := by
    rw [SharedStatics.leave, SharedStatics.meets_setState]
    split
    · rfl
    · next other => rw [SharedStatics.meets_store, SharedStatics.meets_setState, if_neg other]
  have fields (other : String) : (((memory.shared.setState (nameKey typeName) .running).store
      typeName stores).leave typeName outcome).fieldsOf other =
      if nameKey typeName = nameKey other then Fields.empty.store stores
      else memory.shared.fieldsOf other := by
    rw [SharedStatics.leave, SharedStatics.fieldsOf_setState, SharedStatics.fieldsOf_store,
      SharedStatics.fieldsOf_setState, SharedStatics.fieldsOf_setState,
      settled.untouched typeName first]
  constructor
  · intro other met
    rw [meets] at met
    split at met
    · cases outcome <;> cases met
    · next unlike =>
      rw [fields, if_neg unlike]
      exact settled.untouched other met
  · intro other met
    rw [meets] at met
    rw [fields]
    split at met
    · next same =>
      cases outcome with
      | error => cases met
      | ok => exact ⟨fuel, stores, same ▸ h, if_pos same⟩
    · next unlike =>
      rw [if_neg unlike]
      exact settled.granted other met
  · intro other error met
    rw [meets] at met
    split at met
    · next same =>
      cases outcome with
      | ok => cases met
      | error =>
        cases met
        exact ⟨fuel, stores, same ▸ h⟩
    · exact settled.refused other error met

/-- **An access to shared static fields comes to what their initialization comes to**, now or
before, and leaves all shared fields settled; nothing else changes. -/
theorem settled_initializeShared (quiet : image.InitializesQuietly type.text)
    (named : type.key = nameKey type.text) (settled : memory.shared.Settled image)
    (h : (image.initializeShared (image.run fuel) context type).run memory =
      some (outcome, after)) :
    ∃ n stores shared, image.settle n (nameKey type.text) = some (outcome, stores) ∧
      after = memory.withShared shared ∧ shared.Settled image ∧
      (outcome = .ok () → shared.fieldsOf type.text = Fields.empty.store stores) := by
  rw [run_initializeShared quiet named] at h
  cases met : memory.shared.meets (nameKey type.text) with
  | granted =>
    rw [met] at h
    cases h
    obtain ⟨n, stores, initialized, fields⟩ := settled.granted _ met
    exact ⟨n, stores, memory.shared, initialized, rfl, settled, fun _ => fields⟩
  | refused error =>
    rw [met] at h
    cases h
    obtain ⟨n, stores, initialized⟩ := settled.refused _ _ met
    exact ⟨n, stores, memory.shared, initialized, rfl, settled, nofun⟩
  | first =>
    rw [met] at h
    obtain ⟨⟨outcome, stores⟩, initialized, same⟩ := Option.map_eq_some_iff.mp h
    cases same
    refine ⟨fuel, stores, _, initialized, rfl, settled_leave settled met initialized, fun _ => ?_⟩
    rw [SharedStatics.leave, SharedStatics.fieldsOf_setState, SharedStatics.fieldsOf_store,
      if_pos rfl, SharedStatics.fieldsOf_setState, settled.untouched _ met]

/-- **An access ends where the initialization does.** -/
theorem exists_initializeShared (quiet : image.InitializesQuietly type.text)
    (named : type.key = nameKey type.text) (settled : memory.shared.Settled image) {stores : Stores}
    (h : image.settle fuel (nameKey type.text) = some (outcome, stores)) :
    ∃ after, (image.initializeShared (image.run fuel) context type).run memory =
      some (outcome, after) := by
  rw [run_initializeShared quiet named]
  cases met : memory.shared.meets (nameKey type.text) with
  | granted =>
    obtain ⟨n, stores, initialized, -⟩ := settled.granted _ met
    cases settle_unique initialized h
    exact ⟨memory, rfl⟩
  | refused error =>
    obtain ⟨n, stores, initialized⟩ := settled.refused _ _ met
    cases settle_unique initialized h
    exact ⟨memory, rfl⟩
  | first =>
    dsimp only
    rw [h]
    exact ⟨_, rfl⟩

end Image

end StackScript
