import StackScript.Proofs.Machine.Variables
import StackScript.Proofs.Memory.Initialization

/-!
# What a host does with a loaded program

A host calls functions and methods, creates objects and declares functions, in any number of
contexts and one after the other, whatever comes of it. Its session can be watched like a single run.

## Main definitions

* `HostAction`: what a host does in a context
* `Image.session`, `Image.watchSession`: the actions of a host, and these actions watched
* `Image.record`: what a session writes down

## Main results

* `Image.erases_watchSession`: a session that is watched is the session
* `Image.finds_record`: what the loads of a session find
-/

namespace StackScript

open Watched

/-! ## Actions of a host -/

/-- What a host does in a context. -/
inductive HostAction where
  | call (name : String) (args : List Value)
  | callMethod (type name : String) (receiver : Value) (args : List Value)
  | construct (type : String) (args : List Value)
  /-- A new object whose constructor does not run; null if its type is not loaded. -/
  | createBare (type : String)
  | declare (name : String)
  | declareNative (name : String) (native : Native)

namespace HostAction

variable (image : Image) (context : ContextId)

/-- The action, done. -/
def run (fuel : Nat) : HostAction → Run Value
  | .call name args => image.call fuel context name args
  | .callMethod type name receiver args => image.callMethod fuel context type name receiver args
  | .construct type args => image.construct fuel context type args
  | .createBare type => do return (← image.createBare type).getD .null
  | .declare name => do
    image.declare context name
    return .null
  | .declareNative name native => do
    StackScript.declareNative context name native
    return .null

/-- What the action leaves to do. -/
def errand : HostAction → Run Errand
  | .call name args => do
    let body ← MonadExcept.ofExcept (image.bodyOf (BodyName.function (.ofString name)).key)
    return .routine
      (.ofBody body none (.context :: layArgs (body.params.map Parameter.formal) args))
  | .callMethod type name receiver args => do
    let body ← MonadExcept.ofExcept (image.bodyOf (BodyName.method (.ofString type) name).key)
    return .routine
      (.ofBody body (some receiver) (.context :: layArgs (body.params.map Parameter.formal) args))
  | .construct type args =>
    image.construction (.ofString type) (.context :: args.map FrameArg.value)
  | .createBare type => do return .answered ((← image.createBare type).getD .null)
  | .declare name => do
    image.declare context name
    return .answered .null
  | .declareNative name native => do
    StackScript.declareNative context name native
    return .answered .null

/-- An action of a host is done by its errand. -/
theorem run_eq (fuel : Nat) (action : HostAction) :
    action.run image context fuel =
      action.errand image context >>= image.perform context (image.run fuel) := by
  cases action with
  | call | callMethod =>
    simp only [run, errand, Image.call, Image.callMethod, bind_assoc, pure_bind, Image.perform]
  | construct type args => exact image.create_eq context (image.run fuel) _ _
  | createBare | declare | declareNative =>
    simp only [run, errand, bind_assoc, pure_bind, Image.perform]

end HostAction

/-! ## What actions leave to do -/

section Errands

variable {image : Image} {context : ContextId} {memory : Memory}

/-- A declaration leaves static fields alone. -/
theorem Memory.sameHolders_declare {name : String} {routine : RoutineRef} {declared : Context}
    (h : (memory.context context).declare name routine = .ok declared) :
    memory.SameHolders (memory.setContext context declared) := by
  have holders : declared.holders = (memory.context context).holders := by
    unfold Context.declare at h
    split at h <;> cases h
    rfl
  refine ⟨rfl, fun id => ?_, Array.size_setIfInBounds⟩
  by_cases there : context < memory.contexts.size
  · rw [Memory.context_setContext there]
    split
    · next here => rw [holders, here]
    · rfl
  · have same : memory.setContext context declared = memory := by
      simp only [Memory.setContext, Array.setIfInBounds, there, dif_neg, not_false_eq_true]
    rw [same]

theorem Memory.SameHolders.spares_declare {next : Memory} (same : memory.SameHolders next)
    (name : String) (routine : RoutineRef) :
    SparesStatics (fun _ => True) (do
      let declared ← MonadExcept.ofExcept ((next.context context).declare name routine)
      set (next.setContext context declared)) memory := by
  cases declared : (next.context context).declare name routine with
  | error e => exact .throw
  | ok state =>
    intro outcome after ends
    cases ends
    exact ⟨same.trans (sameHolders_declare declared), fun _ _ => trivial⟩

/-- **What an action of a host leaves to do** is something that a body of the image may leave to do;
up to there static fields are left alone. -/
theorem HostAction.spares_errand (action : HostAction) :
    SparesStatics (Errand.Of image) (action.errand image context) memory := by
  cases action with
  | call name args =>
    refine SparesStatics.bind (.ofExcept (Q := fun body =>
      image.bodyOf (BodyName.function (.ofString name)).key = .ok body) fun _ found => found) ?_
    exact fun body _ _ found => .pure (Image.of_ofBody found _ _)
  | callMethod type name receiver args =>
    refine SparesStatics.bind (.ofExcept (Q := fun body =>
      image.bodyOf (BodyName.method (.ofString type) name).key = .ok body) fun _ found => found) ?_
    exact fun body _ _ found => .pure (Image.of_ofBody found _ _)
  | construct type args => exact Image.spares_construction _ _
  | createBare type =>
    refine SparesStatics.bind (Q := fun _ => True) ?_ fun _ _ _ _ => .pure trivial
    refine Image.spares_awaitTypes.bind fun _ memory _ _ => ?_
    cases image.type? type with
    | none => exact .pure trivial
    | some runtimeType => exact .get (.set ⟨rfl, fun _ => rfl, rfl⟩ (.pure trivial))
  | declare name =>
    refine SparesStatics.bind (Q := fun _ => True) ?_ fun _ _ _ _ => .pure trivial
    unfold Image.declare
    dsimp only
    cases image.body? (Text.foldCase name) with
    | none => exact .throw
    | some body => exact .get ((Memory.SameHolders.refl memory).spares_declare _ _)
  | declareNative name native =>
    refine SparesStatics.bind (Q := fun _ => True) ?_ fun _ _ _ _ => .pure trivial
    have added : memory.SameHolders (memory.addNative native).2 := ⟨rfl, fun _ => rfl, rfl⟩
    exact .get (added.spares_declare name _)

end Errands

/-! ## Sessions -/

namespace Image

/-- The actions of a host, one after the other, and their outcomes. It ends where one of them needs
more fuel. -/
def session (image : Image) (fuel : Nat) :
    List (ContextId × HostAction) → Run (List (Except DispatchError Value))
  | [] => return []
  | (context, action) :: rest => do
    let outcome ← Run.attempt (action.run image context fuel)
    return outcome :: (← image.session fuel rest)

/-- These actions, watched. -/
def watchSession (image : Image) (fuel : Nat) :
    List (ContextId × HostAction) → Watched (List (Except DispatchError Value))
  | [] => return []
  | (context, action) :: rest => do
    let outcome ← attempt do
      let errand ← ofRun (action.errand image context)
      image.watchErrand (image.watch fuel) context "" errand
    return outcome :: (← image.watchSession fuel rest)

/-- **A session that is watched is the session.** -/
theorem erases_watchSession (image : Image) (fuel : Nat) (script : List (ContextId × HostAction)) :
    Erases (image.watchSession fuel script) (image.session fuel script) := by
  induction script with
  | nil => exact .pure []
  | cons visit rest ih =>
    obtain ⟨context, action⟩ := visit
    refine Erases.bind (Erases.attempt ?_) fun outcome => ih.bind fun _ => .pure _
    rw [action.run_eq]
    exact (Erases.ofRun _).bind fun errand =>
      erases_watchErrand (image.erases_watch fuel context) _ errand

variable {image : Image} {fuel : Nat} {P : Watch → Prop} {T : Watch → Watch → Prop}

/-- What all accesses keep up in every context, all sessions do. -/
theorem keeps_watchSession {script : List (ContextId × HostAction)}
    (refl : ∀ watch, T watch watch) (trans : ∀ a b c, T a b → T b c → T a c)
    (custom : ∀ visit ∈ script, image.Custom visit.1 P T) :
    Keeps P T (image.watchSession fuel script) := by
  induction script with
  | nil => exact .pure refl []
  | cons visit rest ih =>
    obtain ⟨context, action⟩ := visit
    obtain ⟨c, custom⟩ := List.forall_mem_cons.mp custom
    refine Keeps.bind trans (Keeps.attempt ?_) fun outcome => (ih custom).bind trans fun _ =>
      .pure refl _
    exact c.ofRun_bind (fun _ => action.spares_errand) (c.access fuel (c.watch fuel) _)

/-- **What a session writes down** that begins with contexts in which nothing has happened. -/
def record (image : Image) (fuel cacheSize contexts : Nat)
    (script : List (Fin contexts × HostAction)) : List FieldEvent :=
  ((image.watchSession fuel (script.map fun (context, action) => (context.val, action))).leads
    ⟨.withContexts cacheSize contexts, []⟩).2.record

end Image

/-! ## What sessions find -/

/-- In the beginning nothing has been stored or initialized. -/
theorem Watch.sound_withContexts (image : Image) (cacheSize contexts : Nat) :
    Watch.Sound image contexts ⟨.withContexts cacheSize contexts, []⟩ := by
  have fresh (statics : Statics) :
      (Memory.withContexts cacheSize contexts).meets statics = .first := by
    cases statics with
    | shared => rfl
    | bound => simp [Memory.meets, Context.meets, Context.number?, Context.new]
  refine ⟨Array.size_replicate, fun {later _ _ _} split => ?_, fun field => ?_,
    fun {_} began => (by cases began), fun _ granted => ?_⟩
  · cases later <;> cases split
  · obtain ⟨statics, name⟩ := field
    cases statics with
    | shared => rfl
    | bound => simp [Memory.valueOf, Context.valueOf, Context.number?, Context.new, lastStored?]
  · cases (fresh _).symm.trans granted

namespace Image

variable {image : Image} {fuel cacheSize contexts : Nat} {script : List (Fin contexts × HostAction)}

/-- What a session writes down, code of the image has done. -/
theorem by_of_mem_record {event : FieldEvent}
    (mem : event ∈ image.record fuel cacheSize contexts script) : event.By image := by
  have keeps : Keeps _ (fun _ _ => True)
      (image.watchSession fuel (script.map fun (context, action) => (context.val, action))) :=
    keeps_watchSession (fun _ => trivial) (fun _ _ _ _ _ => trivial)
      fun visit _ => image.custom_grows visit.1 []
  obtain ⟨new, added, given⟩ :=
    (keeps ⟨.withContexts cacheSize contexts, []⟩ ⟨[], rfl, nofun⟩).1
  refine given event ?_
  have added : image.record fuel cacheSize contexts script = new ++ [] := added
  rwa [added, List.append_nil] at mem

/-- **What the loads of a session find**: what was stored last; and where no initializer is running,
the initializer of the field has stored to it before. -/
theorem finds_record (names : image.NamesTypes) {later earlier : List FieldEvent}
    {field : StaticField} {value : Value}
    (split : image.record fuel cacheSize contexts script =
      later ++ .loaded field value :: earlier) : Finds image field value earlier := by
  have custom (visit : ContextId × HostAction)
      (mem : visit ∈ script.map fun (context, action) => (context.val, action)) :
      image.Custom visit.1 (Watch.Sound image contexts) Watch.Resumes := by
    obtain ⟨⟨context, action⟩, -, rfl⟩ := List.mem_map.mp mem
    exact image.custom_sound names context.isLt
  have keeps : Keeps (Watch.Sound image contexts) Watch.Resumes
      (image.watchSession fuel (script.map fun (context, action) => (context.val, action))) :=
    keeps_watchSession Watch.Resumes.refl (fun _ _ _ => .trans) custom
  exact (keeps _ (Watch.sound_withContexts image cacheSize contexts)).1.finds split

end Image

end StackScript
