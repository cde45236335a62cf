import StackScript.Proofs.Machine.Moves
import StackScript.Proofs.Machine.Watching

/-!
# What runs that are watched keep up

A run is put together from steps that have nothing to do with static fields, and from accesses to
them. What each of these keeps up, every run does, however routines call each other and whatever the
initializers do.

## Main definitions

* `Activity.Of`, `Errand.Of`: routines of an image, and what they leave to do
* `SparesStatics`: an action leaves static fields alone
* `Keeps`: what an action keeps up
* `Image.Custom`: what all accesses to static fields keep up

## Main results

* `Image.spares_errand`: what a request leaves to do
* `Image.Custom.watch`: what all accesses keep up, all runs do
-/

namespace StackScript

/-! ## Routines of an image -/

/-- A body of the image has the instruction. -/
def Image.Has (image : Image) (i : Instruction) : Prop :=
  ∃ key body, image.body? key = some body ∧ i ∈ body.code

/-- A routine of the host, or a frame of a body of the image that asks for what the body refers to. -/
def Activity.Of (image : Image) : Activity → Prop
  | .frame body step => (∃ key, image.body? key = some body) ∧ step.By body
  | .native .. => True

/-- What a routine of the image may leave to do. -/
def Errand.Of (image : Image) : Errand → Prop
  | .answered _ => True
  | .routine activity | .construction _ activity => activity.Of image
  | .loadShared type field => image.Has (.loadShared type field)
  | .storeShared type field _ => image.Has (.storeShared type field)
  | .loadBound type field => image.Has (.loadBound type field)
  | .storeBound type field _ => image.Has (.storeBound type field)

/-- From this memory on the action leaves static fields alone, and its result is of some kind. -/
def SparesStatics {α : Type} (Q : α → Prop) (y : Run α) (memory : Memory) : Prop :=
  ∀ outcome after, y.run memory = some (outcome, after) →
    memory.SameHolders after ∧ ∀ a, outcome = .ok a → Q a

namespace SparesStatics

variable {α β : Type} {Q : α → Prop} {R : β → Prop} {x : Run α} {f : α → Run β}
  {memory next : Memory}

theorem pure {a : α} (h : Q a) : SparesStatics Q (pure a) memory := by
  rintro outcome after ⟨⟩
  refine ⟨.refl memory, ?_⟩
  rintro _ ⟨⟩
  exact h

theorem throw {e : DispatchError} : SparesStatics Q (throw e) memory := by
  rintro outcome after ⟨⟩
  exact ⟨.refl memory, nofun⟩

theorem bind (h : SparesStatics Q x memory)
    (h' : ∀ a next, memory.SameHolders next → Q a → SparesStatics R (f a) next) :
    SparesStatics R (x >>= f) memory := by
  intro outcome after ends
  obtain ⟨⟨first, next⟩, begins, ends⟩ := Option.bind_eq_some_iff.mp ends
  obtain ⟨same, result⟩ := h first next begins
  cases first with
  | error e =>
    cases ends
    exact ⟨same, nofun⟩
  | ok a =>
    obtain ⟨same', result'⟩ := h' a next same (result a rfl) outcome after ends
    exact ⟨same.trans same', result'⟩

theorem map {g : α → β} (h : SparesStatics Q x memory) (h' : ∀ a, Q a → R (g a)) :
    SparesStatics R (g <$> x) memory := by
  rw [map_eq_pure_bind]
  exact h.bind fun a next _ given => pure (h' a given)

theorem get {f : Memory → Run β} (h : SparesStatics R (f memory) memory) :
    SparesStatics R (getThe Memory >>= f) memory := h

theorem set {y : Run β} (same : memory.SameHolders next) (h : SparesStatics R y next) :
    SparesStatics R (do set next; y) memory := by
  intro outcome after ends
  obtain ⟨same', result⟩ := h outcome after ends
  exact ⟨same.trans same', result⟩

theorem ofExcept {r : Except DispatchError α} (h : ∀ a, r = .ok a → Q a) :
    SparesStatics Q (MonadExcept.ofExcept r) memory := by
  cases r with
  | error e => exact throw
  | ok a => exact pure (h a rfl)

end SparesStatics

/-! ## What requests leave to do -/

namespace Memory

variable (memory : Memory)

theorem sameHolders_echo (context : ContextId) (text : String) :
    memory.SameHolders (memory.echo context text) where
  shared := rfl
  holders id := by
    simp only [Memory.context, echo, Array.getElem?_modify]
    by_cases here : context = id
    · simp only [here, if_true]
      cases memory.contexts[id]? <;> rfl
    · rw [if_neg here]
  size := Array.size_modify

end Memory

namespace Image

variable {image : Image} {context : ContextId} {memory : Memory} {body : Body} {key : String}
    (shape : SiteShape)

/-- The start of a body of the image. -/
theorem of_ofBody (found : image.bodyOf key = .ok body) (receiver : Option Value)
    (args : List FrameArg) : (Activity.ofBody body receiver args).Of image := by
  refine ⟨⟨key, ?_⟩, trivial⟩
  unfold bodyOf at found
  split at found <;> cases found
  assumption

theorem spares_activityOf (routine : RoutineRef) (receiver : Option Value) (args : List Value) :
    SparesStatics (Activity.Of image) (image.activityOf routine receiver args) memory := by
  cases routine with
  | compiled key formals =>
    exact (SparesStatics.ofExcept (Q := fun body => image.bodyOf key = .ok body) fun _ h => h).bind
      fun body _ _ found => .pure (of_ofBody found _ _)
  | native index =>
    refine .get ?_
    cases memory.natives[index]? with
    | none => exact .throw
    | some native => exact .pure trivial

theorem spares_functionActivity (name : String) (args : List Value) :
    SparesStatics (Activity.Of image) (image.functionActivity context name args) memory := by
  refine .get ?_
  cases (memory.context context).function? name with
  | none => exact .throw
  | some routine => exact spares_activityOf routine none args

theorem spares_siteActivity (receiver : Value) (args : List Value) :
    SparesStatics (Activity.Of image) (image.siteActivity shape receiver args) memory := by
  refine .get (.set ⟨rfl, fun _ => rfl, rfl⟩ ?_)
  exact (SparesStatics.ofExcept (Q := fun _ => True) fun _ _ => trivial).bind
    fun _ _ _ _ => spares_activityOf _ _ _

theorem spares_flattenArgs (pushed : List Value) :
    SparesStatics (fun _ => True) (flattenArgs shape pushed) memory :=
  .get (.set ⟨rfl, fun _ => rfl, rfl⟩ (.ofExcept fun _ _ => trivial))

theorem spares_awaitTypes : SparesStatics (fun _ => True) image.awaitTypes memory := by
  unfold awaitTypes
  split
  · exact .pure trivial
  · rintro outcome after ⟨⟩

theorem spares_construction (type : QualifiedName) (args : List FrameArg) :
    SparesStatics (Errand.Of image) (image.construction type args) memory := by
  refine spares_awaitTypes.bind fun _ memory _ _ => ?_
  cases image.type? type.text with
  | none => exact .throw
  | some runtimeType =>
    refine .get (.set ⟨rfl, fun _ => rfl, rfl⟩ ?_)
    exact (SparesStatics.ofExcept (Q := fun body =>
        image.bodyOf (BodyName.constructor type).key = .ok body)
      fun _ found => found).bind fun body _ _ found => .pure (of_ofBody found _ _)

/-- **What a request leaves to do**, if a body of the image makes it, is something that a body of the
image may leave to do; up to there static fields are left alone. -/
theorem spares_errand (own : image.body? key = some body) {request : Request} {frame : Frame}
    (asked : (Step.asking request frame).By body) :
    SparesStatics (Errand.Of image) (image.errand context request) memory := by
  obtain ⟨i, mem, by_⟩ := asked
  cases request with
  | echo text =>
    exact SparesStatics.bind (Q := fun _ => True)
      (fun _ _ ends => by cases ends; exact ⟨memory.sameHolders_echo context text, fun _ _ => trivial⟩)
      fun _ _ _ _ => .pure trivial
  | loadField => exact .get (.pure trivial)
  | storeField =>
    exact SparesStatics.bind (Q := fun _ => True)
      (fun _ _ ends => by cases ends; exact ⟨⟨rfl, fun _ => rfl, rfl⟩, fun _ _ => trivial⟩)
      fun _ _ _ _ => .pure trivial
  | loadShared | storeShared | loadBound | storeBound =>
    cases by_
    exact .pure ⟨key, body, own, mem⟩
  | call name receiver args =>
    exact (SparesStatics.ofExcept (Q := fun body => image.bodyOf name.key = .ok body)
      fun _ found => found).bind fun body _ _ found => .pure (of_ofBody found _ _)
  | callGlobal name args => exact (spares_functionActivity _ _).map fun _ given => given
  | callSite shape receiver pushed =>
    exact (spares_flattenArgs shape pushed).bind fun _ _ _ _ =>
      (spares_siteActivity _ _ _).map fun _ given => given
  | create type args => exact spares_construction type args

end Image

/-! ## What actions keep up -/

/-- The action keeps up what holds of a memory with its record, and if it ends, what is there then is
related to what was there before. -/
def Keeps {α : Type} (P : Watch → Prop) (T : Watch → Watch → Prop) (x : Watched α) : Prop :=
  ∀ watch, P watch → P (x.leads watch).2 ∧ ((x.leads watch).1.isSome → T watch (x.leads watch).2)

open Watched

namespace Keeps

variable {α β : Type} {P : Watch → Prop} {T : Watch → Watch → Prop} {x : Watched α}

theorem pure (refl : ∀ watch, T watch watch) (a : α) : Keeps P T (pure a) :=
  fun watch h => ⟨h, fun _ => refl watch⟩

theorem throw (refl : ∀ watch, T watch watch) (e : DispatchError) :
    Keeps P T (throw e : Watched α) :=
  fun watch h => ⟨h, fun _ => refl watch⟩

theorem exhausted : Keeps P T (Watched.exhausted : Watched α) := fun _ h => ⟨h, nofun⟩

theorem bind (trans : ∀ a b c, T a b → T b c → T a c) {f : α → Watched β} (h : Keeps P T x)
    (h' : ∀ a, Keeps P T (f a)) : Keeps P T (x >>= f) := by
  intro watch held
  rw [leads_bind]
  have first := h watch held
  generalize x.leads watch = led at first ⊢
  obtain ⟨_ | _ | a, after⟩ := led
  · exact ⟨first.1, nofun⟩
  · exact ⟨first.1, fun _ => first.2 rfl⟩
  · obtain ⟨second, ends⟩ := h' a after first.1
    exact ⟨second, fun ended => trans _ _ _ (first.2 rfl) (ends ended)⟩

theorem attempt (h : Keeps P T x) : Keeps P T (Watched.attempt x) := by
  intro watch held
  rw [leads_attempt]
  have first := h watch held
  exact ⟨first.1, fun ended => first.2 (by simpa using ended)⟩

theorem look {f : Memory → Watched α} (h : ∀ memory, Keeps P T (f memory)) :
    Keeps P T (getThe Memory >>= f) :=
  fun watch => h watch.memory watch

theorem note {event : FieldEvent}
    (h : ∀ watch, P watch → P { watch with record := event :: watch.record } ∧
      T watch { watch with record := event :: watch.record }) : Keeps P T (Watched.note event) :=
  fun watch held => ⟨(h watch held).1, fun _ => (h watch held).2⟩

section Heedless

/-! What is kept up may have nothing to do with the memory. -/

variable (refl : ∀ watch, T watch watch) (trans : ∀ a b c, T a b → T b c → T a c)
  (any : ∀ watch memory, P watch → P { watch with memory } ∧ T watch { watch with memory })

include any

theorem set (memory : Memory) : Keeps P T (MonadStateOf.set memory : Watched PUnit) :=
  fun watch held => ⟨(any watch memory held).1, fun _ => (any watch memory held).2⟩

theorem modify (f : Memory → Memory) : Keeps P T (modifyThe Memory f) :=
  fun watch held => ⟨(any watch _ held).1, fun _ => (any watch _ held).2⟩

include refl trans

theorem ensureInitialized (typeName : String) {init : Watched Unit} (h : Keeps P T init) :
    Keeps P T (StackScript.ensureInitialized typeName init) := by
  refine look fun memory => ?_
  generalize memory.shared.enter typeName = entered
  obtain ⟨admission, shared⟩ := entered
  cases admission with
  | granted => exact pure refl ()
  | refused e => exact throw refl e
  | first =>
    refine (set any _).bind trans fun _ => h.attempt.bind trans fun outcome =>
      (modify any _).bind trans fun _ => ?_
    cases outcome with
    | ok => exact pure refl ()
    | error e => exact throw refl e

theorem boundStatics (context : ContextId) (typeName : String) {init : HolderId → Watched Unit}
    (h : ∀ id, Keeps P T (init id)) :
    Keeps P T (StackScript.boundStatics context typeName init) := by
  refine look fun memory => ?_
  generalize (memory.context context).enterStatics typeName = entered
  obtain ⟨admission, id, entered⟩ := entered
  cases admission with
  | granted => exact pure refl id
  | refused e => exact throw refl e
  | first =>
    refine (set any _).bind trans fun _ => (h id).attempt.bind trans fun outcome =>
      (modify any _).bind trans fun _ => ?_
    cases outcome with
    | ok => exact pure refl id
    | error e => exact throw refl e

end Heedless

end Keeps

namespace Image

/-- **What all accesses to static fields keep up**, whatever runs in their initializers; and steps
that leave static fields alone keep it up as well. -/
structure Custom (image : Image) (context : ContextId) (P : Watch → Prop) (T : Watch → Watch → Prop) :
    Prop where
  refl : ∀ watch, T watch watch
  trans : ∀ a b c, T a b → T b c → T a c
  spared : ∀ {watch : Watch} {memory}, watch.memory.SameHolders memory → P watch →
    P { watch with memory } ∧ T watch { watch with memory }
  access : ∀ fuel,
    (∀ activity, activity.Of image → Keeps P T (image.watch fuel context activity)) →
    ∀ body errand, errand.Of image →
      Keeps P T (image.watchErrand (image.watch fuel) context body errand)

namespace Custom

variable {image : Image} {context : ContextId} {P : Watch → Prop} {T : Watch → Watch → Prop}

/-- A step that leaves static fields alone, and one on its result. -/
theorem ofRun_bind (c : image.Custom context P T) {α β : Type} {Q : α → Prop} {y : Run α}
    {f : α → Watched β} (h : ∀ memory, SparesStatics Q y memory) (h' : ∀ a, Q a → Keeps P T (f a)) :
    Keeps P T (ofRun y >>= f) := by
  intro watch held
  rw [leads_bind, leads_ofRun]
  have spares := h watch.memory
  unfold SparesStatics at spares
  generalize y.run watch.memory = ran at spares ⊢
  obtain _ | ⟨_ | a, after⟩ := ran
  · exact ⟨held, nofun⟩
  · obtain ⟨next, related⟩ := c.spared (spares _ _ rfl).1 held
    exact ⟨next, fun _ => related⟩
  · obtain ⟨same, given⟩ := spares _ _ rfl
    obtain ⟨next, related⟩ := c.spared same held
    obtain ⟨later, ends⟩ := h' a (given a rfl) _ next
    exact ⟨later, fun ended => c.trans _ _ _ related (ends ended)⟩

/-- The answer to a request of a body of the image. -/
theorem answer (c : image.Custom context P T) {fuel : Nat}
    (runs : ∀ activity, activity.Of image → Keeps P T (image.watch fuel context activity))
    {key : String} {body : Body} (own : image.body? key = some body) {request : Request}
    {frame : Frame} (asked : (Step.asking request frame).By body) :
    Keeps P T (ofRun (image.errand context request) >>=
      image.watchErrand (image.watch fuel) context body.name.key) :=
  c.ofRun_bind (fun _ => spares_errand own asked) (c.access fuel runs body.name.key)

variable {call : String → List Value → Watched Value} {echo : String → Watched Unit}
  {receiver : Value} {args : List Value}

mutual

theorem native (c : image.Custom context P T) (calls : ∀ name args, Keeps P T (call name args))
    (echoes : ∀ text, Keeps P T (echo text)) (routine : Native) :
    Keeps P T (Native.watch call echo receiver args routine) := by
  cases routine with
  | result | arguments | firstArgument | argumentCount | receiver => exact .pure c.refl _
  | throwing | failing => exact .throw c.refl _
  | echo text => exact (echoes text).bind c.trans fun _ => .pure c.refl _
  | call name => exact calls name args
  | sequence steps => exact c.nativeAll calls echoes .null steps

theorem nativeAll (c : image.Custom context P T) (calls : ∀ name args, Keeps P T (call name args))
    (echoes : ∀ text, Keeps P T (echo text)) (last : Value) (steps : List Native) :
    Keeps P T (Native.watchAll call echo receiver args last steps) := by
  cases steps with
  | nil => exact .pure c.refl _
  | cons step rest =>
    exact (c.native calls echoes step).bind c.trans fun value => c.nativeAll calls echoes value rest

end

/-- **What all accesses keep up, all runs do.** -/
theorem watch (c : image.Custom context P T) (fuel : Nat) (activity : Activity)
    (of : activity.Of image) : Keeps P T (image.watch fuel context activity) := by
  induction fuel generalizing activity with
  | zero => exact .exhausted
  | succ fuel ih =>
    cases activity with
    | native routine receiver args =>
      refine c.native (fun name args => ?_) (fun text watch held => ?_) routine
      · exact c.ofRun_bind (fun _ => spares_functionActivity name args) ih
      · obtain ⟨next, related⟩ := c.spared (watch.memory.sameHolders_echo context text) held
        exact ⟨next, fun _ => related⟩
    | frame body step =>
      obtain ⟨⟨key, own⟩, asks⟩ := of
      cases step with
      | returned value => exact .pure c.refl value
      | failed error => exact .throw c.refl error
      | running frame => exact ih _ ⟨⟨key, own⟩, body.step_by frame⟩
      | asking request frame =>
        exact (c.answer ih own asks).attempt.bind c.trans fun answer =>
          ih (.frame body _) ⟨⟨key, own⟩, body.resume_by _ _ _⟩

end Custom

end Image

end StackScript
