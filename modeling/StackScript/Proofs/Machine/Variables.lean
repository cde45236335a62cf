import StackScript.Proofs.Machine.Fronts
import StackScript.Proofs.Machine.Keeping

/-!
# Static fields are variables

A load from a static field finds the value that was stored to it last, in whatever run and by whatever
body. Where no initializer is running the initializer of the field has stored to it before: the first
access runs the initializer, and later ones are answered only if it has come to its end.

## Main definitions

* `lastStored?`, `isRunning`: the value stored last, and initializers that have not ended yet
* `Body.Settles`: a body has stored to a field whenever it returns
* `Finds`: what a load finds
* `Watch.Sound`: a memory agrees with what was written down

## Main results

* `Image.stored_of_watch`: an initializer that returns has stored to its fields
* `Image.custom_sound`: all runs keep up that memory and record agree
-/

namespace StackScript

open Watched

/-! ## What was written down -/

/-- The value that was stored to a field last. -/
def lastStored? (field : StaticField) : List FieldEvent → Option Value
  | [] => none
  | .stored other value _ :: earlier =>
    if other = field then some value else lastStored? field earlier
  | _ :: earlier => lastStored? field earlier

/-- The initializer of static fields has begun and not ended. -/
def isRunning (statics : Statics) : List FieldEvent → Bool
  | [] => false
  | .began other :: earlier => other == statics || isRunning statics earlier
  | .ended other :: earlier => other != statics && isRunning statics earlier
  | _ :: earlier => isRunning statics earlier

/-- The key of the body that initializes static fields. -/
def Statics.initializerKey : Statics → String
  | .shared type => type ++ "::" ++ Text.foldCase BodyName.typeInitializerName
  | .bound _ type => type ++ "::" ++ Text.foldCase BodyName.staticsInitializerName

/-! ## Stores of a frame -/

namespace Instruction

/-- The static field that the instruction stores to in a context. -/
def storedField? (context : ContextId) : Instruction → Option StaticField
  | .storeShared type field => some ⟨.shared (nameKey type.text), field⟩
  | .storeBound type field => some ⟨.bound context (nameKey type.text), field⟩
  | _ => none

/-- The static field that the instruction loads or stores in a context. -/
def staticField? (context : ContextId) : Instruction → Option StaticField
  | .loadShared type field | .storeShared type field => some ⟨.shared (nameKey type.text), field⟩
  | .loadBound type field | .storeBound type field =>
    some ⟨.bound context (nameKey type.text), field⟩
  | _ => none

end Instruction

/-- A body of the image has an instruction behind which it may happen. -/
def FieldEvent.By (image : Image) : FieldEvent → Prop
  | .began _ | .ended _ => True
  | .loaded field _ | .stored field _ _ =>
    ∃ i context, image.Has i ∧ i.staticField? context = some field

/-- A body of the key has stored to the field. -/
def StoredBy (key : String) (field : StaticField) (record : List FieldEvent) : Prop :=
  ∃ value, .stored field value key ∈ record

theorem StoredBy.mono {key : String} {field : StaticField} {record later : List FieldEvent}
    (h : StoredBy key field record) (suffix : record <:+ later) : StoredBy key field later := by
  obtain ⟨value, mem⟩ := h
  exact ⟨value, suffix.subset mem⟩

/-- **The body has stored to the field whenever it returns** in the context: in front of every return
that control comes to, the store is known to have been made. It catches nothing. -/
def Body.Settles (body : Body) (context : ContextId) (field : StaticField) : Prop :=
  ∃ table item front, body.Bears table item front ∧ body.regions = [] ∧
    ∀ n a, body.code[n]? = some .return → front n = some a →
      ∃ i ∈ a.stores, i.storedField? context = some field

namespace Image

variable {image : Image} {context : ContextId} {body : Body} {field : StaticField}
    {record : List FieldEvent} {fuel : Nat} {key : String} {request : Request}

/-- The run of a member of a type keeps up what all routines do. -/
theorem keeps_watchMember {P : Watch → Prop} {T : Watch → Watch → Prop}
    (refl : ∀ watch, T watch watch) (trans : ∀ a b c, T a b → T b c → T a c)
    (runs : ∀ activity, activity.Of image → Keeps P T (image.watch fuel context activity))
    (type : QualifiedName) (member : String) (args : List FrameArg) :
    Keeps P T (image.watchMember (image.watch fuel) context type member args) := by
  unfold watchMember
  cases found : image.body? (BodyName.method type member).key with
  | none => exact .pure refl ()
  | some body =>
    exact (runs (.ofBody body none args) ⟨⟨_, found⟩, trivial⟩).bind trans fun _ => .pure refl ()

/-- The record grows only, by what code of the image may do. -/
theorem custom_grows (image : Image) (context : ContextId) (record : List FieldEvent) :
    image.Custom context
      (fun watch => ∃ new, watch.record = new ++ record ∧ ∀ event ∈ new, event.By image)
      fun _ _ => True where
  refl _ := trivial
  trans _ _ _ _ _ := trivial
  spared _ held := ⟨held, trivial⟩
  access fuel runs body errand of := by
    let P (watch : Watch) : Prop :=
      ∃ new, watch.record = new ++ record ∧ ∀ event ∈ new, event.By image
    let T (_ _ : Watch) : Prop := True
    have refl (watch : Watch) : T watch watch := trivial
    have trans (a b c : Watch) (_ : T a b) (_ : T b c) : T a c := trivial
    have any (watch : Watch) (memory : Memory) (held : P watch) :
        P { watch with memory } ∧ T watch { watch with memory } := ⟨held, trivial⟩
    -- Only a note makes the record longer, and it is of an event that is given.
    have noted (event : FieldEvent) (own : event.By image) : Keeps P T (note event) := by
      refine .note fun watch ⟨new, added, given⟩ => ⟨⟨event :: new, by simp [added], ?_⟩, trivial⟩
      exact List.forall_mem_cons.mpr ⟨own, given⟩
    have initializes (statics : Statics) (type : QualifiedName) (member : String)
        (args : List FrameArg) :
        Keeps P T (initializer statics
          (image.watchMember (image.watch fuel) context type member args)) := by
      refine (noted (.began statics) trivial).bind trans fun _ => Keeps.bind trans
        (keeps_watchMember refl trans runs type member args).attempt fun outcome =>
          (noted (.ended statics) trivial).bind trans fun _ => ?_
      cases outcome with
      | ok => exact .pure refl ()
      | error e => exact .throw refl e
    have shared (type : QualifiedName) : Keeps P T (image.watchShared (image.watch fuel) context type) :=
      .ensureInitialized refl trans any _ (initializes _ _ _ _)
    have bound (type : QualifiedName) : Keeps P T (image.watchBound (image.watch fuel) context type) :=
      .boundStatics refl trans any _ _ fun _ => initializes _ _ _ _
    cases errand with
    | answered value => exact .pure refl value
    | routine activity => exact runs activity of
    | construction object activity => exact (runs activity of).bind trans fun _ => .pure refl object
    | loadShared type field =>
      exact (shared type).bind trans fun _ => .look fun _ =>
        (noted (.loaded ⟨.shared (nameKey type.text), field⟩ _) ⟨_, context, of, rfl⟩).bind trans
          fun _ => .pure refl _
    | storeShared type field value =>
      exact (shared type).bind trans fun _ => (Keeps.modify any _).bind trans fun _ =>
        (noted (.stored ⟨.shared (nameKey type.text), field⟩ value body)
          ⟨_, context, of, rfl⟩).bind trans fun _ => .pure refl _
    | loadBound type field =>
      exact (bound type).bind trans fun _ => .look fun _ =>
        (noted (.loaded ⟨.bound context (nameKey type.text), field⟩ _)
          ⟨_, context, of, rfl⟩).bind trans fun _ => .pure refl _
    | storeBound type field value =>
      exact (bound type).bind trans fun _ => (Keeps.modify any _).bind trans fun _ =>
        (noted (.stored ⟨.bound context (nameKey type.text), field⟩ value body)
          ⟨_, context, of, rfl⟩).bind trans fun _ => .pure refl _

/-- The answer to a request leaves what was written down before it. -/
theorem suffix_of_answer (context : ContextId) (fuel : Nat) (own : image.body? key = some body)
    {frame : Frame} (asked : (Step.asking request frame).By body) (watch : Watch) :
    watch.record <:+ ((ofRun (image.errand context request) >>=
      image.watchErrand (image.watch fuel) context body.name.key).leads watch).2.record := by
  have c := image.custom_grows context watch.record
  obtain ⟨new, added, -⟩ := (c.answer (c.watch fuel) own asked watch ⟨[], rfl, nofun⟩).1
  exact ⟨new, added.symm⟩

/-- The answer to a store leaves the store behind. -/
theorem stored_of_answer {i : Instruction} {watch after : Watch} {value : Value}
    (asked : request.By i) (stores : i.storedField? context = some field)
    (h : (ofRun (image.errand context request) >>= image.watchErrand
      (image.watch fuel) context key).leads watch = (some (.ok value), after)) :
    StoredBy key field after.record := by
  cases i with
  | storeShared type name =>
    cases stores
    obtain ⟨stored, rfl⟩ := Request.eq_of_storeShared asked
    change (image.watchErrand (image.watch fuel) context key (.storeShared type name stored)).leads
      watch = _ at h
    rw [watchErrand, leads_bind] at h
    generalize (image.watchShared (image.watch fuel) context type).leads watch = led at h
    obtain ⟨_ | _ | _, inner⟩ := led <;> cases h
    exact ⟨stored, List.mem_cons_self⟩
  | storeBound type name =>
    cases stores
    obtain ⟨stored, rfl⟩ := Request.eq_of_storeBound asked
    change (image.watchErrand (image.watch fuel) context key (.storeBound type name stored)).leads
      watch = _ at h
    rw [watchErrand, leads_bind] at h
    generalize (image.watchBound (image.watch fuel) context type).leads watch = led at h
    obtain ⟨_ | _ | _, inner⟩ := led <;> cases h
    exact ⟨stored, List.mem_cons_self⟩
  | _ => cases stores

end Image

namespace Body

variable {body : Body} {frame after : Frame} {request : Request} {value : Value}

/-- Where a frame returns, there is a return. -/
theorem return_of_step (h : body.step frame = .returned value) :
    body.code[frame.pc]? = some .return := by
  unfold step at h
  split at h
  case h_1 => exact (raise_ne_returned h).elim
  case h_2 i hi =>
    have does := frame.yields_execute i
    split at h
    case h_7 returned => rw [hi, does _ returned]
    case h_6 =>
      split at h
      · cases h
      · exact (raise_ne_returned h).elim
      · cases h
    case h_1 => exact (raise_ne_returned h).elim
    all_goals cases h

/-- A frame that goes on by itself has not stored to a static field. -/
theorem storedField?_of_step (none : body.regions = []) {context : ContextId} {i : Instruction}
    (hi : body.code[frame.pc]? = some i) (h : body.step frame = .running after) :
    i.storedField? context = Option.none := by
  simp only [step, hi] at h
  have fails (f : Frame) (e : DispatchError) : body.raise f e = .failed e := raise_of_regions none f e
  cases i with
  | storeShared type field =>
    cases popped : frame.popValue with
    | error e => simp [Frame.execute, popped, fails, bind, Except.bind] at h
    | ok x => simp [Frame.execute, popped, bind, Except.bind, pure, Except.pure] at h
  | storeBound type field =>
    cases popped : frame.popValue with
    | error e => simp [Frame.execute, popped, fails, bind, Except.bind] at h
    | ok x =>
      cases popped' : x.2.pop with
      | error e => simp [Frame.execute, popped, popped', fails, bind, Except.bind] at h
      | ok y => simp [Frame.execute, popped, popped', bind, Except.bind, pure, Except.pure] at h
  | _ => rfl

/-- The stores of a frame's past have been written down. -/
def Logged (body : Body) (context : ContextId) (history : List Frame) (record : List FieldEvent) :
    Prop :=
  ∀ before ∈ history, ∀ i field, body.code[before.pc]? = some i →
    i.storedField? context = some field → StoredBy body.name.key field record

end Body

namespace Image

variable {image : Image} {context : ContextId} {body : Body} {field : StaticField}
    {after watch : Watch} {key : String} {value : Value}

/-- **A body that catches nothing** has written down the stores of its past when it returns. -/
theorem exists_logged_of_watch (found : image.body? key = some body) (none : body.regions = [])
    (fuel : Nat) {frame : Frame} {history : List Frame} (runs : body.Runs (frame :: history))
    (logged : body.Logged context history watch.record)
    (h : (image.watch fuel context (.frame body (.running frame))).leads watch =
      (some (.ok value), after)) :
    ∃ last earlier, body.Runs (last :: earlier) ∧ body.code[last.pc]? = some .return ∧
      body.Logged context earlier after.record := by
  -- Strong induction: an instruction that asks takes two steps, one to ask and one to go on.
  induction fuel using Nat.strongRecOn generalizing frame history watch with | _ fuel ih =>
  match fuel with
  | 0 => cases h
  | fuel + 1 =>
  change (image.watch fuel context (.frame body (body.step frame))).leads watch = _ at h
  cases next : body.step frame with
  | returned v =>
    rw [next] at h
    cases fuel with
    | zero => cases h
    | succ fuel =>
      cases h
      exact ⟨frame, history, runs, body.return_of_step next, logged⟩
  | failed e =>
    rw [next] at h
    cases fuel <;> cases h
  | running f =>
    rw [next] at h
    refine ih fuel (Nat.lt_succ_self fuel) (runs.goes (.step next))
      (fun before mem i field hi stores => ?_) h
    obtain rfl | mem := List.mem_cons.mp mem
    · rw [body.storedField?_of_step none hi next] at stores
      cases stores
    · exact logged before mem i field hi stores
  | asking request waiting =>
    rw [next] at h
    match fuel with
    | 0 => cases h
    | fuel + 1 =>
    obtain ⟨i, hi, asks⟩ := body.execute_of_asking next
    have asked : request.By i := frame.yields_asked i _ asks
    have grows := suffix_of_answer context fuel found
      (show (Step.asking request waiting).By body from ⟨i, Array.mem_of_getElem? hi, asked⟩) watch
    change (attempt _ >>= fun answer => image.watch fuel context (.frame body
      (body.resume request waiting answer))).leads watch = _ at h
    rw [leads_bind, leads_attempt] at h
    rcases answers : (ofRun (image.errand context request) >>= image.watchErrand (image.watch fuel)
      context body.name.key).leads watch with ⟨_ | e | v, answered⟩ <;> rw [answers] at h grows
    · cases h
    · -- An error leaves the frame, and the body does not return.
      have fails : body.resume request waiting (.error e) = .failed e := body.raise_of_regions none _ e
      change (image.watch fuel context (.frame body (body.resume request waiting (.error e)))).leads
        answered = _ at h
      rw [fails] at h
      cases fuel <;> cases h
    · refine ih fuel (by omega) (runs.goes (.answer (.ok v) next rfl))
        (fun before mem j field hj stores => ?_) h
      obtain rfl | mem := List.mem_cons.mp mem
      · obtain rfl : i = j := Option.some.inj (hi.symm.trans hj)
        exact stored_of_answer asked stores answers
      · exact (logged before mem j field hj stores).mono grows

/-- **An initializer that returns has stored to its fields.** -/
theorem stored_of_watch (found : image.body? key = some body) (settles : body.Settles context field)
    {fuel : Nat} {receiver : Option Value} {args : List FrameArg}
    (h : (image.watch fuel context (.ofBody body receiver args)).leads watch =
      (some (.ok value), after)) :
    StoredBy body.name.key field after.record := by
  obtain ⟨table, item, front, bears, none, returns⟩ := settles
  obtain ⟨last, earlier, runs, there, logged⟩ :=
    exists_logged_of_watch found none fuel .enter (fun _ mem => absurd mem List.not_mem_nil) h
  obtain ⟨a, known, -, stores⟩ := (runs.tracked bears).here
  obtain ⟨i, mem, stored⟩ := returns _ a there known
  obtain ⟨before, past, hi⟩ := stores i mem
  exact logged before past i field hi stored

end Image

/-! ## Memory and record agree -/

/-- The initializer of the static fields may run in the context. -/
def Statics.RunsIn (context : ContextId) : Statics → Prop
  | .shared _ => True
  | .bound own _ => own = context

/-- **The body is the initializer of the field**, and has stored to it whenever it returns. -/
structure Image.Initializes (image : Image) (field : StaticField) (body : Body) : Prop where
  found : image.body? field.statics.initializerKey = some body
  settles : ∀ context, field.statics.RunsIn context → body.Settles context field

/-- What a load finds: the value that was stored last, or null if nothing was stored. Where the
initializer of the field is not running, it has stored to the field before. -/
structure Finds (image : Image) (field : StaticField) (value : Value) (earlier : List FieldEvent) :
    Prop where
  last : value = (lastStored? field earlier).getD .null
  initialized : ∀ body, image.Initializes field body → isRunning field.statics earlier = false →
    StoredBy body.name.key field earlier

/-- **The memory agrees with what was written down.** -/
structure Watch.Sound (image : Image) (contexts : Nat) (watch : Watch) : Prop where
  size : watch.memory.contexts.size = contexts
  finds : ∀ {later field value earlier}, watch.record = later ++ .loaded field value :: earlier →
    Finds image field value earlier
  values : ∀ field, watch.memory.valueOf field = (lastStored? field watch.record).getD .null
  running : ∀ {statics}, isRunning statics watch.record = true → watch.memory.meets statics = .granted
  initialized : ∀ {field body}, image.Initializes field body →
    watch.memory.meets field.statics = .granted → isRunning field.statics watch.record = false →
    StoredBy body.name.key field watch.record

/-- The same initializers are running, and fields with a number keep it. -/
structure Watch.Resumes (watch after : Watch) : Prop where
  running : ∀ statics, isRunning statics after.record = isRunning statics watch.record
  number : ∀ {context type id}, watch.memory.number? context type = some id →
    after.memory.number? context type = some id

namespace Watch

variable {image : Image} {contexts : Nat} {memory next : Memory} {record : List FieldEvent}
  {statics : Statics} {field : StaticField} {value : Value}

namespace Resumes

variable {a b c : Watch}

theorem refl (watch : Watch) : watch.Resumes watch := ⟨fun _ => rfl, id⟩

theorem trans (h : a.Resumes b) (h' : b.Resumes c) : a.Resumes c :=
  ⟨fun statics => (h'.running statics).trans (h.running statics),
    fun numbered => h'.number (h.number numbered)⟩

end Resumes

namespace Sound

/-- Nothing was found but what had been found before. -/
theorem finds_cons (h : Sound image contexts ⟨memory, record⟩) {event : FieldEvent}
    (new : ∀ field value, event = .loaded field value → Finds image field value record)
    {later earlier : List FieldEvent} {field : StaticField} {value : Value}
    (split : event :: record = later ++ .loaded field value :: earlier) :
    Finds image field value earlier := by
  cases later with
  | nil =>
    cases split
    exact new field value rfl
  | cons first later =>
    rw [List.cons_append, List.cons.injEq] at split
    exact h.finds split.2

theorem spared (h : Sound image contexts ⟨memory, record⟩) (same : memory.SameHolders next) :
    Sound image contexts ⟨next, record⟩ where
  size := same.size.trans h.size
  finds := h.finds
  values field := (same.valueOf field).trans (h.values field)
  running began := (same.same.meets _).trans (h.running began)
  initialized own granted := h.initialized own ((same.same.meets _).symm.trans granted)

/-- An initializer begins. -/
theorem begins (h : Sound image contexts ⟨memory, record⟩)
    (becomes : memory.Becomes statics .granted next)
    (same : ∀ field, next.valueOf field = memory.valueOf field) :
    Sound image contexts ⟨next, .began statics :: record⟩ where
  size := becomes.size.trans h.size
  finds := h.finds_cons fun _ _ same => by cases same
  values field := (same field).trans (h.values field)
  running {other} began := by
    show next.meets other = .granted
    rw [becomes.meets]
    split
    · rfl
    · next unlike =>
      have began : isRunning other record = true := by simpa [isRunning, unlike] using began
      exact h.running began
  initialized {field body} own granted idle := by
    have idle : statics ≠ field.statics ∧ isRunning field.statics record = false := by
      simpa [isRunning] using idle
    have granted : next.meets field.statics = .granted := granted
    rw [becomes.meets, if_neg idle.1] at granted
    exact (h.initialized own granted idle.2).mono (List.suffix_cons _ _)

/-- An initializer ends. -/
theorem ends (h : Sound image contexts ⟨memory, record⟩) {outcome : Except DispatchError Unit}
    (becomes : memory.Becomes statics (.ofOutcome outcome) next)
    (same : ∀ field, next.valueOf field = memory.valueOf field)
    (stored : outcome = .ok () → ∀ field body, field.statics = statics →
      image.Initializes field body → StoredBy body.name.key field record) :
    Sound image contexts ⟨next, .ended statics :: record⟩ where
  size := becomes.size.trans h.size
  finds := h.finds_cons fun _ _ same => by cases same
  values field := (same field).trans (h.values field)
  running {other} began := by
    have began : statics ≠ other ∧ isRunning other record = true := by
      simpa [isRunning] using began
    show next.meets other = .granted
    rw [becomes.meets, if_neg began.1]
    exact h.running began.2
  initialized {field body} own granted idle := by
    have granted : next.meets field.statics = .granted := granted
    rw [becomes.meets] at granted
    refine StoredBy.mono ?_ (List.suffix_cons _ _)
    split at granted
    · next own_statics =>
      cases outcome with
      | ok => exact stored rfl field body own_statics.symm own
      | error => cases granted
    · next unlike =>
      have idle : isRunning field.statics record = false := by
        simpa [isRunning, unlike] using idle
      exact h.initialized own granted idle

/-- A load from a field that can be accessed. -/
theorem loads (h : Sound image contexts ⟨memory, record⟩) (field : StaticField)
    (granted : memory.meets field.statics = .granted) :
    Sound image contexts ⟨memory, .loaded field (memory.valueOf field) :: record⟩ where
  size := h.size
  finds := h.finds_cons <| by
    rintro _ _ ⟨⟩
    exact ⟨h.values field, fun body own => h.initialized own granted⟩
  values := h.values
  running := h.running
  initialized own granted idle := (h.initialized own granted idle).mono (List.suffix_cons _ _)

/-- A store to a field. -/
theorem stores (h : Sound image contexts ⟨memory, record⟩) (same : memory.SameStatics next)
    (becomes : ∀ other, next.valueOf other = if field = other then value else memory.valueOf other)
    (key : String) : Sound image contexts ⟨next, .stored field value key :: record⟩ where
  size := same.size.trans h.size
  finds := h.finds_cons fun _ _ same => by cases same
  values other := by
    show next.valueOf other = _
    rw [becomes, lastStored?]
    split
    · rfl
    · exact h.values other
  running began := (same.meets _).trans (h.running began)
  initialized own granted idle :=
    (h.initialized own ((same.meets _).symm.trans granted) idle).mono (List.suffix_cons _ _)

end Sound

/-! ## Accesses -/

/-- What an access leaves, if it ends: memory and record agree, nothing is running that was not
running before, and static fields to which it succeeds are initialized, or are being initialized. -/
structure Opened (image : Image) (contexts : Nat) (watch : Watch) (statics : Statics)
    (led : Option (Except DispatchError Unit) × Watch) : Prop where
  sound : Sound image contexts led.2
  resumes : led.1.isSome → watch.Resumes led.2
  granted : led.1 = some (.ok ()) → led.2.memory.meets statics = .granted

namespace Sound

variable {watch inner : Watch} {outcome : Except DispatchError Unit}

/-- Where no initializer has run, none is running. -/
theorem not_running (h : Sound image contexts watch) (first : watch.memory.meets statics = .first) :
    isRunning statics watch.record = false := by
  cases running : isRunning statics watch.record with
  | false => rfl
  | true => exact nomatch (h.running running).symm.trans first

/-- An access to static fields whose initializer has begun. -/
theorem opened (h : Sound image contexts watch)
    (meets : watch.memory.meets statics = .ofOutcome outcome) :
    Opened image contexts watch statics (some outcome, watch) where
  sound := h
  resumes _ := .refl watch
  granted := by
    rintro ⟨⟩
    exact meets

/-- **The first access**, around the run of the initializer. -/
theorem opens {init : Watched Unit} (leave : Except DispatchError Unit → Memory → Memory)
    (h : Sound image contexts watch) (first : watch.memory.meets statics = .first)
    (enters : watch.memory.Becomes statics .granted next)
    (enters' : ∀ field, next.valueOf field = watch.memory.valueOf field)
    (runs : Keeps (Sound image contexts) Resumes init)
    (leaves : ∀ outcome inner, Sound image contexts inner →
      Resumes ⟨next, .began statics :: watch.record⟩ inner →
      inner.memory.Becomes statics (.ofOutcome outcome) (leave outcome inner.memory) ∧
      ∀ field, (leave outcome inner.memory).valueOf field = inner.memory.valueOf field)
    (settles : ∀ inner,
      init.leads ⟨next, .began statics :: watch.record⟩ = (some (.ok ()), inner) →
      ∀ field body, field.statics = statics → image.Initializes field body →
        StoredBy body.name.key field inner.record) :
    let led :=
      closing (fun outcome inner => ⟨leave outcome inner.memory, .ended statics :: inner.record⟩)
        (init.leads ⟨next, .began statics :: watch.record⟩)
    Opened image contexts watch statics led ∧ (led.1.isSome → ∀ context type id,
      next.number? context type = some id → led.2.memory.number? context type = some id) := by
  -- The initializer has not run before, so no event of the record is of its run.
  have idle := h.not_running first
  have before : Sound image contexts ⟨watch.memory, watch.record⟩ := h
  have begun := before.begins enters enters'
  have ran := runs _ begun
  generalize init.leads ⟨next, .began statics :: watch.record⟩ = led at ran settles ⊢
  obtain ⟨_ | outcome, inner⟩ := led
  · exact ⟨⟨ran.1, nofun, nofun⟩, nofun⟩
  · obtain ⟨held, resumed⟩ := ran
    have resumed := resumed rfl
    obtain ⟨leaves, leaves'⟩ := leaves outcome inner held resumed
    have numbers (context : ContextId) (type : String) (id : HolderId)
        (numbered : next.number? context type = some id) :
        (leave outcome inner.memory).number? context type = some id :=
      leaves.number (resumed.number numbered)
    have ended : Sound image contexts ⟨inner.memory, inner.record⟩ := held
    refine ⟨⟨ended.ends leaves leaves' fun done => ?_, fun _ => ⟨fun other => ?_, fun numbered =>
      numbers _ _ _ (enters.number numbered)⟩, ?_⟩, fun _ => numbers⟩
    · subst done
      exact settles inner rfl
    · show (statics != other && isRunning other inner.record) = _
      rw [resumed.running]
      by_cases same : statics = other
      · subst same
        simp [idle]
      · simp [isRunning, bne_iff_ne.mpr same, beq_eq_false_iff_ne.mpr same]
    · rintro ⟨⟩
      exact (leaves.meets statics).trans (if_pos rfl)

end Sound

end Watch

namespace Image

section Accesses

open Memory

variable {image : Image} {contexts fuel : Nat} {context : ContextId} {watch after : Watch}
  {type : QualifiedName} {member : String} {args : List FrameArg} {field : StaticField} {body : Body}

/-- The initializer of a field has stored to it when it has come to its end. -/
theorem stored_of_watchMember
    (key : (BodyName.method type member).key = field.statics.initializerKey)
    (here : field.statics.RunsIn context) (own : image.Initializes field body)
    (h : (image.watchMember (image.watch fuel) context type member args).leads watch =
      (some (.ok ()), after)) : StoredBy body.name.key field after.record := by
  rw [watchMember, key, own.found] at h
  change (image.watch fuel context (.ofBody body none args) >>= fun _ =>
    Pure.pure ()).leads watch = _ at h
  rw [leads_bind] at h
  rcases ran : (image.watch fuel context (.ofBody body none args)).leads watch with
    ⟨_ | _ | value, inner⟩ <;> rw [ran] at h <;> cases h
  exact stored_of_watch own.found (own.settles context here) ran

variable (contexts) in
/-- What all routines of the image do to memory and record. -/
def RunsSoundly (image : Image) (fuel : Nat) (context : ContextId) : Prop :=
  ∀ activity, activity.Of image →
    Keeps (Watch.Sound image contexts) Watch.Resumes (image.watch fuel context activity)

variable (contexts) in
/-- An access opens static fields wherever memory and record agree, and its result is of some kind. -/
def Opens {α : Type} (image : Image) (statics : Statics) (x : Watched α)
    (Q : α → Memory → Prop) : Prop :=
  ∀ watch, Watch.Sound image contexts watch →
    Watch.Opened image contexts watch statics
      ((x.leads watch).1.map fun outcome => outcome.map fun _ => (), (x.leads watch).2) ∧
    ∀ a, (x.leads watch).1 = some (.ok a) → Q a (x.leads watch).2.memory

theorem map_unit (led : Option (Except DispatchError Unit) × Watch) :
    (led.1.map fun outcome => outcome.map fun _ => (), led.2) = led := by
  rcases led with ⟨_ | _ | _, _⟩ <;> rfl

/-- An access to shared static fields. -/
theorem opens_watchShared (runs : image.RunsSoundly contexts fuel context)
    (named : type.key = nameKey type.text) :
    image.Opens contexts (.shared (nameKey type.text))
      (image.watchShared (image.watch fuel) context type) fun _ _ => True := by
  intro watch h
  refine ⟨?_, fun _ _ => trivial⟩
  rw [watchShared]
  by_cases first : watch.memory.meets (.shared (nameKey type.text)) = .first
  · have opened := (h.opens
      (fun outcome memory => memory.withShared (memory.shared.leave type.text outcome))
      first (becomes_enter _ _) (fun _ => rfl)
      (keeps_watchMember Watch.Resumes.refl (fun _ _ _ => Watch.Resumes.trans) runs type
        BodyName.typeInitializerName [])
      (fun outcome inner _ _ => ⟨becomes_leave _ _ _, fun _ => rfl⟩)
      fun inner ran field body same own => by
        obtain ⟨_, name⟩ := field
        cases same
        exact stored_of_watchMember
          (by simp [BodyName.key, BodyName.method, Statics.initializerKey, named]) trivial own ran).1
    rw [map_unit, leads_ensureInitialized_first _ first, leads_initializer, closing_closing]
    exact opened
  · obtain ⟨outcome, meets⟩ := Admission.exists_outcome first
    rw [map_unit, leads_ensureInitialized _ meets]
    exact h.opened meets

/-- An access to static fields of the context. It is answered with their number. -/
theorem opens_watchBound (runs : image.RunsSoundly contexts fuel context)
    (named : type.key = nameKey type.text) (there : context < contexts) :
    image.Opens contexts (.bound context (nameKey type.text))
      (image.watchBound (image.watch fuel) context type)
      fun id memory => memory.number? context (nameKey type.text) = some id := by
  intro watch h
  rw [watchBound]
  have outcomes (outcome : Except DispatchError Unit) (id : HolderId) :
      ((outcome.map fun _ => id).map fun _ => ()) = outcome := by cases outcome <;> rfl
  have here : context < watch.memory.contexts.size := h.size ▸ there
  -- The first access makes the fields and runs the initializer; later ones find a number.
  by_cases first : watch.memory.meets (.bound context (nameKey type.text)) = .first
  · have becomes := becomes_enterStatics here first
    have numbered := number?_enterStatics here first
    have enters := Context.enterStatics_of_first first
    rw [enters] at becomes numbered
    obtain ⟨opened, numbers⟩ := h.opens (fun outcome memory => memory.setContext context
        ((memory.context context).leaveStatics (watch.memory.context context).holders.size outcome))
      first becomes
      (valueOf_setContext_same here fun _ _ =>
        Context.valueOf_push (Context.number?_of_first first) _)
      (keeps_watchMember Watch.Resumes.refl (fun _ _ _ => Watch.Resumes.trans) runs type
        BodyName.staticsInitializerName [.context])
      (fun outcome inner held resumed => by
        have here : context < inner.memory.contexts.size := held.size ▸ there
        have numbered := resumed.number numbered
        have running : isRunning (.bound context (nameKey type.text)) inner.record = true := by
          rw [resumed.running]
          simp [isRunning]
        exact ⟨becomes_leaveStatics outcome here numbered (held.running running),
          valueOf_setContext_same here fun _ _ => Context.valueOf_leaveStatics numbered outcome⟩)
      fun inner ran field body same own => by
        obtain ⟨_, name⟩ := field
        cases same
        exact stored_of_watchMember
          (by simp [BodyName.key, BodyName.method, Statics.initializerKey, named]) rfl own ran
    rw [leads_boundStatics_first _ enters, leads_initializer, closing_closing]
    generalize closing _ _ = led at opened numbers ⊢
    obtain ⟨_ | outcome, after⟩ := led
    · exact ⟨opened, nofun⟩
    · simp only [Option.map_some, outcomes]
      refine ⟨opened, fun id answered => ?_⟩
      cases outcome <;> cases answered
      exact numbers rfl _ _ _ numbered
  · obtain ⟨outcome, meets⟩ := Admission.exists_outcome first
    obtain ⟨id, numbered⟩ := Context.exists_number first
    rw [leads_boundStatics _ numbered meets]
    refine ⟨?_, fun id' answered => ?_⟩
    · simpa [outcomes] using h.opened meets
    · cases outcome <;> cases answered
      exact numbered

/-- An access, and what is done then. -/
theorem Opens.keeps_bind {α : Type} {x : Watched α} {f : α → Watched Value} {statics : Statics}
    {Q : α → Memory → Prop} (opens : image.Opens contexts statics x Q)
    (goesOn : ∀ a watch, Watch.Sound image contexts watch →
      watch.memory.meets statics = .granted → Q a watch.memory →
      Watch.Sound image contexts ((f a).leads watch).2 ∧ watch.Resumes ((f a).leads watch).2) :
    Keeps (Watch.Sound image contexts) Watch.Resumes (x >>= f) := by
  intro watch held
  obtain ⟨opened, given⟩ := opens watch held
  rw [leads_bind]
  generalize x.leads watch = led at opened given ⊢
  obtain ⟨_ | _ | a, after⟩ := led
  · exact ⟨opened.sound, nofun⟩
  · exact ⟨opened.sound, fun _ => opened.resumes rfl⟩
  · obtain ⟨sound, resumes⟩ := goesOn a after opened.sound (opened.granted rfl) (given a rfl)
    exact ⟨sound, fun _ => (opened.resumes rfl).trans resumes⟩

end Accesses

end Image

namespace Instruction

/-- The type to whose static fields an instruction asks for access. -/
def staticType? : Instruction → Option QualifiedName
  | .loadShared type _ | .storeShared type _ | .loadBound type _ | .storeBound type _ => some type
  | _ => none

end Instruction

namespace Image

variable {image : Image} {contexts : Nat} {context : ContextId}

/-- Code of the image names types of static fields without leading backslashes. -/
def NamesTypes (image : Image) : Prop :=
  ∀ i, image.Has i → ∀ type ∈ i.staticType?, type.key = nameKey type.text

/-- **All runs keep up that memory and record agree.** -/
theorem custom_sound (names : image.NamesTypes) (there : context < contexts) :
    image.Custom context (Watch.Sound image contexts) Watch.Resumes where
  refl := Watch.Resumes.refl
  trans _ _ _ := Watch.Resumes.trans
  spared same held := by
    have held : Watch.Sound image contexts ⟨_, _⟩ := held
    exact ⟨held.spared same, fun _ => rfl, fun numbered => (same.same.number _ _).trans numbered⟩
  access fuel runs body errand of := by
    have refl := Watch.Resumes.refl
    have trans (a b c : Watch) : a.Resumes b → b.Resumes c → a.Resumes c := Watch.Resumes.trans
    cases errand with
    | answered value => exact .pure refl value
    | routine activity => exact runs activity of
    | construction object activity => exact (runs activity of).bind trans fun _ => .pure refl object
    | loadShared type field =>
      have named : type.key = nameKey type.text := names _ of _ rfl
      refine (opens_watchShared runs named).keeps_bind fun _ ⟨memory, record⟩ held granted _ => ?_
      exact ⟨held.loads ⟨.shared (nameKey type.text), field⟩ granted, fun _ => rfl, id⟩
    | storeShared type field value =>
      have named : type.key = nameKey type.text := names _ of _ rfl
      refine (opens_watchShared runs named).keeps_bind fun _ ⟨memory, record⟩ held granted _ => ?_
      exact ⟨held.stores (memory.sameStatics_set _ _ _) Memory.valueOf_set body, fun _ => rfl, id⟩
    | loadBound type field =>
      have named : type.key = nameKey type.text := names _ of _ rfl
      refine (opens_watchBound runs named there).keeps_bind
        fun id ⟨memory, record⟩ held granted numbered => ?_
      have found := held.loads ⟨.bound context (nameKey type.text), field⟩ granted
      have value : memory.valueOf ⟨.bound context (nameKey type.text), field⟩ =
          (memory.context context).getStatic id field := Context.valueOf_of_number? numbered
      rw [value] at found
      exact ⟨found, fun _ => rfl, fun numbered => numbered⟩
    | storeBound type field value =>
      have named : type.key = nameKey type.text := names _ of _ rfl
      refine (opens_watchBound runs named there).keeps_bind
        fun id ⟨memory, record⟩ held granted numbered => ?_
      have here : context < memory.contexts.size := held.size ▸ there
      have same := Memory.sameStatics_setStatic here numbered field value
      exact ⟨held.stores same (Memory.valueOf_setStatic here numbered) body, fun _ => rfl,
        fun numbered => (same.number _ _).trans numbered⟩

end Image

end StackScript
