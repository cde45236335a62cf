import StackScript.Proofs.Memory.Statics

/-!
# Initializers of static fields

A program accesses static fields in any order, in any number of contexts, and brings an initializer
along with every access; initializers are programs again, which may come back to the fields that they
initialize. Its history tells which accesses it made, which initializers ran, and what came of them.

## Main definitions

* `StaticsScript`, `StaticsScript.history`: a program that accesses static fields, and its history
* `StaticsEvent.Fits`: what may happen behind some events, and in front of others
* `Memory.Follows`: a memory is what some events have led to
* `Lawful`: events that lead from one memory to another

## Main results

* `lawful_settled`, `lawful_first`: an access that meets a state, and one that runs the initializer
* `StaticsScript.isLawful_run`: a program
* `StaticsScript.initializesOnce_history`: every initializer runs at most once, and its outcome is the
  answer to every later access
-/

namespace StackScript

/-! ## Programs and their histories -/

/-- What an access to static fields is answered with: their number if they belong to a context, or
the error of their initializer. -/
abbrev StaticsAnswer := Except DispatchError (Option HolderId)

/-- What is left of an answer without the number. -/
def StaticsAnswer.outcome (answer : StaticsAnswer) : Except DispatchError Unit :=
  answer.map fun _ => ()

namespace StaticsAnswer

variable (outcome : Except DispatchError Unit)

@[simp] theorem outcome_map (number : Option HolderId) :
    StaticsAnswer.outcome (outcome.map fun _ => number) = outcome := by
  cases outcome <;> rfl

theorem map_some (id : HolderId) :
    (outcome.map fun _ => id).map some = outcome.map fun _ => some id := by
  cases outcome <;> rfl

theorem number_of_map {number number' : Option HolderId}
    (h : (outcome.map fun _ => number) = .ok number') : number = number' := by
  cases outcome <;> cases h
  rfl

end StaticsAnswer

/-- What happens to static fields. -/
inductive StaticsEvent where
  | asked (statics : Statics)
  | began (statics : Statics)
  | ended (statics : Statics) (outcome : Except DispatchError Unit)
  | answered (statics : Statics) (answer : StaticsAnswer)

/-- A computation that leaves a history behind. -/
abbrev Recorded := ExceptT DispatchError (StateT Memory (StateM (List StaticsEvent)))

namespace Recorded

def record (event : StaticsEvent) : Recorded Unit := modifyThe (List StaticsEvent) (· ++ [event])

/-- The result of a computation, an error as well. -/
def attempt {α : Type} (action : Recorded α) : Recorded (Except DispatchError α) :=
  tryCatch (Except.ok <$> action) fun error => return .error error

/-- The run of an initializer. -/
def initializer (statics : Statics) (init : Recorded Unit) : Recorded Unit := do
  record (.began statics)
  let outcome ← outcomeOf init
  record (.ended statics outcome)
  MonadExcept.ofExcept outcome

/-- An access to static fields. -/
def access {α : Type} (statics : Statics) (number : α → Option HolderId) (action : Recorded α) :
    Recorded (Except DispatchError α) := do
  record (.asked statics)
  let answer ← attempt action
  record (.answered statics (answer.map number))
  return answer

end Recorded

open Recorded

/-- A program that accesses static fields, in a number of contexts. It may look at the memory, and
change all of it that is no state of an initializer. -/
inductive StaticsScript (contexts : Nat) where
  | finish (outcome : Except DispatchError Unit)
  | look (next : Memory → StaticsScript contexts)
  | change (f : Memory → Memory) (same : ∀ memory : Memory, memory.SameStatics (f memory))
      (next : StaticsScript contexts)
  | shared (typeName : String) (init : StaticsScript contexts)
      (next : Except DispatchError Unit → StaticsScript contexts)
  | bound (context : Fin contexts) (typeName : String) (init : HolderId → StaticsScript contexts)
      (next : Except DispatchError HolderId → StaticsScript contexts)

/-- A memory with a number of contexts in which nothing has happened. -/
def Memory.withContexts (cacheSize contexts : Nat) : Memory :=
  { Memory.empty cacheSize with contexts := Array.replicate contexts .new }

@[simp] theorem Memory.context_withContexts (cacheSize contexts : Nat) (id : ContextId) :
    (Memory.withContexts cacheSize contexts).context id = .new := by
  simp only [withContexts, context, Array.getElem?_replicate]
  split <;> rfl

namespace StaticsScript

variable {contexts : Nat}

def run : StaticsScript contexts → Recorded Unit
  | .finish outcome => MonadExcept.ofExcept outcome
  | .look next => do
    let memory ← getThe Memory
    (next memory).run
  | .change f _ next => do
    modifyThe Memory f
    next.run
  | .shared typeName init next => do
    let statics := .shared (nameKey typeName)
    let answer ← access statics (fun _ => none)
      (ensureInitialized typeName (initializer statics init.run))
    (next answer).run
  | .bound context typeName init next => do
    let statics := .bound context (nameKey typeName)
    let answer ← access statics some
      (boundStatics context typeName fun id => initializer statics (init id).run)
    (next answer).run

/-- The history of a program that starts with nothing initialized. -/
def history (cacheSize : Nat) (script : StaticsScript contexts) : List StaticsEvent :=
  ((script.run.run.run (.withContexts cacheSize contexts)).run []).2

end StaticsScript

/-! ## Lawful histories -/

/-- What may happen behind some events, and in front of others. -/
def StaticsEvent.Fits (before next : List StaticsEvent) : StaticsEvent → Prop
  | .asked statics =>
    -- Fields whose initializer has begun are there at once; else the initializer begins.
    (.began statics ∈ before → ∃ answer, next.head? = some (.answered statics answer)) ∧
    (.began statics ∉ before → next.head? = some (.began statics))
  | .began statics => .began statics ∉ before
  | .ended statics outcome =>
    ∃ answer, next.head? = some (.answered statics answer) ∧ answer.outcome = outcome
  | .answered statics answer =>
    .began statics ∈ before ∧
    (∀ outcome, .ended statics outcome ∈ before → answer.outcome = outcome) ∧
    ((∀ outcome, .ended statics outcome ∉ before) → answer.isOk)

/-- Events that may happen one behind the other. -/
def FitsAll (before : List StaticsEvent) : List StaticsEvent → Prop
  | [] => True
  | event :: rest => event.Fits before rest ∧ FitsAll (before ++ [event]) rest

section Fits

variable {before events events' next : List StaticsEvent} {event : StaticsEvent}

theorem StaticsEvent.Fits.append (h : event.Fits before next) (more : List StaticsEvent) :
    event.Fits before (next ++ more) := by
  cases event with
  | asked statics =>
    refine ⟨fun began => ?_, fun fresh => ?_⟩
    · obtain ⟨answer, h⟩ := h.1 began
      exact ⟨answer, by simp [h]⟩
    · simp [h.2 fresh]
  | began | answered => exact h
  | ended statics outcome =>
    obtain ⟨answer, h, same⟩ := h
    exact ⟨answer, by simp [h], same⟩

theorem FitsAll.append (h : FitsAll before events) (h' : FitsAll (before ++ events) events') :
    FitsAll before (events ++ events') := by
  induction events generalizing before with
  | nil => simpa using h'
  | cons event rest ih => exact ⟨h.1.append _, ih h.2 (by simpa using h')⟩

theorem FitsAll.fits {earlier later : List StaticsEvent}
    (h : FitsAll before (earlier ++ event :: later)) : event.Fits (before ++ earlier) later := by
  induction earlier generalizing before with
  | nil => simpa using h.1
  | cons event rest ih => simpa using ih h.2

end Fits

/-- A memory is what some events have led to. -/
structure Memory.Follows (memory : Memory) (history : List StaticsEvent) : Prop where
  fresh : ∀ {statics}, .began statics ∉ history → memory.meets statics = .first
  running : ∀ {statics}, .began statics ∈ history → (∀ outcome, .ended statics outcome ∉ history) →
    memory.meets statics = .granted
  began : ∀ {statics outcome}, .ended statics outcome ∈ history → .began statics ∈ history
  settled : ∀ {statics outcome}, .ended statics outcome ∈ history →
    memory.meets statics = .ofOutcome outcome
  number : ∀ {context type id}, .answered (.bound context type) (.ok (some id)) ∈ history →
    memory.number? context type = some id

/-- Events that lead from one memory to another, behind earlier events. -/
structure Lawful (memory : Memory) (before events : List StaticsEvent) (after : Memory) : Prop where
  fits : FitsAll before events
  follows : after.Follows (before ++ events)
  /-- What was running before goes on running. -/
  goesOn : ∀ {statics}, .began statics ∈ before → ∀ outcome, .ended statics outcome ∉ events
  number : ∀ {context type id}, memory.number? context type = some id →
    after.number? context type = some id
  size : after.contexts.size = memory.contexts.size

section Lawful

variable {before events events' : List StaticsEvent} {memory next after : Memory}
  {statics : Statics} {admission : Admission} {outcome : Except DispatchError Unit}
  {answer : StaticsAnswer}

namespace Memory.Follows

theorem asked (h : memory.Follows before) : memory.Follows (before ++ [.asked statics]) where
  fresh fresh := h.fresh (by simpa using fresh)
  running began running := h.running (by simpa using began) (by simpa using running)
  began ended := by simpa using h.began (by simpa using ended)
  settled ended := h.settled (by simpa using ended)
  number answered := h.number (by simpa using answered)

theorem answered (h : memory.Follows before)
    (number : ∀ {context type id}, statics = .bound context type → answer = .ok (some id) →
      memory.number? context type = some id) :
    memory.Follows (before ++ [.answered statics answer]) where
  fresh fresh := h.fresh (by simpa using fresh)
  running began running := h.running (by simpa using began) (by simpa using running)
  began ended := by simpa using h.began (by simpa using ended)
  settled ended := h.settled (by simpa using ended)
  number answered := by
    simp only [List.mem_append, List.mem_singleton, StaticsEvent.answered.injEq] at answered
    obtain answered | ⟨same, same'⟩ := answered
    · exact h.number answered
    · exact number same.symm same'.symm

theorem change (h : memory.Follows before) (same : memory.SameStatics next) : next.Follows before where
  fresh fresh := (same.meets _).trans (h.fresh fresh)
  running began running := (same.meets _).trans (h.running began running)
  began := h.began
  settled ended := (same.meets _).trans (h.settled ended)
  number answered := (same.number _ _).trans (h.number answered)

/-- Nothing has begun where an access would be the first one. -/
theorem not_began (h : memory.Follows before) (first : memory.meets statics = .first) :
    .began statics ∉ before := by
  intro began
  by_cases ended : ∃ outcome, .ended statics outcome ∈ before
  · obtain ⟨outcome, ended⟩ := ended
    have := (h.settled ended).symm.trans first
    cases outcome <;> cases this
  · have := (h.running began fun outcome h => ended ⟨outcome, h⟩).symm.trans first
    cases this

theorem began_of_ne (h : memory.Follows before) (ne : memory.meets statics ≠ .first) :
    .began statics ∈ before :=
  not_not.mp fun fresh => ne (h.fresh fresh)

theorem begins (h : memory.Follows before) (first : memory.meets statics = .first)
    (becomes : memory.Becomes statics .granted next) : next.Follows (before ++ [.began statics]) := by
  have new := h.not_began first
  have earlier {other outcome} (ended : .ended other outcome ∈ before ++ [.began statics]) :
      .ended other outcome ∈ before := by simpa using ended
  have others {other} (ne : statics ≠ other) : next.meets other = memory.meets other := by
    rw [becomes.meets, if_neg ne]
  refine ⟨fun {other} fresh => ?_, fun {other} began running => ?_, fun {other _} ended => ?_,
    fun {other _} ended => ?_, fun answered => ?_⟩
  · simp only [List.mem_append, List.mem_singleton, StaticsEvent.began.injEq, not_or] at fresh
    rw [others (Ne.symm fresh.2)]
    exact h.fresh fresh.1
  · by_cases same : statics = other
    · rw [becomes.meets, if_pos same]
    · simp only [List.mem_append, List.mem_singleton, StaticsEvent.began.injEq, Ne.symm same,
        or_false] at began
      rw [others same]
      exact h.running began fun outcome ended => running outcome (List.mem_append_left _ ended)
  · exact List.mem_append_left _ (h.began (earlier ended))
  · have ended := earlier ended
    rw [others (by rintro rfl; exact new (h.began ended))]
    exact h.settled ended
  · exact becomes.number (h.number (by simpa using answered))

theorem ends (h : memory.Follows before) (began : .began statics ∈ before)
    (running : ∀ outcome, .ended statics outcome ∉ before)
    (becomes : memory.Becomes statics (.ofOutcome outcome) next) :
    next.Follows (before ++ [.ended statics outcome]) := by
  have others {other} (ne : statics ≠ other) : next.meets other = memory.meets other := by
    rw [becomes.meets, if_neg ne]
  refine ⟨fun {other} fresh => ?_, fun {other} began' running' => ?_, fun {other _} ended => ?_,
    fun {other _} ended => ?_, fun answered => ?_⟩
  · have fresh : .began other ∉ before := by simpa using fresh
    rw [others (by rintro rfl; exact fresh began)]
    exact h.fresh fresh
  · simp only [List.mem_append, List.mem_singleton, not_or, StaticsEvent.ended.injEq] at running'
    rw [others (by rintro rfl; exact (running' outcome).2 ⟨rfl, rfl⟩)]
    exact h.running (by simpa using began') fun outcome => (running' outcome).1
  · simp only [List.mem_append, List.mem_singleton, StaticsEvent.ended.injEq] at ended
    obtain ended | ⟨rfl, -⟩ := ended
    · exact List.mem_append_left _ (h.began ended)
    · exact List.mem_append_left _ began
  · simp only [List.mem_append, List.mem_singleton, StaticsEvent.ended.injEq] at ended
    obtain ended | ⟨rfl, rfl⟩ := ended
    · rw [others]
      · exact h.settled ended
      · rintro rfl
        exact running _ ended
    · rw [becomes.meets, if_pos rfl]
  · exact becomes.number (h.number (by simpa using answered))

end Memory.Follows

namespace Lawful

theorem nil (follows : memory.Follows before) : Lawful memory before [] memory where
  fits := trivial
  follows := by simpa using follows
  goesOn _ _ := List.not_mem_nil
  number h := h
  size := rfl

theorem append (h : Lawful memory before events next)
    (h' : Lawful next (before ++ events) events' after) :
    Lawful memory before (events ++ events') after where
  fits := h.fits.append h'.fits
  follows := by simpa using h'.follows
  goesOn began outcome := by
    rw [List.mem_append, not_or]
    exact ⟨h.goesOn began outcome, h'.goesOn (List.mem_append_left _ began) outcome⟩
  number numbered := h'.number (h.number numbered)
  size := h'.size.trans h.size

theorem change (h : Lawful next before events after) (same : memory.SameStatics next) :
    Lawful memory before events after where
  fits := h.fits
  follows := h.follows
  goesOn := h.goesOn
  number numbered := h.number ((same.number _ _).trans numbered)
  size := h.size.trans same.size

end Lawful

/-! ## Accesses -/

/-- An access to fields that are there, or whose initializer runs or has failed. -/
theorem lawful_settled (h : memory.Follows before)
    (meets : memory.meets statics = .ofOutcome outcome) (same : answer.outcome = outcome)
    (number : ∀ {context type id}, statics = .bound context type → answer = .ok (some id) →
      memory.number? context type = some id) :
    Lawful memory before [.asked statics, .answered statics answer] memory where
  fits := by
    subst same
    have began := h.began_of_ne (meets ▸ Admission.ofOutcome_ne_first _)
    refine ⟨⟨fun _ => ⟨answer, rfl⟩, fun fresh => (fresh began).elim⟩, ⟨?_, fun outcome ended => ?_,
      fun running => ?_⟩, trivial⟩
    · exact List.mem_append_left _ began
    · have settled := h.settled (by simpa using ended)
      exact Admission.ofOutcome_inj.mp (meets.symm.trans settled)
    · have granted := (h.running began (by simpa using running)).symm.trans meets
      cases answer with
      | ok => rfl
      | error => cases granted
  follows := by simpa using Memory.Follows.answered h.asked number
  goesOn _ _ := by simp
  number numbered := numbered
  size := rfl

/-- The first access begins the initializer. -/
theorem lawful_begins (h : memory.Follows before) (first : memory.meets statics = .first)
    (enters : memory.Becomes statics .granted next) :
    Lawful memory before [.asked statics, .began statics] next where
  fits := by
    have new := h.not_began first
    exact ⟨⟨fun began => (new began).elim, fun _ => rfl⟩, by simpa [StaticsEvent.Fits] using new,
      trivial⟩
  follows := by simpa using h.asked.begins first enters
  goesOn _ _ := by simp
  number := enters.number
  size := enters.size

/-- The first access, around the run of the initializer. -/
theorem lawful_first {inner : Memory} (h : memory.Follows before)
    (first : memory.meets statics = .first) (enters : memory.Becomes statics .granted next)
    (runs : Lawful next (before ++ [.asked statics, .began statics]) events inner)
    (leaves : inner.meets statics = .granted → inner.Becomes statics (.ofOutcome outcome) after)
    (same : answer.outcome = outcome)
    (number : ∀ {context type id}, statics = .bound context type → answer = .ok (some id) →
      inner.number? context type = some id) :
    Lawful memory before ([.asked statics, .began statics] ++ events ++
      [.ended statics outcome, .answered statics answer]) after := by
  subst same
  have new := h.not_began first
  have runs' := (lawful_begins h first enters).append runs
  have began : .began statics ∈ before ++ ([.asked statics, .began statics] ++ events) := by simp
  -- The initializer is running until it ends here.
  have goesOn (outcome) : .ended statics outcome ∉
      before ++ ([.asked statics, .began statics] ++ events) := by
    intro ended
    simp only [List.mem_append, List.mem_cons, reduceCtorEq, List.not_mem_nil, or_false,
      false_or] at ended
    obtain ended | ended := ended
    · exact new (h.began ended)
    · exact runs.goesOn (by simp) outcome ended
  have leaves := leaves (runs'.follows.running began goesOn)
  have ended := runs'.follows.ends began goesOn leaves
  refine ⟨runs'.fits.append ⟨⟨answer, rfl, rfl⟩, ⟨?_, fun outcome ended => ?_, fun running => ?_⟩,
    trivial⟩, ?_, fun {other} began' outcome => ?_, fun numbered => leaves.number
      (runs'.number numbered), leaves.size.trans runs'.size⟩
  · exact List.mem_append_left _ began
  · rw [List.mem_append, List.mem_singleton, StaticsEvent.ended.injEq] at ended
    obtain ended | ⟨-, same⟩ := ended
    · exact (goesOn _ ended).elim
    · exact same.symm
  · exact (running answer.outcome (by simp)).elim
  · simpa using ended.answered fun same answered => leaves.number (number same answered)
  · have apart : statics ≠ other := by
      rintro rfl
      exact new began'
    have running := runs'.goesOn began' outcome
    simp only [List.mem_append, List.mem_cons, List.not_mem_nil, StaticsEvent.ended.injEq,
      reduceCtorEq, or_false, not_or] at running ⊢
    exact ⟨running, fun same => apart same.1.symm⟩

end Lawful

/-! ## Runs -/

namespace Recorded

variable {α : Type} {memory : Memory} {history : List StaticsEvent} {after : Memory}
    {events : List StaticsEvent} {typeName : String}

/-- What a computation comes to: its outcome, the memory and the history behind it. -/
def leads (x : Recorded α) (memory : Memory) (history : List StaticsEvent) :
    Except DispatchError α × Memory × List StaticsEvent :=
  let ((outcome, after), history) := (x.run.run memory).run history
  (outcome, after, history)

theorem leads_bind {β : Type} (x : Recorded α) (f : α → Recorded β) :
    (x >>= f).leads memory history =
      match x.leads memory history with
      | (.ok a, after, history) => (f a).leads after history
      | (.error e, after, history) => (.error e, after, history) := by
  unfold leads
  simp only [ExceptT.run_bind, StateT.run_bind]
  rcases (x.run.run memory).run history with ⟨⟨e | a, after⟩, history⟩ <;> rfl

theorem leads_attempt (x : Recorded α) :
    (attempt x).leads memory history =
      (.ok (x.leads memory history).1, (x.leads memory history).2) := by
  change (tryCatch (Except.ok <$> x) _ : Recorded _).leads memory history = _
  unfold leads
  simp only [ExceptT.run_tryCatch, ExceptT.run_map, StateT.run_bind, StateT.run_map]
  rcases (x.run.run memory).run history with ⟨⟨e | a, after⟩, history⟩ <;> rfl

/-- An access leaves its answer in the history. -/
theorem leads_access (memory : Memory) (history : List StaticsEvent) (statics : Statics)
    (number : α → Option HolderId) {x : Recorded α} {answer : Except DispatchError α}
    (h : x.leads memory (history ++ [.asked statics]) = (answer, after, events)) :
    (access statics number x).leads memory history =
      (.ok answer, after, events ++ [.answered statics (answer.map number)]) := by
  have asked : (record (.asked statics)).leads memory history =
      (.ok (), memory, history ++ [.asked statics]) := rfl
  rw [access, leads_bind, asked]
  dsimp only
  rw [leads_bind, leads_attempt, h]
  rfl

/-- An initializer leaves its outcome in the history. -/
theorem leads_initializer {statics : Statics} {init : Recorded Unit}
    {outcome : Except DispatchError Unit}
    (h : init.leads memory (history ++ [.began statics]) = (outcome, after, events)) :
    (initializer statics init).leads memory history =
      (outcome, after, events ++ [.ended statics outcome]) := by
  have began : (record (.began statics)).leads memory history =
      (.ok (), memory, history ++ [.began statics]) := rfl
  have tried : outcomeOf init = attempt init := rfl
  rw [initializer, leads_bind, began]
  dsimp only
  rw [leads_bind, tried, leads_attempt, h]
  cases outcome <;> rfl

theorem leads_get {f : Memory → Recorded α} :
    (getThe Memory >>= f).leads memory history = (f memory).leads memory history := by
  rw [leads_bind]
  rfl

/-- Shared fields that no access is the first to. -/
theorem leads_ensureInitialized (init : Recorded Unit) {answer : Except DispatchError Unit}
    (meets : memory.meets (.shared (nameKey typeName)) = .ofOutcome answer) :
    (ensureInitialized typeName init).leads memory history = (answer, memory, history) := by
  have meets : memory.shared.meets (nameKey typeName) = .ofOutcome answer := meets
  rw [ensureInitialized, leads_get, SharedStatics.enter_eq, meets]
  cases answer <;> rfl

/-- The first access to shared fields. -/
theorem leads_ensureInitialized_first {init : Recorded Unit} {outcome : Except DispatchError Unit}
    (first : memory.meets (.shared (nameKey typeName)) = .first)
    (h : init.leads { memory with shared := memory.shared.setState (nameKey typeName) .running }
      history = (outcome, after, events)) :
    (ensureInitialized typeName init).leads memory history =
      (outcome, { after with shared := after.shared.leave typeName outcome }, events) := by
  have first : memory.shared.meets (nameKey typeName) = .first := first
  have tried : outcomeOf init = attempt init := rfl
  rw [ensureInitialized, leads_get, SharedStatics.enter_eq, first]
  change (outcomeOf init >>= _).leads _ history = _
  rw [leads_bind, tried, leads_attempt, h]
  cases outcome <;> rfl

/-- Fields of a context that no access is the first to. -/
theorem leads_boundStatics {context : ContextId} {id : HolderId} (init : HolderId → Recorded Unit)
    {answer : Except DispatchError Unit}
    (numbered : memory.number? context (nameKey typeName) = some id)
    (meets : memory.meets (.bound context (nameKey typeName)) = .ofOutcome answer) :
    (boundStatics context typeName init).leads memory history =
      (answer.map fun _ => id, memory, history) := by
  have meets : (memory.context context).meets (nameKey typeName) = .ofOutcome answer := meets
  rw [boundStatics, leads_get, Context.enterStatics_of_number? numbered, meets]
  cases answer <;> rfl

/-- The first access to fields of a context. -/
theorem leads_boundStatics_first {context : ContextId} (init : HolderId → Recorded Unit)
    {outcome : Except DispatchError Unit} {id : HolderId} {entered : Context}
    (enters : (memory.context context).enterStatics typeName = (.first, id, entered))
    (h : (init id).leads (memory.setContext context entered) history = (outcome, after, events)) :
    (boundStatics context typeName init).leads memory history = (outcome.map fun _ => id,
      after.setContext context ((after.context context).leaveStatics id outcome), events) := by
  have tried : outcomeOf (init id) = attempt (init id) := rfl
  rw [boundStatics, leads_get, enters]
  change (outcomeOf (init id) >>= _).leads _ history = _
  rw [leads_bind, tried, leads_attempt, h]
  cases outcome <;> rfl

/-- The computation goes on lawfully, in a number of contexts. -/
def IsLawful (contexts : Nat) (x : Recorded α) : Prop :=
  ∀ memory before, memory.Follows before → memory.contexts.size = contexts →
    ∃ outcome after events, x.leads memory before = (outcome, after, before ++ events) ∧
      Lawful memory before events after

variable {contexts : Nat}

theorem isLawful_ofExcept (x : Except DispatchError α) :
    (MonadExcept.ofExcept x : Recorded α).IsLawful contexts := by
  intro memory before follows _
  refine ⟨x, memory, [], ?_, .nil follows⟩
  rw [List.append_nil]
  cases x <;> rfl

theorem isLawful_bind {β : Type} {x : Recorded α} {f : α → Recorded β} (h : x.IsLawful contexts)
    (h' : ∀ a, (f a).IsLawful contexts) : (x >>= f).IsLawful contexts := by
  intro memory before follows size
  obtain ⟨outcome, next, events, leads, lawful⟩ := h memory before follows size
  rw [leads_bind, leads]
  cases outcome with
  | error e => exact ⟨_, _, _, rfl, lawful⟩
  | ok a =>
    obtain ⟨outcome, after, events', leads', lawful'⟩ :=
      h' a next _ lawful.follows (lawful.size.trans size)
    exact ⟨outcome, after, events ++ events', by simp only [leads', List.append_assoc],
      lawful.append lawful'⟩

/-- **An access to shared fields** is lawful if its initializer is. -/
theorem isLawful_shared (typeName : String) {init : Recorded Unit} (h : init.IsLawful contexts) :
    (access (.shared (nameKey typeName)) (fun _ => none) (ensureInitialized typeName
      (initializer (.shared (nameKey typeName)) init))).IsLawful contexts := by
  intro memory before follows size
  by_cases first : memory.meets (.shared (nameKey typeName)) = .first
  · have enters := memory.becomes_enter typeName
    have begins := lawful_begins follows first enters
    obtain ⟨outcome, inner, events, leads, lawful⟩ := h _ _ begins.follows (begins.size.trans size)
    have accessed := leads_access memory before (.shared (nameKey typeName)) (fun _ => none)
      (leads_ensureInitialized_first first (leads_initializer (by simpa using leads)))
    have leaves := inner.becomes_leave typeName outcome
    have answered := StaticsAnswer.outcome_map outcome none
    have whole := lawful_first follows first enters lawful (fun _ => leaves) answered nofun
    exact ⟨.ok outcome, _, _, accessed.trans (by simp), whole⟩
  · obtain ⟨answer, meets⟩ := Admission.exists_outcome first
    have accessed := leads_access memory before (.shared (nameKey typeName)) (fun _ => none)
      (leads_ensureInitialized (initializer (.shared (nameKey typeName)) init) meets)
    have answered := StaticsAnswer.outcome_map answer none
    have settled := lawful_settled follows meets answered nofun
    exact ⟨.ok answer, _, _, accessed.trans (by simp), settled⟩

/-- **An access to fields of a context** is lawful if their initializer is. -/
theorem isLawful_bound (context : Fin contexts) (typeName : String) {init : HolderId → Recorded Unit}
    (h : ∀ id, (init id).IsLawful contexts) :
    (access (.bound context (nameKey typeName)) some (boundStatics context typeName fun id =>
      initializer (.bound context (nameKey typeName)) (init id))).IsLawful contexts := by
  intro memory before follows size
  by_cases first : memory.meets (.bound context (nameKey typeName)) = .first
  · -- The first access marks the fields, runs the initializer behind that and leaves them settled.
    have there : context < memory.contexts.size := by omega
    have enters := Memory.becomes_enterStatics there first
    have numbered := Memory.number?_enterStatics there first
    obtain ⟨id, entered, enter⟩ : ∃ id entered,
        (memory.context context).enterStatics typeName = (.first, id, entered) :=
      ⟨_, _, Context.enterStatics_of_first first⟩
    rw [enter] at enters numbered
    dsimp only at enters numbered
    have begins := lawful_begins follows first enters
    obtain ⟨outcome, inner, events, leads, lawful⟩ :=
      h id _ _ begins.follows (begins.size.trans size)
    have numbered := lawful.number numbered
    have there : context < inner.contexts.size := by
      rw [lawful.size, begins.size]
      exact there
    have accessed := leads_access memory before (.bound context (nameKey typeName)) some
      (leads_boundStatics_first (fun id => initializer (.bound context (nameKey typeName)) (init id))
        enter (leads_initializer (by simpa using leads)))
    have leaves granted := Memory.becomes_leaveStatics outcome there numbered granted
    have answered := StaticsAnswer.outcome_map outcome (some id)
    have whole := lawful_first follows first enters lawful leaves answered fun same answered => by
      cases same
      cases StaticsAnswer.number_of_map _ answered
      exact numbered
    exact ⟨.ok (outcome.map fun _ => id), _, _,
      accessed.trans (by simp [StaticsAnswer.map_some]), whole⟩
  · -- Later accesses only look at what the first one left.
    obtain ⟨answer, meets⟩ := Admission.exists_outcome first
    obtain ⟨id, numbered⟩ := Context.exists_number first
    have accessed := leads_access memory before (.bound context (nameKey typeName)) some
      (leads_boundStatics (fun id => initializer (.bound context (nameKey typeName)) (init id))
        numbered meets)
    have answered := StaticsAnswer.outcome_map answer (some id)
    have settled := lawful_settled follows meets answered fun same answered => by
      cases same
      cases StaticsAnswer.number_of_map _ answered
      exact numbered
    exact ⟨.ok (answer.map fun _ => id), _, _,
      accessed.trans (by simp [StaticsAnswer.map_some]), settled⟩

theorem isLawful_look {f : Memory → Recorded α} (h : ∀ memory, (f memory).IsLawful contexts) :
    (getThe Memory >>= f).IsLawful contexts := by
  intro memory before follows size
  rw [leads_get]
  exact h memory memory before follows size

theorem isLawful_change {f : Memory → Memory} (same : ∀ memory : Memory, memory.SameStatics (f memory))
    {x : Recorded α} (h : x.IsLawful contexts) :
    (modifyThe Memory f >>= fun _ => x).IsLawful contexts := by
  intro memory before follows size
  obtain ⟨outcome, after, events, leads, lawful⟩ :=
    h _ before (follows.change (same memory)) ((same memory).size.trans size)
  exact ⟨outcome, after, events, (leads_bind _ _).trans leads, lawful.change (same memory)⟩

end Recorded

namespace StaticsScript

variable {contexts : Nat}

/-- **Programs go on lawfully.** -/
theorem isLawful_run (script : StaticsScript contexts) : script.run.IsLawful contexts := by
  induction script with
  | finish outcome => exact isLawful_ofExcept outcome
  | look next next_ih => exact isLawful_look next_ih
  | change f same next next_ih => exact isLawful_change same next_ih
  | shared typeName init next init_ih next_ih =>
    exact isLawful_bind (isLawful_shared typeName init_ih) next_ih
  | bound context typeName init next init_ih next_ih =>
    exact isLawful_bind (isLawful_bound context typeName init_ih) next_ih

/-- In the beginning no static fields have been accessed. -/
theorem follows_withContexts (cacheSize contexts : Nat) :
    (Memory.withContexts cacheSize contexts).Follows [] where
  fresh {statics} _ := by
    cases statics with
    | shared => rfl
    | bound context type =>
      simp [Memory.meets, Context.meets, Context.number?, Context.new]
  running began := by cases began
  began ended := by cases ended
  settled ended := by cases ended
  number answered := by cases answered

end StaticsScript

/-- Every initializer runs at most once, and its outcome answers the access that ran it and all later
ones; those made while it runs succeed. Fields of a context keep their number. -/
structure InitializesOnce (history : List StaticsEvent) : Prop where
  fits : ∀ {earlier event later}, history = earlier ++ event :: later → event.Fits earlier later
  number : ∀ {context type id id'},
    .answered (.bound context type) (.ok (some id)) ∈ history →
    .answered (.bound context type) (.ok (some id')) ∈ history → id = id'

/-- **Initializers of static fields** run at most once, and their outcomes stay. -/
theorem StaticsScript.initializesOnce_history {contexts : Nat} (script : StaticsScript contexts)
    (cacheSize : Nat) : InitializesOnce (script.history cacheSize) := by
  obtain ⟨outcome, after, events, leads, lawful⟩ :=
    script.isLawful_run _ [] (follows_withContexts cacheSize contexts) (by simp [Memory.withContexts])
  have history : script.history cacheSize = events := congrArg (·.2.2) leads
  rw [history]
  refine ⟨fun split => ?_, fun answered answered' => ?_⟩
  · subst split
    exact lawful.fits.fits
  · have number := lawful.follows.number answered
    have number' := lawful.follows.number answered'
    rw [number, Option.some.injEq] at number'
    exact number'

end StackScript
