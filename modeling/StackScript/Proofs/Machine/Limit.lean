import StackScript.Proofs.Evaluation.World
import StackScript.Proofs.Machine.Imitation

/-!
# Runs with as much fuel as they need

A run that ends with some fuel ends the same with more, so what it comes to does not depend on the
fuel: it is the limit of the runs with more and more. In the limit the machine is a world in which
its frames ask, and a frame comes to what its steps lead to. The machine may be made to stop for good
at requests that are not allowed; where all are, it is the machine itself.

## Main definitions

* `Run.limit`: what actions come to that end alike with more fuel
* `Image.runs`, `Image.world`: the machine in the limit, and the world of its frames

## Main results

* `Image.runs_asLongAs`: what is kept by all that is allowed holds at every request
* `Image.run_world_all`: the world of the machine itself
* `Image.runs_of_reaches`: a frame comes to what its steps lead to
* `Image.world_call`, `Image.world_create`: calls and creations in the limit
-/

namespace StackScript

/-! ## Limits of actions -/

namespace Run

variable {α β : Type} {f : Nat → Run α} {g : α → Nat → Run β} {x y : Run α}
  {memory after : Memory} {outcome : Except DispatchError α}

/-- The action ends like another one wherever that one ends. -/
def Below (x y : Run α) : Prop :=
  ∀ memory outcome after, x.run memory = some (outcome, after) →
    y.run memory = some (outcome, after)

/-- With more fuel each action ends as before. -/
def Rises (f : Nat → Run α) : Prop := ∀ n m, n ≤ m → (f n).Below (f m)

theorem rises_const (x : Run α) : Rises fun _ => x := fun _ _ _ _ _ _ ends => ends

open scoped Classical in
/-- What the actions end with, for some fuel. -/
noncomputable def limit (f : Nat → Run α) : Run α :=
  ExceptT.mk fun memory =>
    if h : ∃ r n, (f n).run memory = some r then some h.choose else none

/-- The limit ends as the actions do with enough fuel. -/
theorem run_limit (rises : Rises f) :
    (limit f).run memory = some (outcome, after) ↔ ∃ n, (f n).run memory = some (outcome, after) := by
  unfold limit
  rw [ExceptT.run_mk]
  split
  case isTrue h =>
    obtain ⟨m, hm⟩ := h.choose_spec
    constructor
    · intro same
      exact ⟨m, hm.trans same⟩
    · rintro ⟨n, hn⟩
      have at_both := rises n _ (Nat.le_max_left n m) _ _ _ hn
      rw [← at_both, rises m _ (Nat.le_max_right n m) memory h.choose.1 h.choose.2 hm]
  case isFalse h =>
    constructor
    · intro same
      cases same
    · rintro ⟨n, hn⟩
      exact (h ⟨_, n, hn⟩).elim

/-- Two actions are the same if they end alike. -/
theorem ext (h : ∀ memory outcome after,
    x.run memory = some (outcome, after) ↔ y.run memory = some (outcome, after)) : x = y := by
  refine ExceptT.ext (StateT.ext fun memory => Option.ext fun r => ?_)
  exact h memory r.1 r.2

theorem limit_const (x : Run α) : limit (fun _ => x) = x :=
  ext fun _ _ _ => (run_limit (rises_const x)).trans ⟨fun h => h.choose_spec, fun h => ⟨0, h⟩⟩

section Imitation

variable {P : Array Fields → Prop} {h : Nat → Run α}

/-- An imitation that looks at objects alone ends like what it imitates. -/
theorem ends_of_imitates (imitates : Imitates (Memory.Has P) x y) (has : P memory.objects)
    (ends : x.run memory = some (outcome, after)) :
    y.run memory = some (outcome, after) ∧ P after.objects := by
  obtain ⟨sites, same, rfl, has⟩ := imitates memory memory.sites ⟨rfl, has⟩ outcome after ends
  exact ⟨same, has⟩

/-- Actions that imitate each other have one limit. -/
theorem limit_of_imitates (hf : Rises f) (hh : Rises h)
    (there : ∀ n, Imitates (Memory.Has P) (f n) (h n))
    (back : ∀ n, Imitates (Memory.Has fun _ => True) (h n) (f n)) (has : P memory.objects) :
    (limit h).run memory = (limit f).run memory ∧
      ∀ outcome after, (limit f).run memory = some (outcome, after) → P after.objects := by
  have goes (outcome : Except DispatchError α) (after : Memory)
      (ends : (limit f).run memory = some (outcome, after)) :
      (limit h).run memory = some (outcome, after) ∧ P after.objects := by
    obtain ⟨n, ends⟩ := (run_limit hf).mp ends
    obtain ⟨same, has⟩ := ends_of_imitates (there n) has ends
    exact ⟨(run_limit hh).mpr ⟨n, same⟩, has⟩
  refine ⟨Option.ext fun r => ⟨fun ends => ?_, fun ends => (goes r.1 r.2 ends).1⟩,
    fun outcome after ends => (goes outcome after ends).2⟩
  obtain ⟨n, ends⟩ := (run_limit hh).mp ends
  exact (run_limit hf).mpr ⟨n, (ends_of_imitates (back n) trivial ends).1⟩

end Imitation

/-- The first action is not needed. -/
theorem limit_succ (rises : Rises f) : limit f = limit fun n => f (n + 1) := by
  have rises' : Rises fun n => f (n + 1) := fun n m h => rises _ _ (Nat.succ_le_succ h)
  refine ext fun memory outcome after => ?_
  rw [run_limit rises, run_limit rises']
  constructor
  · rintro ⟨n, hn⟩
    exact ⟨n, rises _ _ (Nat.le_succ n) _ _ _ hn⟩
  · rintro ⟨n, hn⟩
    exact ⟨n + 1, hn⟩

/-- An action behind another one, by what the first one comes to. -/
theorem run_bind_iff {k : α → Run β} {outcome : Except DispatchError β} :
    (x >>= k).run memory = some (outcome, after) ↔
      (∃ e, x.run memory = some (.error e, after) ∧ outcome = .error e) ∨
      ∃ a between, x.run memory = some (.ok a, between) ∧
        (k a).run between = some (outcome, after) := by
  change ((x.run memory).bind _) = _ ↔ _
  rcases x.run memory with _ | ⟨e | a, between⟩
  · simp
  · constructor
    · rintro ⟨⟩
      exact .inl ⟨e, rfl, rfl⟩
    · rintro (⟨e', same, rfl⟩ | ⟨a, between', same, -⟩)
      · cases same
        rfl
      · cases same
  · constructor
    · intro ends
      exact .inr ⟨a, between, rfl, ends⟩
    · rintro (⟨e', same, -⟩ | ⟨a', between', same, ends⟩)
      · cases same
      · cases same
        exact ends

theorem Rises.bind (h : Rises f) (h' : ∀ a, Rises (g a)) : Rises fun n => f n >>= (g · n) := by
  intro n m le memory outcome after ends
  obtain ⟨e, first, rfl⟩ | ⟨a, between, first, ends⟩ := run_bind_iff.mp ends
  · exact run_bind_iff.mpr (.inl ⟨e, h n m le _ _ _ first, rfl⟩)
  · exact run_bind_iff.mpr (.inr ⟨a, between, h n m le _ _ _ first, h' a n m le _ _ _ ends⟩)

/-- **Actions one behind the other** have the limits one behind the other. -/
theorem limit_bind (h : Rises f) (h' : ∀ a, Rises (g a)) :
    limit (fun n => f n >>= (g · n)) = limit f >>= fun a => limit (g a) := by
  refine ext fun memory outcome after => ?_
  rw [run_limit (h.bind h'), run_bind_iff]
  constructor
  · rintro ⟨n, ends⟩
    obtain ⟨e, first, rfl⟩ | ⟨a, between, first, ends⟩ := run_bind_iff.mp ends
    · exact .inl ⟨e, (run_limit h).mpr ⟨n, first⟩, rfl⟩
    · exact .inr ⟨a, between, (run_limit h).mpr ⟨n, first⟩, (run_limit (h' a)).mpr ⟨n, ends⟩⟩
  · rintro (⟨e, first, rfl⟩ | ⟨a, between, first, ends⟩)
    · obtain ⟨n, first⟩ := (run_limit h).mp first
      exact ⟨n, run_bind_iff.mpr (.inl ⟨e, first, rfl⟩)⟩
    · obtain ⟨n, first⟩ := (run_limit h).mp first
      obtain ⟨m, ends⟩ := (run_limit (h' a)).mp ends
      have le := Nat.le_max_left n m
      have le' := Nat.le_max_right n m
      exact ⟨max n m, run_bind_iff.mpr (.inr ⟨a, between, h n _ le _ _ _ first,
        h' a m _ le' _ _ _ ends⟩)⟩

/-- Behind one action, whatever the fuel. -/
theorem limit_behind (x : Run α) (h : ∀ a, Rises (g a)) :
    limit (fun n => x >>= (g · n)) = x >>= fun a => limit (g a) := by
  rw [limit_bind (rises_const x) h, limit_const]

theorem run_attempt {outcome : Except DispatchError (Except DispatchError α)} :
    (attempt x).run memory = some (outcome, after) ↔
      ∃ result, outcome = .ok result ∧ x.run memory = some (result, after) := by
  simp only [attempt, ExceptT.run_mk]
  rcases x.run memory with _ | ⟨result, between⟩
  · simp
  · constructor
    · rintro ⟨⟩
      exact ⟨result, rfl, rfl⟩
    · rintro ⟨result', rfl, same⟩
      cases same
      rfl

theorem Rises.attempt (h : Rises f) : Rises fun n => (f n).attempt := by
  intro n m le memory outcome after ends
  obtain ⟨result, rfl, first⟩ := run_attempt.mp ends
  exact run_attempt.mpr ⟨result, rfl, h n m le _ _ _ first⟩

theorem limit_attempt (h : Rises f) : limit (fun n => (f n).attempt) = (limit f).attempt := by
  refine ext fun memory outcome after => ?_
  rw [run_limit h.attempt, run_attempt]
  constructor
  · rintro ⟨n, ends⟩
    obtain ⟨result, rfl, first⟩ := run_attempt.mp ends
    exact ⟨result, rfl, (run_limit h).mpr ⟨n, first⟩⟩
  · rintro ⟨result, rfl, ends⟩
    obtain ⟨n, ends⟩ := (run_limit h).mp ends
    exact ⟨n, run_attempt.mpr ⟨result, rfl, ends⟩⟩

open scoped Classical in
/-- Where the condition does not hold the run ends for good. -/
theorem run_ensure_bind (P : Memory → Prop) (x : Run α) :
    (ensure P >>= fun _ => x).run memory = if P memory then x.run memory else none := by
  change ((ensure P).run memory).bind _ = _
  rw [ensure, ExceptT.run_mk]
  split <;> rfl

/-- What always holds ends no run. -/
theorem ensure_of {P : Memory → Prop} (h : ∀ memory, P memory) : ensure P = pure () := by
  refine ExceptT.ext (StateT.ext fun memory => ?_)
  rw [ensure, ExceptT.run_mk]
  exact if_pos (h memory)

/-- Behind an action that ends with a value. -/
theorem run_bind_of_ok {k : α → Run β} {a : α} (h : x.run memory = some (.ok a, after)) :
    (x >>= k).run memory = (k a).run after := by
  change (x.run memory).bind _ = _
  rw [h]
  rfl

/-- What ends a run for good ends what is tried as well. -/
theorem attempt_ensure (P : Memory → Prop) (x : Run α) :
    (ensure P >>= fun _ => x).attempt = ensure P >>= fun _ => x.attempt := by
  refine ext fun memory outcome after => ?_
  rw [run_attempt]
  simp only [run_bind_iff, run_ensure, run_attempt]
  constructor
  · rintro ⟨result, rfl, ⟨e, ⟨⟨⟩, -⟩, -⟩ | ⟨_, _, holds, ends⟩⟩
    exact .inr ⟨(), _, holds, result, rfl, ends⟩
  · rintro (⟨e, ⟨⟨⟩, -⟩, -⟩ | ⟨_, _, holds, result, rfl, ends⟩)
    exact ⟨result, rfl, .inr ⟨(), _, holds, ends⟩⟩

end Run

/-! ## The machine in the limit -/

/-- Which requests are allowed, and in which memory. -/
abbrev Allowance := Request → Memory → Prop

namespace Allowance

/-- Every request is allowed. -/
def all : Allowance := fun _ _ => True

/-- Requests are allowed as before, as long as the objects have a property. -/
def asLongAs (allowed : Allowance) (P : Array Fields → Prop) : Allowance := fun request memory =>
  allowed request memory ∧ P memory.objects

/-- New objects and the assignments that are allowed keep a property of objects. -/
structure Keeps (allowed : Allowance) (P : Array Fields → Prop) : Prop where
  created : ∀ objects, P objects → P (objects.push .empty)
  stored : ∀ {objects object field value memory}, P objects →
    allowed (.storeField object field value) memory →
      P (objects.modify object.id (·.set field value))

theorem keeps_true (allowed : Allowance) : allowed.Keeps fun _ => True where
  created _ _ := trivial
  stored _ _ := trivial

end Allowance

namespace Image

open Run (limit Rises)

variable {image : Image} {allowed : Allowance} {context : ContextId} {body : Body} {memory : Memory}
    {request : Request} (object : ObjectRef) (field : String)

section Definitions

variable (image : Image) (allowed : Allowance)

/-- The run of a routine that stops for good at a request that is not allowed. -/
noncomputable def runAllowed (fuel : Nat) : Runner :=
  image.runWith (fun request => .ensure (allowed request)) fuel

/-- What a routine comes to, with as much fuel as it needs. -/
noncomputable def runs : Runner := fun context activity =>
  limit fun fuel => image.runAllowed allowed fuel context activity

/-- What requests are answered with, with as much fuel as that needs. -/
noncomputable def world (context : ContextId) : World Memory := fun request => do
  Run.ensure (allowed request)
  limit fun fuel => image.answer (image.runAllowed allowed fuel) context request

end Definitions

section Keeping

variable {P : Array Fields → Prop} {allowed' : Allowance} {fuel fuel' : Nat} {memory : Memory}

theorem answersAlike_keeps (keeps : allowed.Keeps P) :
    AnswersAlike (fun request => ∃ memory, allowed request memory) (Memory.Has P) := by
  refine answersAlike_has keeps.created ?_
  rintro objects object field value has ⟨memory, admitted⟩
  exact keeps.stored has admitted

/-- A machine that allows less imitates one that allows more, with as much fuel or more. -/
theorem imitates_runAllowed (keeps : allowed.Keeps P)
    (h : ∀ request memory, P memory.objects → allowed request memory → allowed' request memory)
    (enough : fuel ≤ fuel') :
    RunnersImitate (fun _ => True) (Memory.Has P) (image.runAllowed allowed fuel)
      (image.runAllowed allowed' fuel') := by
  refine imitates_runWith (answersAlike_keeps keeps) (fun _ _ _ _ _ => trivial) ?_ enough
  rintro request - memory sites ⟨rfl, has⟩ outcome after ends
  obtain ⟨rfl, rfl, holds⟩ := Run.run_ensure.mp ends
  exact ⟨rfl, rfl, ⟨_, holds⟩, Run.run_ensure.mpr ⟨rfl, rfl, h _ _ has holds⟩⟩

theorem imitates_asLongAs (keeps : allowed.Keeps P) (fuel : Nat) :
    RunnersImitate (fun _ => True) (Memory.Has P) (image.runAllowed allowed fuel)
      (image.runAllowed (allowed.asLongAs P) fuel) :=
  imitates_runAllowed keeps (fun _ _ has holds => ⟨holds, has⟩) (Nat.le_refl fuel)

theorem asLongAs_imitates (P : Array Fields → Prop) (allowed : Allowance) (fuel : Nat) :
    RunnersImitate (fun _ => True) (Memory.Has fun _ => True)
      (image.runAllowed (allowed.asLongAs P) fuel) (image.runAllowed allowed fuel) :=
  imitates_runAllowed (allowed.asLongAs P).keeps_true (fun _ _ _ holds => holds.1)
    (Nat.le_refl fuel)

theorem rises_runs (image : Image) (allowed : Allowance) (context : ContextId)
    (activity : Activity) : Rises fun fuel => image.runAllowed allowed fuel context activity := by
  intro n m le memory outcome after ends
  have imitates : RunnersImitate (fun _ => True) _ (image.runAllowed allowed n) _ :=
    imitates_runAllowed allowed.keeps_true (fun _ _ _ holds => holds) le
  exact (Run.ends_of_imitates (imitates context activity (admitted_true activity)) trivial ends).1

theorem rises_answer (image : Image) (allowed : Allowance) (context : ContextId)
    (request : Request) :
    Rises fun fuel => image.answer (image.runAllowed allowed fuel) context request := by
  intro n m le memory outcome after ends
  have runners : RunnersImitate (fun _ => True) _ (image.runAllowed allowed n) _ :=
    imitates_runAllowed allowed.keeps_true (fun _ _ _ holds => holds) le
  exact (Run.ends_of_imitates (imitates_answer (answersAlike_keeps Allowance.all.keeps_true) runners
    (fun _ _ _ _ _ => trivial) ⟨memory, trivial⟩) trivial ends).1

/-- **A property of objects that is kept holds at every request.** Nothing changes if the machine
stops where it does not hold, and it holds where the run ends. -/
theorem runs_asLongAs (keeps : allowed.Keeps P) {activity : Activity} (has : P memory.objects) :
    (image.runs (allowed.asLongAs P) context activity).run memory =
        (image.runs allowed context activity).run memory ∧
      ∀ outcome after, (image.runs allowed context activity).run memory = some (outcome, after) →
        P after.objects := by
  have admitted := admitted_true activity
  exact Run.limit_of_imitates (rises_runs image _ context activity)
    (rises_runs image _ context activity)
    (fun n => imitates_asLongAs keeps n context activity admitted)
    (fun n => asLongAs_imitates P allowed n context activity admitted) has

/-- The answers to requests keep the property as well. -/
theorem world_asLongAs (keeps : allowed.Keeps P) {request : Request} (has : P memory.objects) :
    (image.world (allowed.asLongAs P) context request).run memory =
        (image.world allowed context request).run memory ∧
      ∀ outcome after, (image.world allowed context request).run memory = some (outcome, after) →
        P after.objects := by
  rw [world, world, Run.run_ensure_bind, Run.run_ensure_bind]
  by_cases holds : allowed request memory
  · rw [if_pos ⟨holds, has⟩, if_pos holds]
    exact Run.limit_of_imitates (rises_answer image _ context request)
      (rises_answer image _ context request)
      (fun n => imitates_answer (answersAlike_keeps keeps) (imitates_asLongAs keeps n)
        (fun _ _ _ _ _ => trivial) ⟨memory, holds⟩)
      (fun n => imitates_answer (answersAlike_keeps allowed.keeps_true)
        (asLongAs_imitates P allowed n) (fun _ _ _ _ _ => trivial) ⟨memory, holds⟩) has
  · rw [if_neg fun both => holds both.1, if_neg holds]
    exact ⟨rfl, fun outcome after ends => by cases ends⟩

end Keeping

/-! ## The machine itself -/

/-- Where all requests are allowed the machine runs as it is. -/
theorem runAllowed_all (image : Image) (fuel : Nat) :
    image.runAllowed .all fuel = image.run fuel := by
  have ensured : (fun request => Run.ensure (Allowance.all request)) =
      fun _ => (pure () : Run Unit) := funext fun _ => Run.ensure_of fun _ => trivial
  rw [runAllowed, ensured, runWith_pure]

/-- **What the machine answers** with some fuel is what its world answers. -/
theorem run_world_all {after : Memory} {outcome : Except DispatchError Value} :
    (image.world .all context request).run memory = some (outcome, after) ↔
      ∃ fuel, (image.answer (image.run fuel) context request).run memory = some (outcome, after) := by
  have ensured : Run.ensure (Allowance.all request) = pure () := Run.ensure_of fun _ => trivial
  rw [world, ensured, pure_bind, Run.run_limit (rises_answer image .all context request)]
  simp only [runAllowed_all]

/-! ## Frames -/

theorem runs_frame (step : Step) : image.runs allowed context (.frame body step) =
    limit fun fuel => image.runAllowed allowed (fuel + 1) context (.frame body step) :=
  Run.limit_succ (rises_runs image allowed context _)

theorem runs_returned (value : Value) :
    image.runs allowed context (.frame body (.returned value)) = pure value := by
  rw [runs_frame]
  exact Run.limit_const _

theorem runs_failed (error : DispatchError) :
    image.runs allowed context (.frame body (.failed error)) = throw error := by
  rw [runs_frame]
  exact Run.limit_const _

theorem runs_running (frame : Frame) :
    image.runs allowed context (.frame body (.running frame)) =
      image.runs allowed context (.frame body (body.step frame)) := by
  rw [runs_frame]
  rfl

/-- A frame that asks goes on with the answer of the world. -/
theorem runs_asking (request : Request) (frame : Frame) :
    image.runs allowed context (.frame body (.asking request frame)) = (do
      let answer ← Run.attempt (image.world allowed context request)
      image.runs allowed context (.frame body (body.resume request frame answer))) := by
  rw [runs_frame, world, Run.attempt_ensure, bind_assoc]
  have goes (answer : Except DispatchError Value) :
      Rises fun fuel => image.runAllowed allowed fuel context
        (.frame body (body.resume request frame answer)) := rises_runs image allowed context _
  have asks := (rises_answer image allowed context request).attempt
  rw [← Run.limit_attempt (rises_answer image allowed context request)]
  unfold runs
  rw [← Run.limit_bind asks goes, ← Run.limit_behind _ fun _ => asks.bind goes]
  rfl

/-- **A frame comes to what its steps lead to.** -/
theorem runs_of_reaches {x y : Step × Memory} (h : Reaches (image.world allowed context) body x y) :
    (image.runs allowed context (.frame body x.1)).run x.2 =
      (image.runs allowed context (.frame body y.1)).run y.2 := by
  induction h with
  | refl => rfl
  | tail _ move ih =>
    rw [ih]
    cases move with
    | step => rw [runs_running]
    | @resume request frame memory answer after answered =>
      rw [runs_asking]
      have tried : (Run.attempt (image.world allowed context request)).run memory =
          some (.ok answer, after) := Run.run_attempt.mpr ⟨answer, rfl, answered⟩
      change ((Run.attempt _).run memory).bind _ = _
      rw [tried]
      rfl

/-- A frame that is never answered comes to nothing. -/
theorem runs_of_unanswered {frame : Frame}
    (h : (image.world allowed context request).run memory = none) :
    (image.runs allowed context (.frame body (.asking request frame))).run memory = none := by
  rw [runs_asking]
  change ((Run.attempt _).run memory).bind _ = _
  rw [Run.attempt, ExceptT.run_mk, h]
  rfl

section Fuel

variable {x y : Step × Memory} {n : Nat} {r : Except DispatchError Value × Memory} {frame : Frame}
    {memory : Memory} {result : Except DispatchError Value}

/-- Behind a step the run of a frame takes less fuel. -/
theorem exists_fuel_of_moves (move : Moves (image.world .all context) body x y)
    (ends : (image.run n context (.frame body x.1)).run x.2 = some r) :
    ∃ m < n, (image.run m context (.frame body y.1)).run y.2 = some r := by
  cases n with
  | zero => cases ends
  | succ n =>
    refine ⟨n, Nat.lt_succ_self n, ?_⟩
    cases move with
    | step => exact ends
    | resume answered =>
      obtain ⟨e, tried, -⟩ | ⟨answer, between, tried, rest⟩ := Run.run_bind_iff.mp ends
      · obtain ⟨_, same, -⟩ := Run.run_attempt.mp tried
        cases same
      · obtain ⟨result, same, first⟩ := Run.run_attempt.mp tried
        cases same
        have world := run_world_all.mpr ⟨n, first⟩
        rw [show (image.world .all context _).run _ = _ from answered] at world
        cases world
        exact rest

/-- **Behind some steps** the run of a frame takes no more fuel. -/
theorem exists_fuel_of_reaches (h : Reaches (image.world .all context) body x y)
    (ends : (image.run n context (.frame body x.1)).run x.2 = some r) :
    ∃ m ≤ n, (image.run m context (.frame body y.1)).run y.2 = some r := by
  induction h with
  | refl => exact ⟨n, Nat.le_refl n, ends⟩
  | tail _ move ih =>
    obtain ⟨m, le, ends⟩ := ih
    obtain ⟨k, lt, ends⟩ := exists_fuel_of_moves move ends
    exact ⟨k, Nat.le_trans (Nat.le_of_lt lt) le, ends⟩

/-- Behind at least one step it takes less. -/
theorem exists_fuel_of_advances
    (h : Relation.TransGen (Moves (image.world .all context) body) x y)
    (ends : (image.run n context (.frame body x.1)).run x.2 = some r) :
    ∃ m < n, (image.run m context (.frame body y.1)).run y.2 = some r := by
  obtain ⟨z, move, rest⟩ := Relation.TransGen.head'_iff.mp h
  obtain ⟨m, lt, ends⟩ := exists_fuel_of_moves move ends
  obtain ⟨k, le, ends⟩ := exists_fuel_of_reaches rest ends
  exact ⟨k, Nat.lt_of_le_of_lt le lt, ends⟩

/-- What a body ends with is what its run comes to. -/
theorem eq_of_ended (ends : (image.run n context (.frame body (.ended result))).run memory = some r) :
    r = (result, memory) := by
  cases n with
  | zero => cases ends
  | succ n =>
    cases result <;> exact (Option.some.inj ends).symm

/-- **A frame that gets to an end** ends so with enough fuel. -/
theorem exists_fuel_of_ended {after : Memory}
    (h : Reaches (image.world .all context) body (.running frame, memory) (.ended result, after)) :
    ∃ fuel, (image.run fuel context (.frame body (.running frame))).run memory =
      some (result, after) := by
  have comes : (image.runs .all context (.frame body (.running frame))).run memory =
      some (result, after) := by
    refine (runs_of_reaches h).trans ?_
    cases result with
    | ok value => exact congrArg (·.run after) (runs_returned value)
    | error error => exact congrArg (·.run after) (runs_failed error)
  obtain ⟨fuel, ends⟩ := (Run.run_limit (rises_runs image .all context _)).mp comes
  exact ⟨fuel, runAllowed_all image fuel ▸ ends⟩

/-- A frame that waits for an answer that never comes does not end. -/
theorem ne_some_of_unanswered {request : Request}
    (h : (image.world .all context request).run memory = none) :
    (image.run n context (.frame body (.asking request frame))).run memory ≠ some r := by
  intro ends
  have limit := (Run.run_limit (rises_runs image .all context _)).mpr
    ⟨n, by rw [runAllowed_all]; exact ends⟩
  rw [show Run.limit _ = image.runs .all context _ from rfl, runs_of_unanswered h] at limit
  cases limit

end Fuel

/-! ## Requests -/

theorem world_storeField (value : Value) :
    image.world allowed context (.storeField object field value) = (do
      Run.ensure (allowed (.storeField object field value))
      modifyThe Memory (·.setField object field value)
      return .null) := by
  rw [world]
  congr 1
  funext _
  exact Run.limit_const _

theorem world_loadField :
    image.world allowed context (.loadField object field) = (do
      Run.ensure (allowed (.loadField object field))
      return ((← getThe Memory).fieldsOf object).get field) := by
  rw [world]
  congr 1
  funext _
  exact Run.limit_const _

/-- A call runs the body of its name. -/
theorem world_call (name : BodyName) (receiver : Option Value) (args : List FrameArg) :
    image.world allowed context (.call name receiver args) = (do
      Run.ensure (allowed (.call name receiver args))
      let body ← MonadExcept.ofExcept (image.bodyOf name.key)
      image.runs allowed context (.ofBody body receiver args)) := by
  rw [world]
  congr 1
  funext _
  exact Run.limit_behind (MonadExcept.ofExcept (image.bodyOf name.key)) fun body =>
    rises_runs image allowed context (.ofBody body receiver args)

/-- A creation makes an object and runs its constructor. -/
theorem world_create (type : QualifiedName) (args : List FrameArg) :
    image.world allowed context (.create type args) = (do
      Run.ensure (allowed (.create type args))
      image.create (image.runs allowed) context type args) := by
  rw [world]
  congr 1
  funext _
  have constructs (body : Body) (object : ObjectRef) : Rises fun fuel => do
      let _ ← image.runAllowed allowed fuel context (.ofBody body (some (.object object)) args)
      return Value.object object :=
    (rises_runs image allowed context _).bind fun _ => Run.rises_const _
  have made (runtimeType : RuntimeType) (memory : Memory) : Rises fun fuel => do
      set (memory.create runtimeType).2
      let body ← MonadExcept.ofExcept (image.bodyOf (BodyName.constructor type).key)
      let _ ← image.runAllowed allowed fuel context
        (.ofBody body (some (.object (memory.create runtimeType).1)) args)
      return Value.object (memory.create runtimeType).1 :=
    (Run.rises_const _).bind fun _ => (Run.rises_const _).bind fun body => constructs body _
  simp only [answer, create]
  cases image.type? type.text with
  | none => exact Run.limit_const (image.awaitTypes >>= fun _ =>
      throw (.failed (.typeNotLoaded type.text)))
  | some runtimeType =>
    refine (Run.limit_behind image.awaitTypes fun _ =>
      (Run.rises_const (getThe Memory)).bind (made runtimeType)).trans
        (congrArg _ (funext fun _ => ?_))
    refine (Run.limit_behind (getThe Memory) (made runtimeType)).trans
      (congrArg _ (funext fun memory => ?_))
    refine (Run.limit_behind _ fun _ => (Run.rises_const _).bind fun body =>
      constructs body _).trans (congrArg _ (funext fun _ => ?_))
    refine (Run.limit_behind _ fun body => constructs body _).trans
      (congrArg _ (funext fun body => ?_))
    refine (Run.limit_bind (rises_runs image allowed context _)
      fun _ => Run.rises_const _).trans (congrArg _ (funext fun _ => ?_))
    exact Run.limit_const _

end Image

end StackScript
