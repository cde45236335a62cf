import Mathlib.Logic.Relation
import Mathlib.Tactic.Common
import StackScript.Machine.Step

/-!
# Bodies in a world

A frame goes on by itself, or asks for something that lies outside it. Whatever answers the frames
is a world with a state of its own: the reference machine answers from its memory and by running
further routines. What is shown of a body in every world holds of it there, and the order of
effects is what every world can observe.

## Main definitions

* `World`: answers to requests
* `Moves`, `Reaches`: what a body does next, and in any number of steps
* `Climbs`: steps that go forward in the code
* `Emerges`, `Sweeps`: steps through a piece of the code and out of it
* `Vars`, `Eval`: the variables of an activation, and computations on them

## Main results

* `Eval.outcome_bind`: a computation behind another
-/

namespace StackScript

/-- What answers the requests of frames. An answer is a value or an error, and may change the state
of the world; there is none if what was asked for goes on forever. -/
abbrev World (σ : Type) := Request → ExceptT DispatchError (StateT σ Option) Value

/-! ## Runs of a body -/

section Runs

variable {σ : Type} {world : World σ} {body : Body} {x y z : Step × σ}

/-- The end of a body with a result. -/
def Step.ended : Except DispatchError Value → Step
  | .ok value => .returned value
  | .error error => .failed error

/-- One step of a body: by itself, or on the answer of the world. -/
inductive Moves (world : World σ) (body : Body) : Step × σ → Step × σ → Prop where
  | step {frame s} : Moves world body (.running frame, s) (body.step frame, s)
  | resume {request frame s answer s'} : (world request).run.run s = some (answer, s') →
      Moves world body (.asking request frame, s) (body.resume request frame answer, s')

/-- Any number of steps of a body. -/
def Reaches (world : World σ) (body : Body) : Step × σ → Step × σ → Prop :=
  Relation.ReflTransGen (Moves world body)

namespace Reaches

theorem refl (x : Step × σ) : Reaches world body x x := Relation.ReflTransGen.refl

theorem trans (h : Reaches world body x y) (h' : Reaches world body y z) :
    Reaches world body x z :=
  Relation.ReflTransGen.trans h h'

theorem single (h : Moves world body x y) : Reaches world body x y :=
  Relation.ReflTransGen.single h

theorem head (h : Moves world body x y) (h' : Reaches world body y z) : Reaches world body x z :=
  Relation.ReflTransGen.head h h'

/-- What becomes of a frame in its first step. -/
theorem running {frame : Frame} {s : σ} {step : Step} (h : body.step frame = step)
    (h' : Reaches world body (step, s) z) : Reaches world body (.running frame, s) z :=
  .head (h ▸ .step) h'

end Reaches

/-- The next step is at a later place in the code, or waits where the frame is. -/
inductive Step.Onward : Step → Step → Prop where
  | next {f g : Frame} : f.pc < g.pc → Onward (.running f) (.running g)
  | asks {request : Request} {f g : Frame} : g.pc = f.pc → Onward (.running f) (.asking request g)
  | answered {request : Request} {f g : Frame} : f.pc < g.pc →
      Onward (.asking request f) (.running g)

/-- A frame is in front of a place in the code, or waits there. -/
inductive Step.Before (n : Nat) : Step → Prop where
  | running {f : Frame} : f.pc < n → Before n (.running f)
  | asking {request : Request} {f : Frame} : f.pc < n → Before n (.asking request f)

namespace Step.Before

variable {n m : Nat} {step : Step} {g : Frame}

theorem mono (h : step.Before n) (le : n ≤ m) : step.Before m := by
  cases h with
  | running lt => exact .running (Nat.lt_of_lt_of_le lt le)
  | asking lt => exact .asking (Nat.lt_of_lt_of_le lt le)

theorem onward (h : step.Before n) (le : n ≤ g.pc) : step.Onward (.running g) := by
  cases h with
  | running lt => exact .next (Nat.lt_of_lt_of_le lt le)
  | asking lt => exact .answered (Nat.lt_of_lt_of_le lt le)

end Step.Before

/-- A step forward leads on from an earlier place. -/
theorem Step.Onward.before {x : Step} {f : Frame} {n : Nat} (h : x.Onward (.running f))
    (le : f.pc ≤ n) : x.Before n := by
  cases h with
  | next lt => exact .running (Nat.lt_of_lt_of_le lt le)
  | answered lt => exact .asking (Nat.lt_of_lt_of_le lt le)

/-- Any number of steps of a body, all of them forward. -/
def Climbs (world : World σ) (body : Body) : Step × σ → Step × σ → Prop :=
  Relation.ReflTransGen fun x y => Moves world body x y ∧ x.1.Onward y.1

/-- A body goes forward through code that ends at a place, and the last of its steps leads on,
wherever that may be. -/
def Emerges (world : World σ) (body : Body) (n : Nat) (x z : Step × σ) : Prop :=
  ∃ y, Climbs world body x y ∧ y.1.Before n ∧ Moves world body y z

/-- A body comes out of code that ends at a place, if it is not in front of the way out already. -/
inductive Sweeps (world : World σ) (body : Body) (n : Nat) : Step × σ → Step × σ → Prop where
  | stays {f : Frame} {s : σ} : f.pc ≤ n → Sweeps world body n (.running f, s) (.running f, s)
  | emerges {x z : Step × σ} : Emerges world body n x z → Sweeps world body n x z

namespace Climbs

variable {f g : Frame} {s s' : σ} {request : Request}

theorem refl (x : Step × σ) : Climbs world body x x := Relation.ReflTransGen.refl

theorem trans (h : Climbs world body x y) (h' : Climbs world body y z) : Climbs world body x z :=
  Relation.ReflTransGen.trans h h'

/-- In front, an instruction that goes on at a later one. -/
theorem next (h : body.step f = .running g) (later : f.pc < g.pc)
    (h' : Climbs world body (.running g, s) z) : Climbs world body (.running f, s) z :=
  Relation.ReflTransGen.head ⟨h ▸ .step, .next later⟩ h'

theorem asks (h : body.step f = .asking request g) (same : g.pc = f.pc) :
    Climbs world body (.running f, s) (.asking request g, s) :=
  Relation.ReflTransGen.single ⟨h ▸ .step, .asks same⟩

/-- Behind a request, the answer. -/
theorem answered (h : Climbs world body x (.asking request f, s))
    (move : Moves world body (.asking request f, s) (.running g, s')) (later : f.pc < g.pc) :
    Climbs world body x (.running g, s') :=
  h.tail ⟨move, .answered later⟩

theorem reaches (h : Climbs world body x y) : Reaches world body x y :=
  Relation.ReflTransGen.mono (fun _ _ => And.left) _ _ h

end Climbs

namespace Emerges

variable {n m : Nat}

theorem behind (reach : Climbs world body x y) (h : Emerges world body n y z) :
    Emerges world body n x z :=
  h.imp fun _ => .imp_left reach.trans

theorem mono (h : Emerges world body n x y) (le : n ≤ m) : Emerges world body m x y :=
  h.imp fun _ => .imp_right (.imp_left (·.mono le))

theorem advances (h : Emerges world body n x z) : Relation.TransGen (Moves world body) x z := by
  obtain ⟨y, climbs, -, move⟩ := h
  exact .tail' climbs.reaches move

/-- Some steps forward, up to a place in the code or up to its end. -/
theorem of_climbs {g : Frame} {s : σ} (h : Climbs world body x (.running g, s)) (le : g.pc ≤ n)
    (other : x ≠ (.running g, s)) : Emerges world body n x (.running g, s) := by
  obtain same | ⟨y, climbs, move, onward⟩ := Relation.ReflTransGen.cases_tail h
  · exact (other same.symm).elim
  · exact ⟨y, climbs, onward.before le, move⟩

/-- One instruction, wherever it leads. -/
theorem step {f : Frame} {s : σ} {step : Step} (lt : f.pc < n) (h : body.step f = step) :
    Emerges world body n (.running f, s) (step, s) :=
  ⟨_, .refl _, .running lt, h ▸ .step⟩

end Emerges

namespace Sweeps

variable {n m : Nat} {g : Frame} {s : σ}

/-- Forward up to a place in the code, or up to its end. -/
theorem of_climbs (h : Climbs world body x (.running g, s)) (le : g.pc ≤ n) :
    Sweeps world body n x (.running g, s) := by
  by_cases same : x = (.running g, s)
  · subst same
    exact .stays le
  · exact .emerges (.of_climbs h le same)

theorem behind (reach : Climbs world body x y) (h : Sweeps world body n y z) :
    Sweeps world body n x z := by
  cases h with
  | stays le => exact .of_climbs reach le
  | emerges emerges => exact .emerges (emerges.behind reach)

theorem mono (h : Sweeps world body n x y) (le : n ≤ m) : Sweeps world body m x y := by
  cases h with
  | stays le' => exact .stays (Nat.le_trans le' le)
  | emerges emerges => exact .emerges (emerges.mono le)

theorem reaches (h : Sweeps world body n x y) : Reaches world body x y := by
  cases h with
  | stays => exact .refl _
  | emerges emerges => exact emerges.advances.to_reflTransGen

/-- One instruction, wherever it leads. -/
theorem step {f : Frame} {step : Step} (lt : f.pc < n) (h : body.step f = step) :
    Sweeps world body n (.running f, s) (step, s) :=
  .emerges (.step lt h)

/-- At the end of the code or behind it, the last step led forward too. -/
theorem climbs (h : Sweeps world body n x (.running g, s)) (le : n ≤ g.pc) :
    Climbs world body x (.running g, s) := by
  cases h with
  | stays => exact .refl _
  | emerges emerges =>
    obtain ⟨y, climbs, before, move⟩ := emerges
    exact climbs.tail ⟨move, before.onward le⟩

/-- Whoever is not running any more has come out by a step. -/
theorem emerges_of_ended {result : Except DispatchError Value}
    (h : Sweeps world body n x (.ended result, s)) : Emerges world body n x (.ended result, s) := by
  generalize hz : (Step.ended result, s) = z at h
  cases h with
  | stays => cases result <;> cases hz
  | emerges emerges => exact emerges

end Sweeps

end Runs

/-! ## Variables -/

/-- The variables of an activation. Local variables are told apart by name, the context and the
parameters by number. -/
structure Vars where
  receiver : Option Value
  args : Nat → Slot
  locals : String → Slot
  result : Slot

namespace Vars

def setArg (vars : Vars) (n : Nat) (value : Slot) : Vars :=
  { vars with args := fun k => if k = n then value else vars.args k }

/-- The variables with another value of a local variable. -/
def setLocal (vars : Vars) (name : String) (value : Slot) : Vars :=
  { vars with locals := fun other => if other = name then value else vars.locals other }

@[simp] theorem args_setArg (vars : Vars) (n k : Nat) (value : Slot) :
    (vars.setArg n value).args k = if k = n then value else vars.args k := rfl

@[simp] theorem locals_setLocal (vars : Vars) (name other : String) (value : Slot) :
    (vars.setLocal name value).locals other =
      if other = name then value else vars.locals other := rfl

end Vars

/-! ## Computations -/

/-- A computation on the variables of an activation, in a world. It fails with an error, or never
ends. -/
abbrev Eval (σ : Type) := ExceptT DispatchError (StateT (Vars × σ) Option)

namespace Eval

variable {σ α β : Type}

def vars : Eval σ Vars := do return (← get).1

/-- Changes the variables. -/
def modifyVars (f : Vars → Vars) : Eval σ Unit := modify fun (vars, s) => (f vars, s)

/-- Asks the world. -/
def request (world : World σ) (request : Request) : Eval σ Value :=
  ExceptT.mk fun (vars, s) =>
    match (world request).run.run s with
    | some (answer, s') => some (answer, (vars, s'))
    | none => none

/-- The outcome of a computation: a value or an error, and the variables and the state of the world
behind it. -/
abbrev outcome (m : Eval σ α) (vars : Vars) (s : σ) :
    Option (Except DispatchError α × Vars × σ) :=
  m.run.run (vars, s)

@[simp] theorem outcome_pure (x : α) (vars : Vars) (s : σ) :
    (pure x : Eval σ α).outcome vars s = some (.ok x, vars, s) := rfl

@[simp] theorem outcome_throw (e : DispatchError) (vars : Vars) (s : σ) :
    (throw e : Eval σ α).outcome vars s = some (.error e, vars, s) := rfl

@[simp] theorem outcome_vars (vars : Vars) (s : σ) :
    (Eval.vars : Eval σ Vars).outcome vars s = some (.ok vars, vars, s) := rfl

theorem outcome_request (world : World σ) (r : Request) (vars : Vars) (s : σ) :
    (request world r).outcome vars s =
      ((world r).run.run s).map fun (answer, s') => (answer, vars, s') := by
  unfold outcome request
  show (match (world r).run.run s with
    | some (answer, s') => some (answer, (vars, s'))
    | none => none) = _
  split <;> simp [*]

/-- **A computation behind another** starts from where the first one ends, unless that fails or
never ends. -/
theorem outcome_bind (m : Eval σ α) (k : α → Eval σ β) (vars : Vars) (s : σ) :
    (m >>= k).outcome vars s =
      match m.outcome vars s with
      | some (.ok x, vars', s') => (k x).outcome vars' s'
      | some (.error e, vars', s') => some (.error e, vars', s')
      | none => none := by
  simp only [outcome, ExceptT.run_bind, StateT.run_bind]
  rcases m.run.run (vars, s) with _ | ⟨e | x, vars', s'⟩ <;> rfl

/-- What holds of every value of a computation. -/
def Always (m : Eval σ α) (P : α → Prop) : Prop :=
  ∀ vars s x w, m.outcome vars s = some (.ok x, w) → P x

theorem Always.pure {P : α → Prop} {x : α} (h : P x) : (pure x : Eval σ α).Always P := by
  intro vars s y w hy
  cases hy
  exact h

theorem Always.bind {P : α → Prop} {Q : β → Prop} {m : Eval σ α} {k : α → Eval σ β}
    (h : m.Always P) (h' : ∀ x, P x → (k x).Always Q) : (m >>= k).Always Q := by
  intro vars s y w hy
  rw [outcome_bind] at hy
  split at hy
  case h_1 x vars' s' hx => exact h' x (h vars s x _ hx) vars' s' y w hy
  case h_2 => cases hy
  case h_3 => cases hy

theorem Always.trivial {m : Eval σ α} : m.Always fun _ => True := fun _ _ _ _ _ => True.intro

end Eval

end StackScript
