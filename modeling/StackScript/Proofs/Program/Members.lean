import Mathlib.Data.List.Pairwise
import StackScript.Proofs.Evaluation.Construction
import StackScript.Proofs.Machine.Limit
import StackScript.Proofs.Program.Items

/-!
# Members of types in a loaded program

A member that has no declaration is a stretch of code and an end. In the limit its body does what the
code means. In a program that is compiled without diagnostics every item has a body, and a body that
shares its key with no other is the one that is found.

## Main definitions

* `Program.Sole`: one body at most has a key

## Main results

* `Image.runs_constructor`: the body of a constructor does what the constructor means
* `Program.exists_bodyOf`: every item of a program without diagnostics has a body, which runs
-/

namespace StackScript

open Assembler (Evolves)

/-! ## The code of a member -/

section Frames

variable {body : Body} {args : List FrameArg}

/-- On entry a frame has the variables of its body. -/
theorem Frame.agrees_enter {receiver : Option Value} {slots : Slots}
    (h : body.locals = slots.slots) :
    (Frame.enter body receiver args).Agrees slots (.enter receiver args) where
  receiver := rfl
  args n := by
    simp only [Frame.arg, Frame.enter, Vars.enter, List.getElem?_toArray, List.getElem?_map]
  named id name hid := by simp [Frame.enter, Vars.enter, h, hid]
  result id slot hid _ := by simp [Frame.enter, Vars.enter, h, hid]
  size := by simp [Frame.enter, h]

end Frames

/-- A setting without code. -/
def Setting.blank {σ : Type} (world : World σ) : Setting σ where
  world := world
  body := ⟨.function ⟨""⟩, .constructor, [], false, true, "", #[], [], [], 0, #[], [], []⟩
  final := .empty
  out := ⟨#[], 0, #[], [], []⟩
  maxLocals := 0
  written := .refl _
  finished := rfl
  code := rfl

namespace Image

variable {image : Image} {allowed : Allowance} {context : ContextId} {table : Table}
  {settings : Settings} {entry : TypeEntry} {n : SiteId} {body : Body} {receiver : Value}
  {args : List FrameArg}

section Members

variable {name : BodyName} {kind : BodyKind} {params : List Parameter}
  {isStatic hasContext : Bool} {head : BodyEnv → Emit Unit}

/-- **The body of a member** whose code is followed by the return of null does what the code means. -/
theorem runs_member (meaning : World Memory → Numbered (Eval Memory Unit))
    (h : (compileMember table settings entry name kind params isStatic hasContext
      (fun env => do head env; returnNull) n).1 = .ok body)
    (means : ∀ c : Setting Memory, Means c 0
      (head ⟨table, settings, name.text, params, isStatic, hasContext⟩) []
      (fun n => ((meaning c.world).runFrom n).1) (fun n => ((meaning c.world).runFrom n).2)
      fun _ => []) :
    image.runs allowed context (.ofBody body (some receiver) args) = (do
      let _ ← Eval.activation (.enter (some receiver) args)
        ((meaning (image.world allowed context)).runFrom n).1
      return .null) := by
  obtain ⟨_, out, ends, finished, rfl⟩ := exists_assembled_of_compileMember h
  have slots : Assembler.empty.slots.Sound := Slots.sound_empty
  obtain ⟨_, d, written, ended⟩ := ends_bind.mp ends
  obtain ⟨_, _, hnull, hreturn⟩ := ends_bind.mp ended
  obtain rfl := Emit.ends_emit.mp hnull
  obtain rfl := Emit.ends_emit.mp hreturn
  -- Behind the code of the member stand the load of null and the return.
  have stage₁ : d.asm.Evolves (d.asm.emit .loadNull) := .single (.emit rfl)
  have stage₂ : (d.asm.emit .loadNull).Evolves ((d.asm.emit .loadNull).emit .return) :=
    .single (.emit rfl)
  have evolves : Assembler.empty.Evolves d.asm :=
    ((means (.blank (image.world allowed context))).emits.grows slots written).evolves
  let c : Setting Memory := {
    world := image.world allowed context
    body := memberOf entry name kind params isStatic hasContext out
    final := (d.asm.emit .loadNull).emit .return
    out
    maxLocals := settings.maxLocals
    written := evolves.trans (stage₁.trans stage₂)
    finished
    code := rfl }
  have follows := (means c).follows (.start n) _ d Assembler.sound_empty slots written
    (stage₁.trans stage₂)
  have reads₁ : c.Reads (d.asm.emit .loadNull) :=
    .of_evolves Assembler.sound_empty (evolves.trans stage₁) stage₂
  have reads₂ : c.Reads ((d.asm.emit .loadNull).emit .return) :=
    .of_evolves Assembler.sound_empty c.written (.refl _)
  have comes := follows.comes (.enter c.body (some receiver) args) [] (.enter (some receiver) args)
  refine ExceptT.ext (StateT.ext fun memory => ?_)
  have comes := comes memory rfl rfl (Frame.agrees_enter (Assembler.finish_cases finished).2.2.2)
  change (image.runs allowed context (.frame c.body (.running _))).run memory =
    ((Eval.activation _ _).run.run memory).bind _
  rw [Eval.run_activation]
  change Comes c Assembler.empty d.asm [] (fun _ => []) _ memory
    (((meaning (image.world allowed context)).runFrom n).1.outcome (.enter (some receiver) args)
      memory) at comes
  generalize ((meaning (image.world allowed context)).runFrom n).1.outcome _ memory = outcome at comes ⊢
  -- The code ends, and null is returned; or an error leaves the body, for no region takes it; or a
  -- request gets no answer.
  cases comes with
  | @ends _ _ memory' f' reach hpc hstack =>
    have null : c.body.step f' = .running { f'.pushValue .null with pc := f'.pc + 1 } :=
      step_next (hpc ▸ reads₁.last rfl) rfl
    have returns : c.body.step { f'.pushValue .null with pc := f'.pc + 1 } = .returned .null := by
      have size : f'.pc + 1 = (d.asm.emit .loadNull).code.size := by simp [hpc]
      have last : c.body.code[f'.pc + 1]? = some .return := size ▸ reads₂.last rfl
      simp only [Body.step, last]
      rfl
    rw [runs_of_reaches (reach.reaches.trans (.running null (.running returns (.refl _)))),
    runs_returned]
    rfl
  | @fails e _ memory' f' reach =>
    have failed : c.body.raise f' e = .failed e := by cases e <;> rfl
    rw [runs_of_reaches reach.reaches, failed, runs_failed]
    rfl
  | waits reach unanswered =>
    rw [runs_of_reaches reach.reaches, runs_of_unanswered unanswered]
    rfl

end Members

/-- **The body of a constructor** does what the constructor of the type means. -/
theorem runs_constructor (h : ((WorkItem.constructor entry).compile table settings n).1 = .ok body) :
    image.runs allowed context (.ofBody body (some receiver) args) = (do
      let _ ← Eval.activation (.enter (some receiver) args)
        ((Eval.constructor (image.world allowed context) (entry.constructorEnv table settings)
          entry).runFrom n).1
      return .null) := by
  have code : (constructorCode · entry) = fun env => (do constructorHead env entry; returnNull) :=
    funext fun env => constructorCode_eq env entry
  rw [WorkItem.compile, code] at h
  exact runs_member (fun world => Eval.constructor world (entry.constructorEnv table settings) entry)
    h fun c => means_constructorHead entry

end Image

/-! ## The bodies of a program -/

namespace Program

variable {program : Program} {settings : Settings} {units : List SourceUnit} {key : String}
  {body : Body} {item : WorkItem}

/-- One body at most has the key. -/
def Sole (program : Program) (key : String) : Prop :=
  program.bodies.Pairwise fun a b => a.name.key = key → b.name.key ≠ key

instance : Decidable (program.Sole key) :=
  inferInstanceAs (Decidable (program.bodies.Pairwise fun a b => a.name.key = key → b.name.key ≠ key))

/-- The body of a key that no other has is the one that is found. -/
theorem bodyOf_of_sole (sole : program.Sole key) (mem : body ∈ program.bodies)
    (h : body.name.key = key) : (Image.load program).bodyOf key = .ok body := by
  have symm : Std.Symm fun a b : Body => a.name.key = key → b.name.key ≠ key :=
    ⟨fun a b apart hb ha => apart ha hb⟩
  have only (other : Body) (there : other ∈ program.bodies) (same : other.name.key = key) :
      other = body := by
    by_contra unlike
    exact List.Pairwise.forall sole there mem unlike same h
  have found : (Image.load program).body? key = some body := by
    unfold Image.body?
    cases hfind : (Image.load program).bodies.find? (fun entry => entry.1 == key) with
    | none =>
      have there : (key, body) ∈ (Image.load program).bodies := by
        simpa [Image.load, h] using mem
      simpa using List.find?_eq_none.mp hfind _ there
    | some entry =>
      obtain ⟨other, there, rfl⟩ : ∃ other ∈ program.bodies, (other.name.key, other) = entry := by
        simpa [Image.load] using List.mem_of_find?_eq_some hfind
      have same := List.find?_some hfind
      rw [Option.map_some, only other there (by simpa using same)]
  rw [Image.bodyOf, found]

/-- Each item of a list is compiled, with some number of the next call site. -/
theorem mem_compileItems {table : Table} {items : List WorkItem} (settings : Settings) (n : SiteId)
    (mem : item ∈ items) :
    ∃ n', (item.compile table settings n').1 ∈ compileItems table settings n items := by
  induction items generalizing n with
  | nil => cases mem
  | cons first rest ih =>
    simp only [compileItems]
    obtain rfl | mem := List.mem_cons.mp mem
    · exact ⟨n, List.mem_cons_self⟩
    · obtain ⟨n', there⟩ := ih _ mem
      exact ⟨n', List.mem_cons_of_mem _ there⟩

/-- **Every item of a program without diagnostics has a body.** It runs under the key of the item if
no other has that key. -/
theorem exists_bodyOf (h : Program.compile settings units = .ok program)
    (clean : program.diagnostics = []) (mem : item ∈ WorkItem.all program.table)
    (sole : program.Sole item.bodyName.key) :
    ∃ n body, (item.compile program.table settings n).1 = .ok body ∧
      (Image.load program).bodyOf item.bodyName.key = .ok body := by
  have results := (eq_ofResults_of_compile h).2
  obtain ⟨n, there⟩ := mem_compileItems settings 0 mem
  cases compiled : (item.compile program.table settings n).1 with
  | error error =>
    rw [compiled] at there
    have reported : Diagnostic.ofError error ∈ program.diagnostics := by
      rw [results]
      exact List.mem_filterMap.mpr ⟨_, there, rfl⟩
    rw [clean] at reported
    cases reported
  | ok body =>
    rw [compiled] at there
    have mem : body ∈ program.bodies := by
      rw [results]
      exact List.mem_filterMap.mpr ⟨_, there, rfl⟩
    exact ⟨n, body, compiled, bodyOf_of_sole sole mem
      (congrArg BodyName.key (WorkItem.name_of_compile compiled).1)⟩

end Program

end StackScript
