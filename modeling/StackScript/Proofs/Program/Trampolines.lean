import StackScript.Proofs.Evaluation.Follows
import StackScript.Proofs.Machine.Shortcut
import StackScript.Proofs.Program.Items

/-!
# Objects that are called like functions

The body that calls an object like a function takes its arguments as one array, and spreads it over
a call of `__invoke` through a call site of its own. It comes to the same as any other late-bound
call of `__invoke` on the object with the values of the array.

## Main results

* `trampolines_of_compile`: the instructions of the body
* `Image.run_trampoline`: a run of the body is a call through its site
* `Image.run_trampoline_named`: and so a late-bound call of `__invoke`
-/

namespace StackScript

section Code

variable {table : Table} {settings : Settings} {entry : TypeEntry} {n : SiteId} {body : Body}

/-- The call site of the body that calls an object. -/
def trampolineShape (n : SiteId) : SiteShape := ⟨n, .magic .invoke, [.unpacked]⟩

/-- The code that calls an object, as it is written. -/
def trampolineCode (n : SiteId) : List Instruction :=
  [.loadThis, .loadContext, .loadArg 1, .callSite (trampolineShape n), .return]

/-- The instructions of the body that calls an object. -/
theorem trampolines_of_compile
    (compiled : ((WorkItem.invoke entry).compile table settings n).1 = .ok body) :
    body.regions = [] ∧ body.code = (trampolineCode n).toArray := by
  obtain ⟨d, out, ends, finished, rfl⟩ := exists_assembled_of_compileMember compiled
  let asm := (trampolineCode n).foldl Assembler.emit Assembler.empty
  obtain rfl : d = ⟨asm, n + 1⟩ := (Prod.mk.inj ends).2.symm
  obtain ⟨-, resolved, -⟩ := Assembler.finish_cases finished
  exact ⟨rfl, (Except.ok.inj resolved).symm⟩

end Code

/-- An action whose error is a result that is thrown again. -/
theorem Run.ofExcept_attempt {α : Type} (x : Run α) :
    (do MonadExcept.ofExcept (← x.attempt)) = x := by
  refine ExceptT.ext (StateT.ext fun memory => ?_)
  change ((x.attempt.run memory).bind _) = x.run memory
  unfold Run.attempt
  rw [ExceptT.run_mk]
  rcases x.run memory with _ | ⟨_ | _, _⟩ <;> rfl

section Runs

variable {image : Image} {fuel : Nat} {context : ContextId} {table : Table} {settings : Settings}
  {entry : TypeEntry} {n : SiteId} {body : Body}

/-- **A run of the body is a call through its site**, with the array as the one operand. -/
theorem Image.run_trampoline
    (compiled : ((WorkItem.invoke entry).compile table settings n).1 = .ok body)
    (receiver : Value) (array : Value) :
    image.run (fuel + 7) context (.ofBody body (some receiver) [.context, .value array]) =
      image.answer (image.run (fuel + 2)) context
        (.callSite (trampolineShape n) receiver [array]) := by
  obtain ⟨regions, code⟩ := trampolines_of_compile compiled
  have at_ {k : Nat} {i : Instruction} (h : (trampolineCode n)[k]? = some i) :
      body.code[k]? = some i := by
    rw [code, List.getElem?_toArray, h]
  let start := Frame.enter body (some receiver) [.context, .value array]
  let asking : Frame := { start with pc := 3 }
  have pushes {f : Frame} {i : Instruction} {x : Slot} (there : body.code[f.pc]? = some i)
      (execute : f.execute i = .ok (.next (f.push x))) :
      body.step f = .running { f with pc := f.pc + 1, stack := x :: f.stack } :=
    step_next there execute
  -- Three instructions push the operands, the fourth makes the call, and the last returns its
  -- answer.
  have pushed₁ : body.step start =
      .running { start with pc := 1, stack := [.value receiver] } := pushes (at_ rfl) rfl
  have pushed₂ : body.step { start with pc := 1, stack := [.value receiver] } =
      .running { start with pc := 2, stack := [.context, .value receiver] } :=
    pushes (at_ rfl) rfl
  have pushed₃ : body.step { start with pc := 2, stack := [.context, .value receiver] } =
      .running { start with pc := 3, stack := [.value array, .context, .value receiver] } :=
    pushes (at_ rfl) rfl
  have asks : body.step
      { start with pc := 3, stack := [.value array, .context, .value receiver] } =
      .asking (.callSite (trampolineShape n) receiver [array]) asking := step_ask (at_ rfl) rfl
  have returns (v : Value) :
      body.step { start with pc := 4, stack := [.value v] } = .returned v := by
    simp only [Body.step, at_ (k := 4) rfl]
    rfl
  have failed (e : DispatchError) : body.raise asking e = .failed e := by
    cases e <;> simp [Body.raise, regions]
  have resumes (answer : Except DispatchError Value) :
      image.run (fuel + 2) context
        (.frame body (body.resume (.callSite (trampolineShape n) receiver [array]) asking answer)) =
      MonadExcept.ofExcept answer := by
    cases answer with
    | ok v =>
      show image.run (fuel + 1) context
        (.frame body (body.step { start with pc := 4, stack := [.value v] })) = _
      rw [returns]
      rfl
    | error e =>
      show image.run (fuel + 2) context (.frame body (body.raise asking e)) = _
      rw [failed]
      rfl
  show image.run (fuel + 6) context (.frame body (body.step start)) = _
  rw [pushed₁]
  show image.run (fuel + 5) context (.frame body (body.step _)) = _
  rw [pushed₂]
  show image.run (fuel + 4) context (.frame body (body.step _)) = _
  rw [pushed₃]
  show image.run (fuel + 3) context (.frame body (body.step _)) = _
  rw [asks]
  show (do
    let answer ← Run.attempt (image.answer (image.run (fuel + 2)) context
      (.callSite (trampolineShape n) receiver [array]))
    image.run (fuel + 2) context (.frame body (body.resume _ asking answer))) = _
  simp only [resumes, Run.ofExcept_attempt]

variable {types : TypeId → RuntimeType} {memory : Memory} {other : SiteShape} {ref : ObjectRef}
  {entries : List (Value × Value)}

/-- **A run of the body is a late-bound call of `__invoke`** with the values of the array, through
any site that names it: both end alike, and but for what the two sites have served, in the same
memory. -/
theorem Image.run_trampoline_named
    (compiled : ((WorkItem.invoke entry).compile table settings n).1 = .ok body)
    (himage : image.Known types) (owned : image.Admits (trampolineShape n).Owns)
    (owned' : image.Admits other.Owns) (named : other.Names "__invoke")
    (known : memory.Agree types memory) (serves : memory.sites.Serves types (trampolineShape n))
    (serves' : memory.sites.Serves types other) (typed : types ref.type.id = ref.type)
    (hentries : Value.EntriesKnown types entries) :
    Option.Rel (fun x y => y.1 = x.1 ∧ x.2.SameButBoth n other.id y.2)
      ((image.run (fuel + 7) context
        (.ofBody body (some (.object ref)) [.context, .value (.array entries)])).run memory)
      ((image.invokeSite (image.run (fuel + 2)) context other (.object ref)
        (entries.map (·.2))).run memory) := by
  have spread : spreadAll ((trampolineShape n).args.zipWith CallOperand.mk [.array entries]) =
      .ok (entries.map (·.2)) := by
    show Except.ok (entries.map (·.2) ++ []) = _
    rw [List.append_nil]
  have called : (image.run (fuel + 7) context
      (.ofBody body (some (.object ref)) [.context, .value (.array entries)])).run memory =
      (image.invokeSite (image.run (fuel + 2)) context (trampolineShape n) (.object ref)
        (entries.map (·.2))).run memory := by
    rw [run_trampoline compiled]
    have answered := image.run_answer_callSite (image.run (fuel + 2)) context
      (show [Value.array entries].length = (trampolineShape n).args.length from rfl)
      (fun site present => (serves site present).1) (.object ref)
    rw [spread] at answered
    exact answered
  rw [called]
  exact invokeSite_named himage owned owned' (SiteShape.names_magic rfl) named known serves serves'
    typed fun v mem => by
      obtain ⟨entry, hentry, rfl⟩ := List.mem_map.mp mem
      exact (hentries entry hentry).2

end Runs

end StackScript
