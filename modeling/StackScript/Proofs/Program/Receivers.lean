import StackScript.Proofs.Layout.Plan
import StackScript.Proofs.Machine.Limit
import StackScript.Proofs.Memory.Values
import StackScript.Proofs.Program.Items

/-!
# Receivers that carry their context

In a debug build an instance method checks that its receiver carries a context. An object that
carries one passes, and goes on carrying one as long as nobody stores null in its place.

## Main definitions

* `Carries`: the object carries its context
* `Allowance.keepingContext`: all requests but those that take the context from the object

## Main results

* `keeps_carries`: nothing else takes the context from an object
* `climbs_behindCheck`: a receiver that carries its context passes the check
-/

namespace StackScript

/-! ## Objects that carry their context -/

/-- The object carries a context: it is there, and the field for the context is not null. -/
def Carries (object : ObjectRef) (objects : Array Fields) : Prop :=
  ∃ fields, objects[object.id]? = some fields ∧ fields.get contextField ≠ .null

/-- All requests but those that store null where the object keeps its context. -/
def Allowance.keepingContext (object : ObjectRef) : Allowance := fun request _ =>
  ∀ ref value, request = .storeField ref contextField value → ref.id = object.id → value ≠ .null

section Carrying

variable {object : ObjectRef} {objects : Array Fields}

/-- An object carries its context if it has just been stored. -/
theorem carries_store {ref : ObjectRef} {value : Value} (same : ref.id = object.id)
    (there : object.id < objects.size) (h : value ≠ .null) :
    Carries object (objects.modify ref.id (·.set contextField value)) := by
  refine ⟨objects[object.id].set contextField value, ?_, ?_⟩
  · rw [Array.getElem?_modify, if_pos same, Array.getElem?_eq_getElem there, Option.map_some]
  · rw [Fields.get_set, if_pos rfl]
    exact h

/-- **Nothing else takes the context from an object.** -/
theorem keeps_carries (object : ObjectRef) :
    (Allowance.keepingContext object).Keeps (Carries object) where
  created objects carries := by
    obtain ⟨fields, there, context⟩ := carries
    obtain ⟨lt, -⟩ := Array.getElem?_eq_some_iff.mp there
    exact ⟨fields, by rw [Array.getElem?_push_lt lt, ← there, Array.getElem?_eq_getElem lt], context⟩
  stored {objects ref field value memory} carries allowed := by
    obtain ⟨fields, there, context⟩ := carries
    by_cases same : ref.id = object.id
    · by_cases place : field = contextField
      · subst place
        obtain ⟨lt, -⟩ := Array.getElem?_eq_some_iff.mp there
        exact carries_store same lt (allowed ref value rfl same)
      · refine ⟨fields.set field value, by rw [Array.getElem?_modify, if_pos same, there]; rfl, ?_⟩
        rw [Fields.get_set, if_neg place]
        exact context
    · exact ⟨fields, by rw [Array.getElem?_modify, if_neg same, there], context⟩

end Carrying

/-! ## The check -/

section Check

variable {table : Table} {settings : Settings} {method : Routine} {file : String}
  {site : Option String} {n : SiteId} {body : Body}

/-- The code of the check. -/
theorem code_of_ends_receiverCheck {env : BodyEnv} {draft : Draft}
    (h : Ends (receiverCheck env method) (.start n) () draft) (dynamic : env.isStatic = false)
    (debug : env.settings.optimization = .debug) (instance_method : method.isStatic = false)
    (threads : method.threadsContext = true) :
    draft.asm.code = #[.loadThis, .loadField contextField, .assertNotNull, .pop] := by
  unfold receiverCheck loadThis at h
  simp only [debug, instance_method, threads, dynamic, ends_bind, Emit.ends_emit, beq_self_eq_true,
    Bool.not_false, Bool.and_self, Bool.false_eq_true, if_true, if_false] at h
  obtain ⟨_, _, rfl, _, _, rfl, _, _, rfl, rfl⟩ := h
  rfl

/-- In a debug build a method that threads its context begins with the check of its receiver. -/
theorem code_of_compileRoutine (built : method.graph.Built)
    (h : (compileRoutine table settings method file site n).1 = .ok body)
    (debug : settings.optimization = .debug) (instance_method : method.isStatic = false)
    (threads : method.threadsContext = true) :
    body.code[0]? = some .loadThis ∧ body.code[1]? = some (.loadField contextField) ∧
      body.code[2]? = some .assertNotNull ∧ body.code[3]? = some .pop := by
  obtain ⟨draft, layout, checks, laid, rfl⟩ := exists_layout_of_compileRoutine h
  obtain ⟨evolves, -⟩ := plain_of_ends_receiverCheck checks
  obtain ⟨c, final⟩ := Chart.final_of_layOut built evolves laid
  have behind : draft.asm.Evolves c.state.asm := (final.steps.evolves Chart.ready_start).1
  let setting : Setting Unit := {
    world := fun _ => throw (.failed .noReceiver)
    body := method.bodyOf file site layout
    final := c.state.asm
    out := layout.assembled
    maxLocals := settings.maxLocals
    written := evolves.trans behind
    finished := final.finish
    code := rfl }
  have reads : setting.Reads draft.asm := .of_evolves Assembler.sound_empty evolves behind
  have code := code_of_ends_receiverCheck checks instance_method debug instance_method threads
  exact ⟨reads.instruction (by rw [code]; rfl) rfl, reads.instruction (by rw [code]; rfl) rfl,
    reads.instruction (by rw [code]; rfl) rfl, reads.instruction (by rw [code]; rfl) rfl⟩

/-- The frame of a body on entry, with the check of its receiver behind it. -/
def Frame.behindCheck (body : Body) (object : ObjectRef) (args : List FrameArg) : Frame :=
  { Frame.enter body (some (.object object)) args with pc := 4 }

variable {image : Image} {allowed : Allowance} {context : ContextId} {object : ObjectRef}
  {args : List FrameArg} {memory : Memory}

/-- **A receiver that carries its context passes the check.** -/
theorem climbs_behindCheck (built : method.graph.Built)
    (h : (compileRoutine table settings method file site n).1 = .ok body)
    (debug : settings.optimization = .debug) (instance_method : method.isStatic = false)
    (threads : method.threadsContext = true)
    (reads : allowed (.loadField object contextField) memory)
    (carries : Carries object memory.objects) :
    Climbs (image.world allowed context) body
      (.running (.enter body (some (.object object)) args), memory)
      (.running (.behindCheck body object args), memory) := by
  obtain ⟨code₀, code₁, code₂, code₃⟩ :=
    code_of_compileRoutine built h debug instance_method threads
  obtain ⟨fields, there, context_there⟩ := carries
  have answered : (image.world allowed context (.loadField object contextField)).run memory =
      some (.ok (fields.get contextField), memory) := by
    have kept : memory.fieldsOf object = fields := by
      rw [Memory.fieldsOf, there, Option.getD_some]
    rw [Image.world_loadField, Run.run_ensure_bind, if_pos reads, ← kept]
    rfl
  have passes (f : Frame) (value : Value) (h : value ≠ .null) :
      (f.pushValue value).execute .assertNotNull = .ok (.next (f.pushValue value)) := by
    cases value <;> first | exact absurd rfl h | rfl
  have asks : Climbs (image.world allowed context) body
      (.running (.enter body (some (.object object)) args), memory)
      (.asking (.loadField object contextField)
        { Frame.enter body (some (.object object)) args with pc := 1 }, memory) :=
    .next (step_next code₀ rfl) (Nat.lt_succ_self _) (.asks (step_ask code₁ rfl) rfl)
  refine (asks.answered (.resume answered) (Nat.lt_succ_self _)).trans ?_
  refine .next (step_next code₂ (passes _ _ context_there)) (Nat.lt_succ_self _)
    (.next (step_next code₃ rfl) (Nat.lt_succ_self _) (.refl _))

end Check

end StackScript
