import StackScript.Proofs.Layout.Fronts
import StackScript.Proofs.Layout.Plan
import StackScript.Proofs.Machine.Fronts
import StackScript.Proofs.Program.Items

/-!
# What is known in front of the instructions of a compiled body

Every body that is compiled bears out what was noted while its code was written.

## Main results

* `Body.bears_of_finish`: finished code bears out the notes on the code that was written
* `WorkItem.exists_bears_of_compile`: what is known in the body of an item
-/

namespace StackScript

open Emit Arrange Assembler

variable (env : BodyEnv)

/-! ## Finished code -/

section Finished

variable {table : Table} {item : WorkItem} {asm : Assembler} {notes : Notes} {here : Shape}
  {out : Assembled} {max : Nat}

/-- **Finished code bears out the notes** on the code that was written. -/
theorem Body.bears_of_finish {body : Body} (holds : asm.Holds table item notes here)
    (unreachable : asm.reachable = false) (finished : asm.finish max = .ok out)
    (code : body.code = out.code) (start : notes.entry 0 .blank)
    (handler : ∀ region ∈ body.regions, notes.entry region.handlerStart region.known) :
    body.Bears table item notes.front := by
  obtain ⟨surveyed, entries⟩ := Body.surveyed_of_finish holds.surveyed unreachable finished code
  refine ⟨(entries _ _ start).2, fun n i hi => ?_,
    fun n i a hi known transfer => (surveyed.next n i a hi known transfer).2,
    fun n i a t hi known target => (surveyed.target n i a t hi known target).2,
    fun region mem => (entries _ _ (handler region mem)).2⟩
  rw [code] at hi
  obtain ⟨-, old⟩ | ⟨kind, t, l, rfl, old, -, -⟩ := written_of_finish holds.sound finished hi
  · exact holds.fine n i old
  · obtain ⟨a, fine, same⟩ := holds.fine n _ old
    exact ⟨a, fine.withTarget t, same⟩

end Finished

/-! ## The end of the code -/

/-- Control does not go on behind the code. -/
def Concludes (code : Emit Unit) : Prop :=
  ∀ d d', Ends code d () d' → d'.asm.reachable = false

theorem concludes_return : Concludes (emit .return) := by
  intro d d' ends
  rw [ends_emit.mp ends]
  exact reachable_emit.trans (Bool.and_false _)

theorem Concludes.behind {α : Type} {code : α → Emit Unit} (h : ∀ x, Concludes (code x))
    (head : Emit α) :
    Concludes (head >>= code) := by
  intro d d' ends
  obtain ⟨x, d₁, -, ends⟩ := ends_bind.mp ends
  exact h x d₁ d' ends

theorem concludes_returnNull : Concludes returnNull := .behind (fun _ => concludes_return) _

theorem concludes_constructorCode (entry : TypeEntry) : Concludes (constructorCode env entry) := by
  rw [constructorCode_eq]
  exact .behind (fun _ => concludes_returnNull) _

theorem concludes_sharedInitializerCode (entry : TypeEntry) :
    Concludes (sharedInitializerCode env entry) := .behind (fun _ => concludes_returnNull) _

theorem concludes_boundInitializerCode (entry : TypeEntry) :
    Concludes (boundInitializerCode env entry) := .behind (fun _ => concludes_returnNull) _

theorem concludes_invokeCode : Concludes (invokeCode env) :=
  .behind (fun _ => .behind (fun _ => .behind (fun _ => .behind (fun _ => .behind (fun _ =>
    .behind (fun _ => concludes_return) _) _) _) _) _) _

/-! ## Bodies of items -/

/-- Nothing is known but that control comes to the start. -/
def Notes.none : Notes where
  front _ := Option.none
  goal _ := .blank
  entry n a := n = 0 ∧ a = .blank

theorem Assembler.holds_empty {table : Table} {item : WorkItem} :
    Assembler.empty.Holds table item .none .blank where
  surveyed := surveyed_empty
  fine n i hi := by cases hi

namespace WorkItem

variable {table : Table} {settings : Settings} {item : WorkItem} {n : SiteId} {body : Body}
    {hasContext isStatic : Bool} {kind : BodyKind} {name : BodyName} {params : List Parameter}

/-- What is known in a member whose code is written. -/
theorem exists_bears_of_compileMember {entry : TypeEntry} {code : BodyEnv → Emit Unit}
    (written : ∀ env : BodyEnv, env.table = table → env.params = params →
      ∃ b, Written env item .blank b (code env))
    (concludes : ∀ env, Concludes (code env))
    (h : (compileMember table settings entry name kind params isStatic hasContext code n).1 = .ok body) :
    ∃ front, body.Bears table item front := by
  obtain ⟨d, out, hwritten, finished, rfl⟩ := exists_assembled_of_compileMember h
  let env : BodyEnv := ⟨table, settings, name.text, params, isStatic, hasContext⟩
  obtain ⟨b, written⟩ := written env rfl rfl
  obtain ⟨notes, within, holds⟩ := written.takes hwritten (finish_cases finished).1 _ holds_empty
  exact ⟨notes.front, Body.bears_of_finish holds (concludes _ _ _ hwritten) finished rfl
    (within.entry _ _ ⟨rfl, rfl⟩) nofun⟩

/-- A member whose code is written in one piece returns behind all of it. -/
theorem exists_returns_of_compileMember {entry : TypeEntry} {head : BodyEnv → Emit Unit} {b : Shape}
    {k : Int} (written : ∀ env : BodyEnv, env.table = table → Written env item .blank b (head env))
    (emits : ∀ env, Emits k (head env))
    (h : (compileMember table settings entry name kind params isStatic hasContext
      (fun env => do head env; returnNull) n).1 = .ok body) :
    body.regions = [] ∧ ∃ front, body.Bears table item front ∧
      ∀ n a, body.code[n]? = some .return → front n = some a → a.stores = b.stores := by
  obtain ⟨d, out, ends, finished, rfl⟩ := exists_assembled_of_compileMember h
  refine ⟨rfl, ?_⟩
  let env : BodyEnv := ⟨table, settings, name.text, params, isStatic, hasContext⟩
  obtain ⟨_, d₁, wrote, ends⟩ := ends_bind.mp ends
  obtain ⟨_, d₂, null, ends⟩ := ends_bind.mp ends
  obtain rfl := ends_emit.mp null
  obtain rfl := ends_emit.mp ends
  have fault := (fault_emit (fault_emit (finish_cases finished).1).1).1
  obtain ⟨notes, within, holds⟩ := (written env rfl).takes wrote fault _ holds_empty
  have null : Fine table item b .loadNull := .plain rfl rfl rfl (Nat.zero_le _)
  have last : Fine table item (Instruction.loadNull.after b) .return :=
    .plain rfl rfl rfl (Nat.le_add_left 1 _)
  have holds := (holds.emit rfl null).emit rfl last
  refine ⟨_, Body.bears_of_finish holds (reachable_emit.trans (Bool.and_false _)) finished rfl
    (within.entry _ _ ⟨rfl, rfl⟩) nofun, fun n a there known => ?_⟩
  -- The only return is the last instruction.
  have there := finish_instruction holds.sound finished there rfl
  rw [code_emit, Array.getElem?_push] at there
  split at there
  case isTrue end_ =>
    simp only [noteHere, Notes.noteFront, if_pos end_] at known
    split at known <;> cases known
    rfl
  case isFalse =>
    rw [code_emit, Array.getElem?_push] at there
    split at there
    · cases there
    · have none := ((emits env).grows Slots.sound_empty wrote).scribes.return_of_code there
      cases none

/-- What is known in a routine whose graph is laid out. -/
theorem exists_bears_of_compileRoutine {routine : Routine} {file : String} {site : Option String}
    (h : (compileRoutine table settings routine file site n).1 = .ok body) :
    ∃ front, body.Bears table item front := by
  obtain ⟨draft, layout, checks, laid, rfl⟩ := exists_layout_of_compileRoutine h
  obtain ⟨s, placed, finished, -, regions⟩ := ends_of_layOut laid
  let env := routine.bodyEnv table settings site
  have written : Written env item .blank .blank (receiverCheck env routine) :=
    written_receiverCheck
  obtain ⟨evolves, -⟩ := plain_of_ends_receiverCheck checks
  have ready : (LayoutState.start draft).Ready := nofun
  have slots : draft.asm.slots.Sound := evolves.slots_sound Slots.sound_empty
  have starts : Job.Starts (.start draft) (.drain []) := fun _ => ⟨Graph.start, [], rfl, nofun⟩
  have upholds : Upholds table item .blank .blank (.start draft) s :=
    upholds_of_ends_placeAll ready slots starts placed
  have sound := (finish_cases finished).1
  obtain ⟨notes, within, holds⟩ := written.takes checks (upholds.fault sound) _ holds_empty
  obtain ⟨next, within', bears⟩ := upholds.bears sound notes ⟨holds, nofun, nofun⟩
  refine ⟨next.front, Body.bears_of_finish bears.holds
    (unreachable_of_ends_placeAll ready slots starts placed) finished rfl
    (within'.entry _ _ (within.entry _ _ ⟨rfl, rfl⟩)) fun region mem => ?_⟩
  exact bears.regions region (Array.mem_toList_iff.mp (regions ▸ mem))

/-- **Every body bears out** what was noted while its code was written. -/
theorem exists_bears_of_compile (h : (item.compile table settings n).1 = .ok body) :
    ∃ front, body.Bears table item front := by
  cases item with
  | routine subject file site => exact exists_bears_of_compileRoutine h
  | constructor entry =>
    refine exists_bears_of_compileMember ?_ (fun env => concludes_constructorCode env entry) h
    rintro env rfl params
    exact ⟨_, written_constructorCode params⟩
  | sharedInitializer entry =>
    refine exists_bears_of_compileMember ?_ (fun env => concludes_sharedInitializerCode env entry) h
    rintro env rfl -
    exact ⟨_, written_sharedInitializerCode⟩
  | boundInitializer entry =>
    refine exists_bears_of_compileMember ?_ (fun env => concludes_boundInitializerCode env entry) h
    rintro env rfl -
    exact ⟨_, written_boundInitializerCode⟩
  | invoke entry =>
    refine exists_bears_of_compileMember ?_ concludes_invokeCode h
    rintro env rfl -
    exact ⟨_, written_invokeCode⟩

end WorkItem

end StackScript
