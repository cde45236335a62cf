import StackScript.Program
import StackScript.Proofs.Naming.Declared
import StackScript.Proofs.Writing.Success

/-!
# What a program is compiled from

Every body of a program is the result for one of the items of its table, compiled from some number
of call sites on, and stands at the place of that item.

## Main definitions

* `Routine.bodyEnv`: the surroundings of a routine's code
* `Routine.bodyOf`, `memberOf`: a body from its layout, or from its finished code
* `Program.compiled?`: the program of files in their order

## Main results

* `exists_layout_of_compileRoutine`, `exists_assembled_of_compileMember`: what compiling one body
  comes to
* `Program.eq_ofResults_of_compile`: a compiled program is what the items of its table make up
* `Program.sublist_names_of_compile`: the bodies stand in the order of their items
-/

namespace StackScript

variable {table : Table} {settings : Settings} {units : List SourceUnit} {program : Program}

/-! ## One body -/

/-- The surroundings in which the code of a routine is written. -/
def Routine.bodyEnv (routine : Routine) (table : Table) (settings : Settings)
    (site : Option String) : BodyEnv where
  table := table
  settings := settings
  routine := (routine.bodyName.atSite site).text
  params := routine.params
  isStatic := routine.isStatic
  hasContext := true

/-- The body of a routine whose graph is laid out. -/
def Routine.bodyOf (routine : Routine) (file : String) (site : Option String) (layout : Layout) :
    Body where
  name := routine.bodyName.atSite site
  kind := .routine
  params := routine.params
  hasContext := true
  isStatic := routine.isStatic
  sourceFile := file
  code := layout.assembled.code
  blockOffsets := layout.blockOffsets
  regions := layout.regions
  maxStack := layout.assembled.maxStack
  locals := layout.assembled.locals
  sequencePoints := layout.assembled.sequencePoints
  callSites := layout.assembled.callSites

/-- A routine is checked for its receiver first, and its graph is laid out behind that. -/
theorem compileRoutine_eq (routine : Routine) (file : String) (site : Option String) (n : SiteId) :
    compileRoutine table settings routine file site n =
      let env := routine.bodyEnv table settings site
      match ((receiverCheck env routine).run (.start n)).1 with
      | .error cause => (.error ⟨env.routine, cause⟩,
          ((receiverCheck env routine).run (.start n)).2.nextSite)
      | .ok () =>
        let laid := layOut env routine.graph ((receiverCheck env routine).run (.start n)).2
        (blame env.routine (laid.1.map (routine.bodyOf file site)), laid.2.nextSite) := rfl

theorem ok_of_blame {routine : String} {result : Except Cause Body} {body : Body}
    (h : blame routine result = .ok body) : result = .ok body := by
  cases result with
  | error cause => cases h
  | ok value =>
    cases h
    rfl

/-- A routine that compiles is checked for its receiver, and its graph is laid out behind that. -/
theorem exists_layout_of_compileRoutine {routine : Routine} {file : String} {site : Option String}
    {n : SiteId} {body : Body}
    (h : (compileRoutine table settings routine file site n).1 = .ok body) :
    ∃ draft layout, Ends (receiverCheck (routine.bodyEnv table settings site) routine) (.start n)
        () draft ∧
      (layOut (routine.bodyEnv table settings site) routine.graph draft).1 = .ok layout ∧
      body = routine.bodyOf file site layout := by
  unfold compileRoutine at h
  dsimp only at h
  rcases checked : (receiverCheck _ routine).run (.start n) with ⟨result, draft⟩
  rw [checked] at h
  cases result with
  | error cause => cases h
  | ok _ =>
    have h : blame _ ((layOut (routine.bodyEnv table settings site) routine.graph draft).1.map
      (routine.bodyOf file site)) = .ok body := h
    cases laid : (layOut (routine.bodyEnv table settings site) routine.graph draft).1 with
    | error cause =>
      rw [laid] at h
      cases h
    | ok layout =>
      rw [laid] at h
      exact ⟨draft, layout, checked, laid, (Except.ok.inj (ok_of_blame h)).symm⟩

section Member

variable {entry : TypeEntry} {name : BodyName} {kind : BodyKind} {params : List Parameter}
  {isStatic hasContext : Bool} {code : BodyEnv → Emit Unit} {n : SiteId} {body : Body}

/-- The body of a member whose code is finished. -/
def memberOf (entry : TypeEntry) (name : BodyName) (kind : BodyKind) (params : List Parameter)
    (isStatic hasContext : Bool) (assembled : Assembled) : Body where
  name := name
  kind := kind
  params := params
  hasContext := hasContext
  isStatic := isStatic
  sourceFile := entry.placement.file
  code := assembled.code
  blockOffsets := []
  regions := []
  maxStack := assembled.maxStack
  locals := assembled.locals
  sequencePoints := assembled.sequencePoints
  callSites := assembled.callSites

/-- A member that compiles has its code written and finished. -/
theorem exists_assembled_of_compileMember
    (h : (compileMember table settings entry name kind params isStatic hasContext code n).1 =
      .ok body) :
    ∃ draft assembled,
      Ends (code ⟨table, settings, name.text, params, isStatic, hasContext⟩) (.start n) () draft ∧
      draft.asm.finish settings.maxLocals = .ok assembled ∧
      body = memberOf entry name kind params isStatic hasContext assembled := by
  unfold compileMember at h
  dsimp only at h
  rcases written : (code _).run (.start n) with ⟨result, draft⟩
  rw [written] at h
  cases result with
  | error cause => cases h
  | ok _ =>
    have h : blame _ ((draft.asm.finish settings.maxLocals).map
      (memberOf entry name kind params isStatic hasContext)) = .ok body := h
    cases finished : draft.asm.finish settings.maxLocals with
    | error cause =>
      rw [finished] at h
      cases h
    | ok assembled =>
      rw [finished] at h
      exact ⟨draft, assembled, written, finished, (Except.ok.inj (ok_of_blame h)).symm⟩

/-- Why there is no body of a member: its code stops, or cannot be finished. -/
theorem cause_of_compileMember {error : CodegenError}
    (h : (compileMember table settings entry name kind params isStatic hasContext code n).1 =
      .error error) :
    ((code ⟨table, settings, name.text, params, isStatic, hasContext⟩).run (.start n)).1 =
        .error error.cause ∨
      ∃ draft, Ends (code ⟨table, settings, name.text, params, isStatic, hasContext⟩) (.start n) ()
        draft ∧ draft.asm.finish settings.maxLocals = .error error.cause := by
  unfold compileMember at h
  dsimp only at h
  rcases written : (code _).run (.start n) with ⟨result, draft⟩
  rw [written] at h
  cases result with
  | error cause =>
    cases h
    exact .inl rfl
  | ok _ =>
    have h : blame _ ((draft.asm.finish settings.maxLocals).map
      (memberOf entry name kind params isStatic hasContext)) = .error error := h
    cases finished : draft.asm.finish settings.maxLocals with
    | error cause =>
      rw [finished] at h
      cases h
      exact .inr ⟨draft, written, finished⟩
    | ok assembled =>
      rw [finished] at h
      cases h

end Member

/-- The parameters of an item's body. -/
def WorkItem.params (table : Table) : WorkItem → List Parameter
  | .routine subject _ _ => subject.params
  | .constructor entry => initializerParams table entry
  | .sharedInitializer _ => []
  | .boundInitializer _ => []
  | .invoke _ => [invokeParam]

/-- The body of an item has the name and the parameters of the item. -/
theorem WorkItem.name_of_compile {item : WorkItem} {n : SiteId} {body : Body}
    (h : (item.compile table settings n).1 = .ok body) :
    body.name = item.bodyName ∧ body.params = item.params table := by
  have member {entry name kind params isStatic hasContext code}
      (h : (compileMember table settings entry name kind params isStatic hasContext code n).1 =
        .ok body) : body.name = name ∧ body.params = params := by
    obtain ⟨_, _, -, -, rfl⟩ := exists_assembled_of_compileMember h
    exact ⟨rfl, rfl⟩
  cases item with
  | routine subject file site =>
    obtain ⟨_, _, -, -, rfl⟩ := exists_layout_of_compileRoutine h
    exact ⟨rfl, rfl⟩
  | constructor entry => exact member h
  | sharedInitializer entry => exact member h
  | boundInitializer entry => exact member h
  | invoke entry => exact member h

/-! ## All bodies -/

/-- Settings that pass their check are left as they are. -/
theorem Settings.eq_of_validate {validated : Settings} (h : settings.validate = .ok validated) :
    validated = settings := by
  unfold validate at h
  split at h
  · cases h
  · exact (Except.ok.inj h).symm

/-- A program that is compiled consists of the results for the items of its table. -/
theorem Program.eq_ofResults_of_compile (h : Program.compile settings units = .ok program) :
    Table.ofUnits settings.baseDirectory units = .ok program.table ∧
      program = .ofResults program.table
        (compileItems program.table settings 0 (WorkItem.all program.table)) := by
  unfold Program.compile at h
  split at h
  · cases h
  case h_2 validated valid =>
    rw [Settings.eq_of_validate valid] at h
    split at h
    · cases h
    case h_2 table populated =>
      simp only at h
      split at h
      · cases h
      · cases h
        exact ⟨populated, rfl⟩

/-- The program of files in their order, if there is one. -/
def Program.compiled? (settings : Settings) (units : List SourceUnit) : Option Program :=
  match settings.validate,
    Table.ofFiles? settings.baseDirectory (Table.filesOf settings.baseDirectory units) with
  | .ok _, some table =>
    let results := compileItems table settings 0 (WorkItem.all table)
    if (results.findSome? missingBlock?).isNone then some (ofResults table results) else none
  | _, _ => none

theorem Program.compile_of_compiled? (h : compiled? settings units = some program) :
    Program.compile settings units = .ok program := by
  unfold compiled? at h
  split at h
  case h_1 validated table valid populated =>
    rw [← Table.ofUnits_eq_ok_iff] at populated
    dsimp only at h
    split at h
    case isTrue complete =>
      rw [Program.compile, valid]
      obtain rfl := Settings.eq_of_validate valid
      simp only [populated, Option.isNone_iff_eq_none.mp complete]
      rw [Option.some.inj h]
    case isFalse => cases h
  case h_2 => cases h

/-- The bodies among the results stand in the order of the items, some of which have none. -/
theorem sublist_names_of_compileItems (n : SiteId) (items : List WorkItem) :
    ((Program.ofResults table (compileItems table settings n items)).bodies.map (·.name)).Sublist
      (items.map (·.bodyName)) := by
  induction items generalizing n with
  | nil => exact .slnil
  | cons item rest ih =>
    simp only [compileItems, Program.ofResults, List.filterMap_cons]
    cases compiled : (item.compile table settings n).1 with
    | error => exact (ih _).cons _
    | ok body =>
      rw [List.map_cons, List.map_cons, (WorkItem.name_of_compile compiled).1]
      exact (ih _).cons_cons _

theorem Program.sublist_names_of_compile (h : Program.compile settings units = .ok program) :
    (program.bodies.map (·.name)).Sublist
      ((WorkItem.all program.table).map (·.bodyName)) := by
  rw [(eq_ofResults_of_compile h).2]
  exact sublist_names_of_compileItems 0 _

end StackScript
