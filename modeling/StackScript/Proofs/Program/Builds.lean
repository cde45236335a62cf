import StackScript.Proofs.Layout.Behind
import StackScript.Proofs.Naming.Bodies

/-!
# Debug and release builds

Settings decide how much the compiled code checks and whether the places of statements are noted.
Neither changes what else is compiled: in a debug build the bodies of instance methods that carry
their context start with a check of the receiver, and all that follows only stands further on.

## Main definitions

* `WorkItem.asserts`: the items whose bodies check their receiver
* `Body.asserting`: a body behind the check
* `WorkItem.Corresponds`, `Program.Builds`: bodies and programs in two builds

## Main results

* `WorkItem.compile_build`: every build of a body comes from one without checks and places
* `Program.compile_builds`: two builds of a program
-/

namespace StackScript

open Emit Arrange

/-! ## Bodies in two builds -/

/-- The bodies of instance methods that carry their context check their receiver in debug builds. -/
def WorkItem.asserts : WorkItem → Bool
  | .routine subject _ _ => !subject.isStatic && subject.threadsContext
  | _ => false

/-- The body behind the check that the receiver was created with a context: whatever it says of its
code is about code that stands four instructions further on. -/
def Body.asserting (body : Body) : Body :=
  { body with
    code := #[.loadThis, .loadField contextField, .assertNotNull, .pop] ++ body.code.map (·.shift 4)
    blockOffsets := body.blockOffsets.map fun (b, n) => (b, n + 4)
    regions := body.regions.map (·.shift 4)
    maxStack := max 1 body.maxStack }

/-- The body with these places noted instead of its own. -/
def Body.noting (points : List SequencePoint) (body : Body) : Body :=
  { body with sequencePoints := points }

/-- What an item's body is in a build, places apart. -/
def WorkItem.build (item : WorkItem) (optimization : Optimization) (body : Body) : Body :=
  if optimization = .debug ∧ item.asserts = true then body.asserting else body

/-- **An item's bodies in two builds**, places apart: the debug build has the check in front of the
body of the release build if the item asks for it, and otherwise they are equal. -/
def WorkItem.Corresponds (item : WorkItem) (optimization optimization' : Optimization)
    (body body' : Body) : Prop :=
  match optimization, optimization' with
  | .debug, .release => body.noting [] =
      if item.asserts then (body'.noting []).asserting else body'.noting []
  | .release, .debug => body'.noting [] =
      if item.asserts then (body.noting []).asserting else body.noting []
  | .debug, .debug | .release, .release => body.noting [] = body'.noting []

/-- **A program in two builds**: the declarations and the diagnostics are the same, and the bodies
correspond to each other one by one. -/
structure Program.Builds (optimization optimization' : Optimization) (program program' : Program) :
    Prop where
  table : program.table = program'.table
  diagnostics : program.diagnostics = program'.diagnostics
  bodies : ∃ entries : List (WorkItem × Body × Body),
    (entries.map (·.1)).Sublist (WorkItem.all program.table) ∧
    program.bodies = entries.map (·.2.1) ∧ program'.bodies = entries.map (·.2.2) ∧
    ∀ item body body', (item, body, body') ∈ entries →
      body.name = item.bodyName ∧ item.Corresponds optimization optimization' body body'

/-! ## Single bodies -/

/-- The check that the receiver was created with a context. -/
def Prologue.assertion : Prologue where
  code := #[.loadThis, .loadField contextField, .assertNotNull, .pop]
  maxStack := 1
  straight := by decide

/-- What stands in front of the body of an item. -/
def WorkItem.prologue (item : WorkItem) (optimization : Optimization) : Prologue :=
  if optimization = .debug ∧ item.asserts = true then .assertion else .nothing

/-- The settings of a release build that notes no places. -/
def Settings.plain (settings : Settings) : Settings :=
  { settings with optimization := .release, sequencePoints := false }

variable {table : Table} {settings settings' : Settings} {n : SiteId} (routine : Routine)
    (file : String) (site : Option String) (item : WorkItem)

/-- A layout behind nothing is the layout, with other places noted. -/
theorem Layout.behind_nothing (points : List SequencePoint) (layout : Layout) :
    layout.behind .nothing points =
      { layout with assembled := { layout.assembled with sequencePoints := points } } := by
  obtain ⟨⟨code, maxStack, locals, points', callSites⟩, blockOffsets, regions⟩ := layout
  have code : #[] ++ code.map (Instruction.shift 0) = code := by
    rw [Array.empty_append, show Instruction.shift 0 = id from funext Instruction.shift_zero,
      Array.map_id]
  have offsets : (blockOffsets.map fun (b, n) => (b, n + 0)) = blockOffsets := List.map_id _
  have regions : regions.map (Region.shift 0) = regions := List.map_id _
  have deep : max 0 maxStack = maxStack := Nat.zero_max _
  unfold Layout.behind Assembled.behind
  simp only [Prologue.nothing, Prologue.size, List.size_toArray, List.length_nil, code, offsets,
    regions, deep]

/-- The body of a layout behind the prologue of its item is built from the body of the layout. -/
theorem bodyOf_behind (optimization : Optimization) (points : List SequencePoint) (layout : Layout) :
    routine.bodyOf file site
        (layout.behind ((WorkItem.routine routine file site).prologue optimization) points) =
      ((WorkItem.routine routine file site).build optimization
        (routine.bodyOf file site layout)).noting points := by
  unfold WorkItem.prologue WorkItem.build
  split
  · rfl
  · rw [Layout.behind_nothing]
    rfl

/-- The check of the receiver is the prologue of its item. -/
theorem exists_receiverCheck (table : Table) (settings : Settings) (n : SiteId)
    (routine : Routine) (file : String) (site : Option String) :
    ∃ d, Ends (receiverCheck (routine.bodyEnv table settings site) routine) (.start n) () d ∧
      d.Behind ((WorkItem.routine routine file site).prologue settings.optimization) False
        (.start n) := by
  unfold receiverCheck WorkItem.prologue
  simp only [Routine.bodyEnv, WorkItem.asserts, Bool.and_eq_true, beq_iff_eq, and_assoc]
  split
  case isTrue checks =>
    have instance_ : routine.isStatic = false := by simpa using checks.2.1
    simp only [loadThis, instance_, Bool.false_eq_true, if_false, ends_bind, ends_emit]
    have code : ((((Assembler.empty.emit .loadThis).emit (.loadField contextField)).emit
        .assertNotNull).emit .pop) = Assembler.empty.behind .assertion 0 #[] := by
      simp [Assembler.behind, Assembler.empty, Prologue.assertion, Assembler.emit, Assembler.adjust,
        Instruction.pops, Instruction.pushes, Instruction.isTransfer]
    exact ⟨_, ⟨⟨⟩, _, rfl, ⟨⟩, _, rfl, ⟨⟩, _, rfl, rfl⟩, .of_firm code rfl (Nat.zero_le _)
      (Nat.le_refl _) (Assembler.firm_emit rfl) fun _ => rfl⟩
  case isFalse =>
    have code : Assembler.empty = Assembler.empty.behind .nothing 0 #[] := by
      simp [Assembler.behind, Assembler.empty, Prologue.nothing]
    exact ⟨_, ends_pure.mpr ⟨rfl, rfl⟩, .of_firm code rfl (Nat.le_refl _) (Nat.le_refl _)
      (fun _ => rfl) fun _ => rfl⟩

/-- Every build of a routine's body comes from the plain one. -/
theorem compileRoutine_build (n : SiteId) :
    ∃ points, compileRoutine table settings routine file site n =
      let plain := compileRoutine table settings.plain routine file site n
      (plain.1.map fun body => ((WorkItem.routine routine file site).build settings.optimization
        body).noting points, plain.2) := by
  let item : WorkItem := .routine routine file site
  let env := routine.bodyEnv table settings.plain site
  obtain ⟨d, checks, behind⟩ := exists_receiverCheck table settings n routine file site
  have unchecked : (receiverCheck env routine).run (.start n) = (.ok (), .start n) := rfl
  have fresh (k : Nat) (l : Label) : ¬ (Draft.start n).asm.Awaits k l := Array.not_mem_empty _
  obtain ⟨points, layouts, sites⟩ :=
    layOut_behind env settings item routine.graph rfl rfl behind (.refl _) fresh
  refine ⟨points, ?_⟩
  have checks : (receiverCheck (env.withSettings settings) routine).run (.start n) = (.ok (), d) :=
    checks
  have surroundings : routine.bodyEnv table settings site = env.withSettings settings := rfl
  rw [compileRoutine_eq, compileRoutine_eq, surroundings]
  dsimp only
  rw [checks, unchecked]
  dsimp only
  rw [layouts, sites]
  cases (layOut env routine.graph (.start n)).1 with
  | error cause => rfl
  | ok layout => exact congrArg (fun body => (Except.ok body, _)) (bodyOf_behind ..)

/-- Members without a declaration are compiled alike in all builds. -/
theorem compileMember_plain (table : Table) {entry : TypeEntry} {name : BodyName} {kind : BodyKind}
    {params : List Parameter} {isStatic hasContext : Bool} (code : BodyEnv → Emit Unit)
    (alike : ∀ env settings, code (BodyEnv.withSettings env settings) = code env) (n : SiteId) :
    compileMember table settings entry name kind params isStatic hasContext code n =
      compileMember table settings.plain entry name kind params isStatic hasContext code n := by
  have alike : code ⟨table, settings, name.text, params, isStatic, hasContext⟩ =
      code ⟨table, settings.plain, name.text, params, isStatic, hasContext⟩ :=
    alike ⟨table, settings.plain, name.text, params, isStatic, hasContext⟩ settings
  unfold compileMember
  dsimp only
  rw [alike]
  rfl

/-- **Every build of a body comes from the plain one**: it has the check of its receiver in front,
or nothing, and its own places. -/
theorem WorkItem.compile_build (table : Table) (settings : Settings) (n : SiteId) :
    ∃ points, item.compile table settings n =
      ((item.compile table settings.plain n).1.map fun body =>
        (item.build settings.optimization body).noting points,
        (item.compile table settings.plain n).2) := by
  have unchecked {item : WorkItem} (none : item.asserts = false)
      (same : item.compile table settings n = item.compile table settings.plain n) :
      ∃ points, item.compile table settings n =
        ((item.compile table settings.plain n).1.map fun body =>
          (item.build settings.optimization body).noting points,
          (item.compile table settings.plain n).2) := by
    rw [same]
    obtain ⟨_ | body, next⟩ := item.compile table settings.plain n
    · exact ⟨[], rfl⟩
    · refine ⟨body.sequencePoints, ?_⟩
      rw [Except.map, build, if_neg fun h => Bool.false_ne_true (none.symm.trans h.2)]
      rfl
  cases item with
  | routine subject file site => exact compileRoutine_build subject file site n
  | constructor entry =>
    exact unchecked rfl (compileMember_plain table (constructorCode · entry)
      (fun env s => constructorCode_withSettings env s entry) n)
  | sharedInitializer entry =>
    exact unchecked rfl (compileMember_plain table (sharedInitializerCode · entry)
      (fun env s => sharedInitializerCode_withSettings env s entry) n)
  | boundInitializer entry =>
    exact unchecked rfl (compileMember_plain table (boundInitializerCode · entry)
      (fun env s => boundInitializerCode_withSettings env s entry) n)
  | invoke entry =>
    exact unchecked rfl (compileMember_plain table invokeCode (fun _ _ => rfl) n)

/-! ## Two builds -/

/-- What an item comes to in two builds: the same error, or bodies that correspond. -/
inductive WorkItem.Agrees (item : WorkItem) (optimization optimization' : Optimization) :
    Except CodegenError Body → Except CodegenError Body → Prop where
  | error (error) : Agrees item optimization optimization' (.error error) (.error error)
  | ok {body body'} : body.name = item.bodyName →
      item.Corresponds optimization optimization' body body' →
      Agrees item optimization optimization' (.ok body) (.ok body')

/-- Builds of one body correspond to each other. -/
theorem WorkItem.corresponds_build (optimization optimization' : Optimization)
    (points points' : List SequencePoint) (plain : Body) :
    item.Corresponds optimization optimization' ((item.build optimization plain).noting points)
      ((item.build optimization' plain).noting points') := by
  unfold Corresponds build
  cases optimization <;> cases optimization' <;> cases item.asserts <;> rfl

/-- **What an item comes to** in two builds. -/
theorem WorkItem.agrees_compile (table : Table) (plain : settings.plain = settings'.plain)
    (n : SiteId) :
    item.Agrees settings.optimization settings'.optimization (item.compile table settings n).1
        (item.compile table settings' n).1 ∧
      (item.compile table settings n).2 = (item.compile table settings' n).2 := by
  obtain ⟨points, compiled⟩ := item.compile_build table settings n
  obtain ⟨points', compiled'⟩ := item.compile_build table settings' n
  have named {body : Body} (h : (item.compile table settings n).1 = .ok body) :=
    (name_of_compile h).1
  rw [compiled', ← plain]
  rw [compiled] at named ⊢
  refine ⟨?_, rfl⟩
  cases known : (item.compile table settings.plain n).1 with
  | error error => exact .error error
  | ok body =>
    exact .ok (named (by rw [known]; rfl)) (corresponds_build item _ _ points points' body)

/-- Two builds of a list of items. -/
theorem builds_of_compileItems (table : Table) (plain : settings.plain = settings'.plain) (c : SiteId)
    (items : List WorkItem) :
    (compileItems table settings c items).findSome? missingBlock? =
        (compileItems table settings' c items).findSome? missingBlock? ∧
      (Program.ofResults table (compileItems table settings c items)).diagnostics =
        (Program.ofResults table (compileItems table settings' c items)).diagnostics ∧
      ∃ entries : List (WorkItem × Body × Body), (entries.map (·.1)).Sublist items ∧
        (Program.ofResults table (compileItems table settings c items)).bodies =
          entries.map (·.2.1) ∧
        (Program.ofResults table (compileItems table settings' c items)).bodies =
          entries.map (·.2.2) ∧
        ∀ item body body', (item, body, body') ∈ entries → body.name = item.bodyName ∧
          item.Corresponds settings.optimization settings'.optimization body body' := by
  induction items generalizing c with
  | nil => exact ⟨rfl, rfl, [], .slnil, rfl, rfl, fun _ _ _ mem => by cases mem⟩
  | cons item rest ih =>
    obtain ⟨agrees, next⟩ := item.agrees_compile table plain c
    simp only [compileItems, Program.ofResults, ← next, List.findSome?_cons, List.filterMap_cons]
      at ih ⊢
    obtain ⟨missing, diagnostics, entries, sublist, bodies, bodies', corresponds⟩ :=
      ih (item.compile table settings c).2
    generalize (item.compile table settings c).1 = result at agrees ⊢
    generalize (item.compile table settings' c).1 = result' at agrees ⊢
    rw [missing]
    cases agrees with
    | error error =>
      exact ⟨rfl, congrArg _ diagnostics, entries, sublist.cons item, bodies, bodies', corresponds⟩
    | @ok body body' named own =>
      refine ⟨rfl, diagnostics, (item, body, body') :: entries, sublist.cons_cons item,
        congrArg _ bodies, congrArg _ bodies', fun i b b' mem => ?_⟩
      obtain same | mem := List.mem_cons.mp mem
      · cases same
        exact ⟨named, own⟩
      · exact corresponds i b b' mem

/-- **Debug and release builds emit the same code.** Whatever the level of optimization and whether
places are noted, a program is refused with the same error, or compiled with the same declarations
and the same diagnostics. The bodies correspond to each other one by one, and are equal but for the
places that are noted, except that the body of an instance method that carries its context starts in
a debug build with the four instructions that check its receiver: then its branches, blocks and
regions lead four places further on, and it needs room for one value at least on the stack. -/
theorem Program.compile_builds (settings : Settings) (optimization : Optimization)
    (sequencePoints : Bool) (units : List SourceUnit) :
    match compile settings units, compile { settings with optimization, sequencePoints } units with
    | .ok program, .ok program' => program.Builds settings.optimization optimization program'
    | .error error, .error error' => error = error'
    | _, _ => False := by
  unfold compile Settings.validate
  by_cases invalid : settings.maxLocals = 0 ∨ Settings.localsLimit < settings.maxLocals
  · simp only [if_pos invalid]
  · simp only [if_neg invalid]
    cases Table.ofUnits settings.baseDirectory units with
    | error error => rfl
    | ok table =>
      have plain : settings.plain =
          Settings.plain { settings with optimization, sequencePoints } := rfl
      obtain ⟨missing, diagnostics, bodies⟩ :=
        builds_of_compileItems table plain 0 (WorkItem.all table)
      simp only [missing]
      cases List.findSome? missingBlock? _ with
      | some b => rfl
      | none => exact ⟨rfl, diagnostics, bodies⟩

/-- A type whose objects carry their context, with a method. -/
def Program.carrying : SourceUnit :=
  ⟨"a.php", [.type ⟨⟨"T"⟩, none, [], [⟨"m", [], false, none, false, .straight [
    ⟨.echo (.literal .null), some ⟨1, 1, 1, 9⟩⟩]⟩], true, false⟩]⟩

-- The blocks of the method stand four places further on in the debug build.
example : (Program.compiled? (.ofPreset .release) [Program.carrying]).map (fun program =>
      program.bodies.map fun body => (body.blockOffsets, body.sequencePoints.map (·.offset))) =
        some [([(0, 0), (1, 3)], []), ([], [])] ∧
    (Program.compiled? (.ofPreset .debug) [Program.carrying]).map (fun program =>
      program.bodies.map fun body => (body.blockOffsets, body.sequencePoints.map (·.offset))) =
        some [([(0, 4), (1, 7)], [4]), ([], [])] := by decide +kernel

end StackScript
