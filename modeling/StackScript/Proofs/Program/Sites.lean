import StackScript.Proofs.Layout.Abreast
import StackScript.Proofs.Program.Linkage

/-!
# The call sites of a program

The descriptors of a program's call sites are unique and complete. Every body lists the call sites of
its code, in the order of the code; their numbers rise through the whole program, whatever bodies
could not be compiled; and at each call the values that the descriptor speaks of are on the stack.

## Main definitions

* `Body.env`: the surroundings in which the code of a body was written

## Main results

* `Draft.Orderly.tandem`: layouts keep the call sites in order
* `Program.sites_of_compile`: the call sites of a compiled program
-/

namespace StackScript

open Emit Arrange

/-- The surroundings in which the code of a body was written. -/
def Body.env (table : Table) (settings : Settings) (body : Body) : BodyEnv where
  table := table
  settings := settings
  routine := body.name.text
  params := body.params
  isStatic := body.isStatic
  hasContext := body.hasContext

variable {table : Table} {settings : Settings} {item : WorkItem} {env : BodyEnv} {n : SiteId}
  {body : Body}

/-! ## Layouts -/

/-- What a layout does by itself keeps the call sites in order. -/
theorem Draft.Orderly.move {d : Draft} (h : d.Orderly env) {f : Assembler → Assembler}
    (move : Assembler.Move f) : Draft.Orderly env { d with asm := f d.asm } := by
  cases move with
  | touch touch => exact h.touch touch
  | place l =>
    have elided : Draft.Orderly env { d with asm := d.asm.elide l } := by
      obtain same | ⟨t, code, fixups, hcode, -, -, same⟩ := Assembler.elide_cases d.asm l
      · rw [same]
        exact h
      · rw [same]
        exact h.pop hcode rfl rfl
    exact elided.touch (.mark l)
  | pin | beginHandler => exact h.same rfl rfl

/-- **Layouts keep the call sites in order.** -/
theorem Draft.Orderly.tandem (env : BodyEnv) (item : WorkItem) :
    Tandem env env Eq fun d d' => d = d' ∧ d.Orderly env where
  params := rfl
  hasContext := rfl
  seen := by
    rintro d _ ⟨rfl, -⟩
    exact ⟨rfl, rfl, rfl, rfl, rfl⟩
  move := by
    rintro f move d _ ⟨rfl, orderly⟩
    exact ⟨rfl, orderly.move move⟩
  value e := .of_keeps fun d orderly =>
    have written : Written env item .blank _ (emitValue env e) := written_emitValue e
    written.orderly orderly
  statements statements := by
    rintro _ _ ⟨l, d, _, ⟨rfl, orderly⟩, rfl, rfl⟩
    have written : Written env item .blank _ (emitStatements env statements) :=
      written_emitStatements statements
    exact Abreast.of_keeps (fun d => written.orderly) _ _ ⟨rfl, orderly.move (.place l)⟩

/-! ## Finished code -/

@[simp] theorem Instruction.site?_untargeted (i : Instruction) : i.untargeted.site? = i.site? := by
  cases i <;> rfl

/-- **What is known of the call sites of finished code.** -/
structure SitesInOrder (env : BodyEnv) (code : Array Instruction) (sites : List SiteShape) :
    Prop where
  listed : sites = code.toList.filterMap Instruction.site?
  rising : (sites.map (·.id)).Pairwise (· < ·)
  through : ∀ n shape, code[n]? = some (.callSite shape) →
    ∃ call, CallsThrough env code n shape call

theorem Draft.Orderly.finish {d : Draft} {max : Nat} {out : Assembled} (h : d.Orderly env)
    (finished : d.asm.finish max = .ok out) : SitesInOrder env out.code out.callSites := by
  have untargeted := Assembler.untargeted_of_resolve (Assembler.finish_cases finished).2.1
  have same (m : Nat) : SameUntil d.asm.code out.code m := sameUntil_of_finish finished m
  have sites (code : Array Instruction) : code.toList.filterMap Instruction.site? =
      (code.map Instruction.untargeted).toList.filterMap Instruction.site? := by
    simp [List.filterMap_map]
  rw [Assembler.finish_callSites finished]
  refine ⟨?_, h.rising, fun n shape at_ => ?_⟩
  · rw [h.listed, sites, sites out.code, untargeted]
  · -- A call site has no target, so it stands in the code that was written.
    have written := same (n + 1) n (Nat.lt_succ_self n)
    rw [at_] at written
    obtain ⟨i, hi, untargeted⟩ := Option.map_eq_some_iff.mp written
    obtain rfl : i = .callSite shape := by
      cases i <;> first | exact untargeted | cases untargeted
    obtain ⟨call, through⟩ := h.through n shape hi
    exact ⟨call, through.same (same n)⟩

/-! ## Bodies -/

theorem sites_of_compileMember (item : WorkItem) {entry : TypeEntry} {name : BodyName} {kind : BodyKind}
    {params : List Parameter} {isStatic hasContext : Bool} {code : BodyEnv → Emit Unit}
    (written : ∃ b, Written ⟨table, settings, name.text, params, isStatic, hasContext⟩ item .blank b
      (code ⟨table, settings, name.text, params, isStatic, hasContext⟩))
    (h : (compileMember table settings entry name kind params isStatic hasContext code n).1 =
      .ok body) : SitesInOrder (body.env table settings) body.code body.callSites := by
  obtain ⟨d, out, ends, finished, rfl⟩ := exists_assembled_of_compileMember h
  obtain ⟨b, written⟩ := written
  have orderly := written.orderly (.start n)
  rw [show (code _).run (.start n) = _ from ends] at orderly
  exact orderly.finish finished

theorem sites_of_compileRoutine {routine : Routine} {file : String} {site : Option String}
    (h : (compileRoutine table settings routine file site n).1 = .ok body) :
    SitesInOrder (body.env table settings) body.code body.callSites := by
  obtain ⟨draft, layout, checks, laid, rfl⟩ := exists_layout_of_compileRoutine h
  obtain ⟨s, placed, finished, -⟩ := ends_of_layOut laid
  let env := routine.bodyEnv table settings site
  let item : WorkItem := .routine routine file site
  have written : Written env item .blank .blank (receiverCheck env routine) :=
    written_receiverCheck
  have orderly := written.orderly (.start n)
  rw [show (receiverCheck env routine).run (.start n) = _ from checks] at orderly
  have along : LayoutState.Along Eq (fun d d' => d = d' ∧ d.Orderly env) (.start draft)
      (.start draft) := ⟨⟨rfl, orderly⟩, rfl, rfl, .nil, .nil, rfl, rfl, rfl, rfl⟩
  obtain ⟨_, _, _, _, laidOut⟩ := (Draft.Orderly.tandem env item).placeAll.of_ends along placed
  exact laidOut.draft.2.finish finished

/-- **The call sites of every body are in order.** -/
theorem WorkItem.sitesInOrder_of_compile (h : (item.compile table settings n).1 = .ok body) :
    SitesInOrder (body.env table settings) body.code body.callSites := by
  cases item with
  | routine subject file site => exact sites_of_compileRoutine h
  | constructor entry =>
    exact sites_of_compileMember (.constructor entry) ⟨_, written_constructorCode rfl⟩ h
  | sharedInitializer entry =>
    exact sites_of_compileMember (.sharedInitializer entry) ⟨_, written_sharedInitializerCode⟩ h
  | boundInitializer entry =>
    exact sites_of_compileMember (.boundInitializer entry) ⟨_, written_boundInitializerCode⟩ h
  | invoke entry =>
    exact sites_of_compileMember (.invoke entry) ⟨_, written_invokeCode⟩ h

/-- **The operands of a call are on the stack** when a frame comes to it: the receiver, the context,
and one value for each shape of the site, the last on top. -/
theorem Body.Bears.operands {front : Nat → Option Shape} {frame : Frame} {history : List Frame}
    {shape : SiteShape} (bears : body.Bears table item front) (runs : body.Runs (frame :: history))
    (at_ : body.code[frame.pc]? = some (.callSite shape)) :
    ∃ (values : List Slot) (receiver : Slot) (below : List Slot),
      values.length = shape.args.length ∧
        frame.stack = values.reverse ++ .context :: receiver :: below := by
  obtain ⟨a, known, describes, -⟩ := (runs.tracked bears).here
  obtain ⟨_, fine, same⟩ := bears.fine _ _ at_
  obtain rfl := same a known
  have context := describes.context (fine.site shape rfl)
  have deep : shape.args.length + 2 ≤ frame.stack.length := describes.length ▸ fine.pops
  obtain ⟨lt, context⟩ := List.getElem?_eq_some_iff.mp context
  have below : frame.stack.drop (shape.args.length + 1) ≠ [] := by
    rw [Ne, List.drop_eq_nil_iff]
    omega
  obtain ⟨receiver, rest, rest_eq⟩ := List.exists_cons_of_ne_nil below
  refine ⟨(frame.stack.take shape.args.length).reverse, receiver, rest, ?_, ?_⟩
  · rw [List.length_reverse, List.length_take]
    omega
  · rw [List.reverse_reverse, ← rest_eq, ← context]
    exact (List.take_append_drop _ _).symm.trans
      (congrArg _ (List.drop_eq_getElem_cons (h := lt)))

/-! ## Programs -/

/-- The numbers of call sites rise from item to item. -/
theorem rising_of_compileItems (c : SiteId) (items : List WorkItem) :
    (((Program.ofResults table (compileItems table settings c items)).bodies.flatMap
      (·.callSites)).map (·.id)).Pairwise (· < ·) := by
  induction items generalizing c with
  | nil => exact .nil
  | cons item rest ih =>
    have own : item.compile table settings c = _ := item.compile_eq c
    rw [compileItems_cons]
    simp only [Program.ofResults, List.filterMap_cons]
    cases result : renumberResult (· + c) (item.result table settings) with
    | error => exact ih _
    | ok body =>
      have compiled : (item.compile table settings c).1 = .ok body :=
        (congrArg Prod.fst own).trans result
      simp only [List.flatMap_cons, List.map_append, List.pairwise_append]
      refine ⟨(item.sitesInOrder_of_compile compiled).rising, ih _, fun id mem id' mem' => ?_⟩
      obtain ⟨shape, used, rfl⟩ := List.mem_map.mp mem
      obtain ⟨shape', used', rfl⟩ := List.mem_map.mp mem'
      obtain ⟨body', there, used'⟩ := List.mem_flatMap.mp used'
      obtain ⟨result', there, same⟩ := List.mem_filterMap.mp there
      -- The later items draw their numbers behind those of this one.
      have later : .ok body' ∈ compileItems table settings (item.siteCount table settings + c) rest := by
        cases result' with
        | error => cases same
        | ok => exact Option.some.inj same ▸ there
      exact Nat.lt_of_lt_of_le (WorkItem.uses_of_renumbered result ⟨shape, .inr used, rfl⟩).2
        (le_of_mem_compileItems later ⟨shape', .inr used', rfl⟩)

/-- **The descriptors of call sites are unique and complete.** In a compiled program every body lists
exactly the call sites of its code, in the order of the code; their numbers rise within a body and
from one body to the next, so no two call sites have the same. In front of a call through a site
stands the code of its receiver, of the context, and of one value for each shape of the site, that of
a computed name first; and whenever a frame comes to the call, the receiver, the context and so many
values are on its stack. -/
theorem Program.sites_of_compile {units : List SourceUnit} {program : Program}
    (h : Program.compile settings units = .ok program) :
    (∀ body ∈ program.bodies,
      body.callSites = body.code.toList.filterMap Instruction.site?) ∧
    ((program.bodies.flatMap (·.callSites)).map (·.id)).Pairwise (· < ·) ∧
    ∀ body ∈ program.bodies, ∀ n shape, body.code[n]? = some (.callSite shape) →
      (∃ call, CallsThrough (body.env program.table settings) body.code n shape call) ∧
      ∀ frame history, body.Runs (frame :: history) → frame.pc = n →
        ∃ (values : List Slot) (receiver : Slot) (below : List Slot),
          values.length = shape.args.length ∧
            frame.stack = values.reverse ++ .context :: receiver :: below := by
  refine ⟨fun body mem => ?_, ?_, fun body mem n shape at_ => ⟨?_, fun frame history runs here => ?_⟩⟩
  · obtain ⟨item, -, c, compiled⟩ := exists_item h mem
    exact (item.sitesInOrder_of_compile compiled).listed
  · rw [(eq_ofResults_of_compile h).2]
    exact rising_of_compileItems 0 _
  · obtain ⟨item, -, c, compiled⟩ := exists_item h mem
    exact (item.sitesInOrder_of_compile compiled).through n shape at_
  · obtain ⟨item, -, c, compiled⟩ := exists_item h mem
    obtain ⟨front, bears⟩ := item.exists_bears_of_compile compiled
    exact bears.operands runs (here.symm ▸ at_)

/-- A function with calls in the operands of a call, one that does not compile, and a type whose
objects are called. -/
def nestedCalls : SourceUnit :=
  ⟨"a.php", [
    .function ⟨"f", [⟨"x", .value .value, none⟩], true, none, false, .straight [
      ⟨.eval (.methodCall (.methodCall (.var "x") (.direct "m") [] none)
        (.computed (.methodCall (.var "x") (.direct "n") [] none)) [.unpacked (.var "x")] none),
        none⟩]⟩,
    callingFunction "g" (.create ⟨"Missing"⟩ []),
    .type ⟨⟨"T"⟩, none, [], [Program.echoing "__invoke"], false, true⟩]⟩

theorem Program.sites_of_compile_nestedCalls :
    ∃ program, Program.compile (.ofPreset .release) [nestedCalls] = .ok program ∧
      (program.bodies.map fun body => body.callSites.map (·.id)) = [[0, 1, 2], [], [], [4]] ∧
      ((program.bodies.flatMap (·.callSites)).map (·.id)).Pairwise (· < ·) ∧
      ∃ body ∈ program.bodies,
        body.callSites = body.code.toList.filterMap Instruction.site? ∧
        body.code[8]? = some (.callSite ⟨2, .computed, [.value, .unpacked]⟩) ∧
        (∃ call, CallsThrough (body.env program.table (.ofPreset .release)) body.code 8
          ⟨2, .computed, [.value, .unpacked]⟩ call) ∧
        ∀ frame history, body.Runs (frame :: history) → frame.pc = 8 →
          ∃ (values : List Slot) (receiver : Slot) (below : List Slot), values.length = 2 ∧
            frame.stack = values.reverse ++ .context :: receiver :: below := by
  have compiled : (compiled? (.ofPreset .release) [nestedCalls]).map (fun program =>
      (program.bodies.map fun body => body.callSites.map (·.id),
        program.bodies.any fun body =>
          (body.code[8]?.bind Instruction.site?) == some ⟨2, .computed, [.value, .unpacked]⟩)) =
      some ([[0, 1, 2], [], [], [4]], true) := by decide +kernel
  obtain ⟨program, compiled, facts⟩ := Option.map_eq_some_iff.mp compiled
  obtain ⟨numbers, computed⟩ := Prod.mk.inj facts
  obtain ⟨body, mem, computed⟩ := List.any_eq_true.mp computed
  obtain ⟨i, at_, isSite⟩ := Option.bind_eq_some_iff.mp (eq_of_beq computed)
  obtain rfl : i = .callSite ⟨2, .computed, [.value, .unpacked]⟩ := by
    cases i <;> simp_all [Instruction.site?]
  have compiled := Program.compile_of_compiled? compiled
  obtain ⟨listed, rising, through⟩ := sites_of_compile compiled
  exact ⟨program, compiled, numbers, rising, body, mem, listed body mem, at_,
    through body mem 8 _ at_⟩

end StackScript
