import Mathlib.Data.List.Perm.Basic
import Mathlib.Logic.Equiv.Basic
import StackScript.Proofs.Layout.Blindness
import StackScript.Proofs.Layout.Placement
import StackScript.Proofs.Naming.Bodies

/-!
# Bodies are compiled independently of each other

A body depends on the others only in the numbers of its call sites, which go on where those of the
item before it end. So what an item comes to is told by the item alone, and the items of a program
may be compiled in any order.

## Main definitions

* `Body.renumber`, `Body.Uses`: a body under other numbers, and the numbers of its call sites
* `WorkItem.result`, `WorkItem.siteCount`: what an item comes to by itself

## Main results

* `WorkItem.compile_eq`: an item comes to the same wherever its numbers start
* `exists_renumbering`: items may be compiled in any order
-/

namespace StackScript

variable {table : Table} {settings : Settings}

/-! ## Bodies under other numbers -/

namespace Body

/-- The same body with other numbers of its call sites. -/
def renumber (f : SiteId → SiteId) (body : Body) : Body :=
  { body with
    code := body.code.map (·.renumber f)
    callSites := body.callSites.map (·.renumber f) }

/-- The number is that of a call site of the body. -/
def Uses (body : Body) (id : SiteId) : Prop :=
  ∃ shape : SiteShape, (.callSite shape ∈ body.code ∨ shape ∈ body.callSites) ∧ shape.id = id

variable {body : Body} {f g : SiteId → SiteId}

/-- Only the numbers of the call sites count. -/
theorem renumber_congr (h : ∀ id, body.Uses id → f id = g id) :
    body.renumber f = body.renumber g := by
  have code : body.code.map (·.renumber f) = body.code.map (·.renumber g) := by
    refine Array.map_congr_left fun i mem => ?_
    cases i with
    | callSite shape =>
      simp only [Instruction.renumber, SiteShape.renumber, h shape.id ⟨shape, .inl mem, rfl⟩]
    | _ => rfl
  have sites : body.callSites.map (·.renumber f) = body.callSites.map (·.renumber g) := by
    refine List.map_congr_left fun shape mem => ?_
    simp only [SiteShape.renumber, h shape.id ⟨shape, .inr mem, rfl⟩]
  rw [renumber, renumber, code, sites]

theorem renumber_renumber (f g : SiteId → SiteId) (body : Body) :
    (body.renumber f).renumber g = body.renumber fun id => g (f id) := by
  have twice (i : Instruction) : (i.renumber f).renumber g = i.renumber fun id => g (f id) := by
    cases i <;> rfl
  simp [renumber, twice, SiteShape.renumber]

@[simp] theorem renumber_id (body : Body) : (body.renumber fun id => id) = body := by
  have same (i : Instruction) : (i.renumber fun id => id) = i := by cases i <;> rfl
  simp [renumber, same, SiteShape.renumber]

theorem uses_renumber {id : SiteId} (h : (body.renumber f).Uses id) :
    ∃ k, body.Uses k ∧ id = f k := by
  obtain ⟨shape, used | used, rfl⟩ := h
  · obtain ⟨i, mem, same⟩ := Array.mem_map.mp used
    cases i with
    | callSite shape' =>
      cases same
      exact ⟨_, ⟨shape', .inl mem, rfl⟩, rfl⟩
    | _ => cases same
  · obtain ⟨shape', mem, rfl⟩ := List.mem_map.mp used
    exact ⟨_, ⟨shape', .inr mem, rfl⟩, rfl⟩

end Body

/-! ## One body -/

/-- A draft that starts at a number is one that starts at 0, with greater numbers. -/
theorem Draft.start_eq (n : SiteId) : Draft.start n = SiteCounter.later n (.start 0) := by
  rw [Draft.later_eq, start, start, Assembler.renumber_empty, Nat.zero_add]

/-- Branches that get their targets are no call sites. -/
theorem Assembler.mem_of_resolve {labels : Label → LabelState} {code code' : Array Instruction}
    {fixups : List (Nat × Label)} {shape : SiteShape} (h : resolve labels code fixups = .ok code')
    (mem : .callSite shape ∈ code') : .callSite shape ∈ code := by
  induction fixups generalizing code with
  | nil =>
    cases h
    exact mem
  | cons fixup rest ih =>
    unfold resolve at h
    split at h
    case h_2 => cases h
    case h_1 target _ =>
      obtain ⟨k, hk⟩ := Array.mem_iff_getElem?.mp (ih h)
      rw [Array.getElem?_modify] at hk
      split at hk
      case isFalse => exact Array.mem_iff_getElem?.mpr ⟨k, hk⟩
      case isTrue =>
        obtain ⟨i, hi, same⟩ := Option.map_eq_some_iff.mp hk
        cases i <;> cases same
        exact Array.mem_iff_getElem?.mpr ⟨k, hi⟩

/-- The numbers of finished code are those of the code that was written. -/
theorem Assembler.uses_of_finish {asm : Assembler} {max : Nat} {out : Assembled} {shape : SiteShape}
    (h : asm.finish max = .ok out) (used : .callSite shape ∈ out.code ∨ shape ∈ out.callSites) :
    asm.Uses shape.id := by
  rw [finish_callSites h, Array.mem_toList_iff] at used
  exact ⟨shape, used.imp_left (mem_of_resolve (finish_cases h).2.1), rfl⟩

/-- All numbers of the code so far are below that of the next call site. -/
theorem AlikeFrom.lt {σ α : Type} [SiteCounter σ] {s s' : σ} {x : α}
    {step : ExceptT Cause (StateM σ) α} (h : AlikeFrom s step) (ends : Ends step s x s')
    (bound : ∀ id, SiteCounter.Uses s id → id < SiteCounter.next s) (id : SiteId)
    (used : SiteCounter.Uses s' id) : id < SiteCounter.next s' := by
  have fresh := h.fresh id
  have le := h.le
  rw [show step.run s = _ from ends] at fresh le
  obtain old | ⟨-, lt⟩ := fresh used
  · exact Nat.lt_of_lt_of_le (bound id old) le
  · exact lt

theorem Draft.not_uses_start {n id : SiteId} : ¬ (Draft.start n).asm.Uses id := by
  rintro ⟨shape, used, -⟩
  simp [start, Assembler.empty] at used

/-- What is compiled with numbers from 0 on, and with greater ones. -/
structure Compiled.Alike (from0 fromN : Compiled) (n : Nat) : Prop where
  result : fromN.1 = from0.1.map (·.renumber (· + n))
  next : fromN.2 = from0.2 + n
  lt : ∀ body, from0.1 = .ok body → ∀ id, body.Uses id → id < from0.2

theorem compileMember_alike {entry : TypeEntry} {name : BodyName} {kind : BodyKind}
    {params : List Parameter} {isStatic hasContext : Bool} {code : BodyEnv → Emit Unit}
    (h : Blind (code ⟨table, settings, name.text, params, isStatic, hasContext⟩)) (n : Nat) :
    Compiled.Alike (compileMember table settings entry name kind params isStatic hasContext code 0)
      (compileMember table settings entry name kind params isStatic hasContext code n) n := by
  refine ⟨?_, ?_, fun body compiled id used => ?_⟩
  case refine_3 =>
    obtain ⟨draft, assembled, written, finished, rfl⟩ := exists_assembled_of_compileMember compiled
    obtain ⟨shape, used, rfl⟩ := used
    have last : (compileMember table settings entry name kind params isStatic hasContext code 0).2 =
        draft.nextSite := by
      unfold compileMember
      dsimp only
      rw [show (code _).run (.start 0) = _ from written]
    exact last ▸ (h (.start 0)).lt written (fun id used => (Draft.not_uses_start used).elim) shape.id
      (Assembler.uses_of_finish finished used)
  all_goals
    unfold compileMember
    dsimp only
    rw [Draft.start_eq n, (h _).run n]
    rcases (code _).run (Draft.start 0) with ⟨written, draft⟩
  · have asm : (SiteCounter.later n draft).asm = draft.asm.renumber (· + n) := rfl
    dsimp only
    rw [asm, Assembler.finish_renumber]
    cases written with
    | error cause => rfl
    | ok _ => cases draft.asm.finish settings.maxLocals <;> rfl
  · rfl

/-! ## Routines -/

/-- The same layout with other numbers of its call sites. -/
def Layout.renumber (f : SiteId → SiteId) (layout : Layout) : Layout :=
  { layout with assembled := layout.assembled.renumber f }

/-- The code of a routine: the check of its receiver, and its graph behind that. -/
theorem layOut_later (item : WorkItem) (env : BodyEnv) (graph : Graph) (draft : Draft) (n : Nat) :
    layOut env graph (SiteCounter.later n draft) =
      ((layOut env graph draft).1.map (·.renumber (· + n)),
        SiteCounter.later n (layOut env graph draft).2) := by
  have start : LayoutState.start (SiteCounter.later n draft) = SiteCounter.later n (.start draft) := rfl
  unfold layOut
  rw [start, (blind_placeAll item _).run n]
  rcases (placeAll ⟨env, graph, protectedRanges graph⟩).run (.start draft) with ⟨placed, state⟩
  have asm : (SiteCounter.later n state).draft.asm = state.draft.asm.renumber (· + n) := rfl
  dsimp only
  rw [asm, Assembler.finish_renumber]
  cases placed with
  | error cause => rfl
  | ok _ => cases state.draft.asm.finish env.settings.maxLocals <;> rfl

theorem compileRoutine_alike (routine : Routine) (file : String) (site : Option String) (n : Nat) :
    Compiled.Alike (compileRoutine table settings routine file site 0)
      (compileRoutine table settings routine file site n) n := by
  let item : WorkItem := .routine routine file site
  let env := routine.bodyEnv table settings site
  have checked : Blind (receiverCheck env routine) :=
    have written : Written env item .blank .blank (receiverCheck env routine) :=
      written_receiverCheck
    written.blind rfl
  have alike : (compileRoutine table settings routine file site n).1 =
        (compileRoutine table settings routine file site 0).1.map (·.renumber (· + n)) ∧
      (compileRoutine table settings routine file site n).2 =
        (compileRoutine table settings routine file site 0).2 + n := by
    rw [compileRoutine_eq, compileRoutine_eq, Draft.start_eq n]
    dsimp only
    rw [(checked _).run n]
    rcases (receiverCheck env routine).run (Draft.start 0) with ⟨_ | _, draft⟩
    · exact ⟨rfl, rfl⟩
    · dsimp only
      rw [layOut_later item]
      rcases layOut env routine.graph draft with ⟨_ | layout, draft⟩ <;> exact ⟨rfl, rfl⟩
  refine ⟨alike.1, alike.2, fun body compiled id used => ?_⟩
  obtain ⟨draft, layout, checks, laid, rfl⟩ := exists_layout_of_compileRoutine compiled
  obtain ⟨s, placed, finished, -⟩ := ends_of_layOut laid
  obtain ⟨shape, used, rfl⟩ := used
  have bound := (checked (.start 0)).lt checks fun id used => (Draft.not_uses_start used).elim
  have last : (compileRoutine table settings routine file site 0).2 = s.draft.nextSite := by
    rw [compileRoutine_eq]
    dsimp only
    rw [show (receiverCheck env routine).run (.start 0) = _ from checks]
    unfold layOut
    dsimp only
    rw [show (placeAll _).run (.start draft) = _ from placed]
  rw [last]
  exact (blind_placeAll item (.start draft)).lt placed bound shape.id
    (Assembler.uses_of_finish finished used)

/-! ## Errors -/

theorem routine_of_blame {routine : String} {result : Except Cause Body} {error : CodegenError}
    (h : blame routine result = .error error) : error.routine = routine := by
  cases result <;> cases h
  rfl

theorem routine_of_compileRoutine {routine : Routine} {file : String} {site : Option String}
    {n : SiteId} {error : CodegenError}
    (h : (compileRoutine table settings routine file site n).1 = .error error) :
    error.routine = (routine.bodyName.atSite site).text := by
  rw [compileRoutine_eq] at h
  dsimp only at h
  split at h
  · cases h
    rfl
  · exact routine_of_blame h

theorem routine_of_compileMember {entry : TypeEntry} {name : BodyName} {kind : BodyKind}
    {params : List Parameter} {isStatic hasContext : Bool} {code : BodyEnv → Emit Unit} {n : SiteId}
    {error : CodegenError}
    (h : (compileMember table settings entry name kind params isStatic hasContext code n).1 =
      .error error) : error.routine = name.text :=
  routine_of_blame h

/-! ## Items -/

namespace WorkItem

/-- What an item comes to by itself: with call sites that are numbered from 0 on. -/
def result (table : Table) (settings : Settings) (item : WorkItem) : Except CodegenError Body :=
  (item.compile table settings 0).1

/-- How many numbers of call sites an item draws. -/
def siteCount (table : Table) (settings : Settings) (item : WorkItem) : Nat :=
  (item.compile table settings 0).2

/-- The outcome is that of the item: its body, or an error that names it. -/
def Yields (item : WorkItem) : Except CodegenError Body → Prop
  | .ok body => body.name = item.bodyName
  | .error error => error.routine = item.displayName

variable (item : WorkItem)

theorem alike (n : Nat) :
    Compiled.Alike (item.compile table settings 0) (item.compile table settings n) n := by
  cases item with
  | routine subject file site => exact compileRoutine_alike subject file site n
  | constructor entry =>
    unfold compile
    exact compileMember_alike ((written_constructorCode (a := .blank) rfl).blind rfl) n
  | sharedInitializer entry =>
    unfold compile
    exact compileMember_alike ((written_sharedInitializerCode (a := .blank)).blind rfl) n
  | boundInitializer entry =>
    unfold compile
    exact compileMember_alike ((written_boundInitializerCode (a := .blank)).blind rfl) n
  | invoke entry =>
    have written env : Written env (.invoke entry) .blank .blank (invokeCode env) :=
      written_invokeCode
    unfold compile
    exact compileMember_alike ((written _).blind rfl) n

/-- **An item comes to the same wherever its numbers start.** -/
theorem compile_eq (n : SiteId) : item.compile table settings n =
    ((item.result table settings).map (·.renumber (· + n)), item.siteCount table settings + n) :=
  Prod.ext (item.alike n).result (item.alike n).next

theorem lt_siteCount {body : Body} (h : item.result table settings = .ok body) {id : SiteId}
    (used : body.Uses id) : id < item.siteCount table settings :=
  (item.alike 0).lt body h id used

/-- What an item comes to bears its name. -/
theorem yields_compile (n : SiteId) : item.Yields (item.compile table settings n).1 := by
  cases compiled : (item.compile table settings n).1 with
  | ok body => exact (name_of_compile compiled).1
  | error error =>
    cases item with
    | routine subject file site => exact routine_of_compileRoutine compiled
    | constructor | sharedInitializer | boundInitializer | invoke =>
      exact routine_of_compileMember compiled

end WorkItem

/-! ## All items, in any order -/

/-- What an item comes to, with other numbers of its call sites. -/
def renumberResult (f : SiteId → SiteId) (result : Except CodegenError Body) :
    Except CodegenError Body :=
  result.map (·.renumber f)

theorem renumberResult_congr {f g : SiteId → SiteId} {result : Except CodegenError Body}
    (h : ∀ body, result = .ok body → ∀ id, body.Uses id → f id = g id) :
    renumberResult f result = renumberResult g result := by
  cases result with
  | error => rfl
  | ok body => exact congrArg Except.ok (Body.renumber_congr (h body rfl))

theorem renumberResult_renumberResult (f g : SiteId → SiteId) (result : Except CodegenError Body) :
    renumberResult g (renumberResult f result) = renumberResult (fun id => g (f id)) result := by
  cases result with
  | error => rfl
  | ok body => exact congrArg Except.ok (Body.renumber_renumber f g body)

theorem renumberResult_id (result : Except CodegenError Body) :
    renumberResult (fun id => id) result = result := by
  cases result with
  | error => rfl
  | ok body => exact congrArg Except.ok body.renumber_id

theorem compileItems_cons (c : SiteId) (item : WorkItem) (rest : List WorkItem) :
    compileItems table settings c (item :: rest) =
      renumberResult (· + c) (item.result table settings) ::
        compileItems table settings (item.siteCount table settings + c) rest := by
  rw [compileItems, item.compile_eq c]
  rfl

/-- The numbers of an item are those that it draws. -/
theorem WorkItem.uses_of_renumbered {item : WorkItem} {c id : SiteId} {body : Body}
    (h : renumberResult (· + c) (item.result table settings) = .ok body) (used : body.Uses id) :
    c ≤ id ∧ id < item.siteCount table settings + c := by
  cases known : item.result table settings with
  | error =>
    rw [known] at h
    cases h
  | ok body' =>
    rw [known] at h
    cases h
    obtain ⟨k, used', rfl⟩ := Body.uses_renumber used
    exact ⟨Nat.le_add_left _ _, Nat.add_lt_add_right (item.lt_siteCount known used') c⟩

/-- Items draw no number below that which they start with. -/
theorem le_of_mem_compileItems {items : List WorkItem} {c id : SiteId} {body : Body}
    (h : .ok body ∈ compileItems table settings c items) (used : body.Uses id) : c ≤ id := by
  induction items generalizing c with
  | nil => cases h
  | cons item rest ih =>
    rw [compileItems_cons, List.mem_cons] at h
    obtain own | later := h
    · exact (WorkItem.uses_of_renumbered own.symm used).1
    · exact Nat.le_trans (Nat.le_add_left _ _) (ih later)

/-- The numbers from `c` on of two neighbours that draw `a` and `b` of them, in the other order. -/
def swapBlocks (c a b : Nat) : Equiv.Perm Nat where
  toFun id :=
    if id < c then id else if id < c + a then id + b else if id < c + (a + b) then id - a else id
  invFun id :=
    if id < c then id else if id < c + b then id + a else if id < c + (a + b) then id - b else id
  left_inv id := by
    dsimp only
    split_ifs <;> omega
  right_inv id := by
    dsimp only
    split_ifs <;> omega

/-- The numbers of the first go behind those of the second. -/
theorem swapBlocks_first {c a b id : Nat} (h : id < a) :
    swapBlocks c a b (id + c) = id + (b + c) := by
  change (if _ then _ else _) = _
  rw [if_neg (by omega), if_pos (by omega)]
  omega

/-- The numbers of the second go in front of those of the first. -/
theorem swapBlocks_second {c a b id : Nat} (h : id < b) :
    swapBlocks c a b (id + (a + c)) = id + c := by
  change (if _ then _ else _) = _
  rw [if_neg (by omega), if_neg (by omega), if_pos (by omega)]
  omega

/-- All other numbers stay. -/
theorem swapBlocks_outside {c a b id : Nat} (h : id < c ∨ b + (a + c) ≤ id) :
    swapBlocks c a b id = id := by
  change (if _ then _ else _) = _
  split_ifs <;> omega

/-- The results for items, each with its item, under other numbers. -/
def renumberAll (f : SiteId → SiteId) :
    List (WorkItem × Except CodegenError Body) → List (WorkItem × Except CodegenError Body) :=
  List.map (Prod.map id (renumberResult f))

theorem renumberAll_eq_self {f : SiteId → SiteId}
    {results : List (WorkItem × Except CodegenError Body)}
    (h : ∀ item body, (item, .ok body) ∈ results → ∀ id, body.Uses id → f id = id) :
    renumberAll f results = results := by
  refine (List.map_congr_left fun pair mem => ?_).trans (List.map_id _)
  obtain ⟨item, result⟩ := pair
  refine Prod.ext rfl ((renumberResult_congr fun body same => ?_).trans (renumberResult_id result))
  exact h item body (same ▸ mem)

/-- **Items may be compiled in any order**: what each comes to is the same up to a one-to-one
renaming of the numbers of call sites. -/
theorem exists_renumbering {items items' : List WorkItem} (perm : items.Perm items') (c : SiteId) :
    ∃ f : Equiv.Perm SiteId, (∀ id < c, f id = id) ∧
      (items'.zip (compileItems table settings c items')).Perm
        (renumberAll f (items.zip (compileItems table settings c items))) := by
  induction perm generalizing c with
  | nil => exact ⟨.refl _, fun _ _ => rfl, .nil⟩
  | cons item _ ih =>
    obtain ⟨f, fixed, same⟩ := ih (item.siteCount table settings + c)
    refine ⟨f, fun id h => fixed id (Nat.lt_of_lt_of_le h (Nat.le_add_left _ _)), ?_⟩
    have own : renumberResult f (renumberResult (· + c) (item.result table settings)) =
        renumberResult (· + c) (item.result table settings) := by
      refine (renumberResult_congr fun body h id used => ?_).trans (renumberResult_id _)
      exact fixed id (WorkItem.uses_of_renumbered h used).2
    rw [compileItems_cons, compileItems_cons, List.zip_cons_cons, List.zip_cons_cons, renumberAll,
      List.map_cons, Prod.map_apply, own]
    exact same.cons _
  | swap item item' rest =>
    -- Each of the two gets its numbers behind those of the other, and the rest are as before.
    let a := item'.siteCount table settings
    let b := item.siteCount table settings
    refine ⟨swapBlocks c a b, fun id h => swapBlocks_outside (.inl h), ?_⟩
    have first : renumberResult (swapBlocks c a b)
        (renumberResult (· + c) (item'.result table settings)) =
        renumberResult (· + (b + c)) (item'.result table settings) := by
      rw [renumberResult_renumberResult]
      exact renumberResult_congr fun body h id used => swapBlocks_first (item'.lt_siteCount h used)
    have second : renumberResult (swapBlocks c a b)
        (renumberResult (· + (a + c)) (item.result table settings)) =
        renumberResult (· + c) (item.result table settings) := by
      rw [renumberResult_renumberResult]
      exact renumberResult_congr fun body h id used => swapBlocks_second (item.lt_siteCount h used)
    have others : renumberAll (swapBlocks c a b)
        (rest.zip (compileItems table settings (b + (a + c)) rest)) =
        rest.zip (compileItems table settings (b + (a + c)) rest) := by
      refine renumberAll_eq_self fun _ body mem id used => swapBlocks_outside (.inr ?_)
      exact le_of_mem_compileItems (List.of_mem_zip mem).2 used
    simp only [compileItems_cons, List.zip_cons_cons]
    rw [renumberAll, List.map_cons, List.map_cons, Prod.map_apply, Prod.map_apply, first, second]
    change List.Perm _ (_ :: _ :: renumberAll _ _)
    rw [others, show a + (b + c) = b + (a + c) from Nat.add_left_comm a b c]
    exact .swap _ _ _
  | trans _ _ ih ih' =>
    obtain ⟨f, fixed, same⟩ := ih c
    obtain ⟨g, fixed', same'⟩ := ih' c
    refine ⟨f.trans g, fun id h => ?_, same'.trans ((same.map _).trans (.of_eq ?_))⟩
    · rw [Equiv.trans_apply, fixed id h, fixed' id h]
    · rw [renumberAll, renumberAll, List.map_map]
      exact List.map_congr_left fun pair _ => Prod.ext rfl (renumberResult_renumberResult f g _)

theorem exists_of_mem_compileItems {items : List WorkItem} {c : SiteId}
    {result : Except CodegenError Body} (h : result ∈ compileItems table settings c items) :
    ∃ item ∈ items, ∃ n, result = renumberResult (· + n) (item.result table settings) := by
  induction items generalizing c with
  | nil => cases h
  | cons item rest ih =>
    rw [compileItems_cons, List.mem_cons] at h
    obtain rfl | later := h
    · exact ⟨item, List.mem_cons_self, c, rfl⟩
    · obtain ⟨item', mem, found⟩ := ih later
      exact ⟨item', List.mem_cons_of_mem _ mem, found⟩

/-- What items come to, one after the other. -/
theorem forall₂_compileItems (c : SiteId) (items : List WorkItem) :
    List.Forall₂ (fun item result => item.Yields result ∧
        ∃ n, result = renumberResult (· + n) (item.result table settings))
      items (compileItems table settings c items) := by
  induction items generalizing c with
  | nil => exact .nil
  | cons item rest ih =>
    rw [compileItems_cons]
    refine .cons ⟨?_, c, rfl⟩ (ih _)
    have yields : item.Yields (item.compile table settings c).1 := item.yields_compile c
    rwa [item.compile_eq] at yields

/-- A program is compiled unless its settings or declarations are refused, or a flow graph leads to
a block that it does not have. -/
theorem Program.compile_eq_ok {units : List SourceUnit} (valid : settings.validate = .ok settings)
    (populated : Table.ofUnits settings.baseDirectory units = .ok table)
    (complete : ∀ item ∈ WorkItem.all table, missingBlock? (item.result table settings) = none) :
    compile settings units =
      .ok (ofResults table (compileItems table settings 0 (WorkItem.all table))) := by
  have found : (compileItems table settings 0 (WorkItem.all table)).findSome? missingBlock? =
      none := by
    rw [List.findSome?_eq_none_iff]
    intro result mem
    obtain ⟨item, own, n, rfl⟩ := exists_of_mem_compileItems mem
    have none := complete item own
    cases known : item.result table settings with
    | ok => rfl
    | error => rwa [known] at none
  rw [compile, valid]
  simp only [populated, found]

/-- **Bodies are compiled independently of each other.** From two different numbers on, an item
stops with the same error, or comes to bodies that differ in the numbers of call sites only, by as
much as the two numbers; in any case it draws equally many. So every item of a program comes to its
own body or to an error of its own name, whatever the others come to, and in another order the items
come to the same but for a one-to-one renaming of the numbers. -/
theorem WorkItem.independent (table : Table) (settings : Settings) :
    (∀ (item : WorkItem) (c c' : SiteId),
      (item.compile table settings c').1 =
          renumberResult (fun id => id + c' - c) (item.compile table settings c).1 ∧
        (∀ body, (item.compile table settings c).1 = .ok body → ∀ id, body.Uses id → c ≤ id) ∧
        c ≤ (item.compile table settings c).2 ∧
        (item.compile table settings c').2 - c' = (item.compile table settings c).2 - c) ∧
    (∀ (c : SiteId) (items : List WorkItem),
      List.Forall₂ (fun item result => item.Yields result ∧
          ∃ n, result = renumberResult (· + n) (item.result table settings))
        items (compileItems table settings c items)) ∧
    (∀ (c : SiteId) (items items' : List WorkItem), items.Perm items' →
      ∃ f : Equiv.Perm SiteId, (items'.zip (compileItems table settings c items')).Perm
        (renumberAll f (items.zip (compileItems table settings c items)))) ∧
    ∀ units, settings.validate = .ok settings →
      Table.ofUnits settings.baseDirectory units = .ok table →
      (∀ item ∈ WorkItem.all table, missingBlock? (item.result table settings) = none) →
      Program.compile settings units =
        .ok (.ofResults table (compileItems table settings 0 (WorkItem.all table))) := by
  refine ⟨fun item c c' => ?_, forall₂_compileItems, fun c items items' perm => ?_,
    fun units => Program.compile_eq_ok⟩
  · rw [item.compile_eq c, item.compile_eq c']
    have shift (id c c' : Nat) : id + c' = id + c + c' - c := by omega
    refine ⟨?_, fun body h id used => (uses_of_renumbered h used).1, Nat.le_add_left _ _, ?_⟩
    · exact (renumberResult_congr fun body _ id _ => shift id c c').trans
        (renumberResult_renumberResult (· + c) (fun id => id + c' - c) _).symm
    · simp only [Nat.add_sub_cancel]
  · obtain ⟨f, -, same⟩ := exists_renumbering perm c
    exact ⟨f, same⟩

/-- A function that calls a method in front of a value. -/
def callingFunction (name : String) (value : Expr) : Item :=
  .function ⟨name, [⟨"x", .value .value, none⟩], true, none, false, .straight [
    ⟨.eval (.binary .add (.methodCall (.var "x") (.direct "m") [] none) value), none⟩]⟩

/-- Three functions with calls, the second of which does not compile. -/
def callingFunctions : SourceUnit :=
  ⟨"a.php", [callingFunction "f" (.var "x"), callingFunction "g" (.create ⟨"Missing"⟩ []),
    callingFunction "h" (.var "x")]⟩

theorem WorkItem.independent_callingFunctions :
    ∃ table, Table.ofUnits (Settings.ofPreset .release).baseDirectory [callingFunctions] =
        .ok table ∧
      Program.compile (.ofPreset .release) [callingFunctions] = .ok (.ofResults table
        (compileItems table (.ofPreset .release) 0 (WorkItem.all table))) ∧
      ((compileItems table (.ofPreset .release) 0 (WorkItem.all table)).map fun result =>
        match result with
        | .ok body => body.callSites.map (·.id)
        | .error _ => []) = [[0], [], [2]] ∧
      ∃ f : Equiv.Perm SiteId, ((WorkItem.all table).reverse.zip
          (compileItems table (.ofPreset .release) 0 (WorkItem.all table).reverse)).Perm
        (renumberAll f ((WorkItem.all table).zip
          (compileItems table (.ofPreset .release) 0 (WorkItem.all table)))) := by
  have facts : (Table.ofFiles? (Settings.ofPreset .release).baseDirectory
      (Table.filesOf (Settings.ofPreset .release).baseDirectory [callingFunctions])).map
      (fun table =>
        ((WorkItem.all table).all fun item =>
            (missingBlock? (item.result table (.ofPreset .release))).isNone,
          (compileItems table (.ofPreset .release) 0 (WorkItem.all table)).map fun result =>
            match result with
            | .ok body => body.callSites.map (·.id)
            | .error _ => [])) = some (true, [[0], [], [2]]) := by decide +kernel
  obtain ⟨table, populated, facts⟩ := Option.map_eq_some_iff.mp facts
  rw [← Table.ofUnits_eq_ok_iff] at populated
  obtain ⟨complete, numbers⟩ := Prod.mk.inj facts
  obtain ⟨-, -, anyOrder, compiles⟩ := WorkItem.independent table (.ofPreset .release)
  refine ⟨table, populated, compiles _ rfl populated fun item mem => ?_, numbers,
    anyOrder 0 _ _ (List.reverse_perm _).symm⟩
  exact Option.isNone_iff_eq_none.mp (List.all_eq_true.mp complete item mem)

/-- The edge from the first block leads to a block that has never been added. -/
def leadingNowhere : Graph := ⟨#[⟨0, [], some 0⟩, .empty 1], #[⟨0, Graph.start, .jump 5⟩]⟩

/-- A function that leads nowhere, and one that compiles. -/
def partlyLost : SourceUnit :=
  ⟨"a.php", [.function ⟨"f", [], true, none, false, leadingNowhere⟩,
    .function ⟨"g", [], true, none, false, .straight []⟩]⟩

/-- Where a graph leads to a block that it does not have, nothing is compiled, though other items
could be. -/
theorem WorkItem.not_independent_partlyLost :
    Graph.build [.connect Graph.start (.jump 5)] = .ok leadingNowhere ∧
      ∃ table, Table.ofUnits (Settings.ofPreset .release).baseDirectory [partlyLost] = .ok table ∧
        (∃ item ∈ WorkItem.all table, ∃ body, item.result table (.ofPreset .release) = .ok body) ∧
        Program.compile (.ofPreset .release) [partlyLost] = .error (.missingBlock 5) := by
  refine ⟨rfl, ?_⟩
  have facts : (Table.ofFiles? (Settings.ofPreset .release).baseDirectory
      (Table.filesOf (Settings.ofPreset .release).baseDirectory [partlyLost])).map (fun table =>
        ((WorkItem.all table).any fun item =>
            (item.result table (.ofPreset .release)).toOption.isSome,
          (compileItems table (.ofPreset .release) 0 (WorkItem.all table)).findSome?
            missingBlock?)) = some (true, some 5) := by decide +kernel
  obtain ⟨table, populated, facts⟩ := Option.map_eq_some_iff.mp facts
  rw [← Table.ofUnits_eq_ok_iff] at populated
  obtain ⟨compiles, missing⟩ := Prod.mk.inj facts
  obtain ⟨item, mem, known⟩ := List.any_eq_true.mp compiles
  obtain ⟨body, known⟩ := Option.isSome_iff_exists.mp known
  have valid : (Settings.ofPreset .release).validate = .ok (.ofPreset .release) := rfl
  refine ⟨table, populated, ⟨item, mem, body, ok_of_toOption known⟩, ?_⟩
  rw [Program.compile, valid]
  simp only [populated, missing]

end StackScript
