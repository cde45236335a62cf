import StackScript.Proofs.Writing.Expressions
import StackScript.Proofs.Writing.Faultless

/-!
# Expressions and statements are written without a fault

Every way to write an expression takes only values that it has pushed itself, and whether it can be
written at all depends on the expression alone, not on what has been written before. Its code is in
one piece: it leaves one value more on the stack, or as many as before if only the effect counts.
Arguments leave one value for every parameter; those that are left over leave none.

## Main results

* `careful_emitValue`, `careful_storeVariable`: expressions, and assignments to variables
* `careful_emitStatements`: statements
* `emits_emitValue`, `emits_storeVariable`, `emits_emitStatements`: their code is in one piece
-/

namespace StackScript

open Emit
open Assembler (Clean Grows clean_emit clean_emit_slots grows_local hasLocal_scratch)

variable {env : BodyEnv} {j k : Int} {n : Nat} {entries : List LoweredEntry} {field : String}
    {type : QualifiedName} (name : String) (e : Expr) (statement : Statement)
    (statements : List Statement)

/-! ## Variables -/

theorem careful_loadContext : Careful 0 1 (loadContext env) := by
  unfold loadContext
  split
  · exact careful_emit rfl rfl (Nat.le_refl 0) rfl
  · exact careful_throw

theorem careful_loadThis : Careful 0 1 (loadThis env) := by
  unfold loadThis
  split
  · exact careful_throw
  · exact careful_emit rfl rfl (Nat.le_refl 0) rfl

theorem careful_loadLiteral (literal : Literal) : Careful 0 1 (loadLiteral literal) := by
  cases literal <;> exact careful_emit rfl rfl (Nat.le_refl 0) rfl

/-- An instruction on the slot of a parameter. -/
theorem careful_argument {index : Nat} {i : Nat → Instruction}
    (hp : ∀ slot, (i slot).isPlain = true) (hl : ∀ slot, (i slot).local? = none)
    (hn : ∀ slot, (i slot).pops ≤ n) (hk : ∀ slot, (i slot).change = k) :
    Careful n k (do emit (i (← argumentSlot index))) := by
  unfold argumentSlot
  split
  · simp only [pure_bind]
    exact careful_emit (hp _) (hl _) (hn _) (hk _)
  · exact careful_throw

/-- An instruction on the slot of a variable. -/
theorem careful_named {name : String} {i : LocalId → Instruction}
    (hp : ∀ id, (i id).isPlain = true) (hl : ∀ id, (i id).local? = some id)
    (hn : ∀ id, (i id).pops ≤ n) (hk : ∀ id, (i id).change = k) :
    Careful n k (do emit (i (← withSlots (·.named name)))) where
  emits := emits_named hp hl hk
  clean d _ d' _ h := by
    obtain rfl := ends_emit_handed.mp h
    exact clean_emit_slots _ (hn _)
  settled := .inl (succeeds_withAssembler.bind fun _ => succeeds_emit)

theorem careful_loadVariable : Careful 0 1 (loadVariable env name) := by
  unfold loadVariable
  split
  · exact careful_loadContext
  · exact careful_argument (fun _ => rfl) (fun _ => rfl) (fun _ => Nat.le_refl 0) (fun _ => rfl)
  · exact careful_named (fun _ => rfl) (fun _ => rfl) (fun _ => Nat.le_refl 0) (fun _ => rfl)

theorem careful_storeVariable : Careful 1 (-1) (storeVariable env name) := by
  unfold storeVariable
  split
  · exact careful_throw
  · exact careful_argument (fun _ => rfl) (fun _ => rfl) (fun _ => Nat.le_refl 1) (fun _ => rfl)
  · exact careful_named (fun _ => rfl) (fun _ => rfl) (fun _ => Nat.le_refl 1) (fun _ => rfl)

/-! ## Arguments -/

/-- The code of an expression takes nothing that was on the stack before. -/
structure Lowered.Careful (lowered : Lowered) : Prop where
  value : StackScript.Careful 0 1 lowered.value
  effect : StackScript.Careful 0 0 lowered.effect

theorem careful_ofValue {value : Emit Unit} (h : Careful 0 1 value) :
    (Lowered.ofValue value).Careful :=
  ⟨h, h.bind (careful_emit rfl rfl (Nat.le_refl 1) rfl) (Nat.le_refl 0) (by omega) rfl⟩

variable {args : List Lowered}

theorem careful_dropArguments (h : ∀ arg ∈ args, arg.Careful) :
    Careful 0 0 (dropArguments args) := by
  induction args with
  | nil => exact careful_pure
  | cons arg rest ih =>
    exact (h arg List.mem_cons_self).effect.bind
      (ih fun arg harg => h arg (List.mem_cons_of_mem _ harg)) (Nat.le_refl 0) (by omega) rfl

theorem careful_pushAll (h : ∀ arg ∈ args, arg.Careful) :
    Careful 0 args.length (pushAll args) := by
  induction args with
  | nil => exact careful_pure
  | cons arg rest ih =>
    refine (h arg List.mem_cons_self).value.bind
      (ih fun arg harg => h arg (List.mem_cons_of_mem _ harg)) (Nat.le_refl 0) (by omega) ?_
    simp only [List.length_cons]
    omega

theorem careful_pushArguments {callee : String} {params : List Parameter}
    (h : ∀ arg ∈ args, arg.Careful) :
    Careful 0 params.length (pushArguments env callee params args) := by
  induction params generalizing args with
  | nil =>
    unfold pushArguments
    exact careful_dropArguments h
  | cons param params ih =>
    have next {first : Emit Unit} {rest : List Lowered} (hfirst : Careful 0 1 first)
        (hrest : ∀ arg ∈ rest, arg.Careful) :
        Careful 0 (param :: params).length
          (first >>= fun _ => pushArguments env callee params rest) := by
      refine hfirst.bind (ih hrest) (Nat.le_refl 0) (by omega) ?_
      simp only [List.length_cons]
      omega
    unfold pushArguments
    split
    · exact next careful_loadContext h
    · exact next (h _ List.mem_cons_self).value fun arg harg => h arg (List.mem_cons_of_mem _ harg)
    · exact next (careful_loadLiteral _) fun arg harg => by simp at harg
    · exact careful_throw

/-! ## Calls and creations -/

/-- The context and values above what is on the stack, and an instruction that takes them. -/
theorem careful_onContext {values : Emit Unit} {i : Instruction} {argc : Nat} {r : Int}
    (hvalues : Careful 0 argc values) (hp : i.isPlain = true) (hl : i.local? = none)
    (hn : i.pops ≤ n + argc + 1) (hk : i.change = k) (hr : argc + 1 + k = r) :
    Careful n r (do
      loadContext env
      values
      emit i) := by
  refine careful_loadContext.bind (m := n + 1) (k := argc + k) ?_ (Nat.zero_le n) (by omega)
    (by omega)
  exact hvalues.bind (careful_emit hp hl hn hk) (Nat.zero_le _) (by omega) rfl

theorem careful_lowerCall {function : QualifiedName} (h : ∀ arg ∈ args, arg.Careful) :
    Careful 0 1 (lowerCall env function args) := by
  unfold lowerCall
  split
  · refine careful_onContext (careful_pushArguments h) rfl rfl ?_ (change_call _ _ _) ?_
    · simp [Instruction.pops]
    · simp only [Bool.false_eq_true, if_false]
      omega
  · refine careful_onContext (careful_pushAll h) rfl rfl ?_ (change_callGlobal _ _) ?_
    · simp [Instruction.pops]
    · omega

/-- A method name takes nothing that was on the stack before. -/
def LoweredName.Careful : LoweredName → Prop
  | .direct _ => True
  | .computed value => StackScript.Careful 0 1 value

/-- The call site behind a receiver, the context, and as many values as it is told. -/
theorem careful_callSite {target : Selector} {shapes : List ArgShape} {k : Nat}
    (hc : ∀ n, (SiteShape.mk n target shapes).pushedCount = k) :
    Careful (k + 2) (-1 - k) (do emit (.callSite ⟨← nextSite, target, shapes⟩)) where
  emits := emits_callSite hc
  clean d _ d' _ h := by
    simp only [ends_bind, ends_nextSite, ends_emit] at h
    obtain ⟨_, _, ⟨rfl, rfl⟩, rfl⟩ := h
    refine clean_emit ?_
    simp only [Instruction.pops, hc]
    exact Nat.le_refl _
  settled := by
    have numbered : Succeeds nextSite := fun d => ⟨_, _, ends_nextSite.mpr ⟨rfl, rfl⟩⟩
    exact .inl (numbered.bind fun _ => succeeds_emit)

theorem careful_lowerLateCall {receiver : Emit Unit} {name : LoweredName}
    {args : List LoweredArgument} (hr : Careful 0 1 receiver) (hn : name.Careful)
    (h : ∀ arg ∈ args, arg.code.Careful) : Careful 0 1 (lowerLateCall env receiver name args) := by
  have hargs : Careful 0 args.length (pushAll (args.map (·.code))) := by
    rw [← List.length_map (f := (·.code))]
    refine careful_pushAll fun code hcode => ?_
    obtain ⟨arg, harg, rfl⟩ := List.mem_map.mp hcode
    exact h arg harg
  unfold lowerLateCall
  cases name with
  | direct name =>
    refine hr.bind (m := 1) (k := 0) (careful_loadContext.bind (m := 2) (k := -1)
      (hargs.bind (careful_callSite (k := args.length) fun n => ?_) (Nat.zero_le _) ?_ ?_)
      (Nat.zero_le _) (by omega) rfl) (Nat.le_refl 0) (by omega) rfl
    · simp [SiteShape.pushedCount]
    · omega
    · omega
  | computed value =>
    refine hr.bind (m := 1) (k := 0) (careful_loadContext.bind (m := 2) (k := -1)
      (Careful.bind (m := 3) (k := -2) hn
        (hargs.bind (careful_callSite (k := args.length + 1) fun n => ?_) (Nat.zero_le _) ?_ ?_)
        (Nat.zero_le _) (by omega) rfl)
      (Nat.zero_le _) (by omega) rfl) (Nat.le_refl 0) (by omega) rfl
    · simp [SiteShape.pushedCount]
    · omega
    · omega

theorem careful_lowerMethodCall {receiver : Emit Unit} {name : LoweredName}
    {args : List LoweredArgument} {receiverType : Option QualifiedName} (hr : Careful 0 1 receiver)
    (hn : name.Careful) (h : ∀ arg ∈ args, arg.code.Careful) :
    Careful 0 1 (lowerMethodCall env receiver name args receiverType) := by
  unfold lowerMethodCall
  split
  · refine hr.bind (m := 1) (k := 0) (careful_onContext (careful_pushArguments fun code hcode => ?_)
      rfl rfl ?_ (change_call _ _ _) ?_) (Nat.le_refl 0) (by omega) rfl
    · obtain ⟨arg, harg, rfl⟩ := List.mem_map.mp hcode
      exact h arg harg
    · simp only [Instruction.pops, if_true]
      omega
    · simp only [if_true]
      omega
  · exact careful_lowerLateCall hr hn h

theorem careful_lowerCreate (h : ∀ arg ∈ args, arg.Careful) :
    Careful 0 1 (lowerCreate env type args) := by
  unfold lowerCreate
  split
  · split
    · refine careful_onContext (careful_pushArguments h) rfl rfl ?_ (change_newObject _ _) ?_
      · simp [Instruction.pops]
      · omega
    · have dropped : Careful 0 (0 : Nat) (dropArguments args) := careful_dropArguments h
      refine careful_onContext dropped rfl rfl ?_ (change_newObject _ _) rfl
      simp [Instruction.pops]
  · split
    · refine careful_onContext (careful_pushAll h) rfl rfl ?_ (change_newObject _ _) ?_
      · simp [Instruction.pops]
      · omega
    · exact careful_throw

/-! ## Static fields -/

/-- A step on a static field: it finds the field always or never. -/
theorem careful_onStatic {next : QualifiedName × Bool → Emit Unit}
    (h : ∀ found, Careful n k (next found)) :
    Careful n k (resolveStaticField env type field >>= next) := by
  unfold resolveStaticField
  split
  · rw [pure_bind]
    exact h _
  · split
    · exact careful_throw
    · exact careful_throw

theorem careful_loadStatic : Careful 0 1 (loadStatic env type field) := by
  unfold loadStatic
  refine careful_onStatic fun ⟨owner, bound⟩ => ?_
  cases bound with
  | true =>
    exact careful_loadContext.bind (careful_emit rfl rfl (Nat.le_refl 1) rfl) (Nat.le_refl 0)
      (by omega) rfl
  | false => exact careful_emit rfl rfl (Nat.le_refl 0) rfl

/-- A value waits in a slot while others are pushed below it, is taken by an instruction, and is
there again. -/
theorem Assembler.Clean.setAside {a b c : Assembler} {id : LocalId} {m : Nat} (slot : a.HasLocal id)
    (below : Grows j (a.emit (.storeLocal id)) b) (below' : Clean 0 (a.emit (.storeLocal id)) b)
    (last : Grows k (b.emit (.loadLocal id)) c) (last' : Clean m (b.emit (.loadLocal id)) c)
    (hn : 1 ≤ n) (hm : (m : Int) ≤ n + j) : Clean n a (c.emit (.loadLocal id)) := by
  have store : Grows (-1) a (a.emit (.storeLocal id)) := grows_local slot rfl rfl rfl
  have load : Grows 1 b (b.emit (.loadLocal id)) :=
    grows_local (slot.grows (store.trans below)) rfl rfl rfl
  have waits := (clean_emit hn).trans store below' below (Nat.le_refl n) (by omega)
  have back := waits.emit (store.trans below) (i := .loadLocal id) (Int.le_max_left _ _)
  have taken := back.trans ((store.trans below).trans load) last' last (Nat.le_refl n) (by omega)
  exact taken.emit (((store.trans below).trans load).trans last) (Int.le_max_left _ _)

theorem careful_setAside {below last : Emit Unit} {m : Nat} (hbelow : Careful 0 j below)
    (hlast : Careful m k last) (hn : 1 ≤ n) (hm : (m : Int) ≤ n + j) :
    Careful n (j + k + 1) (setAside below last) where
  emits := emits_setAside hbelow.emits hlast.emits
  clean d _ d' hd h := by
    obtain ⟨d₁, d₂, hends, hends', rfl⟩ := parts_of_ends_setAside h
    have slot := hasLocal_scratch hd
    have sound := (grows_local (i := .storeLocal _) slot rfl rfl rfl).sound
      ((Slots.Serve.scratch _).sound hd)
    have grows := hbelow.emits.grows sound hends
    have sound' : (d₁.asm.emit (.loadLocal d.asm.slots.scratch.1)).slots.Sound := by
      simpa using grows.sound sound
    have waited := Clean.setAside slot grows (hbelow.clean _ _ _ sound hends)
      (hlast.emits.grows (d := ⟨d₁.asm.emit _, d₁.nextSite⟩) sound' hends')
      (hlast.clean ⟨d₁.asm.emit _, d₁.nextSite⟩ _ _ sound' hends') hn hm
    exact waited.congr rfl rfl rfl rfl rfl rfl
  settled := by
    have handed : Succeeds scratch := fun _ => ⟨_, _, ends_scratch.mpr ⟨rfl, rfl⟩⟩
    have released (id : LocalId) : Succeeds (release id) := succeeds_onAssembler
    obtain hb | hb := hbelow.settled
    · obtain hl | hl := hlast.settled
      · exact .inl (handed.bind fun id => succeeds_emit.bind fun _ => hb.bind
          fun _ => succeeds_emit.bind fun _ => hl.bind fun _ => succeeds_emit.bind
          fun _ => released id)
      · exact .inr (stops_bind fun _ => stops_bind fun _ => stops_bind fun _ => stops_bind
          fun _ => hl.bind)
    · exact .inr (stops_bind fun _ => stops_bind fun _ => hb.bind)

/-- A value that is kept passes through a scratch slot where the context has to go below it. -/
theorem careful_storeStatic {value : Emit Unit} (keep : Bool) (hv : Careful 0 1 value) :
    Careful 0 (if keep then 1 else 0) (storeStatic env type field value keep) := by
  unfold storeStatic
  refine careful_onStatic fun ⟨owner, bound⟩ => ?_
  cases bound <;> cases keep
  · exact hv.bind (careful_emit rfl rfl (Nat.le_refl 1) rfl) (Nat.le_refl 0) (by omega) rfl
  · exact hv.bind (m := 1) (k := 0) ((careful_emit rfl rfl (Nat.le_refl 1) rfl).bind
      (careful_emit rfl rfl (Nat.le_refl 1) rfl) (Nat.le_refl 1) (by decide) rfl) (Nat.le_refl 0)
      (by omega) rfl
  · exact careful_loadContext.bind (m := 1) (k := -1) (hv.bind
      (careful_emit rfl rfl (Nat.le_refl 2) rfl) (Nat.zero_le 1) (by omega) rfl) (Nat.le_refl 0)
      (by omega) rfl
  · exact hv.bind (m := 1) (careful_setAside careful_loadContext
      (careful_emit rfl rfl (Nat.le_refl 2) rfl) (Nat.le_refl 1) (by omega)) (Nat.le_refl 0)
      (by omega) rfl

/-- An assignment to a field, whose value is kept in a scratch slot. -/
theorem careful_lowerFieldStore {receiver : Emit Unit} {value : Emit Unit}
    (hr : Careful 0 1 receiver) (hv : Careful 0 1 value) :
    Careful 0 1 (lowerFieldStore receiver field value) := by
  have stored := careful_setAside (n := 2) (careful_pure (x := ()))
    (careful_emit (i := .storeField field) rfl rfl (Nat.le_refl 2) rfl) (by omega) (by omega)
  rw [lowerFieldStore_eq]
  exact hr.bind (m := 1) (k := 0) (hv.bind stored (Nat.zero_le 1) (by omega) rfl) (Nat.le_refl 0)
    (by omega) rfl

/-! ## Operators and arrays -/

/-- A label from a number on that is not given out yet is not known. -/
theorem Assembler.label_of_le {asm : Assembler} {l : Label} (h : asm.labels.size ≤ l) :
    asm.label l = ⟨none, none⟩ := by
  simp [label, h]

namespace Assembler

/-- A label that has no place yet, and the depth there if a branch goes to it. -/
structure Open (asm : Assembler) (l : Label) (depth : Option Nat) : Prop where
  lt : l < asm.labels.size
  label : asm.label l = ⟨none, depth⟩

section Open

variable {a b : Assembler} {l m : Label} {d : Option Nat} {i : Instruction} {kind : BranchKind}

theorem Open.grows (h : a.Open l d) (g : Grows k a b) (hf : b.fault = none) : b.Open l d :=
  ⟨Nat.lt_of_lt_of_le h.lt g.evolves.labels_le, (g.scribes.label hf h.lt).trans h.label⟩

theorem Open.emit (h : a.Open l d) : (a.emit i).Open l d :=
  ⟨by simpa using h.lt, label_emit.trans h.label⟩

/-- A branch goes to the label. -/
theorem Open.branch (h : a.Open l d) (hf : (a.branch kind l).fault = none) :
    (a.branch kind l).Open l (some (a.depth - (kind.instruction 0).pops)) :=
  ⟨by simpa using h.lt, by rw [label_branch h.lt hf, if_pos rfl, h.label]⟩

variable (kind) in
/-- A branch goes to another label. -/
theorem Open.branch_other (h : a.Open l d) (hm : m < a.labels.size) (hne : l ≠ m)
    (hf : (a.branch kind m).fault = none) : (a.branch kind m).Open l d :=
  ⟨by simpa using h.lt, by rw [label_branch hm hf, if_neg hne, h.label]⟩

/-- Another label is put. -/
theorem Open.mark_other (h : a.Open l d) (hm : m < a.labels.size) (hne : l ≠ m)
    (hf : (a.mark m).fault = none) : (a.mark m).Open l d :=
  ⟨by simpa using h.lt, by rw [label_mark hm hf, if_neg hne, h.label]⟩

variable (kind) in
/-- The first branch to a label agrees with any depth there. -/
theorem Open.faultless_branch (h : a.Open l none) (hf : a.fault = none)
    (hp : (kind.instruction 0).pops ≤ a.depth) : (a.branch kind l).fault = none :=
  Assembler.faultless_branch hf hp fun _ hd => by
    rw [h.label] at hd
    cases hd

/-- A label is put at the depth of the branches to it. -/
theorem Open.faultless_mark {n : Nat} (h : a.Open l (some n)) (hf : a.fault = none)
    (hn : a.depthAt l = n) : (a.mark l).fault = none :=
  Assembler.faultless_mark hf (by rw [h.label]) fun _ hd => by
    rw [h.label] at hd
    rw [hn]
    exact (Option.some.inj hd).symm

/-- Behind a jump the depth is that of the label. -/
theorem Open.depthAt {n : Nat} (h : a.Open l (some n)) (hr : a.reachable = false) :
    a.depthAt l = n := by
  rw [Assembler.depthAt, hr, h.label]
  rfl

end Open

section Logical

variable {a b c : Assembler} {short : Label} {decided : Bool}

/-- `and` and `or` run into no fault: the labels are new, so the branches to each of them agree. -/
theorem faultless_logical (hf : a.fault = none)
    (hs : a.defineLabel.2.defineLabel.2.Open short none)
    (hd : a.defineLabel.2.defineLabel.2.Open (short + 1) none)
    (left : Grows 1 a.defineLabel.2.defineLabel.2 b)
    (left' : Clean 0 a.defineLabel.2.defineLabel.2 b)
    (right : Grows 1 (b.branch (.deciding decided) short) c)
    (right' : Clean 0 (b.branch (.deciding decided) short) c) :
    (c.conclude decided short).fault = none := by
  have hne : short + 1 ≠ short := Nat.succ_ne_self _
  -- The first operand, and the branch behind it.
  have hb : b.fault = none := left'.faultless hf (Nat.zero_le _)
  have depth₁ : b.depth = a.depth + 1 := by
    have depth := left.depth hb
    simp only [defineLabel] at depth
    omega
  have hb₁ : (b.branch (.deciding decided) short).fault = none :=
    (hs.grows left hb).faultless_branch _ hb (by rw [BranchKind.pops_deciding]; omega)
  have hs₁ := (hs.grows left hb).branch hb₁
  have hd₁ := (hd.grows left hb).branch_other _ (hs.grows left hb).lt hne hb₁
  rw [BranchKind.pops_deciding, depth₁, Nat.add_sub_cancel] at hs₁
  -- The second operand, and the branch behind it.
  have hc : c.fault = none := right'.faultless hb₁ (Nat.zero_le _)
  have depth₂ : c.depth = a.depth + 1 := by
    have depth := right.depth hc
    rw [depth_branch, BranchKind.pops_deciding] at depth
    omega
  have hs₂ := hs₁.grows right hc
  have hd₂ := hd₁.grows right hc
  have hc₁ : (c.branch (.deciding decided) short).fault = none :=
    Assembler.faultless_branch hc (by rw [BranchKind.pops_deciding]; omega) fun d hd => by
      rw [hs₂.label, Option.some.injEq] at hd
      rw [BranchKind.pops_deciding]
      omega
  have hs₃ := (hs₂.branch hc₁).emit (i := .loadBool !decided)
  have hd₃ := (hd₂.branch_other _ hs₂.lt hne hc₁).emit (i := .loadBool !decided)
  have depth₃ : ((c.branch (.deciding decided) short).emit (.loadBool !decided)).depth =
      a.depth + 1 := by
    rw [depth_emit, depth_branch, BranchKind.pops_deciding, depth₂]
    rfl
  rw [BranchKind.pops_deciding, depth₂, Nat.add_sub_cancel] at hs₃
  -- The jump behind it all, and the two labels.
  have hf₄ := hd₃.faultless_branch .always (faultless_emit hc₁ (Nat.zero_le _))
    (Nat.zero_le _)
  have hs₄ := hs₃.branch_other .always hd₃.lt hne.symm hf₄
  have hd₄ := hd₃.branch hf₄
  have at₄ := hs₄.depthAt (by simp [BranchKind.instruction, Instruction.isTransfer])
  have hf₅ := hs₄.faultless_mark hf₄ at₄
  have hd₅ := (hd₄.mark_other hs₄.lt hne hf₅).emit (i := .loadBool decided)
  refine hd₅.faultless_mark (faultless_emit hf₅ (Nat.zero_le _)) ?_
  rw [depthAt, reachable_emit, reachable_mark hf₅, depth_emit, depth_mark hf₅, at₄, depth₃]
  rfl

/-- `and` and `or` leave no branch that waits for a label without a place. -/
theorem resolved_logical (hd : short + 1 < b.labels.size) (left' : Clean 0 a b)
    (right : Grows 1 (b.branch (.deciding decided) short) c)
    (right' : Clean 0 (b.branch (.deciding decided) short) c)
    (hf : (c.conclude decided short).fault = none) {n : Nat} {l : Label}
    (hw : (c.conclude decided short).Awaits n l) :
    a.Awaits n l ∨ ∃ o, (c.conclude decided short).PlacedAt l o := by
  have hs : short < b.labels.size := Nat.lt_of_succ_lt hd
  have size := right.evolves.labels_le
  rw [labels_branch] at size
  have hs' : short < c.labels.size := Nat.lt_of_lt_of_le hs size
  have hd' : short + 1 < c.labels.size := Nat.lt_of_lt_of_le hd size
  have hf₆ := (fault_emit (fault_mark hf).1).1
  have hf₃ := (fault_emit (fault_branch (fault_mark hf₆).1).1).1
  have hf₂ := (fault_branch hf₃).1
  -- What comes behind each operand keeps the places of labels.
  have closes : Scribes 0 c (c.conclude decided short) := by
    refine .tail ?_ (.mark (Nat.zero_le _) (by simpa using hd'))
    refine .tail ?_ (.emit rfl fun _ h => by cases h)
    refine .tail ?_ (.mark (Nat.zero_le _) (by simpa using hs'))
    refine .tail ?_ (.branch (by decide) (Nat.zero_le _) (by simpa using hd'))
    refine .tail ?_ (.emit rfl fun _ h => by cases h)
    exact .single (.branch BranchKind.deciding_ne_leave (Nat.zero_le _) hs')
  have follows : Scribes 0 b _ :=
    .trans (.single (.branch BranchKind.deciding_ne_leave (Nat.zero_le _) hs))
      (.trans (right.scribes.weaken (Nat.zero_le _)) closes)
  have known : short + 1 < (((((c.branch (.deciding decided) short).emit
      (.loadBool !decided)).branch .always (short + 1)).mark short).emit
        (.loadBool decided)).labels.size := by simpa using hd'
  have behind : Scribes 0 _ _ :=
    .tail (.single (.emit rfl fun _ h => by cases h)) (.mark (Nat.zero_le _) known)
  have shortAt := behind.placedAt hf (placedAt_of_mark (by simpa using hs') hf₆)
  have doneAt := placedAt_of_mark known hf
  simp only [Awaits, fixups_mark, fixups_emit, fixups_branch, Array.mem_push, Prod.mk.injEq] at hw
  obtain (hw | ⟨-, rfl⟩) | ⟨-, rfl⟩ := hw
  · obtain hw | ⟨o, ho⟩ := right'.resolved hf₂ n l hw
    · simp only [Awaits, fixups_branch, Array.mem_push, Prod.mk.injEq] at hw
      obtain hw | ⟨-, rfl⟩ := hw
      · have hb := (fault_branch (right.evolves.fault hf₂)).1
        exact (left'.resolved hb n l hw).imp_right (Exists.imp fun _ => follows.placedAt hf)
      · exact .inr ⟨_, shortAt⟩
    · exact .inr ⟨o, closes.placedAt hf ho⟩
  · exact .inr ⟨_, shortAt⟩
  · exact .inr ⟨_, doneAt⟩

/-- `and` and `or`, with two new labels. -/
theorem Clean.logical (left : Grows 1 a.defineLabel.2.defineLabel.2 b)
    (left' : Clean 0 a.defineLabel.2.defineLabel.2 b)
    (right : Grows 1 (b.branch (.deciding decided) a.labels.size) c)
    (right' : Clean 0 (b.branch (.deciding decided) a.labels.size) c) :
    Clean 0 a (c.conclude decided a.labels.size) := by
  have new {l : Label} (hl : a.labels.size ≤ l) (hl' : l < a.labels.size + 2) :
      a.defineLabel.2.defineLabel.2.Open l none :=
    ⟨by rw [labels_defineLabel, labels_defineLabel]; exact hl',
      by rw [label_defineLabel, label_defineLabel, label_of_le hl]⟩
  have hs := new (Nat.le_refl _) (Nat.lt_add_of_pos_right (by decide))
  have hd := new (Nat.le_succ _) (Nat.lt_succ_self _)
  refine ⟨fun hf _ => faultless_logical hf hs hd left left' right right', fun hf n l hw => ?_⟩
  exact resolved_logical (Nat.lt_of_lt_of_le hd.lt left.evolves.labels_le) left' right right' hf hw

end Logical

end Assembler

/-- `and` and `or`. -/
theorem careful_lowerLogical {decidedBy : Bool} {left right : Emit Unit} (hl : Careful 0 1 left)
    (hr : Careful 0 1 right) : Careful 0 1 (lowerLogical decidedBy left right) where
  emits := emits_lowerLogical hl.emits hr.emits
  clean d _ d' hd h := by
    obtain ⟨d₁, d₂, hleft, hright, rfl⟩ := parts_of_ends_lowerLogical h
    have sound : (d.asm.defineLabel.2.defineLabel.2).slots.Sound := hd
    have grows₁ := hl.emits.grows (d := ⟨d.asm.defineLabel.2.defineLabel.2, d.nextSite⟩) sound hleft
    have clean₁ := hl.clean ⟨d.asm.defineLabel.2.defineLabel.2, d.nextSite⟩ _ _ sound hleft
    have sound₁ : (d₁.asm.branch (.deciding decidedBy) d.asm.labels.size).slots.Sound := by
      simpa using grows₁.sound hd
    have grows₂ := hr.emits.grows (d := ⟨d₁.asm.branch _ _, d₁.nextSite⟩) sound₁ hright
    have clean₂ := hr.clean ⟨d₁.asm.branch _ _, d₁.nextSite⟩ _ _ sound₁ hright
    dsimp only at grows₁ clean₁ grows₂ clean₂ ⊢
    exact Clean.logical grows₁ clean₁ grows₂ clean₂
  settled := by
    have branched {kind : BranchKind} {l : Label} : Succeeds (branch kind l) := succeeds_onAssembler
    have marked {l : Label} : Succeeds (mark l) := succeeds_onAssembler
    unfold lowerLogical
    obtain hl | hl := hl.settled
    · obtain hr | hr := hr.settled
      · exact .inl (succeeds_withAssembler.bind fun _ => succeeds_withAssembler.bind fun _ =>
          hl.bind fun _ => branched.bind fun _ => hr.bind fun _ => branched.bind fun _ =>
          succeeds_emit.bind fun _ => branched.bind fun _ => marked.bind fun _ =>
          succeeds_emit.bind fun _ => marked)
      · exact .inr (stops_bind fun _ => stops_bind fun _ => stops_bind fun _ => stops_bind
          fun _ => hr.bind)
    · exact .inr (stops_bind fun _ => stops_bind fun _ => hl.bind)

theorem careful_lowerBinary {op : BinaryOp} {left right : Emit Unit} (hl : Careful 0 1 left)
    (hr : Careful 0 1 right) : Careful 0 1 (lowerBinary op left right) := by
  unfold lowerBinary
  split
  · exact careful_lowerLogical hl hr
  · exact careful_lowerLogical hl hr
  · exact hl.bind (m := 1) (k := 0) (hr.bind (careful_emit rfl rfl (Nat.le_refl 2) rfl)
      (Nat.zero_le 1) (by omega) rfl) (Nat.le_refl 0) (by omega) rfl

/-- An entry takes nothing that was on the stack before. -/
structure LoweredEntry.Careful (entry : LoweredEntry) : Prop where
  key : ∀ key, entry.key = some key → StackScript.Careful 0 1 key
  value : StackScript.Careful 0 1 entry.value

theorem careful_pushEntries {keyed : Bool} (h : ∀ entry ∈ entries, entry.Careful) :
    Careful 0 (if keyed then entries.length * 2 else entries.length : Nat)
      (pushEntries keyed entries) := by
  induction entries with
  | nil => cases keyed <;> exact careful_pure
  | cons entry rest ih =>
    have rest := ih fun entry h' => h entry (List.mem_cons_of_mem _ h')
    obtain ⟨hkey, hvalue⟩ := h entry List.mem_cons_self
    unfold pushEntries
    cases keyed with
    | false =>
      refine hvalue.bind rest (Nat.le_refl 0) (by omega) ?_
      simp only [Bool.false_eq_true, if_false, List.length_cons]
      omega
    | true =>
      have key : StackScript.Careful 0 1 (entry.key.getD (emit .loadNull)) := by
        cases he : entry.key with
        | none => exact careful_emit rfl rfl (Nat.le_refl 0) rfl
        | some key => exact hkey key he
      refine key.bind (hvalue.bind rest (Nat.le_refl 0) (by omega) rfl) (Nat.le_refl 0) (by omega)
        ?_
      simp only [if_true, List.length_cons]
      omega

theorem careful_lowerArray (h : ∀ entry ∈ entries, entry.Careful) :
    Careful 0 1 (lowerArray entries) := by
  unfold lowerArray
  refine (careful_pushEntries h).bind (careful_emit rfl rfl (Nat.le_refl _) rfl) (Nat.le_refl 0) ?_
    ?_
  · simp only [Instruction.pops]
    split <;> omega
  · simp only [Instruction.change, Instruction.pops, Instruction.pushes]
    omega

/-! ## Expressions and statements -/

/-- **The code of an expression** takes nothing that was on the stack before. -/
theorem careful_lower : (lower env e).Careful := by
  induction e using Expr.induction with
  | literal value =>
    rw [lower]
    exact careful_ofValue (careful_loadLiteral value)
  | var name =>
    rw [lower]
    exact careful_ofValue (careful_loadVariable name)
  | assign target value ih =>
    rw [lower]
    refine ⟨?_, ih.value.bind (careful_storeVariable target) (Nat.le_refl 0) (by omega) rfl⟩
    exact ih.value.bind (m := 1) (k := 0) ((careful_emit rfl rfl (Nat.le_refl 1) rfl).bind
      (careful_storeVariable target) (Nat.le_refl 1) (by decide) rfl) (Nat.le_refl 0) (by omega) rfl
  | binary op left right ihl ihr =>
    rw [lower]
    exact careful_ofValue (careful_lowerBinary ihl.value ihr.value)
  | unary op operand ih =>
    rw [lower]
    exact careful_ofValue (ih.value.bind (careful_emit rfl rfl (Nat.le_refl 1) rfl) (Nat.le_refl 0)
      (by omega) rfl)
  | call function args ih =>
    rw [lower, lowerAll_eq]
    refine careful_ofValue (careful_lowerCall fun code hcode => ?_)
    obtain ⟨arg, harg, rfl⟩ := List.mem_map.mp hcode
    exact ih arg harg
  | methodCall receiver name args receiverType ihr ihn iha =>
    rw [lower, lowerArguments_eq]
    refine careful_ofValue (careful_lowerMethodCall ihr.value ?_ fun code hcode => ?_)
    · cases name with
      | direct name => rw [lowerName]; exact trivial
      | computed value => rw [lowerName]; exact (ihn value List.mem_cons_self).value
    · obtain ⟨arg, harg, rfl⟩ := List.mem_map.mp hcode
      rw [code_lowerArgument]
      exact iha arg harg
  | create type args ih =>
    rw [lower, lowerAll_eq]
    refine careful_ofValue (careful_lowerCreate fun code hcode => ?_)
    obtain ⟨arg, harg, rfl⟩ := List.mem_map.mp hcode
    exact ih arg harg
  | this =>
    rw [lower]
    exact careful_ofValue careful_loadThis
  | fieldLoad receiver field ih =>
    rw [lower]
    exact careful_ofValue (ih.value.bind (careful_emit rfl rfl (Nat.le_refl 1) rfl) (Nat.le_refl 0)
      (by omega) rfl)
  | fieldStore receiver field value ihr ihv =>
    rw [lower]
    refine ⟨careful_lowerFieldStore ihr.value ihv.value, ?_⟩
    exact ihr.value.bind (m := 1) (k := -1) (ihv.value.bind
      (careful_emit rfl rfl (Nat.le_refl 2) rfl) (Nat.zero_le 1) (by omega) rfl) (Nat.le_refl 0)
      (by omega) rfl
  | staticLoad type field =>
    rw [lower]
    exact careful_ofValue careful_loadStatic
  | staticStore type field value ih =>
    rw [lower]
    exact ⟨careful_storeStatic true ih.value, careful_storeStatic false ih.value⟩
  | array entries ih =>
    rw [lower, lowerEntries_eq]
    refine careful_ofValue (careful_lowerArray fun code hcode => ?_)
    obtain ⟨entry, hentry, rfl⟩ := List.mem_map.mp hcode
    have ih := ih entry hentry
    cases entry with
    | item value =>
      rw [lowerEntry]
      exact ⟨fun _ h => by simp at h, (ih value List.mem_cons_self).value⟩
    | keyed key value =>
      rw [lowerEntry]
      refine ⟨fun code hcode => ?_,
        (ih value (List.mem_cons_of_mem _ List.mem_cons_self)).value⟩
      cases hcode
      exact (ih key List.mem_cons_self).value
  | instanceOf value type ih =>
    rw [lower]
    exact careful_ofValue (ih.value.bind (careful_emit rfl rfl (Nat.le_refl 1) rfl) (Nat.le_refl 0)
      (by omega) rfl)

theorem careful_emitValue : Careful 0 1 (emitValue env e) := (careful_lower e).value

theorem careful_emitEffect : Careful 0 0 (emitEffect env e) := (careful_lower e).effect

theorem emits_emitValue : Emits 1 (emitValue env e) := (careful_emitValue e).emits

theorem emits_storeVariable : Emits (-1) (storeVariable env name) :=
  (careful_storeVariable name).emits

theorem careful_emitAction (action : Action) : Careful 0 0 (emitAction env action) := by
  cases action with
  | eval value => exact careful_emitEffect value
  | echo value =>
    have pushed : Careful 0 (1 : Nat) (emitValue env value) := careful_emitValue value
    exact careful_onContext pushed rfl rfl (Nat.le_refl 2) rfl rfl
  | «return» value =>
    have store : Careful 1 (-1) (do emit (.storeLocal (← withSlots (·.result)))) := by
      refine ⟨emits_storeResult, fun d _ d' _ h => ?_,
        .inl (succeeds_withAssembler.bind fun _ => succeeds_emit)⟩
      obtain rfl := ends_emit_handed.mp h
      exact clean_emit_slots _ (Nat.le_refl 1)
    cases value with
    | some value => exact (careful_emitValue value).bind store (Nat.le_refl 0) (by omega) rfl
    | none =>
      exact (careful_emit rfl rfl (Nat.le_refl 0) rfl).bind store (Nat.le_refl 0) (by decide) rfl
  | throw value =>
    exact (careful_emitValue value).bind (careful_emit rfl rfl (Nat.le_refl 1) rfl) (Nat.le_refl 0)
      (by omega) rfl

theorem careful_emitStatement : Careful 0 0 (emitStatement env statement) := by
  have point (span : Span) : Careful 0 0 (onAssembler (·.sequencePoint span)) := by
    refine ⟨emits_sequencePoint span, fun d _ d' _ h => ?_, .inl succeeds_onAssembler⟩
    rw [ends_onAssembler.mp h]
    exact (Clean.refl d.asm).congr rfl rfl rfl rfl rfl rfl
  unfold emitStatement
  split
  · cases statement.span with
    | some span =>
      exact (point span).bind (careful_emitAction _) (Nat.le_refl 0) (by omega) rfl
    | none => exact careful_emitAction _
  · exact careful_emitAction _

/-- **The code of statements** takes nothing that was on the stack before. -/
theorem careful_emitStatements : Careful 0 0 (emitStatements env statements) := by
  induction statements with
  | nil => exact careful_pure
  | cons statement rest ih =>
    exact (careful_emitStatement statement).bind ih (Nat.le_refl 0) (by omega) rfl

theorem emits_emitStatement : Emits 0 (emitStatement env statement) :=
  (careful_emitStatement statement).emits

theorem emits_emitStatements :
    Emits 0 (emitStatements env statements) := (careful_emitStatements statements).emits

end StackScript
