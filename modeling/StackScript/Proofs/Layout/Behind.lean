import StackScript.Proofs.Layout.Abreast
import StackScript.Proofs.Layout.Owed
import StackScript.Proofs.Writing.Behind
import StackScript.Proofs.Writing.Settings

/-!
# Layouts behind a prologue

The code of a graph is laid out behind a prologue as without it. The places of statements may be
noted on the way: to note one keeps the code in front of it, but statements stand where no jump
could be taken back anyhow, so the code stays the same.

## Main definitions

* `Draft.Behind`: drafts of the same code, one of them behind a prologue

## Main results

* `Written.behind`: code that is written in one piece
* `Draft.Behind.tandem`: whatever a layout writes
* `layOut_behind`: whole layouts
-/

namespace StackScript

open Emit Arrange

/-- **Drafts of the same code**, the first of them behind a prologue. The same jumps may be taken
back in both, and none at all in `firm` ones. -/
structure Draft.Behind (p : Prologue) (firm : Prop) (d d' : Draft) : Prop where
  code : ∃ pinned points, d.asm = d'.asm.behind p pinned points
  nextSite : d.nextSite = d'.nextSite
  pinned_le : d.asm.pinned ≤ d.asm.code.size
  pinned_le' : d'.asm.pinned ≤ d'.asm.code.size
  ends : ∀ l, d.asm.endsInJumpTo l = d'.asm.endsInJumpTo l
  firm : firm → d'.asm.Firm

variable {p : Prologue} {F F' : Prop} {d d' : Draft} {env : BodyEnv}

namespace Draft.Behind

/-! ## Single touches -/

theorem weaken (h : d.Behind p F d') (weaker : F' → F) : d.Behind p F' d' :=
  { h with firm := fun f => h.firm (weaker f) }

/-- Where no jump may be taken back in either draft. -/
theorem of_firm {pinned : Nat} {points : Array SequencePoint}
    (code : d.asm = d'.asm.behind p pinned points) (nextSite : d.nextSite = d'.nextSite)
    (pinned_le : d.asm.pinned ≤ d.asm.code.size) (pinned_le' : d'.asm.pinned ≤ d'.asm.code.size)
    (firm : d.asm.Firm) (firm' : d'.asm.Firm) : d.Behind p F d' :=
  ⟨⟨pinned, points, code⟩, nextSite, pinned_le, pinned_le',
    fun l => (firm l).trans (firm' l).symm, fun _ => firm'⟩

theorem emit (h : d.Behind p F d') {i : Instruction} (straight : i.target? = none) :
    Behind p F' { d with asm := d.asm.emit i } { d' with asm := d'.asm.emit i } := by
  obtain ⟨pinned, points, code⟩ := h.code
  refine of_firm ((congrArg (·.emit i) code).trans (Assembler.emit_behind p pinned points i))
    h.nextSite ?_ ?_ (Assembler.firm_emit straight) (Assembler.firm_emit straight)
  · simpa using Nat.le_succ_of_le h.pinned_le
  · simpa using Nat.le_succ_of_le h.pinned_le'

/-- A branch that is no plain jump is not taken back. -/
theorem branch (h : d.Behind p F d') {kind : BranchKind} (l : Label) (keeps : F' → kind ≠ .always) :
    Behind p F' { d with asm := d.asm.branch kind l } { d' with asm := d'.asm.branch kind l } := by
  obtain ⟨pinned, points, code⟩ := h.code
  have ends {asm : Assembler} (le : asm.pinned ≤ asm.code.size) (k : Label) :
      (asm.branch kind l).endsInJumpTo k = decide (kind = .always ∧ l = k) := by
    rw [Bool.eq_iff_iff, decide_eq_true_iff]
    exact Assembler.endsInJumpTo_branch le
  refine ⟨⟨pinned, points, ?_⟩, h.nextSite, ?_, ?_, fun k => ?_, fun f k => ?_⟩
  · rw [code, Assembler.branch_behind]
  · simpa using Nat.le_succ_of_le h.pinned_le
  · simpa using Nat.le_succ_of_le h.pinned_le'
  · rw [ends h.pinned_le, ends h.pinned_le']
  · rw [ends h.pinned_le', decide_eq_false_iff_not]
    exact fun is => keeps f is.1

/-- What changes neither the code nor which of it is kept. -/
theorem same {f : Assembler → Assembler} (h : d.Behind p F d')
    (commutes : ∀ asm pinned points, f (asm.behind p pinned points) = (f asm).behind p pinned points)
    (code : ∀ asm, (f asm).code = asm.code) (fixups : ∀ asm, (f asm).fixups = asm.fixups)
    (pinned : ∀ asm, (f asm).pinned = asm.pinned) :
    Behind p F { d with asm := f d.asm } { d' with asm := f d'.asm } := by
  obtain ⟨kept, points, behind⟩ := h.code
  have ends (asm : Assembler) (l : Label) : (f asm).endsInJumpTo l = asm.endsInJumpTo l := by
    unfold Assembler.endsInJumpTo
    rw [code, fixups, pinned]
  refine ⟨⟨kept, points, ?_⟩, h.nextSite, ?_, ?_, fun l => ?_, fun f' l => ?_⟩
  · rw [behind, commutes]
  · simpa only [pinned, code] using h.pinned_le
  · simpa only [pinned, code] using h.pinned_le'
  · rw [ends, ends, h.ends]
  · rw [ends]
    exact h.firm f' l

theorem pin (h : d.Behind p F d') :
    Behind p F' { d with asm := d.asm.pin } { d' with asm := d'.asm.pin } := by
  obtain ⟨pinned, points, code⟩ := h.code
  exact of_firm ((congrArg (·.pin) code).trans (Assembler.pin_behind p pinned points)) h.nextSite
    (Nat.le_refl _) (Nat.le_refl _) Assembler.firm_pin Assembler.firm_pin

theorem mark (h : d.Behind p F d') (l : Label) :
    Behind p F' { d with asm := d.asm.mark l } { d' with asm := d'.asm.mark l } := by
  obtain ⟨pinned, points, code⟩ := h.code
  have le (asm : Assembler) : (asm.mark l).pinned ≤ (asm.mark l).code.size :=
    Nat.le_of_eq (by rw [Assembler.pinned_mark, Assembler.code_mark])
  exact of_firm ((congrArg (·.mark l) code).trans (Assembler.mark_behind p pinned points l))
    h.nextSite (le _) (le _) (Assembler.firm_mark l) (Assembler.firm_mark l)

/-- The label of a block gets its place: a jump to it is taken back in both drafts or in neither. -/
theorem place (h : d.Behind p F d') (l : Label) :
    Behind p F' { d with asm := d.asm.place l } { d' with asm := d'.asm.place l } := by
  obtain ⟨pinned, points, code⟩ := h.code
  have le (asm : Assembler) : (asm.place l).pinned ≤ (asm.place l).code.size :=
    Nat.le_of_eq (by rw [Assembler.place, Assembler.pinned_mark, Assembler.code_mark])
  have ends := h.ends l
  rw [code] at ends
  have elided : d.asm.elide l = (d'.asm.elide l).behind p pinned points :=
    (congrArg (·.elide l) code).trans (Assembler.elide_behind p pinned points ends)
  exact of_firm ((congrArg (·.mark l) elided).trans (Assembler.mark_behind p pinned points l))
    h.nextSite (le _) (le _) (Assembler.firm_mark l) (Assembler.firm_mark l)

theorem sequencePoint (h : d.Behind p F d') (span : Span) :
    Behind p F' { d with asm := d.asm.sequencePoint span }
      { d' with asm := d'.asm.sequencePoint span } := by
  obtain ⟨pinned, points, code⟩ := h.code
  exact of_firm ((congrArg (·.sequencePoint span) code).trans
    (Assembler.sequencePoint_behind p pinned points span)) h.nextSite (Nat.le_refl _)
    (Nat.le_refl _) (Assembler.firm_sequencePoint span) (Assembler.firm_sequencePoint span)

/-- **To note a place changes nothing** where no jump may be taken back. -/
theorem note (h : d.Behind p True d') (span : Span) :
    Behind p True { d with asm := d.asm.sequencePoint span } d' := by
  obtain ⟨pinned, points, code⟩ := h.code
  have noted : d.asm.sequencePoint span = d'.asm.behind p (d'.asm.offset + p.size)
      (points.push ⟨d'.asm.offset + p.size, span⟩) :=
    (congrArg (·.sequencePoint span) code).trans
      (Assembler.sequencePoint_behind p pinned points span)
  exact of_firm noted h.nextSite (Nat.le_refl _) h.pinned_le' (Assembler.firm_sequencePoint span)
    (h.firm trivial)

/-! ## Code in one piece -/

theorem onAssembler {f : Assembler → Assembler}
    (h : ∀ {d d' : Draft}, d.Behind p F d' →
      Behind p F' { d with asm := f d.asm } { d' with asm := f d'.asm }) :
    Brings (Behind p F) (Behind p F') Eq (onAssembler f) (onAssembler f) :=
  .change fun _ _ => h

/-- A new label has the same number. -/
theorem defineLabel : Abreast (Behind p F) Eq defineLabel defineLabel := by
  intro d d' h
  obtain ⟨pinned, points, code⟩ := h.code
  have labels : d.asm.labels.size = d'.asm.labels.size := by
    rw [code]
    exact Array.size_map
  refine ⟨.ok labels, h.same (f := (·.defineLabel.2)) (fun asm pinned points => ?_) (fun _ => rfl)
    (fun _ => rfl) fun _ => rfl⟩
  rw [Assembler.defineLabel_behind]

/-- A change of the slots is the same change. -/
theorem slots (h : d.Behind p F d') (f : Slots → Slots) :
    Behind p F { d with asm := { d.asm with slots := f d.asm.slots } }
      { d' with asm := { d'.asm with slots := f d'.asm.slots } } :=
  h.same (f := fun asm => { asm with slots := f asm.slots }) (fun _ _ _ => rfl) (fun _ => rfl)
    (fun _ => rfl) fun _ => rfl

theorem withSlots (f : Slots → LocalId × Slots) :
    Abreast (Behind p F) Eq (withSlots f) (withSlots f) := by
  intro d d' h
  obtain ⟨pinned, points, code⟩ := h.code
  have same : d.asm.slots = d'.asm.slots := by
    rw [code]
    rfl
  exact ⟨.ok (congrArg (fun slots => (f slots).1) same), h.slots fun slots => (f slots).2⟩

end Draft.Behind

/-- **Code that is written in one piece** is written behind the prologue as well. -/
theorem Written.behind {item : WorkItem} {a b : Shape} {α : Type} {step : Emit α}
    (h : Written env item a b step) : Abreast (Draft.Behind p F) Eq step step := by
  have emitted {i : Instruction} (straight : i.target? = none) :
      Abreast (Draft.Behind p F) Eq (Emit.emit i) (Emit.emit i) :=
    Draft.Behind.onAssembler fun h => h.emit straight
  have tested {kind : BranchKind} (l : Label) (test : kind ≠ .always) :
      Abreast (Draft.Behind p F) Eq (Emit.branch kind l) (Emit.branch kind l) :=
    Draft.Behind.onAssembler fun h => h.branch l fun _ => test
  have marked (G : Prop) (l : Label) : Brings (Draft.Behind p G) (Draft.Behind p F) Eq
      (Emit.mark l) (Emit.mark l) := Draft.Behind.onAssembler fun h => h.mark l
  induction h with
  | pure => exact .pure rfl
  | throw cause => exact .throw cause
  | bind _ _ ih ih' => exact ih.next ih'
  | forget _ _ ih => exact ih
  | emit _ target => exact emitted target
  | site call _ ih =>
    refine ih.next fun _ => Abreast.next (fun d d' h => ?_) fun _ => emitted rfl
    exact ⟨.ok h.nextSite, { h with nextSite := congrArg (· + 1) h.nextSite }⟩
  | slot f => exact Draft.Behind.withSlots f
  | release id => exact .change fun _ _ h => h.slots fun slots => slots.release id
  | sequencePoint span => exact Draft.Behind.onAssembler fun h => h.sequencePoint span
  | logical decidedBy _ _ ihl ihr =>
    have test : BranchKind.deciding decidedBy ≠ .always := BranchKind.deciding_ne_always
    refine Draft.Behind.defineLabel.next fun short => Draft.Behind.defineLabel.next fun done =>
      ihl.next fun _ => (tested short test).next fun _ => ihr.next fun _ =>
        (tested short test).next fun _ => (emitted rfl).next fun _ => ?_
    -- The jump over the rest might be taken back, but the label behind it is another one.
    have jumped : Brings (Draft.Behind p F) (Draft.Behind p False) Eq (Emit.branch .always done)
        (Emit.branch .always done) := Draft.Behind.onAssembler fun h => h.branch done False.elim
    exact jumped.after (fun d => ⟨⟨⟩, _, ends_branch.mpr rfl⟩) fun _ _ _ =>
      (marked False short).next (fun _ _ => id) fun _ => Abreast.next (emitted rfl) fun _ =>
        marked F done
  | skip _ _ iht ihc =>
    exact Draft.Behind.defineLabel.next fun skip => iht.next fun _ =>
      (tested skip BranchKind.noConfusion).next fun _ => ihc.next fun _ => marked F skip

/-! ## Statements -/

/-- The place of a statement is noted if that is asked for. -/
def notePlace (settings : Settings) (statement : Statement) : Emit Unit :=
  match settings.sequencePoints, statement.span with
  | true, some span => onAssembler (·.sequencePoint span)
  | _, _ => pure ()

theorem emitStatement_eq (env : BodyEnv) (statement : Statement) :
    emitStatement env statement =
      notePlace env.settings statement >>= fun _ => emitAction env statement.action := by
  unfold emitStatement notePlace
  cases env.settings.sequencePoints
  · rfl
  · cases statement.span <;> rfl

variable {settings : Settings}

/-- **The places of statements may be noted** in one draft and not in the other. -/
theorem emitStatements_behind (settings : Settings) (item : WorkItem)
    (unnoted : env.settings.sequencePoints = false)
    (statements : List Statement) :
    Abreast (Draft.Behind p True) Eq (emitStatements (env.withSettings settings) statements)
      (emitStatements env statements) := by
  have noted (statement : Statement) : Abreast (Draft.Behind p True) Eq
      (notePlace settings statement) (notePlace env.settings statement) := by
    have without : notePlace env.settings statement = pure () := by rw [notePlace, unnoted]
    rw [without, notePlace]
    split
    · exact fun d d' h => ⟨.ok rfl, h.note _⟩
    · exact .pure rfl
  induction statements with
  | nil => exact .pure rfl
  | cons statement rest ih =>
    have acts : Written env item .blank .blank (emitAction env statement.action) :=
      written_emitAction statement.action
    unfold emitStatements
    rw [emitStatement_eq, emitStatement_eq, emitAction_withSettings]
    exact ((noted statement).next fun _ => acts.behind).next fun _ => ih

/-! ## Layouts -/

/-- **Whatever a layout writes**, it writes behind the prologue as well. -/
theorem Draft.Behind.tandem (item : WorkItem) (unnoted : env.settings.sequencePoints = false) :
    Tandem (env.withSettings settings) env (fun n n' => n = n' + p.size) (Draft.Behind p False) where
  params := rfl
  hasContext := rfl
  seen d d' h := by
    obtain ⟨pinned, points, code⟩ := h.code
    refine ⟨?_, ?_, ?_, ?_, ?_⟩ <;> rw [code]
    · exact Assembler.offset_behind p pinned points
    · exact Array.size_map
    all_goals rfl
  move f move d d' h := by
    -- The prologue has no label and no branch, so every single move stays behind it.
    cases move with
    | touch touch =>
      cases touch with
      | emit _ straight => exact h.emit straight
      | branch kind l => exact h.branch l False.elim
      | defineLabel => exact (Draft.Behind.defineLabel d d' h).2
      | mark l => exact h.mark l
      | slots f => exact h.slots f
      | sequencePoint span => exact h.sequencePoint span
    | place l => exact h.place l
    | pin => exact h.pin
    | beginHandler depth =>
      exact h.same (f := (·.beginHandler depth))
        (fun _ pinned points => Assembler.beginHandler_behind p pinned points depth) (fun _ => rfl)
        (fun _ => rfl) fun _ => rfl
  value e := by
    have written : Written env item .blank _ (emitValue env e) := written_emitValue e
    rw [emitValue_withSettings]
    exact written.behind
  statements statements := by
    rintro _ _ ⟨l, d, d', h, rfl, rfl⟩
    obtain ⟨results, drafts⟩ := emitStatements_behind settings item unnoted statements
      _ _ (h.place l)
    exact ⟨results, drafts.weaken fun _ => trivial⟩

/-- A region where all code is so many places further on. -/
def Region.shift (k : Nat) (region : Region) : Region where
  kind := region.kind
  tryStart := region.tryStart + k
  tryEnd := region.tryEnd + k
  handlerStart := region.handlerStart + k
  handlerEnd := region.handlerEnd + k

/-- A layout behind a prologue, with other places noted. -/
def Layout.behind (p : Prologue) (points : List SequencePoint) (layout : Layout) : Layout where
  assembled := layout.assembled.behind p points
  blockOffsets := layout.blockOffsets.map fun (b, n) => (b, n + p.size)
  regions := layout.regions.map (·.shift p.size)

/-- Lists whose entries belong together as the entries of one do with what they are mapped to. -/
theorem eq_map_of_forall₂ {α : Type} {R : α → α → Prop} {f : α → α}
    (h : ∀ x y, R x y → x = f y) {xs ys : List α} (all : List.Forall₂ R xs ys) : xs = ys.map f := by
  induction all with
  | nil => rfl
  | cons head _ ih => rw [List.map_cons, ← h _ _ head, ih]

/-- **A graph is laid out behind a prologue as without it**, and whether places are noted does not
matter. -/
theorem layOut_behind (env : BodyEnv) (settings : Settings) (item : WorkItem) (graph : Graph)
    (unnoted : env.settings.sequencePoints = false)
    (limit : settings.maxLocals = env.settings.maxLocals) (h : d.Behind p False d')
    (evolves : Assembler.Evolves .empty d'.asm) (fresh : ∀ n l, ¬ d'.asm.Awaits n l) :
    ∃ points, (layOut (env.withSettings settings) graph d).1 =
        (layOut env graph d').1.map (·.behind p points) ∧
      (layOut (env.withSettings settings) graph d).2.nextSite =
        (layOut env graph d').2.nextSite := by
  have along : LayoutState.Along (fun n n' => n = n' + p.size) (Draft.Behind p False) (.start d)
      (.start d') := ⟨h, rfl, rfl, .nil, .nil, rfl, rfl, rfl, rfl⟩
  -- The two layouts make the same steps, one with its code moved by the prologue.
  have tandem : Tandem (env.withSettings settings) env _ (Draft.Behind p False) :=
    Draft.Behind.tandem item unnoted
  have side : Abreast _ Eq (placeAll ⟨env.withSettings settings, graph, protectedRanges graph⟩)
      (placeAll ⟨env, graph, protectedRanges graph⟩) := tandem.placeAll
  obtain ⟨results, states⟩ := side _ _ along
  have resolved {s' : LayoutState} (ends : Ends (placeAll ⟨env, graph, protectedRanges graph⟩)
      (.start d') () s') := resolved_of_ends_placeAll item evolves fresh ends
  unfold layOut
  generalize (placeAll ⟨env.withSettings settings, graph, protectedRanges graph⟩).run (.start d) =
    run at results states ⊢
  generalize ran : (placeAll ⟨env, graph, protectedRanges graph⟩).run (.start d') =
    run' at results states ⊢
  obtain ⟨result, s⟩ := run
  obtain ⟨result', s'⟩ := run'
  cases results with
  | error cause => exact ⟨[], rfl, states.draft.nextSite⟩
  | ok same =>
    have sound := resolved ran
    obtain ⟨pinned, points, code⟩ := states.draft.code
    refine ⟨points.toList, ?_, states.draft.nextSite⟩
    have finished : s.draft.asm.finish settings.maxLocals =
        (s'.draft.asm.finish env.settings.maxLocals).map (·.behind p points.toList) := by
      rw [limit, code]
      exact Assembler.finish_behind (fun hf => (sound hf).1) fun hf => (sound hf).2
    have offsets : s.blockOffsets.toList = s'.blockOffsets.toList.map fun (b, n) => (b, n + p.size) :=
      eq_map_of_forall₂ (fun x y h => Prod.ext h.1 h.2) states.blockOffsets
    have regions : s.regions.toList = s'.regions.toList.map (·.shift p.size) := by
      refine eq_map_of_forall₂ (fun x y h => ?_) states.regions
      obtain ⟨kind, tryStart, tryEnd, handlerStart, handlerEnd⟩ := x
      obtain ⟨rfl, rfl, rfl, rfl, rfl⟩ := h
      rfl
    have limits : (env.withSettings settings).settings.maxLocals = settings.maxLocals := rfl
    simp only [limits, finished, offsets, regions]
    cases s'.draft.asm.finish env.settings.maxLocals <;> rfl

end StackScript
