import StackScript.Proofs.Layout.Jumps

/-!
# What branches aim at

Every branch waits for a label: the label of a block, which stands where the block starts, or a
label inside a block, which stands in the scopes of the branch. So it is known of every branch in
which scopes it ends, long before its label has a place.

## Main definitions

* `Chart.Aims`: where a branch to a block may go
* `Chart.Aimed`: the branches and the labels of a layout go where they may

## Main results

* `Chart.Aimed.step`: every step keeps them so
-/

namespace StackScript

open Emit Arrange

theorem BranchKind.instruction_inj {kind kind' : BranchKind} {n : Nat}
    (h : kind.instruction n = kind'.instruction n) : kind = kind' := by
  cases kind <;> cases kind' <;> first | rfl | cases h

namespace Chart

variable {env : LayoutEnv} {c c' : Chart} {path : Path} {b : BlockId} {o : Nat}

/-- A branch in the scopes of a path may go to the block: a `leave` where a `leave` may go, another
branch to a block of the same scope, or to the exit from outside all scopes. -/
def Aims (env : LayoutEnv) (c : Chart) (path : Path) (b : BlockId) (kind : BranchKind) : Prop :=
  if kind = .leave then c.LeaveTo env path b
  else b ≠ Graph.exit ∧ innermost? env.ranges b = (scopeOf path).range ∨
    b = Graph.exit ∧ path = []

/-- The branches and the labels of a layout go where they may. -/
structure Aimed (env : LayoutEnv) (c : Chart) : Prop where
  injective : ∀ {a b l}, c.state.labels.lookup a = some l → c.state.labels.lookup b = some l →
    a = b
  blocks : ∀ {b l o}, c.state.labels.lookup b = some l → c.state.asm.PlacedAt l o →
    ∃ x ∈ c.placements, x.block = b ∧ c.Lands x.path o
  /-- The labels of the block that is being written. -/
  inner : ∀ {l o}, c.base ≤ l → (∀ b, c.state.labels.lookup b ≠ some l) →
    c.state.asm.PlacedAt l o → c.Lands c.path o
  jumps : ∀ {n l b kind}, c.state.asm.Awaits n l →
    c.state.asm.code[n]? = some (BranchKind.instruction kind 0) →
    c.state.labels.lookup b = some l → c.Aims env (c.cells n).path b kind
  skips : ∀ {n l kind}, c.state.asm.Awaits n l →
    c.state.asm.code[n]? = some (BranchKind.instruction kind 0) →
    (∀ b, c.state.labels.lookup b ≠ some l) → kind ≠ .leave ∧
      (∀ o, c.state.asm.PlacedAt l o → c.Lands (c.cells n).path o) ∧
      (c.base ≤ l → (c.cells n).path = c.path)
  ends : ∀ {n}, c.state.asm.code[n]? = some .endFinally →
    ∃ next, (scopeOf (c.cells n).path).kind = .finally next

theorem Aims.mono {kind : BranchKind} (h : c.Aims env path b kind)
    (hl : c.LeaveTo env path b → c'.LeaveTo env path b) : c'.Aims env path b kind := by
  unfold Aims at h ⊢
  split at h
  · rw [if_pos ‹_›]
    exact hl h
  · rw [if_neg ‹_›]
    exact h

theorem aimed_start {draft : Draft} (h : draft.asm.Sound)
    (hplain : ∀ i ∈ draft.asm.code, i.isPlain = true) : (start draft).Aimed env := by
  have plain {n : Nat} {i : Instruction} (hi : draft.asm.code[n]? = some i) : i.isPlain = true :=
    hplain i (Array.mem_of_getElem? hi)
  refine ⟨fun ha => (by cases ha), fun hb => (by cases hb), fun {l o} _ _ ho => ?_,
    fun _ _ hb => (by cases hb), fun {n l kind} _ hi => ?_, fun hi => (by cases plain hi)⟩
  · obtain ⟨hpinned, hend⟩ := h.placed ho
    exact ⟨hpinned, hend.imp (fun hlt => ⟨hlt, .refl⟩) fun ⟨he, hr⟩ => ⟨he, hr, .refl⟩⟩
  · have := plain hi
    cases kind <;> cases this

/-- Steps between blocks: no branch, and no label gets a place. -/
theorem Aimed.frame (h : c.Aimed env) (hsound : c.state.asm.Sound)
    (hlabels : c'.state.labels = c.state.labels)
    (hplacements : c'.placements = c.placements)
    (hcode : ∀ {n i}, c'.state.asm.code[n]? = some i → i.target? ≠ none ∨ i = .endFinally →
      n < c.size ∧ c.state.asm.code[n]? = some i)
    (hcells : ∀ n < c.size, c'.cells n = c.cells n)
    (hwaits : ∀ {n l}, c'.state.asm.Awaits n l → c.state.asm.Awaits n l)
    (hplaced : ∀ {l o}, c'.state.asm.PlacedAt l o → c.state.asm.PlacedAt l o)
    (hbase : c'.base = c.base ∧ c'.path = c.path ∨ c.state.asm.labels.size ≤ c'.base)
    (hlands : ∀ {path o}, c.Lands path o → c'.Lands path o)
    (hleave : ∀ {path b}, c.LeaveTo env path b → c'.LeaveTo env path b) : c'.Aimed env := by
  have branch {n : Nat} {kind : BranchKind}
      (hi : c'.state.asm.code[n]? = some (kind.instruction 0)) :
      n < c.size ∧ c.state.asm.code[n]? = some (kind.instruction 0) :=
    hcode hi (.inl (by cases kind <;> rintro ⟨⟩))
  refine ⟨fun {a b l} => ?_, fun {b l o} hb ho => ?_, fun {l o} hl hother ho => ?_,
    fun {n l b kind} hw hi hb => ?_, fun {n l kind} hw hi hother => ?_, fun {n} hi => ?_⟩
  · rw [hlabels]
    exact h.injective
  · rw [hlabels] at hb
    rw [hplacements]
    obtain ⟨x, hx, hxb, lands⟩ := h.blocks hb (hplaced ho)
    exact ⟨x, hx, hxb, hlands lands⟩
  · -- A label of an inner skip: either nothing of that kind was opened or closed since, or the
    -- labels from the base on are new and have no place yet.
    rw [hlabels] at hother
    obtain ⟨hbase, hpath⟩ | hbase := hbase
    · rw [hpath]
      exact hlands (h.inner (hbase ▸ hl) hother (hplaced ho))
    · exact (Nat.lt_irrefl _ (Nat.lt_of_lt_of_le (hplaced ho).lt (Nat.le_trans hbase hl))).elim
  · rw [hlabels] at hb
    obtain ⟨hn, hi⟩ := branch hi
    rw [hcells n hn]
    exact (h.jumps (hwaits hw) hi hb).mono hleave
  · rw [hlabels] at hother
    obtain ⟨hn, hi⟩ := branch hi
    rw [hcells n hn]
    obtain ⟨hk, lands, path⟩ := h.skips (hwaits hw) hi hother
    refine ⟨hk, fun o ho => hlands (lands o (hplaced ho)), fun hl => ?_⟩
    obtain ⟨hbase, hpath⟩ | hbase := hbase
    · rw [hpath]
      exact path (hbase ▸ hl)
    · have hlt := (hsound.waiting (hwaits hw)).1
      exact (Nat.lt_irrefl _ (Nat.lt_of_lt_of_le hlt (Nat.le_trans hbase hl))).elim
  · obtain ⟨hn, hi⟩ := hcode hi (.inr rfl)
    rw [hcells n hn]
    exact h.ends hi

/-- Only outside all parts is the scope the root. -/
theorem Staged.path_of_root (h : c.Staged env) (hr : c.scope.kind = .root) : c.path = [] := by
  obtain hnil | ⟨stage, hs, hpath⟩ := h.known_path
  · exact hnil
  · rw [Chart.scope, ← hpath] at hr
    have hr : stage.part.kind = .root := hr
    obtain ⟨hk, -⟩ | ⟨hk, -⟩ | ⟨_, hk, -⟩ := Graph.mem_parts (h.mem_parts hs) <;>
      (rw [hr] at hk; cases hk)

/-- A branch that is written aims where it may go. -/
theorem Aimed.aims_of_aim (h : c.Aimed env) (hp : c.Plotted env) (hpath : c'.path = c.path)
    (hescapes : ∀ b ∈ c.state.escapes, b ∈ c'.state.escapes) {kind : BranchKind} {l : Label}
    (haim : Aim env c.scope c.base c.state kind l) (hb : c.state.labels.lookup b = some l) :
    c'.Aims env c.path b kind := by
  cases haim with
  | inner _ hl => exact (hl.other b hb).elim
  | @jump _ a _ r hk ha hr hroute =>
    obtain rfl := h.injective ha hb
    unfold Aims
    rw [if_neg hk]
    obtain rfl | rfl := hroute
    · exact .inl (route_within hr)
    · obtain ⟨he, hroot⟩ := route_exit hr
      exact .inr ⟨he, hp.staged.path_of_root hroot⟩
  | @leave a _ ha hr hleft =>
    obtain rfl := h.injective ha hb
    unfold Aims
    rw [if_pos rfl]
    obtain he | hleft := hleft
    · exact .exit he
    · obtain ⟨tag, outer, hp', htag⟩ := exists_tag_of_isLeft (route_leave hr)
      rw [hp']
      refine .out (List.cons_ne_nil tag []) (fun t ht => ?_) rfl
        (.inr (.current (hpath.trans hp') (hescapes a hleft)))
      exact List.mem_singleton.mp ht ▸ htag

/-- **A stroke** aims its branch. -/
theorem Aimed.stroke (h : c.Aimed env) (hp : c.Plotted env) (hl : c.Leaves)
    {state : LayoutState} (hb : c.phase = .block b) (hs : Stroke env c.scope c.base c.state state)
    (hf : state.asm.fault = none) : Aimed env { c with state } := by
  have ready := hp.ready
  have he := hs.effect ready hf
  have hphase : c.phase ≠ .behind := by simp [hb]
  have stays {path : Path} {b : BlockId} (h : c.LeaveTo env path b) :
      LeaveTo env { c with state } path b := h.step hp.staged hl (.stroke hb hs)
  have lands {path : Path} {o : Nat} (h : c.Lands path o) : Lands { c with state } path o :=
    h.stroke hp.mapped hphase hp.sound hs he
  -- What is written new stands in the scopes of the block.
  have here : (c.cells c.size).path = c.path := hp.mapped.current hphase _ (Nat.le_refl _)
  -- The labels that are placed new belong to the block.
  have landed {o : Nat} (ho : o = state.asm.code.size) (hpinned : o ≤ state.asm.pinned)
      (hr : state.asm.reachable = true) : Lands { c with state } c.path o :=
    ⟨hpinned, .inr ⟨ho, hr, .refl⟩⟩
  -- A label of a block that is new has no place, and nothing waits for it.
  have known {a : BlockId} {l : Label} (hl : state.labels.lookup a = some l)
      (hlt : l < c.state.asm.labels.size) : c.state.labels.lookup a = some l :=
    (he.lookup hl).resolve_right fun hn => Nat.ne_of_lt hlt hn.2
  have other {l : Label} (hother : ∀ b, state.labels.lookup b ≠ some l) (b : BlockId) :
      c.state.labels.lookup b ≠ some l := fun hb => hother b (hs.lookup hb)
  have bound {n : Nat} {i : Instruction} (hi : state.asm.code[n]? = some i) (hn : ¬ n < c.size) :
      n = c.size := by
    have hlt : n < state.asm.code.size := (Array.getElem?_eq_some_iff.mp hi).1
    have hsize : state.asm.code.size ≤ c.size + 1 := he.size_le
    omega
  refine ⟨fun {x y l} hx hy => ?_, fun {x l o} hx ho => ?_, fun {l o} hbase hother ho => ?_,
    fun {n l x kind} hw hi hx => ?_, fun {n l kind} hw hi hother => ?_, fun {n} hi => ?_⟩
  · obtain heq | ⟨a, -, heq⟩ := he.labels
    · exact h.injective (heq ▸ hx) (heq ▸ hy)
    · exact injective_cons ready h.injective (heq ▸ hx) (heq ▸ hy)
  · obtain ho | ⟨hinner, -⟩ := he.placed ho
    · obtain ⟨y, hy, hyx, hlands⟩ := h.blocks (known hx ho.lt) ho
      exact ⟨y, hy, hyx, lands hlands⟩
    · exact (hinner.other x (known hx hinner.lt)).elim
  · obtain ho | ⟨hinner, ho, hpinned, hr⟩ := he.placed ho
    · exact lands (h.inner hbase (other hother) ho)
    · exact landed ho hpinned hr
  · obtain hw | ⟨rfl, kind', hi', haim⟩ := he.waits hw
    · rw [show state.asm.code[n]? = _ from he.code n (hp.sound.lt hw)] at hi
      exact (h.jumps hw hi (known hx (hp.sound.waiting hw).1)).mono stays
    · obtain rfl := BranchKind.instruction_inj (Option.some.inj (hi'.symm.trans hi))
      show Aims env _ (c.cells c.size).path x kind'
      rw [here]
      have path : Chart.path { c with state } = c.path := rfl
      have aims := h.aims_of_aim hp path he.escapes haim (known hx (haim.lt ready))
      exact aims
  · obtain hw | ⟨rfl, kind', hi', haim⟩ := he.waits hw
    · rw [show state.asm.code[n]? = _ from he.code n (hp.sound.lt hw)] at hi
      obtain ⟨hk, hlands, path⟩ := h.skips hw hi (other hother)
      refine ⟨hk, fun o ho => ?_, path⟩
      obtain ho | ⟨hinner, ho, hpinned, hr⟩ := he.placed ho
      · exact lands (hlands o ho)
      · rw [show (c.cells n).path = c.path from path hinner.base_le]
        exact landed ho hpinned hr
    · obtain rfl := BranchKind.instruction_inj (Option.some.inj (hi'.symm.trans hi))
      cases haim with
      | inner hk hinner =>
        refine ⟨hk, fun o ho => ?_, fun _ => here⟩
        show Lands { c with state } (c.cells c.size).path o
        rw [here]
        obtain ho | ⟨-, ho, hpinned, hr⟩ := he.placed ho
        · exact lands (h.inner hinner.base_le hinner.other ho)
        · exact landed ho hpinned hr
      | jump _ hb => exact (hother _ (hs.lookup hb)).elim
      | leave hb => exact (hother _ (hs.lookup hb)).elim
  · by_cases hn : n < c.size
    · rw [show state.asm.code[n]? = _ from he.code n hn] at hi
      exact h.ends hi
    · obtain rfl := bound hi hn
      obtain ⟨next, hr⟩ := he.ends hi
      refine ⟨next, ?_⟩
      show (scopeOf (c.cells c.size).path).kind = _
      rw [here]
      exact route_endFinally hr

/-- A jump that is taken back stood in the scopes of the block that it goes to. -/
theorem Aimed.path_of_elided (h : c.Aimed env) (hp : c.Plotted env) {l : Label} {n : Nat}
    (hrange : b ≠ Graph.exit → innermost? env.ranges b = c.scope.range)
    (hexit : b = Graph.exit → c.path = []) (hl : c.state.labels.lookup b = some l)
    (hw : c.state.asm.Awaits n l)
    (hi : c.state.asm.code[n]? = some (BranchKind.always.instruction 0)) :
    (c.cells n).path = c.path := by
  have aims := h.jumps hw hi hl
  unfold Aims at aims
  rw [if_neg (by decide)] at aims
  obtain ⟨hne, hr⟩ | ⟨he, hnil⟩ := aims
  · exact hp.staged.known_unique (hp.mapped.known n (hp.sound.lt hw)) hp.staged.known_path
      (hr.symm.trans (hrange hne))
  · rw [hnil, hexit he]

/-- **The start of a block** places its label. -/
theorem Aimed.begin (h : c.Aimed env) (hp : c.Plotted env) (hl : c.Leaves) {queue : List BlockId}
    (hrange : b ≠ Graph.exit → innermost? env.ranges b = c.scope.range)
    (hexit : b = Graph.exit → c.path = []) (hstep : Step env c (c.begin b queue))
    (hf : (c.begin b queue).state.asm.fault = none) : (c.begin b queue).Aimed env := by
  have ready : LayoutState.Ready { c.state with queue } := hp.ready
  have sound : LayoutState.asm { c.state with queue } |>.Sound := hp.sound
  obtain ⟨l, begun⟩ := begun_beginBlock ready sound hf
  have begun : LayoutState.Begun b l { c.state with queue } (c.begin b queue).state := begun
  obtain ⟨hpinned, hsize, -, -⟩ := offset_beginBlock sound b
  have hsize : (c.begin b queue).size ≤ c.size := hsize
  -- The start may give the block its label and leave out the jump in front of it. A label that the
  -- assembler knew before is that of the same block as before.
  have known {x : BlockId} {k : Label} (hx : (c.begin b queue).state.labels.lookup x = some k)
      (hlt : k < c.state.asm.labels.size) : c.state.labels.lookup x = some k := by
    obtain he | ⟨hb, he⟩ := begun.labels
    · exact he ▸ hx
    · rw [he, List.lookup_cons] at hx
      split at hx
      · cases hx
        exact (Nat.lt_irrefl _ hlt).elim
      · exact hx
  have injective {x y : BlockId} {k : Label}
      (hx : (c.begin b queue).state.labels.lookup x = some k)
      (hy : (c.begin b queue).state.labels.lookup y = some k) : x = y := by
    obtain he | ⟨-, he⟩ := begun.labels
    · exact h.injective (he ▸ hx) (he ▸ hy)
    · exact injective_cons ready h.injective (he ▸ hx) (he ▸ hy)
  have same {x : BlockId} {k : Label} (hx : c.state.labels.lookup x = some k) :
      (c.begin b queue).state.labels.lookup x = some k := by
    obtain he | ⟨hb, he⟩ := begun.labels
    · exact he ▸ hx
    · rw [he, List.lookup_cons]
      split
      case h_1 hxb =>
        have hb : c.state.labels.lookup b = none := hb
        rw [beq_iff_eq.mp hxb, hb] at hx
        cases hx
      case h_2 => exact hx
  have waits {n : Nat} {k : Label} (hw : (c.begin b queue).state.asm.Awaits n k) :
      c.state.asm.Awaits n k := begun.waits hw
  -- Where the jump is left out, control falls onto the block from the end of the block before.
  have lands {path : Path} {o : Nat} (h' : c.Lands path o) : (c.begin b queue).Lands path o := by
    refine h'.begin begun hpinned fun he => ?_
    obtain hsame | ⟨-, -, hw, hi⟩ := begun.elided
    · have hsame : (c.begin b queue).size = c.size := hsame
      omega
    · exact h.path_of_elided hp hrange hexit (known begun.name (hp.sound.waiting hw).1) hw hi
  have code {n : Nat} {i : Instruction} (hi : (c.begin b queue).state.asm.code[n]? = some i) :
      c.state.asm.code[n]? = some i ∧ (c.begin b queue).cells n = c.cells n := by
    have hn : n < (c.begin b queue).size := (Array.getElem?_eq_some_iff.mp hi).1
    exact ⟨(begun.code n hn).symm.trans hi, fillCells_of_lt hn⟩
  refine ⟨injective, fun {x k o} hx ho => ?_, fun {k o} hbase _ ho => ?_,
    fun {n k x kind} hw hi hx => ?_, fun {n k kind} hw hi hother => ?_, fun {n} hi => ?_⟩
  · obtain ho | ⟨rfl, rfl⟩ := begun.placed ho
    · obtain ⟨y, hy, hyx, h'⟩ := h.blocks (known hx (Assembler.PlacedAt.lt ho)) ho
      exact ⟨y, List.mem_cons_of_mem _ hy, hyx, lands h'⟩
    · obtain rfl := injective hx begun.name
      exact ⟨_, List.mem_cons_self, rfl, Nat.le_of_eq begun.pinned.symm,
        .inr ⟨rfl, begun.reachable, .refl⟩⟩
  · exact (Nat.lt_irrefl _ (Nat.lt_of_lt_of_le ho.lt hbase)).elim
  · obtain ⟨hi, hcell⟩ := code hi
    rw [hcell]
    exact (h.jumps (waits hw) hi (known hx (hp.sound.waiting (waits hw)).1)).mono
      fun h' => h'.step hp.staged hl hstep
  · obtain ⟨hi, hcell⟩ := code hi
    rw [hcell]
    obtain ⟨hk, hlands, -⟩ := h.skips (waits hw) hi fun x hx => hother x (same hx)
    refine ⟨hk, fun o ho => ?_, fun hbase => ?_⟩
    · obtain ho | ⟨rfl, -⟩ := begun.placed ho
      · exact lands (hlands o ho)
      · exact (hother b begun.name).elim
    · have grown := (hstep.evolves hp.ready).1.labels_le
      exact (Nat.lt_irrefl _ (Nat.lt_of_lt_of_le (hp.sound.waiting (waits hw)).1
        (Nat.le_trans grown hbase))).elim
  · obtain ⟨hi, hcell⟩ := code hi
    rw [hcell]
    exact h.ends hi

/-- **A step keeps all branches aimed.** -/
theorem Aimed.step (h : c.Aimed env) (hp : c.Plotted env) (hl : c.Leaves)
    (hstep : Step env c c') (hf : c'.state.asm.fault = none) : c'.Aimed env := by
  have leave {path : Path} {b : BlockId} (h : c.LeaveTo env path b) : c'.LeaveTo env path b :=
    h.step hp.staged hl hstep
  have bound : c.pinned ≤ c.size := hp.sound.pinned_le
  have inside {n : Nat} {i : Instruction} (hi : c.state.asm.code[n]? = some i) : n < c.size :=
    (Array.getElem?_eq_some_iff.mp hi).1
  -- The start of a block and a stroke place labels and write branches; what comes between blocks
  -- only moves from part to part.
  cases hstep with
  | skip | settle =>
    exact h.frame hp.sound rfl rfl (fun hi _ => ⟨inside hi, hi⟩) (fun _ _ => rfl) id id
      (.inl ⟨rfl, rfl⟩) (fun h' => ⟨h'.pinned, h'.enters⟩) leave
  | @«begin» b rest hidle hq hb hne hrange =>
    exact h.begin hp hl (fun _ => hrange) (fun he => (hne he).elim) (.begin hidle hq hb hne hrange)
      hf
  | exit hidle hlevels hexit =>
    refine h.begin hp hl (fun hne => (hne rfl).elim) (fun _ => ?_) (.exit hidle hlevels hexit) hf
    rw [Chart.path, hlevels]
    rfl
  | stroke hb hs => exact h.stroke hp hl hb hs hf
  | @openBody b body todo hb hparts =>
    have hbody : body.handler = none := Graph.handler_body hparts
    exact h.frame hp.sound rfl rfl (fun hi _ => ⟨inside hi, hi⟩) (fun _ hn => fillCells_of_lt hn)
      id id (.inr (Nat.le_refl _)) (fun h' => h'.openBody hbody bound) leave
  | @turn level rest part todo kind asm nextSite hidle hlevels htodo hpart hq hr hseed hhead =>
    obtain ⟨fixups, labels, -, code⟩ := hhead.effect
    refine h.frame hp.sound rfl rfl (fun {n i} hi hb => ?_) (fun _ hn => fillCells_of_lt hn)
      (fun hw => ?_) (fun ho => ?_) (.inr ?_) (fun h' => ?_) leave
    · have hi : asm.code[n]? = some i := hi
      obtain code | ⟨head, hplain, code⟩ := code
      · rw [code] at hi
        exact ⟨inside hi, hi⟩
      · rw [code, Array.getElem?_push] at hi
        split at hi
        · -- The instruction that takes the caught value is no branch.
          cases hi
          obtain hb | rfl := hb
          · exact (hb (Instruction.target_of_isPlain hplain)).elim
          · cases hplain
        · exact ⟨inside hi, hi⟩
    · rw [Assembler.Awaits, ← fixups]
      exact hw
    · rw [Assembler.PlacedAt, Assembler.label, ← labels]
      exact ho
    · exact Nat.le_of_eq (congrArg Array.size labels).symm
    · refine h'.keep (h'.lt hr) hhead.size_le ?_ (fillCells_of_lt (h'.lt hr)) fun _ =>
        List.mem_cons_of_mem _
      show c.pinned ≤ asm.pinned
      rw [hhead.pinned]
      exact bound
  | finish hidle hlevels htodo hq hr =>
    refine h.frame hp.sound rfl rfl (fun hi _ => ⟨inside hi, hi⟩) (fun _ _ => rfl) id id
      (.inr (Nat.le_refl _)) (fun h' => ?_) leave
    exact h'.keep (h'.lt hr) (Nat.le_refl _) bound rfl fun _ => id

end Chart

end StackScript
