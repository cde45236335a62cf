import Mathlib.Data.List.Chain
import Mathlib.Tactic.Common
import StackScript.Flow.Construction

/-!
# Graphs as they are built

The steps that build a graph refuse what would break it. So every graph that is built has one edge
for each block that ends, none at the exit, and edges that are sound.

## Main definitions

* `EdgeKind.Fits`: what the steps check of an edge
* `Graph.Built`: what holds of every graph that is built

## Main results

* `Graph.built_of_build`: every graph that is built by steps
-/

namespace StackScript

/-- Numbers of which each is smaller than the next are smaller than all behind. -/
theorem pairwise_of_increasing {bounds : List Nat} (h : increasing bounds = true) :
    bounds.Pairwise (· < ·) := by
  refine List.isChain_iff_pairwise.mp ?_
  induction bounds with
  | nil => exact .nil
  | cons a rest ih =>
    cases rest with
    | nil => exact .singleton _
    | cons next rest =>
      simp only [increasing, Bool.and_eq_true, decide_eq_true_eq] at h
      exact .cons_cons h.1 (ih h.2)

/-- What is checked of an edge when it is added. -/
def EdgeKind.Fits (graph : Graph) (source : BlockId) (kind : EdgeKind) : Prop :=
  match kind with
  | .tryCatch body .. => increasing kind.targets = true ∧ source < body
  | .advance loop .. =>
    ∃ origin subject, graph.edges[loop]? = some ⟨.ofNat loop, origin, .enumerate subject source⟩
  | .switch _ cases _ => cases.countP (·.isDefault) ≤ 1
  | _ => True

namespace Graph

/-- What holds of a graph that is built by steps. -/
structure Built (graph : Graph) : Prop where
  blocks : exit < graph.blocks.size
  block_id : ∀ {b : BlockId} {block : Block}, graph.blocks[b]? = some block → block.id = .ofNat b
  edge_id : ∀ {e : EdgeId} {edge : Edge}, graph.edges[e]? = some edge → edge.id = .ofNat e
  /-- The exit has no edge. -/
  exit_open : graph.blocks[exit]?.bind (·.outgoing) = none
  /-- The edge that ends a block starts there. -/
  outgoing : ∀ {b : BlockId} {e : EdgeId}, graph.blocks[b]?.bind (·.outgoing) = some e →
    ∃ kind, graph.edges[e]? = some ⟨.ofNat e, b, kind⟩
  /-- An edge ends the block where it starts. -/
  source : ∀ {e : EdgeId} {edge : Edge}, graph.edges[e]? = some edge →
    graph.blocks[edge.source]?.bind (·.outgoing) = some e
  fits : ∀ {e : EdgeId} {edge : Edge}, graph.edges[e]? = some edge → edge.kind.Fits graph edge.source

variable {graph graph' : Graph} {edge : Edge} {kind : EdgeKind}

theorem built_new : new.Built where
  blocks := by decide
  block_id {b block} hb := by
    obtain _ | _ | b := b <;> cases hb <;> rfl
  edge_id h := by simp [new] at h
  exit_open := rfl
  outgoing {b e} h := by
    obtain ⟨block, hb, he⟩ := Option.bind_eq_some_iff.mp h
    obtain _ | _ | b := b <;> cases hb <;> cases he
  source h := by simp [new] at h
  fits h := by simp [new] at h

/-- The edges are the same, and each block ends as before. -/
theorem Built.of_blocks (h : graph.Built) (hb : exit < graph'.blocks.size)
    (hid : ∀ {b : BlockId} {block : Block}, graph'.blocks[b]? = some block → block.id = .ofNat b)
    (hedges : graph'.edges = graph.edges)
    (hout : ∀ b : BlockId, graph'.blocks[b]?.bind (·.outgoing) =
      graph.blocks[b]?.bind (·.outgoing)) : graph'.Built where
  blocks := hb
  block_id := hid
  edge_id he := h.edge_id (hedges ▸ he)
  exit_open := (hout exit).trans h.exit_open
  outgoing {b e} he := by
    rw [hedges]
    exact h.outgoing ((hout b).symm.trans he)
  source {e edge} he := by
    rw [hedges] at he
    rw [hout]
    exact h.source he
  fits {e edge} he := by
    rw [hedges] at he
    have := h.fits he
    unfold EdgeKind.Fits at this ⊢
    rw [hedges]
    exact this

theorem Built.addBlock (h : graph.Built) : graph.addBlock.Built := by
  refine h.of_blocks ?_ (fun {b block} hb => ?_) rfl fun b => ?_
  · simp only [Graph.addBlock, Array.size_push]
    exact Nat.lt_succ_of_lt h.blocks
  · simp only [Graph.addBlock, Array.getElem?_push] at hb
    split at hb
    case isTrue last =>
      cases hb
      exact last ▸ rfl
    case isFalse => exact h.block_id hb
  · simp only [Graph.addBlock, Array.getElem?_push]
    split
    case isTrue hb =>
      subst hb
      simp [Block.empty]
    case isFalse => rfl

theorem Built.addBlocks (h : graph.Built) (count : Nat) : (graph.addBlocks count).Built := by
  induction count generalizing graph with
  | zero => exact h
  | succ count ih => exact ih h.addBlock

/-- A block that changes keeps its number. -/
theorem Built.block_id_set (h : graph.Built) {b : BlockId} {old new : Block}
    (hb : graph.blocks[b]? = some old) {c : BlockId} {block : Block}
    (hc : (graph.blocks.setIfInBounds b new)[c]? = some block) (same : new.id = old.id) :
    block.id = .ofNat c := by
  rw [Array.getElem?_setIfInBounds] at hc
  split at hc
  case isTrue here =>
    subst here
    rw [if_pos (Array.getElem?_eq_some_iff.mp hb).1] at hc
    cases hc
    rw [same, h.block_id hb]
  case isFalse => exact h.block_id hc

theorem Built.pushStatement {b : BlockId} {statement : Statement} (h : graph.Built)
    (hp : graph.pushStatement b statement = .ok graph') : graph'.Built := by
  unfold Graph.pushStatement at hp
  split at hp
  · cases hp
  case h_2 block hb =>
    cases hp
    refine h.of_blocks (by simpa using h.blocks) (fun hc => h.block_id_set hb hc rfl) rfl
      fun c => ?_
    simp only [Array.getElem?_setIfInBounds]
    split
    case isTrue hc =>
      subst hc
      rw [hb, if_pos (Array.getElem?_eq_some_iff.mp hb).1]
      rfl
    case isFalse => rfl

/-- A new edge leaves those that were there as they were. -/
theorem fits_push {source : BlockId} (h : kind.Fits graph source)
    (hedges : graph'.edges = graph.edges.push edge) : kind.Fits graph' source := by
  unfold EdgeKind.Fits at h ⊢
  split
  case h_2 loop _ _ _ _ =>
    obtain ⟨origin, subject, he⟩ := h
    refine ⟨origin, subject, ?_⟩
    have hlt := (Array.getElem?_eq_some_iff.mp he).1
    rw [hedges, Array.getElem?_push, if_neg (Nat.ne_of_lt hlt), he]
  all_goals simp_all

theorem Built.fits_of_defect {source : BlockId} (built : graph.Built)
    (h : kind.defect? graph source = none) : kind.Fits graph source := by
  unfold EdgeKind.defect? at h
  unfold EdgeKind.Fits
  cases kind with
  | tryCatch body catches finally? next =>
    dsimp only at h ⊢
    split_ifs at h with horder hbody
    exact ⟨by simpa using horder, hbody⟩
  | advance loop key value body next =>
    dsimp only at h ⊢
    split at h
    · cases h
    case h_2 id origin subject target hloop =>
      split_ifs at h with ht
      obtain rfl := built.edge_id hloop
      exact ⟨origin, subject, ht ▸ hloop⟩
    · cases h
  | switch subject cases next =>
    dsimp only at h ⊢
    split_ifs at h with hc
    exact hc
  | jump | branch | enumerate => trivial

theorem Built.connect {source : BlockId} (h : graph.Built)
    (hc : graph.connect source kind = .ok graph') : graph'.Built := by
  unfold Graph.connect at hc
  split at hc
  · cases hc
  case h_2 hd =>
    unfold install at hc
    split at hc
    · cases hc
    case h_2 block hb =>
      split_ifs at hc with hx
      split at hc
      · cases hc
      case h_2 hout =>
        cases hc
        have hlt : source < graph.blocks.size := (Array.getElem?_eq_some_iff.mp hb).1
        have free : graph.blocks[source]?.bind (·.outgoing) = none := by rw [hb]; exact hout
        -- Only the source gets an outgoing edge, which is the new one.
        have ends (b : BlockId) : ((graph.blocks.setIfInBounds source
            { block with outgoing := some graph.edges.size })[b]?.bind (·.outgoing)) =
            if source = b then some graph.edges.size
            else graph.blocks[b]?.bind (·.outgoing) := by
          rw [Array.getElem?_setIfInBounds]
          split
          · rfl
          · rfl
        refine ⟨by simpa using h.blocks, fun hc => h.block_id_set hb hc rfl, fun {e edge} he => ?_,
          ?_, fun {b e} he => ?_, fun {e edge} he => ?_, fun {e edge} he => ?_⟩
        · rw [Array.getElem?_push] at he
          split at he
          case isTrue hs =>
            cases he
            exact hs ▸ rfl
          case isFalse => exact h.edge_id he
        · rw [ends, if_neg hx, h.exit_open]
        · rw [ends] at he
          split at he
          case isTrue hs =>
            cases he
            exact ⟨kind, by rw [hs]; exact Array.getElem?_push_size⟩
          case isFalse =>
            obtain ⟨kind', he'⟩ := h.outgoing he
            have hlt := (Array.getElem?_eq_some_iff.mp he').1
            exact ⟨kind', by
              rw [Array.getElem?_push, if_neg (Nat.ne_of_lt hlt), he']⟩
        · rw [ends]
          rw [Array.getElem?_push] at he
          split at he
          case isTrue hs =>
            cases he
            rw [if_pos rfl, hs]
          case isFalse =>
            have hsource := h.source he
            rw [if_neg, hsource]
            rintro rfl
            rw [free] at hsource
            cases hsource
        · rw [Array.getElem?_push] at he
          split at he
          case isTrue hs =>
            cases he
            exact fits_push (h.fits_of_defect hd) rfl
          case isFalse => exact fits_push (h.fits he) rfl

/-- A step that builds a graph keeps it sound. -/
theorem Built.apply {step : BuildStep} (h : graph.Built)
    (ha : graph.apply step = .ok graph') : graph'.Built := by
  cases step with
  | addBlocks count =>
    cases ha
    exact h.addBlocks count
  | pushStatement b statement => exact h.pushStatement ha
  | connect source kind => exact h.connect ha

/-- **Every graph that is built by steps** is sound. -/
theorem built_of_build {steps : List BuildStep} (h : build steps = .ok graph) : graph.Built := by
  have run (steps : List BuildStep) (start : Graph) (hs : start.Built)
      (h : steps.foldlM apply start = .ok graph) : graph.Built := by
    induction steps generalizing start with
    | nil =>
      cases h
      exact hs
    | cons step rest ih =>
      rw [List.foldlM_cons] at h
      cases ha : start.apply step with
      | error defect =>
        rw [ha] at h
        cases h
      | ok next =>
        rw [ha] at h
        exact ih next (hs.apply ha) h
  exact run steps new built_new h

/-- No edge ends the exit. -/
theorem Built.outgoing?_exit (h : graph.Built) : graph.outgoing? exit = none := by
  unfold outgoing?
  split
  case h_1 block hblock =>
    have hopen := h.exit_open
    rw [hblock, Option.bind_some] at hopen
    rw [hopen, Option.bind_none]
  case h_2 => rfl

/-- The edge that ends a block starts there. -/
theorem Built.source_outgoing? {b : BlockId} (h : graph.Built) (he : graph.outgoing? b = some edge) :
    edge.source = b ∧ ∃ e : EdgeId, graph.edges[e]? = some edge := by
  unfold outgoing? at he
  split at he
  case h_1 block hblock =>
    obtain ⟨e, hout, hedge⟩ := Option.bind_eq_some_iff.mp he
    have hout : graph.blocks[b]?.bind (·.outgoing) = some e := by rw [hblock]; exact hout
    obtain ⟨kind, hkind⟩ := h.outgoing hout
    rw [hedge] at hkind
    cases hkind
    exact ⟨rfl, e, hedge⟩
  case h_2 => cases he

end Graph

end StackScript
