import Mathlib.Data.List.Infix
import StackScript.Proofs.Layout.Stages
import StackScript.Proofs.Layout.Placement

/-!
# Parts as stretches of code

The code of a part of a `try` is in one piece: an instruction belongs to the part, or to a part
inside it, exactly if it stands between the offsets where the part starts and ends.

## Main definitions

* `Chart.Mapped`: the cells of the code and the offsets of parts fit together

## Main results

* `Chart.Mapped.step`: every step keeps them so
-/

namespace StackScript

open Emit Arrange

theorem fillCells_of_lt {cells : Nat → Cell} {start n : Nat} {cell : Cell} (h : n < start) :
    fillCells cells start cell n = cells n :=
  if_pos h

theorem fillCells_of_le {cells : Nat → Cell} {start n : Nat} {cell : Cell} (h : start ≤ n) :
    fillCells cells start cell n = cell :=
  if_neg (Nat.not_lt.mpr h)

namespace Chart

/-- The number of instructions. -/
def size (c : Chart) : Nat := c.state.asm.code.size

/-- Instructions in front of this offset are kept. -/
def pinned (c : Chart) : Nat := c.state.asm.pinned

/-- The cells of the code and the offsets of parts fit together. -/
structure Mapped (c : Chart) : Prop where
  starts : ∀ stage ∈ c.opened, stage.start ≤ c.pinned
  stops : ∀ x ∈ c.closed, x.2 ≤ c.pinned
  /-- The cell of the next instruction. -/
  current : c.phase ≠ .behind → ∀ n, c.size ≤ n → (c.cells n).path = c.path
  known : ∀ n < c.size, c.Known (c.cells n).path
  /-- A part on the stack goes on up to the end of the code. -/
  inside : ∀ stage ∈ c.opened, stage.path <:+ c.path → ∀ n < c.size,
    stage.path <:+ (c.cells n).path ↔ stage.start ≤ n
  /-- A part that has been laid out ends where it ends. -/
  outside : ∀ x ∈ c.closed, ∀ n < c.size,
    x.1.path <:+ (c.cells n).path ↔ x.1.start ≤ n ∧ n < x.2
  left : ∀ x ∈ c.closed, ¬ x.1.path <:+ c.path
  finished : ∀ stage ∈ c.opened, stage.path <:+ c.path ∨ ∃ stop, (stage, stop) ∈ c.closed

variable {env : LayoutEnv} {c c' : Chart}

/-- A part whose first block is not placed is new. -/
theorem Staged.not_known (h : c.Staged env) (hp : c.phase ≠ .head) {stage : Stage}
    (hseed : stage.part.seed ∉ c.state.placed) : ¬ c.Known stage.path := by
  rintro (hnil | ⟨other, ho, hpath⟩)
  · cases hnil
  · have ranges : some other.part.range = some stage.part.range :=
      congrArg (fun path => (scopeOf path).range) hpath
    have seeds : other.part.seed = stage.part.seed :=
      congrArg BlockRange.first (Option.some.inj ranges)
    exact hseed (seeds ▸ h.seed_placed hp ho)

/-! ## Steps -/

namespace Mapped

theorem start {draft : Draft} : (start draft).Mapped where
  starts stage h := by cases h
  stops x h := by cases h
  current h := (h rfl).elim
  known _ _ := .inl rfl
  inside stage h := by cases h
  outside x h := by cases h
  left x h := by cases h
  finished stage h := by cases h

/-- More code of the block that is being written. -/
theorem extend (h : c.Mapped) (hs : c.Staged env) (hsound : c.state.asm.Sound)
    {state : LayoutState} (hp : c.phase ≠ .behind) (hsize : c.size ≤ state.asm.code.size)
    (hpinned : c.pinned ≤ state.asm.pinned) : Mapped { c with state } := by
  have bound : c.pinned ≤ c.size := hsound.pinned_le
  have new {n : Nat} (hn : ¬ n < c.size) : (c.cells n).path = c.path :=
    h.current hp n (Nat.le_of_not_lt hn)
  refine { h with
    starts := fun stage hm => Nat.le_trans (h.starts stage hm) hpinned
    stops := fun x hm => Nat.le_trans (h.stops x hm) hpinned
    current := fun hp n hn => h.current hp n (Nat.le_trans hsize hn)
    known := fun n hn => ?_, inside := fun stage hm hpath n hn => ?_
    outside := fun x hm n hn => ?_ }
  · by_cases hlt : n < c.size
    · exact h.known n hlt
    · show c.Known (c.cells n).path
      rw [new hlt]
      exact hs.known_path
  · by_cases hlt : n < c.size
    · exact h.inside stage hm hpath n hlt
    · have := h.starts stage hm
      show stage.path <:+ (c.cells n).path ↔ _
      rw [new hlt]
      exact iff_of_true hpath (by omega)
  · by_cases hlt : n < c.size
    · exact h.outside x hm n hlt
    · have := h.stops x hm
      show x.1.path <:+ (c.cells n).path ↔ _
      rw [new hlt]
      exact iff_of_false (h.left x hm) (by omega)

/-- The start of a block. -/
theorem begin (h : c.Mapped) (hsound : c.state.asm.Sound) (b : BlockId) (queue : List BlockId) :
    (c.begin b queue).Mapped := by
  have hsound' : LayoutState.asm { c.state with queue } |>.Sound := hsound
  obtain ⟨hpinned, hsize, heq, -⟩ := offset_beginBlock hsound' b
  have old {n : Nat} (hn : n < (c.begin b queue).size) :
      n < c.size ∧ (c.begin b queue).cells n = c.cells n :=
    ⟨Nat.lt_of_lt_of_le hn hsize, fillCells_of_lt hn⟩
  have kept : c.pinned ≤ (c.begin b queue).pinned := Nat.le_trans hpinned (Nat.le_of_eq heq.symm)
  refine { h with
    starts := fun stage hm => Nat.le_trans (h.starts stage hm) kept
    stops := fun x hm => Nat.le_trans (h.stops x hm) kept
    current := fun _ n hn => ?_, known := fun n hn => ?_
    inside := fun stage hm hpath n hn => ?_, outside := fun x hm n hn => ?_ }
  · have here : (c.begin b queue).cells n = ⟨some b, c.path⟩ := fillCells_of_le hn
    rw [here]
    rfl
  · rw [(old hn).2]
    exact h.known n (old hn).1
  · rw [(old hn).2]
    exact h.inside stage hm hpath n (old hn).1
  · rw [(old hn).2]
    exact h.outside x hm n (old hn).1

/-- The start of a part. -/
theorem enter (h : c.Mapped) (bound : c.pinned ≤ c.size) {stage : Stage} {state : LayoutState}
    {level : Level} {rest : List Level} (hnew : ¬ c.Known stage.path)
    (hsuffix : ∀ {path outer : Path}, c.Known path → outer <:+ path → c.Known outer)
    (hclosed : ∀ x ∈ c.closed, x.1 ∈ c.opened) (hlevel : level.stage = stage)
    (houter : stage.outer = c.path)
    (hstart : stage.start = c.size) (hpinned : state.asm.pinned = c.size)
    (hsize : c.size ≤ state.asm.code.size) : (c.enter stage state level rest).Mapped := by
  have path : (c.enter stage state level rest).path = stage.path := congrArg Stage.path hlevel
  have old {n : Nat} (hn : n < c.size) : (c.enter stage state level rest).cells n = c.cells n :=
    fillCells_of_lt (hstart ▸ hn)
  have new {n : Nat} (hn : ¬ n < c.size) :
      ((c.enter stage state level rest).cells n).path = stage.path := by
    have here : (c.enter stage state level rest).cells n = ⟨none, stage.path⟩ :=
      fillCells_of_le (hstart ▸ Nat.le_of_not_lt hn)
    rw [here]
  -- The new part is in no part but those around it.
  have around {other : Path} (hother : other <:+ stage.path) :
      other = stage.path ∨ other <:+ c.path :=
    (List.suffix_cons_iff.mp hother).imp_right fun hother => houter ▸ hother
  have fresh {st : Stage} (hm : st ∈ c.opened) : st.path ≠ stage.path :=
    fun he => hnew (.inr ⟨st, hm, he⟩)
  have shut {x : Stage × Nat} (hm : x ∈ c.closed) : ¬ x.1.path <:+ stage.path := fun hx =>
    (around hx).elim (fresh (hclosed x hm)) (h.left x hm)
  refine { h with
    starts := fun st hm => ?_, stops := fun x hm => ?_, current := fun _ n hn => ?_
    known := fun n hn => ?_, inside := fun st hm hpath n hn => ?_
    outside := fun x hm n hn => ?_, left := fun x hm => ?_, finished := fun st hm => ?_ }
  · show st.start ≤ state.asm.pinned
    rcases List.mem_cons.mp hm with rfl | hm
    · omega
    · have := h.starts st hm
      omega
  · have := h.stops x hm
    show x.2 ≤ state.asm.pinned
    omega
  · rw [path]
    exact new (Nat.not_lt.mpr (Nat.le_trans hsize hn))
  · by_cases hlt : n < c.size
    · rw [old hlt]
      exact (h.known n hlt).imp_right fun ⟨st, hm, he⟩ => ⟨st, List.mem_cons_of_mem _ hm, he⟩
    · rw [new hlt]
      exact .inr ⟨stage, List.mem_cons_self, rfl⟩
  · rw [path] at hpath
    by_cases hlt : n < c.size
    · rw [old hlt]
      rcases List.mem_cons.mp hm with rfl | hm
      · -- No instruction in front of the new part belongs to it.
        exact iff_of_false (fun hx => hnew (hsuffix (h.known n hlt) hx)) (by omega)
      · exact h.inside st hm ((around hpath).resolve_left (fresh hm)) n hlt
    · rw [new hlt]
      refine iff_of_true hpath ?_
      rcases List.mem_cons.mp hm with rfl | hm
      · omega
      · have := h.starts st hm
        omega
  · by_cases hlt : n < c.size
    · rw [old hlt]
      exact h.outside x hm n hlt
    · have := h.stops x hm
      rw [new hlt]
      exact iff_of_false (shut hm) (by omega)
  · rw [path]
    exact shut hm
  · rw [path]
    rcases List.mem_cons.mp hm with rfl | hm
    · exact .inl (List.suffix_refl _)
    · refine (h.finished st hm).imp_left fun hst => ?_
      rw [← houter] at hst
      exact hst.trans (List.suffix_cons _ _)

/-- The end of a part. -/
theorem finish (h : c.Mapped) (hs : c.Staged env) (hsound : c.state.asm.Sound) {level : Level}
    {rest : List Level} {queue escapes : List BlockId} {exitTargeted : Bool}
    (hlevels : c.levels = level :: rest) :
    (c.finish level rest queue escapes exitTargeted).Mapped := by
  have bound : c.pinned ≤ c.size := hsound.pinned_le
  have path : c.path = level.stage.path := by rw [Chart.path, hlevels]; rfl
  have hlevel : level ∈ c.levels := hlevels ▸ List.mem_cons_self
  have outer : (c.finish level rest queue escapes exitTargeted).path = level.stage.outer := by
    have linked := hs.linked
    rw [hlevels] at linked
    exact linked.1.symm
  have inner {other : Path} (ho : other <:+ level.stage.outer) : other <:+ c.path := by
    rw [path]
    exact ho.trans (List.suffix_cons _ _)
  -- The part that ends is one stretch more. Its cells are those that its stage has filled.
  refine { h with
    starts := fun st hm => Nat.le_trans (h.starts st hm) bound
    stops := fun x hm => ?_, current := fun hp => (hp rfl).elim
    inside := fun st hm hpath n hn => ?_
    outside := fun x hm n hn => ?_, left := fun x hm => ?_, finished := fun st hm => ?_ }
  · rcases List.mem_append.mp hm with hm | hm
    · exact Nat.le_trans (h.stops x hm) bound
    · rw [List.mem_singleton.mp hm]
      exact Nat.le_refl _
  · rw [outer] at hpath
    exact h.inside st hm (inner hpath) n hn
  · rcases List.mem_append.mp hm with hm | hm
    · exact h.outside x hm n hn
    · rw [List.mem_singleton.mp hm]
      have here := h.inside level.stage (hs.levels level hlevel) (path ▸ List.suffix_refl _) n hn
      exact here.trans ⟨fun hle => ⟨hle, hn⟩, And.left⟩
  · rw [outer]
    rcases List.mem_append.mp hm with hm | hm
    · exact fun hx => h.left x hm (inner hx)
    · rw [List.mem_singleton.mp hm]
      -- The path outside a part is shorter than that of the part.
      intro hx
      have := hx.length_le
      simp only [Stage.path, List.length_cons] at this
      omega
  · rw [outer]
    obtain hst | ⟨stop, hst⟩ := h.finished st hm
    · rw [path] at hst
      obtain he | hst := List.suffix_cons_iff.mp hst
      · right
        rw [hs.stage_unique hm (hs.levels level hlevel) he]
        exact ⟨_, List.mem_append_right _ (List.mem_singleton.mpr rfl)⟩
      · exact .inl hst
    · exact .inr ⟨stop, List.mem_append_left _ hst⟩

/-- **A step keeps the chart mapped.** -/
theorem step (h : c.Mapped) (hs : c.Staged env) (hsound : c.state.asm.Sound)
    (hstep : Step env c c') : c'.Mapped := by
  cases hstep with
  | skip => exact { h with }
  | settle => exact { h with current := fun hp => (hp rfl).elim }
  | «begin» => exact h.begin hsound _ _
  | exit => exact h.begin hsound _ _
  | stroke hb hstroke =>
    exact h.extend hs hsound (by simp [hb]) hstroke.size_le (hstroke.pinned_le hsound)
  | openBody hb hparts hseed =>
    exact h.enter hsound.pinned_le (hs.not_known (by simp [hb]) hseed) hs.known_suffix hs.closed
      rfl rfl rfl rfl (Nat.le_refl _)
  | @turn level rest part todo kind asm nextSite hidle hlevels htodo hpart hq hr hseed hhead =>
    -- A part ends, and the next one starts in the scopes around both.
    have finished : (c.finish level rest [] [] false).Mapped := h.finish hs hsound hlevels
    have linked := hs.linked
    rw [hlevels] at linked
    have entered : ((c.finish level rest [] [] false).enter
        (level.stage.next c.state.asm.offset part)
        { c.state.closeStage level.stage with draft := ⟨asm, nextSite⟩ }
        { level with
          stage := level.stage.next c.state.asm.offset part, todo
          carried := level.carried ++ c.state.escapes } rest).Mapped := finished.enter
      (Nat.le_refl _) (hs.not_known (hs.ne_head hq) hseed) hs.known_suffix (fun x hx => ?_) rfl
      linked.1 rfl hhead.pinned hhead.size_le
    · exact { entered with }
    · rcases List.mem_append.mp hx with hx | hx
      · exact hs.closed x hx
      · rw [List.mem_singleton.mp hx]
        exact hs.levels level (hlevels ▸ List.mem_cons_self)
  | finish hidle hlevels => exact h.finish hs hsound hlevels

end Mapped

end Chart

end StackScript
