import StackScript.Proofs.Layout.Handlers
import StackScript.Proofs.Layout.Ranges

/-!
# Well-structured graphs

In a well-structured graph the `try`s are nested, control enters a `try` only through the block
that it ends, a `finally` handler is left only at its end, and a loop goes on only where it has
started. There every jump has a route, and a target that is left to the scope around has one there.

## Main definitions

* `Graph.Dominates`: all ways to a block lead through another
* `Graph.EntersLoops`: all ways to the advance of a loop lead through its start
* `Graph.WellStructured`: what is asked of a graph
* `Scope.Opened`, `Scope.Loses`: the scopes of a graph, and the targets that one leaves to others

## Main results

* `WellStructured.innermost_first`: the first block of a part belongs in it
* `WellStructured.exists_route`, `WellStructured.exists_route_outer`: jumps have a route, in the
  scope of their block and in the scopes around it
-/

namespace StackScript

/-! ## Definitions -/

/-- Every block of the one range is in the other. No range holds all blocks. -/
def Encloses (outer inner : Option BlockRange) : Prop :=
  ∀ range ∈ outer, ∃ own ∈ inner, range.includes own = true

instance (outer inner : Option BlockRange) : Decidable (Encloses outer inner) :=
  match outer, inner with
  | none, _ => .isTrue fun _ h => by cases h
  | some range, none => .isFalse fun h => by
    obtain ⟨_, hown, -⟩ := h range rfl
    cases hown
  | some range, some own =>
    decidable_of_iff (range.includes own = true) ⟨fun h _ hr => ⟨own, rfl, by cases hr; exact h⟩,
      fun h => by
        obtain ⟨_, hown, hi⟩ := h range rfl
        cases hown
        exact hi⟩

namespace EdgeKind

/-- The blocks of the `finally` handler of a `try`. -/
def finallyRange? : EdgeKind → Option BlockRange
  | .tryCatch _ _ (some handler) next => some ⟨handler, next⟩
  | _ => none

/-- The edge that starts the loop of which this edge is a step. -/
def loop? : EdgeKind → Option EdgeId
  | .advance loop .. => some loop
  | _ => none

end EdgeKind

namespace Graph

/-- Edges lead to the block from the start, past another block. -/
inductive Bypasses (graph : Graph) (a : BlockId) : BlockId → Prop where
  | start : start ≠ a → Bypasses graph a start
  | step {b c} : Bypasses graph a b → c ∈ graph.successors b → c ≠ a → Bypasses graph a c

/-- All ways from the start to a block lead through another. -/
def Dominates (graph : Graph) (a b : BlockId) : Prop := ¬ graph.Bypasses a b

/-- All ways lead through the start. -/
theorem dominates_start {graph : Graph} {b : BlockId} : graph.Dominates start b := by
  intro h
  induction h with
  | start ne => exact ne rfl
  | step _ _ _ ih => exact ih

/-- All ways to the advance of a loop lead through its start. -/
def EntersLoops (graph : Graph) : Prop :=
  ∀ edge ∈ graph.edges, ∀ loop ∈ edge.kind.loop?, ∀ origin ∈ graph.edges[loop]?,
    graph.Dominates origin.source edge.source

/-- What is asked of the blocks and edges of a graph. -/
structure WellStructured (graph : Graph) : Prop where
  targets : ∀ edge ∈ graph.edges, ∀ t ∈ edge.kind.targets, t < graph.blocks.size
  ended : ∀ b, graph.Reaches b → b ≠ exit → (graph.outgoing? b).isSome = true
  laminar : graph.Laminar
  /-- No block is the first of the parts of two `try`s. -/
  firsts : ∀ i j : Fin graph.edges.size, i ≠ j → ∀ range ∈ (graph.edge i).kind.ranges,
    ∀ other ∈ (graph.edge j).kind.ranges, range.first ≠ other.first
  bodies : ∀ edge ∈ graph.edges, ∀ span ∈ edge.kind.span?, span.first ≠ exit
  /-- A `try` goes on in the scope that it is entered from. -/
  nexts : ∀ edge ∈ graph.edges, ∀ span ∈ edge.kind.span?,
    innermost? (protectedRanges graph) span.past = innermost? (protectedRanges graph) edge.source
  /-- Only a `try` enters a range. -/
  enters : ∀ edge ∈ graph.edges, edge.kind.isTry = false → ∀ t ∈ edge.kind.targets, t = exit ∨
    Encloses (innermost? (protectedRanges graph) t) (innermost? (protectedRanges graph) edge.source)
  /-- A `finally` handler is left at its end. -/
  completes : ∀ edge ∈ graph.edges, ∀ other ∈ graph.edges, ∀ handler ∈ other.kind.finallyRange?,
    handler.contains edge.source = true → ∀ t ∈ edge.kind.targets,
      t ≠ exit ∧ handler.contains t = true ∨
        innermost? (protectedRanges graph) edge.source = some handler ∧ t = handler.past
  loops : graph.EntersLoops

end Graph

/-! ## Inclusion of ranges -/

namespace BlockRange

variable {range other : BlockRange} {b : BlockId}

theorem includes_iff : range.includes other = true ↔
    range.first ≤ other.first ∧ other.past ≤ range.past := by
  simp [includes]

theorem includes_refl (range : BlockRange) : range.includes range = true := by
  simp [includes]

theorem includes_antisymm (h : range.includes other = true) (h' : other.includes range = true) :
    range = other := by
  rw [includes_iff] at h h'
  obtain ⟨first, past⟩ := range
  obtain ⟨first', past'⟩ := other
  obtain rfl : first = first' := Nat.le_antisymm h.1 h'.1
  obtain rfl : past = past' := Nat.le_antisymm h'.2 h.2
  rfl

theorem contains_of_includes (h : range.includes other = true) (hb : other.contains b = true) :
    range.contains b = true := by
  rw [includes_iff] at h
  rw [contains_iff] at hb ⊢
  exact ⟨Nat.le_trans h.1 hb.1, Nat.lt_of_lt_of_le hb.2 h.2⟩

/-- A range all of whose blocks are in another. -/
theorem includes_of_forall {n : Nat} (hne : other.first < other.past) (hpast : other.past ≤ n)
    (h : ∀ c < n, other.contains c = true → range.contains c = true) :
    range.includes other = true := by
  simp only [contains_iff] at h
  rw [includes_iff]
  obtain ⟨first, -⟩ := h other.first (by grind) (by grind)
  obtain ⟨-, last⟩ := h (other.past - 1) (by grind) (by grind)
  exact ⟨first, by grind⟩

/-- A range inside another one that is not larger is the same. -/
theorem eq_of_size_le (h : range.includes other = true) (hne : other.first < other.past)
    (hle : range.size ≤ other.size) : range = other := by
  rw [includes_iff] at h
  simp only [size] at hle
  obtain ⟨first, past⟩ := range
  obtain ⟨first', past'⟩ := other
  dsimp only at h hne hle
  have ends : first = first' ∧ past = past' := by grind
  rw [ends.1, ends.2]

end BlockRange

theorem lt_of_mem_rangesBetween {bounds : List BlockId} {range : BlockRange}
    (h : increasing bounds = true) (hr : range ∈ rangesBetween bounds) :
    range.first < range.past := by
  induction bounds with
  | nil => cases hr
  | cons a rest ih =>
    cases rest with
    | nil => cases hr
    | cons next rest =>
      simp only [increasing, Bool.and_eq_true, decide_eq_true_eq] at h
      rcases List.mem_cons.mp hr with rfl | hr
      · exact h.1
      · exact ih h.2 hr

theorem first_mem_of_mem_rangesBetween {bounds : List BlockId} {range : BlockRange}
    (hr : range ∈ rangesBetween bounds) : range.first ∈ bounds := by
  induction bounds with
  | nil => cases hr
  | cons a rest ih =>
    cases rest with
    | nil => cases hr
    | cons next rest =>
      rcases List.mem_cons.mp hr with rfl | hr
      · exact List.mem_cons_self
      · exact List.mem_cons_of_mem _ (ih hr)

theorem Encloses.includes {outer : Option BlockRange} {range own : BlockRange}
    (h : Encloses outer (some own)) (hr : outer = some range) : range.includes own = true := by
  obtain ⟨_, ho, hi⟩ := h range hr
  cases ho
  exact hi

/-! ## Ranges of a graph -/

section Ranges

variable {graph : Graph} {i j : Fin graph.edges.size} {range other own : BlockRange} {b : BlockId}

theorem exists_edge_of_mem (h : range ∈ protectedRanges graph) :
    ∃ i : Fin graph.edges.size, range ∈ (graph.edge i).kind.ranges := by
  obtain ⟨edge, hedge, hr⟩ := mem_protectedRanges.mp h
  obtain ⟨i, hi, rfl⟩ := Array.mem_iff_getElem.mp hedge
  exact ⟨⟨i, hi⟩, hr⟩

theorem mem_protectedRanges_of_mem (h : range ∈ (graph.edge i).kind.ranges) :
    range ∈ protectedRanges graph :=
  mem_protectedRanges.mpr ⟨_, graph.edge_mem i, h⟩

/-- An edge with ranges is a `try`. -/
theorem exists_span (h : range ∈ (graph.edge i).kind.ranges) :
    (graph.edge i).kind.isTry = true ∧ ∃ span, span ∈ (graph.edge i).kind.span? := by
  unfold EdgeKind.ranges at h
  split at h
  case isFalse => cases h
  case isTrue ht =>
    refine ⟨ht, ?_⟩
    cases hk : (graph.edge i).kind with
    | tryCatch => exact ⟨_, rfl⟩
    | jump | branch | enumerate | advance | switch =>
      rw [hk] at ht
      cases ht

theorem Graph.Built.fits_edge (hg : graph.Built) (i : Fin graph.edges.size) :
    (graph.edge i).kind.Fits graph (graph.edge i).source :=
  hg.fits (graph.getElem?_edge i)

namespace Graph.WellStructured

/-- The range of a part lies behind the block that enters it, and behind the exit. -/
theorem bounds (w : graph.WellStructured) (hg : graph.Built)
    (h : range ∈ (graph.edge i).kind.ranges) : range.first < range.past ∧
      range.past < graph.blocks.size ∧ (graph.edge i).source < range.first ∧
      exit < range.first := by
  obtain ⟨ht, span, hspan⟩ := exists_span h
  have fits := hg.fits_edge i
  have body := w.bodies _ (graph.edge_mem i) span hspan
  have exists_past := w.targets _ (graph.edge_mem i) range.past
  rw [EdgeKind.ranges, if_pos ht] at h
  have increases := increasing_targets fits ht
  have past := exists_past (past_mem_of_mem_rangesBetween h)
  refine ⟨lt_of_mem_rangesBetween increases h, past, ?_⟩
  cases hk : (graph.edge i).kind with
  | tryCatch first catches finally? next =>
    rw [hk] at fits h hspan increases
    cases hspan
    have least : first ≤ range.first := first_le_of_mem_rangesBetween increases h
    have source : (graph.edge i).source < first := fits.2
    have behind : exit ≤ first := Nat.lt_of_le_of_lt (Nat.zero_le _) source
    exact ⟨Nat.lt_of_lt_of_le source least,
      Nat.lt_of_lt_of_le (Nat.lt_of_le_of_ne behind (Ne.symm body)) least⟩
  | jump | branch | enumerate | advance | switch =>
    rw [hk] at ht
    cases ht

theorem contains_first (w : graph.WellStructured) (hg : graph.Built)
    (h : range ∈ (graph.edge i).kind.ranges) : range.contains range.first = true :=
  BlockRange.contains_iff.mpr ⟨Nat.le_refl _, (w.bounds hg h).1⟩

/-- A range that holds the block in front of a `try` holds its parts. -/
theorem includes_of_source (w : graph.WellStructured) (hg : graph.Built)
    (h : range ∈ (graph.edge i).kind.ranges) (ho : other ∈ (graph.edge j).kind.ranges)
    (hs : other.contains (graph.edge i).source = true) : other.includes range = true := by
  obtain ⟨nonempty, past, -⟩ := w.bounds hg h
  obtain ⟨-, span, hspan⟩ := exists_span h
  by_cases hij : i = j
  · subst hij
    have behind := (w.bounds hg ho).2.2.1
    rw [BlockRange.contains_iff] at hs
    exact absurd hs.1 (Nat.not_le_of_lt behind)
  · have nested := w.laminar i j hij span hspan other ho
    split at nested
    case isTrue =>
      refine BlockRange.includes_of_forall nonempty (Nat.le_of_lt past) fun c hc hb => ?_
      exact nested c hc (contains_span (hg.fits_edge i) hspan h hb)
    case isFalse hn => exact (hn hs).elim

/-- A range that shares a block with a part holds the block in front of it, or lies in it. -/
theorem source_or_includes (w : graph.WellStructured) (hg : graph.Built)
    (h : range ∈ (graph.edge i).kind.ranges) (ho : other ∈ (graph.edge j).kind.ranges)
    (hb : range.contains b = true) (hb' : other.contains b = true) :
    other.contains (graph.edge i).source = true ∨ range.includes other = true := by
  obtain ⟨-, past, -⟩ := w.bounds hg h
  obtain ⟨nonempty', past', -⟩ := w.bounds hg ho
  obtain ⟨-, span, hspan⟩ := exists_span h
  by_cases hij : i = j
  · subst hij
    rw [range_unique (hg.fits_edge i) h ho hb hb']
    exact .inr (BlockRange.includes_refl _)
  · have nested := w.laminar i j hij span hspan other ho
    split at nested
    case isTrue hs => exact .inl hs
    case isFalse =>
      have exists_b : b < graph.blocks.size :=
        Nat.lt_trans (BlockRange.contains_iff.mp hb).2 past
      obtain apart | ⟨own, hown, within⟩ := nested
      · exact (apart b exists_b ⟨hb', contains_span (hg.fits_edge i) hspan h hb⟩).elim
      · rw [range_unique (hg.fits_edge i) h hown hb (within b exists_b hb')]
        exact .inr (BlockRange.includes_of_forall nonempty' (Nat.le_of_lt past') within)

/-- **Ranges that share a block** lie in one another. -/
theorem comparable (w : graph.WellStructured) (hg : graph.Built) (h : range ∈ protectedRanges graph)
    (ho : other ∈ protectedRanges graph) (hb : range.contains b = true)
    (hb' : other.contains b = true) :
    range.includes other = true ∨ other.includes range = true := by
  obtain ⟨i, h⟩ := exists_edge_of_mem h
  obtain ⟨j, ho⟩ := exists_edge_of_mem ho
  obtain hs | hi := w.source_or_includes hg h ho hb hb'
  · exact .inr (w.includes_of_source hg h ho hs)
  · exact .inl hi

/-- A range around a part holds the block in front of it. -/
theorem contains_source (w : graph.WellStructured) (hg : graph.Built)
    (h : range ∈ (graph.edge i).kind.ranges) (ho : other ∈ protectedRanges graph)
    (hi : other.includes range = true) (hne : other ≠ range) :
    other.contains (graph.edge i).source = true := by
  obtain ⟨j, ho⟩ := exists_edge_of_mem ho
  have first := w.contains_first hg h
  obtain hs | hi' := w.source_or_includes hg h ho first
    (BlockRange.contains_of_includes hi first)
  · exact hs
  · exact (hne (BlockRange.includes_antisymm hi hi')).elim

/-- Every range that holds a block is around the innermost one. -/
theorem includes_innermost (w : graph.WellStructured) (hg : graph.Built)
    (hown : innermost? (protectedRanges graph) b = some own) (h : range ∈ protectedRanges graph)
    (hb : range.contains b = true) : range.includes own = true := by
  obtain ⟨mem, hb', least⟩ := innermost?_eq_some hown
  obtain hi | hi := w.comparable hg h mem hb hb'
  · exact hi
  · obtain ⟨i, h'⟩ := exists_edge_of_mem h
    rw [BlockRange.eq_of_size_le hi (w.bounds hg h').1 (least range h hb)]
    exact BlockRange.includes_refl _

/-- **The first block of a part** belongs in it. -/
theorem innermost_first (w : graph.WellStructured) (hg : graph.Built)
    (h : range ∈ (graph.edge i).kind.ranges) :
    innermost? (protectedRanges graph) range.first = some range := by
  have first := w.contains_first hg h
  have mem := mem_protectedRanges_of_mem h
  cases hin : innermost? (protectedRanges graph) range.first with
  | none =>
    rw [innermost?_eq_none hin mem] at first
    cases first
  | some own =>
    obtain ⟨hown, hb, -⟩ := innermost?_eq_some hin
    obtain ⟨j, hj⟩ := exists_edge_of_mem hown
    have inside := w.includes_innermost hg hin mem first
    -- A smaller range would start at the same block.
    have same : own.first = range.first :=
      Nat.le_antisymm (BlockRange.contains_iff.mp hb).1 (BlockRange.includes_iff.mp inside).1
    by_cases hij : i = j
    · subst hij
      rw [range_unique (hg.fits_edge i) h hj first hb]
    · exact (w.firsts i j hij range h own hj same.symm).elim

end Graph.WellStructured

end Ranges

/-! ## Scopes of a graph -/

/-- The `finally` handler among the parts of a `try`. -/
theorem EdgeKind.finallyRange?_of_mem_parts {kind : EdgeKind} {part : Part} {next : BlockId}
    (h : part ∈ kind.parts) (hk : part.kind = .finally next) :
    kind.finallyRange? = some part.range ∧ part.range.past = next := by
  cases kind with
  | tryCatch body catches finally? past =>
    rcases List.mem_cons.mp h with rfl | h
    · cases hk
    rcases List.mem_append.mp h with h | h
    · obtain ⟨hcatch, -⟩ := mem_catchParts h
      rw [hcatch] at hk
      cases hk
    · cases finally? with
      | none => cases h
      | some handler =>
        obtain rfl := List.mem_singleton.mp h
        cases hk
        exact ⟨rfl, rfl⟩
  | jump | branch | enumerate | advance | switch => cases h

namespace Scope

/-- The scope is the root, or that of a part of a `try` whose block is placed. -/
def Opened (graph : Graph) (placed : List BlockId) (scope : Scope) : Prop :=
  scope = root ∨ ∃ i : Fin graph.edges.size, (graph.edge i).source ∈ placed ∧
    ∃ part ∈ (graph.edge i).kind.parts, scope = part.scope

/-- The scope leaves the target to the scopes around it. -/
structure Loses (graph : Graph) (scope : Scope) (t : BlockId) : Prop where
  isLeft : scope.isLeft = true
  ne_exit : t ≠ Graph.exit
  ne_range : innermost? (protectedRanges graph) t ≠ scope.range
  encloses : Encloses (innermost? (protectedRanges graph) t) scope.range
  /-- The scope holds a block from which an edge leads there. -/
  origin : ∃ x, (∀ own ∈ scope.range, own.contains x = true) ∧ t ∈ graph.successors x

variable {graph : Graph} {placed placed' : List BlockId} {scope : Scope}

/-- The range of an opened scope, and what its kind says about it. -/
theorem Opened.cases (h : scope.Opened graph placed) : scope = root ∨
    ∃ i : Fin graph.edges.size, ∃ own ∈ (graph.edge i).kind.ranges, scope.range = some own ∧
      (graph.edge i).source ∈ placed ∧ (scope.isLeft = true ∨ ∃ next, scope.kind = .finally next ∧
        (graph.edge i).kind.finallyRange? = some own ∧ own.past = next) := by
  obtain h | ⟨i, placed, part, hpart, rfl⟩ := h
  · exact .inl h
  refine .inr ⟨i, part.range, ?_, rfl, placed, ?_⟩
  · rw [← EdgeKind.ranges_parts]
    exact List.mem_map_of_mem hpart
  · have kind : part.kind = .body ∨ part.kind = .catch ∨ ∃ next, part.kind = .finally next := by
      obtain hnil | ⟨body, rest, hparts, hbody, -, hrest⟩ := (graph.edge i).kind.parts_cases
      · rw [hnil] at hpart
        cases hpart
      · rw [hparts] at hpart
        rcases List.mem_cons.mp hpart with rfl | hpart
        · exact .inl hbody
        · exact .inr ((hrest part hpart).imp (·.1) fun ⟨next, hn, _⟩ => ⟨next, hn⟩)
    obtain hk | hk | ⟨next, hk⟩ := kind
    · exact .inl (by simp [isLeft, Part.scope, hk])
    · exact .inl (by simp [isLeft, Part.scope, hk])
    · exact .inr ⟨next, hk, EdgeKind.finallyRange?_of_mem_parts hpart hk⟩

theorem Opened.mono (h : scope.Opened graph placed) (hp : ∀ b ∈ placed, b ∈ placed') :
    scope.Opened graph placed' :=
  h.imp_right (Exists.imp fun _ => And.imp_left (hp _))

end Scope

namespace Graph

/-- Where a block of a part is placed, the block in front of the `try` is as well. -/
def Entered (graph : Graph) (placed : List BlockId) : Prop :=
  ∀ b ∈ placed, ∀ i : Fin graph.edges.size, ∀ range ∈ (graph.edge i).kind.ranges,
    range.contains b = true → (graph.edge i).source ∈ placed

/-- A block that belongs in an opened scope is in the parts around that only. -/
theorem WellStructured.entered_cons {graph : Graph} {placed : List BlockId} {scope : Scope}
    {b : BlockId} (w : graph.WellStructured) (hg : graph.Built) (h : graph.Entered placed)
    (hs : scope.Opened graph placed)
    (hb : innermost? (protectedRanges graph) b = scope.range) : graph.Entered (b :: placed) := by
  intro c hc i range hrange hin
  refine List.mem_cons_of_mem _ ?_
  rcases List.mem_cons.mp hc with rfl | hc
  case inr => exact h c hc i range hrange hin
  obtain rfl | ⟨j, own, hown, hr, source, -⟩ := hs.cases
  · have nowhere := innermost?_eq_none hb (mem_protectedRanges_of_mem hrange)
    rw [hin] at nowhere
    cases nowhere
  have around := w.includes_innermost hg (hb.trans hr) (mem_protectedRanges_of_mem hrange) hin
  by_cases hsame : range = own
  · -- The range is that of the scope, so the `try` is the one of the scope.
    by_cases hij : i = j
    · exact hij ▸ source
    · exact (w.firsts i j hij range hrange own hown (congrArg BlockRange.first hsame)).elim
  · exact h _ source i range hrange
      (w.contains_source hg hown (mem_protectedRanges_of_mem hrange) around hsame)

end Graph

/-! ## Routes -/

section Routes

variable {graph : Graph} {placed : List BlockId} {scope : Scope} {own : BlockRange}
  {x b t : BlockId} {i : Fin graph.edges.size}

theorem Scope.routeOut_of_isLeft (scope : Scope) (h : scope.isLeft = true) :
    scope.routeOut t = .ok .leave := by
  unfold isLeft at h
  unfold routeOut
  split at h
  case h_1 hk => rw [hk]
  case h_2 hk => rw [hk]
  all_goals cases h

/-- A scope is left to a target in no range inside it. -/
theorem route_eq_routeOut {ranges : List BlockRange} (hne : innermost? ranges t ≠ scope.range)
    (hout : ∀ range ∈ innermost? ranges t, scope.encloses range = false) :
    route ranges scope t = scope.routeOut t := by
  unfold route
  split
  · rfl
  dsimp only
  rw [if_neg hne]
  split
  case h_1 range hr => rw [hout range hr, if_neg Bool.false_ne_true]
  case h_2 => rfl

namespace Graph.WellStructured

/-- A range that is left is not around the target. -/
theorem contains_eq_false (w : graph.WellStructured) (hg : graph.Built)
    (h : own ∈ protectedRanges graph) (hne : innermost? (protectedRanges graph) t ≠ some own)
    (he : Encloses (innermost? (protectedRanges graph) t) (some own)) :
    own.contains t = false := by
  by_contra hb
  rw [Bool.not_eq_false] at hb
  cases hin : innermost? (protectedRanges graph) t with
  | none =>
    rw [innermost?_eq_none hin h] at hb
    cases hb
  | some range =>
    exact hne (hin.trans (congrArg some
      (BlockRange.includes_antisymm (he.includes hin) (w.includes_innermost hg hin h hb))))

/-- **A target that is not inside a scope has a route**, from a block of the scope. -/
theorem exists_route_of_encloses (w : graph.WellStructured) (hg : graph.Built)
    (h : scope.Opened graph placed) (hx : ∀ own ∈ scope.range, own.contains x = true)
    (ht : t ∈ graph.successors x) (hne : t ≠ exit)
    (he : Encloses (innermost? (protectedRanges graph) t) scope.range) :
    ∃ r, route (protectedRanges graph) scope t = .ok r ∧ (r = .leave → scope.Loses graph t) ∧
      (r = .endFinally → innermost? (protectedRanges graph) x = scope.range) := by
  -- Within the scope there is nothing to leave.
  by_cases hr : innermost? (protectedRanges graph) t = scope.range
  · refine ⟨.within, ?_, fun h => (by cases h), fun h => (by cases h)⟩
    unfold route
    rw [if_neg hne, if_pos hr]
  obtain rfl | ⟨i, own, hown, hrange, -, hkind⟩ := h.cases
  · -- No range lies around the root.
    cases hin : innermost? (protectedRanges graph) t with
    | none => exact (hr hin).elim
    | some range =>
      obtain ⟨own, hown, -⟩ := he range hin
      cases hown
  rw [hrange] at hr he hx
  have hx : own.contains x = true := hx own rfl
  have outside : own.contains t = false :=
    w.contains_eq_false hg (mem_protectedRanges_of_mem hown) hr he
  have out : route (protectedRanges graph) scope t = scope.routeOut t := by
    refine route_eq_routeOut (hrange ▸ hr) fun range hin => ?_
    rw [Scope.encloses, hrange]
    by_contra hi
    rw [Bool.not_eq_false] at hi
    exact hr (hin.trans (congrArg some (BlockRange.includes_antisymm (he.includes hin) hi)))
  rw [out]
  obtain hleft | ⟨next, hnext, hfinally, hpast⟩ := hkind
  · have inside : ∀ own' ∈ scope.range, own'.contains x = true := fun own' ho => by
      rw [hrange] at ho
      cases ho
      exact hx
    exact ⟨.leave, scope.routeOut_of_isLeft hleft,
      fun _ => ⟨hleft, hne, hrange ▸ hr, hrange ▸ he, x, inside, ht⟩, fun h => (by cases h)⟩
  · -- The end of the handler is the only way out of it.
    have completes : innermost? (protectedRanges graph) x = some own ∧ t = own.past := by
      unfold successors at ht
      split at ht
      case h_1 edge hedge =>
        obtain ⟨rfl, e, he⟩ := hg.source_outgoing? hedge
        obtain ⟨-, hc⟩ | hc := w.completes edge (Array.mem_of_getElem? he) _
          (graph.edge_mem i) own hfinally hx t ht
        · rw [outside] at hc
          cases hc
        · exact hc
      case h_2 => cases ht
    refine ⟨.endFinally, ?_, fun h => (by cases h), fun _ => completes.1.trans hrange.symm⟩
    unfold Scope.routeOut
    rw [hnext]
    exact if_pos (completes.2.trans hpast)

/-- **A jump of a block has a route** in the scope of the block. -/
theorem exists_route (w : graph.WellStructured) (hg : graph.Built)
    (h : scope.Opened graph placed) {e : EdgeId} {edge : Edge} (hedge : graph.edges[e]? = some edge)
    (hr : innermost? (protectedRanges graph) edge.source = scope.range)
    (hk : edge.kind.isTry = false) (ht : t ∈ edge.kind.targets) :
    ∃ r, route (protectedRanges graph) scope t = .ok r ∧
      (r = .leave → t = exit ∨ scope.Loses graph t) := by
  have inside : ∀ own ∈ scope.range, own.contains edge.source = true := fun own ho =>
    (innermost?_eq_some (hr.trans ho)).2.1
  by_cases hx : t = exit
  · have out : route (protectedRanges graph) scope t = scope.routeOut t := by
      unfold route
      exact if_pos hx
    rw [out]
    obtain rfl | ⟨i, own, hown, hrange, -, hkind⟩ := h.cases
    · exact ⟨.exit, if_pos hx, fun h => (by cases h)⟩
    obtain hleft | ⟨next, -, hfinally, -⟩ := hkind
    · exact ⟨.leave, scope.routeOut_of_isLeft hleft, fun _ => .inl hx⟩
    · -- The exit is not where a `try` goes on.
      obtain ⟨hc, -⟩ | ⟨-, hc⟩ := w.completes edge (Array.mem_of_getElem? hedge) _
        (graph.edge_mem i) own hfinally (inside own hrange) t ht
      · exact (hc hx).elim
      · obtain ⟨nonempty, -, -, behind⟩ := w.bounds hg hown
        exact (Nat.ne_of_lt (Nat.lt_trans behind nonempty) (hx.symm.trans hc)).elim
  · have successor : t ∈ graph.successors edge.source := by
      obtain ⟨block, hblock, hout⟩ := Option.bind_eq_some_iff.mp (hg.source hedge)
      simpa [successors, outgoing?, hblock, hout, hedge] using ht
    have he := (w.enters edge (Array.mem_of_getElem? hedge) hk t ht).resolve_left hx
    rw [hr] at he
    obtain ⟨r, hroute, hl, -⟩ := w.exists_route_of_encloses hg h inside successor hx he
    exact ⟨r, hroute, fun h => .inr (hl h)⟩

/-- A `try` goes on in the scope that it is entered from. -/
theorem route_past (w : graph.WellStructured) (hg : graph.Built) {span : BlockRange}
    (hspan : span ∈ (graph.edge i).kind.span?)
    (hr : innermost? (protectedRanges graph) (graph.edge i).source = scope.range) :
    route (protectedRanges graph) scope span.past = .ok .within := by
  have fits := hg.fits_edge i
  have body := w.bodies _ (graph.edge_mem i) span hspan
  have same := (w.nexts _ (graph.edge_mem i) span hspan).trans hr
  have past : span.past ≠ exit := by
    cases hk : (graph.edge i).kind with
    | tryCatch first catches finally? next =>
      rw [hk] at fits hspan
      cases hspan
      have increases := pairwise_of_increasing fits.1
      have behind : first < next := (List.pairwise_cons.mp increases).1 next
        (List.mem_append_right _ (List.mem_singleton.mpr rfl))
      have source : exit ≤ first := Nat.lt_of_le_of_lt (Nat.zero_le _) fits.2
      exact Nat.ne_of_gt (Nat.lt_of_le_of_lt source behind)
    | jump | branch | enumerate | advance | switch =>
      rw [hk] at hspan
      cases hspan
  unfold route
  rw [if_neg past, if_pos same]

/-- **A target that a part leaves has a route** in the scope around the `try`, and is not the end
of a `finally` handler. -/
theorem exists_route_outer (w : graph.WellStructured) (hg : graph.Built)
    (h : scope.Opened graph placed) {part : Part} (hpart : part ∈ (graph.edge i).kind.parts)
    (hr : innermost? (protectedRanges graph) (graph.edge i).source = scope.range)
    (hl : part.scope.Loses graph t) :
    ∃ r, route (protectedRanges graph) scope t = .ok r ∧ r ≠ .endFinally ∧
      (r = .leave → scope.Loses graph t) := by
  have hrange : part.range ∈ (graph.edge i).kind.ranges := by
    rw [← EdgeKind.ranges_parts]
    exact List.mem_map_of_mem hpart
  obtain ⟨x, hx, ht⟩ := hl.origin
  have hx : part.range.contains x = true := hx _ rfl
  -- The scope around holds the part.
  have around : ∀ own ∈ scope.range, own.includes part.range = true := fun own ho => by
    obtain ⟨hown, hb, -⟩ := innermost?_eq_some (hr.trans ho)
    obtain ⟨j, hown⟩ := exists_edge_of_mem hown
    exact w.includes_of_source hg hrange hown hb
  have inside : ∀ own ∈ scope.range, own.contains x = true := fun own ho =>
    BlockRange.contains_of_includes (around own ho) hx
  -- A range around the part that is not the part is around the scope.
  have encloses : Encloses (innermost? (protectedRanges graph) t) scope.range := fun range hin => by
    have mem := (innermost?_eq_some hin).1
    have hb : range.contains (graph.edge i).source = true :=
      w.contains_source hg hrange mem (hl.encloses.includes hin)
        fun he => hl.ne_range (hin.trans (congrArg some he))
    cases hs : scope.range with
    | none =>
      rw [innermost?_eq_none (hr.trans hs) mem] at hb
      cases hb
    | some own => exact ⟨own, rfl, w.includes_innermost hg (hr.trans hs) mem hb⟩
  obtain ⟨r, hroute, hleave, hends⟩ :=
    w.exists_route_of_encloses hg h inside ht hl.ne_exit encloses
  refine ⟨r, hroute, fun he => ?_, hleave⟩
  -- The block would belong in the scope itself, not in the part.
  cases hs : scope.range with
  | none =>
    have nowhere := innermost?_eq_none ((hends he).trans hs) (mem_protectedRanges_of_mem hrange)
    rw [hx] at nowhere
    cases nowhere
  | some own =>
    have mem := mem_protectedRanges_of_mem hrange
    have smaller := w.includes_innermost hg ((hends he).trans hs) mem hx
    have same := BlockRange.includes_antisymm smaller (around own hs)
    obtain ⟨-, hb, -⟩ := innermost?_eq_some (hr.trans hs)
    rw [← same, BlockRange.contains_iff] at hb
    exact Nat.not_le_of_lt (w.bounds hg hrange).2.2.1 hb.1

end Graph.WellStructured

end Routes

end StackScript
