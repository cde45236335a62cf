import StackScript.Proofs.Layout.Chart

/-!
# Ranges of blocks

The parts of a `try` are ranges of blocks that follow one another, so a block is in one of them at
most. Of all ranges that a block is in, the layout places it in the smallest one.

## Main definitions

* `EdgeKind.ranges`, `EdgeKind.span?`: the ranges of the parts of a `try`, and all of it
* `Graph.Laminar`: the `try`s of a graph are nested

## Main results

* `innermost?_eq_some`: the innermost range is the smallest
* `range_unique`: a block is in one range of a `try` at most
-/

namespace StackScript

variable {range : BlockRange} (graph : Graph)

@[simp] theorem BlockRange.contains_iff {b : BlockId} :
    range.contains b = true ↔ range.first ≤ b ∧ b < range.past := by
  simp [contains]

/-- A range inside one that is not larger is the same. -/
theorem BlockRange.eq_of_includes {n : Nat} {other : BlockRange} {b : BlockId}
    (hb : range.contains b = true) (hpast : range.past < n) (hle : other.size ≤ range.size)
    (h : ∀ c < n, range.contains c = true → other.contains c = true) : range = other := by
  simp only [contains_iff, size] at hb hle h
  have first := h range.first (by grind) (by grind)
  have last := h (range.past - 1) (by grind) (by grind)
  obtain ⟨a, b⟩ := range
  obtain ⟨a', b'⟩ := other
  have ends : a = a' ∧ b = b' := by grind
  rw [ends.1, ends.2]

/-! ## Innermost ranges -/

section Innermost

variable {ranges : List BlockRange} {range : BlockRange} {b : BlockId}

theorem foldl_smallerRange (rest : List BlockRange) :
    rest.foldl smallerRange range ∈ range :: rest ∧
      ∀ other ∈ range :: rest, (rest.foldl smallerRange range).size ≤ other.size := by
  induction rest generalizing range with
  | nil => simp
  | cons next rest ih =>
    obtain ⟨hmem, hle⟩ := @ih (smallerRange range next)
    have smaller : (smallerRange range next = range ∨ smallerRange range next = next) ∧
        (smallerRange range next).size ≤ range.size ∧
        (smallerRange range next).size ≤ next.size := by
      unfold smallerRange
      split
      · exact ⟨.inr rfl, Nat.le_of_lt ‹_›, Nat.le_refl _⟩
      · exact ⟨.inl rfl, Nat.le_refl _, Nat.le_of_not_lt ‹_›⟩
    have first := hle _ List.mem_cons_self
    refine ⟨?_, fun other ho => ?_⟩
    · rcases List.mem_cons.mp hmem with hmem | hmem
      · rw [List.foldl_cons, hmem]
        rcases smaller.1 with he | he <;> simp [he]
      · exact List.mem_cons_of_mem _ (List.mem_cons_of_mem _ hmem)
    · rcases List.mem_cons.mp ho with rfl | ho
      · exact Nat.le_trans first smaller.2.1
      · rcases List.mem_cons.mp ho with rfl | ho
        · exact Nat.le_trans first smaller.2.2
        · exact hle other (List.mem_cons_of_mem _ ho)

/-- The innermost range of a block holds it, and is the smallest that does. -/
theorem innermost?_eq_some (h : innermost? ranges b = some range) :
    range ∈ ranges ∧ range.contains b = true ∧
      ∀ other ∈ ranges, other.contains b = true → range.size ≤ other.size := by
  unfold innermost? at h
  split at h
  · cases h
  case h_2 first rest hfilter =>
    cases h
    obtain ⟨hmem, hle⟩ := @foldl_smallerRange first rest
    rw [← hfilter] at hmem hle
    obtain ⟨hmem, hb⟩ := List.mem_filter.mp hmem
    exact ⟨hmem, hb, fun other ho hb => hle other (List.mem_filter.mpr ⟨ho, hb⟩)⟩

/-- A block without an innermost range is in no range. -/
theorem innermost?_eq_none (h : innermost? ranges b = none) (hr : range ∈ ranges) :
    range.contains b = false := by
  unfold innermost? at h
  split at h
  case h_1 hfilter => exact Bool.eq_false_iff.mpr (List.filter_eq_nil_iff.mp hfilter range hr)
  · cases h

end Innermost

/-! ## The ranges of a `try` -/

section Between

variable {bounds : List BlockId} {a b : BlockId} {range other : BlockRange}
  {front back : List BlockRange}

theorem first_le_of_mem_rangesBetween (h : increasing (a :: bounds) = true)
    (hr : range ∈ rangesBetween (a :: bounds)) : a ≤ range.first := by
  induction bounds generalizing a with
  | nil => cases hr
  | cons next rest ih =>
    simp only [increasing, Bool.and_eq_true, decide_eq_true_eq] at h
    rcases List.mem_cons.mp hr with rfl | hr
    · exact Nat.le_refl _
    · exact Nat.le_trans (Nat.le_of_lt h.1) (ih h.2 hr)

/-- Ranges between increasing bounds are apart. -/
theorem pairwise_rangesBetween (h : increasing bounds = true) :
    (rangesBetween bounds).Pairwise fun range other => range.past ≤ other.first := by
  induction bounds with
  | nil => exact .nil
  | cons a rest ih =>
    cases rest with
    | nil => exact .nil
    | cons next rest =>
      simp only [increasing, Bool.and_eq_true, decide_eq_true_eq] at h
      exact .cons (fun other ho => first_le_of_mem_rangesBetween h.2 ho) (ih h.2)

theorem past_mem_of_mem_rangesBetween (hr : range ∈ rangesBetween bounds) :
    range.past ∈ bounds := by
  induction bounds with
  | nil => cases hr
  | cons a rest ih =>
    cases rest with
    | nil => cases hr
    | cons next rest =>
      rcases List.mem_cons.mp hr with rfl | hr
      · exact List.mem_cons_of_mem _ List.mem_cons_self
      · exact List.mem_cons_of_mem _ (ih hr)

/-- The ranges in front of one cover all that is between. -/
theorem cover_rangesBetween (h : increasing (a :: bounds) = true)
    (hr : rangesBetween (a :: bounds) = front ++ range :: back) :
    (∃ other ∈ front, other.contains b = true) ↔ a ≤ b ∧ b < range.first := by
  induction front generalizing a bounds with
  | nil =>
    cases bounds with
    | nil => cases hr
    | cons next rest =>
      obtain ⟨rfl, -⟩ := List.cons.inj hr
      simp only [List.not_mem_nil, false_and, exists_false, false_iff]
      exact fun hb => Nat.lt_irrefl _ (Nat.lt_of_lt_of_le hb.2 hb.1)
  | cons first front ih =>
    cases bounds with
    | nil => cases hr
    | cons next rest =>
      obtain ⟨rfl, others⟩ := List.cons.inj hr
      simp only [increasing, Bool.and_eq_true, decide_eq_true_eq] at h
      have hmem : range ∈ rangesBetween (next :: rest) := by
        rw [others]
        exact List.mem_append_right _ List.mem_cons_self
      have behind := first_le_of_mem_rangesBetween h.2 hmem
      rw [List.exists_mem_cons_iff, ih h.2 others, BlockRange.contains_iff]
      grind

end Between

namespace EdgeKind

/-- The ranges of the parts of a `try`, none for other edges. -/
def ranges (kind : EdgeKind) : List BlockRange :=
  if kind.isTry then rangesBetween kind.targets else []

/-- The blocks of a `try`, from the body to where it goes on. -/
def span? : EdgeKind → Option BlockRange
  | .tryCatch body _ _ next => some ⟨body, next⟩
  | _ => none

theorem ranges_catchParts (past : BlockId) (catches : List CatchClause) (rest : List BlockId) :
    (catchParts past catches).map (·.range) ++ rangesBetween (past :: rest) =
      rangesBetween (catches.map (·.target) ++ past :: rest) := by
  induction catches with
  | nil => rfl
  | cons clause catches ih =>
    cases catches with
    | nil => rfl
    | cons following catches =>
      simp only [List.map_cons, List.cons_append] at ih ⊢
      rw [catchParts, List.map_cons, List.cons_append, ih]
      rfl

/-- The parts of a `try` have its ranges. -/
theorem ranges_parts (kind : EdgeKind) : kind.parts.map (·.range) = kind.ranges := by
  cases kind with
  | tryCatch body catches finally? next =>
    -- The bounds behind the handlers that catch: the last handler, if there is one, and the end.
    have tail : ∃ rest, finally?.toList ++ [next] = finally?.getD next :: rest ∧
        (finallyParts next finally?).map (·.range) =
          rangesBetween (finally?.getD next :: rest) := by
      cases finally? with
      | none => exact ⟨[], rfl, rfl⟩
      | some handler => exact ⟨[next], rfl, rfl⟩
    obtain ⟨rest, hbounds, hparts⟩ := tail
    have catches' := ranges_catchParts (finally?.getD next) catches rest
    rw [← hparts, ← List.map_append] at catches'
    simp only [parts, ranges, isTry, if_true, targets, List.map_cons, catches', hbounds,
      List.append_assoc, bodyPart]
    cases catches <;> rfl
  | jump | branch | enumerate | advance | switch => rfl

end EdgeKind

section Edges

variable {graph : Graph} {edge : Edge} {b : BlockId} {range other : BlockRange} {kind : EdgeKind}

theorem mem_protectedRanges :
    range ∈ protectedRanges graph ↔ ∃ edge ∈ graph.edges, range ∈ edge.kind.ranges := by
  simp only [protectedRanges, List.mem_flatMap, Array.mem_toList_iff, EdgeKind.ranges]

/-- The bounds of a `try` increase. -/
theorem increasing_targets (h : kind.Fits graph b) (ht : kind.isTry = true) :
    increasing kind.targets = true := by
  cases kind with
  | tryCatch => exact h.1
  | jump | branch | enumerate | advance | switch => cases ht

theorem pairwise_ranges (h : kind.Fits graph b) :
    kind.ranges.Pairwise fun range other => range.past ≤ other.first := by
  unfold EdgeKind.ranges
  split
  · exact pairwise_rangesBetween (increasing_targets h ‹_›)
  · exact .nil

/-- **A block is in one range of a `try`** at most. -/
theorem range_unique {c : BlockId} (h : kind.Fits graph c) (hr : range ∈ kind.ranges)
    (ho : other ∈ kind.ranges) (hb : range.contains b = true) (hb' : other.contains b = true) :
    range = other := by
  have apart : kind.ranges.Pairwise fun range other =>
      range.contains b = true → other.contains b = true → range = other :=
    (pairwise_ranges h).imp fun hle hb hb' => by
      simp only [BlockRange.contains_iff] at hb hb'
      grind
  exact apart.forall_of_forall_of_flip (fun _ _ _ _ => rfl)
    (apart.imp fun hp hb' hb => (hp hb hb').symm) hr ho hb hb'

/-- The ranges of a `try` in front of one cover all that is between. -/
theorem cover_ranges {c : BlockId} {front back : List BlockRange} (h : kind.Fits graph c)
    (hr : kind.ranges = front ++ range :: back) (hfirst : kind.ranges.head? = some other) :
    (∃ other ∈ front, other.contains b = true) ↔ other.first ≤ b ∧ b < range.first := by
  unfold EdgeKind.ranges at hr hfirst
  split at hr
  case isTrue ht =>
    rw [if_pos ht] at hfirst
    have bounds := increasing_targets h ht
    cases hk : kind.targets with
    | nil =>
      rw [hk] at hr
      cases front <;> cases hr
    | cons a rest =>
      rw [hk] at hr hfirst bounds
      rw [cover_rangesBetween bounds hr]
      cases rest with
      | nil => cases hfirst
      | cons next rest =>
        cases hfirst
        exact Iff.rfl
  case isFalse => cases front <;> cases hr

/-- The ranges of a `try` lie between the body and where it goes on. -/
theorem contains_span {c : BlockId} {span : BlockRange} (h : kind.Fits graph c)
    (hs : kind.span? = some span) (hr : range ∈ kind.ranges) (hb : range.contains b = true) :
    span.contains b = true := by
  cases kind with
  | tryCatch body catches finally? next =>
    cases hs
    have hr : range ∈ rangesBetween (body :: (catches.map (·.target) ++ finally?.toList ++ [next])) :=
      hr
    have first := first_le_of_mem_rangesBetween h.1 hr
    have past : range.past ≤ next := by
      have last := past_mem_of_mem_rangesBetween hr
      rw [← List.cons_append] at last
      rcases List.mem_append.mp last with hp | hp
      · exact Nat.le_of_lt ((List.pairwise_append.mp (pairwise_of_increasing h.1)).2.2 _ hp _
          (List.mem_singleton.mpr rfl))
      · exact Nat.le_of_eq (List.mem_singleton.mp hp)
    simp only [BlockRange.contains_iff] at hb ⊢
    exact ⟨Nat.le_trans first hb.1, Nat.lt_of_lt_of_le hb.2 past⟩
  | jump | branch | enumerate | advance | switch => cases hs

end Edges

/-- **The `try`s of a graph are nested**: a range of one holds all of another `try` with the block
that it ends, or does not hold that block and is apart from the other `try` or inside one of its
ranges. -/
def Graph.Laminar (graph : Graph) : Prop :=
  ∀ i j : Fin graph.edges.size, i ≠ j →
    ∀ span ∈ graph.edges[i].kind.span?, ∀ range ∈ graph.edges[j].kind.ranges,
      if range.contains graph.edges[i].source then
        ∀ b < graph.blocks.size, span.contains b → range.contains b
      else
        (∀ b < graph.blocks.size, ¬ (range.contains b ∧ span.contains b)) ∨
          ∃ own ∈ graph.edges[i].kind.ranges, ∀ b < graph.blocks.size,
            range.contains b → own.contains b

instance (graph : Graph) : Decidable graph.Laminar := inferInstanceAs (Decidable (∀ _ _, _))

/-- The edge with a number. -/
def Graph.edge (graph : Graph) (i : Fin graph.edges.size) : Edge := graph.edges[i]

theorem Graph.edge_mem (i : Fin graph.edges.size) : graph.edge i ∈ graph.edges :=
  Array.getElem_mem i.isLt

theorem Graph.getElem?_edge (i : Fin graph.edges.size) :
    graph.edges[i.val]? = some (graph.edge i) :=
  Array.getElem?_eq_getElem i.isLt

end StackScript
