import Mathlib.Data.List.Nodup
import Mathlib.Data.List.Perm.Subperm
import Mathlib.Order.Lattice.Nat
import StackScript.Flow.Graph

/-!
# The search for reachable blocks

The breadth-first search finds each block to which edges lead from the start, once, and nothing
else, the nearer blocks first. It gives no answer only if an edge on the way leads to a block that
does not exist.

## Main definitions

* `Graph.Reaches`, `Graph.ReachesIn`: edges lead to a block from the start, in so many steps
* `Graph.distance`: the least number of steps to a block
* `Graph.Closed`: all edges lead to blocks that exist

## Main results

* `EdgeKind.walk_eq_foldl`: the visit of an edge by its parts is the visit of its targets
* `Graph.reachable?_spec`: what the search finds
* `Graph.reachable?_of_exists`: the search finds an answer where all blocks on the way exist
* `Graph.breadthFirst_of_closed`: the search of a graph whose edges lead to blocks that exist
-/

namespace StackScript

/-- The visit by the parts of an edge is the visit of its targets, in order. -/
theorem EdgeKind.walk_eq_foldl {σ : Type} (visit : σ → BlockId → σ) (state : σ) (kind : EdgeKind) :
    kind.walk visit state = kind.targets.foldl visit state := by
  cases kind with
  | jump | branch | enumerate | advance => rfl
  | switch subject cases next => simp [walk, targets, List.foldl_map]
  | tryCatch body catches finally? next =>
    cases finally? <;> simp [walk, targets, List.foldl_map]

namespace Graph

variable {graph : Graph}

/-- Edges lead to the block from the start. -/
inductive Reaches (graph : Graph) : BlockId → Prop where
  | start : Reaches graph start
  | step {b c} : Reaches graph b → c ∈ graph.successors b → Reaches graph c

/-! ## Distances -/

/-- Edges lead to the block from the start in so many steps. -/
inductive ReachesIn (graph : Graph) : Nat → BlockId → Prop where
  | start : ReachesIn graph 0 start
  | step {n b c} : ReachesIn graph n b → c ∈ graph.successors b → ReachesIn graph (n + 1) c

theorem reaches_iff {b : BlockId} : graph.Reaches b ↔ ∃ n, graph.ReachesIn n b := by
  constructor
  · intro h
    induction h with
    | start => exact ⟨0, .start⟩
    | step _ next ih =>
      obtain ⟨n, ih⟩ := ih
      exact ⟨n + 1, .step ih next⟩
  · rintro ⟨n, h⟩
    induction h with
    | start => exact .start
    | step _ next ih => exact .step ih next

/-- The least number of steps in which edges lead to a block from the start. -/
noncomputable def distance (graph : Graph) (b : BlockId) : Nat := sInf {n | graph.ReachesIn n b}

theorem distance_le {n : Nat} {b : BlockId} (h : graph.ReachesIn n b) : graph.distance b ≤ n :=
  Nat.sInf_le h

theorem reachesIn_distance {b : BlockId} (h : graph.Reaches b) :
    graph.ReachesIn (graph.distance b) b :=
  Nat.sInf_mem (reaches_iff.1 h)

theorem distance_le_of_mem {b c : BlockId} (h : graph.Reaches b) (next : c ∈ graph.successors b) :
    graph.distance c ≤ graph.distance b + 1 :=
  distance_le (.step (reachesIn_distance h) next)

/-! ## Discovery -/

/-- The blocks to which the edge of a block leads and which were not found before, each once. -/
structure Fresh (graph : Graph) (found : List BlockId) (b : BlockId) (new : List BlockId) :
    Prop where
  nodup : new.Nodup
  mem : ∀ c, c ∈ new ↔ c ∈ graph.successors b ∧ c ∉ found

/-- Of the blocks that are met, those that were not found before are found now, and wait. -/
theorem exists_foldl_discover (discovery : Discovery) (met : List BlockId) :
    ∃ new : List BlockId, met.foldl Discovery.discover discovery =
        ⟨discovery.found ++ new, discovery.waiting ++ new⟩ ∧
      new.Nodup ∧ ∀ b, b ∈ new ↔ b ∈ met ∧ b ∉ discovery.found := by
  induction met generalizing discovery with
  | nil => exact ⟨[], by simp, List.nodup_nil, by simp⟩
  | cons c rest ih =>
    rw [List.foldl_cons]
    by_cases known : c ∈ discovery.found
    · rw [Discovery.discover, if_pos (List.contains_iff_mem.2 known)]
      obtain ⟨new, grown, nodup, mem⟩ := ih discovery
      refine ⟨new, grown, nodup, ?_⟩
      intro b
      rw [mem, List.mem_cons]
      refine ⟨fun h => ⟨.inr h.1, h.2⟩, ?_⟩
      rintro ⟨rfl | met, unknown⟩
      · exact absurd known unknown
      · exact ⟨met, unknown⟩
    · rw [Discovery.discover, if_neg (mt List.contains_iff_mem.1 known)]
      obtain ⟨new, grown, nodup, mem⟩ := ih ⟨discovery.found ++ [c], discovery.waiting ++ [c]⟩
      refine ⟨c :: new, by rw [grown]; simp, List.nodup_cons.2 ⟨?_, nodup⟩, ?_⟩
      · intro again
        exact ((mem c).1 again).2 (List.mem_append_right _ List.mem_cons_self)
      · intro b
        rw [List.mem_cons, List.mem_cons, mem, List.mem_append, List.mem_singleton]
        by_cases same : b = c
        · simp [same, known]
        · simp [same]

theorem exists_expand (graph : Graph) (discovery : Discovery) (b : BlockId) :
    ∃ new, graph.expand discovery b = ⟨discovery.found ++ new, discovery.waiting ++ new⟩ ∧
      graph.Fresh discovery.found b new := by
  have visited : graph.expand discovery b =
      (graph.successors b).foldl Discovery.discover discovery := by
    rw [expand, successors]
    cases graph.outgoing? b with
    | none => rfl
    | some edge => exact edge.kind.walk_eq_foldl Discovery.discover discovery
  obtain ⟨new, grown, nodup, mem⟩ := exists_foldl_discover discovery (graph.successors b)
  exact ⟨new, visited.trans grown, nodup, mem⟩

/-! ## The search -/

/-- What holds at each step of the search: the blocks found so far are reachable, each is there
once, and what an expanded block leads to is found. The blocks stand in the order of their
distances, and the search is at most one step beyond the first block that waits. -/
structure Searched (graph : Graph) (expanded waiting : List BlockId) : Prop where
  nodup : (expanded ++ waiting).Nodup
  reaches : ∀ b ∈ expanded ++ waiting, graph.Reaches b
  first : (expanded ++ waiting).head? = some start
  found : ∀ b ∈ expanded, ∀ c ∈ graph.successors b, c ∈ expanded ++ waiting
  inside : ∀ b ∈ expanded, b < graph.blocks.size
  ordered : (expanded ++ waiting).Pairwise (graph.distance · ≤ graph.distance ·)
  near : ∀ b ∈ waiting.head?, ∀ c ∈ expanded ++ waiting, graph.distance c ≤ graph.distance b + 1

theorem searched_start : Searched graph [] [start] where
  nodup := List.nodup_singleton _
  reaches b hb := List.mem_singleton.mp hb ▸ .start
  first := rfl
  found b hb := by simp at hb
  inside b hb := by simp at hb
  ordered := List.pairwise_singleton ..
  near b hb c hc := by
    rw [List.mem_singleton.1 hc]
    exact (distance_le .start).trans (Nat.zero_le _)

theorem Searched.start {expanded waiting : List BlockId} (h : Searched graph expanded waiting) :
    start ∈ expanded ++ waiting :=
  List.mem_of_head? h.first

section Step

variable {expanded waiting : List BlockId} {b : BlockId}

/-- No block that waits is nearer than the first. -/
theorem Searched.le_of_mem (h : Searched graph expanded (b :: waiting)) {c : BlockId}
    (hc : c ∈ b :: waiting) : graph.distance b ≤ graph.distance c := by
  rcases List.mem_cons.1 hc with rfl | hc
  · exact le_refl _
  · exact List.rel_of_pairwise_cons (List.pairwise_append.1 h.ordered).2.1 hc

/-- No block that is not expanded is nearer than the first that waits, and one that is not found is
farther. -/
theorem Searched.le_of_reachesIn (h : Searched graph expanded (b :: waiting)) {n : Nat}
    {c : BlockId} (hn : graph.ReachesIn n c) (hc : c ∉ expanded) :
    graph.distance b ≤ n ∧ (c ∉ expanded ++ b :: waiting → graph.distance b < n) := by
  have waits {c n} (hn : graph.ReachesIn n c) (hc : c ∉ expanded)
      (known : c ∈ expanded ++ b :: waiting) : graph.distance b ≤ n :=
    (h.le_of_mem ((List.mem_append.1 known).resolve_left hc)).trans (distance_le hn)
  induction hn with
  | start => exact ⟨waits .start hc h.start, fun unknown => absurd h.start unknown⟩
  | @step n p c hn next ih =>
    by_cases hp : p ∈ expanded
    · -- What an expanded block leads to is found.
      have known := h.found p hp c next
      exact ⟨waits (.step hn next) hc known, fun unknown => absurd known unknown⟩
    · obtain ⟨before, -⟩ := ih hp
      exact ⟨by omega, fun _ => by omega⟩

/-- A block that is found now is one step behind the block that is expanded. -/
theorem Searched.distance_of_fresh (h : Searched graph expanded (b :: waiting))
    {new : List BlockId} (fresh : graph.Fresh (expanded ++ b :: waiting) b new) {c : BlockId}
    (hc : c ∈ new) : graph.distance c = graph.distance b + 1 := by
  obtain ⟨next, unknown⟩ := (fresh.mem c).1 hc
  have reached := h.reaches b (List.mem_append_right _ List.mem_cons_self)
  have unexpanded : c ∉ expanded := fun known => unknown (List.mem_append_left _ known)
  have beyond := (h.le_of_reachesIn (reachesIn_distance (.step reached next)) unexpanded).2 unknown
  have within := distance_le_of_mem reached next
  omega

/-- A step of the search expands the first block that waits. -/
theorem Searched.step (h : Searched graph expanded (b :: waiting)) (hb : b < graph.blocks.size)
    {new : List BlockId} (fresh : graph.Fresh (expanded ++ b :: waiting) b new) :
    Searched graph (expanded ++ [b]) (waiting ++ new) := by
  have same : expanded ++ [b] ++ (waiting ++ new) = (expanded ++ b :: waiting) ++ new := by simp
  have hmem : b ∈ expanded ++ b :: waiting := List.mem_append_right _ List.mem_cons_self
  have near := h.near b rfl
  constructor
  case nodup =>
    rw [same]
    refine List.nodup_append.mpr ⟨h.nodup, fresh.nodup, ?_⟩
    rintro c hc d hd rfl
    exact ((fresh.mem c).1 hd).2 hc
  case reaches =>
    intro c hc
    rw [same] at hc
    rcases List.mem_append.mp hc with hc | hc
    · exact h.reaches c hc
    · exact .step (h.reaches b hmem) ((fresh.mem c).1 hc).1
  case first =>
    rw [same, List.head?_append, h.first]
    rfl
  case found =>
    intro c hc d hd
    rw [same]
    rcases List.mem_append.mp hc with hc | hc
    · exact List.mem_append_left _ (h.found c hc d hd)
    · obtain rfl := List.mem_singleton.mp hc
      by_cases known : d ∈ expanded ++ c :: waiting
      · exact List.mem_append_left _ known
      · exact List.mem_append_right _ ((fresh.mem d).2 ⟨hd, known⟩)
  case inside =>
    intro c hc
    rcases List.mem_append.mp hc with hc | hc
    · exact h.inside c hc
    · exact List.mem_singleton.mp hc ▸ hb
  case ordered =>
    rw [same]
    refine List.pairwise_append.2 ⟨h.ordered, ?_, ?_⟩
    · -- The new blocks are equally far.
      refine List.Pairwise.imp_of_mem ?_ (List.pairwise_of_forall fun _ _ => trivial)
      intro c d hc hd _
      rw [h.distance_of_fresh fresh hc, h.distance_of_fresh fresh hd]
    · intro c hc d hd
      rw [h.distance_of_fresh fresh hd]
      exact near c hc
  case near =>
    intro d hd c hc
    -- The next block that waits is not nearer than the one that is expanded.
    have later : graph.distance b ≤ graph.distance d := by
      rcases List.mem_append.1 (List.mem_of_head? hd) with hd | hd
      · exact h.le_of_mem (List.mem_cons_of_mem _ hd)
      · rw [h.distance_of_fresh fresh hd]
        exact Nat.le_succ _
    rw [same] at hc
    rcases List.mem_append.1 hc with hc | hc
    · exact (near c hc).trans (Nat.add_le_add_right later 1)
    · rw [h.distance_of_fresh fresh hc]
      exact Nat.add_le_add_right later 1

end Step

/-- Blocks that exist, each once, are no more than there are. -/
theorem Searched.length_le {expanded waiting : List BlockId}
    (h : Searched graph expanded waiting) : expanded.length ≤ graph.blocks.size := by
  have sub : expanded ⊆ List.range graph.blocks.size := fun b hb =>
    List.mem_range.mpr (h.inside b hb)
  have := ((List.Nodup.of_append_left h.nodup).subperm sub).length_le
  rwa [List.length_range] at this

/-- One step of the search, with what is expanded kept apart from what waits. -/
theorem search_succ (expanded waiting : List BlockId) {b : BlockId} (hb : b < graph.blocks.size) :
    ∃ new, graph.Fresh (expanded ++ b :: waiting) b new ∧
      ∀ steps, graph.search (steps + 1) ⟨expanded ++ b :: waiting, b :: waiting⟩ =
        graph.search steps ⟨expanded ++ [b] ++ (waiting ++ new), waiting ++ new⟩ := by
  obtain ⟨new, grown, fresh⟩ := graph.exists_expand ⟨expanded ++ b :: waiting, waiting⟩ b
  refine ⟨new, fresh, ?_⟩
  intro steps
  rw [search, if_pos hb, grown]
  simp

/-- The search ends with all blocks expanded, and more steps change nothing. -/
theorem search_spec {steps : Nat} {expanded waiting found : List BlockId}
    (h : Searched graph expanded waiting)
    (hsteps : graph.blocks.size < expanded.length + steps)
    (hfound : graph.search steps ⟨expanded ++ waiting, waiting⟩ = some found) :
    Searched graph found [] ∧
      ∀ more, graph.search (steps + more) ⟨expanded ++ waiting, waiting⟩ = some found := by
  induction steps generalizing expanded waiting with
  | zero =>
    have := h.length_le
    omega
  | succ steps ih =>
    cases waiting with
    | nil =>
      have ended (steps : Nat) : graph.search steps ⟨expanded ++ [], []⟩ = some expanded := by
        cases steps <;> simp [search]
      rw [ended, Option.some.injEq] at hfound
      subst hfound
      exact ⟨h, fun more => ended _⟩
    | cons b waiting =>
      by_cases hb : b < graph.blocks.size
      · obtain ⟨new, fresh, goesOn⟩ := search_succ expanded waiting hb
        rw [goesOn] at hfound
        obtain ⟨searched, further⟩ := ih (h.step hb fresh)
          (by simp only [List.length_append, List.length_singleton]; omega) hfound
        refine ⟨searched, ?_⟩
        intro more
        rw [Nat.add_right_comm, goesOn, further]
      · rw [search, if_neg hb] at hfound
        cases hfound

/-- **What the search finds** is each block to which edges lead from the start, once. -/
theorem reachable?_spec {found : List BlockId} (h : graph.reachable? = some found) :
    found.Nodup ∧ ∀ b, b ∈ found ↔ graph.Reaches b := by
  obtain ⟨searched, -⟩ := search_spec searched_start (by simp) h
  have nodup := searched.nodup
  rw [List.append_nil] at nodup
  refine ⟨nodup, fun b => ⟨fun hb => searched.reaches b (by simpa using hb), fun hb => ?_⟩⟩
  induction hb with
  | start => simpa using searched.start
  | step _ hc ih => simpa using searched.found _ ih _ hc

/-- The search goes on to the end where the blocks on the way exist. -/
theorem search_of_exists {steps : Nat} {expanded waiting : List BlockId}
    (hall : ∀ b, graph.Reaches b → b < graph.blocks.size)
    (h : Searched graph expanded waiting) :
    ∃ found, graph.search steps ⟨expanded ++ waiting, waiting⟩ = some found := by
  induction steps generalizing expanded waiting with
  | zero => cases waiting <;> exact ⟨_, rfl⟩
  | succ steps ih =>
    cases waiting with
    | nil => exact ⟨_, rfl⟩
    | cons b waiting =>
      have hb := hall b (h.reaches b (List.mem_append_right _ List.mem_cons_self))
      obtain ⟨new, fresh, goesOn⟩ := search_succ expanded waiting hb
      rw [goesOn]
      exact ih (h.step hb fresh)

/-- **The search finds an answer** where all blocks on the way exist. -/
theorem reachable?_of_exists (hall : ∀ b, graph.Reaches b → b < graph.blocks.size) :
    ∃ found, graph.reachable? = some found :=
  search_of_exists hall searched_start

/-! ## Graphs whose edges lead to blocks that exist -/

/-- The start exists, and so do all blocks to which edges lead. -/
structure Closed (graph : Graph) : Prop where
  start : start < graph.blocks.size
  targets : ∀ edge ∈ graph.edges, ∀ b ∈ edge.kind.targets, b < graph.blocks.size

theorem Closed.lt_of_reaches (h : graph.Closed) {b : BlockId} (reached : graph.Reaches b) :
    b < graph.blocks.size := by
  induction reached with
  | start => exact h.start
  | @step b c _ next _ =>
    unfold successors outgoing? at next
    split at next
    case h_1 edge ends =>
      split at ends
      · obtain ⟨e, -, he⟩ := Option.bind_eq_some_iff.1 ends
        exact h.targets edge (Array.mem_of_getElem? he) c next
      · cases ends
    case h_2 => cases next

/-- **The search is breadth first.** In a graph whose edges lead to blocks that exist it comes to an
end, however many steps it is given beyond the number of blocks. It starts with the start block and
finds each block to which a path of edges leads from there, once, in the order of the distances. The
blocks that are reported as without an end are those among them, the exit apart, that no edge
ends. -/
theorem breadthFirst_of_closed (h : graph.Closed) :
    ∃ found, graph.reachable? = some found ∧
      (∀ steps, graph.blocks.size < steps →
        graph.search steps (Discovery.empty.discover start) = some found) ∧
      found.head? = some start ∧ found.Nodup ∧ (∀ b, b ∈ found ↔ graph.Reaches b) ∧
      found.Pairwise (graph.distance · ≤ graph.distance ·) ∧
      ∃ unended, graph.unterminated? = some unended ∧ unended.Sublist found ∧
        ∀ b, b ∈ unended ↔ b ∈ found ∧ b ≠ exit ∧ graph.outgoing? b = none := by
  obtain ⟨found, answer⟩ := reachable?_of_exists fun b => h.lt_of_reaches
  obtain ⟨searched, further⟩ := search_spec searched_start (by simp) answer
  obtain ⟨nodup, reached⟩ := reachable?_spec answer
  have first := searched.first
  have ordered := searched.ordered
  rw [List.append_nil] at first ordered
  refine ⟨found, answer, ?_, first, nodup, reached, ordered, ?_⟩
  · intro steps enough
    have split : steps = graph.blocks.size + 1 + (steps - (graph.blocks.size + 1)) := by omega
    rw [split]
    exact further _
  · refine ⟨_, by rw [unterminated?, answer]; rfl, List.filter_sublist, ?_⟩
    intro b
    simp [List.mem_filter]

/-- Guarded code, a switch and a loop, with a block that nothing ends and one to which nothing
leads. -/
def routes : Graph where
  blocks := #[⟨0, [], some 0⟩, ⟨1, [], none⟩, ⟨2, [], some 1⟩, ⟨3, [], some 2⟩, ⟨4, [], some 3⟩,
    ⟨5, [], some 4⟩,
    ⟨6, [], some 5⟩, ⟨7, [], some 6⟩, ⟨8, [], none⟩, ⟨9, [], some 7⟩]
  edges := #[
    ⟨0, 0, .tryCatch 2 [⟨⟨"Exception"⟩, none, 3⟩] (some 4) 5⟩,
    ⟨1, 2, .jump 5⟩,
    ⟨2, 3, .switch (.literal .null) [⟨some (.literal .null), 5⟩, ⟨none, 3⟩] 8⟩,
    ⟨3, 4, .jump 5⟩,
    ⟨4, 5, .enumerate (.literal .null) 6⟩,
    ⟨5, 6, .advance 4 none "item" 7 1⟩,
    ⟨6, 7, .jump 6⟩,
    ⟨7, 9, .branch (.literal .null) 0 9⟩]

theorem breadthFirst_of_closed_routes :
    routes.Closed ∧ routes.reachable? = some [0, 2, 3, 4, 5, 8, 6, 7, 1] ∧
      [0, 2, 3, 4, 5, 8, 6, 7, 1].Pairwise (routes.distance · ≤ routes.distance ·) ∧
      routes.unterminated? = some [8] := by
  have closed : routes.Closed := ⟨by decide, by decide⟩
  have computed : routes.reachable? = some [0, 2, 3, 4, 5, 8, 6, 7, 1] := by decide
  obtain ⟨found, answer, -, -, -, -, ordered, -⟩ := breadthFirst_of_closed closed
  rw [computed, Option.some.injEq] at answer
  exact ⟨closed, computed, answer ▸ ordered, by decide⟩

end Graph

end StackScript
