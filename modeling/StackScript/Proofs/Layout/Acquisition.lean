import StackScript.Proofs.Layout.Structured

/-!
# Where enumerators have been acquired

A block may be come to without the edge that gives a slot its enumerator, or it lies behind that
edge. A loop that is advanced only behind its start lies behind. And the body and the handlers of a
`try` are come to from the block in front of the `try` alone: what lies behind the edge in front of
the `try` lies behind it everywhere inside.

## Main definitions

* `Graph.Lacks`: control may come to a block without the edge that gives a slot its enumerator
* `Sends`: how the targets of a step are routed
* `Near`: where an edge leads, seen from the scopes of its block
* `Job.Nests`: the edges of the blocks that a part of a layout places

## Main results

* `Graph.not_lacks_of_dominates`: a loop whose start dominates its advance does not lack its slot
* `nests_of_lays`: no edge leads into scopes that its block is not in, but those of its own `try`
* `lacks_of_path`: a block inside a `try` lacks nothing but what the block in front of it lacks
-/

namespace StackScript

open Emit Arrange

/-! ## Graphs -/

namespace Graph

/-- The edge gives the slot its enumerator. -/
def Acquires (enumerators : List (EdgeId × LocalId)) (slot : LocalId) (e : EdgeId) (edge : Edge) :
    Prop :=
  (∃ subject target, edge.kind = .enumerate subject target) ∧ enumerators.lookup e = some slot

/-- Control may come to a block without an edge that gives the slot its enumerator. -/
inductive Lacks (graph : Graph) (enumerators : List (EdgeId × LocalId)) (slot : LocalId) :
    BlockId → Prop where
  | start : Lacks graph enumerators slot start
  | step {b e edge t} : Lacks graph enumerators slot b → graph.EndsBlock b e edge →
      t ∈ edge.kind.targets → ¬ Acquires enumerators slot e edge → Lacks graph enumerators slot t

variable {graph : Graph} {enumerators : List (EdgeId × LocalId)} {slot : LocalId}
  {b origin t : BlockId} {e loop : EdgeId} {edge : Edge}

/-- Behind its edge, the start of a loop lacks its slot no longer. -/
theorem Lacks.bypasses {subject : Expr} (hg : graph.Built)
    (hloop : graph.edges[loop]? = some ⟨.ofNat loop, origin, .enumerate subject t⟩)
    (known : enumerators.lookup loop = some slot) (h : graph.Lacks enumerators slot b) :
    graph.Bypasses origin b ∨ b = origin := by
  have goes {c : BlockId} (h : c ≠ origin → graph.Bypasses origin c) :
      graph.Bypasses origin c ∨ c = origin := by
    by_cases same : c = origin
    · exact .inr same
    · exact .inl (h same)
  induction h with
  | start => exact goes .start
  | @step b e edge t _ ends target lacks ih =>
    obtain bypasses | rfl := ih
    · exact goes (.step bypasses (successors_of_endsBlock ends ▸ target))
    · obtain ⟨rfl, rfl⟩ := ends.unique ⟨hg.source hloop, hloop⟩
      exact (lacks ⟨⟨subject, _, rfl⟩, known⟩).elim

/-- **A loop whose start dominates its advance** does not lack its slot there. -/
theorem not_lacks_of_dominates {subject : Expr} (hg : graph.Built)
    (hloop : graph.edges[loop]? = some ⟨.ofNat loop, origin, .enumerate subject t⟩)
    (known : enumerators.lookup loop = some slot) (ne : b ≠ origin)
    (dominates : graph.Dominates origin b) : ¬ graph.Lacks enumerators slot b :=
  fun lacks => (lacks.bypasses hg hloop known).elim dominates ne

end Graph

/-! ## Routes -/

section Routes

variable {env : LayoutEnv} {scope : Scope} {s s₁ s' : LayoutState} {t : BlockId}
  {targets others : List BlockId}

/-- A target has a route, and is left to the scope around if the route leads there. -/
def Routes (env : LayoutEnv) (scope : Scope) (s : LayoutState) (t : BlockId) : Prop :=
  ∃ r, route env.ranges scope t = .ok r ∧ (r = .leave → t = Graph.exit ∨ t ∈ s.escapes)

/-- A step by which targets are routed. -/
def Sends {α : Type} (env : LayoutEnv) (scope : Scope) (targets : List BlockId)
    (step : Arrange α) : Prop :=
  ∀ s x s', Ends step s x s' →
    (∀ t ∈ s.escapes, t ∈ s'.escapes) ∧ ∀ t ∈ targets, Routes env scope s' t

theorem Routes.mono (h : Routes env scope s t) (le : ∀ t ∈ s.escapes, t ∈ s'.escapes) :
    Routes env scope s' t := by
  obtain ⟨r, routed, left⟩ := h
  exact ⟨r, routed, fun leaves => (left leaves).imp_right (le t)⟩

namespace Sends

variable {α β : Type} {step : Arrange α}

theorem bind {next : α → Arrange β} (h : Sends env scope targets step)
    (h' : ∀ x, Sends env scope others (next x)) :
    Sends env scope (targets ++ others) (step >>= next) := by
  intro s y s' ends
  obtain ⟨x, s₁, first, second⟩ := ends_bind.mp ends
  obtain ⟨le, sent⟩ := h s x s₁ first
  obtain ⟨le', sent'⟩ := h' x s₁ y s' second
  refine ⟨fun t ht => le' t (le t ht), fun t ht => ?_⟩
  obtain ht | ht := List.mem_append.mp ht
  · exact (sent t ht).mono le'
  · exact sent' t ht

/-- A step that routes nothing stands in front of one that does. -/
theorem before {next : α → Arrange β} (h : Sends env scope [] step)
    (h' : ∀ x, Sends env scope targets (next x)) : Sends env scope targets (step >>= next) := by
  have sent := h.bind h'
  rwa [List.nil_append] at sent

theorem mono (h : Sends env scope targets step) (le : ∀ t ∈ others, t ∈ targets) :
    Sends env scope others step :=
  fun s x s' ends => ⟨(h s x s' ends).1, fun t ht => (h s x s' ends).2 t (le t ht)⟩

/-- A step that leaves nothing to the scope around. -/
theorem same (h : ∀ s x s', Ends step s x s' → s'.escapes = s.escapes) :
    Sends env scope [] step :=
  fun s x s' ends => ⟨fun _ ht => h s x s' ends ▸ ht, nofun⟩

theorem pure (x : α) : Sends env scope [] (Pure.pure x) :=
  same fun _ _ _ ends => by rw [← (ends_pure.mp ends).2]

theorem write (step : Emit α) : Sends env scope [] (Arrange.write step) :=
  same fun _ _ _ ends => by
    obtain ⟨_, -, rfl⟩ := ends_write.mp ends
    rfl

theorem throw (cause : Cause) :
    Sends env scope targets (MonadExcept.throw cause : Arrange α) :=
  fun _ _ _ ends => (not_ends_throw ends).elim

/-- A look at the state. -/
theorem look {next : LayoutState → Arrange α} (h : ∀ s, Sends env scope targets (next s)) :
    Sends env scope targets (get >>= next) := by
  intro s x s' ends
  simp only [ends_bind, ends_get] at ends
  obtain ⟨_, _, ⟨rfl, rfl⟩, ends⟩ := ends
  exact h _ _ _ _ ends

end Sends

theorem escapes_accept (s : LayoutState) (t : BlockId) (r : Route) :
    (∀ c ∈ s.escapes, c ∈ (s.accept t r).escapes) ∧
      (r = .leave → t = Graph.exit ∨ t ∈ (s.accept t r).escapes) := by
  cases r with
  | within =>
    refine ⟨fun c hc => ?_, nofun⟩
    show c ∈ (s.pushLast t).escapes
    unfold LayoutState.pushLast
    split <;> exact hc
  | exit | endFinally => exact ⟨fun _ hc => hc, nofun⟩
  | leave =>
    refine ⟨fun c hc => ?_, fun _ => mem_escape s t⟩
    show c ∈ (s.escape t).escapes
    unfold LayoutState.escape
    split
    · exact hc
    · exact List.mem_append_left _ hc

theorem sends_enqueue : Sends env scope [t] (enqueue env scope t) := by
  intro s x s' ends
  obtain ⟨r, routed, rfl⟩ := ends_enqueue.mp ends
  obtain ⟨le, left⟩ := escapes_accept s t r
  refine ⟨le, fun c hc => ?_⟩
  obtain rfl := List.mem_singleton.mp hc
  exact ⟨r, routed, left⟩

/-- A jump leaves what its target is left by. -/
theorem escapes_goTo (s : LayoutState) (t : BlockId) (l : Label) (r : Route) :
    (s.goTo t l r).escapes = (s.accept t r).escapes := by
  cases r with
  | within =>
    simp only [LayoutState.goTo, LayoutState.pushFirst, LayoutState.accept, LayoutState.pushLast]
    split <;> split <;> rfl
  | exit | leave | endFinally => rfl

theorem sends_transfer : Sends env scope [t] (transfer env scope t) := by
  intro s x s' ends
  obtain ⟨r, routed, rfl⟩ := goTo_of_ends_transfer ends
  have sent (s : LayoutState) {s' : LayoutState} (same : s'.escapes = (s.accept t r).escapes) :
      (∀ c ∈ s.escapes, c ∈ s'.escapes) ∧ ∀ c ∈ [t], Routes env scope s' c := by
    obtain ⟨le, left⟩ := escapes_accept s t r
    refine ⟨fun c hc => same ▸ le c hc, fun c hc => ?_⟩
    obtain rfl := List.mem_singleton.mp hc
    exact ⟨r, routed, fun leaves => same ▸ left leaves⟩
  split
  · have jumped := sent (s.withLabel t).2 (escapes_goTo (s.withLabel t).2 t (s.withLabel t).1 r)
    rwa [escapes_withLabel] at jumped
  · exact sent s rfl

theorem sends_transferIf {kind : BranchKind} :
    Sends env scope [t] (transferIf env scope kind t) := by
  intro s x s' ends
  obtain ⟨r, routed, ends⟩ := branch_of_ends_transferIf ends
  cases r
  case within | exit =>
    rw [ends]
    obtain ⟨le, left⟩ := escapes_accept
      ((s.withLabel t).2.mapAsm (·.branch kind (s.withLabel t).1)) t _
    refine ⟨fun c hc => le c ((escapes_withLabel s t).symm ▸ hc), fun c hc => ?_⟩
    obtain rfl := List.mem_singleton.mp hc
    exact ⟨_, routed, left⟩
  case leave | endFinally =>
    obtain ⟨s₁, transferred, rfl⟩ := ends
    obtain ⟨le, sent⟩ := sends_transfer _ _ _ transferred
    exact ⟨fun c hc => le c ((escapes_withLabel s t).symm ▸ hc), sent⟩

theorem sends_enumeratorSlot (e : EdgeId) : Sends env scope [] (enumeratorSlot e) := by
  refine .look fun s => ?_
  split
  · exact .pure _
  · refine Sends.before (.write _) fun slot => Sends.before (.same ?_) fun _ => .pure _
    intro s x s' ends
    obtain rfl := ends_modify.mp ends
    rfl

/-- The targets of all cases but the default. -/
theorem sends_placeCases (subject : LocalId) (cases_ : List SwitchCase) :
    Sends env scope ((cases_.filter fun c => !c.isDefault).map (·.target))
      (placeCases env scope subject cases_) := by
  induction cases_ with
  | nil => exact .pure _
  | cons c rest ih =>
    unfold placeCases
    cases value : c.value with
    | none =>
      rw [List.filter_cons_of_neg (by simp [SwitchCase.isDefault, value])]
      exact ih
    | some value' =>
      rw [List.filter_cons_of_pos (by simp [SwitchCase.isDefault, value]), List.map_cons]
      exact Sends.before (.write _) fun _ => sends_transferIf.bind fun _ => ih

/-- **The end of a block** whose edge opens no scope routes the targets of the edge. -/
theorem sends_placeEdge {graph : Graph} {source : BlockId} {enter : Enter} {e : EdgeId}
    {edge : Edge} (plain : edge.kind.isTry = false) (fits : edge.kind.Fits graph source) :
    Sends env scope edge.kind.targets (placeEdge env enter scope e edge) := by
  unfold placeEdge
  cases kind : edge.kind with
  | jump target => exact sends_transfer
  | tryCatch =>
    rw [kind] at plain
    cases plain
  | branch condition ifTrue ifFalse =>
    refine Sends.mono (Sends.before (.write _) fun _ => sends_transferIf.bind fun _ =>
      sends_transfer) fun t ht => ?_
    simpa [EdgeKind.targets, or_comm] using ht
  | enumerate subject target =>
    exact Sends.before (.write _) fun _ => (sends_enumeratorSlot e).before fun _ =>
      Sends.before (.write _) fun _ => sends_transfer
  | advance loop key value body next =>
    refine .look fun s => ?_
    split
    · exact .throw _
    · refine Sends.mono (Sends.before (.write _) fun _ => sends_transferIf.bind fun _ =>
        Sends.before (.write _) fun _ => sends_transfer) fun t ht => ?_
      simpa [EdgeKind.targets, or_comm] using ht
  | «switch» subject cases_ next =>
    rw [kind] at fits
    refine Sends.mono (Sends.before (.write _) fun slot =>
      (sends_placeCases slot cases_).bind fun _ => Sends.before (.write _) fun _ =>
        sends_transfer.bind fun _ => sends_enqueue) fun t ht => ?_
    simp only [List.mem_append, List.mem_singleton]
    obtain ht | ht := List.mem_append.mp ht
    · -- A case with a test jumps to its target itself. The target of the default is that of the
      -- last jump.
      obtain ⟨c, hc, rfl⟩ := List.mem_map.mp ht
      cases default : c.isDefault with
      | false => exact .inl (List.mem_map.mpr ⟨c, List.mem_filter.mpr ⟨hc, by simp [default]⟩, rfl⟩)
      | true =>
        refine .inr (.inl ?_)
        have other := defaultTarget_of_mem fits hc default
        unfold defaultTarget? at other
        rw [other, Option.getD_some]
    · exact .inr (.inr (List.mem_singleton.mp ht))

end Routes

/-! ## Where edges lead -/

/-- Where an edge leads, seen from the scopes of its block: to the exit, to a block of these scopes
or of scopes around, or to the first block of a part of its own `try`. -/
inductive Near (env : LayoutEnv) (placements : List PlacedBlock) (x : PlacedBlock) (t : BlockId) :
    Prop where
  | exit : t = Graph.exit → Near env placements x t
  | around {outer} : outer <:+ x.path → innermost? env.ranges t = (scopeOf outer).range →
      Near env placements x t
  | part {scope} : ⟨t, ⟨x.block, scope⟩ :: x.path⟩ ∈ placements → Near env placements x t

namespace Job

/-- The scopes that all blocks of a part are in. -/
def around : Job → Path
  | .drain path | .block path _ | .enter path _ _ => path
  | .catches _ path _ _ _ _ _ | .finally _ path _ _ _ => path

/-- What a part of a layout leaves to the parts around it. -/
def Passes (s' : LayoutState) (t : BlockId) : Job → Prop
  | .drain path | .block path _ =>
    (scopeOf path).kind = .finally t ∨ (scopeOf path).isLeft = true ∧ t ∈ s'.escapes
  | .enter path _ escapes =>
    (scopeOf path).kind = .finally t ∨ (scopeOf path).isLeft = true ∧ t ∈ escapes
  | .catches _ _ _ _ _ _ escapes => t ∈ escapes
  | .finally _ _ _ _ next => t = next

/-- The first blocks of a part are placed in its scopes. -/
def Seeds (placements : List PlacedBlock) (s : LayoutState) : Job → Prop
  | .drain path => ∀ b rest, s.queue = b :: rest → b ∉ s.placed → ⟨b, path⟩ ∈ placements
  | .block path b => ⟨b, path⟩ ∈ placements
  | .enter path seed _ => ⟨seed, path⟩ ∈ placements
  | .catches source path _ _ _ clauses _ =>
    ∀ clause ∈ clauses, ∃ scope, ⟨clause.target, ⟨source, scope⟩ :: path⟩ ∈ placements
  | .finally source path _ handler _ =>
    ∀ b ∈ handler, ∃ scope, ⟨b, ⟨source, scope⟩ :: path⟩ ∈ placements

/-- **The edges of new blocks** lead near the scopes of their blocks, or to what is left to the
parts around. -/
structure Nests (env : LayoutEnv) (job : Job) (p p' : Progress) : Prop where
  placements : ∀ x ∈ p.placements, x ∈ p'.placements
  escapes : ∀ t ∈ p.state.escapes, t ∈ p'.state.escapes
  seeds : job.Seeds p'.placements p.state
  new : ∀ x ∈ p'.placements, x ∈ p.placements ∨ job.around <:+ x.path ∧
    ∀ t ∈ env.graph.successors x.block, Near env p'.placements x t ∨ job.Passes p'.state t

end Job

section Nesting

variable {env : LayoutEnv} {job : Job} {p p' : Progress} {placements placements' : List PlacedBlock}
  {x : PlacedBlock} {t : BlockId} {path outer : Path}

theorem Near.mono (h : Near env placements x t) (le : ∀ y ∈ placements, y ∈ placements') :
    Near env placements' x t := by
  cases h with
  | exit is => exact .exit is
  | around suffix range => exact .around suffix range
  | part mem => exact .part (le _ mem)

/-- What has a route in scopes around a block leads near it, or is left further. -/
theorem Routes.near {s' : LayoutState} (h : Routes env (scopeOf path) s' t)
    (suffix : path <:+ x.path) :
    Near env placements x t ∨ (Job.drain path).Passes s' t := by
  obtain ⟨r, routed, left⟩ := h
  cases r with
  | within => exact .inl (.around suffix (route_within routed).2)
  | exit => exact .inl (.exit (route_exit routed).1)
  | leave =>
    obtain rfl | mem := left rfl
    · exact .inl (.exit rfl)
    · exact .inr (.inr ⟨route_leave routed, mem⟩)
  | endFinally => exact .inr (.inl (route_endFinally routed))

/-- **Every part of a layout** places blocks whose edges lead near them. -/
theorem nests_of_lays (hg : env.graph.Built) (h : Lays env job p p') : job.Nests env p p' := by
  induction h with
  | @done path p hq =>
    refine ⟨fun _ => id, fun _ => id, fun b rest queue => ?_, fun _ => .inl⟩
    rw [hq] at queue
    cases queue
  | @skip path p b rest p' hq hb _ ih =>
    refine ⟨ih.placements, ih.escapes, fun b' rest' queue fresh => ?_, ih.new⟩
    rw [hq] at queue
    cases queue
    exact (fresh hb).elim
  | @place path p b rest p₁ p' hq hb _ _ ih₁ ih₂ =>
    refine ⟨fun x hx => ih₂.placements x (ih₁.placements x hx),
      fun t ht => ih₂.escapes t (ih₁.escapes t ht), fun b' rest' queue _ => ?_, fun x hx => ?_⟩
    · rw [hq] at queue
      cases queue
      exact ih₂.placements _ ih₁.seeds
    · obtain hx | new := ih₂.new x hx
      · refine (ih₁.new x hx).imp_right fun ⟨suffix, leads⟩ => ⟨suffix, fun t ht => ?_⟩
        refine (leads t ht).imp (·.mono ih₂.placements) fun passes => ?_
        exact passes.imp_right fun ⟨left, mem⟩ => ⟨left, ih₂.escapes t mem⟩
      · exact .inr new
  | @plain path p b e edge s₁ s' enter _ hstatements hends hk hedge =>
    obtain ⟨block, d, -, -, -, rfl⟩ := ends_placeStatements hstatements
    obtain ⟨le, sent⟩ := sends_placeEdge hk (hg.fits hends.2) _ _ _ hedge
    refine ⟨fun x hx => List.mem_cons_of_mem _ hx, fun t ht => le t ?_, List.mem_cons_self,
      fun x hx => ?_⟩
    · exact (escapes_beginBlock p.state b).symm ▸ ht
    · obtain rfl | hx := List.mem_cons.mp hx
      · refine .inr ⟨List.suffix_refl _, fun t ht => ?_⟩
        rw [successors_of_endsBlock hends] at ht
        exact (sent t ht).near (List.suffix_refl _)
      · exact .inl hx
  | @guard path p b e edge body catches finally? next s₁ p₂ p₃ p₄ s₅ r fromBody fromCatches _
      hstatements hends hkind _ _ _ hescapes hr ih₂ ih₃ ih₄ =>
    obtain ⟨block, d, -, -, -, rfl⟩ := ends_placeStatements hstatements
    have routed := (routed_of_ends_enqueueEscapes hescapes).trans (routed_accept (s := s₅) hr)
    rw [List.append_nil] at routed
    obtain ⟨-, left⟩ := escapes_accept s₅ next r
    -- What the parts leave, and the block behind the `try`, is routed in the scope around.
    have passed {x : PlacedBlock} (suffix : path <:+ x.path) {t : BlockId}
        (ht : t ∈ fromBody ++ fromCatches ∨ t = next) :
        Near env p₄.placements x t ∨ (Job.block path b).Passes (s₅.accept next r) t := by
      obtain ht | rfl := ht
      · obtain ⟨r', hr', -, left⟩ := routed.routes t ht
        exact Routes.near ⟨r', hr', left⟩ suffix
      · exact Routes.near ⟨r, hr, left⟩ suffix
    have kept₃ := ih₄.placements
    have kept₂ (x : PlacedBlock) (hx : x ∈ p₂.placements) : x ∈ p₄.placements :=
      kept₃ x (ih₃.placements x hx)
    have kept₁ (x : PlacedBlock) (hx : x ∈ ⟨b, path⟩ :: p.placements) : x ∈ p₄.placements :=
      kept₂ x (ih₂.placements x hx)
    refine ⟨fun x hx => kept₁ x (List.mem_cons_of_mem _ hx), fun t ht => ?_,
      kept₁ _ List.mem_cons_self, fun x hx => ?_⟩
    · refine routed.escapes t (ih₄.escapes t (ih₃.escapes t (ih₂.escapes t ?_)))
      exact (escapes_beginBlock p.state b).symm ▸ ht
    · -- The block in front of the `try`, or one that a part places.
      obtain hx | ⟨suffix, leads⟩ := ih₄.new x hx
      · obtain hx | ⟨suffix, leads⟩ := ih₃.new x hx
        · obtain hx | ⟨suffix, leads⟩ := ih₂.new x hx
          · obtain rfl | hx := List.mem_cons.mp hx
            · refine .inr ⟨List.suffix_refl _, fun t ht => ?_⟩
              rw [successors_of_endsBlock hends, hkind] at ht
              obtain rfl | ht := List.mem_cons.mp ht
              · exact .inl (.part (kept₂ _ ih₂.seeds))
              obtain ht | ht := List.mem_append.mp ht
              · obtain ht | ht := List.mem_append.mp ht
                · obtain ⟨clause, hc, rfl⟩ := List.mem_map.mp ht
                  obtain ⟨scope, seed⟩ := ih₃.seeds clause hc
                  exact .inl (.part (kept₃ _ seed))
                · obtain ⟨scope, seed⟩ := ih₄.seeds t (by simpa using ht)
                  exact .inl (.part seed)
              · exact passed (List.suffix_refl _) (.inr (List.mem_singleton.mp ht))
            · exact .inl hx
          · have suffix : path <:+ x.path := (List.suffix_cons _ _).trans suffix
            refine .inr ⟨suffix, fun t ht => ?_⟩
            obtain near | crossed | ⟨-, mem⟩ := leads t ht
            · exact .inl (near.mono kept₂)
            · cases crossed
            · exact passed suffix (.inl (List.mem_append_left _ mem))
        · refine .inr ⟨suffix, fun t ht => ?_⟩
          obtain near | mem := leads t ht
          · exact .inl (near.mono kept₃)
          · exact passed suffix (.inl (List.mem_append_right _ mem))
      · refine .inr ⟨suffix, fun t ht => ?_⟩
        obtain near | rfl := leads t ht
        · exact .inl near
        · exact passed suffix (.inr rfl)
  | @enter path p seed p₁ hseed _ ih =>
    refine ⟨ih.placements, fun _ => id, ih.seeds seed [] rfl hseed, fun x hx => ?_⟩
    exact ih.new x hx
  | noCatch => exact ⟨fun _ => id, fun _ => id, nofun, fun _ => .inl⟩
  | @«catch» source path tryStart tryEnd past clause rest p s₁ p₂ p' escapes others hbind _ _ ih₁
      ih₂ =>
    obtain ⟨d, -, rfl⟩ := ends_write.mp hbind
    refine ⟨fun x hx => ih₂.placements x (ih₁.placements x hx),
      fun t ht => ih₂.escapes t (ih₁.escapes t ht), fun c hc => ?_, fun x hx => ?_⟩
    · obtain rfl | hc := List.mem_cons.mp hc
      · exact ⟨_, ih₂.placements _ ih₁.seeds⟩
      · exact ih₂.seeds c hc
    · obtain hx | ⟨suffix, leads⟩ := ih₂.new x hx
      · refine (ih₁.new x hx).imp_right fun ⟨suffix, leads⟩ =>
          ⟨(List.suffix_cons _ _).trans suffix, fun t ht => ?_⟩
        obtain near | crossed | ⟨-, mem⟩ := leads t ht
        · exact .inl (near.mono ih₂.placements)
        · cases crossed
        · exact .inr (List.mem_append_left _ mem)
      · exact .inr ⟨suffix, fun t ht => (leads t ht).imp_right (List.mem_append_right _)⟩
  | noFinally => exact ⟨fun _ => id, fun _ => id, nofun, fun _ => .inl⟩
  | @«finally» source path tryStart handler next p p₁ escapes _ ih =>
    refine ⟨ih.placements, ih.escapes, fun b hb => ?_, fun x hx => ?_⟩
    · obtain rfl := Option.mem_some_iff.mp hb
      exact ⟨_, ih.seeds⟩
    · refine (ih.new x hx).imp_right fun ⟨suffix, leads⟩ =>
        ⟨(List.suffix_cons _ _).trans suffix, fun t ht => ?_⟩
      obtain near | crossed | ⟨left, -⟩ := leads t ht
      · exact .inl near
      · cases crossed
        exact .inr rfl
      · cases left

end Nesting

/-! ## Whole layouts -/

section Whole

variable {env : LayoutEnv} {draft : Draft} {p : Progress} {x : PlacedBlock} {t : BlockId}
  {tag : Tag}
  {enumerators : List (EdgeId × LocalId)} {slot : LocalId}

theorem Chart.Steps.staged {c c' : Chart} (h : Chart.Steps env c c') (start : c.Staged env) :
    c'.Staged env := by
  induction h with
  | refl => exact start
  | tail _ step ih => exact ih.step step

/-- The placements of a whole layout are those of a chart. -/
theorem exists_staged_of_lays (hg : env.graph.Built) (hdraft : Assembler.Evolves .empty draft.asm)
    (h : Lays env (.drain []) ⟨.start draft, []⟩ p) :
    ∃ c : Chart, c.Staged env ∧ c.placements = p.placements ∧ c.state = p.state := by
  obtain ⟨ready, slots, starts⟩ := begins_start hdraft
  obtain ⟨c, steps, fits, -⟩ := steps_of_lays hg h ready slots starts (.start draft)
    ⟨rfl, rfl, rfl, rfl⟩
  exact ⟨c, steps.staged Chart.staged_start, fits.placements, fits.state⟩

/-- **No edge leads into scopes** that its block is not in, but for those of its own `try`. -/
theorem exists_placement_of_successor (hg : env.graph.Built)
    (hdraft : Assembler.Evolves .empty draft.asm) (h : Lays env (.drain []) ⟨.start draft, []⟩ p)
    (hx : x ∈ p.placements) (ht : t ∈ env.graph.successors x.block) :
    t = Graph.exit ∨ ∃ y ∈ p.placements, y.block = t ∧
      ∀ tag ∈ y.path, tag ∈ x.path ∨ tag.source = x.block := by
  obtain ⟨c, staged, placements, state⟩ := exists_staged_of_lays hg hdraft h
  obtain ⟨ready, slots, starts⟩ := begins_start hdraft
  have covers := covers_of_lays hg h ready slots starts
  have nests := nests_of_lays hg h
  have placed (b : BlockId) : b ∈ p.state.placed ↔ ∃ y ∈ p.placements, y.block = b := by
    rw [← state, staged.placed, placements, List.mem_map]
  obtain hx' | ⟨-, leads⟩ := nests.new x hx
  · cases hx'
  obtain near | crossed | ⟨left, -⟩ := leads t ht
  · cases near with
    | exit is => exact .inl is
    | @part scope mem =>
      refine .inr ⟨_, mem, rfl, fun tag htag => ?_⟩
      obtain rfl | htag := List.mem_cons.mp htag
      · exact .inr rfl
      · exact .inl htag
    | @around outer suffix range =>
      refine or_iff_not_imp_left.mpr fun other => ?_
      -- The target is placed, and its range tells where.
      have settled : p.state.Settled t :=
        (covers.targets x.block ((placed _).mpr ⟨x, hx, rfl⟩) (by simp [LayoutState.start]) t
          ht).resolve_right nofun
      have mem : t ∈ p.state.placed :=
        (placed_of_settled h hdraft settled).resolve_right fun is => other is.1
      obtain ⟨y, hy, rfl⟩ := (placed t).mp mem
      refine ⟨y, hy, rfl, fun tag htag => .inl (suffix.subset ?_)⟩
      rw [← placements] at hx hy
      have known := staged.known_suffix (staged.known x hx) suffix
      rwa [← staged.known_unique (staged.known y hy) known
        ((staged.ranges y hy other).symm.trans range)]
  · cases crossed
  · cases left

/-- **A block inside a `try`** lacks nothing but what the block in front of the `try` lacks: the way
to it leads through that block. -/
theorem lacks_of_path (hg : env.graph.Built) (hdraft : Assembler.Evolves .empty draft.asm)
    (h : Lays env (.drain []) ⟨.start draft, []⟩ p) (hx : x ∈ p.placements) (htag : tag ∈ x.path)
    (lacks : env.graph.Lacks enumerators slot x.block) :
    env.graph.Lacks enumerators slot tag.source := by
  obtain ⟨c, staged, placements, state⟩ := exists_staged_of_lays hg hdraft h
  -- A block has one place, so it is enough to find one for which this holds.
  suffices ∀ b, env.graph.Lacks enumerators slot b → b = Graph.exit ∨ ∃ y ∈ p.placements,
      y.block = b ∧ ∀ tag ∈ y.path, env.graph.Lacks enumerators slot tag.source by
    obtain exit | ⟨y, hy, same, inside⟩ := this x.block lacks
    · rw [← placements] at hx
      rw [staged.exit x hx exit] at htag
      cases htag
    · rw [← placements] at hx hy
      rw [← staged.placement_unique hy hx same] at htag
      exact inside tag htag
  intro b lacks
  induction lacks with
  | start =>
    refine .inr ⟨⟨Graph.start, []⟩, ?_, rfl, nofun⟩
    exact (nests_of_lays hg h).seeds Graph.start [] rfl (by simp [LayoutState.start])
  | @step b e edge t lacks ends target _ ih =>
    obtain rfl | ⟨y, hy, rfl, inside⟩ := ih
    · exact (ne_exit_of_endsBlock hg ends rfl).elim
    · refine (exists_placement_of_successor hg hdraft h hy
        (successors_of_endsBlock ends ▸ target)).imp_right ?_
      rintro ⟨z, hz, same, leads⟩
      refine ⟨z, hz, same, fun tag htag => ?_⟩
      obtain htag | own := leads tag htag
      · exact inside tag htag
      · exact own ▸ lacks

end Whole

end StackScript
