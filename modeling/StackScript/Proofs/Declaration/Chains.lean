import Mathlib.Data.List.Chain
import Mathlib.Data.List.Nodup
import Mathlib.Data.List.Perm.Subperm
import StackScript.Proofs.Declaration.Population

/-!
# Chains of bases

A type may name a base that is not there, itself, or one of the types below it. The walk from a type
along its bases notes the keys it has met, and there are only so many of them: so it ends, and where
it ends is told by the declarations alone.

## Main definitions

* `Table.Declares`: the unconditional declaration of a name
* `Table.Extends`: a type and the declaration of its base
* `Table.Stops`: where a walk along the bases cannot go on
* `Table.BaseChain`: a type and its bases, as far as they go
* `Nearest`: the match of the nearest type of a chain

## Main results

* `Table.baseChain_spec`: the walk comes to such a chain
* `Table.BaseChain.unique`: there is no other one
* `Table.baseChain_walk`: the walk ends, and what is looked up is looked up along it
-/

namespace StackScript

variable {α : Type}

/-! ## What is looked up along a chain -/

/-- What is looked up along a chain of types: the match of the nearest type that has one. -/
inductive Nearest {α : Type} (find : TypeEntry → Option α) (chain : List TypeEntry) :
    Option (TypeEntry × α) → Prop
  | found {nearer farther : List TypeEntry} {t : TypeEntry} {x : α} :
      chain = nearer ++ t :: farther → (∀ s ∈ nearer, find s = none) → find t = some x →
      Nearest find chain (some (t, x))
  | missing : (∀ t ∈ chain, find t = none) → Nearest find chain none

theorem nearest_findSome? (find : TypeEntry → Option α) (chain : List TypeEntry) :
    Nearest find chain (chain.findSome? fun t => (find t).map fun x => (t, x)) := by
  cases h : chain.findSome? fun t => (find t).map fun x => (t, x) with
  | none =>
    refine .missing fun t mem => ?_
    simpa using List.findSome?_eq_none_iff.mp h t mem
  | some nearest =>
    obtain ⟨nearer, t, farther, split, found, before⟩ := List.findSome?_eq_some_iff.mp h
    obtain ⟨x, own, rfl⟩ := Option.map_eq_some_iff.mp found
    exact .found split (fun s mem => by simpa using before s mem) own

/-- There is no other one. -/
theorem Nearest.eq_findSome? {find : TypeEntry → Option α} {chain : List TypeEntry}
    {nearest : Option (TypeEntry × α)} (h : Nearest find chain nearest) :
    nearest = chain.findSome? fun t => (find t).map fun x => (t, x) := by
  cases h with
  | @found nearer farther t x split before own =>
    have passed : (nearer.findSome? fun t => (find t).map fun x => (t, x)) = none :=
      List.findSome?_eq_none_iff.mpr fun s mem => by rw [before s mem, Option.map_none]
    rw [split, List.findSome?_append, passed, Option.none_or, List.findSome?_cons, own]
    rfl
  | missing none =>
    exact (List.findSome?_eq_none_iff.mpr fun s mem => by rw [none s mem, Option.map_none]).symm

/-- The nearest type that has a match. -/
theorem find?_eq_map_findSome? (find : TypeEntry → Option α) (chain : List TypeEntry) :
    chain.find? (fun t => (find t).isSome) =
      (chain.findSome? fun t => (find t).map fun x => (t, x)).map (·.1) := by
  induction chain with
  | nil => rfl
  | cons t rest ih =>
    rw [List.find?_cons, List.findSome?_cons]
    cases find t with
    | none => exact ih
    | some x => rfl

/-- A walk in which each step is determined goes one way: of two walks from one start, one is the
beginning of the other. -/
theorem prefix_or_prefix_of_isChain {R : α → α → Prop} (determined : ∀ a b c, R a b → R a c → b = c)
    {l l' : List α} (h : l.IsChain R) (h' : l'.IsChain R) (start : l.head? = l'.head?) :
    l <+: l' ∨ l' <+: l := by
  induction l generalizing l' with
  | nil => exact .inl List.nil_prefix
  | cons a rest ih =>
    cases l' with
    | nil => exact .inr List.nil_prefix
    | cons a' rest' =>
      obtain rfl : a = a' := Option.some.inj start
      simp only [List.prefix_cons_inj]
      cases rest with
      | nil => exact .inl List.nil_prefix
      | cons b rest =>
        cases rest' with
        | nil => exact .inr List.nil_prefix
        | cons b' rest' =>
          rw [List.isChain_cons_cons] at h h'
          exact ih h.2 h'.2 (congrArg some (determined _ _ _ h.1 h'.1))

namespace Table

variable {table : Table} {entry t next : TypeEntry} {name : String} {met met' : List String}
    {steps : Nat} {chain : List TypeEntry} {chain' : List TypeEntry}

/-! ## Declarations of bases -/

/-- The type is declared unconditionally under the name. -/
def Declares (table : Table) (name : String) (t : TypeEntry) : Prop :=
  t ∈ table.types ∧ t.placement.conditional = false ∧ t.name.key = nameKey name

/-- The second type is declared unconditionally under the name that the first one names as its
base. -/
def Extends (table : Table) (t next : TypeEntry) : Prop :=
  ∃ base, t.base = some base ∧ table.Declares base.text next

/-- A walk that has met some keys cannot go on behind a type: it has no base, its base is not
declared unconditionally, or the key of the base has been met. -/
def Stops (table : Table) (met : List String) (t : TypeEntry) : Prop :=
  t.base = none ∨
    ∃ base, t.base = some base ∧ ((∀ s, ¬ table.Declares base.text s) ∨ nameKey base.text ∈ met)

theorem declares_of_type? (h : table.type? name = some t) : table.Declares name t := by
  have own := List.find?_some h
  simp only [Bool.and_eq_true, Bool.not_eq_true', beq_iff_eq] at own
  exact ⟨List.mem_of_find?_eq_some h, own⟩

theorem type?_eq_none_iff : table.type? name = none ↔ ∀ s, ¬ table.Declares name s := by
  simp [type?, Declares]

theorem Stops.mono (h : table.Stops met t) (sub : met ⊆ met') : table.Stops met' t := by
  obtain none | ⟨base, named, stops⟩ := h
  · exact .inl none
  · exact .inr ⟨base, named, stops.imp_right fun mem => sub mem⟩

/-- Behind a type where the walk stops there is no base that it has not met. -/
theorem Stops.mem_of_extends (h : table.Stops met t) (onward : table.Extends t next) :
    next.name.key ∈ met := by
  obtain ⟨base, named, declared⟩ := onward
  obtain none | ⟨base', named', stops⟩ := h
  · rw [none] at named
    cases named
  · obtain rfl := Option.some.inj (named.symm.trans named')
    obtain missing | mem := stops
    · exact (missing next declared).elim
    · exact declared.2.2 ▸ mem

/-! ## Chains -/

/-- A type and its bases: each is the unconditional declaration of the base of the one in front of
it, no key comes twice, and the last one is where the walk stops. -/
structure BaseChain (table : Table) (entry : TypeEntry) (chain : List TypeEntry) : Prop where
  starts : chain.head? = some entry
  distinct : (chain.map (·.name.key)).Nodup
  extending : chain.IsChain table.Extends
  stops : ∀ last ∈ chain.getLast?, table.Stops (chain.map (·.name.key)) last

/-- A chain that stops does not go on. -/
theorem BaseChain.eq_of_prefix (h : table.BaseChain entry chain) (h' : table.BaseChain entry chain')
    (part : chain <+: chain') : chain = chain' := by
  obtain ⟨more, rfl⟩ := part
  cases more with
  | nil => rw [List.append_nil]
  | cons next more =>
    cases last : chain.getLast? with
    | none =>
      have starts := h.starts
      rw [List.getLast?_eq_none_iff.mp last] at starts
      cases starts
    | some t =>
      have onward := (List.isChain_append.mp h'.extending).2.2 t last next rfl
      have again := (h.stops t last).mem_of_extends onward
      have distinct := h'.distinct
      rw [List.map_append, List.nodup_append] at distinct
      exact (distinct.2.2 _ again _ List.mem_cons_self rfl).elim

/-- **A type has one chain of bases**, where a name is declared unconditionally only once. -/
theorem BaseChain.unique (once : ∀ t a b, table.Extends t a → table.Extends t b → a = b)
    (h : table.BaseChain entry chain) (h' : table.BaseChain entry chain') : chain = chain' := by
  obtain part | part := prefix_or_prefix_of_isChain once h.extending h'.extending
    (h.starts.trans h'.starts.symm)
  · exact h.eq_of_prefix h' part
  · exact (h'.eq_of_prefix h part).symm

/-! ## The walk -/

/-- What the walk does behind a type: it stops there, or goes on with the declaration of the base,
whose key it has not met. -/
theorem basesFrom_cases (table : Table) (met : List String) (entry : TypeEntry) :
    ((∀ steps, table.basesFrom steps met entry = []) ∧ table.Stops met entry) ∨
    ∃ next, table.Extends entry next ∧ next.name.key ∉ met ∧ ∀ steps,
      table.basesFrom (steps + 1) met entry =
        next :: table.basesFrom steps (next.name.key :: met) next := by
  have nothing (h : ∀ steps, table.basesFrom (steps + 1) met entry = []) (steps : Nat) :
      table.basesFrom steps met entry = [] := by
    cases steps with
    | zero => rfl
    | succ steps => exact h steps
  cases named : entry.base with
  | none => exact .inl ⟨nothing fun steps => by rw [basesFrom, named], .inl named⟩
  | some base =>
    cases declared : table.type? base.text with
    | none =>
      refine .inl ⟨nothing fun steps => ?_, .inr ⟨base, named, .inl ?_⟩⟩
      · rw [basesFrom, named]
        simp only [declared]
      · exact type?_eq_none_iff.mp declared
    | some next =>
      have own := declares_of_type? declared
      by_cases again : next.name.key ∈ met
      · refine .inl ⟨nothing fun steps => ?_, .inr ⟨base, named, .inr (own.2.2 ▸ again)⟩⟩
        rw [basesFrom, named]
        simp only [declared]
        rw [if_pos (by simpa using again)]
      · refine .inr ⟨next, ⟨base, named, own⟩, again, fun steps => ?_⟩
        rw [basesFrom, named]
        simp only [declared]
        rw [if_neg (by simpa using again)]

/-- The bases that a walk comes to are declared, and have keys of their own that it has not met. -/
theorem basesFrom_spec (table : Table) (steps : Nat) (met : List String) (entry : TypeEntry) :
    (∀ t ∈ table.basesFrom steps met entry, t ∈ table.types ∧ t.name.key ∉ met) ∧
      ((table.basesFrom steps met entry).map (·.name.key)).Nodup ∧
      (entry :: table.basesFrom steps met entry).IsChain table.Extends := by
  induction steps generalizing met entry with
  | zero => exact ⟨nofun, List.nodup_nil, .singleton entry⟩
  | succ steps ih =>
    obtain ⟨nothing, -⟩ | ⟨next, onward, fresh, walk⟩ := basesFrom_cases table met entry
    · rw [nothing]
      exact ⟨nofun, List.nodup_nil, .singleton entry⟩
    · obtain ⟨unmet, distinct, extending⟩ := ih (next.name.key :: met) next
      rw [walk]
      refine ⟨fun t mem => ?_, ?_, .cons_cons onward extending⟩
      · obtain rfl | mem := List.mem_cons.mp mem
        · obtain ⟨_, -, declared, -⟩ := onward
          exact ⟨declared, fresh⟩
        · obtain ⟨declared, unmet⟩ := unmet t mem
          exact ⟨declared, fun again => unmet (List.mem_cons_of_mem _ again)⟩
      · refine List.nodup_cons.mpr ⟨fun again => ?_, distinct⟩
        obtain ⟨t, mem, same⟩ := List.mem_map.mp again
        exact (unmet t mem).2 (same ▸ List.mem_cons_self)

/-- There are no more bases than types. -/
theorem length_basesFrom_le (table : Table) (steps : Nat) (met : List String)
    (entry : TypeEntry) : (table.basesFrom steps met entry).length ≤ table.types.length := by
  obtain ⟨unmet, distinct, -⟩ := basesFrom_spec table steps met entry
  have subset : (table.basesFrom steps met entry).map (·.name.key) ⊆
      table.types.map (·.name.key) := List.map_subset _ fun t mem => (unmet t mem).1
  simpa using (List.subperm_of_subset distinct subset).length_le

/-- A walk that is not cut off stops by itself. -/
theorem stops_of_length_lt (h : (table.basesFrom steps met entry).length < steps) :
    ∀ last ∈ (entry :: table.basesFrom steps met entry).getLast?,
      table.Stops ((table.basesFrom steps met entry).map (·.name.key) ++ met) last := by
  induction steps generalizing met entry with
  | zero => exact absurd h (Nat.not_lt_zero _)
  | succ steps ih =>
    obtain ⟨nothing, stops⟩ | ⟨next, -, -, walk⟩ := basesFrom_cases table met entry
    · rw [nothing]
      intro last mem
      obtain rfl : entry = last := by simpa using mem
      exact stops
    · rw [walk, List.length_cons] at h
      rw [walk]
      intro last mem
      rw [List.getLast?_cons_cons] at mem
      refine (ih (Nat.lt_of_succ_lt_succ h) last mem).mono fun key mem => ?_
      simp only [List.mem_append, List.mem_cons, List.map_cons] at mem ⊢
      tauto

/-- A walk that is not cut off goes no farther if it may. -/
theorem basesFrom_of_le {more : Nat} (h : (table.basesFrom steps met entry).length < steps)
    (le : steps ≤ more) : table.basesFrom more met entry = table.basesFrom steps met entry := by
  induction steps generalizing met entry more with
  | zero => exact absurd h (Nat.not_lt_zero _)
  | succ steps ih =>
    obtain ⟨nothing, -⟩ | ⟨next, -, -, walk⟩ := basesFrom_cases table met entry
    · rw [nothing, nothing]
    · rw [walk, List.length_cons] at h
      obtain ⟨more, rfl⟩ := Nat.exists_eq_succ_of_ne_zero (Nat.ne_zero_of_lt le)
      rw [walk, walk, ih (Nat.lt_of_succ_lt_succ h) (Nat.le_of_succ_le_succ le)]

/-- **The walk from a type along its bases comes to a chain of bases.** -/
theorem baseChain_spec (table : Table) (entry : TypeEntry) :
    table.BaseChain entry (table.baseChain entry) := by
  obtain ⟨unmet, distinct, extending⟩ :=
    basesFrom_spec table (table.types.length + 1) [entry.name.key] entry
  refine ⟨rfl, List.nodup_cons.mpr ⟨fun again => ?_, distinct⟩, extending, fun last mem => ?_⟩
  · obtain ⟨t, mem, same⟩ := List.mem_map.mp again
    exact (unmet t mem).2 (by simp [same])
  · have uncut := Nat.lt_succ_of_le
      (length_basesFrom_le table (table.types.length + 1) [entry.name.key] entry)
    refine (stops_of_length_lt uncut last mem).mono fun key mem => ?_
    rw [List.mem_append, List.mem_singleton] at mem
    exact List.mem_cons.mpr mem.symm

/-! ## Populated tables -/

variable {base : Option String} {units : List SourceUnit}

/-- In a populated table a name has the type that is declared under it. -/
theorem declares_iff (populated : ofUnits base units = .ok table) :
    table.Declares name t ↔ table.type? name = some t :=
  ((populated_ofUnits base units).type?_iff populated).symm

/-- What a name stands for where a static field is looked up: its unconditional declaration, or else
the first of its declarations. -/
def StandsFor (table : Table) (name : String) (t : TypeEntry) : Prop :=
  table.Declares name t ∨ (∀ s, ¬ table.Declares name s) ∧
    ∃ earlier later, table.types = earlier ++ t :: later ∧ t.name.key = nameKey name ∧
      ∀ s ∈ earlier, s.name.key ≠ nameKey name

/-- The first type of a name. -/
theorem anyType?_eq_some_iff : table.anyType? name = some t ↔
    ∃ earlier later, table.types = earlier ++ t :: later ∧ t.name.key = nameKey name ∧
      ∀ s ∈ earlier, s.name.key ≠ nameKey name := by
  simp only [anyType?, List.find?_eq_some_iff_append, beq_iff_eq, Bool.not_eq_true',
    beq_eq_false_iff_ne]
  exact ⟨fun ⟨own, earlier, later, split, before⟩ => ⟨earlier, later, split, own, before⟩,
    fun ⟨earlier, later, split, own, before⟩ => ⟨own, earlier, later, split, before⟩⟩

/-- The type declares the static field itself. -/
theorem declaresStatic_eq (t : TypeEntry) (name : String) :
    declaresStatic t name = ((t.field? name).filter (·.isStatic)).isSome := by
  unfold declaresStatic
  cases t.field? name with
  | none => rfl
  | some field => cases own : field.isStatic <;> simp [own]

theorem standsFor_iff (populated : ofUnits base units = .ok table) :
    table.StandsFor name t ↔ (table.type? name).or (table.anyType? name) = some t := by
  simp only [StandsFor, declares_iff populated, ← anyType?_eq_some_iff]
  cases table.type? name <;> simp

/-- The static fields of a name along a chain of bases. -/
def NearestStatic (name : String) (chain : List TypeEntry) (entry : TypeEntry) (field : Field) : Prop :=
  Nearest (fun t => (t.field? name).filter (·.isStatic)) chain (some (entry, field))

/-- A static field is found under the name of every type that inherits it. -/
theorem resolveStatic?_of_nearest (populated : ofUnits base units = .ok table) {type : String}
    (stands : table.StandsFor type t) {field : Field}
    (nearest : NearestStatic name (table.baseChain t) entry field) :
    table.resolveStatic? type name = some entry := by
  rw [resolveStatic?, (standsFor_iff populated).mp stands]
  simp only [declaresStatic_eq]
  have found := nearest.eq_findSome?
  exact (find?_eq_map_findSome? _ _).trans (congrArg (Option.map (·.1)) found.symm)

/-- **The walk along the bases of a type.** Whatever its declarations name as their bases, the walk
ends: it comes to the one chain of bases that the type has, which is no longer than there are types,
and no further step changes it. A method, an initializer and a static field are looked up along this
chain, and are those of the nearest type that has one. -/
theorem baseChain_walk (populated : ofUnits base units = .ok table) (entry : TypeEntry) :
    table.BaseChain entry (table.baseChain entry) ∧
    (∀ chain, table.BaseChain entry chain → chain = table.baseChain entry) ∧
    (table.baseChain entry).length ≤ table.types.length + 1 ∧
    (∀ steps, table.types.length < steps →
      entry :: table.basesFrom steps [entry.name.key] entry = table.baseChain entry) ∧
    (∀ type, table.Declares type entry → ∀ name,
      Nearest (·.method? name) (table.baseChain entry) (table.resolveMethod? type name)) ∧
    Nearest (·.method? userInitializer) (table.baseChain entry)
      (table.resolveInitializer? entry) ∧
    ∀ type, table.StandsFor type entry → ∀ name, ∃ nearest,
      Nearest (fun t => (t.field? name).filter (·.isStatic)) (table.baseChain entry) nearest ∧
        table.resolveStatic? type name = nearest.map (·.1) := by
  have uncut := length_basesFrom_le table (table.types.length + 1) [entry.name.key] entry
  have once (t a b) (ha : table.Extends t a) (hb : table.Extends t b) : a = b := by
    obtain ⟨base, named, ha⟩ := ha
    obtain ⟨base', named', hb⟩ := hb
    obtain rfl := Option.some.inj (named.symm.trans named')
    rw [declares_iff populated] at ha hb
    exact Option.some.inj (ha.symm.trans hb)
  have spec := baseChain_spec table entry
  refine ⟨spec, fun chain h => h.unique once spec, Nat.succ_le_succ uncut, fun steps lt => ?_,
    fun type declared name => ?_, nearest_findSome? _ _, fun type stands name => ?_⟩
  · rw [baseChain, basesFrom_of_le (Nat.lt_succ_of_le uncut) lt]
  · rw [resolveMethod?, (declares_iff populated).mp declared]
    exact nearest_findSome? _ _
  · refine ⟨_, nearest_findSome? _ _, ?_⟩
    rw [resolveStatic?, (standsFor_iff populated).mp stands]
    simp only [declaresStatic_eq]
    exact find?_eq_map_findSome? _ _

/-- Two types that name each other as their bases, and a conditional type with the name of one of
them. -/
def cyclicTypes : SourceUnit :=
  ⟨"a.php", [.type ⟨⟨"A"⟩, some ⟨"B"⟩, [], [], false, false⟩,
    .type ⟨⟨"B"⟩, some ⟨"a"⟩, [], [], false, false⟩,
    .conditional [.type ⟨⟨"a"⟩, some ⟨"b"⟩, [], [], false, false⟩]]⟩

theorem baseChain_walk_cyclicTypes :
    ∃ table entry, ofUnits none [cyclicTypes] = .ok table ∧ entry ∈ table.types ∧
      entry.placement.conditional = true ∧
      (table.baseChain entry).map (·.name.text) = ["a", "B"] ∧
      table.BaseChain entry (table.baseChain entry) ∧
      ∀ chain, table.BaseChain entry chain → chain = table.baseChain entry := by
  have facts : (ofFiles? none (filesOf none [cyclicTypes])).map (fun table =>
      table.types.any fun entry => entry.placement.conditional &&
        (table.baseChain entry).map (·.name.text) == ["a", "B"]) = some true := by
    decide +kernel
  obtain ⟨table, populated, facts⟩ := Option.map_eq_some_iff.mp facts
  rw [← ofUnits_eq_ok_iff] at populated
  obtain ⟨entry, mem, facts⟩ := List.any_eq_true.mp facts
  rw [Bool.and_eq_true, beq_iff_eq] at facts
  obtain ⟨chain, unique, -⟩ := baseChain_walk populated entry
  exact ⟨table, entry, populated, mem, facts.1, facts.2, chain, unique⟩

end Table

end StackScript
