import Mathlib.Data.List.Nodup
import Mathlib.Data.List.Perm.Subperm
import Mathlib.Data.Set.Finite.List
import Mathlib.Logic.Relation
import Mathlib.Order.WellFounded
import StackScript.Machine.Run
import StackScript.Proofs.Naming.Keys

/-!
# Lines of types

The compiler and the loaded program walk from a type to its bases each in a way of its own: the
one notes the types it has met, the other remembers the types it has built. Where the bases end,
both walk along one line, and so a method is found in the same type by both.

## Main definitions

* `Table.Found`: a type that is declared unconditionally, and found by its name
* `Table.Line`: a type and its bases, as far as they are found
* `Table.Acyclic`: no type is among its own bases
* `TypeStore.Sound`: what is true of the types built so far
* `Table.loadType`: the type that has been built for a declared one

## Main results

* `Table.Acyclic.exists_line`: where no type is among its own bases, the bases end
* `Table.sound_of_buildType`: what building one type keeps true
* `Table.isSome_buildTypes_iff`: all types can be built if no type is among its own bases
* `Table.loadType_eq`: a built type is its own level above the built type of its base
* `Table.Line.baseChain`, `Table.Line.levels_loadType`: the two walks
* `Table.findMethod?_of_resolveMethod?`: an instance method that the compiler finds is the one that
  objects of the type have
-/

namespace StackScript

namespace Table

variable {table : Table} {entry base other : TypeEntry} {name : String}
  {line rest : List TypeEntry}

/-! ## Types that are found -/

/-- The type is what some name stands for. -/
def Found (table : Table) (entry : TypeEntry) : Prop := ∃ name, table.type? name = some entry

theorem key_of_type? (h : table.type? name = some entry) : entry.name.key = nameKey name := by
  have := List.find?_some h
  simp only [Bool.and_eq_true, beq_iff_eq] at this
  exact this.2

theorem type?_eq_find? (table : Table) (name : String) :
    table.type? name = table.unconditionalTypes.find? (·.name.key == nameKey name) := by
  unfold type? unconditionalTypes
  rw [List.find?_filter]
  simp only [Bool.decide_and, Bool.decide_eq_true]

/-- Of the types with its key that are declared unconditionally this is the first. -/
def First (table : Table) (entry : TypeEntry) : Prop :=
  table.unconditionalTypes.find? (·.name.key == entry.name.key) = some entry

theorem First.mem (h : table.First entry) : entry ∈ table.unconditionalTypes :=
  List.mem_of_find?_eq_some h

/-- A key stands for one type. -/
theorem First.eq (h : table.First entry) (h' : table.First other)
    (same : entry.name.key = other.name.key) : entry = other := by
  unfold First at h h'
  rw [same, h'] at h
  exact (Option.some.inj h).symm

theorem Found.first (h : table.Found entry) : table.First entry := by
  obtain ⟨name, h⟩ := h
  have key := key_of_type? h
  rwa [type?_eq_find?, ← key] at h

theorem Found.mem (h : table.Found entry) : entry ∈ table.types :=
  List.mem_of_mem_filter h.first.mem

theorem Found.eq (h : table.Found entry) (h' : table.Found other)
    (same : entry.name.key = other.name.key) : entry = other := h.first.eq h'.first same

/-- A name that was found has no leading backslash. -/
theorem trimRoot_of_key_eq {text name : String} (h : Text.foldCase text = nameKey name) :
    trimRoot text = text := by
  rw [nameKey] at h
  have folded := congrArg String.toList h
  rw [Text.toList_foldCase, Text.toList_foldCase] at folded
  rw [← String.toList_inj, trimRoot, String.toList_ofList]
  cases chars : text.toList with
  | nil => rfl
  | cons c rest =>
    refine List.dropWhile_cons_of_neg fun root => ?_
    obtain rfl : c = '\\' := by simpa using root
    rw [chars] at folded
    cases trimmed : (trimRoot name).toList with
    | nil => simp [trimmed] at folded
    | cons d others =>
      rw [trimmed, List.map_cons, List.map_cons, List.cons.injEq] at folded
      have root : d = '\\' := Text.eq_of_toLower_eq (by decide) folded.1.symm
      rw [trimRoot, String.toList_ofList] at trimmed
      have first := List.head?_dropWhile_not (· == '\\') name.toList
      rw [trimmed, root] at first
      simp at first

/-- A type that is found is found by its own name. -/
theorem Found.type?_name (h : table.Found entry) : table.type? entry.name.text = some entry := by
  obtain ⟨name, h⟩ := h
  have key := key_of_type? h
  have own : nameKey entry.name.text = nameKey name := by
    rw [nameKey, trimRoot_of_key_eq key]
    exact key
  unfold type? at h ⊢
  rw [own]
  exact h

theorem found_of_base? (h : table.base? entry = some base) : table.Found base := by
  obtain ⟨name, -, h⟩ := Option.bind_eq_some_iff.mp h
  exact ⟨_, h⟩

/-! ## Lines -/

/-- A type and its bases, nearest first, as far as they are found. -/
inductive Line (table : Table) : TypeEntry → List TypeEntry → Prop
  | last {entry : TypeEntry} : table.base? entry = none → Line table entry [entry]
  | derived {entry base : TypeEntry} {rest : List TypeEntry} :
      table.base? entry = some base → Line table base rest →
      Line table entry (entry :: rest)

namespace Line

theorem unique {line' : List TypeEntry} (h : table.Line entry line) (h' : table.Line entry line') :
    line = line' := by
  induction h generalizing line' with
  | last none_above =>
    cases h' with
    | last => rfl
    | derived above => rw [none_above] at above; cases above
  | derived above _ ih =>
    cases h' with
    | last none_above => rw [above] at none_above; cases none_above
    | derived above' h' =>
      obtain rfl := Option.some.inj (above.symm.trans above')
      rw [ih h']

theorem eq_cons (h : table.Line entry line) : ∃ rest, line = entry :: rest := by
  cases h with
  | last => exact ⟨[], rfl⟩
  | derived => exact ⟨_, rfl⟩

theorem found (h : table.Line entry line) (found : table.Found entry) :
    ∀ t ∈ line, table.Found t := by
  induction h with
  | last => exact fun t mem => List.mem_singleton.mp mem ▸ found
  | derived above _ ih =>
    rintro t mem
    obtain rfl | mem := List.mem_cons.mp mem
    · exact found
    · exact ih (found_of_base? above) t mem

theorem first (h : table.Line entry line) (first : table.First entry) :
    ∀ t ∈ line, table.First t := by
  cases h with
  | last => exact fun t mem => List.mem_singleton.mp mem ▸ first
  | derived above h =>
    rintro t mem
    obtain rfl | mem := List.mem_cons.mp mem
    · exact first
    · exact (h.found (found_of_base? above) t mem).first

/-- From every type of a line on, the rest of the line is that type's. -/
theorem suffix (h : table.Line entry line) (mem : other ∈ line) :
    ∃ part, table.Line other part ∧ part <:+ line := by
  induction h with
  | last none_above =>
    obtain rfl := List.mem_singleton.mp mem
    exact ⟨_, .last none_above, List.suffix_rfl⟩
  | derived above h ih =>
    obtain rfl | mem := List.mem_cons.mp mem
    · exact ⟨_, .derived above h, List.suffix_rfl⟩
    · obtain ⟨part, h', tail⟩ := ih mem
      exact ⟨part, h', tail.trans (List.suffix_cons _ _)⟩

/-- No type comes again in a line: from there on the line would be itself. -/
theorem keys_nodup (h : table.Line entry line) (first : table.First entry) :
    (line.map (·.name.key)).Nodup := by
  induction h with
  | last => exact List.nodup_singleton _
  | @derived entry base rest above h ih =>
    refine List.nodup_cons.mpr ⟨fun again => ?_, ih (found_of_base? above).first⟩
    obtain ⟨other, mem, same⟩ := List.mem_map.mp again
    have met := h.found (found_of_base? above) other mem
    rw [met.first.eq first same] at mem
    obtain ⟨part, h', tail⟩ := h.suffix mem
    have := tail.length_le
    rw [h'.unique (.derived above h), List.length_cons] at this
    omega

theorem length_le (h : table.Line entry line) (first : table.First entry) :
    line.length ≤ table.types.length := by
  have subset : line.map (·.name.key) ⊆ table.types.map (·.name.key) :=
    List.map_subset _ fun t mem => List.mem_of_mem_filter (h.first first t mem).mem
  simpa using (List.subperm_of_subset (h.keys_nodup first) subset).length_le

/-- The walk that notes what it has met goes along the line. -/
theorem basesFrom (h : table.Line entry (entry :: rest)) {steps : Nat} (enough : rest.length ≤ steps)
    {seen : List String} (fresh : ∀ t ∈ rest, t.name.key ∉ seen)
    (nodup : (rest.map (·.name.key)).Nodup) : table.basesFrom steps seen entry = rest := by
  induction steps generalizing entry rest seen with
  | zero =>
    obtain rfl := List.eq_nil_of_length_eq_zero (Nat.le_zero.mp enough)
    rfl
  | succ steps ih =>
    unfold Table.basesFrom
    cases h with
    | last none_above =>
      split
      · rfl
      case h_2 name named =>
        rw [base?, named, Option.bind_some] at none_above
        rw [none_above]
    | @derived _ base rest above h =>
      obtain ⟨name, named, declared⟩ := Option.bind_eq_some_iff.mp above
      obtain ⟨others, rfl⟩ := h.eq_cons
      rw [named]
      simp only [declared]
      rw [if_neg (by simpa using fresh base List.mem_cons_self)]
      rw [List.map_cons, List.nodup_cons] at nodup
      rw [ih h (Nat.le_of_succ_le_succ enough) (fun t mem => ?_) nodup.2]
      simp only [List.mem_cons, not_or]
      exact ⟨fun same => nodup.1 (same ▸ List.mem_map_of_mem mem),
        fresh t (List.mem_cons_of_mem _ mem)⟩

/-- The bases of a type as the compiler walks them. -/
theorem baseChain (h : table.Line entry line) (found : table.Found entry) :
    table.baseChain entry = line := by
  obtain ⟨rest, rfl⟩ := h.eq_cons
  have nodup := h.keys_nodup found.first
  rw [List.map_cons, List.nodup_cons] at nodup
  have length := h.length_le found.first
  rw [List.length_cons] at length
  rw [Table.baseChain, h.basesFrom (by omega) (fun t mem => ?_) nodup.2]
  rw [List.mem_singleton]
  exact fun same => nodup.1 (same ▸ List.mem_map_of_mem mem)

/-- Behind the first type of a line all types are found. -/
theorem length_le_succ (h : table.Line entry line) : line.length ≤ table.types.length + 1 := by
  cases h with
  | last => exact Nat.succ_le_succ (Nat.zero_le _)
  | derived above h => exact Nat.succ_le_succ (h.length_le (found_of_base? above).first)

end Line

/-! ## Tables without cycles -/

/-- No type is among its own bases. -/
def Acyclic (table : Table) : Prop :=
  ∀ entry, ¬ Relation.TransGen (fun a b => table.base? a = some b) entry entry

/-- Going from types to their bases comes to an end, since there are only so many types. -/
theorem Acyclic.exists_line (h : table.Acyclic) (mem : entry ∈ table.types) :
    ∃ line, table.Line entry line := by
  let above : {t // t ∈ table.types} → {t // t ∈ table.types} → Prop := fun a b =>
    Relation.TransGen (fun a b => table.base? a = some b) b.1 a.1
  have : Finite {t // t ∈ table.types} := List.finite_toSet table.types
  have : IsTrans _ above := ⟨fun _ _ _ ab bc => bc.trans ab⟩
  have : Std.Irrefl above := ⟨fun a cycle => h a.1 cycle⟩
  have wf : WellFounded above := Finite.wellFounded_of_trans_of_irrefl above
  suffices ∀ t : {t // t ∈ table.types}, ∃ line, table.Line t.1 line from this ⟨entry, mem⟩
  refine wf.fix fun t ih => ?_
  cases next : table.base? t.1 with
  | none => exact ⟨_, .last next⟩
  | some base =>
    obtain ⟨line, line_base⟩ := ih ⟨base, (found_of_base? next).mem⟩ (.single next)
    exact ⟨_, .derived next line_base⟩

/-- Where no type has a base, none is among its own. -/
theorem acyclic_of_bases (h : ∀ entry ∈ table.types, entry.base = none) : table.Acyclic := by
  intro entry cycle
  have found : table.Found entry := by
    cases cycle with
    | single above => exact found_of_base? above
    | tail _ above => exact found_of_base? above
  obtain ⟨next, above, -⟩ := Relation.TransGen.head'_iff.mp cycle
  rw [base?, h entry found.mem] at above
  cases above

/-- A line that ends is not a cycle. -/
theorem Line.not_cycle (h : table.Line entry line) :
    ¬ Relation.TransGen (fun a b => table.base? a = some b) entry entry := by
  -- Each type above has a shorter line, so none is the type itself.
  have shorter {t u : TypeEntry} (way : Relation.TransGen (fun a b => table.base? a = some b) t u) :
      ∀ {line}, table.Line t line → ∃ line', table.Line u line' ∧ line'.length < line.length := by
    induction way with
    | single above =>
      rintro line (none_above | ⟨above', h⟩)
      · rw [above] at none_above
        cases none_above
      · obtain rfl := Option.some.inj (above.symm.trans above')
        exact ⟨_, h, Nat.lt_succ_self _⟩
    | tail _ above ih =>
      intro line h
      obtain ⟨line', h', less⟩ := ih h
      cases h' with
      | last none_above => rw [above] at none_above; cases none_above
      | derived above' h' =>
        obtain rfl := Option.some.inj (above.symm.trans above')
        exact ⟨_, h', (Nat.lt_succ_self _).trans less⟩
  intro cycle
  obtain ⟨line', h', less⟩ := shorter cycle h
  rw [h.unique h'] at less
  exact lt_irrefl _ less

end Table

/-! ## The types that have been built -/

/-- The type is what is built for the declared one, of which the base, if there is one, is built. -/
inductive TypeStore.Builds (store : TypeStore) (table : Table) : TypeEntry → RuntimeType → Prop
  | root {entry : TypeEntry} {id : TypeId} : table.base? entry = none →
      Builds store table entry (.extend none id entry.name.text (Table.objectMethods entry))
  | derived {entry base : TypeEntry} {above : RuntimeType} {id : TypeId} :
      table.base? entry = some base → store.type? base.name.key = some above →
      Builds store table entry (.extend (some above) id entry.name.text (Table.objectMethods entry))

/-- What is true of the types built so far. Each is the one of the first declared type with its key,
whose bases end, and no two of them have one number. -/
structure TypeStore.Sound (store : TypeStore) (table : Table) : Prop where
  built : ∀ {key type}, store.type? key = some type → ∃ entry, table.First entry ∧
    entry.name.key = key ∧ (∃ line, table.Line entry line) ∧ store.Builds table entry type
  numbered : ∀ {key type}, store.type? key = some type → type.id < store.next
  apart : ∀ {key key' type type'}, store.type? key = some type → store.type? key' = some type' →
    type.id = type'.id → key = key'

/-- A type that has been built is not built again. -/
def TypeStore.Retains (store store' : TypeStore) : Prop :=
  ∀ {key type}, store.type? key = some type → store'.type? key = some type

namespace TypeStore

variable {table : Table} {store store' : TypeStore} {entry : TypeEntry} {type : RuntimeType}
  {key name : String} {base : Option RuntimeType} {methods : List Method}

theorem type?_add (store : TypeStore) (key : String) (base : Option RuntimeType) (name : String)
    (methods : List Method) (key' : String) :
    (store.add key base name methods).2.type? key' =
      if key' = key then some (store.add key base name methods).1 else store.type? key' := by
  rw [type?, add, List.lookup_cons]
  grind [type?]

theorem Builds.retained (h : store.Builds table entry type) (keep : store.Retains store') :
    store'.Builds table entry type := by
  cases h with
  | root none_above => exact .root none_above
  | derived above built => exact .derived above (keep built)

theorem sound_empty (table : Table) : TypeStore.empty.Sound table := ⟨nofun, nofun, nofun⟩

/-- A type of which the base is built is built with the next number. -/
theorem Sound.add (sound : store.Sound table) (fresh : store.type? entry.name.key = none)
    (first : table.First entry) {line : List TypeEntry} (walk : table.Line entry line)
    (added : store.add entry.name.key base entry.name.text (Table.objectMethods entry) =
      (type, store')) (builds : store.Builds table entry type) :
    store'.Sound table ∧ store.Retains store' ∧ store'.type? entry.name.key = some type ∧
      ∀ key type, store'.type? key = some type →
        store.type? key = some type ∨ key = entry.name.key := by
  have lookups (key : String) :
      store'.type? key = if key = entry.name.key then some type else store.type? key := by
    have := type?_add store entry.name.key base entry.name.text (Table.objectMethods entry) key
    rwa [added] at this
  have number : type.id = store.next ∧ store'.next = store.next + 1 := by
    obtain ⟨rfl, rfl⟩ := Prod.mk.inj added
    exact ⟨rfl, rfl⟩
  have keep : store.Retains store' := by
    intro key known h
    rw [lookups, if_neg]
    · exact h
    · rintro rfl
      rw [fresh] at h
      cases h
  refine ⟨⟨fun h => ?_, fun h => ?_, fun h h' same => ?_⟩, keep, by rw [lookups, if_pos rfl],
    fun key type h => ?_⟩
  · rw [lookups] at h
    split at h
    case isTrue at_key =>
      obtain rfl := Option.some.inj h
      exact ⟨entry, first, at_key.symm, ⟨line, walk⟩, builds.retained keep⟩
    case isFalse =>
      obtain ⟨other, first, at_key, ended, builds⟩ := sound.built h
      exact ⟨other, first, at_key, ended, builds.retained keep⟩
  · rw [lookups] at h
    rw [number.2]
    split at h
    · obtain rfl := Option.some.inj h
      exact number.1 ▸ Nat.lt_succ_self _
    · exact (sound.numbered h).trans (Nat.lt_succ_self _)
  · -- The new type has a number that was not given to another one.
    rw [lookups] at h h'
    split at h <;> split at h'
    case isTrue.isTrue at_key at_key' => rw [at_key, at_key']
    case isTrue.isFalse =>
      obtain rfl := Option.some.inj h
      exact absurd (same.symm.trans number.1) (sound.numbered h').ne
    case isFalse.isTrue =>
      obtain rfl := Option.some.inj h'
      exact absurd (same.trans number.1) (sound.numbered h).ne
    case isFalse.isFalse => exact sound.apart h h' same
  · rw [lookups] at h
    split at h
    case isTrue at_key => exact .inr at_key
    case isFalse => exact .inl h

end TypeStore

namespace Table

variable {table : Table} {entry base other : TypeEntry} {name : String}
  {line rest done : List TypeEntry} {store store' : TypeStore} {type : RuntimeType} {steps : Nat}

/-- **What building a type keeps true.** The type is then the built one of its key, together with
bases of it that had not been built, and no other type has been built or replaced. -/
theorem sound_of_buildType (sound : store.Sound table) (first : table.First entry)
    (h : table.buildType steps store entry = some (type, store')) :
    store'.Sound table ∧ store.Retains store' ∧ store'.type? entry.name.key = some type ∧
      ∃ line, table.Line entry line ∧ ∀ key type, store'.type? key = some type →
        store.type? key = some type ∨ key ∈ line.map (·.name.key) := by
  induction steps generalizing entry store type store' with
  | zero => cases h
  | succ steps ih =>
    unfold buildType at h
    cases memo : store.type? entry.name.key with
    | some known =>
      rw [memo] at h
      obtain ⟨rfl, rfl⟩ := Prod.mk.inj (Option.some.inj h)
      obtain ⟨other, first', same, ⟨line, walk⟩, -⟩ := sound.built memo
      obtain rfl := first'.eq first same
      exact ⟨sound, id, memo, line, walk, fun _ _ => .inl⟩
    | none =>
      rw [memo] at h
      simp only at h
      cases above : table.base? entry with
      | none =>
        rw [above] at h
        have builds : store.Builds table entry type := by
          obtain ⟨rfl, -⟩ := Prod.mk.inj (Option.some.inj h)
          exact .root above
        obtain ⟨sound, keep, there, only⟩ :=
          sound.add memo first (.last above) (Option.some.inj h) builds
        exact ⟨sound, keep, there, _, .last above, fun key type h =>
          (only key type h).imp_right List.mem_singleton.mpr⟩
      | some base =>
        rw [above] at h
        obtain ⟨⟨up, mid⟩, built, h⟩ := Option.bind_eq_some_iff.mp h
        obtain ⟨sound, keep, there, rest, walk, only⟩ :=
          ih sound (found_of_base? above).first built
        -- On the way up the type itself was not met: a line has every key once.
        have walk' : table.Line entry (entry :: rest) := .derived above walk
        have fresh : mid.type? entry.name.key = none := by
          refine Option.eq_none_iff_forall_ne_some.mpr fun type h => ?_
          obtain known | met := only _ _ h
          · rw [memo] at known
            cases known
          · exact (List.nodup_cons.mp (walk'.keys_nodup first)).1 met
        have builds : mid.Builds table entry type := by
          obtain ⟨rfl, -⟩ := Prod.mk.inj (Option.some.inj h)
          exact .derived above there
        obtain ⟨sound, keep', there, only'⟩ :=
          sound.add fresh first walk' (Option.some.inj h) builds
        refine ⟨sound, fun h => keep' (keep h), there, _, walk', fun key type h => ?_⟩
        obtain h | rfl := only' key type h
        · exact (only key type h).imp_right fun met => List.mem_cons_of_mem _ met
        · exact .inr List.mem_cons_self

/-- A type is built if the bases end within the steps. -/
theorem Line.exists_buildType (h : table.Line entry line) (enough : line.length ≤ steps)
    (store : TypeStore) : ∃ built, table.buildType steps store entry = some built := by
  induction h generalizing steps with
  | last none_above =>
    obtain ⟨steps, rfl⟩ := Nat.exists_eq_succ_of_ne_zero (Nat.ne_of_gt enough)
    unfold buildType
    rw [none_above]
    split
    · exact ⟨_, rfl⟩
    · exact ⟨_, rfl⟩
  | derived above _ ih =>
    obtain ⟨steps, rfl⟩ := Nat.exists_eq_succ_of_ne_zero
      (Nat.ne_of_gt ((Nat.succ_pos _).trans_le enough))
    obtain ⟨built, h⟩ := ih (Nat.le_of_succ_le_succ enough)
    unfold buildType
    rw [above]
    split
    · exact ⟨_, rfl⟩
    · simp only [h]
      exact ⟨_, rfl⟩

/-- Building the types one after the other: those that are done stay built. -/
theorem sound_of_foldlM (all : done ++ rest = table.unconditionalTypes)
    (sound : store.Sound table) (ready : ∀ t ∈ done, (store.type? t.name.key).isSome)
    (h : rest.foldlM (fun store entry =>
      (table.buildType (table.types.length + 1) store entry).map (·.2)) store = some store') :
    store'.Sound table ∧ ∀ t ∈ table.unconditionalTypes, (store'.type? t.name.key).isSome := by
  induction rest generalizing done store with
  | nil =>
    obtain rfl := Option.some.inj h
    exact ⟨sound, all ▸ by simpa using ready⟩
  | cons entry rest ih =>
    rw [List.foldlM_cons] at h
    obtain ⟨_, stepped, h⟩ := Option.bind_eq_some_iff.mp h
    obtain ⟨⟨type, mid⟩, built, rfl⟩ := Option.map_eq_some_iff.mp stepped
    have all' : (done ++ [entry]) ++ rest = table.unconditionalTypes := by simpa using all
    cases memo : store.type? entry.name.key with
    | some known =>
      rw [buildType, memo] at built
      obtain ⟨rfl, rfl⟩ := Prod.mk.inj (Option.some.inj built)
      refine ih all' sound (fun t mem => ?_) h
      obtain mem | mem := List.mem_append.mp mem
      · exact ready t mem
      · rw [List.mem_singleton.mp mem, memo]
        rfl
    | none =>
      -- A type whose key has not been built is the first with the key.
      have first : table.First entry := by
        refine List.find?_eq_some_iff_append.mpr ⟨beq_self_eq_true _, done, rest, all.symm,
          fun t mem => ?_⟩
        have ready := ready t mem
        grind
      obtain ⟨sound, keep, there, -⟩ := sound_of_buildType sound first built
      refine ih all' sound (fun t mem => ?_) h
      obtain mem | mem := List.mem_append.mp mem
      · obtain ⟨type, known⟩ := Option.isSome_iff_exists.mp (ready t mem)
        rw [keep known]
        rfl
      · rw [List.mem_singleton.mp mem, there]
        rfl

theorem sound_of_buildTypes (h : table.buildTypes = some store) :
    store.Sound table ∧ ∀ t ∈ table.unconditionalTypes, (store.type? t.name.key).isSome :=
  sound_of_foldlM (List.nil_append _) (TypeStore.sound_empty table) (by simp) h

/-- **All types can be built if no type is among its own bases, and only then.** -/
theorem isSome_buildTypes_iff : table.buildTypes.isSome ↔ table.Acyclic := by
  constructor
  · intro ended entry cycle
    obtain ⟨store, h⟩ := Option.isSome_iff_exists.mp ended
    obtain ⟨sound, ready⟩ := sound_of_buildTypes h
    -- A type on a cycle is a base, so it has been built, and its bases end.
    obtain ⟨below, -, above⟩ := Relation.TransGen.tail'_iff.mp cycle
    have first := (found_of_base? above).first
    obtain ⟨type, there⟩ :=
      Option.isSome_iff_exists.mp (ready entry first.mem)
    obtain ⟨other, first', same, ⟨line, walk⟩, -⟩ := sound.built there
    obtain rfl := first'.eq first same
    exact walk.not_cycle cycle
  · intro acyclic
    have build (rest : List TypeEntry) (store : TypeStore) (sub : rest ⊆ table.types) :
        (rest.foldlM (fun store entry =>
          (table.buildType (table.types.length + 1) store entry).map (·.2)) store).isSome := by
      induction rest generalizing store with
      | nil => rfl
      | cons entry rest ih =>
        obtain ⟨mem, sub⟩ := List.cons_subset.mp sub
        obtain ⟨line, walk⟩ := acyclic.exists_line mem
        obtain ⟨built, h⟩ := walk.exists_buildType walk.length_le_succ store
        rw [List.foldlM_cons, h]
        exact ih built.2 sub
    exact build _ _ fun _ => List.mem_of_mem_filter

/-- The type that has been built for a declared one. -/
def loadType (table : Table) (entry : TypeEntry) : RuntimeType :=
  (table.buildTypes.bind (·.type? entry.name.key)).getD
    (.extend none 0 entry.name.text (objectMethods entry))

/-- In a table without cycles a declared type has been built. -/
theorem Acyclic.exists_store (acyclic : table.Acyclic) :
    ∃ store, table.buildTypes = some store ∧ store.Sound table ∧
      ∀ t ∈ table.unconditionalTypes, store.type? t.name.key = some (table.loadType t) := by
  obtain ⟨store, h⟩ := Option.isSome_iff_exists.mp (isSome_buildTypes_iff.mpr acyclic)
  obtain ⟨sound, ready⟩ := sound_of_buildTypes h
  refine ⟨store, h, sound, fun t mem => ?_⟩
  obtain ⟨type, there⟩ := Option.isSome_iff_exists.mp (ready t mem)
  rw [loadType, h, Option.bind_some, there]
  rfl

/-- **The type of a declared type is its own level above the type of its base.** -/
theorem loadType_eq (acyclic : table.Acyclic) (first : table.First entry) :
    table.loadType entry = .extend ((table.base? entry).map table.loadType)
      (table.loadType entry).id entry.name.text (objectMethods entry) := by
  obtain ⟨store, -, sound, there⟩ := acyclic.exists_store
  obtain ⟨other, first', same, -, builds⟩ := sound.built (there entry first.mem)
  obtain rfl := first'.eq first same
  generalize loaded : table.loadType other = type at builds
  cases builds with
  | root none_above =>
    rw [none_above]
    rfl
  | derived above built =>
    rw [above, Option.map_some, Option.some.inj
      ((there _ (found_of_base? above).first.mem).symm.trans built)]
    rfl

theorem name_loadType (entry : TypeEntry) (first : table.First entry) :
    (table.loadType entry).name = entry.name.text := by
  by_cases acyclic : table.Acyclic
  · rw [loadType_eq acyclic first]
    rfl
  · have none_built : table.buildTypes = none := by
      rw [← Option.not_isSome_iff_eq_none, isSome_buildTypes_iff]
      exact acyclic
    rw [loadType, none_built]
    rfl

/-- What a type contributes to the types of its objects. -/
def level (table : Table) (entry : TypeEntry) : TypeLevel :=
  ⟨(table.loadType entry).id, entry.name.text, objectMethods entry⟩

theorem own_extend (above : Option RuntimeType) (id : TypeId) :
    (RuntimeType.extend above id entry.name.text (objectMethods entry)).own =
      ⟨id, entry.name.text, objectMethods entry⟩ := by
  have same : (objectMethods entry).map (fun method =>
      { method with declaringType := entry.name.text }) = objectMethods entry := by
    simp [objectMethods]
  simp only [RuntimeType.extend, same]

/-- The ancestors of the objects of a type. -/
theorem Line.levels_loadType (h : table.Line entry line) (acyclic : table.Acyclic)
    (first : table.First entry) : (table.loadType entry).levels = line.map table.level := by
  induction h with
  | last none_above =>
    rw [loadType_eq acyclic first, none_above, RuntimeType.levels, own_extend]
    rfl
  | derived above _ ih =>
    rw [loadType_eq acyclic first, above, RuntimeType.levels, own_extend, List.map_cons,
      ← ih (found_of_base? above).first]
    rfl

/-! ## Types of objects by their numbers -/

/-- The type of the objects of a declared type, by the number of the type. -/
def typeOf (table : Table) (id : TypeId) : RuntimeType :=
  match table.unconditionalTypes.find? fun entry => (table.loadType entry).id == id with
  | some entry => table.loadType entry
  | none => .extend none id "" []

/-- The numbers of types tell them apart. -/
theorem typeOf_id (acyclic : table.Acyclic) (first : table.First entry) :
    table.typeOf (table.loadType entry).id = table.loadType entry := by
  obtain ⟨store, -, sound, there⟩ := acyclic.exists_store
  unfold typeOf
  cases h : table.unconditionalTypes.find?
      fun other => (table.loadType other).id == (table.loadType entry).id with
  | some other =>
    have mem := there other (List.mem_of_find?_eq_some h)
    have same := sound.apart mem (there entry first.mem) (by simpa using List.find?_some h)
    rw [same, there entry first.mem] at mem
    exact (Option.some.inj mem).symm
  | none =>
    have := List.find?_eq_none.mp h entry first.mem
    simp at this

end Table

/-- A loaded program has the types that are found in its table. -/
theorem Image.type?_load {program : Program} (acyclic : program.table.Acyclic) (name : String) :
    (Image.load program).type? name =
      (program.table.type? name).map program.table.loadType := by
  obtain ⟨store, built, sound, there⟩ := acyclic.exists_store
  rw [Image.type?, Image.load, built, Option.bind_some]
  cases found : program.table.type? name with
  | some entry =>
    rw [← Table.key_of_type? found, there entry (Table.Found.first ⟨name, found⟩).mem]
    rfl
  | none =>
    -- A built type is that of a declared one with the key.
    refine Option.eq_none_iff_forall_ne_some.mpr fun type h => ?_
    obtain ⟨entry, first, same, -⟩ := sound.built h
    rw [Table.type?_eq_find?, ← same] at found
    cases found.symm.trans first

/-- A program that has a type has built them all. -/
theorem Image.acyclic_of_type?_load {program : Program} {name : String} {type : RuntimeType}
    (h : (Image.load program).type? name = some type) : program.table.Acyclic := by
  obtain ⟨store, built, -⟩ := Option.bind_eq_some_iff.mp h
  exact Table.isSome_buildTypes_iff.mp (Option.isSome_of_eq_some built)

namespace Table

variable {table : Table} {entry : TypeEntry} {name : String} {line : List TypeEntry}

/-! ## Methods -/

/-- The method that a compiled method is for objects of its type. -/
def objectMethod (entry : TypeEntry) (method : Routine) : Method where
  name := method.name
  declaringType := entry.name.text
  formals := method.params.map Parameter.formal
  routine := .compiled (BodyName.method entry.name method.name).key
    (method.params.map Parameter.formal)

theorem objectMethods_eq (entry : TypeEntry) :
    objectMethods entry = (entry.methods.filter (!·.isStatic)).map (objectMethod entry) := rfl

/-- Static methods are passed over where objects look for methods. -/
theorem declaredMethod?_level (entry : TypeEntry) (name : String) :
    (table.level entry).declaredMethod? name =
      (entry.methods.find? fun method => !method.isStatic && method.isNamed name).map
        (objectMethod entry) := by
  rw [TypeLevel.declaredMethod?, level, objectMethods_eq, List.find?_map, List.find?_filter]
  congr 2
  funext method
  simp [objectMethod, Routine.isNamed]

theorem declaredMethod?_of_method? {method : Routine} (h : entry.method? name = some method)
    (instance_method : method.isStatic = false) :
    (table.level entry).declaredMethod? name = some (objectMethod entry method) := by
  obtain ⟨named, before, after, split, earlier⟩ := List.find?_eq_some_iff_append.mp h
  have first : entry.methods.find? (fun method => !method.isStatic && method.isNamed name) =
      some method := by
    refine List.find?_eq_some_iff_append.mpr ⟨by simp [named, instance_method], before, after,
      split, fun other mem => ?_⟩
    have := earlier other mem
    simp only [Bool.not_eq_true'] at this
    simp [this]
  rw [declaredMethod?_level, first]
  rfl

theorem declaredMethod?_eq_none (h : entry.method? name = none) :
    (table.level entry).declaredMethod? name = none := by
  rw [declaredMethod?_level, Option.map_eq_none_iff, List.find?_eq_none]
  intro method mem
  have := List.find?_eq_none.mp h method mem
  simp_all

/-- **The compiler and the loaded program find one method.** The nearest type that declares a method
of the name declares an instance method, so objects do not look further. -/
theorem findMethod?_of_resolveMethod? {type : String} {start declaring : TypeEntry}
    {method : Routine} (acyclic : table.Acyclic) (declared : table.type? type = some start)
    (h : table.Line start line)
    (resolved : table.resolveMethod? type name = some (declaring, method))
    (instance_method : method.isStatic = false) :
    (table.loadType start).findMethod? name = some (objectMethod declaring method) := by
  have found : table.Found start := ⟨_, declared⟩
  rw [resolveMethod?, declared] at resolved
  simp only at resolved
  rw [h.baseChain found] at resolved
  rw [RuntimeType.findMethod?, h.levels_loadType acyclic found.first]
  clear h found declared
  induction line with
  | nil => cases resolved
  | cons t rest ih =>
    rw [List.map_cons, List.findSome?_cons]
    rw [List.findSome?_cons] at resolved
    cases own : t.method? name with
    | none =>
      rw [own] at resolved
      rw [declaredMethod?_eq_none own]
      exact ih resolved
    | some found =>
      rw [own] at resolved
      obtain ⟨rfl, rfl⟩ := Prod.mk.inj (Option.some.inj resolved)
      rw [declaredMethod?_of_method? own instance_method]

end Table

end StackScript
