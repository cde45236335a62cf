import Mathlib.Data.List.Dedup
import Mathlib.Data.List.Induction
import Mathlib.Data.List.Perm.Subperm
import StackScript.Dispatch.Site

/-!
# The cache of a call site

A site serves calls one after the other. A call that comes to a look-up is served from the cache if
the cache has an entry for its guard; otherwise the method is resolved, and the outcome is kept: in
the next slot, or behind the last slot in the place of what was kept there before.

Names of methods are looked up without regard to the case of their ASCII letters, but the error
about a missing method shows the name as it was written. A resolution that serves names in several
spellings is therefore right up to the letter case in that one error.

## Main definitions

* `DispatchError.Alike`: two errors are equal, or report the same missing method
* `OutcomesAlike`: two outcomes have the same result, or errors that are alike
* `Lookup`, `SiteShape.lookup?`: what a call looks up, if it comes to that
* `CallSite.serve`, `CallSite.after`: the site behind one call and behind several
* `CallSite.missed`: the guards that were resolved
* `CallSite.Coherent`: what the cache of a site has to do with the look-ups before

## Main results

* `resolve_alike`: what a look-up yields depends on the name up to letter case
* `CallSite.Coherent.serve`: a call keeps the cache coherent
* `CallSite.coherent_after`: what holds of a site behind any calls
-/

namespace StackScript

/-! ## Errors up to letter case -/

section Alike

variable {name name' : String}

/-- Two errors are equal, or report the same missing method in two spellings. -/
inductive DispatchError.Alike : DispatchError → DispatchError → Prop where
  | refl (error) : Alike error error
  | undefinedMethod (type) {name name' : String} :
    Text.foldCase name = Text.foldCase name' →
      Alike (.undefinedMethod type name) (.undefinedMethod type name')

namespace DispatchError.Alike

theorem symm {e e' : DispatchError} (h : e.Alike e') : e'.Alike e := by
  cases h with
  | refl => exact .refl e
  | undefinedMethod type hname => exact .undefinedMethod type hname.symm

theorem trans {e e' e'' : DispatchError} (h : e.Alike e') (h' : e'.Alike e'') : e.Alike e'' := by
  cases h with
  | refl => exact h'
  | undefinedMethod type hname =>
    cases h' with
    | refl => exact .undefinedMethod type hname
    | undefinedMethod _ hname' => exact .undefinedMethod type (hname.trans hname')

end DispatchError.Alike

/-- Two outcomes have the same result, or errors that are alike. -/
inductive OutcomesAlike {α : Type} : Except DispatchError α → Except DispatchError α → Prop where
  | ok (a) : OutcomesAlike (.ok a) (.ok a)
  | error {e e' : DispatchError} : e.Alike e' → OutcomesAlike (.error e) (.error e')

namespace OutcomesAlike

variable {α β : Type}

theorem refl (x : Except DispatchError α) : OutcomesAlike x x := by
  cases x with
  | ok a => exact .ok a
  | error e => exact .error (.refl e)

theorem symm {x y : Except DispatchError α} (h : OutcomesAlike x y) : OutcomesAlike y x := by
  cases h with
  | ok a => exact .ok a
  | error he => exact .error he.symm

theorem trans {x y z : Except DispatchError α} (h : OutcomesAlike x y) (h' : OutcomesAlike y z) :
    OutcomesAlike x z := by
  cases h with
  | ok a => exact h'
  | error he =>
    cases h' with
    | error he' => exact .error (he.trans he')

/-- What is computed from outcomes that are alike is alike. -/
theorem bind {x y : Except DispatchError α} (h : OutcomesAlike x y)
    (f : α → Except DispatchError β) : OutcomesAlike (x >>= f) (y >>= f) := by
  cases h with
  | ok a => exact .refl (f a)
  | error he => exact .error he

end OutcomesAlike

/-! ### Look-ups -/

theorem TypeLevel.declaredMethod?_congr (level : TypeLevel)
    (h : Text.foldCase name = Text.foldCase name') :
    level.declaredMethod? name = level.declaredMethod? name' := by
  simp only [TypeLevel.declaredMethod?, Text.equalIgnoringCase, h]

theorem RuntimeType.findMethod?_congr (type : RuntimeType)
    (h : Text.foldCase name = Text.foldCase name') :
    type.findMethod? name = type.findMethod? name' := by
  simp only [RuntimeType.findMethod?, TypeLevel.declaredMethod?_congr _ h]

/-- Two spellings of a name resolve alike. -/
theorem resolve_alike (type : RuntimeType) {name name' : String}
    (h : Text.foldCase name = Text.foldCase name') (argc : Nat) :
    OutcomesAlike (resolve type name argc) (resolve type name' argc) := by
  unfold resolve
  rw [type.findMethod?_congr h]
  cases type.findMethod? name' with
  | none => exact .error (.undefinedMethod _ h)
  | some method => exact .refl _

end Alike

/-- A call as it reaches a site. -/
structure SiteCall where
  receiver : Value
  /-- The arguments, a computed name in front of them. -/
  args : List Value

/-- What a call looks up. -/
structure Lookup where
  type : RuntimeType
  name : String
  argc : Nat

namespace Lookup

/-- What the look-up finds. -/
def outcome (l : Lookup) : Except DispatchError Binding := resolve l.type l.name l.argc

/-- The guard under which a site keeps what the look-up finds. -/
def guard (l : Lookup) (shape : SiteShape) : Guard := shape.guardOf l.type l.name l.argc

end Lookup

/-- What a call looks up: it comes to that on an object and with a valid name. -/
def SiteShape.lookup? (shape : SiteShape) (call : SiteCall) : Option Lookup :=
  match shape.receiverOf call.receiver, shape.selectName call.args with
  | .ok object, .ok (name, supplied) => some ⟨object.type, name, supplied.length⟩
  | _, _ => none

/-- What the look-up of a guard at a site finds, each type known by its number. -/
def Guard.outcome (guard : Guard) (shape : SiteShape) (types : TypeId → RuntimeType) :
    Except DispatchError Binding :=
  resolve (types guard.type) (guard.name.getD shape.displayName) guard.argc

namespace CallSite

variable {site : CallSite} {past : List Lookup} {call : SiteCall} {guard : Guard} {l : Lookup}
    (shape : SiteShape) (capacity : Nat)

/-- The site behind a call. -/
def serve (site : CallSite) (call : SiteCall) : CallSite :=
  (site.prepare call.receiver call.args).2

/-- The site behind calls, the first one first. -/
def after (site : CallSite) (calls : List SiteCall) : CallSite := calls.foldl serve site

/-- All that the cache keeps. -/
def entries (site : CallSite) : List CacheEntry := site.slots ++ site.recent.toList

/-- The guards for which the cache has an entry. -/
def guards (site : CallSite) : List Guard := site.entries.map (·.guard)

/-- The guard of a call that comes to a look-up and is not served from the cache. -/
def miss? (site : CallSite) (call : SiteCall) : Option Guard :=
  ((site.shape.lookup? call).map (·.guard site.shape)).filter (· ∉ site.guards)

/-- The guards of the calls that are not served from the cache, in order. -/
def missed (site : CallSite) : List SiteCall → List Guard
  | [] => []
  | call :: rest => (site.miss? call).toList ++ (site.serve call).missed rest

/-- What the cache of a site has to do with the look-ups before. -/
structure Coherent (past : List Lookup) (site : CallSite) : Prop where
  published_le : site.published ≤ site.cells.size
  /-- The published slots are those that are filled. -/
  filled : ∀ i (h : i < site.cells.size), site.cells[i].isSome ↔ i < site.published
  distinct : site.guards.Nodup
  recent : site.recent.isSome ↔ site.isMegamorphic
  /-- Behind the slots is an entry only if all of them are filled. -/
  full : site.isMegamorphic → site.published = site.cells.size
  /-- An entry is what a look-up with its guard found. -/
  found : ∀ entry ∈ site.entries, ∃ l ∈ past,
    l.guard site.shape = entry.guard ∧ l.outcome = entry.outcome

/-! ## Serving a call -/

@[simp] theorem shape_new : (new shape capacity).shape = shape := rfl

@[simp] theorem shape_remember (site : CallSite) (entry : CacheEntry) :
    (site.remember entry).shape = site.shape := by
  unfold remember
  split <;> rfl

@[simp] theorem resolutions_remember (site : CallSite) (entry : CacheEntry) :
    (site.remember entry).resolutions = site.resolutions + 1 := by
  unfold remember
  split <;> rfl

@[simp] theorem size_remember (site : CallSite) (entry : CacheEntry) :
    (site.remember entry).cells.size = site.cells.size := by
  unfold remember
  split <;> simp

/-- A call without a look-up and one that is served from the cache leave the site as it is; every
other call adds what it looks up. -/
theorem serve_eq (site : CallSite) (call : SiteCall) :
    site.serve call =
      match site.shape.lookup? call with
      | none => site
      | some l =>
        match site.lookup? (l.guard site.shape) with
        | some _ => site
        | none => site.remember ⟨l.guard site.shape, l.outcome⟩ := by
  unfold serve prepare SiteShape.lookup?
  cases site.shape.receiverOf call.receiver with
  | error e => rfl
  | ok object =>
    cases site.shape.selectName call.args with
    | error e => rfl
    | ok selected =>
      simp only [CallSite.bind, Lookup.guard, Lookup.outcome]
      cases site.lookup? (site.shape.guardOf object.type selected.1 selected.2.length) <;> rfl

@[simp] theorem shape_serve (site : CallSite) (call : SiteCall) :
    (site.serve call).shape = site.shape := by
  rw [serve_eq]
  split
  · rfl
  · split
    · rfl
    · exact shape_remember ..

@[simp] theorem size_serve (site : CallSite) (call : SiteCall) :
    (site.serve call).cells.size = site.cells.size := by
  rw [serve_eq]
  split
  · rfl
  · split
    · rfl
    · exact size_remember ..

@[simp] theorem after_nil (site : CallSite) : site.after [] = site := rfl

@[simp] theorem after_cons (site : CallSite) (call : SiteCall) (rest : List SiteCall) :
    site.after (call :: rest) = (site.serve call).after rest := rfl

@[simp] theorem shape_after (site : CallSite) (calls : List SiteCall) :
    (site.after calls).shape = site.shape := by
  induction calls generalizing site with
  | nil => rfl
  | cons call rest ih => exact (ih (site.serve call)).trans (shape_serve site call)

@[simp] theorem size_after (site : CallSite) (calls : List SiteCall) :
    (site.after calls).cells.size = site.cells.size := by
  induction calls generalizing site with
  | nil => rfl
  | cons call rest ih => exact (ih (site.serve call)).trans (size_serve site call)

theorem after_append (site : CallSite) (calls more : List SiteCall) :
    site.after (calls ++ more) = (site.after calls).after more := List.foldl_append

theorem missed_append (site : CallSite) (calls more : List SiteCall) :
    site.missed (calls ++ more) = site.missed calls ++ (site.after calls).missed more := by
  induction calls generalizing site with
  | nil => rfl
  | cons call rest ih => simp only [List.cons_append, missed, ih, List.append_assoc]; rfl

/-! ## Hits and misses -/

/-- The cache has nothing for a guard exactly if no entry has that guard. -/
theorem Coherent.lookup?_eq_none (h : Coherent past site) :
    site.lookup? guard = none ↔ guard ∉ site.guards := by
  have mega := h.recent
  unfold lookup? guards entries
  cases hfind : site.slots.find? (·.guard == guard) with
  | some entry =>
    have hmem := List.mem_of_find?_eq_some hfind
    have hguard : entry.guard = guard := by simpa using List.find?_some hfind
    simp only [reduceCtorEq, false_iff, not_not]
    exact List.mem_map.mpr ⟨entry, List.mem_append_left _ hmem, hguard⟩
  | none =>
    have hslots : guard ∉ site.slots.map (·.guard) := by
      simpa using hfind
    rw [List.map_append, List.mem_append, not_or, and_iff_right hslots]
    cases hrecent : site.recent with
    | none => simp
    | some entry =>
      rw [hrecent] at mega
      by_cases hguard : entry.guard = guard
      · simp [mega.mp rfl, Option.filter, hguard]
      · simp [mega.mp rfl, Option.filter, hguard, Ne.symm hguard]

/-- A call for which the cache has nothing adds its look-up. -/
theorem Coherent.serve_of_miss (h : Coherent past site) (hmiss : site.miss? call = some guard) :
    ∃ l, site.shape.lookup? call = some l ∧ l.guard site.shape = guard ∧ guard ∉ site.guards ∧
      site.serve call = site.remember ⟨guard, l.outcome⟩ := by
  obtain ⟨hmap, hnot⟩ := Option.filter_eq_some_iff.mp hmiss
  obtain ⟨l, hl, hguard⟩ := Option.map_eq_some_iff.mp hmap
  have hnot : guard ∉ site.guards := by simpa using hnot
  refine ⟨l, hl, hguard, hnot, ?_⟩
  rw [serve_eq, hl]
  simp only [hguard, h.lookup?_eq_none.mpr hnot]

/-- Every other call leaves the site as it is. -/
theorem Coherent.serve_of_hit (h : Coherent past site) (hmiss : site.miss? call = none) :
    site.serve call = site ∧
      ∀ l ∈ site.shape.lookup? call, l.guard site.shape ∈ site.guards := by
  rw [serve_eq]
  cases hl : site.shape.lookup? call with
  | none => simp
  | some l =>
    have hmem : l.guard site.shape ∈ site.guards := by
      simpa [miss?, hl, Option.filter] using hmiss
    cases hlook : site.lookup? (l.guard site.shape) with
    | none => exact (h.lookup?_eq_none.mp hlook hmem).elim
    | some outcome => simpa [hlook] using hmem

/-! ## Keeping a resolution -/

/-- While slots are left, the next one is filled. -/
theorem Coherent.remember_of_lt (h : Coherent past site) (hlt : site.published < site.cells.size)
    (entry : CacheEntry) :
    site.remember entry =
      { site with
        cells := site.cells.set site.published (some entry)
        published := site.published + 1
        resolutions := site.resolutions + 1 } := by
  have hnone : site.cells[site.published]? = some none := by
    have hempty : ¬ site.cells[site.published].isSome :=
      (h.filled site.published hlt).not.mpr (Nat.lt_irrefl _)
    rw [Array.getElem?_eq_getElem hlt]
    simpa using hempty
  simp only [remember, hnone, Array.setIfInBounds, hlt, dite_true]

/-- When no slot is left, the entry behind the slots is replaced. -/
theorem remember_of_eq (heq : site.published = site.cells.size) (entry : CacheEntry) :
    site.remember entry =
      { site with
        recent := some entry
        isMegamorphic := true
        resolutions := site.resolutions + 1 } := by
  have hnone : site.cells[site.published]? = none := by simp [heq]
  simp only [remember, hnone]

/-- The slots when the next one is filled. -/
theorem Coherent.slots_remember (h : Coherent past site)
    (hlt : site.published < site.cells.size) (entry : CacheEntry) :
    (site.remember entry).slots = site.slots ++ [entry] := by
  have hlt' : site.published < site.cells.toList.length := by simpa using hlt
  rw [h.remember_of_lt hlt]
  simp only [slots, Array.toList_set, List.take_add_one, List.filterMap_append]
  rw [List.take_set_of_le (Nat.le_refl _), List.getElem?_set_self hlt']
  rfl

/-- What is kept behind a resolution: it, and something of what was kept before. -/
theorem Coherent.entries_remember (h : Coherent past site) (entry : CacheEntry) :
    ∃ kept, (site.remember entry).entries = kept ++ [entry] ∧ kept.Sublist site.entries := by
  rcases Nat.lt_or_eq_of_le h.published_le with hlt | heq
  · have hrecent : site.recent = none := by
      have hmega : ¬ site.isMegamorphic := fun hm => Nat.lt_irrefl _ (h.full hm ▸ hlt)
      simpa using h.recent.not.mpr hmega
    have hrecent' : (site.remember entry).recent = none := by
      rw [h.remember_of_lt hlt]
      exact hrecent
    refine ⟨site.slots, ?_, List.sublist_append_left _ _⟩
    rw [entries, h.slots_remember hlt, hrecent']
    exact List.append_nil _
  · refine ⟨site.slots, ?_, List.sublist_append_left _ _⟩
    rw [remember_of_eq heq]
    rfl

/-- A look-up that is not in the cache is added to it. -/
theorem Coherent.remember (h : Coherent past site) (hnew : l.guard site.shape ∉ site.guards) :
    Coherent (past ++ [l]) (site.remember ⟨l.guard site.shape, l.outcome⟩) := by
  obtain ⟨kept, hentries, hkept⟩ := h.entries_remember ⟨l.guard site.shape, l.outcome⟩
  -- The guard is new, and the entries that stay are some of those before, so no guard is twice.
  have distinct : (site.remember ⟨l.guard site.shape, l.outcome⟩).guards.Nodup := by
    have hsub : (kept.map (·.guard)).Sublist site.guards := hkept.map _
    rw [guards, hentries, List.map_append, List.nodup_append]
    refine ⟨hsub.nodup h.distinct, List.nodup_singleton _, fun g hg g' hg' heq => hnew ?_⟩
    have hself : g = l.guard site.shape := heq.trans (List.mem_singleton.mp hg')
    exact hself ▸ hsub.subset hg
  have found : ∀ entry ∈ (site.remember ⟨l.guard site.shape, l.outcome⟩).entries,
      ∃ k ∈ past ++ [l], k.guard (site.remember ⟨l.guard site.shape, l.outcome⟩).shape =
        entry.guard ∧ k.outcome = entry.outcome := by
    intro entry hentry
    rw [shape_remember]
    rw [hentries] at hentry
    rcases List.mem_append.mp hentry with hentry | hentry
    · obtain ⟨k, hk, hfound⟩ := h.found entry (hkept.subset hentry)
      exact ⟨k, List.mem_append_left _ hk, hfound⟩
    · rw [List.mem_singleton.mp hentry]
      exact ⟨l, List.mem_append_right _ List.mem_cons_self, rfl, rfl⟩
  -- A free slot takes the entry. Where no slot is free it stands behind them, which makes the site
  -- megamorphic.
  rcases Nat.lt_or_eq_of_le h.published_le with hlt | heq
  · have hmega : ¬ site.isMegamorphic := fun hm => Nat.lt_irrefl _ (h.full hm ▸ hlt)
    rw [h.remember_of_lt hlt] at distinct found ⊢
    refine ⟨?_, fun i hi => ?_, distinct, h.recent, fun hm => (hmega hm).elim, found⟩
    · simpa using Nat.succ_le_of_lt hlt
    · simp only [Array.size_set] at hi
      rw [Array.getElem_set]
      split
      case isTrue hi' => simp [← hi']
      case isFalse hi' =>
        rw [h.filled i hi]
        show i < site.published ↔ i < site.published + 1
        omega
  · rw [remember_of_eq heq] at distinct found ⊢
    exact ⟨h.published_le, h.filled, distinct, by simp, fun _ => heq, found⟩

/-! ## Runs of calls -/

theorem coherent_new : Coherent [] (new shape capacity) where
  published_le := Nat.zero_le _
  filled i h := by simp [new]
  distinct := by simp [guards, entries, slots, new]
  recent := by simp [new]
  full h := by simp [new] at h
  found entry h := by simp [entries, slots, new] at h

/-- Whatever a call does, the cache has to do with the look-ups before as it should. -/
theorem Coherent.serve (h : Coherent past site) (call : SiteCall) :
    Coherent (past ++ (site.shape.lookup? call).toList) (site.serve call) := by
  cases hmiss : site.miss? call with
  | some guard =>
    obtain ⟨l, hl, rfl, hnew, hserve⟩ := h.serve_of_miss hmiss
    rw [hserve, hl]
    exact h.remember hnew
  | none =>
    rw [(h.serve_of_hit hmiss).1]
    exact { h with
      found := fun entry hentry =>
        let ⟨k, hk, hfound⟩ := h.found entry hentry
        ⟨k, List.mem_append_left _ hk, hfound⟩ }

theorem Coherent.after (h : Coherent past site) (calls : List SiteCall) :
    Coherent (past ++ calls.filterMap site.shape.lookup?) (site.after calls) := by
  induction calls generalizing past site with
  | nil => simpa using h
  | cons call rest ih =>
    have := ih (h.serve call)
    rw [shape_serve, List.append_assoc] at this
    rw [List.filterMap_cons]
    cases hl : site.shape.lookup? call with
    | none => simpa [hl] using this
    | some l => simpa [hl] using this

/-- A call resolves its method exactly if it misses the cache. -/
theorem Coherent.resolutions_serve (h : Coherent past site) (call : SiteCall) :
    (site.serve call).resolutions = site.resolutions + (site.miss? call).toList.length := by
  cases hmiss : site.miss? call with
  | some guard =>
    obtain ⟨l, -, -, -, hserve⟩ := h.serve_of_miss hmiss
    rw [hserve, resolutions_remember]
    rfl
  | none => rw [(h.serve_of_hit hmiss).1]; rfl

theorem length_miss? (site : CallSite) (call : SiteCall) :
    (site.miss? call).toList.length =
      if ∃ l ∈ site.shape.lookup? call, l.guard site.shape ∉ site.guards then 1 else 0 := by
  unfold miss?
  cases site.shape.lookup? call with
  | none => simp
  | some l => by_cases hmem : l.guard site.shape ∈ site.guards <;> simp [Option.filter, hmem]

theorem Coherent.resolutions_after (h : Coherent past site) (calls : List SiteCall) :
    (site.after calls).resolutions = site.resolutions + (site.missed calls).length := by
  induction calls generalizing past site with
  | nil => rfl
  | cons call rest ih =>
    have := ih (h.serve call)
    rw [h.resolutions_serve] at this
    simpa [missed, Nat.add_assoc] using this

/-- What a published slot keeps, and that it is published, no call changes. -/
theorem Coherent.kept_serve (h : Coherent past site) (call : SiteCall) {i : Nat}
    (hi : i < site.published) :
    i < (site.serve call).published ∧ (site.serve call).cells[i]? = site.cells[i]? := by
  cases hmiss : site.miss? call with
  | none => rw [(h.serve_of_hit hmiss).1]; exact ⟨hi, rfl⟩
  | some guard =>
    obtain ⟨l, -, -, -, hserve⟩ := h.serve_of_miss hmiss
    rw [hserve]
    rcases Nat.lt_or_eq_of_le h.published_le with hlt | heq
    · rw [h.remember_of_lt hlt]
      exact ⟨Nat.lt_succ_of_lt hi, Array.getElem?_set_ne hlt (Nat.ne_of_gt hi)⟩
    · rw [remember_of_eq heq]
      exact ⟨hi, rfl⟩

theorem Coherent.kept_after (h : Coherent past site) (calls : List SiteCall) {i : Nat}
    (hi : i < site.published) : (site.after calls).cells[i]? = site.cells[i]? := by
  induction calls generalizing past site with
  | nil => rfl
  | cons call rest ih =>
    obtain ⟨hi', hcell⟩ := h.kept_serve call hi
    exact (ih (h.serve call) hi').trans hcell

/-! ## How often a guard is resolved -/

/-- Behind a look-up the cache has an entry for its guard. -/
theorem Coherent.mem_guards_serve (h : Coherent past site) (hl : site.shape.lookup? call = some l) :
    l.guard site.shape ∈ (site.serve call).guards := by
  cases hmiss : site.miss? call with
  | none =>
    obtain ⟨hserve, hmem⟩ := h.serve_of_hit hmiss
    rw [hserve]
    exact hmem l hl
  | some guard =>
    obtain ⟨l', hl', rfl, -, hserve⟩ := h.serve_of_miss hmiss
    obtain rfl := Option.some.inj (hl.symm.trans hl')
    obtain ⟨kept, hentries, -⟩ := h.entries_remember ⟨l.guard site.shape, l.outcome⟩
    rw [hserve, guards, hentries]
    simp

/-- Calls whose guards the cache has resolve nothing. -/
theorem Coherent.missed_eq_nil (h : Coherent past site) {calls : List SiteCall}
    (hcalls : ∀ call ∈ calls, ∀ l ∈ site.shape.lookup? call, l.guard site.shape ∈ site.guards) :
    site.missed calls = [] := by
  induction calls generalizing past with
  | nil => rfl
  | cons call rest ih =>
    have hmiss : site.miss? call = none := by
      cases hl : site.shape.lookup? call with
      | none => simp [miss?, hl]
      | some l => simp [miss?, hl, Option.filter, hcalls call List.mem_cons_self l hl]
    rw [missed, hmiss, (h.serve_of_hit hmiss).1]
    exact ih h fun call hc => hcalls call (List.mem_cons_of_mem _ hc)

/-- Calls of one guard resolve it at most once. -/
theorem Coherent.missed_of_one (h : Coherent past site) {calls : List SiteCall}
    (hcalls : ∀ call ∈ calls, ∀ l ∈ site.shape.lookup? call, l.guard site.shape = guard) :
    (site.missed calls).length ≤ 1 := by
  induction calls generalizing past with
  | nil => exact Nat.zero_le 1
  | cons call rest ih =>
    cases hmiss : site.miss? call with
    | none =>
      rw [missed, hmiss, (h.serve_of_hit hmiss).1]
      exact ih h fun call hc => hcalls call (List.mem_cons_of_mem _ hc)
    | some g =>
      -- From here on the cache has the guard.
      obtain ⟨l, hl, -, -, -⟩ := h.serve_of_miss hmiss
      have hmem := h.mem_guards_serve hl
      have hrest : (site.serve call).missed rest = [] := by
        refine (h.serve call).missed_eq_nil fun call' hc l' hl' => ?_
        rw [shape_serve] at hl' ⊢
        rw [hcalls call' (List.mem_cons_of_mem _ hc) l' hl',
          ← hcalls call List.mem_cons_self l hl]
        exact hmem
      rw [missed, hmiss, hrest]
      exact Nat.le_refl 1

theorem Coherent.length_slots (h : Coherent past site) : site.slots.length = site.published := by
  have hall : ∀ cell ∈ site.cells.toList.take site.published, cell.isSome := by
    intro cell hcell
    obtain ⟨i, hi, rfl⟩ := List.mem_iff_getElem.mp hcell
    simp only [List.length_take, Array.length_toList] at hi
    rw [List.getElem_take, Array.getElem_toList]
    exact (h.filled i (by omega)).mpr (by omega)
  rw [slots, List.length_filterMap_eq_countP, List.countP_eq_length.mpr (by simpa using hall)]
  rw [List.length_take, Array.length_toList, Nat.min_eq_left h.published_le]

/-- A cache that is used up has met more guards than it has slots. -/
theorem Coherent.lt_guards (h : Coherent past site) (hmega : site.isMegamorphic) :
    site.cells.size < ((past.map (·.guard site.shape)).dedup).length := by
  have hsub : site.guards ⊆ (past.map (·.guard site.shape)).dedup := by
    intro g hg
    obtain ⟨entry, hentry, rfl⟩ := List.mem_map.mp hg
    obtain ⟨l, hl, hguard, -⟩ := h.found entry hentry
    exact List.mem_dedup.mpr (List.mem_map.mpr ⟨l, hl, hguard⟩)
  have hlength : site.guards.length = site.cells.size + 1 := by
    obtain ⟨entry, hrecent⟩ := Option.isSome_iff_exists.mp (h.recent.mpr hmega)
    simp [guards, entries, hrecent, h.length_slots, h.full hmega]
  have := (List.subperm_of_subset h.distinct hsub).length_le
  omega

/-- While slots are left, the cache has what was resolved, and all that was looked up. -/
theorem guards_after (calls : List SiteCall)
    (hmega : ¬ ((new shape capacity).after calls).isMegamorphic) :
    ((new shape capacity).after calls).guards = (new shape capacity).missed calls ∧
      ∀ l ∈ calls.filterMap shape.lookup?,
        l.guard shape ∈ ((new shape capacity).after calls).guards := by
  induction calls using List.reverseRecOn with
  | nil => simp [after, guards, entries, slots, new, missed]
  | append_singleton calls call ih =>
    have h := (coherent_new shape capacity).after calls
    have hshape : ((new shape capacity).after calls).shape = shape := shape_after _ _
    generalize hsite : (new shape capacity).after calls = site at h hshape ih
    have hafter : (new shape capacity).after (calls ++ [call]) = site.serve call := by
      rw [after_append, hsite]; rfl
    have hmissed : (new shape capacity).missed (calls ++ [call]) =
        (new shape capacity).missed calls ++ (site.miss? call).toList := by
      rw [missed_append, hsite]; simp [missed]
    rw [hafter] at hmega ⊢
    rw [hmissed, List.filterMap_append]
    cases hmiss : site.miss? call with
    | none =>
      obtain ⟨hserve, hmem⟩ := h.serve_of_hit hmiss
      rw [hserve] at hmega ⊢
      obtain ⟨hguards, hpast⟩ := ih hmega
      refine ⟨by simpa using hguards, fun l hl => ?_⟩
      rcases List.mem_append.mp hl with hl | hl
      · exact hpast l hl
      · rw [← hshape] at hl ⊢
        exact hmem l (by simpa using hl)
    | some guard =>
      obtain ⟨l, hl, rfl, -, hserve⟩ := h.serve_of_miss hmiss
      rw [hserve] at hmega
      -- The slots are not used up, so the look-up went to the next one.
      have hlt : site.published < site.cells.size :=
        (Nat.lt_or_eq_of_le h.published_le).resolve_right fun heq => hmega (by
          rw [remember_of_eq heq])
      have hmega' : ¬ site.isMegamorphic := by rwa [h.remember_of_lt hlt] at hmega
      have hrecent : site.recent = none := by simpa using h.recent.not.mpr hmega'
      obtain ⟨hguards, hpast⟩ := ih hmega'
      have hnew : (site.serve call).guards = site.guards ++ [l.guard site.shape] := by
        have hrecent' : (site.serve call).recent = none := by
          rw [hserve, h.remember_of_lt hlt]; exact hrecent
        rw [guards, entries, hrecent', hserve, h.slots_remember hlt, guards, entries, hrecent]
        simp
      refine ⟨by rw [hnew, hguards]; rfl, fun k hk => ?_⟩
      rw [hnew]
      rcases List.mem_append.mp hk with hk | hk
      · exact List.mem_append_left _ (hpast k hk)
      · have hkl : k = l := by simpa [← hshape, hl] using hk
        rw [hkl, ← hshape]
        exact List.mem_append_right _ List.mem_cons_self

/-! ## What is kept under a guard -/

end CallSite

theorem Text.foldCase_foldCase (s : String) : foldCase (foldCase s) = foldCase s := by
  have hlower : Char.toLower ∘ Char.toLower = Char.toLower := by
    funext c
    delta Char.toLower
    grind
  rw [foldCase, foldCase, String.map_map, hlower]

/-- The name that a call looks up is the name of its guard, or of the site, up to letter case. -/
theorem SiteShape.foldCase_name {shape : SiteShape} {call : SiteCall} {l : Lookup}
    (h : shape.lookup? call = some l) :
    Text.foldCase l.name = Text.foldCase ((l.guard shape).name.getD shape.displayName) := by
  unfold lookup? at h
  split at h
  case h_1 object name supplied hobject hname =>
    obtain rfl := Option.some.inj h
    cases hselector : shape.selector with
    | computed => simp [Lookup.guard, guardOf, hselector, Text.foldCase_foldCase]
    | direct direct =>
      obtain rfl : direct = name := by
        have := hname
        simp only [selectName, hselector, Except.ok.injEq, Prod.mk.injEq] at this
        exact this.1
      simp [Lookup.guard, guardOf, hselector, displayName]
    | magic method =>
      obtain rfl : method.methodName = name := by
        have := hname
        simp only [selectName, hselector, Except.ok.injEq, Prod.mk.injEq] at this
        exact this.1
      simp [Lookup.guard, guardOf, hselector, displayName]
  case h_2 => cases h

/-- A look-up finds what the look-up of its guard finds, the name's letter case apart. -/
theorem Lookup.outcome_alike {shape : SiteShape} {call : SiteCall} {l : Lookup}
    (h : shape.lookup? call = some l) {types : TypeId → RuntimeType}
    (htype : types l.type.id = l.type) :
    OutcomesAlike l.outcome ((l.guard shape).outcome shape types) := by
  have hguard : types (l.guard shape).type = l.type := htype
  rw [Guard.outcome, hguard]
  exact resolve_alike l.type (SiteShape.foldCase_name h) l.argc

namespace CallSite

variable {site : CallSite} {past : List Lookup}

/-- Where types are known by their numbers, an entry is what its guard resolves to. -/
theorem Coherent.outcome_alike (h : Coherent past site) {types : TypeId → RuntimeType}
    (hpast : ∀ l ∈ past, (∃ call, site.shape.lookup? call = some l) ∧ types l.type.id = l.type) :
    ∀ entry ∈ site.entries,
      OutcomesAlike entry.outcome (entry.guard.outcome site.shape types) := by
  intro entry hentry
  obtain ⟨l, hl, hguard, hfound⟩ := h.found entry hentry
  obtain ⟨⟨call, hcall⟩, htype⟩ := hpast l hl
  rw [← hfound, ← hguard]
  exact Lookup.outcome_alike hcall htype

/-- **The cache behind any calls.** It is coherent: the published slots are the filled ones, no
guard has two entries, an entry stands behind the slots exactly at a megamorphic site, whose slots
are all filled, and each entry is what a look-up with its guard found, which is what the guard
resolves to where types are known by their numbers. Published slots stay as they are. A further
call adds a resolution exactly if it comes to a look-up whose guard has no entry. Guards that are no
more than the slots are resolved once each, and of calls with one guard at most one resolves it. -/
theorem coherent_after (shape : SiteShape) (capacity : Nat) (calls : List SiteCall) :
    let past := calls.filterMap shape.lookup?
    let site := (new shape capacity).after calls
    (site.Coherent past ∧ site.cells.size = capacity ∧
      ∀ types : TypeId → RuntimeType, (∀ l ∈ past, types l.type.id = l.type) →
        ∀ entry ∈ site.entries, OutcomesAlike entry.outcome (entry.guard.outcome shape types)) ∧
    (∀ more, ∀ i < site.published, (site.after more).cells[i]? = site.cells[i]?) ∧
    (site.resolutions = ((new shape capacity).missed calls).length ∧
      ∀ call, (site.serve call).resolutions = site.resolutions +
        if ∃ l ∈ shape.lookup? call, l.guard shape ∉ site.guards then 1 else 0) ∧
    ((past.map (·.guard shape)).dedup.length ≤ capacity →
      ((new shape capacity).missed calls).Nodup ∧
        ∀ guard, guard ∈ (new shape capacity).missed calls ↔ guard ∈ past.map (·.guard shape)) ∧
    (∀ guard more, (∀ call ∈ more, ∀ l ∈ shape.lookup? call, l.guard shape = guard) →
      (site.after more).resolutions ≤ site.resolutions + 1) := by
  intro past site
  have hshape : site.shape = shape := shape_after _ _
  have h : site.Coherent past := (coherent_new shape capacity).after calls
  have hsize : site.cells.size = capacity := by simp [site, new]
  refine ⟨⟨h, hsize, fun types htypes entry hentry => ?_⟩, fun more i hi => h.kept_after more hi,
    ⟨?_, fun call => ?_⟩, fun hfew => ?_, fun guard more hmore => ?_⟩
  · rw [← hshape]
    refine h.outcome_alike (fun l hl => ?_) entry hentry
    obtain ⟨call, -, hcall⟩ := List.mem_filterMap.mp hl
    exact ⟨⟨call, hshape ▸ hcall⟩, htypes l hl⟩
  · exact ((coherent_new shape capacity).resolutions_after calls).trans (Nat.zero_add _)
  · rw [h.resolutions_serve, length_miss?, hshape]
  · -- A megamorphic site has met more guards than it has slots.
    have hmega : ¬ site.isMegamorphic := fun hmega => by
      have := h.lt_guards hmega
      rw [hshape] at this
      omega
    obtain ⟨hguards, hpast⟩ := guards_after shape capacity calls hmega
    rw [← hguards]
    refine ⟨h.distinct, fun guard => ⟨fun hmem => ?_, fun hmem => ?_⟩⟩
    · obtain ⟨entry, hentry, rfl⟩ := List.mem_map.mp hmem
      obtain ⟨l, hl, hguard, -⟩ := h.found entry hentry
      exact List.mem_map.mpr ⟨l, hl, hshape ▸ hguard⟩
    · obtain ⟨l, hl, rfl⟩ := List.mem_map.mp hmem
      exact hpast l hl
  · rw [h.resolutions_after]
    exact Nat.add_le_add_left (h.missed_of_one (hshape ▸ hmore)) _

end CallSite

end StackScript
