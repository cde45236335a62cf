import StackScript.Proofs.Dispatch.Cache

/-!
# Call sites that have served calls

The answer to a call depends on the type of its receiver, on the name and on the number of its
arguments. A guard has all of these where types are known by their numbers, the letter case of a
computed name apart; so an outcome that is kept under a guard is right for every later call with
that guard.

What a call site with a name of its own has served does not show in the calls that it makes later on,
not even in the texts of their errors. So it makes no difference whether one such site of a program was
used, and these differences are kept by all calls that follow.

## Main definitions

* `CallSite.Reached`: a site has served calls on objects whose types are known by their numbers
* `Registry.SameBut`: registries that differ in the site of one number at most
* `Registry.Serves`: the site of a shape, if there is one, has served calls
* `Registry.Beside`: registries that differ in what the site of one shape has served

## Main results

* `CallSite.Reached.prepare_alike`: such sites of one shape make the same calls, whatever they have
  served before
* `CallSite.Reached.prepare_named`: the call that a site with a name of its own makes
* `Registry.Beside.site`, `Registry.Beside.served`: registries go on to differ in that site only
-/

namespace StackScript

/-! ## What the cache of a call site may answer -/

section Soundness

variable {types : TypeId → RuntimeType}

/-- The object that a call comes to a look-up on has the type of its number. -/
def SiteCall.Typed (types : TypeId → RuntimeType) (shape : SiteShape) (call : SiteCall) : Prop :=
  ∀ l ∈ shape.lookup? call, types l.type.id = l.type

namespace CallSite

variable {site site' : CallSite} {call : SiteCall}

/-- The site has served calls, all of them on objects whose types are known by their numbers. -/
inductive Reached (types : TypeId → RuntimeType) : CallSite → Prop where
  | after (shape : SiteShape) (capacity : Nat) {calls : List SiteCall} :
    (∀ call ∈ calls, call.Typed types shape) → Reached types ((new shape capacity).after calls)

namespace Reached

theorem new (shape : SiteShape) (capacity : Nat) : Reached types (.new shape capacity) :=
  @after types shape capacity [] nofun

theorem serve (h : Reached types site) (hcall : call.Typed types site.shape) :
    Reached types (site.serve call) := by
  cases h with
  | @after shape capacity calls hcalls =>
    rw [shape_after] at hcall
    have hafter : (((CallSite.new shape capacity).after calls).serve call) =
        (CallSite.new shape capacity).after (calls ++ [call]) := (after_append _ calls [call]).symm
    rw [hafter]
    refine .after shape capacity fun other hother => ?_
    rcases List.mem_append.mp hother with hother | hother
    · exact hcalls other hother
    · exact List.mem_singleton.mp hother ▸ hcall

theorem coherent (h : Reached types site) :
    ∃ past, site.Coherent past ∧
      ∀ l ∈ past, (∃ call, site.shape.lookup? call = some l) ∧ types l.type.id = l.type := by
  cases h with
  | @after shape capacity calls hcalls =>
    refine ⟨_, (coherent_new shape capacity).after calls, fun l hl => ?_⟩
    obtain ⟨call, hcall, hl⟩ := List.mem_filterMap.mp hl
    exact ⟨⟨call, (shape_after _ _).symm ▸ hl⟩, hcalls call hcall l hl⟩

end Reached

/-- What is looked up in the cache is the outcome of an entry with the guard. -/
theorem exists_of_lookup? {guard : Guard} {outcome} (h : site.lookup? guard = some outcome) :
    ∃ entry ∈ site.entries, entry.guard = guard ∧ entry.outcome = outcome := by
  unfold lookup? at h
  split at h
  case h_1 entry hfind =>
    exact ⟨entry, List.mem_append_left _ (List.mem_of_find?_eq_some hfind),
      by simpa using List.find?_some hfind, Option.some.inj h⟩
  case h_2 =>
    split at h
    · obtain ⟨entry, hentry, rfl⟩ := Option.map_eq_some_iff.mp h
      obtain ⟨hrecent, hguard⟩ := Option.filter_eq_some_iff.mp hentry
      exact ⟨entry, List.mem_append_right _ (by simp [hrecent]), by simpa using hguard, rfl⟩
    · cases h

/-- A site that was not used yet looks everything up. -/
theorem bind_new (shape : SiteShape) (capacity : Nat) (type : RuntimeType) (name : String)
    (argc : Nat) : ((new shape capacity).bind type name argc).1 = resolve type name argc := by
  have hlookup (guard : Guard) : (new shape capacity).lookup? guard = none :=
    (coherent_new shape capacity).lookup?_eq_none.mpr (by simp [guards, entries, slots, new])
  simp only [CallSite.bind, hlookup]

/-- The binding that a site uses for a call is the one that the look-up finds. -/
theorem Reached.bind_alike (h : Reached types site) {l : Lookup}
    (hl : site.shape.lookup? call = some l) (htype : types l.type.id = l.type) :
    OutcomesAlike (site.bind l.type l.name l.argc).1 l.outcome := by
  unfold CallSite.bind
  dsimp only
  split
  case h_2 => exact .refl _
  case h_1 outcome hlookup =>
    obtain ⟨past, hcoherent, hpast⟩ := h.coherent
    obtain ⟨entry, hentry, hguard, rfl⟩ := exists_of_lookup? hlookup
    have halike := hcoherent.outcome_alike hpast entry hentry
    rw [hguard] at halike
    exact halike.trans (Lookup.outcome_alike hl htype).symm

/-- **Sites of one shape make the same calls**, whatever they have served before: the same method
on the same receiver with the same converted arguments, or errors that are alike. -/
theorem Reached.prepare_alike (h : Reached types site) (h' : Reached types site')
    (hshape : site.shape = site'.shape) (hcall : call.Typed types site.shape) :
    OutcomesAlike (site.prepare call.receiver call.args).1
      (site'.prepare call.receiver call.args).1 := by
  cases hobject : site.shape.receiverOf call.receiver with
  | error e => simp only [prepare, ← hshape, hobject]; exact .refl _
  | ok object =>
    cases hselect : site.shape.selectName call.args with
    | error e => simp only [prepare, ← hshape, hobject, hselect]; exact .refl _
    | ok selected =>
      obtain ⟨name, supplied⟩ := selected
      have hl : site.shape.lookup? call = some ⟨object.type, name, supplied.length⟩ := by
        simp only [SiteShape.lookup?, hobject, hselect]
      have htype := hcall _ hl
      have hbind : OutcomesAlike (site.bind object.type name supplied.length).1
          (site'.bind object.type name supplied.length).1 :=
        (h.bind_alike hl htype).trans (h'.bind_alike (hshape ▸ hl) htype).symm
      simp only [prepare, ← hshape, hobject, hselect]
      exact hbind.bind _

end CallSite

end Soundness

variable {types : TypeId → RuntimeType} {shape other : SiteShape} {name : String}

/-! ## Sites with a name of their own -/

/-- The name of the called method is part of the shape: all values are arguments. -/
def SiteShape.Names (shape : SiteShape) (name : String) : Prop :=
  ∀ args, shape.selectName args = .ok (name, args)

namespace SiteShape

theorem names_direct (direct : shape.selector = .direct name) : shape.Names name := by
  intro args
  unfold selectName
  rw [direct]

theorem names_magic {method : MagicMethod} (magic : shape.selector = .magic method) :
    shape.Names method.methodName := by
  intro args
  unfold selectName
  rw [magic]

end SiteShape

namespace CallSite

variable {site site' : CallSite} {args : List Value} {receiver : Value}

/-- A site with a name of its own uses the binding that the look-up of the name finds: its cache has
outcomes of that name alone. -/
theorem Reached.bind_named (h : site.Reached types) (named : site.shape.Names name)
    {type : RuntimeType} (typed : types type.id = type) (argc : Nat) :
    (site.bind type name argc).1 = resolve type name argc := by
  unfold CallSite.bind
  dsimp only
  split
  case h_2 => rfl
  case h_1 outcome kept =>
    obtain ⟨entry, mem, guard, rfl⟩ := exists_of_lookup? kept
    obtain ⟨past, coherent, calls⟩ := h.coherent
    obtain ⟨l, looked, same, found⟩ := coherent.found entry mem
    obtain ⟨⟨call, lookup⟩, known⟩ := calls l looked
    have called : l.name = name := by
      unfold SiteShape.lookup? at lookup
      rw [named] at lookup
      split at lookup
      · next selected =>
        obtain ⟨rfl, rfl⟩ := Prod.mk.inj (Except.ok.inj selected)
        exact Option.some.inj lookup ▸ rfl
      · cases lookup
    rw [guard] at same
    obtain ⟨id, -, count⟩ := Guard.mk.injEq .. ▸ same
    have sameType : l.type = type := by rw [← known, ← typed, id]
    dsimp only
    rw [← found, Lookup.outcome, sameType, called, count]

/-- The call that a site with a name of its own makes, whatever it has served before. -/
theorem Reached.prepare_named (h : site.Reached types) (named : site.shape.Names name)
    (typed : SiteCall.Typed types site.shape ⟨receiver, args⟩) :
    (site.prepare receiver args).1 = (do
      let object ← site.shape.receiverOf receiver
      let binding ← resolve object.type name args.length
      return ⟨binding.method, object, ← binding.convert args⟩) := by
  unfold prepare
  unfold SiteCall.Typed SiteShape.lookup? at typed
  rw [named] at typed ⊢
  cases receiver with
  | object ref =>
    have bound := h.bind_named named (typed _ rfl) args.length
    simp only [SiteShape.receiverOf]
    rw [bound]
    rfl
  | _ => rfl

/-- Sites of one shape with a name of its own make the same calls. -/
theorem Reached.prepare_eq (h : site.Reached types) (h' : site'.Reached types)
    (same : site'.shape = site.shape) (named : site.shape.Names name)
    (typed : SiteCall.Typed types site.shape ⟨receiver, args⟩) :
    (site'.prepare receiver args).1 = (site.prepare receiver args).1 := by
  rw [h.prepare_named named typed, h'.prepare_named (same ▸ named) (same ▸ typed), same]

end CallSite

/-! ## One site of a registry -/

namespace Registry

variable {sites others : Registry}

/-- The site with the number of the shape, if it was reached, is of that shape and has served
calls. -/
def Serves (types : TypeId → RuntimeType) (shape : SiteShape) (sites : Registry) : Prop :=
  ∀ site, sites.get? shape.id = some site → site.shape = shape ∧ site.Reached types

/-- The registries are the same but for the site of a number. -/
structure SameBut (id : SiteId) (sites others : Registry) : Prop where
  capacity : others.capacity = sites.capacity
  elsewhere : others.sites.filter (·.shape.id != id) = sites.sites.filter (·.shape.id != id)

/-- The registries are the same but for the site of the shape, which may have served other calls in
the one than in the other. -/
structure Beside (types : TypeId → RuntimeType) (shape : SiteShape) (sites others : Registry) : Prop
    extends sites.SameBut shape.id others where
  serves : sites.Serves types shape
  serves' : others.Serves types shape

/-- The site of a number, if it was reached, has that number. -/
theorem id_of_get? {site : CallSite} {id : SiteId} (h : sites.get? id = some site) :
    site.shape.id = id := by
  simpa using List.find?_some h

/-- The site of a shape is found, or new and the last one. -/
theorem site_cases (sites : Registry) (shape : SiteShape) :
    (sites.get? shape.id = some (sites.site shape).1 ∧ (sites.site shape).2 = sites) ∨
      (sites.get? shape.id = none ∧ (sites.site shape).1 = .new shape sites.capacity ∧
        (sites.site shape).2 = { sites with sites := sites.sites ++ [.new shape sites.capacity] }) := by
  unfold Registry.site
  split
  case h_1 found => exact .inl ⟨found, rfl⟩
  case h_2 absent => exact .inr ⟨absent, rfl, rfl⟩

theorem capacity_site (sites : Registry) (shape : SiteShape) :
    (sites.site shape).2.capacity = sites.capacity := by
  obtain ⟨-, same⟩ | ⟨-, -, new⟩ := sites.site_cases shape
  · rw [same]
  · rw [new]

/-- The site of a shape is there from its first use on. -/
theorem site_site (sites : Registry) (shape : SiteShape) :
    (sites.site shape).2.site shape = sites.site shape := by
  obtain ⟨found, same⟩ | ⟨absent, new, entered⟩ := sites.site_cases shape
  · rw [same]
  · have found : (sites.site shape).2.get? shape.id = some (sites.site shape).1 := by
      rw [entered, new]
      unfold get? at absent ⊢
      rw [List.find?_append, absent]
      simp
    unfold Registry.site at found ⊢
    rw [found]

theorem id_site (sites : Registry) (shape : SiteShape) :
    (sites.site shape).1.shape.id = shape.id := by
  obtain ⟨found, -⟩ | ⟨-, new, -⟩ := sites.site_cases shape
  · exact id_of_get? found
  · rw [new]
    rfl

/-- A new state of a site is found under its number, and nothing else changes. -/
theorem get?_update (sites : Registry) (served : CallSite) (id : SiteId) :
    (sites.update served).get? id =
      (sites.get? id).map fun old => if old.shape.id == served.shape.id then served else old := by
  unfold get? update
  rw [List.find?_map]
  congr 2
  funext old
  simp only [Function.comp_apply]
  split
  · next same => rw [eq_of_beq same]
  · rfl

namespace Serves

/-- The site of the shape has served calls, new or not. -/
theorem site (h : sites.Serves types shape) :
    (sites.site shape).1.shape = shape ∧ (sites.site shape).1.Reached types := by
  obtain ⟨found, -⟩ | ⟨-, new, -⟩ := sites.site_cases shape
  · exact h _ found
  · rw [new]
    exact ⟨rfl, .new _ _⟩

/-- No other site comes into being under the number of the shape. -/
theorem entered (h : sites.Serves types shape) (hother : other.id = shape.id → other = shape) :
    (sites.site other).2.Serves types shape := by
  intro site found
  obtain ⟨-, same⟩ | ⟨absent, -, new⟩ := sites.site_cases other
  · rw [same] at found
    exact h site found
  · rw [new] at found
    unfold get? at found
    rw [List.find?_append, Option.or_eq_some_iff] at found
    obtain found | ⟨-, found⟩ := found
    · exact h site found
    · obtain ⟨-, rfl⟩ : _ ∧ CallSite.new other sites.capacity = site := by
        simpa [List.find?_singleton] using found
      have := hother (by simpa using List.find?_some found)
      exact ⟨this, .new _ _⟩

/-- A site of the shape that has served calls may go on to another state. -/
theorem update (h : sites.Serves types shape) {served : CallSite}
    (hserved : served.shape.id = shape.id → served.shape = shape ∧ served.Reached types) :
    (sites.update served).Serves types shape := by
  intro site found
  rw [get?_update] at found
  obtain ⟨old, before, rfl⟩ := Option.map_eq_some_iff.mp found
  split
  · next same => exact hserved ((eq_of_beq same).symm.trans (id_of_get? before))
  · exact h old before

end Serves

/-- The first use of a site does not change the sites of other numbers. -/
theorem filter_site (sites : Registry) (shape : SiteShape) :
    (sites.site shape).2.sites.filter (·.shape.id != shape.id) =
      sites.sites.filter (·.shape.id != shape.id) := by
  obtain ⟨-, same⟩ | ⟨-, -, new⟩ := sites.site_cases shape
  · rw [same]
  · rw [new]
    simp

/-- A new state of a site does not change the sites of other numbers. -/
theorem filter_update (sites : Registry) (served : CallSite) (id : SiteId) :
    (sites.update served).sites.filter (·.shape.id != id) =
      (sites.sites.filter (·.shape.id != id)).map fun old =>
        if old.shape.id == served.shape.id then served else old := by
  unfold update
  rw [List.filter_map]
  congr 2
  funext old
  simp only [Function.comp_apply]
  split
  · next same => rw [eq_of_beq same]
  · rfl

theorem filter_update_self (sites : Registry) (served : CallSite) :
    (sites.update served).sites.filter (·.shape.id != served.shape.id) =
      sites.sites.filter (·.shape.id != served.shape.id) := by
  rw [filter_update]
  refine (List.map_congr_left fun old mem => ?_).trans (List.map_id _)
  rw [if_neg (by simpa using (List.mem_filter.mp mem).2), id]

namespace Beside

theorem symm (h : sites.Beside types shape others) : others.Beside types shape sites :=
  ⟨⟨h.capacity.symm, h.elsewhere.symm⟩, h.serves', h.serves⟩

/-- All other sites are found in the one as in the other. -/
theorem get? (h : sites.Beside types shape others) {id : SiteId} (hne : id ≠ shape.id) :
    others.get? id = sites.get? id := by
  have only (sites : Registry) :
      sites.get? id = (sites.sites.filter (·.shape.id != shape.id)).find? (·.shape.id == id) := by
    unfold Registry.get?
    rw [List.find?_filter]
    congr 1
    funext site
    by_cases same : site.shape.id = id
    · simp [same, hne]
    · simp [same]
  rw [only, only, h.elsewhere]

/-- The first use of the site of the shape. -/
theorem of_site (h : sites.Serves types shape) : sites.Beside types shape (sites.site shape).2 where
  capacity := capacity_site ..
  elsewhere := sites.filter_site shape
  serves := h
  serves' := h.entered fun _ => rfl

/-- A new state of the site of the shape. -/
theorem of_update (h : sites.Serves types shape) {served : CallSite} (same : served.shape = shape)
    (reached : served.Reached types) : sites.Beside types shape (sites.update served) where
  capacity := rfl
  elsewhere := same ▸ sites.filter_update_self served
  serves := h
  serves' := h.update fun _ => ⟨same, reached⟩

theorem trans {more : Registry} (h : sites.Beside types shape others)
    (h' : others.Beside types shape more) : sites.Beside types shape more :=
  ⟨⟨h'.capacity.trans h.capacity, h'.elsewhere.trans h.elsewhere⟩, h.serves, h'.serves'⟩

section Calls

variable (h : sites.Beside types shape others) (hother : other.id = shape.id → other = shape)
    {args : List Value} {receiver : Value}
include h hother

/-- A site of another number is the same in both, and the site of the shape has served calls. -/
theorem site_cases :
    (others.site other).1 = (sites.site other).1 ∨
      other = shape ∧ (sites.site other).1.shape = shape ∧ (others.site other).1.shape = shape ∧
        (sites.site other).1.Reached types ∧ (others.site other).1.Reached types := by
  by_cases same : other.id = shape.id
  · obtain rfl := hother same
    exact .inr ⟨rfl, h.serves.site.1, h.serves'.site.1, h.serves.site.2, h.serves'.site.2⟩
  · refine .inl ?_
    unfold Registry.site
    rw [h.get? same, h.capacity]
    cases sites.get? other.id <;> rfl

theorem shape_site : (others.site other).1.shape = (sites.site other).1.shape := by
  obtain same | ⟨-, shaped, shaped', -⟩ := h.site_cases hother
  · rw [same]
  · rw [shaped, shaped']

/-- Both make the same calls. -/
theorem prepared (named : shape.Names name) (typed : SiteCall.Typed types shape ⟨receiver, args⟩) :
    ((others.site other).1.prepare receiver args).1 =
      ((sites.site other).1.prepare receiver args).1 := by
  obtain same | ⟨-, shaped, shaped', reached, reached'⟩ := h.site_cases hother
  · rw [same]
  · exact reached.prepare_eq reached' (shaped'.trans shaped.symm) (shaped ▸ named)
      (shaped ▸ typed)

/-- The first use of a site keeps the difference where it is. -/
theorem entered : (sites.site other).2.Beside types shape (others.site other).2 where
  capacity := by
    rw [capacity_site, capacity_site]
    exact h.capacity
  elsewhere := by
    by_cases same : other.id = shape.id
    · obtain rfl := hother same
      rw [filter_site, filter_site]
      exact h.elsewhere
    · have found := h.get? same
      unfold Registry.site
      rw [found, h.capacity]
      cases sites.get? other.id with
      | some => exact h.elsewhere
      | none =>
        dsimp only
        rw [List.filter_append, List.filter_append, h.elsewhere]
  serves := h.serves.entered hother
  serves' := h.serves'.entered hother

/-- A call through a site keeps the difference where it is. -/
theorem served (typed : SiteCall.Typed types shape ⟨receiver, args⟩) :
    ((sites.site other).2.update ((sites.site other).1.prepare receiver args).2).Beside types shape
      ((others.site other).2.update ((others.site other).1.prepare receiver args).2) := by
  have entered := h.entered hother
  have kept (site : CallSite) (same : site.shape.id = other.id)
      (serving : site.shape.id = shape.id → site.shape = shape ∧ site.Reached types) :
      ((site.prepare receiver args).2.shape.id = other.id) ∧
        ((site.prepare receiver args).2.shape.id = shape.id →
          (site.prepare receiver args).2.shape = shape ∧
            (site.prepare receiver args).2.Reached types) := by
    have shaped : (site.prepare receiver args).2.shape = site.shape :=
      CallSite.shape_serve site ⟨receiver, args⟩
    rw [shaped]
    refine ⟨same, fun met => ?_⟩
    obtain ⟨rfl, reached⟩ := serving met
    exact ⟨rfl, reached.serve typed⟩
  have first := kept (sites.site other).1 (sites.id_site other) fun met => by
    obtain rfl := hother ((sites.id_site other).symm.trans met)
    exact h.serves.site
  have second := kept (others.site other).1 (others.id_site other) fun met => by
    obtain rfl := hother ((others.id_site other).symm.trans met)
    exact h.serves'.site
  refine ⟨⟨entered.capacity, ?_⟩, entered.serves.update first.2, entered.serves'.update second.2⟩
  obtain same | ⟨rfl, -⟩ := h.site_cases hother
  · rw [same, filter_update, filter_update, entered.elsewhere]
  · rw [← first.1, filter_update_self, first.1, ← second.1, filter_update_self, second.1]
    exact entered.elsewhere

end Calls

end Beside

end Registry

end StackScript
