import StackScript.Proofs.Machine.Initializers
import StackScript.Proofs.Machine.Transparency
import StackScript.Proofs.Memory.Mirrors

/-!
# Routines that leave shared fields to their initializers

Contexts of one program have its types, its call sites and its shared static fields in common. Let
the routines of a program be such that none of them stores to a shared static field, or runs an
initializer of such fields but by accessing them. Then what contexts have in common is as if each of
them had it for itself: shared fields are settled, and call sites answer as new ones do.

## Main definitions

* `Image.Confinement`: the routines of a program that keep away from what contexts share
* `Memory.Tidy`: what is shared is as such routines leave it

## Main results

* `Registry.Tidy.site`, `Registry.Tidy.update`: call sites stay in order
-/

namespace StackScript

/-- The image has objects of the type. -/
def Image.HasType (image : Image) (type : RuntimeType) : Prop :=
  ∃ name, image.type? name = some type

/-- Code with this instruction keeps away from what contexts share, in a program whose routines are
such bodies and whose call sites have such shapes: what it calls is one of these bodies, and shared
fields that it reads have initializers that store to them and do nothing else. -/
def Instruction.Confined (image : Image) (bodies : Body → Prop) (shapes : SiteShape → Prop) :
    Instruction → Prop
  | .loadShared type _ => type.key = nameKey type.text ∧ image.InitializesQuietly type.text
  | .storeShared .. => False
  | .loadBound type _ | .storeBound type _ => ∀ body,
    image.body? (BodyName.method type BodyName.staticsInitializerName).key = some body → bodies body
  | .call name .. => ∀ body, image.body? name.key = some body → bodies body
  | .newObject type _ => ∀ body,
    image.body? (BodyName.constructor type).key = some body → bodies body
  | .callSite shape => shapes shape
  | _ => True

/-- The body of the routine, if it has one, is one of those given. -/
def RoutineRef.Within (image : Image) (bodies : Body → Prop) : RoutineRef → Prop
  | .compiled key _ => ∀ body, image.body? key = some body → bodies body
  | .native _ => True

/-- **Routines that leave shared fields to their initializers**: bodies that call one another, the
shapes of their call sites, and the types of objects, by their numbers. -/
structure Image.Confinement (image : Image) where
  bodies : Body → Prop
  shapes : SiteShape → Prop
  types : TypeId → RuntimeType
  code : ∀ body, bodies body → ∀ i ∈ body.code, i.Confined image bodies shapes
  methods : ∀ type, image.HasType type → ∀ level ∈ type.levels, ∀ method ∈ level.methods,
    method.routine.Within image bodies
  /-- Call sites have numbers of their own. -/
  distinct : ∀ shape, shapes shape → ∀ other, shapes other → shape.id = other.id → shape = other
  known : image.Known types

variable {image : Image} {c : image.Confinement}

theorem Image.Confinement.typed (c : image.Confinement) {type : RuntimeType}
    (h : image.HasType type) : c.types type.id = type := by
  obtain ⟨name, found⟩ := h
  exact c.known name type found

/-! ## Memories in order -/

/-- The sites have shapes that are given, and have served calls on objects of known types. -/
def Registry.Tidy (c : image.Confinement) (sites : Registry) : Prop :=
  ∀ site ∈ sites.sites, site.Reached c.types ∧ c.shapes site.shape

namespace Registry.Tidy

variable {sites : Registry} {shape : SiteShape}

/-- The site of a shape that is given is of that shape. -/
theorem site (h : sites.Tidy c) (given : c.shapes shape) :
    (sites.site shape).1.shape = shape ∧ (sites.site shape).1.Reached c.types ∧
      (sites.site shape).2.Tidy c := by
  obtain ⟨found, same⟩ | ⟨-, new, entered⟩ := sites.site_cases shape
  · obtain ⟨reached, own⟩ := h _ (List.mem_of_find?_eq_some found)
    exact ⟨c.distinct _ own _ given (id_of_get? found), reached, by rwa [same]⟩
  · rw [new, entered]
    refine ⟨rfl, .new _ _, fun other mem => ?_⟩
    obtain mem | mem := List.mem_append.mp mem
    · exact h other mem
    · obtain rfl := List.mem_singleton.mp mem
      exact ⟨.new _ _, given⟩

theorem update (h : sites.Tidy c) {served : CallSite} (reached : served.Reached c.types)
    (given : c.shapes served.shape) : (sites.update served).Tidy c := by
  intro other mem
  obtain ⟨old, before, rfl⟩ := List.mem_map.mp mem
  split
  · exact ⟨reached, given⟩
  · exact h old before

end Registry.Tidy

/-- **What contexts share is in order**: shared fields are settled, call sites have served calls on
objects of known types, and functions that were declared have the bodies that are given. -/
structure Memory.Tidy (c : image.Confinement) (memory : Memory) : Prop where
  shared : memory.shared.Settled image
  sites : memory.sites.Tidy c
  natives : memory.natives = #[]
  functions : ∀ id, ∀ entry ∈ (memory.context id).functions, entry.2.Within image c.bodies

namespace Memory.Tidy

variable {memory : Memory} {id : ContextId}

theorem withShared (h : memory.Tidy c) {shared : SharedStatics} (settled : shared.Settled image) :
    (memory.withShared shared).Tidy c := { h with shared := settled }

theorem withSites (h : memory.Tidy c) {sites : Registry} (tidy : sites.Tidy c) :
    Memory.Tidy c { memory with sites } := { h with sites := tidy }

theorem create (h : memory.Tidy c) (type : RuntimeType) : (memory.create type).2.Tidy c := { h with }

theorem setField (h : memory.Tidy c) (object : ObjectRef) (field : String) (value : Value) :
    (memory.setField object field value).Tidy c := { h with }

theorem setContext (h : memory.Tidy c) {context : Context}
    (functions : ∀ entry ∈ context.functions, entry.2.Within image c.bodies) :
    (memory.setContext id context).Tidy c where
  __ := h
  functions other entry mem := by
    rw [Memory.context, Memory.setContext, Array.getElem?_setIfInBounds] at mem
    split at mem
    · split at mem
      · exact functions entry mem
      · cases mem
    · exact h.functions other entry mem

end Memory.Tidy

end StackScript
