import Mathlib.Logic.Function.Basic
import StackScript.Proofs.Machine.Apart
import StackScript.Proofs.Memory.Initialization

/-!
# Contexts that are served by turns

A host asks for things in several contexts of one program, in any order. Every context is as if it
were served alone, in a memory of its own: what the others do touches neither its objects nor its
functions and static fields, and what all contexts share does not tell what has happened.

## Main definitions

* `HostRequest`: what a host asks a context for
* `Image.serve`: requests in several contexts, one after the other
* `Image.Confinement.Keeps`: every context is as in a memory of its own

## Main results

* `Image.Confinement.Keeps.request`: a request leaves every context so
* `Image.Confinement.exists_serve`: the replies that a context gets are those that it gets alone
-/

namespace StackScript

/-! ## Requests of a host -/

/-- What a host asks a context for. -/
inductive HostRequest where
  /-- The call of a compiled function. -/
  | call (name : String) (args : List Value)
  /-- The declaration of the function of a body. -/
  | declare (name : String)

/-- What a host gets: the outcome, and all that the context has put out by then. -/
structure Reply where
  outcome : Except DispatchError Value
  output : String

/-- A request of a host, done. -/
def HostRequest.run (image : Image) (fuel : Nat) (context : ContextId) : HostRequest → Run Value
  | .call name args => image.call fuel context name args
  | .declare name => do
    image.declare context name
    return .null

/-- Requests in several contexts, one after the other, and the replies to them; none if a request
needs more fuel. -/
def Image.serve (image : Image) (fuel : Nat) :
    List (ContextId × HostRequest) → Memory → Option (List (ContextId × Reply) × Memory)
  | [], memory => some ([], memory)
  | (context, request) :: rest, memory => do
    let (outcome, memory) ← (request.run image fuel context).run memory
    let reply := ⟨outcome, (memory.context context).output⟩
    let (replies, memory) ← image.serve fuel rest memory
    return ((context, reply) :: replies, memory)

/-- The key of the body that a request names. -/
def HostRequest.key : HostRequest → String
  | .call name _ => (BodyName.function (.ofString name)).key
  | .declare name => Text.foldCase name

/-- There are no objects in what the host hands in. -/
def HostRequest.Bare : HostRequest → Prop
  | .call _ args => ∀ v ∈ args, v.Bare
  | .declare _ => True

/-- Replies with outcomes that mirror each other, and the same output. -/
structure Reply.Mirrors {Given : RuntimeType → Prop} (p : Pairing Given) (reply reply' : Reply) :
    Prop where
  outcome : ResultsMirror p (Value.Mirrors p) reply.outcome reply'.outcome
  output : reply.output = reply'.output

theorem Reply.Mirrors.mono {Given : RuntimeType → Prop} {p q : Pairing Given} {reply reply' : Reply}
    (h : reply.Mirrors p reply') (le : p ≤ q) : reply.Mirrors q reply' :=
  ⟨h.outcome.mono le fun _ _ value => value.mono le, h.output⟩

variable {image : Image} {c : image.Confinement} {id other : ContextId}
  {p q held : Pairing image.HasType} {memory memory' base after : Memory} {fuel fuel' : Nat}

namespace Image

/-- A function is declared alike in both memories. -/
theorem mirrors_declare {name : String}
    (within : ∀ body, image.body? (Text.foldCase name) = some body → c.bodies body) :
    RunsMirror (Memory.Alongside c id held base) p (fun _ _ _ => True) (image.declare id name)
      (image.declare id name) := by
  unfold declare
  dsimp only
  cases found : image.body? (Text.foldCase name) with
  | none => exact .failed _
  | some body =>
    refine .get fun memory memory' related => ?_
    have functions := related.tidy.functions id
    have declared := related.mirrors.context_mirrors.declare body.name.name
      (.compiled (Text.foldCase name) (body.params.map Parameter.formal))
    have own (entry) (context) (h : (memory.context id).declare body.name.name
        (.compiled (Text.foldCase name) (body.params.map Parameter.formal)) = .ok context)
        (mem : entry ∈ context.functions) : entry.2.Within image c.bodies := by
      unfold Context.declare at h
      split at h <;> cases h
      obtain mem | mem := List.mem_append.mp mem
      · exact functions entry mem
      · obtain rfl := List.mem_singleton.mp mem
        exact within
    generalize (memory.context id).declare body.name.name _ = x at declared own ⊢
    generalize (memory'.context id).declare body.name.name _ = y at declared ⊢
    cases declared with
    | error errors => exact RunsMirror.throw errors memory memory' related
    | ok contexts =>
      rintro outcome after ⟨⟩
      exact ⟨p, _, _, p.le_refl, rfl, .ok trivial,
        related.setContext contexts fun entry mem => own entry _ rfl mem⟩

/-- **A request of the host** that names a body that is given comes to the same in both memories. -/
theorem mirrors_hostRequest
    (h : RunnersMirror c id (Memory.Alongside c id held base) (image.run fuel) (image.run fuel'))
    {request : HostRequest} (bare : request.Bare)
    (within : ∀ body, image.body? request.key = some body → c.bodies body) :
    RunsMirror (Memory.Alongside c id held base) p Value.Mirrors (request.run image fuel id)
      (request.run image fuel' id) := by
  cases request with
  | call name args =>
    refine mirrors_bodyOf within fun body given =>
      mirrors_ofBody h given .none (.cons .context (mirrors_layArgs _ ?_))
    exact List.forall₂_same.mpr fun v mem => (bare v mem).mirrors p
  | declare name => exact (mirrors_declare within).bind fun _ _ _ _ _ => .pure .null

end Image

/-! ## Contexts by turns -/

namespace Image.Confinement

variable {solo : ContextId → Memory} {pairing : ContextId → Pairing image.HasType}

/-- **Every context is as in a memory of its own**, and no object belongs to two contexts. -/
structure Keeps (c : image.Confinement) (memory : Memory) (solo : ContextId → Memory)
    (pairing : ContextId → Pairing image.HasType) : Prop where
  tidy : memory.Tidy c
  own : ∀ id, (solo id).Tidy c
  mirrors : ∀ id, memory.Mirrors (pairing id) id (solo id)
  apart : ∀ id other, id ≠ other → ∀ a b a' b', (pairing id).pairs a b →
    (pairing other).pairs a' b' → a.id ≠ a'.id

/-- Contexts are as in a memory of their own at the start. -/
theorem keeps_withContexts (c : image.Confinement) (cacheSize contexts : Nat) :
    c.Keeps (.withContexts cacheSize contexts) (fun _ => .withContexts cacheSize contexts)
      fun _ => .none := by
  have tidy : (Memory.withContexts cacheSize contexts).Tidy c :=
    { shared := Image.settled_empty
      sites := fun site mem => by cases mem
      natives := rfl
      functions := fun id entry mem => by
        rw [Memory.context_withContexts] at mem
        cases mem }
  refine ⟨tidy, fun _ => tidy, fun id => ⟨nofun, nofun, ?_⟩, nofun⟩
  cases found : (Memory.withContexts cacheSize contexts).contexts[id]? with
  | none => exact .none
  | some context =>
    have same := Memory.context_withContexts cacheSize contexts id
    rw [Memory.context, found] at same
    obtain rfl : context = .new := same
    exact .some .new

/-- What a request in one context leaves alone, another context has as before. -/
theorem Keeps.mirrors_of_spares (h : c.Keeps memory solo pairing) (unlike : other ≠ id)
    (spares : after.Spares (pairing id) q id memory) :
    after.Mirrors (pairing other) other (solo other) where
  bound a b pair := by
    obtain ⟨bound, bound'⟩ := (h.mirrors other).bound a b pair
    exact ⟨Nat.lt_of_lt_of_le bound spares.size, bound'⟩
  fields a b pair := by
    have same : after.fieldsOf a = memory.fieldsOf a := by
      simp only [Memory.fieldsOf, spares.objects a.id ((h.mirrors other).bound a b pair).1
        fun a' b' pair' => h.apart id other unlike.symm a' b' a b pair' pair]
    exact same ▸ (h.mirrors other).fields a b pair
  context := spares.contexts other unlike ▸ (h.mirrors other).context

/-- **A request leaves every context** as in a memory of its own. -/
theorem Keeps.request (h : c.Keeps memory solo pairing) {memory' : Memory}
    (le : pairing id ≤ q) (alongside : Memory.Alongside c id (pairing id) memory q after memory') :
    c.Keeps after (Function.update solo id memory') (Function.update pairing id q) where
  tidy := alongside.tidy
  own other := by
    by_cases same : other = id
    · subst same
      rw [Function.update_self]
      exact alongside.tidy'
    · rw [Function.update_of_ne same]
      exact h.own other
  mirrors other := by
    by_cases same : other = id
    · subst same
      rw [Function.update_self, Function.update_self]
      exact alongside.mirrors
    · rw [Function.update_of_ne same, Function.update_of_ne same]
      exact h.mirrors_of_spares same alongside.spares
  apart first second unlike a b a' b' := by
    -- A pair of another context is older than a pair that the request has added.
    have older (other) (unlike : other ≠ id) (a b a' b') (pair : q.pairs a b)
        (pair' : (pairing other).pairs a' b') : a.id ≠ a'.id := by
      obtain pair | new := alongside.spares.fresh a b pair
      · exact h.apart id other unlike.symm a b a' b' pair pair'
      · exact Nat.ne_of_gt (Nat.lt_of_lt_of_le ((h.mirrors other).bound a' b' pair').1 new)
    intro pair pair'
    by_cases same : first = id
    · subst same
      rw [Function.update_self] at pair
      rw [Function.update_of_ne unlike.symm] at pair'
      exact older second unlike.symm a b a' b' pair pair'
    · rw [Function.update_of_ne same] at pair
      by_cases same' : second = id
      · subst same'
        rw [Function.update_self] at pair'
        exact (older first same a' b' a b pair' pair).symm
      · rw [Function.update_of_ne same'] at pair'
        exact h.apart first second unlike a b a' b' pair pair'

theorem Keeps.alongside (h : c.Keeps memory solo pairing) (id : ContextId) :
    Memory.Alongside c id (pairing id) memory (pairing id) memory (solo id) :=
  ⟨h.tidy, h.own id, h.mirrors id, fun _ _ => rfl, Nat.le_refl _, fun _ _ _ => rfl,
    fun _ _ pair => .inl pair⟩

/-- **A context gets the replies that it gets alone**, whatever the host asks of other contexts in
between. -/
theorem exists_serve {enough : Nat} (settles : ∀ n key settled, image.settle n key = some settled →
      image.settle enough key = some settled)
    {visits : List (ContextId × HostRequest)} {replies : List (ContextId × Reply)}
    (h : c.Keeps memory solo pairing) (bare : ∀ visit ∈ visits, visit.2.Bare)
    (within : ∀ visit ∈ visits, ∀ body, image.body? visit.2.key = some body → c.bodies body)
    (served : image.serve fuel visits memory = some (replies, after)) (id : ContextId) :
    ∃ q replies' after', pairing id ≤ q ∧
      image.serve (fuel + enough) (visits.filter (·.1 == id)) (solo id) =
        some (replies', after') ∧
      List.Forall₂ (fun x y => x.1 = y.1 ∧ x.2.Mirrors q y.2) (replies.filter (·.1 == id))
        replies' := by
  induction visits generalizing memory solo pairing replies with
  | nil =>
    cases served
    exact ⟨pairing id, [], solo id, Pairing.le_refl _, rfl, .nil⟩
  | cons visit rest ih =>
    obtain ⟨context, request⟩ := visit
    obtain ⟨bare, bare_rest⟩ := List.forall_mem_cons.mp bare
    obtain ⟨within, within_rest⟩ := List.forall_mem_cons.mp within
    obtain ⟨⟨outcome, between⟩, ends, served⟩ := Option.bind_eq_some_iff.mp served
    obtain ⟨⟨later, _⟩, served, same⟩ := Option.bind_eq_some_iff.mp served
    cases same
    obtain ⟨q, outcome', between', le, ends', outcomes, alongside⟩ :=
      mirrors_hostRequest (mirrors_run settles fuel) bare within memory (solo context)
        (h.alongside context) outcome between ends
    obtain ⟨r, replies', after', le', served', mirrored⟩ :=
      ih (h.request le alongside) bare_rest within_rest served
    -- The visits of the context are made again in its own memory; the visits of others leave that
    -- memory as it is.
    by_cases same : context = id
    · subst same
      rw [Function.update_self] at le' served'
      refine ⟨r, (context, ⟨outcome', (between'.context context).output⟩) :: replies', after',
        Pairing.le_trans le le', ?_, ?_⟩
      · simp only [List.filter_cons, beq_self_eq_true, if_true]
        exact Option.bind_eq_some_iff.mpr ⟨_, ends', Option.bind_eq_some_iff.mpr ⟨_, served', rfl⟩⟩
      · simp only [List.filter_cons, beq_self_eq_true, if_true]
        have reply : Reply.Mirrors q ⟨outcome, (between.context context).output⟩
            ⟨outcome', (between'.context context).output⟩ :=
          ⟨outcomes, alongside.mirrors.context_mirrors.output⟩
        exact .cons ⟨rfl, reply.mono le'⟩ mirrored
    · rw [Function.update_of_ne (Ne.symm same)] at le' served'
      have other : ¬ (context == id) = true := by simpa using same
      refine ⟨r, replies', after', le', ?_, ?_⟩
      · rwa [List.filter_cons, if_neg other]
      · rwa [List.filter_cons, if_neg other]

end Image.Confinement

end StackScript
