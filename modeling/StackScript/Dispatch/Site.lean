import StackScript.Dispatch.Error

/-!
# Call sites and their caches

A name and a number of arguments are resolved against the receiver's type. The result tells where
each formal parameter gets its value, and serves every later call with the same type, name and
number of arguments. A call site keeps what it resolved. Its slots are filled one by one, each once;
when they are used up, one more entry holds what was resolved last. Failures are kept like bindings.

## Main definitions

* `Binding`: a method and the source of each of its parameters
* `resolve`: the binding for a type, a name and a number of arguments
* `Binding.convert`: the values that the method receives
* `Guard`: what an entry of the cache is good for
* `SiteShape.selectName`, `SiteShape.receiverOf`, `SiteShape.guardOf`: what a call looks up
* `CallSite`: a call site and its cache
* `CallSite.flatten`: the arguments behind unpacked arrays
* `CallSite.prepare`: the call that the site makes for a receiver and arguments
* `Registry`: the call sites of a program, which all its contexts share
-/

namespace StackScript

/-! ## Binding a method to a call -/

/-- Where a formal parameter gets its value. -/
inductive ArgSource where
  | context
  /-- The supplied argument of that number, in that representation. -/
  | supplied (index : Nat) (representation : Representation)
  deriving Repr, DecidableEq

/-- A method that is bound to calls with a known number of arguments. -/
structure Binding where
  method : Method
  plan : List ArgSource
  deriving Repr, DecidableEq

/-- A source for each formal parameter, the supplied arguments used in order; none if there are
too few. -/
def planFrom? (argc next : Nat) : List Formal → Option (List ArgSource)
  | [] => some []
  | formal :: rest =>
    match formal.kind with
    | .context => (planFrom? argc next rest).map (.context :: ·)
    | .supplied representation =>
      if next < argc then
        (planFrom? argc (next + 1) rest).map (.supplied next representation :: ·)
      else none

/-- The binding of the method that the nearest type declares under a name. -/
def resolve (type : RuntimeType) (name : String) (argc : Nat) : Except DispatchError Binding :=
  match type.findMethod? name with
  | none => .error (.undefinedMethod type.name name)
  | some method =>
    match planFrom? argc 0 method.formals with
    | some plan => .ok ⟨method, plan⟩
    | none =>
      .error (.tooFewArguments (method.declaringType ++ "::" ++ method.name) argc
        method.suppliedCount)

namespace Binding

/-- The converted arguments that a plan takes from the supplied ones. The context is not among
them. -/
def convertFrom (method : String) (supplied : List Value) (position : Nat) :
    List ArgSource → Except DispatchError (List Value)
  | [] => .ok []
  | .context :: rest => convertFrom method supplied (position + 1) rest
  | .supplied index representation :: rest => do
    match supplied[index]? with
    | none => .error (.ofFault (.noSuchArgument index))
    | some value =>
      match value.convert? representation with
      | none => .error (.badArgument method position representation value.kind)
      | some converted =>
        return converted :: (← convertFrom method supplied (position + 1) rest)

/-- The values that the method receives for the supplied arguments. -/
def convert (binding : Binding) (supplied : List Value) : Except DispatchError (List Value) :=
  convertFrom binding.method.name supplied 1 binding.plan

end Binding

/-! ## Sites -/

/-- What an entry of a cache is good for. -/
structure Guard where
  type : TypeId
  /-- The name in lower case, at sites whose name is computed. -/
  name : Option String
  argc : Nat
  deriving Repr, DecidableEq

/-- A resolution that is kept. -/
structure CacheEntry where
  guard : Guard
  outcome : Except DispatchError Binding

/-- A call site and its cache. -/
structure CallSite where
  shape : SiteShape
  /-- The slots. What a slot was filled with, it keeps. -/
  cells : Array (Option CacheEntry)
  /-- The number of slots that are published, from the first on. -/
  published : Nat
  /-- The slots were used up. -/
  isMegamorphic : Bool
  /-- What was resolved last since the slots were used up. -/
  recent : Option CacheEntry
  /-- How often a method was looked up. -/
  resolutions : Nat

/-- A call that is ready to be made. -/
structure Invocation where
  method : Method
  receiver : ObjectRef
  /-- The converted arguments, without the context. -/
  args : List Value

namespace SiteShape

/-- The name of the called method, and the arguments that it receives. -/
def selectName (shape : SiteShape) (args : List Value) :
    Except DispatchError (String × List Value) :=
  match shape.selector with
  | .direct name => .ok (name, args)
  | .magic method => .ok (method.methodName, args)
  | .computed =>
    match args with
    | .string name :: rest => .ok (name, rest)
    | other :: _ => .error (.badMethodName other.kind)
    | [] => .error (.badMethodName .null)

/-- The object that a call is made on. -/
def receiverOf (shape : SiteShape) (receiver : Value) : Except DispatchError ObjectRef :=
  match receiver with
  | .object ref => .ok ref
  | .null => .error (.nullReceiver shape.id shape.displayName)
  | other => .error (.undefinedMethod other.kind.word shape.displayName)

/-- The guard of a call. -/
def guardOf (shape : SiteShape) (type : RuntimeType) (name : String) (argc : Nat) : Guard where
  type := type.id
  name := if shape.selector = .computed then some (Text.foldCase name) else none
  argc := argc

end SiteShape

namespace CallSite

/-- A site that was not used yet, with a number of slots. -/
def new (shape : SiteShape) (capacity : Nat) : CallSite where
  shape := shape
  cells := Array.replicate capacity none
  published := 0
  isMegamorphic := false
  recent := none
  resolutions := 0

/-- The values of the arguments, for each shape one. -/
def spread : List Value → List ArgShape → Except DispatchError (List Value)
  | value :: values, .value :: shapes => return value :: (← spread values shapes)
  | value :: values, .unpacked :: shapes =>
    match value.entries? with
    | none => .error (.failed (.notUnpackable value.kind))
    | some entries => return entries.map (·.2) ++ (← spread values shapes)
  | _, _ => .ok []

/-- The arguments with unpacked arrays replaced by their values. -/
def flatten (site : CallSite) (pushed : List Value) : Except DispatchError (List Value) :=
  if site.shape.args.contains .unpacked then spread pushed site.shape.args else .ok pushed

/-- What the published slots keep. -/
def slots (site : CallSite) : List CacheEntry :=
  (site.cells.toList.take site.published).filterMap id

/-- What the cache keeps for a guard. -/
def lookup? (site : CallSite) (guard : Guard) : Option (Except DispatchError Binding) :=
  match site.slots.find? (·.guard == guard) with
  | some entry => some entry.outcome
  | none =>
    if site.isMegamorphic then (site.recent.filter (·.guard == guard)).map (·.outcome) else none

/-- The cache with one more resolution. It goes to the next slot, and behind the last one it
replaces what was resolved before. -/
def remember (site : CallSite) (entry : CacheEntry) : CallSite :=
  match site.cells[site.published]? with
  | some none =>
    { site with
      cells := site.cells.setIfInBounds site.published (some entry)
      published := site.published + 1
      resolutions := site.resolutions + 1 }
  | some (some _) => { site with resolutions := site.resolutions + 1 }
  | none =>
    { site with
      recent := some entry
      isMegamorphic := true
      resolutions := site.resolutions + 1 }

/-- The binding for a guard, from the cache or else resolved and kept. -/
def bind (site : CallSite) (type : RuntimeType) (name : String) (argc : Nat) :
    Except DispatchError Binding × CallSite :=
  let guard := site.shape.guardOf type name argc
  match site.lookup? guard with
  | some outcome => (outcome, site)
  | none =>
    let outcome := resolve type name argc
    (outcome, site.remember ⟨guard, outcome⟩)

/-- The call that the site makes for a receiver and arguments, and the cache behind it. -/
def prepare (site : CallSite) (receiver : Value) (args : List Value) :
    Except DispatchError Invocation × CallSite :=
  match site.shape.receiverOf receiver with
  | .error error => (.error error, site)
  | .ok object =>
    match site.shape.selectName args with
    | .error error => (.error error, site)
    | .ok (name, supplied) =>
      -- The cache changes even if an argument cannot be converted afterwards.
      let (bound, site) := site.bind object.type name supplied.length
      (do
        let binding ← bound
        return ⟨binding.method, object, ← binding.convert supplied⟩, site)

def describe (site : CallSite) : String :=
  (Outline.record "CallSite" [
    ("descriptor", site.shape.outline),
    ("cached_bindings", .nat site.published),
    ("megamorphic", .bool site.isMegamorphic),
    ("resolutions", .nat site.resolutions)]).describe

end CallSite

/-! ## The call sites of a program -/

/-- The call sites that were reached, in the order of their first use. -/
structure Registry where
  /-- The number of cache slots of each site. -/
  capacity : Nat
  sites : List CallSite

namespace Registry

/-- No sites yet. -/
def new (capacity : Nat) : Registry := ⟨capacity, []⟩

/-- The site of a number. -/
def get? (registry : Registry) (id : SiteId) : Option CallSite :=
  registry.sites.find? (·.shape.id == id)

/-- The site of a shape. The first shape with a number stays. -/
def site (registry : Registry) (shape : SiteShape) : CallSite × Registry :=
  match registry.get? shape.id with
  | some site => (site, registry)
  | none =>
    let site := CallSite.new shape registry.capacity
    (site, { registry with sites := registry.sites ++ [site] })

/-- The registry with a site's new state. -/
def update (registry : Registry) (site : CallSite) : Registry :=
  { registry with
    sites := registry.sites.map fun old => if old.shape.id == site.shape.id then site else old }

def size (registry : Registry) : Nat := registry.sites.length

/-- The number of look-ups over all sites. -/
def resolutions (registry : Registry) : Nat :=
  (registry.sites.map (·.resolutions)).foldr (· + ·) 0

end Registry

end StackScript
