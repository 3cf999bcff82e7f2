import Nimburion.Lib.GoSlice
import Nimburion.Lib.GoText

namespace Nimburion.HTTP.Router
open GoSlice GoText

section Matching

-- a later parameter of the same name hides an earlier one
def matchParts (params : List (String × String)) :
    List String → List String → Option (List (String × String))
  | [],[] => some params
  | part :: parts,value :: values =>
      if part.toList.head? = some ':' then
        matchParts ((String.ofList (part.toList.drop 1),value) :: params) parts values
      else if part ≠ value then none
      else matchParts params parts values
  | _,_ => none

def matchRoute (pattern path : String) : Option (List (String × String)) :=
  matchParts [] (split (trim pattern '/') '/') (split (trim path '/') '/')

end Matching

inductive Handler (H : Type) where
  | given (h : H)
  | options
  deriving DecidableEq, Repr

structure Route (H : Type) where
  method : String
  pattern : String
  handler : Handler H
  middleware : Slice

-- what one *Router holds of its own
structure Group where
  pathPrefix : String
  middleware : Slice

structure State (M H : Type) where
  heap : Heap M
  groups : List Group
  routes : List (Route H)
  optionsRegistered : List String

-- the route as it is served: with the middleware its slice shows
structure Entry (M H : Type) where
  method : String
  pattern : String
  handler : Handler H
  chain : List M
  deriving DecidableEq, Repr

-- groups are numbered in the order they are made, the router itself is 0
inductive Call (M H : Type) where
  | use (group : ℕ) (middleware : List M)
  | group (parent : ℕ) (pathPrefix : String) (middleware : List M)
  | route (group : ℕ) (method path : String) (handler : H) (middleware : List M)

variable {M H : Type}

-- a slice without an array: its array has no capacity
def nilSlice : Slice := ⟨0,0⟩

def newRouter : State M H := ⟨[⟨0,[]⟩],[⟨"",nilSlice⟩],[],[]⟩

section Operations

variable (g : Growth)

def group (s : State M H) (r : Group) (pathPrefix : String) (middleware : List M) : State M H :=
  let (heap,slice) := s.heap.append g r.middleware middleware
  { s with heap, groups := s.groups ++ [⟨r.pathPrefix ++ pathPrefix,slice⟩] }

def use (s : State M H) (i : ℕ) (r : Group) (middleware : List M) : State M H :=
  let (heap,slice) := s.heap.append g r.middleware middleware
  { s with heap, groups := s.groups.set i { r with middleware := slice } }

def ensureOptionsRouteLocked (s : State M H) (path : String) (middleware : Slice) : State M H :=
  if path ∈ s.optionsRegistered then s
  else { s with
    routes := s.routes ++ [⟨"OPTIONS",path,.options,middleware⟩]
    optionsRegistered := path :: s.optionsRegistered }

def addRoute (s : State M H) (r : Group) (method path : String) (handler : H)
    (middleware : List M) : State M H :=
  let fullPath := r.pathPrefix ++ path
  let (heap,baseMiddleware) := s.heap.append g nilSlice (s.heap.read r.middleware)
  let (heap,allMiddleware) := heap.append g nilSlice (heap.read baseMiddleware)
  let (heap,allMiddleware) := heap.append g allMiddleware middleware
  ensureOptionsRouteLocked
    { s with heap, routes := s.routes ++ [⟨method,fullPath,.given handler,allMiddleware⟩] }
    fullPath baseMiddleware

def step (s : State M H) : Call M H → State M H
  | .use i middleware => match s.groups[i]? with
      | some r => use g s i r middleware
      | none => s
  | .group i pathPrefix middleware => match s.groups[i]? with
      | some r => group g s r pathPrefix middleware
      | none => s
  | .route i method path handler middleware => match s.groups[i]? with
      | some r => addRoute g s r method path handler middleware
      | none => s

def run (s : State M H) (calls : List (Call M H)) : State M H := calls.foldl (step g) s

end Operations

def entries (s : State M H) : List (Entry M H) :=
  s.routes.map fun rt => ⟨rt.method,rt.pattern,rt.handler,s.heap.read rt.middleware⟩

def find (es : List (Entry M H)) (method path : String) :
    Option (Entry M H × List (String × String)) :=
  es.findSome? fun e => (matchRoute e.pattern path).bind fun params =>
    if e.method ≠ method then none else some (e,params)

-- the handler ServeHTTP runs, each middleware around the ones after it
def wrap {F : Type} (apply : M → F → F) (handler : F) (chain : List M) : F :=
  chain.foldr apply handler

def serveHTTP {F : Type} (apply : M → F → F) (handlers : Handler H → F) (es : List (Entry M H))
    (method path : String) : Option (F × List (String × String)) :=
  (find es method path).map fun p => (wrap apply (handlers p.1.handler) p.1.chain,p.2)

section Plan

-- what each group is to run, kept by value
structure Owner (M : Type) where
  pathPrefix : String
  inherited : List M
  given : List M
  used : List M

def Owner.chain (o : Owner M) : List M := o.inherited ++ o.given ++ o.used

structure Plan (M H : Type) where
  owners : List (Owner M)
  routes : List (Entry M H)
  optionsRegistered : List String

def newPlan : Plan M H := ⟨[⟨"",[],[],[]⟩],[],[]⟩

def Plan.addOptions (p : Plan M H) (path : String) (chain : List M) : Plan M H :=
  if path ∈ p.optionsRegistered then p
  else { p with
    routes := p.routes ++ [⟨"OPTIONS",path,.options,chain⟩]
    optionsRegistered := path :: p.optionsRegistered }

def Plan.step (p : Plan M H) : Call M H → Plan M H
  | .use i middleware => match p.owners[i]? with
      | some o => { p with owners := p.owners.set i { o with used := o.used ++ middleware } }
      | none => p
  | .group i pathPrefix middleware => match p.owners[i]? with
      | some o => { p with owners := p.owners ++ [⟨o.pathPrefix ++ pathPrefix,o.chain,middleware,[]⟩] }
      | none => p
  | .route i method path handler middleware => match p.owners[i]? with
      | some o => Plan.addOptions
          { p with routes := p.routes ++
            [⟨method,o.pathPrefix ++ path,.given handler,o.chain ++ middleware⟩] }
          (o.pathPrefix ++ path) o.chain
      | none => p

def Plan.run (p : Plan M H) (calls : List (Call M H)) : Plan M H := calls.foldl Plan.step p

end Plan

end Nimburion.HTTP.Router
