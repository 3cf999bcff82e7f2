import Nimburion.HTTP.RouterChains

namespace Nimburion.HTTP.Router
open GoSlice GoText

section Adapters

-- what the gin and the gorilla adapter make of the paths of a group
structure Adapter (B : Type) where
  root : B
  child : B → String → B
  fullPath : B → String → String
  optionsKey : B → String → String

-- joinPaths is gin's: the base path of a group and the full path of a route
def gin (joinPaths : String → String → String) : Adapter (Option String) where
  root := none
  child base pre := some (joinPaths (base.getD "/") pre)
  fullPath base path := joinPaths (base.getD "/") path
  optionsKey base path := match base with
    | none => path
    | some base => base ++ path

def toMuxPath (path : String) : String :=
  "/".intercalate ((split path '/').map fun p =>
    if p.toList.head? = some ':' then "\x7b" ++ String.ofList (p.toList.drop 1) ++ "\x7d" else p)

-- template is mux's: the path template of a route below the prefix of its subrouter
def gorilla (template : String → String → String) : Adapter String where
  root := ""
  child base pre := template base pre
  fullPath base path := template base (toMuxPath path)
  optionsKey _ path := toMuxPath path

structure Branch (B M : Type) where
  base : B
  middleware : List M

inductive Served (M H : Type) where
  | given (handler : H) (chain : List M)
  | options
  deriving DecidableEq, Repr

-- a route as it was handed to gin or mux, with the group that did so
structure Registered (M H : Type) where
  method : String
  path : String
  owner : ℕ
  served : Served M H
  deriving DecidableEq, Repr

structure Table (B M H : Type) where
  groups : List (Branch B M)
  routes : List (Registered M H)
  optionsRegistered : List String

variable {B M H : Type} (A : Adapter B)

def newTable : Table B M H := ⟨[⟨A.root,[]⟩],[],[]⟩

def Table.ensureOptionsRoute (s : Table B M H) (i : ℕ) (r : Branch B M) (path : String) :
    Table B M H :=
  if A.optionsKey r.base path ∈ s.optionsRegistered then s
  else { s with
    routes := s.routes ++ [⟨"OPTIONS",A.fullPath r.base path,i,.options⟩]
    optionsRegistered := A.optionsKey r.base path :: s.optionsRegistered }

def Table.handle (s : Table B M H) (i : ℕ) (r : Branch B M) (method path : String) (handler : H)
    (routeMiddleware : List M) : Table B M H :=
  Table.ensureOptionsRoute A
    { s with routes := s.routes ++
      [⟨method,A.fullPath r.base path,i,.given handler (r.middleware ++ routeMiddleware)⟩] }
    i r path

def Table.step (s : Table B M H) : Call M H → Table B M H
  | .use i middleware => match s.groups[i]? with
      | some r => { s with groups := s.groups.set i { r with middleware := r.middleware ++ middleware } }
      | none => s
  | .group i pathPrefix middleware => match s.groups[i]? with
      | some r => { s with groups := s.groups ++
          [⟨A.child r.base pathPrefix,r.middleware ++ middleware⟩] }
      | none => s
  | .route i method path handler middleware => match s.groups[i]? with
      | some r => s.handle A i r method path handler middleware
      | none => s

def Table.run (s : Table B M H) (calls : List (Call M H)) : Table B M H :=
  calls.foldl (Table.step A) s

def Registered.IsOptions (route : Registered M H) : Prop :=
  route.method = "OPTIONS" ∧ route.served = .options

def Registered.IsGiven (route : Registered M H) : Prop :=
  ∃ handler chain, route.served = .given handler chain

-- the handler of an OPTIONS route reads its group's middleware when it is called
def Table.optionsChain (s : Table B M H) (route : Registered M H) : Option (List M) :=
  (s.groups[route.owner]?).map Branch.middleware

end Adapters

section Properties

variable {B M H : Type}

-- every route has an OPTIONS route at its path, run with the middleware of a group with a route there
def Table.Answers (s : Table B M H) : Prop :=
  (∀ route ∈ s.routes,route.IsGiven → ∃ options ∈ s.routes,options.IsOptions ∧
      options.path = route.path) ∧
    ∀ options ∈ s.routes,options.IsOptions → (s.optionsChain options).isSome ∧
      ∃ route ∈ s.routes,route.IsGiven ∧ route.owner = options.owner ∧ route.path = options.path

variable (A : Adapter B)

-- the bases of the groups and the registrations that a program makes
def basesAfter (bases : List B) : Call M H → List B
  | .group i pathPrefix _ => match bases[i]? with
      | some base => bases ++ [A.child base pathPrefix]
      | none => bases
  | _ => bases

def registration (bases : List B) : Call M H → List (B × String)
  | .route i _ path _ _ => match bases[i]? with
      | some base => [(base,path)]
      | none => []
  | _ => []

def registrations : List B → List (Call M H) → List (B × String)
  | _,[] => []
  | bases,c :: calls => registration bases c ++ registrations (basesAfter A bases c) calls

-- a registration at the path that is the first one with its key
def FirstAt (regs : List (B × String)) (path : String) : Prop :=
  ∃ pre q post, regs = pre ++ q :: post ∧ A.fullPath q.1 q.2 = path ∧
    ∀ p ∈ pre,A.optionsKey p.1 p.2 ≠ A.optionsKey q.1 q.2

def Covered (regs : List (B × String)) : Prop := ∀ r ∈ regs,FirstAt A regs (A.fullPath r.1 r.2)

end Properties

section Runs

variable {B M H : Type} {A : Adapter B}

theorem firstAt_append (regs : List (B × String)) (q : B × String) (path : String) :
    FirstAt A (regs ++ [q]) path ↔ FirstAt A regs path ∨ A.fullPath q.1 q.2 = path ∧
      ∀ p ∈ regs,A.optionsKey p.1 p.2 ≠ A.optionsKey q.1 q.2 := by
  constructor
  · rintro ⟨pre,x,post,heq,hpath,hfirst⟩
    rcases List.eq_nil_or_concat post with rfl | ⟨post',y,rfl⟩
    · obtain ⟨rfl,hx⟩ := List.append_inj' heq rfl
      cases hx
      exact Or.inr ⟨hpath,hfirst⟩
    · rw [List.concat_eq_append,← List.cons_append,← List.append_assoc] at heq
      obtain ⟨rfl,_⟩ := List.append_inj' heq rfl
      exact Or.inl ⟨pre,x,post',rfl,hpath,hfirst⟩
  · rintro (⟨pre,x,post,rfl,hpath,hfirst⟩ | ⟨hpath,hfirst⟩)
    · exact ⟨pre,x,post ++ [q],by simp,hpath,hfirst⟩
    · exact ⟨regs,q,[],rfl,hpath,hfirst⟩

-- the table of a run, read off its registrations
structure Reflects (A : Adapter B) (s : Table B M H) (bases : List B)
    (regs : List (B × String)) : Prop where
  bases : s.groups.map Branch.base = bases
  keys : ∀ key,key ∈ s.optionsRegistered ↔ ∃ r ∈ regs,A.optionsKey r.1 r.2 = key
  given : ∀ path,(∃ route ∈ s.routes,route.IsGiven ∧ route.path = path) ↔
    ∃ r ∈ regs,A.fullPath r.1 r.2 = path
  options : ∀ path,(∃ route ∈ s.routes,route.IsOptions ∧ route.path = path) ↔ FirstAt A regs path
  owner : ∀ options ∈ s.routes,options.IsOptions → options.owner < s.groups.length ∧
    ∃ route ∈ s.routes,route.IsGiven ∧ route.owner = options.owner ∧ route.path = options.path

theorem Reflects.newTable : Reflects A (newTable A : Table B M H) [A.root] [] := by
  refine ⟨rfl,by simp [Router.newTable],by simp [Router.newTable],fun path => ?_,
    by simp [Router.newTable]⟩
  simp [Router.newTable,FirstAt]

theorem not_given_of_options {route : Registered M H} (h : route.IsOptions) : ¬route.IsGiven := by
  rintro ⟨handler,chain,hgiven⟩
  rw [h.2] at hgiven
  cases hgiven

-- calls that only touch the groups
theorem Reflects.groups {s : Table B M H} {bases bases' : List B} {regs : List (B × String)}
    (h : Reflects A s bases regs) {groups : List (Branch B M)}
    (hbases : groups.map Branch.base = bases') (hlen : s.groups.length ≤ groups.length) :
    Reflects A { s with groups } bases' regs :=
  ⟨hbases,h.keys,h.given,h.options,fun options ho hoptions =>
    (h.owner options ho hoptions).imp_left fun hlt => Nat.lt_of_lt_of_le hlt hlen⟩

section Handle

variable (s : Table B M H) (i : ℕ) (r : Branch B M) (method path : String) (handler : H)
  (own : List M)

theorem handle_groups : (s.handle A i r method path handler own).groups = s.groups := by
  rw [Table.handle,Table.ensureOptionsRoute]
  split_ifs <;> rfl

theorem handle_keys (key : String) :
    key ∈ (s.handle A i r method path handler own).optionsRegistered ↔
      key ∈ s.optionsRegistered ∨ A.optionsKey r.base path = key := by
  rw [Table.handle,Table.ensureOptionsRoute]
  split_ifs with hseen
  · constructor
    · exact Or.inl
    · rintro (hkey | rfl)
      · exact hkey
      · exact hseen
  · rw [List.mem_cons,or_comm,eq_comm]

theorem mem_handle (route : Registered M H) :
    route ∈ (s.handle A i r method path handler own).routes ↔ route ∈ s.routes ∨
      route = ⟨method,A.fullPath r.base path,i,.given handler (r.middleware ++ own)⟩ ∨
      A.optionsKey r.base path ∉ s.optionsRegistered ∧
        route = ⟨"OPTIONS",A.fullPath r.base path,i,.options⟩ := by
  rw [Table.handle,Table.ensureOptionsRoute]
  split_ifs with hseen
  · simp [hseen]
  · simp [hseen]

end Handle

theorem Reflects.handle {s : Table B M H} {bases : List B} {regs : List (B × String)}
    (h : Reflects A s bases regs) {i : ℕ} {r : Branch B M} (hi : s.groups[i]? = some r)
    (method path : String) (handler : H) (own : List M) :
    Reflects A (s.handle A i r method path handler own) bases (regs ++ [(r.base,path)]) := by
  have hlt : i < s.groups.length := (List.getElem?_eq_some_iff.mp hi).1
  have hgiven : Registered.IsGiven
      (⟨method,A.fullPath r.base path,i,.given handler (r.middleware ++ own)⟩ : Registered M H) :=
    ⟨_,_,rfl⟩
  have hoptions : Registered.IsOptions
      (⟨"OPTIONS",A.fullPath r.base path,i,.options⟩ : Registered M H) := ⟨rfl,rfl⟩
  have hunseen : A.optionsKey r.base path ∉ s.optionsRegistered ↔
      ∀ p ∈ regs,A.optionsKey p.1 p.2 ≠ A.optionsKey r.base path := by
    rw [h.keys,not_exists]
    simp only [not_and]
  refine ⟨by rw [handle_groups]; exact h.bases,fun key => ?_,fun wanted => ?_,fun wanted => ?_,?_⟩
  · rw [handle_keys,h.keys]
    simp only [List.mem_append,List.mem_singleton,or_and_right,exists_or,exists_eq_left]
  · simp only [List.mem_append,List.mem_singleton,or_and_right,exists_or,exists_eq_left]
    rw [← h.given wanted]
    constructor
    · rintro ⟨route,hroute,hisGiven,hpath⟩
      rcases (mem_handle s i r method path handler own route).mp hroute with hold | rfl | ⟨_,rfl⟩
      · exact Or.inl ⟨route,hold,hisGiven,hpath⟩
      · exact Or.inr hpath
      · exact absurd hisGiven (not_given_of_options hoptions)
    · rintro (⟨route,hroute,hrest⟩ | hpath)
      · exact ⟨route,(mem_handle s i r method path handler own route).mpr (Or.inl hroute),hrest⟩
      · exact ⟨_,(mem_handle s i r method path handler own _).mpr (Or.inr (Or.inl rfl)),hgiven,hpath⟩
  · rw [firstAt_append,← h.options wanted,← hunseen]
    constructor
    · rintro ⟨route,hroute,hisOptions,hpath⟩
      rcases (mem_handle s i r method path handler own route).mp hroute with hold | rfl | ⟨hnew,rfl⟩
      · exact Or.inl ⟨route,hold,hisOptions,hpath⟩
      · exact absurd hgiven (not_given_of_options hisOptions)
      · exact Or.inr ⟨hpath,hnew⟩
    · rintro (⟨route,hroute,hrest⟩ | ⟨hpath,hnew⟩)
      · exact ⟨route,(mem_handle s i r method path handler own route).mpr (Or.inl hroute),hrest⟩
      · exact ⟨_,(mem_handle s i r method path handler own _).mpr (Or.inr (Or.inr ⟨hnew,rfl⟩)),
          hoptions,hpath⟩
  · intro options hmem hisOptions
    rw [handle_groups]
    rcases (mem_handle s i r method path handler own options).mp hmem with hold | rfl | ⟨_,rfl⟩
    · obtain ⟨howner,route,hroute,hrest⟩ := h.owner options hold hisOptions
      exact ⟨howner,route,(mem_handle s i r method path handler own route).mpr (Or.inl hroute),hrest⟩
    · exact absurd hgiven (not_given_of_options hisOptions)
    · exact ⟨hlt,_,(mem_handle s i r method path handler own _).mpr (Or.inr (Or.inl rfl)),hgiven,
        rfl,rfl⟩

theorem Reflects.step {s : Table B M H} {bases : List B} {regs : List (B × String)}
    (h : Reflects A s bases regs) (c : Call M H) :
    Reflects A (s.step A c) (basesAfter A bases c) (regs ++ registration bases c) := by
  have hbase (i : ℕ) : bases[i]? = (s.groups[i]?).map Branch.base := by
    rw [← h.bases,List.getElem?_map]
  cases c with
  | use i middleware =>
    simp only [Table.step,registration,List.append_nil,basesAfter]
    cases hi : s.groups[i]? with
    | none => exact h
    | some r =>
      refine h.groups ?_ (by simp)
      rw [List.map_set,h.bases]
      apply List.ext_getElem?
      intro j
      rw [List.getElem?_set]
      split_ifs with hij hlt
      · rw [← hij,hbase,hi]
        rfl
      · rw [← hij,List.getElem?_eq_none (Nat.not_lt.mp hlt)]
      · rfl
  | group i pathPrefix middleware =>
    simp only [Table.step,registration,List.append_nil,basesAfter,hbase]
    cases hi : s.groups[i]? with
    | none => exact h
    | some r =>
      refine h.groups ?_ (by simp)
      simp [h.bases]
  | route i method path handler middleware =>
    simp only [Table.step,registration,basesAfter,hbase]
    cases hi : s.groups[i]? with
    | none => simpa using h
    | some r => exact h.handle hi method path handler middleware

theorem Reflects.run {s : Table B M H} {bases : List B} {regs : List (B × String)}
    (h : Reflects A s bases regs) (calls : List (Call M H)) :
    ∃ bases', Reflects A (s.run A calls) bases' (regs ++ registrations A bases calls) := by
  induction calls generalizing s bases regs with
  | nil => exact ⟨bases,by simpa [registrations,Table.run] using h⟩
  | cons c calls ih =>
    obtain ⟨bases',hrun⟩ := ih (h.step c)
    exact ⟨bases',by simpa [registrations,Table.run] using hrun⟩

theorem answers_iff (A : Adapter B) (calls : List (Call M H)) :
    ((newTable A).run A calls : Table B M H).Answers ↔ Covered A (registrations A [A.root] calls) := by
  obtain ⟨bases,h⟩ := (Reflects.newTable (M := M) (H := H) (A := A)).run calls
  rw [List.nil_append] at h
  constructor
  · rintro ⟨hcovered,_⟩ r hr
    obtain ⟨route,hroute,hgiven,hpath⟩ := (h.given _).mpr ⟨r,hr,rfl⟩
    obtain ⟨options,hmem,hoptions,hsame⟩ := hcovered route hroute hgiven
    exact (h.options _).mp ⟨options,hmem,hoptions,hsame.trans hpath⟩
  · intro hcovered
    refine ⟨fun route hroute hgiven => ?_,fun options hmem hoptions => ?_⟩
    · obtain ⟨r,hr,hpath⟩ := (h.given route.path).mp ⟨route,hroute,hgiven,rfl⟩
      exact (h.options route.path).mpr (hpath ▸ hcovered r hr)
    · obtain ⟨howner,hroute⟩ := h.owner options hmem hoptions
      refine ⟨?_,hroute⟩
      rw [Table.optionsChain,List.getElem?_eq_getElem howner]
      rfl

end Runs

-- the net/http router, whose routes keep the middleware as it was when they were registered
section NetHTTP

variable {M H : Type} (g : Growth)

-- an OPTIONS route was made by a registration at its path, and runs what its group's slice
-- showed then; that is the group's own middleware while no append overwrote a cell shown
def MadeBy (calls : List (Call M H)) (options : Entry M H) : Prop :=
  ∃ before i method path handler own after r,
    calls = before ++ Call.route i method path handler own :: after ∧
    (run g newRouter before).groups[i]? = some r ∧ r.pathPrefix ++ path = options.pattern ∧
    (run g newRouter before).heap.read r.middleware = options.chain

def RunsPlanned (calls : List (Call M H)) (options : Entry M H) : Prop :=
  ∃ before i method path handler own after o,
    calls = before ++ Call.route i method path handler own :: after ∧
    (newPlan.run before : Plan M H).owners[i]? = some o ∧ o.pathPrefix ++ path = options.pattern ∧
    o.chain = options.chain

def NetHTTPAnswers (calls : List (Call M H)) : Prop :=
  (∀ route ∈ entries (run g newRouter calls),route.handler ≠ .options →
      ∃ options ∈ entries (run g newRouter calls),options.method = "OPTIONS" ∧
        options.handler = .options ∧ options.pattern = route.pattern) ∧
    ∀ options ∈ entries (run g newRouter calls),options.handler = .options →
      MadeBy g calls options ∧ (Undisturbed g newRouter calls → RunsPlanned calls options)

variable {g}

theorem MadeBy.extend {calls : List (Call M H)} {options : Entry M H} (m : MadeBy g calls options)
    (c : Call M H) : MadeBy g (calls ++ [c]) options := by
  obtain ⟨before,i,method,path,handler,own,after,r,rfl,hrest⟩ := m
  exact ⟨before,i,method,path,handler,own,after ++ [c],r,by simp,hrest⟩

-- while nothing is overwritten, the groups show what the plan says
theorem shows_of_undisturbed {s : State M H} {p : Plan M H} (ht : Tidy s) (hm : Matches s p)
    (hs : Shows s p) {before after : List (Call M H)} (h : Undisturbed g s (before ++ after)) :
    Matches (run g s before) (p.run before) ∧ Shows (run g s before) (p.run before) := by
  induction before generalizing s p with
  | nil => exact ⟨hm,hs⟩
  | cons c before ih =>
    exact ih (tidy_step g ht c) (matches_step g ht hm c) ((shows_step_iff g ht hm hs c).mpr h.1) h.2

theorem MadeBy.planned {calls : List (Call M H)} {options : Entry M H} (m : MadeBy g calls options)
    (h : Undisturbed g newRouter calls) : RunsPlanned calls options := by
  obtain ⟨before,i,method,path,handler,own,after,r,rfl,hi,hpattern,hchain⟩ := m
  obtain ⟨hm,hs⟩ := shows_of_undisturbed (p := newPlan) tidy_newRouter ⟨rfl,rfl⟩ rfl h
  obtain ⟨o,ho,hpre⟩ := hm.owner hi
  exact ⟨before,i,method,path,handler,own,after,o,rfl,ho,by rw [hpre,hpattern],
    by rw [← hs.chain hi ho,hchain]⟩

theorem run_concat (calls : List (Call M H)) (c : Call M H) :
    run g newRouter (calls ++ [c]) = step g (run g newRouter calls) c := by
  rw [run,List.foldl_append]
  rfl

theorem tidy_run (calls : List (Call M H)) : Tidy (run g (newRouter : State M H) calls) := by
  induction calls using List.reverseRecOn with
  | nil => exact tidy_newRouter
  | append_singleton calls c ih =>
    rw [run_concat]
    exact tidy_step g ih c

theorem options_route {s : State M H} (ht : Tidy s) {i : ℕ} {r : Group}
    (hi : s.groups[i]? = some r) (method path : String) (handler : H) (own : List M)
    (pattern : String) :
    pattern ∈ (step g s (.route i method path handler own)).optionsRegistered ↔
      pattern ∈ s.optionsRegistered ∨ pattern = r.pathPrefix ++ path := by
  obtain ⟨heap,base,all,_,_,heq⟩ := addRoute_eq g ht.noArray r method path handler own
  simp only [step,hi]
  rw [heq,ensureOptionsRouteLocked]
  split_ifs with hseen
  · constructor
    · exact Or.inl
    · rintro (hmem | rfl)
      · exact hmem
      · exact hseen
  · rw [List.mem_cons,or_comm]

-- calls that register nothing leave the entries and the covered paths
theorem entries_quiet {s : State M H} (ht : Tidy s) {c : Call M H}
    (hc : ∀ i method path handler own,c = .route i method path handler own → s.groups[i]? = none) :
    entries (step g s c) = entries s ∧ (step g s c).optionsRegistered = s.optionsRegistered := by
  cases c with
  | use i middleware =>
    simp only [step]
    cases hi : s.groups[i]? with
    | none => exact ⟨rfl,rfl⟩
    | some r => exact ⟨entries_append g ht (List.mem_of_getElem? hi) _,rfl⟩
  | group i pathPrefix middleware =>
    simp only [step]
    cases hi : s.groups[i]? with
    | none => exact ⟨rfl,rfl⟩
    | some r => exact ⟨entries_append g ht (List.mem_of_getElem? hi) _,rfl⟩
  | route i method path handler own =>
    simp only [step,hc i method path handler own rfl,and_self]

structure Options (g : Growth) (calls : List (Call M H)) : Prop where
  covered : ∀ route ∈ entries (run g newRouter calls),route.handler ≠ .options →
    route.pattern ∈ (run g newRouter calls).optionsRegistered
  present : ∀ pattern ∈ (run g newRouter calls).optionsRegistered,
    ∃ options ∈ entries (run g newRouter calls),options.method = "OPTIONS" ∧
      options.handler = .options ∧ options.pattern = pattern
  made : ∀ options ∈ entries (run g newRouter calls),options.handler = .options →
    MadeBy g calls options

theorem Options.quiet {calls : List (Call M H)} (h : Options g calls) {c : Call M H}
    (hc : ∀ i method path handler own,c = .route i method path handler own →
      (run g newRouter calls).groups[i]? = none) : Options g (calls ++ [c]) := by
  obtain ⟨hentries,hoptions⟩ := entries_quiet (tidy_run calls) hc
  refine ⟨?_,?_,?_⟩
  · rw [run_concat,hentries,hoptions]
    exact h.covered
  · rw [run_concat,hentries,hoptions]
    exact h.present
  · rw [run_concat,hentries]
    exact fun options hmem hhandler => (h.made options hmem hhandler).extend c

theorem Options.route {calls : List (Call M H)} (h : Options g calls) {i : ℕ} {r : Group}
    (hi : (run g newRouter calls).groups[i]? = some r) (method path : String) (handler : H)
    (own : List M) : Options g (calls ++ [.route i method path handler own]) := by
  have ht := tidy_run (g := g) calls
  have hentries := entries_route g ht hi method path handler own
  have hkeys := options_route (g := g) ht hi method path handler own
  have hmem (entry : Entry M H) :
      entry ∈ entries (run g newRouter (calls ++ [.route i method path handler own])) ↔
        entry ∈ entries (run g newRouter calls) ∨
        entry = ⟨method,r.pathPrefix ++ path,.given handler,
          (run g newRouter calls).heap.read r.middleware ++ own⟩ ∨
        r.pathPrefix ++ path ∉ (run g newRouter calls).optionsRegistered ∧
          entry = ⟨"OPTIONS",r.pathPrefix ++ path,.options,
            (run g newRouter calls).heap.read r.middleware⟩ := by
    rw [run_concat,hentries,added,List.mem_append,List.mem_cons]
    split_ifs with hseen <;> simp [hseen]
  refine ⟨fun route hroute hgiven => ?_,fun pattern hpattern => ?_,fun options ho hhandler => ?_⟩
  · rw [run_concat,hkeys]
    rcases (hmem route).mp hroute with hold | rfl | ⟨_,rfl⟩
    · exact Or.inl (h.covered route hold hgiven)
    · exact Or.inr rfl
    · exact absurd rfl hgiven
  · rw [run_concat,hkeys] at hpattern
    by_cases hseen : pattern ∈ (run g newRouter calls).optionsRegistered
    · obtain ⟨options,hold,hrest⟩ := h.present pattern hseen
      exact ⟨options,(hmem options).mpr (Or.inl hold),hrest⟩
    · obtain rfl := hpattern.resolve_left hseen
      exact ⟨_,(hmem _).mpr (Or.inr (Or.inr ⟨hseen,rfl⟩)),rfl,rfl,rfl⟩
  · rcases (hmem options).mp ho with hold | rfl | ⟨_,rfl⟩
    · exact (h.made options hold hhandler).extend _
    · cases hhandler
    · exact ⟨calls,i,method,path,handler,own,[],r,rfl,hi,rfl,rfl⟩

theorem options_run (calls : List (Call M H)) : Options g calls := by
  induction calls using List.reverseRecOn with
  | nil => exact ⟨by simp [run,newRouter,entries],by simp [run,newRouter],by simp [run,newRouter,entries]⟩
  | append_singleton calls c ih =>
    by_cases hc : ∀ i method path handler own,c = .route i method path handler own →
        (run g newRouter calls).groups[i]? = none
    · exact ih.quiet hc
    · push Not at hc
      obtain ⟨i,method,path,handler,own,rfl,hsome⟩ := hc
      obtain ⟨r,hi⟩ := Option.ne_none_iff_exists'.mp hsome
      exact ih.route hi method path handler own

theorem netHTTP_answers (calls : List (Call M H)) : NetHTTPAnswers g calls := by
  have h := options_run (g := g) calls
  refine ⟨fun route hroute hgiven => h.present _ (h.covered route hroute hgiven),?_⟩
  exact fun options ho hhandler => ⟨h.made options ho hhandler,(h.made options ho hhandler).planned⟩

end NetHTTP

section Routers

variable {M H : Type}

theorem preflight_answered_iff (g : Growth) (joinPaths template : String → String → String)
    (calls : List (Call M H)) :
    NetHTTPAnswers g calls ∧
    (((newTable (gin joinPaths)).run (gin joinPaths) calls).Answers ↔
      Covered (gin joinPaths) (registrations (gin joinPaths) [none] calls)) ∧
    (((newTable (gorilla template)).run (gorilla template) calls).Answers ↔
      Covered (gorilla template) (registrations (gorilla template) [""] calls)) :=
  ⟨netHTTP_answers calls,answers_iff (gin joinPaths) calls,answers_iff (gorilla template) calls⟩

-- two versions of one route
def versions : List (Call String ℕ) :=
  [.group 0 "/v1" [],.group 0 "/v2" [],.route 1 "GET" "/users" 0 [],.route 2 "GET" "/users" 1 []]

theorem second_version_without_options :
    ¬∀ (template : String → String → String) (calls : List (Call String ℕ)),
      ((newTable (gorilla template)).run (gorilla template) calls).Answers := by
  intro hclaim
  have hanswers := (hclaim (· ++ ·) versions).1
  have hroute : (⟨"GET","/v2/users",2,.given 1 []⟩ : Registered String ℕ) ∈
      ((newTable (gorilla (· ++ ·))).run (gorilla (· ++ ·)) versions).routes := by decide +kernel
  obtain ⟨options,hmem,hoptions,hpath⟩ := hanswers _ hroute ⟨1,[],rfl⟩
  have hall : ∀ options ∈ ((newTable (gorilla (· ++ ·))).run (gorilla (· ++ ·)) versions).routes,
      options.served = .options → options.path ≠ "/v2/users" := by decide +kernel
  exact hall options hmem hoptions.2 hpath

end Routers

end Nimburion.HTTP.Router
