import Nimburion.HTTP.Router

namespace Nimburion.HTTP.Router
open GoSlice

variable {M H : Type}

section Registration

variable (g : Growth)

-- array 0 stands for no array
structure NoArray (h : Heap M) : Prop where
  valid : h.Valid nilSlice
  cap : (h.at 0).cap = 0

theorem NoArray.append {h : Heap M} {s : Slice} (hn : NoArray h) (hs : h.Valid s) (xs : List M) :
    NoArray (h.append g s xs).1 :=
  ⟨valid_append g hs hn.valid,(cap_append g hs hn.valid.alloc).trans hn.cap⟩

-- a slice in cells that the first heap does not have
structure Built (h h' : Heap M) (t : Slice) (chain : List M) : Prop where
  keeps : Keeps h h'
  noArray : NoArray h'
  valid : h'.Valid t
  fresh : t.array < h.length → t = nilSlice
  read : h'.read t = chain

theorem Built.empty {h h' : Heap M} (hk : Keeps h h') (hn : NoArray h') : Built h h' nilSlice [] :=
  ⟨hk,hn,hn.valid,fun _ => rfl,by simp [Heap.read,nilSlice]⟩

theorem Built.append {h h' : Heap M} {t : Slice} {chain : List M} (hb : Built h h' t chain)
    (xs : List M) : Built h (h'.append g t xs).1 (h'.append g t xs).2 (chain ++ xs) := by
  refine ⟨?_,hb.noArray.append g hb.valid xs,valid_append_self g hb.valid,?_,?_⟩
  · refine hb.keeps.append g hb.valid fun hlt => ?_
    rw [hb.fresh hlt]
    exact hb.noArray.cap
  · intro hlt
    unfold Heap.append at hlt ⊢
    split_ifs at hlt ⊢ with hfits
    · rw [hb.fresh hlt] at hfits ⊢
      simp only [fits,nilSlice,hb.noArray.cap,decide_eq_true_eq] at hfits
      simp only [nilSlice]
      congr 1
      omega
    · exact absurd hlt (Nat.not_lt.mpr hb.keeps.length)
  · rw [read_append g hb.valid,hb.read]

theorem addRoute_eq {s : State M H} (hn : NoArray s.heap) (r : Group) (method path : String)
    (handler : H) (own : List M) : ∃ heap base all,
      Built s.heap heap base (s.heap.read r.middleware) ∧
      Built s.heap heap all (s.heap.read r.middleware ++ own) ∧
      addRoute g s r method path handler own = ensureOptionsRouteLocked
        { s with heap, routes := s.routes ++ [⟨method,r.pathPrefix ++ path,.given handler,all⟩] }
        (r.pathPrefix ++ path) base := by
  have h₁ := (Built.empty (.refl s.heap) hn).append g (s.heap.read r.middleware)
  unfold addRoute
  generalize s.heap.append g nilSlice (s.heap.read r.middleware) = base at h₁ ⊢
  have h₂ := (Built.empty (.refl _) h₁.noArray).append g (base.1.read base.2)
  dsimp only
  generalize base.1.append g nilSlice (base.1.read base.2) = copied at h₂ ⊢
  have h₃ := h₂.append g own
  generalize copied.1.append g copied.2 own = all at h₃ ⊢
  rw [List.nil_append] at h₁ h₃
  refine ⟨all.1,base.2,all.2,
    ⟨h₁.keeps.trans h₃.keeps,h₃.noArray,h₃.keeps.valid _ h₁.valid,h₁.fresh,?_⟩,
    ⟨h₁.keeps.trans h₃.keeps,h₃.noArray,h₃.valid,?_,?_⟩,rfl⟩
  · rw [h₃.keeps.read _ h₁.valid,h₁.read]
  · exact fun hlt => h₃.fresh (Nat.lt_of_lt_of_le hlt h₁.keeps.length)
  · rw [h₃.read,h₁.read]

end Registration

section Steps

variable (g : Growth)

structure Tidy (s : State M H) : Prop where
  noArray : NoArray s.heap
  groups : ∀ r ∈ s.groups, s.heap.Valid r.middleware
  routes : ∀ rt ∈ s.routes, s.heap.Valid rt.middleware
  apart : ∀ rt ∈ s.routes, ∀ r ∈ s.groups, rt.middleware.array = r.middleware.array →
    rt.middleware.len = 0

theorem tidy_newRouter : Tidy (newRouter : State M H) := by
  refine ⟨⟨⟨by simp [newRouter,nilSlice],by simp [nilSlice]⟩,by simp [newRouter,Heap.at]⟩,?_,?_,?_⟩
  · intro r hr
    simp only [newRouter,List.mem_singleton] at hr
    subst hr
    exact ⟨by simp [newRouter,nilSlice],by simp [nilSlice]⟩
  · simp [newRouter]
  · simp [newRouter]

variable {s : State M H} {r : Group} {ms : List M}

-- a group's append leaves the routes alone
theorem Tidy.route_read (ht : Tidy s) (hr : r ∈ s.groups) {rt : Route H} (hrt : rt ∈ s.routes) :
    (s.heap.append g r.middleware ms).1.read rt.middleware = s.heap.read rt.middleware := by
  rw [read_append_other g (ht.groups r hr) (ht.routes rt hrt)]
  rintro ⟨_,harray,i,x,y,hx,_⟩
  have hnone : s.heap.read rt.middleware = [] := by
    rw [Heap.read,ht.apart rt hrt r hr harray,List.take_zero]
  simp [hnone] at hx

theorem Tidy.appended (ht : Tidy s) (hr : r ∈ s.groups) {groups : List Group}
    (hgroups : ∀ q ∈ groups, q ∈ s.groups ∨ q.middleware = (s.heap.append g r.middleware ms).2) :
    Tidy { s with heap := (s.heap.append g r.middleware ms).1, groups } := by
  have hvalid := ht.groups r hr
  refine ⟨ht.noArray.append g hvalid ms,?_,fun rt hrt => valid_append g hvalid (ht.routes rt hrt),?_⟩
  · intro q hq
    rcases hgroups q hq with hq | hq
    · exact valid_append g hvalid (ht.groups q hq)
    · rw [hq]
      exact valid_append_self g hvalid
  · intro rt hrt q hq harray
    rcases hgroups q hq with hq | hq
    · exact ht.apart rt hrt q hq harray
    · rw [hq] at harray
      unfold Heap.append at harray
      split_ifs at harray
      · exact ht.apart rt hrt r hr harray
      · have halloc := (ht.routes rt hrt).alloc
        rw [harray] at halloc
        exact absurd halloc (Nat.lt_irrefl _)

theorem Tidy.registered (ht : Tidy s) {heap : Heap M} (hk : Keeps s.heap heap) (hn : NoArray heap)
    {routes : List (Route H)}
    (hroutes : ∀ rt ∈ routes, rt ∈ s.routes ∨
      ∃ chain, Built s.heap heap rt.middleware chain) (options : List String) :
    Tidy ⟨heap,s.groups,routes,options⟩ := by
  refine ⟨hn,fun q hq => hk.valid _ (ht.groups q hq),?_,?_⟩
  · intro rt hrt
    rcases hroutes rt hrt with hrt | ⟨chain,hb⟩
    · exact hk.valid _ (ht.routes rt hrt)
    · exact hb.valid
  · intro rt hrt q hq harray
    rcases hroutes rt hrt with hrt | ⟨chain,hb⟩
    · exact ht.apart rt hrt q hq harray
    · rw [hb.fresh (harray ▸ (ht.groups q hq).alloc)]
      rfl

-- the append writes another middleware into a cell that a group shows
def Overwrites (s : State M H) : Call M H → Prop
  | .use i ms => ∃ r, s.groups[i]? = some r ∧
      ∃ q ∈ s.groups, Clobbers s.heap r.middleware ms q.middleware
  | .group i _ ms => ∃ r, s.groups[i]? = some r ∧
      ∃ q ∈ s.groups, Clobbers s.heap r.middleware ms q.middleware
  | .route _ _ _ _ _ => False

-- the groups as planned, except for what their slices show
structure Matches (s : State M H) (p : Plan M H) : Prop where
  prefixes : s.groups.map Group.pathPrefix = p.owners.map Owner.pathPrefix
  options : s.optionsRegistered = p.optionsRegistered

-- each group shows its own chain
def Shows (s : State M H) (p : Plan M H) : Prop :=
  s.groups.map (fun r => s.heap.read r.middleware) = p.owners.map Owner.chain

variable {p : Plan M H}

theorem Matches.owner (hm : Matches s p) {i : ℕ} (hi : s.groups[i]? = some r) :
    ∃ o, p.owners[i]? = some o ∧ o.pathPrefix = r.pathPrefix := by
  have h := congrArg (·[i]?) hm.prefixes
  simp only [List.getElem?_map,hi,Option.map_some] at h
  obtain ⟨o,ho,hpre⟩ := Option.map_eq_some_iff.mp h.symm
  exact ⟨o,ho,hpre⟩

theorem Matches.no_owner (hm : Matches s p) {i : ℕ} (hi : s.groups[i]? = none) :
    p.owners[i]? = none := by
  have h := congrArg (·[i]?) hm.prefixes
  simp only [List.getElem?_map,hi,Option.map_none] at h
  exact Option.map_eq_none_iff.mp h.symm

theorem Shows.chain (hs : Shows s p) {i : ℕ} {o : Owner M} (hi : s.groups[i]? = some r)
    (ho : p.owners[i]? = some o) : s.heap.read r.middleware = o.chain := by
  have h := congrArg (·[i]?) hs
  simpa [List.getElem?_map,hi,ho] using h

theorem map_read_append (ht : Tidy s) (hr : r ∈ s.groups) :
    s.groups.map (fun q => (s.heap.append g r.middleware ms).1.read q.middleware) =
      s.groups.map (fun q => s.heap.read q.middleware) ↔
    ¬∃ q ∈ s.groups, Clobbers s.heap r.middleware ms q.middleware := by
  rw [List.map_inj_left]
  push Not
  refine forall₂_congr fun q hq => ?_
  exact read_append_other g (ht.groups r hr) (ht.groups q hq)

theorem shows_group_iff (ht : Tidy s) (hs : Shows s p) {i : ℕ} {o : Owner M} (pre : String)
    (hi : s.groups[i]? = some r) (ho : p.owners[i]? = some o) :
    Shows (step g s (.group i pre ms)) (p.step (.group i pre ms)) ↔
      ¬Overwrites s (.group i pre ms) := by
  have hr := List.mem_of_getElem? hi
  have hnew : (s.heap.append g r.middleware ms).1.read (s.heap.append g r.middleware ms).2 =
      o.chain ++ ms := by rw [read_append g (ht.groups r hr),hs.chain hi ho]
  simp only [Shows,step,hi,group,Plan.step,ho,List.map_append,List.map_cons,List.map_nil,hnew,
    Overwrites,Option.some.injEq,exists_eq_left']
  rw [← map_read_append g ht hr,hs]
  simp [Owner.chain]

theorem set_eq_set_iff {α : Type} {l l' : List α} {i : ℕ} {x : α} (h : l[i]? = l'[i]?) :
    l.set i x = l'.set i x ↔ l = l' := by
  refine ⟨fun heq => List.ext_getElem? fun j => ?_,fun heq => by rw [heq]⟩
  by_cases hj : i = j
  · rw [← hj,h]
  · rw [← List.getElem?_set_ne hj,heq,List.getElem?_set_ne hj]

theorem shows_use_iff (ht : Tidy s) (hs : Shows s p) {i : ℕ} {o : Owner M}
    (hi : s.groups[i]? = some r) (ho : p.owners[i]? = some o) :
    Shows (step g s (.use i ms)) (p.step (.use i ms)) ↔ ¬Overwrites s (.use i ms) := by
  have hr := List.mem_of_getElem? hi
  have hvalid := ht.groups r hr
  have hnew : (s.heap.append g r.middleware ms).1.read (s.heap.append g r.middleware ms).2 =
      o.chain ++ ms := by rw [read_append g hvalid,hs.chain hi ho]
  have hself : (s.heap.append g r.middleware ms).1.read r.middleware = s.heap.read r.middleware :=
    (read_append_other g hvalid hvalid).mpr (not_clobbers_self hvalid)
  have hchain : Owner.chain { o with used := o.used ++ ms } = o.chain ++ ms := by simp [Owner.chain]
  simp only [Shows,step,hi,use,Plan.step,ho,List.map_set,hnew,Overwrites,Option.some.injEq,
    exists_eq_left',hchain]
  rw [← map_read_append g ht hr,← hs]
  exact set_eq_set_iff (by simp [List.getElem?_map,hi,hself])

theorem tidy_step (ht : Tidy s) (c : Call M H) : Tidy (step g s c) := by
  cases c with
  | use i ms =>
    simp only [step]
    cases hi : s.groups[i]? with
    | none => exact ht
    | some r =>
      refine ht.appended g (List.mem_of_getElem? hi) fun q hq => ?_
      rcases List.mem_or_eq_of_mem_set hq with hq | rfl
      · exact .inl hq
      · exact .inr rfl
  | group i pre ms =>
    simp only [step]
    cases hi : s.groups[i]? with
    | none => exact ht
    | some r =>
      refine ht.appended g (List.mem_of_getElem? hi) fun q hq => ?_
      rcases List.mem_append.mp hq with hq | hq
      · exact .inl hq
      · rw [List.mem_singleton.mp hq]
        exact .inr rfl
  | route i method path handler own =>
    simp only [step]
    cases hi : s.groups[i]? with
    | none => exact ht
    | some r =>
      dsimp only
      obtain ⟨heap,base,all,hbase,hall,heq⟩ := addRoute_eq g ht.noArray r method path handler own
      rw [heq,ensureOptionsRouteLocked]
      split_ifs
      · refine ht.registered hall.keeps hall.noArray ?_ _
        intro rt hrt
        rcases List.mem_append.mp hrt with hrt | hrt
        · exact .inl hrt
        · rw [List.mem_singleton.mp hrt]
          exact .inr ⟨_,hall⟩
      · refine ht.registered hall.keeps hall.noArray ?_ _
        intro rt hrt
        rcases List.mem_append.mp hrt with hrt | hrt
        · rcases List.mem_append.mp hrt with hrt | hrt
          · exact .inl hrt
          · rw [List.mem_singleton.mp hrt]
            exact .inr ⟨_,hall⟩
        · rw [List.mem_singleton.mp hrt]
          exact .inr ⟨_,hbase⟩

theorem matches_step (ht : Tidy s) (hm : Matches s p) (c : Call M H) :
    Matches (step g s c) (p.step c) := by
  cases c with
  | use i ms =>
    simp only [step,Plan.step]
    cases hi : s.groups[i]? with
    | none =>
      rw [hm.no_owner hi]
      exact hm
    | some r =>
      obtain ⟨o,ho,hpre⟩ := hm.owner hi
      rw [ho]
      refine ⟨?_,hm.options⟩
      simp only [use,List.map_set,hm.prefixes,hpre]
  | group i pre ms =>
    simp only [step,Plan.step]
    cases hi : s.groups[i]? with
    | none =>
      rw [hm.no_owner hi]
      exact hm
    | some r =>
      obtain ⟨o,ho,hpre⟩ := hm.owner hi
      rw [ho]
      refine ⟨?_,hm.options⟩
      simp [group,hm.prefixes,hpre]
  | route i method path handler own =>
    simp only [step,Plan.step]
    cases hi : s.groups[i]? with
    | none =>
      rw [hm.no_owner hi]
      exact hm
    | some r =>
      obtain ⟨o,ho,hpre⟩ := hm.owner hi
      obtain ⟨heap,base,all,_,_,heq⟩ := addRoute_eq g ht.noArray r method path handler own
      rw [ho]
      dsimp only
      rw [heq,ensureOptionsRouteLocked,Plan.addOptions,hpre]
      simp only [hm.options]
      split_ifs
      · exact ⟨hm.prefixes,rfl⟩
      · exact ⟨hm.prefixes,rfl⟩

theorem shows_route (ht : Tidy s) (hs : Shows s p) (i : ℕ) (method path : String) (handler : H)
    (own : List M) :
    Shows (step g s (.route i method path handler own)) (p.step (.route i method path handler own)) := by
  have howners : (p.step (.route i method path handler own)).owners = p.owners := by
    simp only [Plan.step]
    cases p.owners[i]? with
    | none => rfl
    | some o =>
      simp only [Plan.addOptions]
      split_ifs <;> rfl
  rw [Shows,howners,← hs]
  simp only [step]
  cases hi : s.groups[i]? with
  | none => rfl
  | some r =>
    obtain ⟨heap,base,all,_,hall,heq⟩ := addRoute_eq g ht.noArray r method path handler own
    dsimp only
    rw [heq,ensureOptionsRouteLocked]
    split_ifs
    · exact List.map_congr_left fun q hq => hall.keeps.read _ (ht.groups q hq)
    · exact List.map_congr_left fun q hq => hall.keeps.read _ (ht.groups q hq)

-- the entries that one registration adds
def added (method path : String) (handler : H) (chain own : List M) (options : List String) :
    List (Entry M H) :=
  ⟨method,path,.given handler,chain ++ own⟩ ::
    if path ∈ options then [] else [⟨"OPTIONS",path,.options,chain⟩]

theorem entries_route (ht : Tidy s) {i : ℕ} (hi : s.groups[i]? = some r) (method path : String)
    (handler : H) (own : List M) : entries (step g s (.route i method path handler own)) =
      entries s ++ added method (r.pathPrefix ++ path) handler (s.heap.read r.middleware) own
        s.optionsRegistered := by
  obtain ⟨heap,base,all,hbase,hall,heq⟩ := addRoute_eq g ht.noArray r method path handler own
  have hold : s.routes.map (fun rt => (⟨rt.method,rt.pattern,rt.handler,heap.read rt.middleware⟩ :
      Entry M H)) = entries s :=
    List.map_congr_left fun rt hrt => by rw [hall.keeps.read _ (ht.routes rt hrt)]
  simp only [step,hi]
  rw [heq,ensureOptionsRouteLocked,added,← hold]
  split_ifs
  · simp [entries,hall.read]
  · simp [entries,hall.read,hbase.read]

theorem planned_route {i : ℕ} {o : Owner M} (ho : p.owners[i]? = some o) (method path : String)
    (handler : H) (own : List M) : (p.step (.route i method path handler own)).routes =
      p.routes ++ added method (o.pathPrefix ++ path) handler o.chain own p.optionsRegistered := by
  simp only [Plan.step,ho,Plan.addOptions,added]
  split_ifs <;> simp

theorem entries_append (ht : Tidy s) (hr : r ∈ s.groups) (groups : List Group) :
    entries { s with heap := (s.heap.append g r.middleware ms).1, groups } = entries s :=
  List.map_congr_left fun rt hrt => by rw [ht.route_read g hr hrt]

-- every route has its own chain
def Own (s : State M H) (p : Plan M H) : Prop := entries s = p.routes

theorem own_route_iff (ht : Tidy s) (hm : Matches s p) (how : Own s p) {i : ℕ} {o : Owner M}
    (hi : s.groups[i]? = some r) (ho : p.owners[i]? = some o) (method path : String) (handler : H)
    (own : List M) :
    Own (step g s (.route i method path handler own)) (p.step (.route i method path handler own)) ↔
      s.heap.read r.middleware = o.chain := by
  obtain ⟨o',ho',hpre⟩ := hm.owner hi
  rw [ho,Option.some.injEq] at ho'
  subst ho'
  rw [Own,entries_route g ht hi,planned_route ho,how,List.append_cancel_left_eq,hpre,hm.options]
  constructor
  · intro heq
    have hhead := (List.cons.inj heq).1
    simp only [Entry.mk.injEq,true_and] at hhead
    exact List.append_cancel_right hhead
  · intro heq
    rw [heq]

theorem own_step (ht : Tidy s) (hm : Matches s p) (how : Own s p) (hs : Shows s p)
    (c : Call M H) : Own (step g s c) (p.step c) := by
  cases c with
  | use i ms =>
    simp only [step,Plan.step]
    cases hi : s.groups[i]? with
    | none =>
      rw [hm.no_owner hi]
      exact how
    | some r =>
      obtain ⟨o,ho,_⟩ := hm.owner hi
      rw [ho]
      exact (entries_append g ht (List.mem_of_getElem? hi) _).trans how
  | group i pre ms =>
    simp only [step,Plan.step]
    cases hi : s.groups[i]? with
    | none =>
      rw [hm.no_owner hi]
      exact how
    | some r =>
      obtain ⟨o,ho,_⟩ := hm.owner hi
      rw [ho]
      exact (entries_append g ht (List.mem_of_getElem? hi) _).trans how
  | route i method path handler own =>
    cases hi : s.groups[i]? with
    | none =>
      simp only [step,Plan.step,hi,hm.no_owner hi]
      exact how
    | some r =>
      obtain ⟨o,ho,_⟩ := hm.owner hi
      exact (own_route_iff g ht hm how hi ho method path handler own).mpr (hs.chain hi ho)

theorem shows_step_iff (ht : Tidy s) (hm : Matches s p) (hs : Shows s p) (c : Call M H) :
    Shows (step g s c) (p.step c) ↔ ¬Overwrites s c := by
  cases c with
  | use i ms =>
    cases hi : s.groups[i]? with
    | none => simpa [step,Plan.step,hi,hm.no_owner hi,Overwrites] using hs
    | some r =>
      obtain ⟨o,ho,_⟩ := hm.owner hi
      exact shows_use_iff g ht hs hi ho
  | group i pre ms =>
    cases hi : s.groups[i]? with
    | none => simpa [step,Plan.step,hi,hm.no_owner hi,Overwrites] using hs
    | some r =>
      obtain ⟨o,ho,_⟩ := hm.owner hi
      exact shows_group_iff g ht hs pre hi ho
  | route i method path handler own =>
    simp only [Overwrites,not_false_eq_true,iff_true]
    exact shows_route g ht hs i method path handler own

-- what is shown can be seen by registering a route
theorem shows_of_routes [Inhabited H] (ht : Tidy s) (hm : Matches s p) (how : Own s p)
    (h : ∀ i, Own (step g s (.route i "" "" default [])) (p.step (.route i "" "" default []))) :
    Shows s p := by
  apply List.ext_getElem?
  intro i
  rw [List.getElem?_map,List.getElem?_map]
  cases hi : s.groups[i]? with
  | none => rw [hm.no_owner hi]; rfl
  | some r =>
    obtain ⟨o,ho,_⟩ := hm.owner hi
    rw [ho,Option.map_some,Option.map_some,
      (own_route_iff g ht hm how hi ho "" "" default []).mp (h i)]

end Steps

section Programs

variable (g : Growth)

-- no append on the way overwrites a cell that a group shows
def Undisturbed : State M H → List (Call M H) → Prop
  | _,[] => True
  | s,c :: calls => ¬Overwrites s c ∧ Undisturbed (step g s c) calls

-- after every call, the routes so far and any route registered next have their own chains
def RunsOwn (s : State M H) (p : Plan M H) (calls : List (Call M H)) : Prop :=
  ∀ pre, pre <+: calls → Own (run g s pre) (p.run pre) ∧
    ∀ i method path handler own,
      Own (run g s (pre ++ [.route i method path handler own]))
        (p.run (pre ++ [.route i method path handler own]))

theorem runsOwn_cons {s : State M H} {p : Plan M H} {c : Call M H} {calls : List (Call M H)} :
    RunsOwn g s p (c :: calls) ↔ RunsOwn g s p [] ∧ RunsOwn g (step g s c) (p.step c) calls := by
  constructor
  · intro h
    refine ⟨fun pre hpre => h pre (hpre.trans (List.nil_prefix)),fun pre hpre => ?_⟩
    exact h (c :: pre) (List.cons_prefix_cons.mpr ⟨rfl,hpre⟩)
  · rintro ⟨hnil,hrest⟩ pre hpre
    cases pre with
    | nil => exact hnil [] (List.prefix_refl _)
    | cons d pre =>
      obtain ⟨rfl,hbelow⟩ := List.cons_prefix_cons.mp hpre
      exact hrest pre hbelow

theorem runsOwn_nil {s : State M H} {p : Plan M H} (ht : Tidy s) (hm : Matches s p)
    (how : Own s p) (hs : Shows s p) : RunsOwn g s p [] := by
  intro pre hpre
  rw [List.prefix_nil] at hpre
  subst hpre
  refine ⟨how,fun i method path handler own => ?_⟩
  exact own_step g ht hm how hs (.route i method path handler own)

theorem runsOwn_iff [Inhabited H] {s : State M H} {p : Plan M H} (ht : Tidy s) (hm : Matches s p)
    (how : Own s p) (hs : Shows s p) (calls : List (Call M H)) :
    RunsOwn g s p calls ↔ Undisturbed g s calls := by
  induction calls generalizing s p with
  | nil => exact ⟨fun _ => trivial,fun _ => runsOwn_nil g ht hm how hs⟩
  | cons c calls ih =>
    have ht' := tidy_step g ht c
    have hm' := matches_step g ht hm c
    have how' := own_step g ht hm how hs c
    rw [runsOwn_cons,Undisturbed,← shows_step_iff g ht hm hs c]
    constructor
    · rintro ⟨_,hrest⟩
      have hs' : Shows (step g s c) (p.step c) :=
        shows_of_routes g ht' hm' how' fun i =>
          (hrest [] (List.nil_prefix)).2 i "" "" default []
      exact ⟨hs',(ih ht' hm' how' hs').mp hrest⟩
    · rintro ⟨hs',hrest⟩
      exact ⟨runsOwn_nil g ht hm how hs,(ih ht' hm' how' hs').mpr hrest⟩

theorem routes_run_own_middleware_iff [Inhabited H] (calls : List (Call M H)) :
    RunsOwn g newRouter newPlan calls ↔ Undisturbed g newRouter calls := by
  have how : Own (newRouter : State M H) newPlan := rfl
  have hs : Shows (newRouter : State M H) newPlan := rfl
  exact runsOwn_iff g tidy_newRouter ⟨rfl,rfl⟩ how hs calls

-- as Go's runtime grows small slices of pointers
def doubling : Growth := ⟨fun oldCap newLen => max (2*oldCap) newLen,fun _ _ => Nat.le_max_right _ _⟩

-- the third Use leaves one cell of capacity, and both groups append into it
def siblings : List (Call String ℕ) :=
  [.use 0 ["requestid"],.use 0 ["logging"],.use 0 ["recovery"],.group 0 "/admin" ["auth"],
    .group 0 "/public" ["cache"],.route 1 "GET" "/users" 0 []]

theorem admin_route_without_auth :
    (entries (run doubling newRouter siblings)).head?.map Entry.chain =
      some ["requestid","logging","recovery","cache"] ∧
    ¬Own (run doubling newRouter siblings) (newPlan.run siblings) := by
  unfold Own
  decide

end Programs

end Nimburion.HTTP.Router
