import Nimburion.HTTP.SessionStore

namespace Nimburion.HTTP.Sessions
open Interaction GoTime GoText

def loadedData (id : String) (tr : Trace) : Option Data :=
  tr.findSome? fun ev => match ev with
    | ⟨.load id',.ok d⟩ => if id' = id then some d else none
    | _ => none

-- a request in flight that is yet to save what it made of the data it loaded under the ID
def pending (id : String) (t : Served) : Bool :=
  t.alive && !t.trace.any isSave && !renews t.call.calls && !destroys t.call.calls &&
    (loadedData id t.trace).any fun d => edits d t.call.calls

def deletedAlone (c : Requests) (a : Step) : Bool :=
  match c.next a with
  | some (_,.delete id,o) => !o.reaches || c.threads.all fun u => !pending id u
  | _ => true

-- after a Delete of an ID reached the store, no request that had loaded it saves under it
def StaysDeleted (cfg : Cfg) (c : Requests) (acts : List Step) : Prop :=
  ∀ xs i o ys j o' zs d e t u v id data ttl,
    acts = xs ++ .exec i o :: (ys ++ .exec j o' :: zs) →
    (sessions cfg).run xs c = some d → d.next (.exec i o : Step) = some (t,.delete id,o) →
    o.reaches = true → d.threads[j]? = some v → (loadedData id v.trace).isSome = true →
    (sessions cfg).run (xs ++ .exec i o :: ys) c = some e →
    e.next (.exec j o' : Step) = some (u,.save id data ttl,o') → o'.reaches = false

structure Unmixed (c : Requests) : Prop where
  meets : Machine.ThreadsMeet order (fun _ => anyEnd) c
  presented : ∀ t ∈ c.threads, ∀ id ans, ⟨.load id,ans⟩ ∈ t.trace → id ∈ c.shared.presented
  fresh : ∀ t ∈ c.threads, ∀ id ans, ⟨.load id,ans⟩ ∈ t.trace →
    ⟨.generateSessionID,.ok id⟩ ∉ t.trace

theorem exec_presented {s s' : Shared} {op : Op} {o : Outcome} {ans : Ans op}
    (h : exec s op o = some (ans,s')) :
    s.presented ⊆ s'.presented ∧ ∀ id, op = .load id → id ∈ s'.presented := by
  cases op with
  | load id =>
    cases o <;> cases h <;> exact ⟨List.subset_cons_self _ _,fun id' heq => by
      cases heq
      exact List.mem_cons_self⟩
  | generateSessionID =>
    cases o with
    | drew id =>
      simp only [exec] at h
      split_ifs at h
      cases h
      exact ⟨fun _ h => h,by simp⟩
    | lostRequest e => cases h; exact ⟨fun _ h => h,by simp⟩
    | done | lostReply e => cases h
  | next => cases h; exact ⟨fun _ h => h,by simp⟩
  | touch id ttl | save id data ttl | delete id =>
    cases o <;> cases h <;> exact ⟨fun _ h => h,by simp⟩

section Steps

variable {cfg : Cfg} {c c' : Requests}

theorem unmixed_exec (h : Unmixed c) {i : ℕ} {o : Outcome} {t : Served} {op : Op}
    {k : Ans op → M Result} {ans : Ans op} {s' : Shared} (ht : c.threads[i]? = some t)
    (hrest : t.rest = .call op k) (hx : exec c.shared op o = some (ans,s'))
    (hmeets : Machine.ThreadsMeet order (fun _ => anyEnd)
      (⟨s',c.threads.set i { t with rest := k ans, trace := ⟨op,ans⟩ :: t.trace }⟩ : Requests)) :
    Unmixed ⟨s',c.threads.set i { t with rest := k ans, trace := ⟨op,ans⟩ :: t.trace }⟩ := by
  have hmem := List.mem_of_getElem? ht
  have hgrow := exec_presented hx
  have hpre := h.meets t hmem
  rw [hrest,Prog.meets_call] at hpre
  refine ⟨hmeets,?_,?_⟩
  · refine Machine.forall_mem_set (fun u hu id ans' hl => hgrow.1 (h.presented u hu id ans' hl)) ?_
    intro id ans' hl
    rcases List.mem_cons.mp hl with heq | hl
    · cases heq
      exact hgrow.2 id rfl
    · exact hgrow.1 (h.presented t hmem id ans' hl)
  · refine Machine.forall_mem_set h.fresh ?_
    intro id ans' hl hdrawn
    rcases List.mem_cons.mp hl with heq | hold
    · cases heq
      rw [hpre.1.1] at hdrawn
      simp at hdrawn
    · rcases List.mem_cons.mp hdrawn with heq | hdrawn
      · cases heq
        exact (drawn_fresh hx).2 (h.presented t hmem id ans' hold)
      · exact h.fresh t hmem id ans' hold hdrawn

theorem unmixed_step {a : Step} (h : Unmixed c) (hs : (sessions cfg).step c a = some c') :
    Unmixed c' := by
  have hmeets : Machine.ThreadsMeet order (fun _ => anyEnd) c' :=
    h.meets.step (m := sessions cfg) (fun r => meets_middleware _ r)
      (fun r _ _ _ _ _ hx => order_answers r hx) hs
  obtain ⟨r,rfl,rfl⟩ | ⟨i,o,t,op,k,ans,s',rfl,ht,halive,hrest,hx,rfl⟩ | ⟨i,t,rfl,ht,rfl⟩ |
    ⟨e,rfl,rfl⟩ := (sessions cfg).step_cases hs
  · refine ⟨hmeets,fun t ht => ?_,fun t ht => ?_⟩ <;>
      rcases List.mem_append.mp ht with ht | ht
    · exact h.presented t ht
    · rw [List.mem_singleton.mp ht]
      simp
    · exact h.fresh t ht
    · rw [List.mem_singleton.mp ht]
      simp
  · exact unmixed_exec h ht hrest hx hmeets
  · have hmem := List.mem_of_getElem? ht
    exact ⟨hmeets,Machine.forall_mem_set h.presented (h.presented t hmem),
      Machine.forall_mem_set h.fresh (h.fresh t hmem)⟩
  · exact ⟨hmeets,h.presented,h.fresh⟩

theorem unmixed_run {acts : List Step} {clock : Time} {lastInstant : Bool}
    (hrun : (sessions cfg).run acts (empty clock lastInstant) = some c') : Unmixed c' :=
  (sessions cfg).run_invariant (I := Unmixed) (P := fun _ _ => True)
    (fun c a c' h _ hs => unmixed_step h hs)
    ⟨by simp [Machine.ThreadsMeet,empty],by simp [empty],by simp [empty]⟩
    ((sessions cfg).along_true acts _) hrun

theorem loadedData_mem {id : String} {tr : Trace} {d : Data} (h : loadedData id tr = some d) :
    ⟨.load id,.ok d⟩ ∈ tr := by
  obtain ⟨ev,hev,heq⟩ := List.exists_of_findSome?_eq_some h
  split at heq
  · split_ifs at heq with hid
    cases heq
    exact hid ▸ hev
  · cases heq

-- a request about to save under an ID it loaded has been pending since it loaded it
theorem pending_of_save (h : Unmixed c) {j : ℕ} {u v : Served} {id : String} {data : Data}
    {ttl : Duration} {k : Except GoError Unit → M Result} (hu : c.threads[j]? = some u)
    (hrest : u.rest = .call (.save id data ttl) k) (hcall : u.call = v.call)
    (htrace : v.trace <:+ u.trace) (halive : v.alive = true)
    (hloaded : (loadedData id v.trace).isSome = true) : pending id v = true := by
  have hmem := List.mem_of_getElem? hu
  have hpre := h.meets u hmem
  rw [hrest,Prog.meets_call] at hpre
  obtain ⟨d,hd⟩ := Option.isSome_iff_exists.mp hloaded
  have hload := htrace.subset (loadedData_mem hd)
  obtain ⟨hsave,_,⟨hdrawn,_⟩ | ⟨_,hrw⟩⟩ := hpre.1
  · exact absurd hdrawn (h.fresh u hmem id _ hload)
  · have hnosave : v.trace.any isSave = false := by
      rw [List.any_eq_false] at hsave ⊢
      exact fun ev hev => hsave ev (htrace.subset hev)
    have hedits := hrw.edits d hload
    rw [hcall] at hedits
    simp only [pending,halive,hnosave,← hcall,hrw.keeps.1,hrw.keeps.2,hd,Option.any_some,
      Bool.not_false,Bool.and_true,Bool.true_and]
    rw [hcall]
    exact hedits

end Steps

theorem deleted_session_stays_deleted (cfg : Cfg) (clock : Time) (lastInstant : Bool)
    (acts : List Step) (h : (sessions cfg).Along (fun c a => deletedAlone c a = true) acts
      (empty clock lastInstant)) : StaysDeleted cfg (empty clock lastInstant) acts := by
  intro xs i o ys j o' zs d e t u v id data ttl hacts hd hdelete ho hv hloaded he hsave
  subst hacts
  have halone := (sessions cfg).along_at h hd
  simp only [deletedAlone,hdelete,ho,Bool.not_true,Bool.false_or,List.all_eq_true,
    Bool.not_eq_true'] at halone
  rw [Machine.run_append,hd,Option.bind_some] at he
  obtain ⟨u',hu',hcall,htrace,halive⟩ := (sessions cfg).run_thread he hv
  obtain ⟨_,hexec,hu,hualive,k,hrest⟩ := Config.of_next hsave
  cases hexec
  rw [hu',Option.some.injEq] at hu
  subst hu
  have hrun : (sessions cfg).run (xs ++ .exec i o :: ys) (empty clock lastInstant) = some e := by
    rw [Machine.run_append,hd,Option.bind_some]
    exact he
  have hpending := pending_of_save (unmixed_run hrun) hu' hrest hcall htrace (halive hualive) hloaded
  rw [halone v (List.mem_of_getElem? hv)] at hpending
  cases hpending

def signIn : List Step :=
  [.start ⟨none,[.set "user" "alice"],none⟩,.exec 0 (.drew "s1"),.exec 0 .done,.exec 0 .done,
    .exec 0 .done]

def signOut : Request := ⟨some "s1",[.destroy,.write],none⟩

def view : Request := ⟨some "s1",[.get "user",.write],none⟩

def addToCart : Request := ⟨some "s1",[.set "cart" "book",.write],none⟩

-- both requests load the session before the first of them deletes it
def overlapping (other : Request) : List Step :=
  signIn ++ ([.start signOut,.start other,.exec 1 .done,.exec 2 .done,.exec 1 .done,.exec 1 .done,
    .exec 2 .done,.exec 2 .done] : List Step)

theorem deleted_session_stays_deleted_while_viewed :
    (sessions enabledConfig).Along (fun c a => deletedAlone c a = true)
      (overlapping view ++ ([.exec 1 .done] : List Step)) (empty 0 true) ∧
    StaysDeleted enabledConfig (empty 0 true) (overlapping view ++ ([.exec 1 .done] : List Step)) :=
  ⟨by decide +kernel,deleted_session_stays_deleted _ _ _ _ (by decide +kernel)⟩

theorem late_save_revives_session :
    ((sessions enabledConfig).run (overlapping addToCart ++ [.exec 1 .done,.exec 2 .done])
      (empty 0 true)).map (fun c => c.shared.store.load "s1") =
        some (.ok [("cart","book"),("user","alice")]) ∧
    ¬ StaysDeleted enabledConfig (empty 0 true)
      (overlapping addToCart ++ [.exec 1 .done,.exec 2 .done]) := by
  refine ⟨by decide +kernel,fun h => ?_⟩
  have hdelete : ((sessions enabledConfig).run (overlapping addToCart) (empty 0 true)).map
      (fun d => ((d.next (.exec 1 .done : Step)).map Prod.snd,
        d.threads[2]?.map fun v => (loadedData "s1" v.trace).isSome)) =
          some (some (.delete "s1",.done),some true) := by decide +kernel
  have hsave : ((sessions enabledConfig).run (overlapping addToCart ++ [.exec 1 .done])
      (empty 0 true)).map (fun e => (e.next (.exec 2 .done : Step)).map Prod.snd) =
        some (some (.save "s1" [("cart","book"),("user","alice")] enabledConfig.ttl,.done)) := by
    decide +kernel
  simp only [Option.map_eq_some_iff,Prod.mk.injEq] at hdelete hsave
  obtain ⟨d,hd,⟨⟨t,op,o⟩,hnext,hop⟩,v,hv,hloaded⟩ := hdelete
  obtain ⟨e,he,⟨u,op',o'⟩,hnext',hop'⟩ := hsave
  cases hop
  cases hop'
  cases h (overlapping addToCart) 1 .done [] 2 .done [] d e t u v "s1" _ _ rfl hd hnext rfl hv
    hloaded he hnext'

end Nimburion.HTTP.Sessions
