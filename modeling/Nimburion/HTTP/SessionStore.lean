import Nimburion.HTTP.Session

namespace Nimburion.HTTP.Sessions
open Interaction GoTime GoText

structure Entry where
  data : Data
  expiresAt : Time
  deriving DecidableEq, Repr

-- at the very instant an entry expires InMemoryStore still returns it and Redis does not
structure Store where
  clock : Time
  lastInstant : Bool
  entries : String → Option Entry

namespace Store

def live (s : Store) (e : Entry) : Bool :=
  s.clock < e.expiresAt || (s.lastInstant && s.clock = e.expiresAt)

def set (s : Store) (id : String) (e : Option Entry) : Store :=
  { s with entries := fun id' => if id' = id then e else s.entries id' }

def load (s : Store) (id : String) : Except LoadErr Data :=
  match (s.entries id).filter s.live with
  | some e => .ok e.data
  | none => .error .notFound

def save (s : Store) (id : String) (data : Data) (ttl : Duration) : Store :=
  s.set id (some ⟨data,s.clock+ttl⟩)

def delete (s : Store) (id : String) : Store := s.set id none

def touch (s : Store) (id : String) (ttl : Duration) : Except LoadErr Unit × Store :=
  match (s.entries id).filter s.live with
  | some e => (.ok (),s.set id (some { e with expiresAt := s.clock+ttl }))
  | none => (.error .notFound,s)

def tick (s : Store) (elapsed : ℕ) : Store := { s with clock := s.clock+elapsed }

@[simp] theorem set_self (s : Store) (id : String) (e : Option Entry) :
    (s.set id e).entries id = e := if_pos rfl

theorem set_of_ne {s : Store} {id id' : String} (h : id ≠ id') (e : Option Entry) :
    (s.set id' e).entries id = s.entries id := if_neg h

theorem load_eq_ok {s : Store} {id : String} {d : Data} (h : s.load id = .ok d) :
    ∃ e, s.entries id = some e ∧ e.data = d ∧ s.live e = true := by
  unfold load at h
  split at h
  · rename_i e he
    rw [Option.filter_eq_some_iff] at he
    cases h
    exact ⟨e,he.1,rfl,he.2⟩
  · cases h

theorem load_of_none {s : Store} {id : String} (h : s.entries id = none) :
    s.load id = .error .notFound := by
  simp [load,h]

theorem load_save {s : Store} {ttl : Duration} (httl : 0 < ttl) (id : String) (data : Data) :
    (s.save id data ttl).load id = .ok data := by
  have hlive : s.clock < s.clock+ttl := Int.lt_add_of_pos_right _ httl
  simp [load,save,set,live,Option.filter,hlive]

theorem load_delete (s : Store) (id : String) : (s.delete id).load id = .error .notFound :=
  load_of_none (by simp [delete,set])

theorem load_set_of_ne {s : Store} {id id' : String} (h : id ≠ id') (e : Option Entry) :
    (s.set id' e).load id = s.load id := by
  unfold load
  rw [set_of_ne h]
  rfl

theorem touch_entries (s : Store) (id : String) (ttl : Duration) (id' : String) :
    (s.touch id ttl).2.entries id' = s.entries id' ∨
      ∃ e, s.entries id = some e ∧ id' = id ∧
        (s.touch id ttl).2.entries id' = some { e with expiresAt := s.clock+ttl } := by
  unfold touch
  split
  · rename_i e he
    rw [Option.filter_eq_some_iff] at he
    by_cases hid : id' = id
    · exact .inr ⟨e,he.1,hid,by simp [set,hid]⟩
    · exact .inl (by simp [set,hid])
  · exact .inl rfl

theorem touch_none {s : Store} {id : String} (h : s.entries id = none) (id' : String)
    (ttl : Duration) : (s.touch id' ttl).2.entries id = none := by
  rcases s.touch_entries id' ttl id with heq | ⟨e,he,rfl,_⟩
  · rw [heq,h]
  · rw [h] at he
    cases he

end Store

-- `issued` and `presented` are the IDs generateSessionID has returned and clients have sent
structure Shared where
  store : Store
  issued : List String
  presented : List String

inductive Outcome where
  | done
  | drew (id : String)
  | lostRequest (e : GoError)
  | lostReply (e : GoError)
  deriving DecidableEq, Repr

def Outcome.reaches : Outcome → Bool
  | .done | .lostReply _ => true
  | _ => false

-- 32 bytes of crypto/rand are no ID that was drawn or sent before
def fresh (s : Shared) (id : String) : Bool := id ≠ "" && id ∉ s.issued && id ∉ s.presented

def exec (s : Shared) (op : Op) (o : Outcome) : Option (Ans op × Shared) :=
  match op with
  | .load id => match o with
      | .done => some (s.store.load id,{ s with presented := id :: s.presented })
      | .lostRequest e | .lostReply e =>
          some (.error (.other e),{ s with presented := id :: s.presented })
      | .drew _ => none
  | .generateSessionID => match o with
      | .drew id => if fresh s id then some (.ok id,{ s with issued := id :: s.issued }) else none
      | .lostRequest e => some (.error e,s)
      | _ => none
  | .touch id ttl => match o with
      | .done => some ((s.store.touch id ttl).1,{ s with store := (s.store.touch id ttl).2 })
      | .lostRequest e => some (.error (.other e),s)
      | .lostReply e => some (.error (.other e),{ s with store := (s.store.touch id ttl).2 })
      | .drew _ => none
  | .next => some ((),s)
  | .save id data ttl => match o with
      | .done => some (.ok (),{ s with store := s.store.save id data ttl })
      | .lostRequest e => some (.error e,s)
      | .lostReply e => some (.error e,{ s with store := s.store.save id data ttl })
      | .drew _ => none
  | .delete id => match o with
      | .done => some (.ok (),{ s with store := s.store.delete id })
      | .lostRequest e => some (.error e,s)
      | .lostReply e => some (.error e,{ s with store := s.store.delete id })
      | .drew _ => none

def sessions (cfg : Cfg) : Machine Ans GoError Shared Request Result Outcome ℕ where
  program := middleware (normalizeConfig cfg)
  exec := exec
  env := fun s elapsed => { s with store := s.store.tick elapsed }

abbrev Requests := Config Ans GoError Shared Request Result

abbrev Served := Thread Ans GoError Request Result

abbrev Step := Action Request Outcome ℕ

abbrev Trace := List (Event Ans)

def enabledConfig : Cfg := { defaultConfig with enabled := true, hasStore := true }

def empty (clock : Time) (lastInstant : Bool) : Requests :=
  ⟨⟨⟨clock,lastInstant,fun _ => none⟩,[],[]⟩,[]⟩

def isSave : Event Ans → Bool
  | ⟨.save ..,_⟩ => true
  | _ => false

def isDelete : Event Ans → Bool
  | ⟨.delete _,_⟩ => true
  | _ => false

-- what a request that keeps its cookie's ID has done when it saves under it
structure Rewrites (r : Request) (tr : Trace) (id : String) : Prop where
  cookie : readSessionID r = id
  keeps : renews r.calls = false ∧ destroys r.calls = false
  edits : ∀ d, ⟨.load id,.ok d⟩ ∈ tr → edits d r.calls = true
  sets : (∃ d, ⟨.load id,.ok d⟩ ∈ tr) ∨ r.calls.any Call.sets = true

def order (r : Request) : Spec Ans where
  pre tr op := match op with
    | .load id => tr = [] ∧ id = readSessionID r ∧ id ≠ ""
    | .save id _ _ => tr.any isSave = false ∧ tr.any isDelete = false ∧
        ((⟨.generateSessionID,.ok id⟩ ∈ tr ∧ (readSessionID r = "" ∨ renews r.calls = true)) ∨
          (id ≠ "" ∧ Rewrites r tr id))
    | .delete id => id = readSessionID r ∧ (destroys r.calls = true ∨ renews r.calls = true)
    | _ => True
  ans op ans := match op, ans with
    | .generateSessionID, .ok id => id ≠ ""
    | _, _ => True

theorem drawn_fresh {s s' : Shared} {o : Outcome} {id : String}
    (h : exec s .generateSessionID o = some (.ok id,s')) : id ≠ "" ∧ id ∉ s.presented := by
  cases o with
  | drew id' =>
    simp only [exec] at h
    split_ifs at h with hfresh
    cases h
    simp only [fresh,Bool.and_eq_true,decide_eq_true_eq] at hfresh
    exact ⟨hfresh.1.1,hfresh.2⟩
  | lostRequest e => cases h
  | done | lostReply e => cases h

theorem order_answers (r : Request) {s s' : Shared} {op : Op} {o : Outcome} {ans : Ans op}
    (h : exec s op o = some (ans,s')) : (order r).ans op ans := by
  cases op <;> try trivial
  cases ans with
  | error e => trivial
  | ok id => exact (drawn_fresh h).1

abbrev anyEnd {α : Type} : Trace → Except GoError α → Prop := fun _ _ => True

-- before commit nothing was saved or deleted
def untouched (tr : Trace) : Prop := tr.any isSave = false ∧ tr.any isDelete = false

section Order

variable {cfg : Cfg} {r : Request} {tr : Trace} {x : Exchange}

structure Commits (r : Request) (tr : Trace) (x : Exchange) : Prop where
  renews : x.session.renewed = true → renews r.calls = true
  destroys : x.session.destroyed = true → destroys r.calls = true
  blank : x.session.id = "" → readSessionID r = ""
  keeps : x.session.id ≠ "" → x.session.dirty = true → x.session.renewed = false →
    x.session.destroyed = false →
    (⟨.generateSessionID,.ok x.session.id⟩ ∈ tr ∧ readSessionID r = "") ∨
      Rewrites r tr x.session.id

theorem meets_deleteID {post : Trace → Except GoError Unit → Prop}
    (hfrom : destroys r.calls = true ∨ renews r.calls = true)
    (hpost : ∀ tr', post tr' (.ok ())) :
    Prog.Meets (order r) post tr (deleteID (readSessionID r)) := by
  simp only [deleteID,Prog.meets_bind,Prog.meets_perform,Prog.meets_pure]
  exact ⟨⟨rfl,hfrom⟩,fun _ _ => hpost _⟩

theorem meets_generateID {post : Trace → Except GoError String → Prop}
    (herr : ∀ tr' e, post tr' (.error e))
    (hok : ∀ id, post (⟨.generateSessionID,.ok id⟩ :: tr) (.ok id)) :
    Prog.Meets (order r) post tr generateID := by
  simp only [generateID,Prog.meets_bind,Prog.meets_perform]
  refine ⟨trivial,?_⟩
  rintro (e | id) _
  · exact herr _ e
  · exact hok id

-- the ID a commit saves under
def Target (r : Request) (x : Exchange) (tr : Trace) : Except GoError String → Prop
  | .ok id => untouched tr ∧ ((x.session.dirty = true ∨ x.session.renewed = true) →
      (⟨.generateSessionID,.ok id⟩ ∈ tr ∧ (readSessionID r = "" ∨ renews r.calls = true)) ∨
        (id ≠ "" ∧ Rewrites r tr id))
  | .error _ => True

theorem meets_targetID (h : Commits r tr x) (hclean : untouched tr)
    (hkept : x.session.destroyed = false) :
    Prog.Meets (order r) (Target r x) tr
      (currentID x.session >>= fun id => renewedID x.session id) := by
  have hdraw : ∀ tr', untouched tr' → (readSessionID r = "" ∨ renews r.calls = true) →
      Prog.Meets (order r) (Target r x) tr' generateID := fun tr' hclean' hfrom =>
    meets_generateID (fun _ _ => trivial) fun id =>
      ⟨hclean',fun _ => .inl ⟨List.mem_cons_self,hfrom⟩⟩
  simp only [Prog.meets_bind,currentID]
  split_ifs with hid
  · refine meets_generateID (fun _ _ => trivial) fun id => ?_
    simp only [renewedID]
    split_ifs with hren
    · exact hdraw _ hclean (.inr (h.renews hren))
    · exact ⟨hclean,fun _ => .inl ⟨List.mem_cons_self,.inl (h.blank hid)⟩⟩
  · simp only [Prog.meets_pure,renewedID]
    split_ifs with hren
    · exact hdraw _ hclean (.inr (h.renews hren))
    · refine ⟨hclean,fun hsave => ?_⟩
      have hdirty : x.session.dirty = true := hsave.resolve_right hren
      obtain ⟨hdrawn,hcookie⟩ | hrw := h.keeps hid hdirty (by simpa using hren) hkept
      · exact .inl ⟨hdrawn,.inl hcookie⟩
      · exact .inr ⟨hid,hrw⟩

theorem meets_saveData {targetID : String} {post : Trace → Except GoError Unit → Prop}
    (h : Target r x tr (.ok targetID)) (herr : ∀ tr' e, post tr' (.error e))
    (hpost : ∀ tr', post tr' (.ok ())) :
    Prog.Meets (order r) post tr (saveData cfg x.session targetID) := by
  simp only [saveData]
  split_ifs with hsave
  · simp only [Prog.meets_bind,Prog.meets_perform]
    refine ⟨⟨h.1.1,h.1.2,h.2 hsave⟩,?_⟩
    rintro (e | _) _
    · exact herr _ e
    · exact hpost _
  · exact hpost _

theorem meets_deletePrevious (h : Commits r tr x) {tr' : Trace} {targetID : String}
    {post : Trace → Except GoError Unit → Prop} (hpost : ∀ tr', post tr' (.ok ())) :
    Prog.Meets (order r) post tr' (deletePrevious x.session (readSessionID r) targetID) := by
  simp only [deletePrevious]
  split_ifs with hprevious
  · exact meets_deleteID (.inr (h.renews hprevious.1)) hpost
  · exact hpost _

theorem meets_commit (h : Commits r tr x) (hclean : untouched tr) :
    Prog.Meets (order r) anyEnd tr (commit cfg (readSessionID r) x) := by
  unfold commit
  split
  · trivial
  · split_ifs with hdestroyed _ hidle
    · rw [Prog.meets_bind]
      exact meets_deleteID (.inl (h.destroys hdestroyed)) fun _ => trivial
    · trivial
    · trivial
    · have htarget := meets_targetID h hclean (by simpa using hdestroyed)
      simp only [Prog.meets_bind] at htarget ⊢
      refine Prog.meets_mono ?_ htarget
      rintro tr₁ (e | id) hcurrent
      · trivial
      · refine Prog.meets_mono ?_ hcurrent
        rintro tr₂ (e | targetID) hid
        · trivial
        · refine meets_saveData hid (fun _ _ => trivial) fun tr₃ => ?_
          exact meets_deletePrevious h fun _ => trivial

def isLoad : Event Ans → Bool
  | ⟨.load _,_⟩ => true
  | _ => false

theorem loaded_cons {ev : Event Ans} (hev : isLoad ev = false) {id : String} {d : Data} :
    (⟨.load id,.ok d⟩ : Event Ans) ∈ ev :: tr ↔ ⟨.load id,.ok d⟩ ∈ tr := by
  rw [List.mem_cons,or_iff_right_iff_imp]
  rintro rfl
  cases hev

theorem Rewrites.cons {id : String} {ev : Event Ans} (h : Rewrites r tr id)
    (hev : isLoad ev = false) : Rewrites r (ev :: tr) id where
  cookie := h.cookie
  keeps := h.keeps
  edits := fun d hd => h.edits d ((loaded_cons hev).mp hd)
  sets := h.sets.imp_left fun ⟨d,hd⟩ => ⟨d,List.mem_cons_of_mem _ hd⟩

theorem Commits.cons {ev : Event Ans} (h : Commits r tr x) (hev : isLoad ev = false) :
    Commits r (ev :: tr) x where
  renews := h.renews
  destroys := h.destroys
  blank := h.blank
  keeps := fun hid hdirty hren hdes => (h.keeps hid hdirty hren hdes).imp
    (fun hdrawn => ⟨List.mem_cons_of_mem _ hdrawn.1,hdrawn.2⟩) fun hrw => hrw.cons hev

theorem meets_touchSession {id : String} {post : Trace → Except GoError Unit → Prop}
    (htouched : ∀ ttl ans, post (⟨.touch id ttl,ans⟩ :: tr) (.ok ())) (hskip : post tr (.ok ())) :
    Prog.Meets (order r) post tr (touchSession cfg id) := by
  simp only [touchSession]
  split_ifs
  · simp only [Prog.meets_bind,Prog.meets_perform,Prog.meets_pure]
    exact ⟨trivial,fun ans _ => htouched _ ans⟩
  · exact hskip

def Handled (r : Request) (tr : Trace) : Except GoError Exchange → Prop
  | .ok x => Commits r tr x ∧ untouched tr
  | .error _ => True

theorem meets_withSession {s : Session} {F : Trace → Prop}
    (hquiet : ∀ ev tr, isLoad ev = false → F tr → F (ev :: tr))
    (hhandler : ∀ tr, F tr → untouched tr →
      Prog.Meets (order r) (Handled r) tr (handler r.calls ⟨s,announced s.id⟩))
    (hF : F tr) (hclean : untouched tr) :
    Prog.Meets (order r) anyEnd tr (withSession cfg r s) := by
  have hnext : ∀ tr, F tr → untouched tr → Prog.Meets (order r) (anyEnd (α := Result)) tr
      (Prog.perform Op.next >>= fun _ => handler r.calls ⟨s,announced s.id⟩ >>= fun x =>
        Prog.attempt (commit cfg (readSessionID r) x) >>= fun z => pure (conclude r x z)) := by
    intro tr hF hclean
    simp only [Prog.meets_bind,Prog.meets_perform,Prog.meets_attempt,Prog.meets_pure]
    refine ⟨trivial,fun _ _ => Prog.meets_mono ?_ (hhandler _ (hquiet _ _ rfl hF) hclean)⟩
    rintro tr' (e | x) hx
    · trivial
    · exact meets_commit hx.1 hx.2
  rw [withSession,Prog.meets_bind]
  exact meets_touchSession (fun ttl ans => hnext _ (hquiet _ _ rfl hF) hclean) (hnext _ hF hclean)

theorem renews_of_mem {calls : List Call} (h : .renew ∈ calls) : renews calls = true :=
  List.any_eq_true.mpr ⟨_,h,by simp⟩

theorem destroys_of_mem {calls : List Call} (h : .destroy ∈ calls) : destroys calls = true :=
  List.any_eq_true.mpr ⟨_,h,by simp⟩

theorem sets_of_edits_nil {calls : List Call} (h : edits [] calls = true)
    (hren : renews calls = false) (hdes : destroys calls = false) :
    calls.any Call.sets = true := by
  obtain ⟨c,hc,hedit⟩ := List.any_eq_true.mp h
  refine List.any_eq_true.mpr ⟨c,hc,?_⟩
  cases c with
  | get key => exact hedit
  | set key value => exact hedit
  | delete key => cases hedit
  | renew => rw [renews_of_mem hc] at hren; cases hren
  | destroy => rw [destroys_of_mem hc] at hdes; cases hdes
  | write => exact hedit

theorem commits_cookie {data : Data} {p : Response}
    (hfound : ∀ d, ⟨.load (readSessionID r),.ok d⟩ ∈ tr → d = data)
    (hsets : ⟨.load (readSessionID r),.ok data⟩ ∈ tr ∨ data = []) :
    Commits r tr (applied r.calls ⟨newSession (readSessionID r) data false,p⟩) where
  renews := by simp [newSession]
  destroys := by simp [newSession]
  blank := by simp [newSession]
  keeps := by
    simp only [applied_id,applied_dirty,applied_renewed,applied_destroyed,newSession,
      Bool.false_or]
    intro _ hdirty hren hdes
    refine .inr ⟨rfl,⟨hren,hdes⟩,fun d hd => (hfound d hd).symm ▸ hdirty,?_⟩
    refine hsets.imp (fun hdata => ⟨data,hdata⟩) fun hnil => ?_
    exact sets_of_edits_nil (hnil ▸ hdirty) hren hdes

theorem commits_created {id : String} {p : Response} (hcookie : readSessionID r = "")
    (hdrawn : ⟨.generateSessionID,.ok id⟩ ∈ tr) :
    Commits r tr (applied r.calls ⟨newSession id [] true,p⟩) where
  renews := by simp [newSession]
  destroys := by simp [newSession]
  blank := fun _ => hcookie
  keeps := fun _ _ _ _ => .inl ⟨by simpa [newSession] using hdrawn,hcookie⟩

structure Draft (r : Request) (tr : Trace) (x : Exchange) : Prop where
  cookie : readSessionID r = ""
  drawn : x.session.id ≠ "" → ⟨.generateSessionID,.ok x.session.id⟩ ∈ tr
  renews : x.session.renewed = true → renews r.calls = true
  destroys : x.session.destroyed = true → destroys r.calls = true

theorem Draft.commits (h : Draft r tr x) : Commits r tr x where
  renews := h.renews
  destroys := h.destroys
  blank := fun _ => h.cookie
  keeps := fun hid _ _ _ => .inl ⟨h.drawn hid,h.cookie⟩

def Drafted (r : Request) (tr : Trace) : Except GoError Exchange → Prop
  | .ok x => Draft r tr x ∧ untouched tr
  | .error _ => True

theorem meets_ensureID (h : Draft r tr x) (hclean : untouched tr) :
    Prog.Meets (order r) (Drafted r) tr (ensureID x) := by
  simp only [ensureID]
  split_ifs with hid
  · exact ⟨h,hclean⟩
  · simp only [Prog.meets_bind,Prog.meets_perform]
    refine ⟨trivial,?_⟩
    rintro (e | id) _
    · exact ⟨⟨h.cookie,fun hne => List.mem_cons_of_mem _ (h.drawn hne),h.renews,h.destroys⟩,hclean⟩
    · simp only [onCreate,Prog.meets_pure]
      split_ifs <;>
        exact ⟨⟨h.cookie,fun _ => List.mem_cons_self,h.renews,h.destroys⟩,hclean⟩

theorem meets_handle (h : Draft r tr x) (hclean : untouched tr) {c : Call} (hc : c ∈ r.calls) :
    Prog.Meets (order r) (Drafted r) tr (handle x c) := by
  cases c with
  | get key => exact ⟨h,hclean⟩
  | set key value =>
    simp only [handle]
    split_ifs
    · exact ⟨h,hclean⟩
    · rw [Prog.meets_bind]
      refine Prog.meets_mono ?_ (meets_ensureID h hclean)
      rintro tr' (e | y) hy
      · trivial
      · dsimp only
        split_ifs
        · exact hy
        · exact ⟨⟨h.cookie,hy.1.drawn,hy.1.renews,hy.1.destroys⟩,hy.2⟩
  | delete key =>
    simp only [handle]
    split_ifs
    · exact ⟨⟨h.cookie,h.drawn,h.renews,h.destroys⟩,hclean⟩
    · exact ⟨h,hclean⟩
  | renew =>
    simp only [handle]
    rw [Prog.meets_bind]
    refine Prog.meets_mono ?_ (meets_ensureID h hclean)
    rintro tr' (e | y) hy
    · trivial
    · dsimp only
      split_ifs
      · exact hy
      · exact ⟨⟨h.cookie,hy.1.drawn,fun _ => renews_of_mem hc,hy.1.destroys⟩,hy.2⟩
  | destroy => exact ⟨⟨h.cookie,h.drawn,h.renews,fun _ => destroys_of_mem hc⟩,hclean⟩
  | write => exact ⟨⟨h.cookie,h.drawn,h.renews,h.destroys⟩,hclean⟩

theorem meets_handler (h : Draft r tr x) (hclean : untouched tr) {calls : List Call}
    (hcalls : ∀ c ∈ calls, c ∈ r.calls) :
    Prog.Meets (order r) (Drafted r) tr (handler calls x) := by
  induction calls generalizing tr x with
  | nil => exact ⟨h,hclean⟩
  | cons c calls ih =>
    rw [handler,Prog.meets_bind]
    refine Prog.meets_mono ?_ (meets_handle h hclean (hcalls c List.mem_cons_self))
    rintro tr' (e | y) hy
    · trivial
    · exact ih hy.1 hy.2 fun d hd => hcalls d (List.mem_cons_of_mem c hd)

end Order

theorem meets_middleware (cfg : Cfg) (r : Request) :
    Prog.Meets (order r) anyEnd [] (middleware cfg r) := by
  have hnamed : ∀ {tr : Trace} (s : Session), s.id ≠ "" → s.createErr = none → untouched tr →
      Commits r tr (applied r.calls ⟨s,announced s.id⟩) →
      Prog.Meets (order r) anyEnd tr (withSession cfg r s) := by
    intro tr s hid herr hclean hcommits
    refine meets_withSession (F := fun tr' => Commits r tr' (applied r.calls ⟨s,announced s.id⟩))
      (fun _ _ hev h => h.cons hev) ?_ hcommits hclean
    intro tr' hcommits' hclean'
    rw [handler_named r.calls ⟨hid,herr⟩]
    exact ⟨hcommits',hclean'⟩
  unfold middleware
  split_ifs with hoff hcookie hauto
  · simp only [Prog.meets_bind,Prog.meets_perform,Prog.meets_pure]
    exact ⟨trivial,fun _ _ => trivial⟩
  · simp only [Prog.meets_bind,Prog.meets_perform]
    refine ⟨⟨rfl,rfl,hcookie⟩,?_⟩
    rintro ((_ | e) | data) _
    · exact hnamed _ hcookie rfl ⟨rfl,rfl⟩ (commits_cookie (by simp) (.inr rfl))
    · trivial
    · exact hnamed _ hcookie rfl ⟨rfl,rfl⟩ (commits_cookie (by simp) (.inl (by simp)))
  · simp only [Prog.meets_bind,Prog.meets_perform]
    refine ⟨trivial,?_⟩
    rintro (e | id) hid
    · trivial
    · exact hnamed _ hid rfl ⟨rfl,rfl⟩
        (commits_created (Classical.not_not.mp hcookie) List.mem_cons_self)
  · refine meets_withSession (F := fun _ => True) (fun _ _ _ h => h) ?_ trivial ⟨rfl,rfl⟩
    intro tr _ hclean
    refine Prog.meets_mono ?_ (meets_handler (x := ⟨newSession "" [] false,announced ""⟩)
      ⟨Classical.not_not.mp hcookie,fun h => absurd rfl h,by simp [newSession],by simp [newSession]⟩
      hclean fun _ hc => hc)
    rintro tr' (e | x) hx
    · trivial
    · exact ⟨hx.1.commits,hx.2⟩

end Nimburion.HTTP.Sessions
