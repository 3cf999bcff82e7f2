import Nimburion.HTTP.SessionStore

namespace Nimburion.HTTP.Sessions
open Interaction GoTime GoText

def Issued (s : Shared) : Prop := ∀ id, s.store.entries id ≠ none → id ∈ s.issued

def IssuedAfter (cfg : Cfg) (c : Requests) (a : Step) : Prop :=
  ∀ c', (sessions cfg).step c a = some c' → Issued c'.shared

def plants (calls : List Call) : Bool := calls.any Call.sets && !renews calls && !destroys calls

-- no request that came with an ID generateSessionID never returned stores values under it
def unplanted (c : Requests) (a : Step) : Bool :=
  match c.next a with
  | some (t,.save ..,o) => !o.reaches || readSessionID t.call = "" ||
      readSessionID t.call ∈ c.shared.issued || !plants t.call.calls
  | _ => true

def Known (s : Shared) (ev : Event Ans) : Prop :=
  ∀ id, (ev = ⟨.generateSessionID,.ok id⟩ ∨ ∃ d, ev = ⟨.load id,.ok d⟩) → id ∈ s.issued

structure Vouched (c : Requests) : Prop where
  issued : Issued c.shared
  meets : Machine.ThreadsMeet order (fun _ => anyEnd) c
  known : ∀ t ∈ c.threads, ∀ ev ∈ t.trace, Known c.shared ev

section Steps

variable {s s' : Shared} {op : Op} {o : Outcome} {ans : Ans op}

theorem exec_issued (h : exec s op o = some (ans,s')) : s.issued ⊆ s'.issued := by
  cases op with
  | generateSessionID =>
    cases o with
    | drew id =>
      simp only [exec] at h
      split_ifs at h
      cases h
      exact List.subset_cons_self _ _
    | lostRequest e => cases h; exact fun _ h => h
    | done | lostReply e => cases h
  | next => cases h; exact fun _ h => h
  | load id | touch id ttl | save id data ttl | delete id =>
    cases o <;> cases h <;> exact fun _ h => h

theorem touch_stored {st : Store} {id id' : String} {ttl : Duration}
    (h : (st.touch id ttl).2.entries id' ≠ none) : st.entries id' ≠ none := by
  rcases st.touch_entries id ttl id' with heq | ⟨e,he,rfl,_⟩
  · rwa [heq] at h
  · simp [he]

theorem save_issued (h : Issued s) {id : String} (hid : id ∈ s.issued) (data : Data)
    (ttl : Duration) : Issued { s with store := s.store.save id data ttl } := by
  intro id' hid'
  by_cases heq : id' = id
  · exact heq ▸ hid
  · exact h id' (by simpa [Store.save,Store.set,heq] using hid')

theorem delete_issued (h : Issued s) (id : String) :
    Issued { s with store := s.store.delete id } := by
  intro id' hid'
  by_cases heq : id' = id
  · simp [Store.delete,Store.set,heq] at hid'
  · exact h id' (by simpa [Store.delete,Store.set,heq] using hid')

theorem touch_issued (h : Issued s) (id : String) (ttl : Duration) :
    Issued { s with store := (s.store.touch id ttl).2 } :=
  fun id' hid' => h id' (touch_stored hid')

theorem issued_exec (h : Issued s)
    (hsave : ∀ id data ttl, op = .save id data ttl → o.reaches = true → id ∈ s.issued)
    (hx : exec s op o = some (ans,s')) : Issued s' := by
  cases op with
  | load id => cases o <;> cases hx <;> exact h
  | generateSessionID =>
    cases o with
    | drew id =>
      simp only [exec] at hx
      split_ifs at hx
      cases hx
      exact fun id' hid' => List.mem_cons_of_mem _ (h id' hid')
    | lostRequest e => cases hx; exact h
    | done | lostReply e => cases hx
  | touch id ttl =>
    cases o with
    | done | lostReply e => cases hx; exact touch_issued h id ttl
    | lostRequest e => cases hx; exact h
    | drew id' => cases hx
  | next => cases hx; exact h
  | save id data ttl =>
    cases o with
    | done | lostReply e => cases hx; exact save_issued h (hsave id data ttl rfl rfl) data ttl
    | lostRequest e => cases hx; exact h
    | drew id' => cases hx
  | delete id =>
    cases o with
    | done | lostReply e => cases hx; exact delete_issued h id
    | lostRequest e => cases hx; exact h
    | drew id' => cases hx

theorem known_exec (h : Issued s) (hx : exec s op o = some (ans,s')) : Known s' ⟨op,ans⟩ := by
  rintro id (heq | ⟨d,heq⟩)
  · cases heq
    cases o with
    | drew id' =>
      simp only [exec] at hx
      split_ifs at hx
      cases hx
      exact List.mem_cons_self
    | lostRequest e => cases hx
    | done | lostReply e => cases hx
  · cases heq
    cases o with
    | done =>
      simp only [exec,Option.some.injEq,Prod.mk.injEq] at hx
      obtain ⟨e,he,_⟩ := Store.load_eq_ok hx.1
      rw [← hx.2]
      exact h id (by simp [he])
    | lostRequest e | lostReply e | drew id' => cases hx

end Steps

section Runs

variable {cfg : Cfg} {c c' : Requests}

theorem target_issued (h : Vouched c) {i : ℕ} {o : Outcome} {t : Served} {id : String}
    {data : Data} {ttl : Duration} {k : Except GoError Unit → M Result}
    (ht : c.threads[i]? = some t) (halive : t.alive = true)
    (hrest : t.rest = .call (.save id data ttl) k) (ho : o.reaches = true)
    (hun : unplanted c (.exec i o) = true) : id ∈ c.shared.issued := by
  have hmem := List.mem_of_getElem? ht
  have hmeets := h.meets t hmem
  rw [hrest,Prog.meets_call] at hmeets
  obtain ⟨_,_,⟨hdrawn,_⟩ | ⟨hne,hrw⟩⟩ := hmeets.1
  · exact h.known t hmem _ hdrawn id (.inl rfl)
  · simp only [unplanted,Config.next_exec ht halive hrest,ho,hrw.cookie,plants,hrw.keeps.1,
      hrw.keeps.2,Bool.or_eq_true,Bool.not_eq_true',decide_eq_true_eq,Bool.not_false,
      Bool.and_true] at hun
    rcases hun with ((hun | hun) | hun) | hun
    · cases hun
    · exact absurd hun hne
    · exact hun
    · obtain ⟨d,hd⟩ := hrw.sets.resolve_right (by simp [hun])
      exact h.known t hmem _ hd id (.inr ⟨d,rfl⟩)

theorem vouched_step {a : Step} (h : Vouched c) (hun : unplanted c a = true)
    (hs : (sessions cfg).step c a = some c') : Vouched c' := by
  have hmeets : Machine.ThreadsMeet order (fun _ => anyEnd) c' :=
    h.meets.step (m := sessions cfg) (fun r => meets_middleware _ r)
      (fun r _ _ _ _ _ hx => order_answers r hx) hs
  obtain ⟨r,rfl,rfl⟩ | ⟨i,o,t,op,k,ans,s',rfl,ht,halive,hrest,hx,rfl⟩ | ⟨i,t,rfl,ht,rfl⟩ |
    ⟨e,rfl,rfl⟩ := (sessions cfg).step_cases hs
  · refine ⟨h.issued,hmeets,fun t ht => ?_⟩
    rcases List.mem_append.mp ht with ht | ht
    · exact h.known t ht
    · rw [List.mem_singleton.mp ht]
      simp
  · have hx' : exec c.shared op o = some (ans,s') := hx
    have hissued : Issued s' := issued_exec h.issued (fun id data ttl hop ho => by
      subst hop
      exact target_issued h ht halive hrest ho hun) hx'
    have hgrow : ∀ ev, Known c.shared ev → Known s' ev := fun ev hev id hid =>
      exec_issued hx' (hev id hid)
    refine ⟨hissued,hmeets,Machine.forall_mem_set (fun u hu ev hev => hgrow ev (h.known u hu ev hev)) ?_⟩
    intro ev hev
    rcases List.mem_cons.mp hev with rfl | hev
    · exact known_exec h.issued hx'
    · exact hgrow ev (h.known t (List.mem_of_getElem? ht) ev hev)
  · exact ⟨h.issued,hmeets,Machine.forall_mem_set h.known (h.known t (List.mem_of_getElem? ht))⟩
  · exact ⟨h.issued,hmeets,h.known⟩

theorem issuedAfter_iff {a : Step} (h : Vouched c) :
    IssuedAfter cfg c a ↔ unplanted c a = true := by
  refine ⟨fun hafter => ?_,fun hun c' hs => (vouched_step h hun hs).issued⟩
  unfold unplanted
  split
  · rename_i t id data ttl o hnext
    obtain ⟨i,rfl,ht,halive,k,hrest⟩ := Config.of_next hnext
    have hmeets := h.meets t (List.mem_of_getElem? ht)
    rw [hrest,Prog.meets_call] at hmeets
    simp only [Bool.or_eq_true,Bool.not_eq_true',decide_eq_true_eq]
    by_contra hcon
    simp only [not_or,Bool.not_eq_false] at hcon
    obtain ⟨⟨⟨ho,hcookie⟩,hnot⟩,hplants⟩ := hcon
    simp only [plants,Bool.and_eq_true,Bool.not_eq_true'] at hplants
    obtain ⟨_,_,⟨_,hfrom | hren⟩ | ⟨_,hrw⟩⟩ := hmeets.1
    · exact hcookie hfrom
    · rw [hplants.1.2] at hren
      cases hren
    · have hstored : ∃ ans, exec c.shared (.save id data ttl) o =
          some (ans,{ c.shared with store := c.shared.store.save id data ttl }) := by
        cases o with
        | done => exact ⟨_,rfl⟩
        | lostReply e => exact ⟨_,rfl⟩
        | drew id' | lostRequest e => cases ho
      obtain ⟨ans,hx⟩ := hstored
      have hin := hafter _ ((sessions cfg).step_exec ht halive hrest hx) id
        (by simp [Store.save,Store.set])
      exact hnot (hrw.cookie ▸ hin)
  · rfl

end Runs

theorem stored_ids_issued_iff (cfg : Cfg) (clock : Time) (lastInstant : Bool) (acts : List Step) :
    (sessions cfg).Along (IssuedAfter cfg) acts (empty clock lastInstant) ↔
      (sessions cfg).Along (fun c a => unplanted c a = true) acts (empty clock lastInstant) := by
  refine (sessions cfg).along_congr (I := Vouched) (fun c a h => issuedAfter_iff h)
    (fun c a c' h hun hs => vouched_step h hun hs) ?_
  exact ⟨fun id h => absurd rfl h,by simp [Machine.ThreadsMeet,empty],by simp [empty]⟩

def onDemand : Cfg := { enabledConfig with autoCreate := false }

def fixated : Request := ⟨some "chosen-by-attacker",[.set "user" "alice",.write],none⟩

def login : List Step := [.start fixated,.exec 0 .done,.exec 0 .done,.exec 0 .done]

theorem planted_cookie_stored :
    ((sessions enabledConfig).run (login ++ ([.exec 0 .done] : List Step)) (empty 0 true)).map
      (fun c => (c.shared.store.load "chosen-by-attacker",c.shared.issued)) =
        some (.ok [("user","alice")],[]) ∧
    ¬ (sessions enabledConfig).Along (IssuedAfter enabledConfig)
      (login ++ ([.exec 0 .done] : List Step)) (empty 0 true) ∧
    ¬ (sessions onDemand).Along (IssuedAfter onDemand)
      (login ++ ([.exec 0 .done] : List Step)) (empty 0 true) := by
  have hon : ((sessions enabledConfig).run (login ++ ([.exec 0 .done] : List Step))
      (empty 0 true)).map (fun c => (c.shared.store.load "chosen-by-attacker",c.shared.issued)) =
        some (.ok [("user","alice")],[]) := by decide +kernel
  have hoff : ((sessions onDemand).run (login ++ ([.exec 0 .done] : List Step))
      (empty 0 true)).map (fun c => (c.shared.store.load "chosen-by-attacker",c.shared.issued)) =
        some (.ok [("user","alice")],[]) := by decide +kernel
  have hplanted : ∀ s : Shared, (s.store.load "chosen-by-attacker",s.issued) =
      (.ok [("user","alice")],[]) → ¬ Issued s := by
    intro s heq hissued
    rw [Prod.mk.injEq] at heq
    obtain ⟨e,he,_⟩ := Store.load_eq_ok heq.1
    have hin := hissued "chosen-by-attacker" (by simp [he])
    rw [heq.2] at hin
    cases hin
  refine ⟨hon,fun h => ?_,fun h => ?_⟩
  · obtain ⟨c,c',hrun,hs,hc'⟩ := (sessions enabledConfig).run_last hon
    exact hplanted c'.shared hc' ((sessions enabledConfig).along_at h hrun c' hs)
  · obtain ⟨c,c',hrun,hs,hc'⟩ := (sessions onDemand).run_last hoff
    exact hplanted c'.shared hc' ((sessions onDemand).along_at h hrun c' hs)

end Nimburion.HTTP.Sessions
