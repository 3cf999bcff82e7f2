import Nimburion.HTTP.SessionVisit

namespace Nimburion.HTTP.Sessions
open Interaction GoTime GoText

-- the last session cookie of the response, else the one the client came with
def clientCookie (r : Request) (p : Response) : Option String := p.cookies.getLast?.getD r.cookie

def clientID (r : Request) (p : Response) : String :=
  readSessionID { r with cookie := clientCookie r p }

def AgreesWith (r : Request) (p : Response) (w : World) : Prop :=
  if destroys r.calls then
    clientID r p = "" ∨ w.store.load (clientID r p) = .error .notFound
  else ∀ d, w.saved = some d → clientID r p ≠ "" ∧ w.store.load (clientID r p) = .ok d

def Agrees (cfg : Cfg) (w : World) (r : Request) : Prop :=
  ∃ res w', visit (normalizeConfig cfg) { w with saved := none } r = (.ok res,w') ∧
    AgreesWith r res.response w'

-- 32 random bytes in base64: none of the IDs was drawn, stored or sent before
structure Fresh (w : World) (r : Request) : Prop where
  usable : ∀ n, w.rand n ≠ "" ∧ trimSpace (w.rand n) = w.rand n
  unused : ∀ n, w.store.entries (w.rand n) = none ∧ w.rand n ≠ readSessionID r
  distinct : ∀ m n, w.rand m = w.rand n → m = n

def loses (cfg : Cfg) (r : Request) : Bool :=
  !destroys r.calls && writes r.calls && (renews r.calls ||
    (!cfg.autoCreate && decide (readSessionID r = "") && creates r.calls && late r.calls))

section Commit

variable {cfg : Cfg} {r : Request} {x : Exchange} {w : World}

theorem clientID_setCookie (r : Request) (p : Response) (v : Option String) :
    clientID r (p.setCookie v) =
      if p.written then clientID r p else (v.map trimSpace).getD "" := by
  unfold Response.setCookie
  split_ifs with hw
  · rfl
  · simp [clientID,clientCookie,readSessionID]

-- a session about to commit: the client was told its ID, or has none and the response is out
structure Ready (r : Request) (previousID : String) (x : Exchange) (w : World) : Prop where
  id : x.session.id ≠ "" ∧ trimSpace x.session.id = x.session.id
  next : w.id ≠ "" ∧ trimSpace w.id = w.id ∧ w.id ≠ x.session.id
  destroyed : x.session.destroyed = destroys r.calls
  told : clientID r x.response = x.session.id ∨
    (clientID r x.response = "" ∧ x.response.written = true)
  previous : previousID = x.session.id ∨
    (previousID = "" ∧ w.store.entries x.session.id = none)
  saved : w.saved = none

theorem Ready.deleted {previousID : String} (h : Ready r previousID x w) :
    (if previousID ≠ "" then w.delete previousID else w).store.load x.session.id =
      .error .notFound := by
  rcases h.previous with rfl | ⟨rfl,hnone⟩
  · rw [if_pos h.id.1]
    exact Store.load_delete _ _
  · simpa using Store.load_of_none hnone

theorem agrees_destroyed {previousID : String} (h : Ready r previousID x w)
    (hdes : x.session.destroyed = true) :
    AgreesWith r (committed cfg previousID x w).1.response (committed cfg previousID x w).2 := by
  rw [AgreesWith,if_pos (h.destroyed ▸ hdes),committed,if_pos hdes]
  dsimp only
  rw [clientID_setCookie]
  cases x.response.written with
  | true =>
    rcases h.told with heq | ⟨heq,_⟩
    · exact .inr (heq ▸ h.deleted)
    · exact .inl heq
  | false => exact .inl rfl

theorem load_renewed (previousID : String) (httl : 0 < cfg.ttl) (data : Data) : 
    (deletedPrevious previousID (w.draw.save w.id data cfg.ttl) w.id).store.load w.id =
      .ok data := by
  unfold deletedPrevious
  split_ifs with hprevious
  · exact (Store.load_set_of_ne (Ne.symm hprevious.2) none).trans (Store.load_save httl _ _)
  · exact Store.load_save httl _ _

theorem load_replaced {previousID : String} (h : Ready r previousID x w) (data : Data) :
    (deletedPrevious previousID (w.draw.save w.id data cfg.ttl) w.id).store.load x.session.id =
      .error .notFound := by
  unfold deletedPrevious
  rcases h.previous with rfl | ⟨rfl,hnone⟩
  · rw [if_pos ⟨h.id.1,Ne.symm h.next.2.2⟩]
    exact Store.load_delete _ _
  · rw [if_neg fun hprevious => hprevious.1 rfl]
    exact (Store.load_set_of_ne (Ne.symm h.next.2.2) _).trans (Store.load_of_none hnone)

theorem saved_renewed (previousID : String) (data : Data) :
    (deletedPrevious previousID (w.draw.save w.id data cfg.ttl) w.id).saved = some data := by
  unfold deletedPrevious
  split_ifs <;> rfl

theorem agrees_renewed {previousID : String} (h : Ready r previousID x w) (httl : 0 < cfg.ttl)
    (hdes : x.session.destroyed = false) (hren : x.session.renewed = true) :
    AgreesWith r (committed cfg previousID x w).1.response (committed cfg previousID x w).2 ↔
      x.response.written = false := by
  have hnot : ¬ destroys r.calls = true := by rw [← h.destroyed,hdes]; simp
  rw [AgreesWith,if_neg hnot,committed,hdes,if_neg Bool.false_ne_true,if_pos hren]
  dsimp only
  rw [saved_renewed,clientID_setCookie]
  cases hw : x.response.written with
  | true =>
    simp only [if_true,reduceCtorEq,iff_false]
    intro hagrees
    obtain ⟨hne,hload⟩ := hagrees _ rfl
    rcases h.told with heq | ⟨heq,_⟩
    · rw [heq,load_replaced h] at hload
      cases hload
    · exact hne heq
  | false =>
    simp only [Bool.false_eq_true,if_false,Option.map_some,Option.getD_some,h.next.2.1,iff_true]
    intro d hd
    cases hd
    exact ⟨h.next.1,load_renewed _ httl _⟩

theorem agrees_kept {previousID : String} (h : Ready r previousID x w) (httl : 0 < cfg.ttl)
    (hdes : x.session.destroyed = false) (hren : x.session.renewed = false) :
    AgreesWith r (committed cfg previousID x w).1.response (committed cfg previousID x w).2 ↔
      (x.session.dirty = true → clientID r x.response = x.session.id ∨
        x.response.written = false) := by
  have hnot : ¬ destroys r.calls = true := by rw [← h.destroyed,hdes]; simp
  rw [AgreesWith,if_neg hnot,committed,hdes,if_neg Bool.false_ne_true,hren,
    if_neg Bool.false_ne_true]
  cases hdirty : x.session.dirty with
  | false =>
    simp [h.saved]
  | true =>
    have hload : (w.save x.session.id x.session.data cfg.ttl).store.load x.session.id =
        .ok x.session.data := Store.load_save httl _ _
    have hsaved : (w.save x.session.id x.session.data cfg.ttl).saved = some x.session.data := rfl
    simp only [if_true,clientID_setCookie,Option.map_some,Option.getD_some,h.id.2,hsaved,
      Option.some.injEq,forall_eq',true_imp_iff]
    cases hw : x.response.written with
    | false => simpa using ⟨h.id.1,hload⟩
    | true =>
      simp only [if_true,reduceCtorEq,or_false]
      constructor
      · rintro ⟨hne,_⟩
        exact h.told.resolve_right fun hblank => hne hblank.1
      · intro heq
        rw [heq]
        exact ⟨h.id.1,hload⟩

theorem agrees_committed {previousID : String} (h : Ready r previousID x w) (httl : 0 < cfg.ttl) :
    AgreesWith r (committed cfg previousID x w).1.response (committed cfg previousID x w).2 ↔
      x.session.destroyed = true ∨ x.response.written = false ∨ (x.session.renewed = false ∧
        (x.session.dirty = true → clientID r x.response = x.session.id)) := by
  cases hdes : x.session.destroyed with
  | true => simpa using agrees_destroyed h hdes
  | false =>
    cases hren : x.session.renewed with
    | true => simpa using agrees_renewed h httl hdes hren
    | false =>
      rw [agrees_kept h httl hdes hren]
      cases x.response.written <;> simp

end Commit

section Visit

variable {cfg : Cfg} {r : Request} {w : World}

theorem clientID_announced (r : Request) {id : String} (hid : id ≠ "") (htrim : trimSpace id = id)
    {p : Response} (hp : p.cookies = (announced id).cookies) : clientID r p = id := by
  simp [clientID,clientCookie,readSessionID,hp,announced,hid,Response.setCookie,htrim]

theorem ready_applied (cfg : Cfg) {s : Session} {previousID : String} (hs : s = newSession s.id s.data s.dirty)
    (hid : s.id ≠ "" ∧ trimSpace s.id = s.id)
    (hnext : w.id ≠ "" ∧ trimSpace w.id = w.id ∧ w.id ≠ s.id)
    (hprevious : previousID = s.id ∨ (previousID = "" ∧ w.store.entries s.id = none))
    (hsaved : w.saved = none) : Ready r previousID (applied r.calls ⟨s,announced s.id⟩)
      (w.touch s.id cfg.idleTimeout).pass := by
  refine ⟨?_,?_,?_,.inl ?_,?_,hsaved⟩
  · rw [applied_id]; exact hid
  · rw [applied_id]; exact hnext
  · rw [applied_destroyed,hs]; simp [newSession]
  · rw [applied_id]
    exact clientID_announced r hid.1 hid.2 (applied_cookies _ _)
  · rw [applied_id]
    exact hprevious.imp_right fun h => ⟨h.1,Store.touch_none h.2 _ _⟩

theorem agrees_finished {s : Session} (hs : s = newSession s.id s.data s.dirty)
    (hid : s.id ≠ "" ∧ trimSpace s.id = s.id)
    (hnext : w.id ≠ "" ∧ trimSpace w.id = w.id ∧ w.id ≠ s.id)
    (hprevious : readSessionID r = s.id ∨ (readSessionID r = "" ∧ w.store.entries s.id = none))
    (hsaved : w.saved = none) (httl : 0 < cfg.ttl) :
    AgreesWith r (finished cfg r s w).1.response (finished cfg r s w).2 ↔
      (destroys r.calls = true ∨ writes r.calls = false ∨ renews r.calls = false) := by
  have hready := ready_applied cfg (r := r) hs hid hnext hprevious hsaved
  have htold : clientID r (applied r.calls ⟨s,announced s.id⟩).response =
      (applied r.calls ⟨s,announced s.id⟩).session.id := by
    rw [applied_id]
    exact clientID_announced r hid.1 hid.2 (applied_cookies _ _)
  have hwritten : (announced s.id).written = false := by simp [announced,hid.1,Response.setCookie]
  have hfields : s.renewed = false ∧ s.destroyed = false := by rw [hs]; exact ⟨rfl,rfl⟩
  rw [finished,agrees_committed hready httl]
  simp only [htold,implies_true,and_true,applied_destroyed,applied_written,applied_renewed,
    hwritten,hfields.1,hfields.2,Bool.false_or]

theorem writes_of_late {calls : List Call} (h : late calls = true) : writes calls = true := by
  have hfind := of_decide_eq_true h
  exact List.any_eq_true.mpr ⟨.write,List.mem_of_find?_eq_some hfind,by simp⟩

theorem clientID_created (hcookie : readSessionID r = "") (hcreates : creates r.calls = true)
    (hid : w.id ≠ "" ∧ trimSpace w.id = w.id) :
    clientID r (created w.id r.calls unnamed).response = if late r.calls then "" else w.id := by
  have hcookies := created_cookies (x := unnamed) hid.1 hcreates
  simp only [unnamed,newSession,Bool.false_or,List.nil_append] at hcookies
  cases hlate : late r.calls with
  | true =>
    rw [hlate,if_pos rfl] at hcookies
    simp only [clientID,clientCookie,readSessionID,unnamed,newSession,hcookies,List.getLast?_nil,
      Option.getD_none,if_true]
    exact hcookie
  | false =>
    rw [hlate,if_neg Bool.false_ne_true] at hcookies
    simp [clientID,clientCookie,readSessionID,unnamed,newSession,hcookies,hid.2]

theorem ready_created (hfresh : Fresh w r) (hcookie : readSessionID r = "")
    (hcreates : creates r.calls = true) (hsaved : w.saved = none) :
    Ready r "" (created w.id r.calls unnamed) w.pass.draw := by
  have hid : w.id ≠ "" ∧ trimSpace w.id = w.id := hfresh.usable w.drawn
  have hnext := hfresh.usable (w.drawn+1)
  have hne : w.pass.draw.id ≠ w.id := fun heq => by
    have hsame := hfresh.distinct (w.drawn+1) w.drawn heq
    omega
  have hname := (created_named unnamed_unnamed hcreates hid.1).2
  have hclient := clientID_created (w := w) hcookie hcreates hid
  refine ⟨?_,?_,?_,?_,.inr ⟨rfl,?_⟩,hsaved⟩
  · rw [hname]; exact hid
  · rw [hname]; exact ⟨hnext.1,hnext.2,hne⟩
  · rw [created_destroyed]; simp [unnamed,newSession]
  · rw [hname,hclient,created_written hid.1]
    cases hlate : late r.calls with
    | true => exact .inr ⟨rfl,by simp [writes_of_late hlate]⟩
    | false => exact .inl rfl
  · rw [hname]; exact (hfresh.unused w.drawn).1

theorem agrees_created (hfresh : Fresh w r) (hcookie : readSessionID r = "")
    (hcreates : creates r.calls = true) (hsaved : w.saved = none) (httl : 0 < cfg.ttl) :
    AgreesWith r (committed cfg "" (created w.id r.calls unnamed) w.pass.draw).1.response
      (committed cfg "" (created w.id r.calls unnamed) w.pass.draw).2 ↔
      (destroys r.calls = true ∨ writes r.calls = false ∨
        (renews r.calls = false ∧ late r.calls = false)) := by
  have hid : w.id ≠ "" ∧ trimSpace w.id = w.id := hfresh.usable w.drawn
  have hclient := clientID_created (w := w) hcookie hcreates hid
  have hname := (created_named unnamed_unnamed hcreates hid.1).2
  have hlate : (if late r.calls = true then "" else w.id) = w.id ↔ late r.calls = false := by
    cases late r.calls with
    | true => simpa using Ne.symm hid.1
    | false => simp
  have hwritten : (created w.id r.calls unnamed).response.written = writes r.calls :=
    (created_written hid.1 r.calls).trans (Bool.false_or _)
  have hdestroyed : (created w.id r.calls unnamed).session.destroyed = destroys r.calls :=
    (created_destroyed w.id r.calls).trans (Bool.false_or _)
  have hrenewed : (created w.id r.calls unnamed).session.renewed = renews r.calls :=
    (created_renewed w.id r.calls).trans (Bool.false_or _)
  rw [agrees_committed (ready_created hfresh hcookie hcreates hsaved) httl,hdestroyed,hwritten,
    hrenewed,created_dirty hcreates,hclient,hname,hlate]
  simp only [true_imp_iff]

theorem agrees_idle {p : Response} (hcookie : readSessionID r = "") (hsaved : w.saved = none)
    (hp : ∀ v ∈ p.cookies, v = none) : AgreesWith r p w := by
  have hclient : clientID r p = "" := by
    simp only [clientID,clientCookie]
    cases hlast : p.cookies.getLast? with
    | none => exact hcookie
    | some v =>
      rw [hp v (List.mem_of_getLast? hlast)]
      rfl
  unfold AgreesWith
  split_ifs
  · exact .inl hclient
  · simp [hsaved]

end Visit

theorem not_loses_iff (cfg : Cfg) (r : Request) : loses cfg r = false ↔
    (destroys r.calls = true ∨ writes r.calls = false ∨ (renews r.calls = false ∧
      ¬ (cfg.autoCreate = false ∧ readSessionID r = "" ∧ creates r.calls = true ∧
        late r.calls = true))) := by
  unfold loses
  cases destroys r.calls <;> cases writes r.calls <;> cases renews r.calls <;> simp

theorem creates_of_renews {calls : List Call} (h : renews calls = true) : creates calls = true := by
  obtain ⟨c,hc,heq⟩ := List.any_eq_true.mp h
  exact List.any_eq_true.mpr ⟨c,hc,by rw [of_decide_eq_true heq]; rfl⟩

theorem readSessionID_trimmed (r : Request) : trimSpace (readSessionID r) = readSessionID r := by
  unfold readSessionID
  cases r.cookie with
  | none => decide +kernel
  | some v => exact trimSpace_trimSpace v

theorem visit_agrees_iff (cfg : Cfg) {w : World} {r : Request}
    (hon : cfg.enabled = true ∧ cfg.hasStore = true) (httl : 0 < cfg.ttl)
    (hidle : 0 < cfg.idleTimeout) (hfresh : Fresh w r) (hsaved : w.saved = none) :
    ∃ res w', visit cfg w r = (.ok res,w') ∧
      (AgreesWith r res.response w' ↔ loses cfg r = false) := by
  have hid : w.id ≠ "" ∧ trimSpace w.id = w.id := hfresh.usable w.drawn
  rw [not_loses_iff]
  by_cases hcookie : readSessionID r = ""
  · cases hauto : cfg.autoCreate with
    | true =>
      have hnext : w.draw.id ≠ w.id := fun heq => by
        have hsame := hfresh.distinct (w.drawn+1) w.drawn heq
        omega
      have husable : w.draw.id ≠ "" ∧ trimSpace w.draw.id = w.draw.id := hfresh.usable (w.drawn+1)
      refine ⟨_,_,visit_autoCreate hon hidle hcookie hauto hid.1,?_⟩
      dsimp only
      rw [agrees_finished (s := newSession w.id [] true) rfl hid ⟨husable.1,husable.2,hnext⟩
        (.inr ⟨hcookie,(hfresh.unused w.drawn).1⟩) hsaved httl]
      simp
    | false =>
      have hvisit := visit_onDemand (w := w) hon hcookie hauto
      cases hcreates : creates r.calls with
      | true =>
        rw [eval_withSession_creates hcookie hid.1 hcreates] at hvisit
        refine ⟨_,_,hvisit,?_⟩
        dsimp only
        rw [agrees_created hfresh hcookie hcreates hsaved httl]
        simp [hcookie]
      | false =>
        obtain ⟨p,hp,hcookies⟩ := eval_withSession_idle cfg hcookie hid.1 hcreates
        rw [hp] at hvisit
        have hren : renews r.calls = false := by
          rw [Bool.eq_false_iff]
          intro hren
          rw [creates_of_renews hren] at hcreates
          cases hcreates
        refine ⟨_,_,hvisit,?_⟩
        have hagrees : AgreesWith r p w.pass := agrees_idle hcookie hsaved hcookies
        simp [hagrees,hren]
  · refine ⟨_,_,visit_cookie hon hidle hcookie,?_⟩
    dsimp only
    rw [agrees_finished (s := newSession (readSessionID r) (loaded w r) false) rfl
      ⟨hcookie,readSessionID_trimmed r⟩ ⟨hid.1,hid.2,(hfresh.unused w.drawn).2⟩ (.inl rfl) hsaved
      httl]
    simp [hcookie]

theorem client_agrees_iff (cfg : Cfg) (w : World) (r : Request)
    (hon : cfg.enabled = true ∧ cfg.hasStore = true) (hfresh : Fresh w r) :
    Agrees cfg w r ↔ loses cfg r = false := by
  obtain ⟨httl,hidle⟩ := normalizeConfig_positive cfg
  obtain ⟨res,w',hvisit,hiff⟩ := visit_agrees_iff (normalizeConfig cfg)
    (w := { w with saved := none }) hon httl hidle ⟨hfresh.usable,hfresh.unused,hfresh.distinct⟩ rfl
  have hloses : loses (normalizeConfig cfg) r = loses cfg r := rfl
  rw [← hloses,← hiff]
  refine ⟨?_,fun h => ⟨res,w',hvisit,h⟩⟩
  rintro ⟨res',w'',hvisit',h⟩
  rw [hvisit] at hvisit'
  cases hvisit'
  exact h

def alice : World where
  store := ⟨0,true,fun id => if id = "s1" then some ⟨[("user","alice")],60*second⟩ else none⟩
  rand := fun n => String.ofList (List.replicate (n+1) 'x')
  drawn := 0
  spent := 0
  saved := none

def cart : Request := ⟨some "s1",[.set "cart" "book",.write],none⟩

def rotate : Request := ⟨some "s1",[.renew,.write],none⟩

theorem alice_fresh (r : Request) (hr : readSessionID r = "s1") : Fresh alice r where
  usable n := by
    refine ⟨?_,trimSpace_of_no_space fun c hc => ?_⟩
    · intro heq
      have hlist := congrArg String.toList heq
      simp [alice] at hlist
    · simp only [alice,String.toList_ofList,List.mem_replicate] at hc
      rw [hc.2]
      decide
  unused n := by
    have hne : alice.rand n ≠ "s1" := by
      intro heq
      have hlist := congrArg String.toList heq
      simp [alice,List.replicate_succ] at hlist
    exact ⟨if_neg hne,hr ▸ hne⟩
  distinct m n heq := by
    have hlength := congrArg (fun s => s.toList.length) heq
    simpa [alice] using hlength

theorem client_agrees_after_set : Fresh alice cart ∧ Agrees enabledConfig alice cart :=
  have hfresh : Fresh alice cart := alice_fresh cart (by decide +kernel)
  ⟨hfresh,(client_agrees_iff enabledConfig alice cart ⟨rfl,rfl⟩ hfresh).mpr (by decide +kernel)⟩

theorem renewed_id_not_sent : Fresh alice rotate ∧ ¬ Agrees enabledConfig alice rotate := by
  refine ⟨alice_fresh rotate (by decide +kernel),?_⟩
  rintro ⟨res,w',hvisit,hagrees⟩
  have hclient : (visit (normalizeConfig enabledConfig) alice rotate).1.toOption.map
      (fun res => clientID rotate res.response) = some "s1" := by decide +kernel
  have hstore : (visit (normalizeConfig enabledConfig) alice rotate).2.store.load "s1" =
      .error .notFound := by decide +kernel
  have hsaved : (visit (normalizeConfig enabledConfig) alice rotate).2.saved =
      some [("user","alice")] := by decide +kernel
  have hsame : visit (normalizeConfig enabledConfig) alice rotate = (.ok res,w') := hvisit
  rw [hsame] at hclient hstore hsaved
  have hid : clientID rotate res.response = "s1" := Option.some.inj hclient
  have hnot : ¬ destroys rotate.calls = true := by decide
  rw [AgreesWith,if_neg hnot] at hagrees
  have hload := (hagrees _ hsaved).2
  rw [hid,hstore] at hload
  cases hload

end Nimburion.HTTP.Sessions
