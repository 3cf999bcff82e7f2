import Nimburion.HTTP.SessionStore

namespace Nimburion.HTTP.Sessions
open Interaction GoTime GoText

-- a store whose operations succeed; crypto/rand.Read returns no error, `rand` gives the ID of each
-- draw, `spent` is the time the handler takes and `saved` what the request has saved
structure World where
  store : Store
  rand : ℕ → String
  drawn : ℕ
  spent : ℕ
  saved : Option Data

namespace World

def draw (w : World) : World := { w with drawn := w.drawn+1 }

def id (w : World) : String := w.rand w.drawn

def touch (w : World) (id : String) (ttl : Duration) : World :=
  { w with store := (w.store.touch id ttl).2 }

def pass (w : World) : World := { w with store := w.store.tick w.spent }

def save (w : World) (id : String) (data : Data) (ttl : Duration) : World :=
  { w with store := w.store.save id data ttl, saved := some data }

def delete (w : World) (id : String) : World := { w with store := w.store.delete id }

end World

def serve (w : World) : (op : Op) → Ans op × World
  | .load id => (w.store.load id,w)
  | .generateSessionID => (.ok w.id,w.draw)
  | .touch id ttl => ((w.store.touch id ttl).1,w.touch id ttl)
  | .next => ((),w.pass)
  | .save id data ttl => (.ok (),w.save id data ttl)
  | .delete id => (.ok (),w.delete id)

def visit (cfg : Cfg) (w : World) (r : Request) : Except GoError Result × World :=
  Prog.eval serve (middleware cfg r) w

section Commit

variable (cfg : Cfg) (previousID : String) (x : Exchange) (w : World)

def deletedPrevious (targetID : String) : World :=
  if previousID ≠ "" ∧ previousID ≠ targetID then w.delete previousID else w

-- what commit leaves of a session that has its ID
def committed : Exchange × World :=
  if x.session.destroyed then
    ({ x with response := x.response.setCookie none },
      if previousID ≠ "" then w.delete previousID else w)
  else if x.session.renewed then
    (⟨{ x.session with id := w.id },x.response.setCookie (some w.id)⟩,
      deletedPrevious previousID (w.draw.save w.id x.session.data cfg.ttl) w.id)
  else if x.session.dirty then
    ({ x with response := x.response.setCookie (some x.session.id) },
      w.save x.session.id x.session.data cfg.ttl)
  else ({ x with response := x.response.setCookie (some x.session.id) },w)

variable {cfg previousID x w}

theorem eval_generateID : Prog.eval serve generateID w = (.ok w.id,w.draw) := by
  simp [generateID,serve]

theorem eval_deleteID (id : String) :
    Prog.eval serve (deleteID id) w = (.ok (),w.delete id) := by
  simp [deleteID,serve]

theorem eval_deletePrevious (s : Session) (targetID : String) :
    Prog.eval serve (deletePrevious s previousID targetID) w =
      (.ok (),if s.renewed then deletedPrevious previousID w targetID else w) := by
  simp only [deletePrevious,deletedPrevious]
  cases s.renewed with
  | false => simp
  | true =>
    simp only [true_and,if_true]
    split_ifs
    · exact eval_deleteID previousID
    · rfl

theorem eval_saveData (s : Session) (targetID : String) :
    Prog.eval serve (saveData cfg s targetID) w =
      (.ok (),if s.dirty ∨ s.renewed then w.save targetID s.data cfg.ttl else w) := by
  simp only [saveData]
  split_ifs
  · simp [serve]
  · rfl

theorem eval_commit (h : Named x) : Prog.eval serve (commit cfg previousID x) w =
    (.ok (committed cfg previousID x w).1,(committed cfg previousID x w).2) := by
  obtain ⟨⟨id,data,dirty,destroyed,renewed,createErr⟩,response⟩ := x
  obtain ⟨hid,herr⟩ := h
  dsimp only at hid herr
  subst herr
  cases destroyed with
  | true =>
    simp only [commit,committed,if_true]
    split_ifs
    · simp [eval_deleteID]
    · rfl
  | false =>
    cases renewed with
    | true =>
      simp [commit,committed,currentID,hid,renewedID,eval_generateID,eval_saveData,
        eval_deletePrevious]
    | false =>
      cases dirty <;>
        simp [commit,committed,currentID,hid,renewedID,eval_saveData,eval_deletePrevious]

end Commit

def Call.creates : Call → Bool
  | .set key _ => trimSpace key ≠ ""
  | .renew => true
  | _ => false

def creates (calls : List Call) : Bool := calls.any Call.creates

def identify (x : Exchange) (id : String) : Exchange :=
  onCreate { x with session := { x.session with id := id } } id

-- what the calls leave of a session that starts without an ID
def created (id : String) : List Call → Exchange → Exchange
  | [], x => x
  | c :: calls, x =>
      if c.creates then applied calls (apply (identify x id) c) else created id calls (apply x c)

section Handler

variable {x : Exchange} {w : World}

structure Unnamed (x : Exchange) : Prop where
  id : x.session.id = ""
  created : x.session.createErr = none

theorem Unnamed.apply (h : Unnamed x) (c : Call) : Unnamed (apply x c) :=
  ⟨by rw [apply_id]; exact h.id,by rw [apply_createErr]; exact h.created⟩

theorem identify_session (x : Exchange) (id : String) :
    (identify x id).session = { x.session with id := id } := by
  unfold identify onCreate
  split_ifs <;> rfl

theorem identify_response (x : Exchange) {id : String} (hid : id ≠ "") :
    (identify x id).response = x.response.setCookie (some id) := by
  unfold identify onCreate
  split_ifs with h
  · have hwritten : x.response.written = true := by simpa [hid] using h
    simp [Response.setCookie,hwritten]
  · rfl

theorem Unnamed.identify (h : Unnamed x) {id : String} (hid : id ≠ "") : Named (identify x id) :=
  ⟨by rw [identify_session]; exact hid,by rw [identify_session]; exact h.created⟩

theorem eval_ensureID (h : Unnamed x) :
    Prog.eval serve (ensureID x) w = (.ok (identify x w.id),w.draw) := by
  simp [ensureID,h.id,h.created,serve,identify]

theorem eval_handle_creates (h : Unnamed x) {c : Call} (hc : c.creates = true) (hid : w.id ≠ "") :
    Prog.eval serve (handle x c) w = (.ok (apply (identify x w.id) c),w.draw) := by
  have hnone : (identify x w.id).session.createErr.isSome = false := by
    rw [(h.identify hid).created]
    rfl
  cases c with
  | set key value =>
    have hkey : trimSpace key ≠ "" := by simpa [Call.creates] using hc
    simp only [handle,hkey,if_false,Prog.eval_bind,eval_ensureID h,hnone,apply]
    rfl
  | renew =>
    simp only [handle,Prog.eval_bind,eval_ensureID h,hnone,apply]
    rfl
  | get | delete | destroy | write => cases hc

theorem handle_idle {c : Call} (hc : c.creates = false) : handle x c = pure (apply x c) := by
  cases c with
  | set key value =>
    have hkey : trimSpace key = "" := by simpa [Call.creates] using hc
    simp [handle,apply,hkey]
  | delete key =>
    simp only [handle,apply]
    split_ifs <;> rfl
  | renew => cases hc
  | get | destroy | write => rfl

theorem eval_handler_unnamed (h : Unnamed x) (hid : w.id ≠ "") (calls : List Call) :
    Prog.eval serve (handler calls x) w =
      (.ok (created w.id calls x),if creates calls then w.draw else w) := by
  induction calls generalizing x with
  | nil => simp [handler,created,creates]
  | cons c calls ih =>
    cases hc : c.creates with
    | true =>
      rw [handler,Prog.eval_bind,eval_handle_creates h hc hid]
      dsimp only
      rw [handler_named calls ((h.identify hid).apply c)]
      simp [created,creates,hc]
    | false =>
      rw [handler,Prog.eval_bind,handle_idle hc]
      simp [created,creates,hc,ih (h.apply c)]

-- the response is written before the first call that needs an ID
def late (calls : List Call) : Bool :=
  calls.find? (fun c => decide (c = .write) || c.creates) = some .write

theorem created_idle {calls : List Call} (h : creates calls = false) (id : String) :
    created id calls x = applied calls x := by
  induction calls generalizing x with
  | nil => rfl
  | cons c calls ih =>
    simp only [creates,List.any_cons,Bool.or_eq_false_iff] at h
    rw [created,h.1,applied_cons]
    exact ih h.2

theorem created_named {calls : List Call} (hx : Unnamed x) (h : creates calls = true) {id : String}
    (hid : id ≠ "") : Named (created id calls x) ∧ (created id calls x).session.id = id := by
  induction calls generalizing x with
  | nil => cases h
  | cons c calls ih =>
    rw [created]
    cases hc : c.creates with
    | true =>
      have hnamed := (hx.identify hid).apply c
      have heq : (identify x id).session.id = id := by rw [identify_session]
      simp only [if_true]
      refine ⟨⟨?_,?_⟩,?_⟩
      · rw [applied_id]; exact hnamed.id
      · rw [applied_createErr]; exact hnamed.created
      · rw [applied_id,apply_id,heq]
    | false =>
      simp only [creates,List.any_cons,hc,Bool.false_or] at h
      exact ih (hx.apply c) h

theorem created_destroyed (id : String) (calls : List Call) :
    (created id calls x).session.destroyed = (x.session.destroyed || destroys calls) := by
  induction calls generalizing x with
  | nil => simp [created,destroys]
  | cons c calls ih =>
    have hcons : destroys (c :: calls) = (decide (c = .destroy) || destroys calls) := List.any_cons
    rw [created,hcons,← Bool.or_assoc]
    split_ifs
    · rw [applied_destroyed,apply_destroyed,identify_session]
    · rw [ih,apply_destroyed]

theorem created_renewed (id : String) (calls : List Call) :
    (created id calls x).session.renewed = (x.session.renewed || renews calls) := by
  induction calls generalizing x with
  | nil => simp [created,renews]
  | cons c calls ih =>
    have hcons : renews (c :: calls) = (decide (c = .renew) || renews calls) := List.any_cons
    rw [created,hcons,← Bool.or_assoc]
    split_ifs
    · rw [applied_renewed,apply_renewed,identify_session]
    · rw [ih,apply_renewed]

theorem setCookie_written (p : Response) (v : Option String) :
    (p.setCookie v).written = p.written := by
  unfold Response.setCookie
  split_ifs <;> rfl

theorem created_written {id : String} (hid : id ≠ "") (calls : List Call) :
    (created id calls x).response.written = (x.response.written || writes calls) := by
  induction calls generalizing x with
  | nil => simp [created,writes]
  | cons c calls ih =>
    have hcons : writes (c :: calls) = (decide (c = .write) || writes calls) := List.any_cons
    rw [created,hcons,← Bool.or_assoc]
    split_ifs
    · rw [applied_written,apply_written,identify_response x hid,setCookie_written]
    · rw [ih,apply_written]

theorem edits_of_creates {c : Call} (h : c.creates = true) (d : Data) : c.edits d = true := by
  cases c with
  | set key value => exact h
  | renew => rfl
  | get | delete | destroy | write => cases h

theorem created_dirty {id : String} {calls : List Call} (h : creates calls = true) :
    (created id calls x).session.dirty = true := by
  induction calls generalizing x with
  | nil => cases h
  | cons c calls ih =>
    rw [created]
    cases hc : c.creates with
    | true =>
      simp only [if_true]
      rw [applied_dirty,apply_dirty,edits_of_creates hc]
      simp
    | false =>
      simp only [creates,List.any_cons,hc,Bool.false_or] at h
      exact ih h

theorem created_cookies {id : String} {calls : List Call} (hid : id ≠ "")
    (h : creates calls = true) : (created id calls x).response.cookies =
      if x.response.written || late calls then x.response.cookies
      else x.response.cookies ++ [some id] := by
  induction calls generalizing x with
  | nil => cases h
  | cons c calls ih =>
    rw [created]
    cases hc : c.creates with
    | true =>
      have hlate : late (c :: calls) = false := by
        have hne : c ≠ .write := by
          rintro rfl
          cases hc
        simp [late,hc,hne]
      simp only [if_true]
      rw [applied_cookies,apply_cookies,identify_response x hid,hlate,Bool.or_false,
        Response.setCookie]
      split_ifs <;> rfl
    | false =>
      simp only [creates,List.any_cons,hc,Bool.false_or] at h
      have hlate : late (c :: calls) = (decide (c = .write) || late calls) := by
        cases hw : decide (c = .write) with
        | true => simp [late,of_decide_eq_true hw]
        | false => simp only [late,List.find?_cons,hw,hc,Bool.or_self,Bool.false_or]
      simp only [Bool.false_eq_true,if_false]
      rw [ih h,apply_cookies,apply_written,hlate,Bool.or_assoc]

end Handler

section Visit

variable {cfg : Cfg} {r : Request} {w : World}

def finished (cfg : Cfg) (r : Request) (s : Session) (w : World) : Exchange × World :=
  committed cfg (readSessionID r) (applied r.calls ⟨s,announced s.id⟩)
    (w.touch s.id cfg.idleTimeout).pass

def unnamed : Exchange := ⟨newSession "" [] false,⟨false,[]⟩⟩

theorem unnamed_unnamed : Unnamed unnamed := ⟨rfl,rfl⟩

theorem eval_touchSession {id : String} (hid : id ≠ "") (hidle : 0 < cfg.idleTimeout) :
    Prog.eval serve (touchSession cfg id) w = (.ok (),w.touch id cfg.idleTimeout) := by
  simp [touchSession,hid,hidle,serve]

theorem eval_withSession_named {s : Session} (hid : s.id ≠ "") (herr : s.createErr = none)
    (hidle : 0 < cfg.idleTimeout) : Prog.eval serve (withSession cfg r s) w =
      (.ok ⟨(finished cfg r s w).1.response,r.handlerErr⟩,(finished cfg r s w).2) := by
  have hnamed : Named ⟨s,announced s.id⟩ := ⟨hid,herr⟩
  have happlied : Named (applied r.calls ⟨s,announced s.id⟩) :=
    ⟨by rw [applied_id]; exact hid,by rw [applied_createErr]; exact herr⟩
  simp only [withSession,Prog.eval_bind,eval_touchSession hid hidle,Prog.eval_perform,serve,
    handler_named r.calls hnamed,Prog.eval_pure,Prog.eval_attempt,eval_commit happlied,conclude,
    finished]

theorem eval_withSession_creates (hcookie : readSessionID r = "") (hid : w.id ≠ "")
    (hcreates : creates r.calls = true) :
    Prog.eval serve (withSession cfg r (newSession "" [] false)) w =
      (.ok ⟨(committed cfg "" (created w.id r.calls unnamed) w.pass.draw).1.response,r.handlerErr⟩,
        (committed cfg "" (created w.id r.calls unnamed) w.pass.draw).2) := by
  have hhandler := eval_handler_unnamed (w := w.pass) unnamed_unnamed hid r.calls
  have hnamed := (created_named unnamed_unnamed hcreates hid).1
  rw [hcreates,if_pos rfl] at hhandler
  change Prog.eval serve (touchSession cfg "" >>= fun _ => Prog.perform Op.next >>= fun _ =>
    handler r.calls unnamed >>= fun x => Prog.attempt (commit cfg (readSessionID r) x) >>=
      fun z => pure (conclude r x z)) w = _
  simp only [touchSession,ne_eq,not_true_eq_false,false_and,if_false,Prog.eval_bind,Prog.eval_pure,
    Prog.eval_perform,serve,hhandler,Prog.eval_attempt,hcookie]
  rw [eval_commit (x := created w.pass.id r.calls unnamed) hnamed]
  rfl

-- with no call that needs an ID only a Destroy is left to commit
theorem eval_withSession_idle (cfg : Cfg) (hcookie : readSessionID r = "") (hid : w.id ≠ "")
    (hcreates : creates r.calls = false) :
    ∃ p, Prog.eval serve (withSession cfg r (newSession "" [] false)) w =
      (.ok ⟨p,r.handlerErr⟩,w.pass) ∧ ∀ v ∈ p.cookies, v = none := by
  have hhandler := eval_handler_unnamed (w := w.pass) unnamed_unnamed hid r.calls
  rw [hcreates,created_idle hcreates,if_neg Bool.false_ne_true] at hhandler
  have hcommit : ∃ x, Prog.eval serve (commit cfg "" (applied r.calls unnamed)) w.pass =
      (.ok x,w.pass) ∧ ∀ v ∈ x.response.cookies, v = none := by
    have hnone : (applied r.calls unnamed).response.cookies = [] := applied_cookies _ _
    have herr : (applied r.calls unnamed).session.createErr = none := applied_createErr _ _
    simp only [commit,herr,ne_eq,not_true_eq_false,if_false]
    split_ifs with hdes hidle
    · refine ⟨_,rfl,?_⟩
      simp only [Response.setCookie,hnone]
      split_ifs <;> simp [unnamed]
    · exact ⟨_,rfl,by simp [unnamed]⟩
    · have hren : renews r.calls = false := by
        rw [renews,List.any_eq_false]
        intro c hc heq
        rw [creates,List.any_eq_false] at hcreates
        exact hcreates c hc (by rw [of_decide_eq_true heq]; rfl)
      have hdirty : edits [] r.calls = false := by
        rw [Bool.eq_false_iff]
        intro hedits
        obtain ⟨c,hc,hsets⟩ := List.any_eq_true.mp (sets_of_edits_nil hedits hren (by
          simpa [unnamed,newSession] using hdes))
        rw [creates,List.any_eq_false] at hcreates
        refine hcreates c hc ?_
        cases c <;> first | exact hsets | cases hsets
      exact absurd (by simp [unnamed,newSession,hren,hdirty]) hidle
  obtain ⟨x,hx,hcookies⟩ := hcommit
  refine ⟨x.response,?_,hcookies⟩
  change Prog.eval serve (touchSession cfg "" >>= fun _ => Prog.perform Op.next >>= fun _ =>
    handler r.calls unnamed >>= fun x => Prog.attempt (commit cfg (readSessionID r) x) >>=
      fun z => pure (conclude r x z)) w = _
  simp only [touchSession,ne_eq,not_true_eq_false,false_and,if_false,Prog.eval_bind,Prog.eval_pure,
    Prog.eval_perform,serve,hhandler,Prog.eval_attempt,hcookie,hx,conclude]

def loaded (w : World) (r : Request) : Data :=
  match w.store.load (readSessionID r) with
  | .ok d => d
  | .error _ => []

theorem load_error {s : Store} {id : String} {e : LoadErr} (h : s.load id = .error e) :
    e = .notFound := by
  unfold Store.load at h
  split at h
  · cases h
  · cases h
    rfl

theorem visit_cookie (hon : cfg.enabled = true ∧ cfg.hasStore = true) (hidle : 0 < cfg.idleTimeout)
    (hcookie : readSessionID r ≠ "") : visit cfg w r =
      (.ok ⟨(finished cfg r (newSession (readSessionID r) (loaded w r) false) w).1.response,
        r.handlerErr⟩,(finished cfg r (newSession (readSessionID r) (loaded w r) false) w).2) := by
  have hsession : ∀ d, Prog.eval serve
      (withSession cfg r (newSession (readSessionID r) d false)) w = _ := fun d =>
    eval_withSession_named (s := newSession (readSessionID r) d false) hcookie rfl hidle
  simp only [visit,middleware,hon.1,hon.2,Bool.not_true,Bool.or_self,Bool.false_eq_true,if_false,
    hcookie,ne_eq,not_false_eq_true,if_true,Prog.eval_bind,Prog.eval_perform,serve,loaded]
  cases hload : w.store.load (readSessionID r) with
  | ok d => exact hsession d
  | error e =>
    cases load_error hload
    exact hsession []

theorem visit_autoCreate (hon : cfg.enabled = true ∧ cfg.hasStore = true)
    (hidle : 0 < cfg.idleTimeout) (hcookie : readSessionID r = "") (hauto : cfg.autoCreate = true)
    (hid : w.id ≠ "") : visit cfg w r =
      (.ok ⟨(finished cfg r (newSession w.id [] true) w.draw).1.response,r.handlerErr⟩,
        (finished cfg r (newSession w.id [] true) w.draw).2) := by
  simp only [visit,middleware,hon.1,hon.2,Bool.not_true,Bool.or_self,Bool.false_eq_true,if_false,
    hcookie,ne_eq,not_true_eq_false,hauto,if_true,Prog.eval_bind,Prog.eval_perform,serve]
  exact eval_withSession_named (s := newSession w.id [] true) hid rfl hidle

theorem visit_onDemand (hon : cfg.enabled = true ∧ cfg.hasStore = true)
    (hcookie : readSessionID r = "") (hauto : cfg.autoCreate = false) :
    visit cfg w r = Prog.eval serve (withSession cfg r (newSession "" [] false)) w := by
  simp only [visit,middleware,hon.1,hon.2,Bool.not_true,Bool.or_self,Bool.false_eq_true,if_false,
    hcookie,ne_eq,not_true_eq_false,hauto]

end Visit

end Nimburion.HTTP.Sessions
