import Nimburion.HTTP.SessionVisit

namespace Nimburion.HTTP.Sessions
open Interaction GoTime GoText

structure Arrival where
  wait : ℕ
  spent : ℕ
  request : Request

def arrive (w : World) (a : Arrival) : World :=
  { w with store := w.store.tick a.wait, spent := a.spent, saved := none }

def handled (cfg : Cfg) (w : World) (a : Arrival) : World := (visit cfg (arrive w a) a.request).2

def history (cfg : Cfg) (w : World) (as : List Arrival) : World := as.foldl (handled cfg) w

-- whatever the other sessions' requests do in between, Load no longer returns the session to a
-- request that comes later than `idleTimeout` after the last one was handled
def ExpiresIdle (cfg : Cfg) (w : World) (id : String) : Prop :=
  ∀ later : List Arrival, (∀ a ∈ later, readSessionID a.request ≠ id) → ∀ wait : ℕ,
    w.store.clock+cfg.idleTimeout < (history cfg w later).store.clock+wait →
    ((history cfg w later).store.tick wait).load id = .error .notFound

-- a request of the session came with its cookie or is the one that stored it first
def Handles (cfg : Cfg) (w : World) (a : Arrival) (id : String) : Prop :=
  id ≠ "" ∧ (readSessionID a.request = id ∨
    (w.store.entries id = none ∧ (handled cfg w a).store.entries id ≠ none))

-- no ID still to be drawn is empty, the request's or the session's
structure Unguessed (cfg : Cfg) (w : World) (a : Arrival) (id : String) : Prop where
  usable : ∀ n, w.rand n ≠ ""
  request : ∀ n, w.drawn ≤ n → w.rand n ≠ readSessionID a.request
  session : ∀ n, (handled cfg w a).drawn ≤ n → w.rand n ≠ id

def saves (w : World) (a : Arrival) : Bool :=
  !destroys a.request.calls && !renews a.request.calls &&
    edits (loaded (arrive w a) a.request) a.request.calls

-- one tick after the idle timeout an entry saved for `ttl` is still there
def outlasts (cfg : Cfg) (s : Store) : Bool :=
  cfg.idleTimeout+1 < cfg.ttl || (s.lastInstant && cfg.idleTimeout+1 = cfg.ttl)

-- what handling a request leaves alone
structure Frame (T : String → Prop) (w w' : World) : Prop where
  clock : w.store.clock ≤ w'.store.clock
  lastInstant : w'.store.lastInstant = w.store.lastInstant
  rand : w'.rand = w.rand
  drawn : w.drawn ≤ w'.drawn
  entries : ∀ id, ¬ T id → w'.store.entries id = w.store.entries id

namespace Frame

variable {T : String → Prop} {w w' w'' : World}

theorem trans (h : Frame T w w') (h' : Frame T w' w'') : Frame T w w'' where
  clock := Int.le_trans h.clock h'.clock
  lastInstant := h'.lastInstant.trans h.lastInstant
  rand := h'.rand.trans h.rand
  drawn := Nat.le_trans h.drawn h'.drawn
  entries := fun id hid => (h'.entries id hid).trans (h.entries id hid)

theorem refl (T : String → Prop) (w : World) : Frame T w w :=
  ⟨Int.le_refl _,rfl,rfl,Nat.le_refl _,fun _ _ => rfl⟩

theorem draw (T : String → Prop) (w : World) : Frame T w w.draw :=
  ⟨Int.le_refl _,rfl,rfl,Nat.le_succ _,fun _ _ => rfl⟩

theorem pass (T : String → Prop) (w : World) : Frame T w w.pass :=
  ⟨Int.le_add_of_nonneg_right (Int.natCast_nonneg _),rfl,rfl,Nat.le_refl _,fun _ _ => rfl⟩

theorem ne_of_mem {id id' : String} (hid : T id) (hid' : ¬ T id') : id' ≠ id := by
  rintro rfl
  exact hid' hid

theorem save {id : String} (hid : T id) (data : Data) (ttl : Duration) :
    Frame T w (w.save id data ttl) :=
  ⟨Int.le_refl _,rfl,rfl,Nat.le_refl _,fun _ hid' => Store.set_of_ne (ne_of_mem hid hid') _⟩

theorem delete {id : String} (hid : T id) : Frame T w (w.delete id) :=
  ⟨Int.le_refl _,rfl,rfl,Nat.le_refl _,fun _ hid' => Store.set_of_ne (ne_of_mem hid hid') _⟩

theorem touch {id : String} (hid : T id) (ttl : Duration) : Frame T w (w.touch id ttl) := by
  unfold World.touch Store.touch
  split
  · exact ⟨Int.le_refl _,rfl,rfl,Nat.le_refl _,fun _ hid' =>
      Store.set_of_ne (ne_of_mem hid hid') _⟩
  · exact ⟨Int.le_refl _,rfl,rfl,Nat.le_refl _,fun _ _ => rfl⟩

theorem deletedPrevious {previousID : String} (hid : previousID ≠ "" → T previousID)
    (targetID : String) : Frame T w (deletedPrevious previousID w targetID) := by
  unfold Sessions.deletedPrevious
  split_ifs with h
  · exact delete (hid h.1)
  · exact refl T w

theorem committed (cfg : Cfg) {previousID : String} {x : Exchange} (hx : T x.session.id)
    (hprevious : previousID ≠ "" → T previousID) (hnext : T w.id) :
    Frame T w (committed cfg previousID x w).2 := by
  unfold Sessions.committed
  split_ifs with hdes hp hren hdirty
  · exact delete (hprevious hp)
  · exact refl T w
  · exact ((draw T w).trans (save hnext _ _)).trans (deletedPrevious hprevious _)
  · exact save hx _ _
  · exact refl T w

end Frame

section Commit

variable (cfg : Cfg) (previousID : String) (x : Exchange) (w : World)

theorem committed_clock : (committed cfg previousID x w).2.store.clock = w.store.clock := by
  unfold committed deletedPrevious
  split_ifs <;> rfl

-- an entry that was not there is not there now or was saved just now
def New (cfg : Cfg) (w w' : World) (id : String) : Prop :=
  w'.store.entries id = none ∨ ∃ d, w'.store.entries id = some ⟨d,w.store.clock+cfg.ttl⟩

theorem new_save {id : String} (h : w.store.entries id = none) (id' : String) (d : Data) :
    New cfg w (w.save id' d cfg.ttl) id := by
  by_cases heq : id = id'
  · subst heq
    exact .inr ⟨d,Store.set_self _ _ _⟩
  · exact .inl ((Store.set_of_ne heq _).trans h)

theorem new_delete {w' : World} {id : String} (h : New cfg w w' id) (id' : String) :
    New cfg w (w'.delete id') id := by
  by_cases heq : id = id'
  · subst heq
    exact .inl (Store.set_self _ _ _)
  · have hsame : (w'.delete id').store.entries id = w'.store.entries id := Store.set_of_ne heq _
    unfold New
    rw [hsame]
    exact h

theorem committed_new {id : String} (h : w.store.entries id = none) :
    New cfg w (committed cfg previousID x w).2 id := by
  unfold committed
  split_ifs
  · exact new_delete cfg w (.inl h) _
  · exact .inl h
  · unfold deletedPrevious
    have hsaved : New cfg w (w.draw.save w.id x.session.data cfg.ttl) id :=
      new_save cfg w.draw h _ _
    split_ifs
    · exact new_delete cfg w hsaved _
    · exact hsaved
  · exact new_save cfg w h _ _
  · exact .inl h

end Commit

section Visit

variable {cfg : Cfg} {r : Request} {w : World}

def Reach (w : World) (r : Request) (id : String) : Prop :=
  id = readSessionID r ∨ ∃ n, w.drawn ≤ n ∧ w.rand n = id

theorem reach_draw (k : ℕ) (r : Request) : Reach w r (w.rand (w.drawn+k)) :=
  .inr ⟨w.drawn+k,Nat.le_add_right _ _,rfl⟩

structure Confined (cfg : Cfg) (r : Request) (w w' : World) : Prop where
  frame : Frame (Reach w r) w w'
  new : ∀ id, w.store.entries id = none → New cfg w' w' id

theorem confined_committed {w₁ : World} {previousID : String} {x : Exchange}
    (hframe : Frame (Reach w r) w w₁) (hnone : ∀ id, w.store.entries id = none →
      w₁.store.entries id = none) (hx : Reach w r x.session.id)
    (hprevious : previousID ≠ "" → Reach w r previousID) (hnext : Reach w r w₁.id) :
    Confined cfg r w (committed cfg previousID x w₁).2 := by
  refine ⟨hframe.trans (Frame.committed cfg hx hprevious hnext),fun id hid => ?_⟩
  have hnew := committed_new cfg previousID x w₁ (hnone id hid)
  unfold New at hnew ⊢
  rwa [committed_clock]

theorem confined_finished {w₀ : World} {s : Session} (hframe : Frame (Reach w r) w w₀)
    (hnone : ∀ id, w.store.entries id = none → w₀.store.entries id = none)
    (hid : Reach w r s.id) (hnext : Reach w r w₀.id) :
    Confined cfg r w (finished cfg r s w₀).2 := by
  refine confined_committed ((hframe.trans (Frame.touch hid _)).trans (Frame.pass _ _)) ?_ ?_
    (fun _ => .inl rfl) hnext
  · exact fun id h => Store.touch_none (hnone id h) _ _
  · rw [applied_id]
    exact hid

theorem confined_visit (cfg : Cfg) (hon : cfg.enabled = true ∧ cfg.hasStore = true) (hidle : 0 < cfg.idleTimeout)
    (husable : ∀ n, w.rand n ≠ "") : Confined cfg r w (visit cfg w r).2 := by
  by_cases hcookie : readSessionID r = ""
  · cases hauto : cfg.autoCreate with
    | true =>
      rw [visit_autoCreate hon hidle hcookie hauto (husable _)]
      exact confined_finished (Frame.draw _ w) (fun _ h => h) (reach_draw 0 r) (reach_draw 1 r)
    | false =>
      rw [visit_onDemand hon hcookie hauto]
      cases hcreates : creates r.calls with
      | true =>
        rw [eval_withSession_creates hcookie (husable _) hcreates]
        refine confined_committed ((Frame.pass _ w).trans (Frame.draw _ _)) (fun _ h => h) ?_
          (fun h => absurd rfl h) (reach_draw 1 r)
        rw [(created_named unnamed_unnamed hcreates (show w.id ≠ "" from husable _)).2]
        exact reach_draw 0 r
      | false =>
        obtain ⟨p,hp,_⟩ := eval_withSession_idle cfg (w := w) hcookie (husable _) hcreates
        rw [hp]
        exact ⟨Frame.pass _ w,fun id h => .inl h⟩
  · rw [visit_cookie hon hidle hcookie]
    exact confined_finished (Frame.refl _ w) (fun _ h => h) (.inl rfl) (reach_draw 0 r)

theorem history_frame (hon : cfg.enabled = true ∧ cfg.hasStore = true)
    (hidle : 0 < cfg.idleTimeout) {id : String} {later : List Arrival}
    (husable : ∀ n, w.rand n ≠ "") (hlater : ∀ a ∈ later, readSessionID a.request ≠ id)
    (hfresh : ∀ n, w.drawn ≤ n → w.rand n ≠ id) :
    (history cfg w later).store.entries id = w.store.entries id ∧
      (history cfg w later).store.lastInstant = w.store.lastInstant := by
  induction later generalizing w with
  | nil => exact ⟨rfl,rfl⟩
  | cons a later ih =>
    have hframe := (confined_visit cfg (r := a.request) (w := arrive w a) hon hidle
      husable).frame
    have hnot : ¬ Reach (arrive w a) a.request id := by
      rintro (heq | ⟨n,hn,heq⟩)
      · exact hlater a List.mem_cons_self heq.symm
      · exact hfresh n hn heq
    have hrand : (handled cfg w a).rand = w.rand := hframe.rand
    have hdrawn : w.drawn ≤ (handled cfg w a).drawn := hframe.drawn
    have hrest := ih (w := handled cfg w a) (by rw [hrand]; exact husable)
      (fun b hb => hlater b (List.mem_cons_of_mem a hb))
      (fun n hn => by rw [hrand]; exact hfresh n (Nat.le_trans hdrawn hn))
    exact ⟨hrest.1.trans (hframe.entries id hnot),hrest.2.trans hframe.lastInstant⟩

theorem not_live_iff (s : Store) (e : Entry) : s.live e = false ↔
    e.expiresAt < s.clock ∨ (e.expiresAt = s.clock ∧ s.lastInstant = false) := by
  have htotal : ∀ x now : Int, ¬ now < x ↔ x < now ∨ x = now := fun x now => by omega
  have hexclusive : ∀ x now : Int, x < now → now ≠ x := fun x now h => by omega
  simp only [Store.live,Bool.or_eq_false_iff,decide_eq_false_iff_not,htotal,Bool.and_eq_false_iff]
  constructor
  · rintro ⟨hlt | heq,hlast⟩
    · exact .inl hlt
    · exact .inr ⟨heq,hlast.resolve_right fun hne => hne heq.symm⟩
  · rintro (hlt | ⟨heq,hlast⟩)
    · exact ⟨.inl hlt,.inr (hexclusive _ _ hlt)⟩
    · exact ⟨.inr heq,.inl hlast⟩

theorem load_notFound_iff (s : Store) (id : String) : s.load id = .error .notFound ↔
    ∀ e, s.entries id = some e → s.live e = false := by
  unfold Store.load
  cases s.entries id with
  | none => simp
  | some e =>
    cases hlive : s.live e <;> simp [Option.filter,hlive]

theorem load_tick {s : Store} {wait : ℕ} {id : String} :
    (s.tick wait).load id = .error .notFound ↔ ∀ e, s.entries id = some e →
      e.expiresAt < s.clock+wait ∨ (e.expiresAt = s.clock+wait ∧ s.lastInstant = false) := by
  simp only [load_notFound_iff,not_live_iff]
  rfl

theorem elapsed_tick {t idle x : Int} {P : Prop} (hidle : 0 < idle)
    (h : x < t+((idle.toNat+1 : ℕ) : Int) ∨ (x = t+((idle.toNat+1 : ℕ) : Int) ∧ P)) :
    x ≤ t+idle ∨ (x = t+idle+1 ∧ P) := by
  rcases h with h | ⟨h,hP⟩
  · left; omega
  · exact .inr ⟨by omega,hP⟩

theorem elapsed_later {t idle x now : Int} {P : Prop} (hnow : t+idle < now)
    (h : x ≤ t+idle ∨ (x = t+idle+1 ∧ P)) : x < now ∨ (x = now ∧ P) := by
  rcases h with h | ⟨h,hP⟩
  · left; omega
  · rcases Int.lt_or_eq_of_le (show x ≤ now by omega) with hlt | heq
    · exact .inl hlt
    · exact .inr ⟨heq,hP⟩

theorem elapsed_saved (t : Int) {idle ttl : Int} {b : Bool} (h : idle < ttl) :
    (t+ttl ≤ t+idle ∨ (t+ttl = t+idle+1 ∧ b = false)) ↔
      (¬ idle+1 < ttl ∧ (b = false ∨ ¬ idle+1 = ttl)) := by
  cases b with
  | true => simp only [reduceCtorEq,and_false,or_false,false_or]; omega
  | false => simp only [and_true,true_or]; omega

theorem expiresIdle_iff (hon : cfg.enabled = true ∧ cfg.hasStore = true)
    (hidle : 0 < cfg.idleTimeout) {id : String} (husable : ∀ n, w.rand n ≠ "")
    (hfresh : ∀ n, w.drawn ≤ n → w.rand n ≠ id) :
    ExpiresIdle cfg w id ↔ ∀ e, w.store.entries id = some e →
      e.expiresAt ≤ w.store.clock+cfg.idleTimeout ∨
        (e.expiresAt = w.store.clock+cfg.idleTimeout+1 ∧ w.store.lastInstant = false) := by
  constructor
  · intro h e he
    have hpast : ∀ t i : Int, 0 < i → t+i < t+((i.toNat+1 : ℕ) : Int) := fun t i hi => by omega
    have hload := h [] (by simp) (cfg.idleTimeout.toNat+1) (hpast _ _ hidle)
    exact elapsed_tick hidle (load_tick.mp hload e he)
  · intro h later hlater wait hwait
    obtain ⟨hentries,hlast⟩ := history_frame hon hidle husable hlater hfresh
    rw [load_tick]
    intro e he
    rw [hentries] at he
    rw [hlast]
    exact elapsed_later hwait (h e he)

theorem touch_bound {s : Store} {id : String} {ttl : Duration} (httl : 0 < ttl) {e : Entry}
    (he : (s.touch id ttl).2.entries id = some e) : e.expiresAt ≤ s.clock+ttl := by
  unfold Store.touch at he
  split at he
  · rw [Store.set_self,Option.some.injEq] at he
    subst he
    exact Int.le_refl _
  · rename_i hdead
    have hnot : s.live e = false := by
      rw [Option.filter_eq_none_iff] at hdead
      simpa using hdead e he
    have hbound : ∀ x t i : Int, 0 < i → (x < t ∨ (x = t ∧ s.lastInstant = false)) → x ≤ t+i :=
      fun x t i hi h => by omega
    exact hbound _ _ _ httl ((not_live_iff s e).mp hnot)

-- a touched entry lasts for the idle timeout from the time the handler takes
theorem passed_bound {id : String} {ttl : Duration} (httl : 0 < ttl) :
    ∀ e, (w.touch id ttl).pass.store.entries id = some e →
      e.expiresAt ≤ (w.touch id ttl).pass.store.clock+ttl := by
  intro e he
  have hclock : Frame (fun _ => True) w (w.touch id ttl) := Frame.touch trivial _
  exact Int.le_trans (touch_bound httl he)
    (Int.add_le_add_right (hclock.trans (Frame.pass _ _)).clock _)

theorem handled_cookie (hon : cfg.enabled = true ∧ cfg.hasStore = true)
    (hidle : 0 < cfg.idleTimeout) {a : Arrival} {id : String} (hid : id ≠ "")
    (hcookie : readSessionID a.request = id) (hfresh : w.rand w.drawn ≠ id) :
    (saves w a = false → ∀ e, (handled cfg w a).store.entries id = some e →
      e.expiresAt ≤ (handled cfg w a).store.clock+cfg.idleTimeout) ∧
    (saves w a = true → ∃ d, (handled cfg w a).store.entries id =
      some ⟨d,(handled cfg w a).store.clock+cfg.ttl⟩) := by
  subst hcookie
  have hhandled : handled cfg w a = (finished cfg a.request (newSession (readSessionID a.request)
      (loaded (arrive w a) a.request) false) (arrive w a)).2 := by
    rw [handled,visit_cookie hon hidle hid]
  rw [hhandled,finished]
  dsimp only [newSession]
  generalize hx : applied a.request.calls ⟨newSession (readSessionID a.request)
    (loaded (arrive w a) a.request) false,announced (readSessionID a.request)⟩ = x
  have hsaves : saves w a = (!x.session.destroyed && !x.session.renewed && x.session.dirty) := by
    simp [saves,← hx,newSession]
  have hname : x.session.id = readSessionID a.request := by rw [← hx,applied_id]; rfl
  rw [hsaves]
  unfold newSession at hx
  rw [hx,committed_clock]
  generalize hw : ((arrive w a).touch (readSessionID a.request) cfg.idleTimeout).pass = w₁
  have hnext : w₁.id ≠ readSessionID a.request := by rw [← hw]; exact hfresh
  have hbound : ∀ e, w₁.store.entries (readSessionID a.request) = some e →
      e.expiresAt ≤ w₁.store.clock+cfg.idleTimeout := by
    rw [← hw]
    exact passed_bound hidle
  have hgone : ∀ w' : World, w'.store.entries (readSessionID a.request) = none →
      ∀ e, w'.store.entries (readSessionID a.request) = some e →
        e.expiresAt ≤ w₁.store.clock+cfg.idleTimeout := by
    intro w' hnone e he
    rw [hnone] at he
    cases he
  unfold committed
  cases x.session.destroyed with
  | true =>
    simp only [if_true,hid,ne_eq,not_false_eq_true,Bool.not_true,Bool.false_and,reduceCtorEq,
      false_imp_iff,and_true,true_imp_iff]
    exact hgone (w₁.delete _) (Store.set_self _ _ _)
  | false =>
    cases x.session.renewed with
    | true =>
      simp only [Bool.false_eq_true,if_false,if_true,deletedPrevious,hid,ne_eq,not_false_eq_true,
        Ne.symm hnext,and_self,Bool.not_true,Bool.and_false,Bool.false_and,false_imp_iff,and_true,
        true_imp_iff]
      exact hgone (World.delete _ _) (Store.set_self _ _ _)
    | false =>
      cases x.session.dirty with
      | true =>
        simp only [Bool.false_eq_true,if_false,if_true,Bool.not_false,Bool.and_self,reduceCtorEq,
          false_imp_iff,true_and,true_imp_iff,hname]
        exact ⟨_,Store.set_self _ _ _⟩
      | false =>
        simp only [Bool.false_eq_true,if_false,Bool.and_false,false_imp_iff,and_true,true_imp_iff]
        exact hbound

end Visit

theorem idle_session_expires_iff (cfg : Cfg) (hnorm : normalizeConfig cfg = cfg)
    (hon : cfg.enabled = true ∧ cfg.hasStore = true) (hlt : cfg.idleTimeout < cfg.ttl)
    (w : World) (before : List Arrival) (a : Arrival) (id : String)
    (hlast : Handles cfg (history cfg w before) a id)
    (hfresh : Unguessed cfg (history cfg w before) a id) :
    ExpiresIdle cfg (history cfg w (before ++ [a])) id ↔
      (readSessionID a.request = id ∧ saves (history cfg w before) a = false) ∨
        outlasts cfg (history cfg w before).store = false := by
  obtain ⟨httl,hidle⟩ := normalizeConfig_positive cfg
  rw [hnorm] at httl hidle
  have hsnoc : history cfg w (before ++ [a]) = handled cfg (history cfg w before) a := by
    simp [history,List.foldl_append]
  rw [hsnoc]
  generalize history cfg w before = w₁ at *
  have hvisit := confined_visit cfg (r := a.request) (w := arrive w₁ a) hon hidle
    hfresh.usable
  have hrand : (handled cfg w₁ a).rand = w₁.rand := hvisit.frame.rand
  have hinstant : (handled cfg w₁ a).store.lastInstant = w₁.store.lastInstant :=
    hvisit.frame.lastInstant
  rw [expiresIdle_iff hon hidle (by rw [hrand]; exact hfresh.usable)
    (by rw [hrand]; exact hfresh.session),hinstant]
  have hsaved : ∀ d, (handled cfg w₁ a).store.entries id =
      some ⟨d,(handled cfg w₁ a).store.clock+cfg.ttl⟩ →
      ((∀ e, (handled cfg w₁ a).store.entries id = some e →
        e.expiresAt ≤ (handled cfg w₁ a).store.clock+cfg.idleTimeout ∨
        (e.expiresAt = (handled cfg w₁ a).store.clock+cfg.idleTimeout+1 ∧
          w₁.store.lastInstant = false)) ↔ outlasts cfg w₁.store = false) := by
    intro d hd
    simp only [hd,Option.some.injEq,forall_eq',outlasts,Bool.or_eq_false_iff,
      decide_eq_false_iff_not,Bool.and_eq_false_iff]
    exact elapsed_saved _ hlt
  by_cases hcookie : readSessionID a.request = id
  · obtain ⟨hkept,hnew⟩ := handled_cookie hon hidle hlast.1 hcookie
      (hcookie ▸ hfresh.request _ (Nat.le_refl _))
    cases hsaves : saves w₁ a with
    | false => simpa [hcookie] using fun e he => .inl (hkept hsaves e he)
    | true =>
      obtain ⟨d,hd⟩ := hnew hsaves
      rw [hsaved d hd]
      simp
  · obtain ⟨hnone,hsome⟩ := hlast.2.resolve_left hcookie
    obtain ⟨d,hd⟩ := (hvisit.new id hnone).resolve_left hsome
    rw [hsaved d hd]
    simp [hcookie]

def vacant : World :=
  ⟨⟨0,true,fun _ => none⟩,fun n => String.ofList (List.replicate (n+1) 'x'),0,0,none⟩

def signedIn : Arrival := ⟨0,0,⟨none,[.set "user" "alice",.write],none⟩⟩

def viewed : Arrival := ⟨60,5,⟨some "x",[.get "user",.write],none⟩⟩

theorem vacant_rand (n : ℕ) (id : String) (h : vacant.rand n = id) : id.toList.length = n+1 := by
  rw [← h]
  simp [vacant]

theorem unguessed_signedIn : Unguessed enabledConfig (history enabledConfig vacant [signedIn])
    viewed "x" := by
  have hfirst := (confined_visit enabledConfig (r := signedIn.request)
    (w := arrive vacant signedIn) ⟨rfl,rfl⟩ (by decide) fun n h => by
      have hlength := vacant_rand n "" h
      simp at hlength).frame
  have hrand : (history enabledConfig vacant [signedIn]).rand = vacant.rand := hfirst.rand
  have hdrawn : (history enabledConfig vacant [signedIn]).drawn = 1 := by decide +kernel
  have hdrawn' : (handled enabledConfig (history enabledConfig vacant [signedIn]) viewed).drawn = 1 := by
    decide +kernel
  have hone : ∀ n, 1 ≤ n → vacant.rand n ≠ "x" := fun n hn h => by
    have hlength := vacant_rand n "x" h
    simp at hlength
    omega
  refine ⟨fun n h => ?_,fun n hn => ?_,fun n hn => ?_⟩
  · rw [hrand] at h
    have hlength := vacant_rand n "" h
    simp at hlength
  · rw [hrand,show readSessionID viewed.request = "x" by decide +kernel]
    exact hone n (hdrawn ▸ hn)
  · rw [hrand]
    exact hone n (hdrawn' ▸ hn)

theorem idle_session_expires_when_viewed :
    ExpiresIdle enabledConfig (history enabledConfig vacant ([signedIn] ++ [viewed])) "x" :=
  (idle_session_expires_iff enabledConfig (by decide) ⟨rfl,rfl⟩ (by decide) vacant [signedIn] viewed
    "x" ⟨by decide,.inl (by decide +kernel)⟩ unguessed_signedIn).mpr
      (.inl ⟨by decide +kernel,by decide +kernel⟩)

theorem saved_session_outlives_idle_timeout :
    ((history enabledConfig vacant [signedIn]).store.tick (60*60*1000000000)).load "x" =
      .ok [("user","alice")] ∧
    ¬ ExpiresIdle enabledConfig (history enabledConfig vacant [signedIn]) "x" := by
  have hload : ((history enabledConfig vacant [signedIn]).store.tick (60*60*1000000000)).load "x" =
      .ok [("user","alice")] := by decide +kernel
  refine ⟨hload,fun h => ?_⟩
  have hlate := h [] (by simp) (60*60*1000000000) (by decide +kernel)
  rw [history,List.foldl_nil,hload] at hlate
  cases hlate

end Nimburion.HTTP.Sessions
