import Nimburion.HTTP.SSEHub

namespace Nimburion.HTTP.SSE
open Interaction GoTime GoText

def Hub.eventsClosed (s : Hub) (ref : ℕ) : Bool := s.conns[ref]?.any Conn.eventsClosed

def sendsTo (ref : ℕ) (t : Running) : Bool :=
  match t.rest with
  | .call (.send ref' _) _ => ref' = ref
  | _ => false

def closesEvents (ref : ℕ) (t : Running) : Bool :=
  match t.rest with
  | .call (.closeEvents ref') _ => ref' = ref
  | _ => false

-- no delivery stands between its check of Client.closed and its send when the channel is closed
def unraced (c : Calls) (a : Step) : Bool :=
  match c.next a with
  | some (_,.closeEvents ref,_) => c.threads.all fun t => !(t.alive && sendsTo ref t)
  | _ => true

def channelSafe (c : Calls) (a : Step) : Bool :=
  match c.next a with
  | some (_,.send ref _,_) => !c.shared.eventsClosed ref
  | some (_,.closeEvents ref,_) => !c.shared.eventsClosed ref
  | _ => true

def checked : Spec Ans where
  pre tr op := match op with
    | .send ref _ => tr.head? = some ⟨.checkClosed ref,false⟩
    | .closeEvents ref => tr.head? = some ⟨.beginClose ref,true⟩
    | _ => True
  ans _ _ := True

abbrev Keeps {α : Type} (p : M α) : Prop := Prog.Obeys checked p

theorem keeps_closeClient (ref : ℕ) : Keeps (closeClient ref) := by
  intro tr
  simp only [closeClient,Prog.meets_bind,Prog.meets_perform]
  refine ⟨trivial,fun first _ => ?_⟩
  cases first with
  | true => exact ⟨rfl,fun _ _ => trivial⟩
  | false => trivial

theorem keeps_disconnect (id : String) : Keeps (disconnect id) := by
  refine Prog.Obeys.step (fun _ => trivial) fun removed => ?_
  cases removed with
  | none => exact Prog.Obeys.pure none
  | some removed => exact (keeps_closeClient removed.1).bind fun _ => Prog.Obeys.pure _

theorem keeps_enqueue (ref : ℕ) (event : Evt) : Keeps (enqueue ref event) := by
  intro tr
  simp only [enqueue,Prog.meets_bind,Prog.meets_perform]
  refine ⟨trivial,fun closed _ => ?_⟩
  cases closed with
  | true => trivial
  | false =>
    simp only [Bool.false_eq_true,if_false,Prog.meets_bind,Prog.meets_perform]
    refine ⟨rfl,fun result _ => ?_⟩
    cases result <;> trivial

theorem keeps_deliverTo (cfg : ManagerConfig) (event : Evt) (clients : List (ℕ × Client)) :
    Keeps (deliverTo cfg event clients) := by
  induction clients with
  | nil => exact Prog.Obeys.pure ()
  | cons x clients ih =>
    obtain ⟨ref,c⟩ := x
    refine Prog.Obeys.ite ((keeps_enqueue ref event).bind fun queued => Prog.Obeys.ite ?_ ih) ih
    exact (keeps_disconnect c.id).bind fun _ => ih

theorem keeps_deliver (cfg : ManagerConfig) (event : Evt) : Keeps (deliver cfg event) :=
  Prog.Obeys.step (fun _ => trivial) fun clients => keeps_deliverTo cfg event clients

theorem keeps_publish (cfg : ManagerConfig) (req : PublishRequest) : Keeps (publish cfg req) := by
  refine Prog.Obeys.ite (Prog.Obeys.pure _) (Prog.Obeys.step (fun _ => trivial) fun stamp => ?_)
  refine Prog.Obeys.step (fun _ => trivial) fun appended => ?_
  cases appended with
  | error e => exact Prog.Obeys.pure _
  | ok =>
    refine Prog.Obeys.ite (Prog.Obeys.step (fun _ => trivial) fun published => ?_)
      ((keeps_deliver cfg _).bind fun _ => Prog.Obeys.pure _)
    cases published <;> exact Prog.Obeys.pure _

theorem keeps_ensureBusSubscription (ctx : ℕ) (channel : String) :
    Keeps (ensureBusSubscription ctx channel) := by
  refine Prog.Obeys.step (fun _ => trivial) fun existing => Prog.Obeys.ite (Prog.Obeys.pure _) ?_
  refine Prog.Obeys.step (fun _ => trivial) fun sub => ?_
  cases sub with
  | error e => exact Prog.Obeys.pure _
  | ok sub => exact Prog.Obeys.perform fun _ => trivial

theorem keeps_withdraw (id : String) (err : GoError) : Keeps (withdraw id err) :=
  (keeps_disconnect id).bind fun _ => Prog.Obeys.pure _

theorem keeps_replaySince (cfg : ManagerConfig) (ref : ℕ) (c : Client) :
    Keeps (replaySince cfg ref c) := by
  refine Prog.Obeys.step (fun _ => trivial) fun replay => ?_
  cases replay with
  | error e => exact keeps_withdraw c.id e
  | ok events => exact Prog.Obeys.pure _

theorem keeps_subscribe (cfg : ManagerConfig) (ctx : ℕ) (req : SubscriptionRequest) :
    Keeps (subscribe cfg ctx req) := by
  refine Prog.Obeys.ite (Prog.Obeys.pure _) (Prog.Obeys.bind ?_ fun id => ?_)
  · exact Prog.Obeys.ite (Prog.Obeys.pure _) (Prog.Obeys.step (fun _ => trivial) fun _ => Prog.Obeys.pure _)
  refine Prog.Obeys.step (fun _ => trivial) fun registered => ?_
  cases registered with
  | error e => exact Prog.Obeys.pure _
  | ok registered =>
    refine Prog.Obeys.ite ((keeps_ensureBusSubscription _ _).bind fun ensured => ?_)
      (keeps_replaySince _ _ _)
    cases ensured with
    | error e => exact keeps_withdraw id e
    | ok => exact keeps_replaySince _ _ _

theorem keeps_writeReplay (ref : ℕ) (events : List Evt) : Keeps (writeReplay ref events) := by
  induction events with
  | nil => exact Prog.Obeys.pure true
  | cons event events ih =>
    exact Prog.Obeys.step (fun _ => trivial) fun _ => Prog.Obeys.ite ih (Prog.Obeys.pure _)

theorem keeps_listen (ref ctx rounds : ℕ) : Keeps (listen ref ctx rounds) := by
  induction rounds with
  | zero => exact Prog.Obeys.step (fun _ => trivial) fun _ => Prog.Obeys.pure _
  | succ rounds ih =>
    refine Prog.Obeys.step (fun _ => trivial) fun wake => ?_
    cases wake with
    | done => exact Prog.Obeys.pure _
    | heartbeat written => exact Prog.Obeys.ite ih (Prog.Obeys.pure _)
    | event e =>
      exact Prog.Obeys.step (fun _ => trivial) fun _ => Prog.Obeys.ite ih (Prog.Obeys.pure _)

theorem keeps_stream (cfg : ManagerConfig) (ctx : ℕ) (req : SubscriptionRequest) (rounds : ℕ) :
    Keeps (stream cfg ctx req rounds) := by
  refine (keeps_subscribe cfg ctx req).bind fun subscribed => ?_
  cases subscribed with
  | error e => exact Prog.Obeys.step (fun _ => trivial) fun _ => Prog.Obeys.pure _
  | ok served =>
    obtain ⟨ref,c,replay⟩ := served
    refine Prog.Obeys.bind ((keeps_writeReplay ref replay).bind fun _ =>
      Prog.Obeys.ite (keeps_listen ref ctx rounds) (Prog.Obeys.pure _)) fun _ => ?_
    exact (keeps_disconnect c.id).bind fun _ =>
      Prog.Obeys.step (fun _ => trivial) fun _ => Prog.Obeys.pure _

theorem keeps_close : Keeps close := by
  have hclients : ∀ refs, Keeps (closeClients refs) := by
    intro refs
    induction refs with
    | nil => exact Prog.Obeys.pure ()
    | cons ref refs ih => exact (keeps_closeClient ref).bind fun _ => ih
  exact Prog.Obeys.step (fun _ => trivial) fun refs => (hclients refs).bind fun _ =>
    Prog.Obeys.step (fun _ => trivial) fun _ => Prog.Obeys.pure _

theorem keeps_program (cfg : ManagerConfig) (call : Call) : Keeps (program cfg call) := by
  cases call with
  | stream ctx req rounds => exact keeps_stream cfg ctx req rounds
  | publish req => exact keeps_publish cfg req
  | forward event => exact (keeps_deliver cfg event).bind fun _ => Prog.Obeys.pure _
  | disconnect id => exact keeps_disconnect id
  | close => exact keeps_close

structure Sound (c : Calls) : Prop where
  meets : Machine.ThreadsMeet (fun _ => checked) (fun _ _ _ => True) c
  closing : ∀ ref, c.shared.eventsClosed ref = true →
    c.shared.conns[ref]?.any Conn.closing = true
  sends : ∀ t ∈ c.threads, t.alive = true → ∀ ref, sendsTo ref t = true →
    c.shared.eventsClosed ref = false
  once : ∀ ref, c.threads.countP (closesEvents ref) ≤ 1
  closer : ∀ ref, 0 < c.threads.countP (closesEvents ref) →
    c.shared.conns[ref]?.any Conn.closing = true ∧ c.shared.eventsClosed ref = false

section Steps

variable {cfg : ManagerConfig} {s s' : Hub} {ev : Event Ans} {conns : List Conn}

theorem any_modify (conns : List Conn) (ref ref' : ℕ) (f : Conn → Conn) (p : Conn → Bool)
    (h : ref = ref' → ∀ conn, p (f conn) = p conn) :
    (conns.modify ref f)[ref']?.any p = conns[ref']?.any p := by
  rw [List.getElem?_modify]
  by_cases href : ref = ref'
  · cases conns[ref']? with
    | none => simp
    | some conn => simp [href,h href conn]
  · simp [href]

theorem any_append (conns : List Conn) (conn : Conn) (ref : ℕ) {p : Conn → Bool}
    (h : p conn = false) : (conns ++ [conn])[ref]?.any p = conns[ref]?.any p := by
  rw [List.getElem?_append]
  split_ifs with hlt
  · rfl
  · rw [List.getElem?_eq_none (Nat.le_of_not_lt hlt)]
    cases hx : ([conn] : List Conn)[ref-conns.length]? with
    | none => rfl
    | some conn' =>
      have heq : conn' = conn := by simpa using List.mem_of_getElem? hx
      simp [heq,h]

theorem moves_eventsClosed (h : Moves s ev conns) (ref : ℕ) : ev = ⟨.closeEvents ref,()⟩ ∨
    conns[ref]?.any Conn.eventsClosed = s.eventsClosed ref := by
  cases h with
  | still ev _ => exact .inr rfl
  | register c needSub => exact .inr (any_append _ _ _ rfl)
  | beginClose ref' conn _ _ => exact .inr (any_modify _ _ _ _ _ fun _ _ => rfl)
  | closeEvents ref' =>
    by_cases href : ref' = ref
    · exact .inl (by rw [href])
    · exact .inr (any_modify _ _ _ _ _ fun heq => absurd heq href)
  | send ref' event conn _ _ => exact .inr (any_modify _ _ _ _ _ fun _ _ => rfl)
  | receive ref' ctx last event conn _ _ => exact .inr (any_modify _ _ _ _ _ fun _ _ => rfl)

theorem moves_closing (h : Moves s ev conns) (ref : ℕ) : ev = ⟨.beginClose ref,true⟩ ∨
    conns[ref]?.any Conn.closing = s.conns[ref]?.any Conn.closing := by
  cases h with
  | still ev _ => exact .inr rfl
  | register c needSub => exact .inr (any_append _ _ _ rfl)
  | beginClose ref' conn _ _ =>
    by_cases href : ref' = ref
    · exact .inl (by rw [href])
    · exact .inr (any_modify _ _ _ _ _ fun heq => absurd heq href)
  | closeEvents ref' => exact .inr (any_modify _ _ _ _ _ fun _ _ => rfl)
  | send ref' event conn _ _ => exact .inr (any_modify _ _ _ _ _ fun _ _ => rfl)
  | receive ref' ctx last event conn _ _ => exact .inr (any_modify _ _ _ _ _ fun _ _ => rfl)

theorem moves_beginClose {ref : ℕ} (h : Moves s ⟨.beginClose ref,true⟩ conns) :
    s.conns[ref]?.any Conn.closing = false ∧ conns[ref]?.any Conn.closing = true := by
  cases h with
  | still ev hstill => cases hstill
  | beginClose ref conn hconn hclosing => simp [hconn,hclosing]

theorem sendsTo_checked {t : Running} {ref : ℕ}
    (h : Prog.Meets checked (fun _ _ => True) t.trace t.rest) (hs : sendsTo ref t = true) :
    t.trace.head? = some ⟨.checkClosed ref,false⟩ := by
  unfold sendsTo at hs
  split at hs
  · rename_i ref' event k hrest
    rw [hrest,Prog.meets_call] at h
    rw [← of_decide_eq_true hs]
    exact h.1
  · cases hs

theorem closesEvents_first {t : Running} {ref : ℕ}
    (h : Prog.Meets checked (fun _ _ => True) t.trace t.rest) (hs : closesEvents ref t = true) :
    t.trace.head? = some ⟨.beginClose ref,true⟩ := by
  unfold closesEvents at hs
  split at hs
  · rename_i ref' k hrest
    rw [hrest,Prog.meets_call] at h
    rw [← of_decide_eq_true hs]
    exact h.1
  · cases hs

theorem closesEvents_of_rest {t : Running} {ref : ℕ} {k : Unit → M (Option GoError)}
    (hrest : t.rest = .call (.closeEvents ref) k) : closesEvents ref t = true := by
  simp [closesEvents,hrest]

end Steps

section Runs

variable {cfg : ManagerConfig} {c c' : Calls} {i : ℕ} {x : Choice} {t : Running} {op : Op}
  {k : Ans op → M (Option GoError)} {ans : Ans op} {s' : Hub}

abbrev stepped (t : Running) (op : Op) (k : Ans op → M (Option GoError)) (ans : Ans op) : Running :=
  { t with rest := k ans, trace := ⟨op,ans⟩ :: t.trace }

theorem closer_of_rest (h : Sound c) (ht : c.threads[i]? = some t) {ref : ℕ}
    (hclose : closesEvents ref t = true) :
    c.shared.conns[ref]?.any Conn.closing = true ∧ c.shared.eventsClosed ref = false :=
  h.closer ref (List.countP_pos_iff.mpr ⟨t,List.mem_of_getElem? ht,hclose⟩)

theorem sends_exec (h : Sound c) (hun : unraced c (.exec i x) = true) (ht : c.threads[i]? = some t)
    (halive : t.alive = true) (hrest : t.rest = .call op k)
    (hx : exec cfg c.shared op x = some (ans,s'))
    (hmeets : Prog.Meets checked (fun _ _ => True) (stepped t op k ans).trace
      (stepped t op k ans).rest) :
    ∀ u ∈ c.threads.set i (stepped t op k ans), u.alive = true → ∀ ref, sendsTo ref u = true →
      s'.eventsClosed ref = false := by
  have hmoves := moves_exec hx
  refine Machine.forall_mem_set ?_ ?_
  · intro u hu hualive ref hsends
    rcases moves_eventsClosed hmoves ref with hev | hsame
    · cases hev
      simp only [unraced,Config.next_exec ht halive hrest,List.all_eq_true] at hun
      have hnot := hun u hu
      rw [hualive,hsends] at hnot
      cases hnot
    · exact hsame.trans (h.sends u hu hualive ref hsends)
  · intro _ ref hsends
    have hhead := sendsTo_checked hmeets hsends
    rw [List.head?_cons,Option.some.injEq] at hhead
    cases hhead
    rcases moves_eventsClosed hmoves ref with hev | hsame
    · cases hev
    · refine hsame.trans ?_
      have hopen : c.shared.conns[ref]?.any Conn.closing = false :=
        congrArg Prod.fst (Option.some.inj hx)
      rw [Bool.eq_false_iff]
      intro hclosed
      rw [h.closing ref hclosed] at hopen
      cases hopen

theorem closer_exec (h : Sound c) (ht : c.threads[i]? = some t)
    (hrest : t.rest = .call op k) (hx : exec cfg c.shared op x = some (ans,s'))
    (hmeets : Prog.Meets checked (fun _ _ => True) (stepped t op k ans).trace
      (stepped t op k ans).rest) (ref : ℕ) :
    (c.threads.set i (stepped t op k ans)).countP (closesEvents ref) ≤ 1 ∧
    (0 < (c.threads.set i (stepped t op k ans)).countP (closesEvents ref) →
      s'.conns[ref]?.any Conn.closing = true ∧ s'.eventsClosed ref = false) := by
  have hmoves := moves_exec hx
  have hcount := Machine.countP_set_toNat (closesEvents ref) (stepped t op k ans) ht
  have honce := h.once ref
  have hcloser := h.closer ref
  cases hnew : closesEvents ref (stepped t op k ans) with
  | true =>
    have hhead := closesEvents_first hmeets hnew
    rw [List.head?_cons,Option.some.injEq] at hhead
    cases hhead
    obtain ⟨hbefore,hafter⟩ := moves_beginClose hmoves
    have hnone : c.threads.countP (closesEvents ref) = 0 := by
      by_contra hne
      rw [(hcloser (Nat.pos_of_ne_zero hne)).1] at hbefore
      cases hbefore
    have hbit := (closesEvents ref (stepped t (.beginClose ref) k true)).toNat_le
    refine ⟨by omega,fun _ => ⟨hafter,?_⟩⟩
    rcases moves_eventsClosed hmoves ref with hev | hsame
    · cases hev
    · refine hsame.trans ?_
      rw [Bool.eq_false_iff]
      intro hclosed
      rw [h.closing ref hclosed] at hbefore
      cases hbefore
  | false =>
    rw [hnew,Bool.toNat_false,Nat.add_zero] at hcount
    refine ⟨by omega,fun hpos => ?_⟩
    obtain ⟨hclosing,hopen⟩ := hcloser (by omega)
    constructor
    · rcases moves_closing hmoves ref with hev | hsame
      · cases hev
        exact (moves_beginClose hmoves).2
      · exact hsame.trans hclosing
    · rcases moves_eventsClosed hmoves ref with hev | hsame
      · cases hev
        rw [closesEvents_of_rest hrest,Bool.toNat_true] at hcount
        omega
      · exact hsame.trans hopen

theorem closing_exec (h : Sound c) (ht : c.threads[i]? = some t) (hrest : t.rest = .call op k)
    (hx : exec cfg c.shared op x = some (ans,s')) (ref : ℕ)
    (hclosed : s'.eventsClosed ref = true) : s'.conns[ref]?.any Conn.closing = true := by
  have hmoves := moves_exec hx
  have hbefore : c.shared.conns[ref]?.any Conn.closing = true := by
    rcases moves_eventsClosed hmoves ref with hev | hsame
    · cases hev
      exact (closer_of_rest h ht (closesEvents_of_rest hrest)).1
    · exact h.closing ref (hsame.symm.trans hclosed)
  rcases moves_closing hmoves ref with hev | hsame
  · cases hev
    exact (moves_beginClose hmoves).2
  · exact hsame.trans hbefore

theorem sound_start {u : Running} (h : Sound c)
    (hmeets : Machine.ThreadsMeet (fun _ => checked) (fun _ _ _ => True)
      ({ c with threads := c.threads ++ [u] } : Calls)) (hu : u.trace = []) :
    Sound { c with threads := c.threads ++ [u] } := by
  have hfirst := hmeets u (List.mem_append_right _ (List.mem_singleton_self _))
  have hsends : ∀ ref, sendsTo ref u ≠ true := fun ref hpoised => by
    have hhead := sendsTo_checked hfirst hpoised
    rw [hu] at hhead
    cases hhead
  have hcount : ∀ ref, (c.threads ++ [u]).countP (closesEvents ref) =
      c.threads.countP (closesEvents ref) := by
    intro ref
    have hnot : ¬ closesEvents ref u = true := fun hpoised => by
      have hhead := closesEvents_first hfirst hpoised
      rw [hu] at hhead
      cases hhead
    rw [List.countP_append,List.countP_singleton,if_neg hnot,Nat.add_zero]
  refine ⟨hmeets,h.closing,?_,fun ref => (hcount ref).symm ▸ h.once ref,
    fun ref hpos => h.closer ref (hcount ref ▸ hpos)⟩
  intro t ht halive ref hpoised
  rcases List.mem_append.mp ht with ht | ht
  · exact h.sends t ht halive ref hpoised
  · rw [List.mem_singleton.mp ht] at hpoised
    exact absurd hpoised (hsends ref)

theorem sound_step {a : Step} (h : Sound c) (hun : unraced c a = true)
    (hs : (manager cfg).step c a = some c') : Sound c' := by
  have hmeets : Machine.ThreadsMeet (fun _ => checked) (fun _ _ _ => True) c' :=
    h.meets.step (m := manager cfg) (fun call => keeps_program _ call [])
      (fun _ _ _ _ _ _ _ => trivial) hs
  obtain ⟨call,rfl,rfl⟩ | ⟨i,x,t,op,k,ans,s',rfl,ht,halive,hrest,hx,rfl⟩ | ⟨i,t,rfl,ht,rfl⟩ |
    ⟨e,rfl,rfl⟩ := (manager cfg).step_cases hs
  · exact sound_start h hmeets rfl
  · have hstepped := hmeets _ (List.mem_set (List.getElem?_eq_some_iff.mp ht).1 _)
    exact ⟨hmeets,closing_exec h ht hrest hx,sends_exec h hun ht halive hrest hx hstepped,
      fun ref => (closer_exec h ht hrest hx hstepped ref).1,
      fun ref => (closer_exec h ht hrest hx hstepped ref).2⟩
  · have hcount : ∀ ref, (c.threads.set i { t with alive := false }).countP (closesEvents ref) =
        c.threads.countP (closesEvents ref) := fun ref =>
      Machine.countP_set_of_same ht rfl
    refine ⟨hmeets,h.closing,Machine.forall_mem_set h.sends (by simp),
      fun ref => (hcount ref).symm ▸ h.once ref,fun ref hpos => h.closer ref (hcount ref ▸ hpos)⟩
  · exact ⟨hmeets,h.closing,h.sends,h.once,h.closer⟩

theorem channelSafe_of_sound {a : Step} (h : Sound c) : channelSafe c a = true := by
  unfold channelSafe
  split
  · rename_i t ref event x hnext
    obtain ⟨i,_,ht,halive,k,hrest⟩ := Config.of_next hnext
    rw [h.sends t (List.mem_of_getElem? ht) halive ref (by simp [sendsTo,hrest])]
    rfl
  · rename_i t ref x hnext
    obtain ⟨i,_,ht,_,k,hrest⟩ := Config.of_next hnext
    rw [(closer_of_rest h ht (closesEvents_of_rest hrest)).2]
    rfl
  · rfl

end Runs

theorem sends_find_open_channels (cfg : ManagerConfig) (acts : List Step)
    (h : (manager cfg).Along (fun c a => unraced c a = true) acts ⟨newManager,[]⟩) :
    (manager cfg).Along (fun c a => channelSafe c a = true) acts ⟨newManager,[]⟩ := by
  refine (manager cfg).along_imp (I := Sound) (fun c a hsound _ => channelSafe_of_sound hsound)
    (fun c a c' hsound hun hs => sound_step hsound hun hs) ?_ h
  exact ⟨by simp [Machine.ThreadsMeet],by simp [newManager,Hub.eventsClosed],by simp,by simp,by simp⟩

def reader : SubscriptionRequest := ⟨"reader","news","","",""⟩

def headline : PublishRequest := ⟨"news","","","","{}",0⟩

-- a client subscribes, then an event is published up to the check of its Client.closed
def published : List Step :=
  [.start (.stream 0 reader 1),.exec 0 .ok,.exec 0 .ok,.start (.publish headline),
    .exec 1 (.stamp "1" 0),.exec 1 .ok,.exec 1 (.order [0]),.exec 1 .ok]

def dropped : List Step :=
  [.start (.disconnect "reader"),.exec 2 .ok,.exec 2 .ok,.exec 2 .ok]

theorem sends_find_open_channels_when_sent_first :
    (manager defaultManagerConfig).Along (fun c a => unraced c a = true)
      (published ++ [.exec 1 .ok] ++ dropped) ⟨newManager,[]⟩ ∧
    (manager defaultManagerConfig).Along (fun c a => channelSafe c a = true) (published ++ [.exec 1 .ok] ++ dropped)
      ⟨newManager,[]⟩ :=
  ⟨by decide +kernel,sends_find_open_channels _ _ (by decide +kernel)⟩

def panicked (t : Running) : Bool :=
  match t.rest with
  | .fail e => e = .text "send on closed channel"
  | _ => false

theorem send_on_closed_channel :
    ((manager defaultManagerConfig).run (published ++ dropped ++ [.exec 1 .ok]) ⟨newManager,[]⟩).map
      (fun c => c.threads.map panicked) = some [false,true,false] ∧
    ¬ (manager defaultManagerConfig).Along (fun c a => channelSafe c a = true)
      (published ++ dropped ++ [.exec 1 .ok]) ⟨newManager,[]⟩ :=
  ⟨by decide +kernel,by decide +kernel⟩

end Nimburion.HTTP.SSE
