import Nimburion.HTTP.SSEHub

namespace Nimburion.HTTP.SSE
open Interaction GoTime GoText

-- the events a subscriber is about to be sent from the replay store are routed to it
def replayRouted (c : Calls) (a : Step) : Bool :=
  match c.next a with
  | some (t,.getSince channel lastEventID limit,x) => match t.call with
      | .stream ctx req _ => x.err.isSome ||
          (c.shared.getSince channel lastEventID limit).all (matchesRouting (newClient ctx req ""))
      | _ => true
  | _ => true

def routed (c : Calls) (a : Step) : Bool :=
  match c.next a with
  | some (_,.writeEvent ref event,_) =>
      (c.shared.clientAt ref).any fun client => matchesRouting client event
  | _ => true

inductive Quiet : Op → Prop
  | nextEventID : Quiet .nextEventID
  | lookupSub (channel : String) : Quiet (.lookupSub channel)
  | busSubscribe (ctx : ℕ) (channel : String) : Quiet (.busSubscribe ctx channel)
  | recordSub (channel : String) (sub : ℕ) : Quiet (.recordSub channel sub)
  | remove (clientID : String) : Quiet (.remove clientID)
  | beginClose (ref : ℕ) : Quiet (.beginClose ref)
  | closeEvents (ref : ℕ) : Quiet (.closeEvents ref)
  | takeAll : Quiet .takeAll
  | unlock : Quiet .unlock

abbrev Uses {α : Type} (p : M α) : Prop := Prog.Uses Quiet p

theorem uses_closeClient (ref : ℕ) : Uses (closeClient ref) :=
  Prog.Obeys.step (fun _ => .beginClose ref) fun _ =>
    Prog.Obeys.ite (Prog.Obeys.perform fun _ => .closeEvents ref) (Prog.Obeys.pure _)

theorem uses_disconnect (id : String) : Uses (disconnect id) := by
  refine Prog.Obeys.step (fun _ => .remove id) fun removed => ?_
  cases removed with
  | none => exact Prog.Obeys.pure none
  | some removed => exact Prog.Obeys.bind (uses_closeClient removed.1) fun _ => Prog.Obeys.pure _

theorem uses_ensureBusSubscription (ctx : ℕ) (channel : String) :
    Uses (ensureBusSubscription ctx channel) := by
  refine Prog.Obeys.step (fun _ => .lookupSub channel) fun existing =>
    Prog.Obeys.ite (Prog.Obeys.pure _) ?_
  refine Prog.Obeys.step (fun _ => .busSubscribe ctx channel) fun sub => ?_
  cases sub with
  | error e => exact Prog.Obeys.pure _
  | ok sub => exact Prog.Obeys.perform fun _ => .recordSub channel sub

theorem uses_chooseClientID (value : String) : Uses (chooseClientID value) :=
  Prog.Obeys.ite (Prog.Obeys.pure _) (Prog.Obeys.step (fun _ => .nextEventID) fun _ =>
    Prog.Obeys.pure _)

theorem uses_close : Uses close := by
  have hclients : ∀ refs, Uses (closeClients refs) := by
    intro refs
    induction refs with
    | nil => exact Prog.Obeys.pure ()
    | cons ref refs ih => exact Prog.Obeys.bind (uses_closeClient ref) fun _ => ih
  exact Prog.Obeys.step (fun _ => .takeAll) fun refs => Prog.Obeys.bind (hclients refs) fun _ =>
    Prog.Obeys.step (fun _ => .unlock) fun _ => Prog.Obeys.pure _

-- an event is sent to a client of the snapshot it is routed to, and written to the handler's own
-- client if it came from the replay store or from that client's channel
def sources (call : Call) : Spec Ans where
  pre tr op := match op with
    | .send ref event => ∃ channel clients c, ⟨.snapshot channel,clients⟩ ∈ tr ∧
        (ref,c) ∈ clients ∧ matchesRouting c event = true
    | .writeEvent ref event => ∃ ctx req rounds id needSub, call = .stream ctx req rounds ∧
        ⟨.register (newClient ctx req id),.ok (ref,needSub)⟩ ∈ tr ∧
        ((∃ channel lastEventID limit events, ⟨.getSince channel lastEventID limit,.ok events⟩ ∈ tr ∧
            event ∈ events) ∨ ∃ ctx last, ⟨.await ref ctx last,.event event⟩ ∈ tr)
    | _ => True
  ans _ _ := True

section Programs

variable {call : Call} {cfg : ManagerConfig} {tr : Trace}

theorem meets_quiet {α : Type} {p : M α} {F : Trace → Prop} (h : Uses p)
    (hgrow : ∀ ev tr, F tr → F (ev :: tr)) (hF : F tr) :
    Prog.Meets (sources call) (fun tr' _ => F tr') tr p :=
  h.meets (fun _ _ _ hop => by cases hop <;> trivial) (fun ev tr _ => hgrow ev tr) hF

theorem meets_after {α β : Type} {p : M α} {f : α → M β} {F : Trace → Prop}
    {post : Trace → Except GoError β → Prop}
    (hp : Prog.Meets (sources call) (fun tr' _ => F tr') tr p) (herr : ∀ tr e, post tr (.error e))
    (hf : ∀ a tr', F tr' → Prog.Meets (sources call) post tr' (f a)) :
    Prog.Meets (sources call) post tr (p >>= f) := by
  rw [Prog.meets_bind]
  refine Prog.meets_mono ?_ hp
  rintro tr' (e | a) hF
  · exact herr tr' e
  · exact hf a tr' hF

theorem meets_enqueue {F : Trace → Prop} {ref : ℕ} {event : Evt}
    (hgrow : ∀ ev tr, F tr → F (ev :: tr))
    (hsend : ∀ tr, F tr → (sources call).pre tr (.send ref event)) (hF : F tr) :
    Prog.Meets (sources call) (fun tr' _ => F tr') tr (enqueue ref event) := by
  simp only [enqueue,Prog.meets_bind,Prog.meets_perform]
  refine ⟨trivial,fun closed _ => ?_⟩
  cases closed with
  | true => exact hgrow _ _ hF
  | false =>
    simp only [Bool.false_eq_true,if_false,Prog.meets_bind,Prog.meets_perform]
    refine ⟨hsend _ (hgrow _ _ hF),fun result _ => ?_⟩
    cases result <;> exact hgrow _ _ (hgrow _ _ hF)

theorem meets_deliverTo {channel : String} {clients : List (ℕ × Client)} {event : Evt}
    (h : (⟨.snapshot channel,clients⟩ : Event Ans) ∈ tr) {rest : List (ℕ × Client)}
    (hrest : ∀ p ∈ rest, p ∈ clients) :
    Prog.Meets (sources call) (fun _ _ => True) tr (deliverTo cfg event rest) := by
  induction rest generalizing tr with
  | nil => trivial
  | cons p rest ih =>
    obtain ⟨ref,c⟩ := p
    have hnext : ∀ tr', (⟨.snapshot channel,clients⟩ : Event Ans) ∈ tr' →
        Prog.Meets (sources call) (fun _ _ => True) tr' (deliverTo cfg event rest) := fun tr' h' =>
      ih h' fun q hq => hrest q (List.mem_cons_of_mem _ hq)
    have hgrow : ∀ (ev : Event Ans) tr', (⟨.snapshot channel,clients⟩ : Event Ans) ∈ tr' →
        (⟨.snapshot channel,clients⟩ : Event Ans) ∈ ev :: tr' := fun _ _ h =>
      List.mem_cons_of_mem _ h
    rw [deliverTo]
    split_ifs with hmatch
    · refine meets_after (meets_enqueue hgrow (fun tr' h' => ?_) h) (fun _ _ => trivial)
        fun queued tr' h' => ?_
      · exact ⟨channel,clients,c,h',hrest _ List.mem_cons_self,hmatch⟩
      · split_ifs
        · exact meets_after (meets_quiet (uses_disconnect c.id) hgrow h') (fun _ _ => trivial)
            fun _ tr'' h'' => hnext tr'' h''
        · exact hnext tr' h'
    · exact hnext tr h

theorem meets_deliver (event : Evt) :
    Prog.Meets (sources call) (fun _ _ => True) tr (deliver cfg event) := by
  rw [deliver,Prog.meets_bind,Prog.meets_perform]
  exact ⟨trivial,fun clients _ => meets_deliverTo List.mem_cons_self fun p hp => hp⟩

theorem meets_publish (req : PublishRequest) :
    Prog.Meets (sources call) (fun _ _ => True) tr (publish cfg req) := by
  simp only [publish,Prog.meets_ite,Prog.meets_pure,Prog.meets_bind,Prog.meets_perform]
  refine ⟨fun _ => trivial,fun _ => ⟨trivial,fun stamp _ => ⟨trivial,fun appended _ => ?_⟩⟩⟩
  cases appended with
  | error e => trivial
  | ok =>
    simp only [Prog.meets_ite,Prog.meets_bind,Prog.meets_perform]
    refine ⟨fun _ => ⟨trivial,fun published _ => ?_⟩,fun _ => ?_⟩
    · cases published <;> trivial
    · exact Prog.meets_mono (by rintro tr' (e | _) _ <;> trivial) (meets_deliver _)

end Programs

section Streams

variable {cfg : ManagerConfig} {ctx rounds : ℕ} {req : SubscriptionRequest} {tr : Trace}

-- the handler's client and its replay are on record
def Served (ctx : ℕ) (req : SubscriptionRequest) (tr : Trace) :
    Except GoError (Except GoError (ℕ × Client × List Evt)) → Prop
  | .ok (.ok (ref,_,events)) => ∃ id needSub channel lastEventID limit,
      ⟨.register (newClient ctx req id),.ok (ref,needSub)⟩ ∈ tr ∧
        ⟨.getSince channel lastEventID limit,.ok events⟩ ∈ tr
  | _ => True

theorem meets_withdraw (id : String) (err : GoError) :
    Prog.Meets (sources (.stream ctx req rounds)) (Served ctx req) tr (withdraw id err) := by
  refine meets_after (F := fun _ => True) (meets_quiet (uses_disconnect id) (fun _ _ h => h)
    trivial) (fun _ _ => trivial) fun _ _ _ => ?_
  trivial

theorem meets_replaySince {id : String} {ref : ℕ} {needSub : Bool}
    (h : ⟨.register (newClient ctx req id),.ok (ref,needSub)⟩ ∈ tr) :
    Prog.Meets (sources (.stream ctx req rounds)) (Served ctx req) tr
      (replaySince cfg ref (newClient ctx req id)) := by
  simp only [replaySince,Prog.meets_bind,Prog.meets_perform]
  refine ⟨trivial,fun replay _ => ?_⟩
  cases replay with
  | error e => exact meets_withdraw _ e
  | ok events =>
    exact ⟨id,needSub,_,_,_,List.mem_cons_of_mem _ h,List.mem_cons_self⟩

theorem meets_subscribe (cfg : ManagerConfig) :
    Prog.Meets (sources (.stream ctx req rounds)) (Served ctx req) tr (subscribe cfg ctx req) := by
  rw [subscribe]
  split_ifs
  · trivial
  · refine meets_after (F := fun _ => True) (meets_quiet (uses_chooseClientID _) (fun _ _ h => h)
      trivial) (fun _ _ => trivial) fun id tr' _ => ?_
    rw [Prog.meets_bind,Prog.meets_perform]
    refine ⟨trivial,fun registered _ => ?_⟩
    cases registered with
    | error e => trivial
    | ok registered =>
      obtain ⟨ref,needSub⟩ := registered
      dsimp only
      split_ifs
      · refine meets_after (F := fun tr' => ⟨.register (newClient ctx req id),.ok (ref,needSub)⟩ ∈ tr')
          (meets_quiet (uses_ensureBusSubscription _ _) (fun _ _ h => List.mem_cons_of_mem _ h)
            List.mem_cons_self) (fun _ _ => trivial) fun ensured tr'' h'' => ?_
        cases ensured with
        | error e => exact meets_withdraw id e
        | ok => exact meets_replaySince h''
      · exact meets_replaySince List.mem_cons_self

def Owns (ctx : ℕ) (req : SubscriptionRequest) (ref : ℕ) (tr : Trace) : Prop :=
  ∃ id needSub, ⟨.register (newClient ctx req id),.ok (ref,needSub)⟩ ∈ tr

theorem Owns.cons {ref : ℕ} (h : Owns ctx req ref tr) (ev : Event Ans) :
    Owns ctx req ref (ev :: tr) := by
  obtain ⟨id,needSub,hmem⟩ := h
  exact ⟨id,needSub,List.mem_cons_of_mem _ hmem⟩

theorem Owns.writes {ref : ℕ} {event : Evt} (h : Owns ctx req ref tr)
    (hfrom : (∃ channel lastEventID limit events,
      ⟨.getSince channel lastEventID limit,.ok events⟩ ∈ tr ∧ event ∈ events) ∨
      ∃ ctx last, ⟨.await ref ctx last,.event event⟩ ∈ tr) :
    (sources (.stream ctx req rounds)).pre tr (.writeEvent ref event) := by
  obtain ⟨id,needSub,hmem⟩ := h
  exact ⟨ctx,req,rounds,id,needSub,rfl,hmem,hfrom⟩

theorem meets_writeReplay {ref : ℕ} {channel lastEventID : String} {limit : Int}
    {events rest : List Evt} (howns : Owns ctx req ref tr)
    (h : ⟨.getSince channel lastEventID limit,.ok events⟩ ∈ tr) (hrest : ∀ e ∈ rest, e ∈ events) :
    Prog.Meets (sources (.stream ctx req rounds)) (fun tr' _ => Owns ctx req ref tr') tr
      (writeReplay ref rest) := by
  induction rest generalizing tr with
  | nil => exact howns
  | cons event rest ih =>
    rw [writeReplay,Prog.meets_bind,Prog.meets_perform]
    refine ⟨howns.writes (.inl ⟨_,_,_,_,h,hrest event List.mem_cons_self⟩),fun written _ => ?_⟩
    cases written with
    | true =>
      exact ih (howns.cons _) (List.mem_cons_of_mem _ h) fun e he =>
        hrest e (List.mem_cons_of_mem _ he)
    | false => exact howns.cons _

theorem meets_listen {ref n : ℕ} (howns : Owns ctx req ref tr) :
    Prog.Meets (sources (.stream ctx req rounds)) (fun _ _ => True) tr (listen ref ctx n) := by
  induction n generalizing tr with
  | zero =>
    simp only [listen,Prog.meets_bind,Prog.meets_perform,Prog.meets_pure]
    exact ⟨trivial,fun _ _ => trivial⟩
  | succ n ih =>
    rw [listen,Prog.meets_bind,Prog.meets_perform]
    refine ⟨trivial,fun wake _ => ?_⟩
    cases wake with
    | done => trivial
    | heartbeat written =>
      cases written with
      | true => exact ih (howns.cons _)
      | false => trivial
    | event e =>
      dsimp only
      rw [Prog.meets_bind,Prog.meets_perform]
      refine ⟨(howns.cons _).writes (.inr ⟨_,_,List.mem_cons_self⟩),fun written _ => ?_⟩
      cases written with
      | true => exact ih ((howns.cons _).cons _)
      | false => trivial

theorem meets_stream : Prog.Meets (sources (.stream ctx req rounds)) (fun _ _ => True) tr
    (stream cfg ctx req rounds) := by
  rw [stream,Prog.meets_bind]
  refine Prog.meets_mono ?_ (meets_subscribe cfg)
  rintro tr' (e | e | ⟨ref,c,replay⟩) h
  · trivial
  · simp only [Prog.meets_bind,Prog.meets_perform,Prog.meets_pure]
    exact ⟨trivial,fun _ _ => trivial⟩
  · obtain ⟨id,needSub,channel,lastEventID,limit,hregister,hreplay⟩ := h
    have howns : Owns ctx req ref tr' := ⟨id,needSub,hregister⟩
    refine meets_after (F := fun _ => True) ?_ (fun _ _ => trivial) fun _ tr'' _ => ?_
    · refine meets_after (meets_writeReplay howns hreplay fun _ h => h) (fun _ _ => trivial)
        fun replayed tr₁ h₁ => ?_
      split_ifs
      · exact meets_listen h₁
      · trivial
    · refine meets_after (F := fun _ => True) (meets_quiet (uses_disconnect c.id) (fun _ _ h => h)
        trivial) (fun _ _ => trivial) fun _ tr₁ _ => ?_
      simp only [Prog.meets_bind,Prog.meets_perform,Prog.meets_pure]
      exact ⟨trivial,fun _ _ => trivial⟩

end Streams

theorem meets_program (cfg : ManagerConfig) (call : Call) :
    Prog.Meets (sources call) (fun _ _ => True) [] (program cfg call) := by
  have hquiet : ∀ {α : Type} {p : M α}, Uses p →
      Prog.Meets (sources call) (fun _ _ => True) [] p := fun h =>
    meets_quiet (F := fun _ => True) h (fun _ _ h => h) trivial
  cases call with
  | stream ctx req rounds => exact meets_stream
  | publish req => exact meets_publish req
  | forward event =>
    rw [program,Prog.meets_bind]
    exact Prog.meets_mono (by rintro tr' (e | _) _ <;> trivial) (meets_deliver event)
  | disconnect id => exact hquiet (uses_disconnect id)
  | close => exact hquiet uses_close

def Fact (call : Call) (s : Hub) : Event Ans → Prop
  | ⟨.register c,.ok (ref,_)⟩ => s.clientAt ref = some c
  | ⟨.snapshot _,clients⟩ => ∀ p ∈ clients, s.clientAt p.1 = some p.2
  | ⟨.await ref _ _,.event e⟩ => ∃ c, s.clientAt ref = some c ∧ matchesRouting c e = true
  | ⟨.getSince .., .ok events⟩ => ∀ ctx req rounds, call = .stream ctx req rounds →
      ∀ e ∈ events, matchesRouting (newClient ctx req "") e = true
  | _ => True

structure Routed (c : Calls) : Prop where
  meets : Machine.ThreadsMeet sources (fun _ _ _ => True) c
  buffers : ∀ conn ∈ c.shared.conns, ∀ e ∈ conn.events, matchesRouting conn.client e = true
  facts : ∀ t ∈ c.threads, ∀ ev ∈ t.trace, Fact t.call c.shared ev

section Steps

variable {cfg : ManagerConfig} {s s' : Hub} {ev : Event Ans} {conns : List Conn}

theorem forall_modify {p : Conn → Prop} {ref : ℕ} {f : Conn → Conn} (h : ∀ conn ∈ conns, p conn)
    (hf : ∀ conn, conns[ref]? = some conn → p (f conn)) : ∀ conn ∈ conns.modify ref f, p conn := by
  intro conn hconn
  obtain ⟨ref',href'⟩ := List.getElem?_of_mem hconn
  rw [List.getElem?_modify] at href'
  by_cases heq : ref = ref'
  · subst heq
    simp only [if_true] at href'
    obtain ⟨conn',hconn',rfl⟩ := Option.map_eq_some_iff.mp href'
    exact hf conn' hconn'
  · exact h conn (List.mem_of_getElem? (by simpa [heq] using href'))

theorem buffers_moves (h : Moves s ev conns)
    (hbuffers : ∀ conn ∈ s.conns, ∀ e ∈ conn.events, matchesRouting conn.client e = true)
    (hsend : ∀ ref event conn, ev = ⟨.send ref event,.sent⟩ → s.conns[ref]? = some conn →
      matchesRouting conn.client event = true) :
    ∀ conn ∈ conns, ∀ e ∈ conn.events, matchesRouting conn.client e = true := by
  cases h with
  | still ev _ => exact hbuffers
  | register c needSub =>
    intro conn hconn
    rcases List.mem_append.mp hconn with hold | hnew
    · exact hbuffers conn hold
    · rw [List.mem_singleton.mp hnew]
      simp
  | beginClose ref conn _ _ =>
    exact forall_modify hbuffers fun conn hconn => hbuffers conn (List.mem_of_getElem? hconn)
  | closeEvents ref =>
    exact forall_modify hbuffers fun conn hconn => hbuffers conn (List.mem_of_getElem? hconn)
  | send ref event conn hconn hopen =>
    refine forall_modify hbuffers fun conn hconn e he => ?_
    rcases List.mem_append.mp he with hold | hnew
    · exact hbuffers conn (List.mem_of_getElem? hconn) e hold
    · rw [List.mem_singleton.mp hnew]
      exact hsend ref event conn rfl hconn
  | receive ref ctx last event conn hconn hhead =>
    refine forall_modify hbuffers fun conn hconn e he => ?_
    exact hbuffers conn (List.mem_of_getElem? hconn) e (List.mem_of_mem_tail he)

theorem fact_moves {call : Call} {ev' : Event Ans} (hmoves : Moves s ev s'.conns)
    (h : Fact call s ev') : Fact call s' ev' := by
  unfold Fact at h ⊢
  split
  · exact moves_clientAt hmoves h
  · exact fun p hp => moves_clientAt hmoves (h p hp)
  · obtain ⟨c,hc,hmatch⟩ := h
    exact ⟨c,moves_clientAt hmoves hc,hmatch⟩
  · exact h
  · trivial

theorem moves_receive {ref ctx : ℕ} {last : Bool} {e : Evt}
    (h : Moves s ⟨.await ref ctx last,.event e⟩ conns) :
    ∃ conn, s.conns[ref]? = some conn ∧ conn.events.head? = some e := by
  cases h with
  | still _ hstill => cases hstill
  | receive ref ctx last event conn hconn hhead => exact ⟨conn,hconn,hhead⟩

theorem fact_exec {call : Call} {op : Op} {x : Choice} {ans : Ans op}
    (hx : exec cfg s op x = some (ans,s'))
    (hbuffers : ∀ conn ∈ s.conns, ∀ e ∈ conn.events, matchesRouting conn.client e = true)
    (hreplay : ∀ channel lastEventID limit ctx req rounds, op = .getSince channel lastEventID limit →
      call = .stream ctx req rounds → x.err.isSome = true ∨
        ∀ e ∈ s.getSince channel lastEventID limit,
          matchesRouting (newClient ctx req "") e = true) :
    Fact call s' ⟨op,ans⟩ := by
  cases op with
  | register c =>
    cases ans with
    | error e => trivial
    | ok registered =>
      obtain ⟨ref,needSub⟩ := registered
      obtain ⟨_,rfl,_,rfl⟩ := register_exec hx
      simp [Fact,Hub.clientAt]
  | getSince channel lastEventID limit =>
    cases ans with
    | error e => trivial
    | ok events =>
      intro ctx req rounds hcall
      have hor := hreplay channel lastEventID limit ctx req rounds rfl hcall
      simp only [exec] at hx
      split at hx
      · cases hx
      · rename_i hnot
        cases hx
        rcases hor with herr | hall
        · cases x with
          | fail e => exact absurd rfl (hnot e)
          | _ => cases herr
        · exact hall
  | snapshot channel =>
    simp only [exec] at hx
    split at hx
    · split_ifs at hx
      cases hx
      intro p hp
      obtain ⟨ref,_,hmap⟩ := List.mem_filterMap.mp hp
      obtain ⟨conn,hconn,rfl⟩ := Option.map_eq_some_iff.mp hmap
      exact clientAt_of_mem hconn
    · cases hx
  | await ref ctx last =>
    have hmoves := moves_exec hx
    cases ans with
    | done => trivial
    | heartbeat written => trivial
    | event e =>
      obtain ⟨conn,hconn,hhead⟩ := moves_receive hmoves
      exact ⟨conn.client,moves_clientAt hmoves (clientAt_of_mem hconn),
        hbuffers conn (List.mem_of_getElem? hconn) e (List.mem_of_mem_head? hhead)⟩
  | _ => trivial

end Steps

section Runs

variable {cfg : ManagerConfig} {c c' : Calls} {a : Step}

theorem replayRouted_exec {i : ℕ} {x : Choice} {t : Running} {op : Op}
    {k : Ans op → M (Option GoError)} (hq : replayRouted c (.exec i x) = true)
    (ht : c.threads[i]? = some t) (halive : t.alive = true) (hrest : t.rest = .call op k)
    (channel lastEventID : String) (limit : Int) (ctx : ℕ) (req : SubscriptionRequest) (rounds : ℕ)
    (hop : op = .getSince channel lastEventID limit) (hcall : t.call = .stream ctx req rounds) :
    x.err.isSome = true ∨ ∀ e ∈ c.shared.getSince channel lastEventID limit,
      matchesRouting (newClient ctx req "") e = true := by
  subst hop
  simpa only [replayRouted,Config.next_exec ht halive hrest,hcall,Bool.or_eq_true,
    List.all_eq_true] using hq

theorem sent_routed (h : Routed c) {t : Running} (ht : t ∈ c.threads) {ref : ℕ} {event : Evt}
    (hpre : (sources t.call).pre t.trace (.send ref event)) {conn : Conn}
    (hconn : c.shared.conns[ref]? = some conn) : matchesRouting conn.client event = true := by
  obtain ⟨channel,clients,client,hsnapshot,hmem,hmatch⟩ := hpre
  have hclient := h.facts t ht _ hsnapshot (ref,client) hmem
  rw [clientAt_of_mem hconn,Option.some.injEq] at hclient
  rwa [hclient]

theorem routed_step (h : Routed c) (hq : replayRouted c a = true)
    (hs : (manager cfg).step c a = some c') : Routed c' := by
  have hmeets : Machine.ThreadsMeet sources (fun _ _ _ => True) c' :=
    h.meets.step (m := manager cfg) (meets_program _) (fun _ _ _ _ _ _ _ => trivial) hs
  obtain ⟨call,rfl,rfl⟩ | ⟨i,x,t,op,k,ans,s',rfl,ht,halive,hrest,hx,rfl⟩ | ⟨i,t,rfl,ht,rfl⟩ |
    ⟨e,rfl,rfl⟩ := (manager cfg).step_cases hs
  · refine ⟨hmeets,h.buffers,fun t ht => ?_⟩
    rcases List.mem_append.mp ht with ht | ht
    · exact h.facts t ht
    · rw [List.mem_singleton.mp ht]
      simp
  · have hmoves := moves_exec hx
    have hmem := List.mem_of_getElem? ht
    have hmeet := h.meets t hmem
    rw [hrest,Prog.meets_call] at hmeet
    have hreplay := replayRouted_exec hq ht halive hrest
    refine ⟨hmeets,buffers_moves hmoves h.buffers ?_,Machine.forall_mem_set ?_ ?_⟩
    · intro ref event conn hev hconn
      cases hev
      exact sent_routed h hmem hmeet.1 hconn
    · exact fun u hu ev hev => fact_moves hmoves (h.facts u hu ev hev)
    · intro ev hev
      rcases List.mem_cons.mp hev with rfl | hev
      · exact fact_exec hx h.buffers hreplay
      · exact fact_moves hmoves (h.facts t hmem ev hev)
  · exact ⟨hmeets,h.buffers,Machine.forall_mem_set h.facts (h.facts t (List.mem_of_getElem? ht))⟩
  · exact ⟨hmeets,h.buffers,h.facts⟩

theorem written_routed (h : Routed c) {t : Running} (ht : t ∈ c.threads) {ref : ℕ} {event : Evt}
    (hpre : (sources t.call).pre t.trace (.writeEvent ref event)) :
    ∃ client, c.shared.clientAt ref = some client ∧ matchesRouting client event = true := by
  obtain ⟨ctx,req,rounds,id,needSub,hcall,hregister,hfrom⟩ := hpre
  rcases hfrom with ⟨channel,lastEventID,limit,events,hreplay,hmem⟩ | ⟨ctx',last,hawait⟩
  · exact ⟨_,h.facts t ht _ hregister,h.facts t ht _ hreplay ctx req rounds hcall event hmem⟩
  · exact h.facts t ht _ hawait

theorem routed_of_invariant (h : Routed c) : routed c a = true := by
  unfold routed
  split
  · rename_i t ref event x hnext
    obtain ⟨i,_,ht,_,k,hrest⟩ := Config.of_next hnext
    have hmem := List.mem_of_getElem? ht
    have hmeet := h.meets t hmem
    rw [hrest,Prog.meets_call] at hmeet
    obtain ⟨client,hclient,hmatch⟩ := written_routed h hmem hmeet.1
    rw [hclient]
    exact hmatch
  · rfl

end Runs

theorem written_events_routed (cfg : ManagerConfig) (acts : List Step)
    (h : (manager cfg).Along (fun c a => replayRouted c a = true) acts ⟨newManager,[]⟩) :
    (manager cfg).Along (fun c a => routed c a = true) acts ⟨newManager,[]⟩ := by
  refine (manager cfg).along_imp (I := Routed) (fun c a hrouted _ => routed_of_invariant hrouted)
    (fun c a c' hrouted hq hs => routed_step hrouted hq hs) ?_ h
  exact ⟨by simp [Machine.ThreadsMeet],by simp [newManager],by simp⟩

-- an event is published, then a client subscribes and is written the replay
def replayed (tenant : String) : List Step :=
  [.start (.publish ⟨"news","blue","","","{}",0⟩),.exec 0 (.stamp "1" 0),.exec 0 .ok,
    .exec 0 (.order []),.start (.stream 0 ⟨"reader","news",tenant,"",""⟩ 1),.exec 1 .ok,.exec 1 .ok,
    .exec 1 .ok]

def writtenTo (t : Running) : List Evt :=
  t.trace.filterMap fun ev => match ev with
    | ⟨.writeEvent _ event,_⟩ => some event
    | _ => none

theorem written_events_routed_to_tenant :
    (manager defaultManagerConfig).Along (fun c a => replayRouted c a = true) (replayed "blue")
      ⟨newManager,[]⟩ ∧
    (manager defaultManagerConfig).Along (fun c a => routed c a = true) (replayed "blue")
      ⟨newManager,[]⟩ :=
  ⟨by decide +kernel,written_events_routed _ _ (by decide +kernel)⟩

theorem replay_crosses_tenants :
    ((manager defaultManagerConfig).run (replayed "green") ⟨newManager,[]⟩).map
      (fun c => c.threads.map fun t => (writtenTo t).map Evt.tenantID) = some [[],["blue"]] ∧
    ¬ (manager defaultManagerConfig).Along (fun c a => routed c a = true) (replayed "green")
      ⟨newManager,[]⟩ :=
  ⟨by decide +kernel,by decide +kernel⟩

end Nimburion.HTTP.SSE
