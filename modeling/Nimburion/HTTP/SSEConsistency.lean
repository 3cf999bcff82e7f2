import Nimburion.HTTP.SSEChannels
import Nimburion.HTTP.SSEHandlers
import Nimburion.HTTP.SSEIndex

namespace Nimburion.HTTP.SSE
open Interaction GoTime GoText

-- the clients a call has taken out of the index, and those it has begun to close
def taken : Trace → List ℕ
  | [] => []
  | ⟨.remove _,some (ref,_)⟩ :: tr => ref :: taken tr
  | ⟨.takeAll,refs⟩ :: tr => refs ++ taken tr
  | _ :: tr => taken tr

def begun : Trace → List ℕ
  | [] => []
  | ⟨.beginClose ref,_⟩ :: tr => ref :: begun tr
  | _ :: tr => begun tr

def Owed (refs : List ℕ) (tr : Trace) : Prop := ∀ ref ∈ taken tr, ref ∈ refs ∨ ref ∈ begun tr

abbrev Settled (tr : Trace) : Prop := Owed [] tr

def closesTaken : Spec Ans where
  pre tr op := between op = true → Settled tr
  ans _ _ := True

abbrev Closes {α : Type} (p : M α) : Prop := Prog.Preserves closesTaken Settled p

section Closing

variable {cfg : ManagerConfig} {tr : Trace}

theorem closesTaken_pre {op : Op} (h : between op = false) : closesTaken.pre tr op := by
  intro hop
  rw [h] at hop
  cases hop

theorem closes_closeClient {ref : ℕ} (refs : List ℕ) (h : Owed (ref :: refs) tr) :
    Prog.Meets closesTaken (fun tr' r => r = .ok () ∧ Owed refs tr') tr (closeClient ref) := by
  simp only [closeClient,Prog.meets_bind,Prog.meets_perform]
  refine ⟨closesTaken_pre rfl,fun first _ => ?_⟩
  have howed : Owed refs (⟨.beginClose ref,first⟩ :: tr) := by
    intro r hr
    rcases h r hr with hmem | hmem
    · rcases List.mem_cons.mp hmem with rfl | hmem
      · exact .inr List.mem_cons_self
      · exact .inl hmem
    · exact .inr (List.mem_cons_of_mem _ hmem)
  cases first with
  | true => exact ⟨closesTaken_pre rfl,fun _ _ => ⟨rfl,howed⟩⟩
  | false => exact ⟨rfl,howed⟩

theorem closes_disconnect (id : String) : Closes (disconnect id) := by
  intro tr h
  rw [disconnect,Prog.meets_bind,Prog.meets_perform]
  refine ⟨closesTaken_pre rfl,fun removed _ => ?_⟩
  cases removed with
  | none => exact h
  | some removed =>
    obtain ⟨ref,err⟩ := removed
    dsimp only
    rw [Prog.meets_bind]
    refine Prog.meets_mono ?_ (closes_closeClient [] fun r hr => ?_)
    · rintro tr' r ⟨rfl,hsettled⟩
      exact hsettled
    · rcases List.mem_cons.mp hr with rfl | hr
      · exact .inl List.mem_cons_self
      · exact .inr ((h r hr).resolve_left (by simp))

theorem closes_enqueue (ref : ℕ) (event : Evt) : Closes (enqueue ref event) := by
  refine .step (fun _ _ => closesTaken_pre rfl) (fun _ _ h => h) fun _ => .ite (.pure _) ?_
  refine .step (fun _ _ => closesTaken_pre rfl) (fun _ _ h => h) fun result => ?_
  cases result with
  | sent => exact .pure _
  | full => exact .pure _
  | panicked => exact .fail _

theorem closes_deliver (event : Evt) : Closes (deliver cfg event) := by
  refine .step (fun _ _ => closesTaken_pre rfl) (fun _ _ h => h) fun clients => ?_
  induction clients with
  | nil => exact .pure ()
  | cons p clients ih =>
    obtain ⟨ref,c⟩ := p
    refine .ite (.bind (closes_enqueue ref event) fun queued => .ite ?_ ih) ih
    exact .bind (closes_disconnect c.id) fun _ => ih

theorem closes_publish (req : PublishRequest) : Closes (publish cfg req) := by
  refine .ite (.pure _) (.step (fun _ _ => closesTaken_pre rfl) (fun _ _ h => h) fun stamp => ?_)
  refine .step (fun _ _ => closesTaken_pre rfl) (fun _ _ h => h) fun appended => ?_
  cases appended with
  | error e => exact .pure _
  | ok =>
    refine .ite (.step (fun _ _ => closesTaken_pre rfl) (fun _ _ h => h) fun published => ?_)
      (.bind (closes_deliver _) fun _ => .pure _)
    cases published <;> exact .pure _

theorem closes_subscribe (ctx : ℕ) (req : SubscriptionRequest) : Closes (subscribe cfg ctx req) := by
  have hwithdraw : ∀ id err, Closes (withdraw id err) := fun id err =>
    .bind (closes_disconnect id) fun _ => .pure _
  have hreplay : ∀ ref c, Closes (replaySince cfg ref c) := by
    refine fun ref c => .step (fun _ _ => closesTaken_pre rfl) (fun _ _ h => h) fun replay => ?_
    cases replay with
    | error e => exact hwithdraw c.id e
    | ok events => exact .pure _
  refine .ite (.pure _) (.bind ?_ fun id => ?_)
  · exact .ite (.pure _) (.step (fun _ _ => closesTaken_pre rfl) (fun _ _ h => h) fun _ => .pure _)
  refine .step (fun _ _ => closesTaken_pre rfl) (fun _ _ h => h) fun registered => ?_
  cases registered with
  | error e => exact .pure _
  | ok registered =>
    refine .ite (.bind ?_ fun ensured => ?_) (hreplay _ _)
    · refine .step (fun _ _ => closesTaken_pre rfl) (fun _ _ h => h) fun _ => .ite (.pure _) ?_
      refine .step (fun _ _ => closesTaken_pre rfl) (fun _ _ h => h) fun sub => ?_
      cases sub with
      | error e => exact .pure _
      | ok sub => exact .perform (fun _ _ => closesTaken_pre rfl) fun _ _ h => h
    · cases ensured with
      | error e => exact hwithdraw id e
      | ok => exact hreplay _ _

theorem closes_serveClient (ref ctx : ℕ) (replay : List Evt) (n : ℕ) :
    Closes (serveClient ref ctx replay n) := by
  have hwrite : ∀ events, Closes (writeReplay ref events) := by
    intro events
    induction events with
    | nil => exact .pure _
    | cons event events ih => exact .step (fun _ h _ => h) (fun _ _ h => h) fun _ => .ite ih (.pure _)
  have hlisten : Closes (listen ref ctx n) := by
    induction n with
    | zero => exact .step (fun _ h _ => h) (fun _ _ h => h) fun _ => .pure _
    | succ n ih =>
      refine .step (fun _ h _ => h) (fun _ _ h => h) fun wake => ?_
      cases wake with
      | done => exact .pure _
      | heartbeat written => exact .ite ih (.pure _)
      | event e => exact .step (fun _ h _ => h) (fun _ _ h => h) fun _ => .ite ih (.pure _)
  exact (hwrite replay).bind fun _ => .ite hlisten (.pure _)

theorem closes_stream (ctx : ℕ) (req : SubscriptionRequest) (rounds : ℕ) :
    Closes (stream cfg ctx req rounds) := by
  refine (closes_subscribe ctx req).bind fun subscribed => ?_
  cases subscribed with
  | error e => exact .step (fun _ h _ => h) (fun _ _ h => h) fun _ => .pure _
  | ok served =>
    obtain ⟨ref,c,replay⟩ := served
    exact (closes_serveClient ref ctx replay rounds).bind fun _ =>
      (closes_disconnect c.id).bind fun _ => .step (fun _ h _ => h) (fun _ _ h => h) fun _ => .pure _

theorem closes_closeClients (refs : List ℕ) (h : Owed refs tr) :
    Prog.Meets closesTaken (fun tr' _ => Settled tr') tr (closeClients refs) := by
  induction refs generalizing tr with
  | nil => exact h
  | cons ref refs ih =>
    rw [closeClients,Prog.meets_bind]
    refine Prog.meets_mono ?_ (closes_closeClient refs h)
    rintro tr' r ⟨rfl,howed⟩
    exact ih howed

theorem closes_close : Closes close := by
  intro tr h
  rw [close,Prog.meets_bind,Prog.meets_perform]
  refine ⟨closesTaken_pre rfl,fun refs _ => ?_⟩
  dsimp only
  rw [Prog.meets_bind]
  refine Prog.meets_mono ?_ (closes_closeClients refs fun r hr => ?_)
  · rintro tr' (e | _) hsettled
    · exact hsettled
    · simp only [Prog.meets_bind,Prog.meets_perform,Prog.meets_pure]
      exact ⟨closesTaken_pre rfl,fun _ _ => hsettled⟩
  · exact (List.mem_append.mp hr).imp_right fun hr => (h r hr).resolve_left (by simp)

theorem closes_program (call : Call) : Closes (program cfg call) := by
  cases call with
  | stream ctx req rounds => exact closes_stream ctx req rounds
  | publish req => exact closes_publish req
  | forward event => exact (closes_deliver event).bind fun _ => .pure _
  | disconnect id => exact closes_disconnect id
  | close => exact closes_close

end Closing

def Hub.closing (s : Hub) (ref : ℕ) : Bool := s.conns[ref]?.any Conn.closing

-- the ID is unused, and no handler that took it has yet to disconnect
def freshID (cfg : ManagerConfig) (c : Calls) (a : Step) : Bool :=
  match c.next a with
  | some (_,.register client,_) => c.shared.refuses (normalizeManagerConfig cfg) ||
      ((c.shared.connections.lookup client.id).isNone &&
        c.threads.all fun t => !(t.alive && (holds t.trace).any fun held => held.1 = client.id))
  | _ => true

-- a handler that disconnects finds its own client or none
def ownDisconnect (c : Calls) (a : Step) : Bool :=
  match c.next a with
  | some (t,.remove id,_) => match t.call with
      | .stream .. => (c.shared.connections.lookup id).all fun ref =>
          (holds t.trace).any fun held => held.2 = ref
      | _ => true
  | _ => true

def quiescent (c : Calls) : Bool := c.threads.all fun t => !inCall t

def Hub.openClients (s : Hub) : List ℕ :=
  (List.range s.conns.length).filter fun ref => !s.closing ref

structure Consistent (cfg : ManagerConfig) (s : Hub) : Prop where
  index : ∀ channel id ref, (s.channelClients channel).lookup id = some ref ↔
    s.connections.lookup id = some ref ∧ (s.clientAt ref).map Client.channel = some channel
  kept : ∀ ref client, s.clientAt ref = some client →
    s.connections.lookup client.id = some ref ∨ s.closing ref = true
  bounded : (s.openClients.length : Int) ≤ cfg.maxConnections

structure Tracked (cfg : ManagerConfig) (c : Calls) : Prop where
  closes : Machine.ThreadsMeet (fun _ => closesTaken) (fun _ tr _ => Settled tr) c
  handled : Machine.ThreadsMeet handled (fun _ tr _ => Left tr) c
  index : Indexed c.shared
  begun : ∀ t ∈ c.threads, ∀ ref ∈ begun t.trace, c.shared.closing ref = true
  tracked : ∀ ref client, c.shared.clientAt ref = some client →
    c.shared.connections.lookup client.id = some ref ∨ ∃ t ∈ c.threads, ref ∈ taken t.trace
  bounded : (c.shared.connections.entries.length : Int) ≤
    (normalizeManagerConfig cfg).maxConnections
  held : ∀ t ∈ c.threads, t.alive = true → ∀ id ref, holds t.trace = some (id,ref) →
    ∀ ref', c.shared.connections.lookup id = some ref' → ref' = ref

section Steps

variable {cfg : ManagerConfig} {s s' : Hub} {op : Op} {x : Choice} {ans : Ans op} {ev : Event Ans}
  {conns : List Conn} {tr : Trace}

theorem mem_taken_suffix {tr' : Trace} (h : tr <:+ tr') {ref : ℕ} (href : ref ∈ taken tr) :
    ref ∈ taken tr' := by
  obtain ⟨pre,rfl⟩ := h
  induction pre with
  | nil => exact href
  | cons ev pre ih =>
    rw [List.cons_append]
    unfold taken
    split <;> simp_all

theorem moves_new_client (h : Moves s ev conns) {ref : ℕ} {c : Client}
    (hc : conns[ref]?.map Conn.client = some c) : s.clientAt ref = some c ∨
      ∃ needSub, ev = ⟨.register c,.ok (ref,needSub)⟩ := by
  cases h with
  | still ev _ => exact .inl hc
  | register c' needSub =>
    rcases Nat.lt_trichotomy ref s.conns.length with hlt | rfl | hgt
    · rw [List.getElem?_append_left hlt] at hc
      exact .inl hc
    · simp only [List.getElem?_concat_length,Option.map_some,Option.some.injEq] at hc
      exact .inr ⟨needSub,by rw [hc]⟩
    · rw [List.getElem?_eq_none (by simp; omega)] at hc
      cases hc
  | beginClose | closeEvents | send | receive =>
    refine .inl ((client_modify _ _ _ _ ?_).symm.trans hc)
    exact fun _ => rfl

theorem closing_exec_mono (hx : exec cfg s op x = some (ans,s')) {ref : ℕ}
    (h : s.closing ref = true) : s'.closing ref = true := by
  rcases moves_closing (moves_exec hx) ref with hev | hsame
  · cases hev
    exact (moves_beginClose (moves_exec hx)).2
  · exact hsame.trans h

theorem closing_of_beginClose {ref : ℕ} {first : Bool}
    (hx : exec cfg s (.beginClose ref) x = some (first,s')) : s'.closing ref = true := by
  simp only [exec] at hx
  split at hx
  · cases hx
  · rename_i conn hconn
    split_ifs at hx with hclosing
    · cases hx
      simp [Hub.closing,Hub.setConn,hconn]
    · cases hx
      simpa [Hub.closing,hconn] using hclosing

theorem begun_exec (hx : exec cfg s op x = some (ans,s'))
    (h : ∀ ref ∈ begun tr, s.closing ref = true) :
    ∀ ref ∈ begun (⟨op,ans⟩ :: tr), s'.closing ref = true := by
  intro ref href
  unfold begun at href
  split at href
  · cases href
  · rename_i ref' first tr' heq
    cases heq
    rcases List.mem_cons.mp href with rfl | href
    · exact closing_of_beginClose hx
    · exact closing_exec_mono hx (h ref href)
  · rename_i heq
    cases heq
    exact closing_exec_mono hx (h ref href)

theorem length_erase {β : Type} (m : Map β) (id : String) :
    (m.erase id).entries.length ≤ m.entries.length :=
  (List.kerase_sublist id m.entries).length_le

theorem length_insert {β : Type} (m : Map β) (id : String) (b : β) :
    (m.insert id b).entries.length ≤ m.entries.length+1 :=
  Nat.succ_le_succ (List.kerase_sublist id m.entries).length_le

theorem length_exec (hx : exec cfg s op x = some (ans,s')) (hmax : 0 < cfg.maxConnections)
    (h : (s.connections.entries.length : Int) ≤ cfg.maxConnections) :
    (s'.connections.entries.length : Int) ≤ cfg.maxConnections := by
  have hindex := indexes_exec hx
  generalize hconnections : s'.connections = connections at hindex
  generalize hchannel : s'.byChannel = byChannel at hindex
  generalize hev : (⟨op,ans⟩ : Event Ans) = ev at hindex
  cases hindex with
  | still ev _ => exact h
  | register c needSub =>
    cases hev
    obtain ⟨hroom,_⟩ := register_exec hx
    have hlen : (s.index c s.conns.length).connections.entries.length ≤
      s.connections.entries.length+1 := length_insert _ _ _
    omega
  | remove id ref conn err href hconn =>
    have hlen : (s.unindex id conn.client.channel).connections.entries.length ≤
      s.connections.entries.length := length_erase _ _
    omega
  | takeAll refs _ =>
    have hlen : (∅ : Map ℕ).entries.length = 0 := rfl
    omega

theorem connections_exec (hx : exec cfg s op x = some (ans,s')) {id : String} {ref : ℕ}
    (h : s'.connections.lookup id = some ref) : s.connections.lookup id = some ref ∨
      ∃ client needSub, (⟨op,ans⟩ : Event Ans) = ⟨.register client,.ok (ref,needSub)⟩ ∧
        client.id = id := by
  have hindex := indexes_exec hx
  generalize hconnections : s'.connections = connections at hindex h
  generalize hchannel : s'.byChannel = byChannel at hindex
  generalize hev : (⟨op,ans⟩ : Event Ans) = ev at hindex ⊢
  cases hindex with
  | still ev _ => exact .inl h
  | register client needSub =>
    rw [connections_index] at h
    split_ifs at h with hid
    · cases h
      exact .inr ⟨client,needSub,rfl,hid.symm⟩
    · exact .inl h
  | remove id' ref' conn err href hconn =>
    have herase := h.symm.trans (lookup_erase_if s.connections id' id)
    split_ifs at herase
    exact .inl herase.symm
  | takeAll refs _ =>
    rw [AList.lookup_empty] at h
    cases h

theorem mem_values {m : Map ℕ} {id : String} {ref : ℕ} (h : m.lookup id = some ref) :
    ref ∈ Hub.values m :=
  List.mem_map.mpr ⟨⟨id,ref⟩,AList.mem_lookup_iff.mp h,rfl⟩

theorem length_le_of_inj {refs : List ℕ} {m : Map ℕ} (hnodup : refs.Nodup)
    (h : ∀ ref ∈ refs, ∃ id, m.lookup id = some ref) : refs.length ≤ m.entries.length := by
  have hsub : refs ⊆ Hub.values m := by
    intro ref href
    obtain ⟨id,hid⟩ := h ref href
    exact mem_values hid
  have hlen := (List.subperm_of_subset hnodup hsub).length_le
  rwa [Hub.values,List.length_map] at hlen

end Steps

section Runs

variable {cfg : ManagerConfig} {c c' : Calls} {i : ℕ} {x : Choice} {t : Running} {op : Op}
  {k : Ans op → M (Option GoError)} {ans : Ans op} {s' : Hub}

-- the registration at hand is of an ID nobody uses
theorem freshID_register {client : Client} {needSub : Bool} {ref : ℕ}
    {k : Ans (.register client) → M (Option GoError)}
    (hq : freshID cfg c (.exec i x) = true) (ht : c.threads[i]? = some t)
    (halive : t.alive = true) (hrest : t.rest = .call (.register client) k)
    (hx : exec (normalizeManagerConfig cfg) c.shared (.register client) x =
      some (.ok (ref,needSub),s')) :
    c.shared.connections.lookup client.id = none ∧ ∀ u ∈ c.threads, u.alive = true →
      ∀ ref', holds u.trace ≠ some (client.id,ref') := by
  obtain ⟨hroom,_⟩ := register_exec hx
  have hopen : c.shared.refuses (normalizeManagerConfig cfg) = false := decide_eq_false hroom
  simp only [freshID,Config.next_exec ht halive hrest,hopen,Bool.false_or,Bool.and_eq_true,
    Option.isNone_iff_eq_none,List.all_eq_true] at hq
  refine ⟨hq.1,fun u hu hualive ref' hheld => ?_⟩
  have hnot := hq.2 u hu
  rw [hualive,hheld] at hnot
  simp at hnot

theorem taken_step {a : Step} (hs : (manager cfg).step c a = some c') {ref : ℕ}
    (h : ∃ u ∈ c.threads, ref ∈ taken u.trace) : ∃ u ∈ c'.threads, ref ∈ taken u.trace := by
  obtain ⟨u,hu,hmem⟩ := h
  obtain ⟨j,hj⟩ := List.getElem?_of_mem hu
  obtain ⟨u',hu',_,hsuffix,_⟩ := (manager cfg).step_thread hs hj
  exact ⟨u',List.mem_of_getElem? hu',mem_taken_suffix hsuffix hmem⟩

theorem tracked_exec (h : Tracked cfg c) (hq : freshID cfg c (.exec i x) = true)
    (ht : c.threads[i]? = some t) (halive : t.alive = true) (hrest : t.rest = .call op k)
    (hx : exec (normalizeManagerConfig cfg) c.shared op x = some (ans,s'))
    (ref : ℕ) (client : Client) (hclient : s'.clientAt ref = some client) :
    s'.connections.lookup client.id = some ref ∨
      ∃ u ∈ c.threads.set i (stepped t op k ans), ref ∈ taken u.trace := by
  have hlt := (List.getElem?_eq_some_iff.mp ht).1
  have hself : stepped t op k ans ∈ c.threads.set i (stepped t op k ans) := List.mem_set hlt _
  have hold : (∃ u ∈ c.threads, ref ∈ taken u.trace) →
      ∃ u ∈ c.threads.set i (stepped t op k ans), ref ∈ taken u.trace :=
    taken_step ((manager cfg).step_exec ht halive hrest hx)
  have hindex := indexes_exec hx
  have hbefore := moves_new_client (moves_exec hx) hclient
  generalize hconnections : s'.connections = connections at hindex
  generalize hchannel : s'.byChannel = byChannel at hindex
  generalize hev : (⟨op,ans⟩ : Event Ans) = ev at hindex hbefore
  cases hindex with
  | still ev hstill =>
    rcases hbefore with hc | ⟨needSub,rfl⟩
    · exact (h.tracked ref client hc).imp_right hold
    · cases hstill
  | register c₀ needSub =>
    cases hev
    rw [connections_index]
    rcases hbefore with hc | ⟨needSub',heq⟩
    · rcases h.tracked ref client hc with hmem | htaken
      · have hne : client.id ≠ c₀.id := by
          intro heq
          rw [heq,(freshID_register hq ht halive hrest hx).1] at hmem
          cases hmem
        rw [if_neg hne]
        exact .inl hmem
      · exact .inr (hold htaken)
    · cases heq
      exact .inl (if_pos rfl)
  | remove id ref₀ conn err href hconn =>
    cases hev
    rcases hbefore with hc | ⟨needSub',heq⟩
    · rcases h.tracked ref client hc with hmem | htaken
      · by_cases hid : client.id = id
        · rw [hid,href,Option.some.injEq] at hmem
          exact .inr ⟨_,hself,by rw [← hmem]; exact List.mem_cons_self⟩
        · exact .inl ((AList.lookup_erase_ne hid).trans hmem)
      · exact .inr (hold htaken)
    · cases heq
  | takeAll refs hperm =>
    cases hev
    rcases hbefore with hc | ⟨needSub',heq⟩
    · rcases h.tracked ref client hc with hmem | htaken
      · exact .inr ⟨_,hself,List.mem_append_left _ (hperm.symm.mem_iff.mp (mem_values hmem))⟩
      · exact .inr (hold htaken)
    · cases heq

theorem held_exec (h : Tracked cfg c) (hq : freshID cfg c (.exec i x) = true)
    (ht : c.threads[i]? = some t) (halive : t.alive = true) (hrest : t.rest = .call op k)
    (hx : exec (normalizeManagerConfig cfg) c.shared op x = some (ans,s')) :
    ∀ u ∈ c.threads.set i (stepped t op k ans), u.alive = true → ∀ id ref,
      holds u.trace = some (id,ref) → ∀ ref', s'.connections.lookup id = some ref' → ref' = ref := by
  have hold : ∀ u ∈ c.threads, u.alive = true → ∀ id ref, holds u.trace = some (id,ref) →
      ∀ ref', s'.connections.lookup id = some ref' → ref' = ref := by
    intro u hu hualive id ref hheld ref' hlookup
    rcases connections_exec hx hlookup with hbefore | ⟨client,needSub,hev,rfl⟩
    · exact h.held u hu hualive id ref hheld ref' hbefore
    · cases hev
      exact absurd hheld ((freshID_register hq ht halive hrest hx).2 u hu hualive ref)
  refine Machine.forall_mem_set hold ?_
  intro _ id ref hheld ref' hlookup
  rcases holds_cons hheld with ⟨client,needSub,hev,rfl⟩ | hbefore
  · cases hev
    rcases connections_exec hx hlookup with hused | ⟨client',needSub',hev,_⟩
    · rw [(freshID_register hq ht halive hrest hx).1] at hused
      cases hused
    · cases hev
      rfl
  · exact hold t (List.mem_of_getElem? ht) halive id ref hbefore ref' hlookup

theorem max_pos (cfg : ManagerConfig) : 0 < (normalizeManagerConfig cfg).maxConnections := by
  unfold normalizeManagerConfig
  dsimp only
  split_ifs with h
  · decide
  · omega

theorem joinable_exec (hq : freshID cfg c (.exec i x) = true) (ht : c.threads[i]? = some t)
    (halive : t.alive = true) (hrest : t.rest = .call op k) (client : Client)
    (hop : op = .register client) :
    c.shared.refuses (normalizeManagerConfig cfg) = true ∨ c.shared.joinable client := by
  subst hop
  simp only [freshID,Config.next_exec ht halive hrest,Bool.or_eq_true,Bool.and_eq_true,
    Option.isNone_iff_eq_none] at hq
  refine hq.imp_right fun hfree ref href => ?_
  rw [hfree.1] at href
  cases href

theorem tracked_step {a : Step} (h : Tracked cfg c) (hq : freshID cfg c a = true)
    (hs : (manager cfg).step c a = some c') : Tracked cfg c' := by
  have hcloses : Machine.ThreadsMeet (fun _ => closesTaken) (fun _ tr _ => Settled tr) c' :=
    h.closes.step (m := manager cfg) (fun call => closes_program call [] (by simp [Owed,taken]))
      (fun _ _ _ _ _ _ _ => trivial) hs
  have hhandled : Machine.ThreadsMeet handled (fun _ tr _ => Left tr) c' :=
    h.handled.step (m := manager cfg) handled_program (fun _ _ _ _ _ _ _ => trivial) hs
  obtain ⟨call,rfl,rfl⟩ | ⟨i,x,t,op,k,ans,s',rfl,ht,halive,hrest,hx,rfl⟩ | ⟨i,t,rfl,ht,rfl⟩ |
    ⟨e,rfl,rfl⟩ := (manager cfg).step_cases hs
  · refine ⟨hcloses,hhandled,h.index,?_,?_,h.bounded,?_⟩
    · intro t ht
      rcases List.mem_append.mp ht with ht | ht
      · exact h.begun t ht
      · rw [List.mem_singleton.mp ht]
        simp [begun]
    · exact fun ref client hclient => (h.tracked ref client hclient).imp_right (taken_step hs)
    · intro t ht
      rcases List.mem_append.mp ht with ht | ht
      · exact h.held t ht
      · rw [List.mem_singleton.mp ht]
        simp [holds]
  · refine ⟨hcloses,hhandled,indexed_exec h.index hx (joinable_exec hq ht halive hrest),?_,
      tracked_exec h hq ht halive hrest hx,length_exec hx (max_pos cfg) h.bounded,
      held_exec h hq ht halive hrest hx⟩
    refine Machine.forall_mem_set (fun u hu ref href => ?_)
      (begun_exec hx (h.begun t (List.mem_of_getElem? ht)))
    exact closing_exec_mono hx (h.begun u hu ref href)
  · have hmem := List.mem_of_getElem? ht
    refine ⟨hcloses,hhandled,h.index,Machine.forall_mem_set h.begun (h.begun t hmem),?_,h.bounded,
      Machine.forall_mem_set h.held (by simp)⟩
    exact fun ref client hclient => (h.tracked ref client hclient).imp_right (taken_step hs)
  · exact ⟨hcloses,hhandled,h.index.of_same rfl rfl fun _ _ hc => hc,h.begun,h.tracked,h.bounded,
      h.held⟩

theorem ownDisconnect_of_tracked {a : Step} (h : Tracked cfg c) : ownDisconnect c a = true := by
  unfold ownDisconnect
  split
  · rename_i t id x hnext
    obtain ⟨i,_,ht,halive,k,hrest⟩ := Config.of_next hnext
    have hmem := List.mem_of_getElem? ht
    have hmeet := h.handled t hmem
    rw [hrest,Prog.meets_call] at hmeet
    split
    · rename_i ctx req rounds hcall
      rw [hcall] at hmeet
      obtain ⟨ref,hheld⟩ := hmeet.1
      rw [Option.all_eq_true]
      intro ref' href'
      rw [hheld,h.held t hmem halive id ref hheld ref' href']
      simp
    · rfl
  · rfl

theorem settled_of_quiescent (h : Tracked cfg c) (hquiet : quiescent c = true) {t : Running}
    (ht : t ∈ c.threads) : Settled t.trace := by
  have hmeet := h.closes t ht
  have hidle := List.all_eq_true.mp hquiet t ht
  unfold inCall at hidle
  cases hrest : t.rest with
  | ret a => simpa [hrest] using hmeet
  | fail e => simpa [hrest] using hmeet
  | call op k =>
    rw [hrest,Prog.meets_call] at hmeet
    exact hmeet.1 (by simpa [hrest] using hidle)

theorem consistent_of_quiescent (h : Tracked cfg c) (hquiet : quiescent c = true) :
    Consistent (normalizeManagerConfig cfg) c.shared := by
  have hkept : ∀ ref client, c.shared.clientAt ref = some client →
      c.shared.connections.lookup client.id = some ref ∨ c.shared.closing ref = true := by
    intro ref client hclient
    refine (h.tracked ref client hclient).imp_right ?_
    rintro ⟨t,ht,hmem⟩
    have hbegun := (settled_of_quiescent h hquiet ht ref hmem).resolve_left (by simp)
    exact h.begun t ht ref hbegun
  refine ⟨h.index.entry,hkept,?_⟩
  have hlen : c.shared.openClients.length ≤ c.shared.connections.entries.length := by
    refine length_le_of_inj (List.nodup_range.filter _) fun ref href => ?_
    obtain ⟨hrange,hopen⟩ := List.mem_filter.mp href
    have hlt := List.mem_range.mp hrange
    have hclient := clientAt_of_mem (List.getElem?_eq_getElem hlt)
    refine ⟨_,(hkept ref _ hclient).resolve_right ?_⟩
    simpa using hopen
  have hbound := h.bounded
  omega

end Runs

theorem connection_index_consistent (cfg : ManagerConfig) (acts : List Step)
    (h : (manager cfg).Along (fun c a => freshID cfg c a = true) acts ⟨newManager,[]⟩) :
    (manager cfg).Along (fun c a => ownDisconnect c a = true) acts ⟨newManager,[]⟩ ∧
    ∀ c, (manager cfg).run acts ⟨newManager,[]⟩ = some c → quiescent c = true →
      Consistent (normalizeManagerConfig cfg) c.shared := by
  have hinit : Tracked cfg ⟨newManager,[]⟩ := by
    refine ⟨by simp [Machine.ThreadsMeet],by simp [Machine.ThreadsMeet],indexed_empty rfl rfl,
      by simp,by simp [newManager,Hub.clientAt],?_,by simp⟩
    have hpos := max_pos cfg
    have hlen : (∅ : Map ℕ).entries.length = 0 := rfl
    change ((∅ : Map ℕ).entries.length : Int) ≤ _
    omega
  refine ⟨?_,fun c hrun hquiet => ?_⟩
  · exact (manager cfg).along_imp (I := Tracked cfg)
      (fun c a htracked _ => ownDisconnect_of_tracked htracked)
      (fun c a c' htracked hq hs => tracked_step htracked hq hs) hinit h
  · refine consistent_of_quiescent ?_ hquiet
    exact (manager cfg).run_invariant (I := Tracked cfg)
      (fun c a c' htracked hq hs => tracked_step htracked hq hs) hinit h hrun

-- two requests under one client ID, and the end of the first
def joined (ctx : ℕ) : List Step := [.start (.stream ctx reader 1),.exec ctx .ok,.exec ctx .ok]

def left (ctx : ℕ) : List Step :=
  [.env ctx,.exec ctx (.wake .done),.exec ctx .ok,.exec ctx .ok,.exec ctx .ok,.exec ctx .ok]

theorem connection_index_consistent_after_reconnect :
    (manager defaultManagerConfig).Along (fun c a => freshID defaultManagerConfig c a = true)
      (joined 0 ++ left 0 ++ joined 1) ⟨newManager,[]⟩ ∧
    ∃ c, (manager defaultManagerConfig).run (joined 0 ++ left 0 ++ joined 1) ⟨newManager,[]⟩ = some c ∧
      quiescent c = true ∧ Consistent (normalizeManagerConfig defaultManagerConfig) c.shared := by
  have hfresh : (manager defaultManagerConfig).Along
      (fun c a => freshID defaultManagerConfig c a = true) (joined 0 ++ left 0 ++ joined 1)
      ⟨newManager,[]⟩ := by decide +kernel
  have hrun : ((manager defaultManagerConfig).run (joined 0 ++ left 0 ++ joined 1)
      ⟨newManager,[]⟩).map quiescent = some true := by decide +kernel
  obtain ⟨c,hc,hquiet⟩ := Option.map_eq_some_iff.mp hrun
  exact ⟨hfresh,c,hc,hquiet,(connection_index_consistent _ _ hfresh).2 c hc hquiet⟩

theorem shared_id_loses_client :
    (∃ c, (manager defaultManagerConfig).run (joined 0 ++ joined 1 ++ left 0) ⟨newManager,[]⟩ = some c ∧
      quiescent c = true ∧ ¬ Consistent (normalizeManagerConfig defaultManagerConfig) c.shared) ∧
    ¬ (manager defaultManagerConfig).Along (fun c a => ownDisconnect c a = true)
      (joined 0 ++ joined 1 ++ left 0) ⟨newManager,[]⟩ := by
  refine ⟨?_,by decide +kernel⟩
  have hrun : ((manager defaultManagerConfig).run (joined 0 ++ joined 1 ++ left 0)
      ⟨newManager,[]⟩).map (fun c => (quiescent c,(c.shared.clientAt 0).map Client.id,
        c.shared.connections.lookup "reader",c.shared.closing 0)) =
      some (true,some "reader",none,false) := by decide +kernel
  obtain ⟨c,hc,heq⟩ := Option.map_eq_some_iff.mp hrun
  simp only [Prod.mk.injEq] at heq
  obtain ⟨hquiet,hclient,hlookup,hopen⟩ := heq
  obtain ⟨client,hclient,hid⟩ := Option.map_eq_some_iff.mp hclient
  refine ⟨c,hc,hquiet,fun h => ?_⟩
  rcases h.kept 0 client hclient with hindexed | hclosing
  · rw [hid,hlookup] at hindexed
    cases hindexed
  · rw [hopen] at hclosing
    cases hclosing

end Nimburion.HTTP.SSE
