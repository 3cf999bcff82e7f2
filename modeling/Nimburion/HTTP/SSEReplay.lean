import Nimburion.HTTP.SSERouting
import Nimburion.Lib.Decimal

namespace Nimburion.HTTP.SSE
open Interaction GoTime GoText

-- fmt's %0*d counts the sign
def zeroPadded (width : ℕ) (n : Int) : List Char :=
  if n < 0 then '-' :: Decimal.pad (width-1) n.natAbs else Decimal.pad width n.natAbs

def nextEventID (now : Time) (seq : ℕ) : String :=
  String.ofList (zeroPadded 13 (unixMilli now) ++ '-' :: Decimal.pad 10 seq)

-- encoding/json on events
structure Codec where
  marshal : Evt → Option String
  unmarshal : String → Option Evt
  unmarshal_marshal : ∀ e raw, marshal e = some raw → unmarshal raw = some e

-- the lists of a replay store; `maxSize` is each process's own setting
structure Store (α : Type) where
  serves : ℕ → Bool
  maxSize : ℕ → ℕ
  key : String → String
  encode : Evt → Option α
  decode : α → Option Evt
  remote : Bool
  maxSize_pos : ∀ p, 0 < maxSize p
  key_injective : ∀ channel channel', key channel = key channel' → channel = channel'
  decode_encode : ∀ e x, encode e = some x → decode x = some e

def sizeOrDefault (maxSize : Int) : ℕ := if maxSize ≤ 0 then 256 else maxSize.toNat

theorem sizeOrDefault_pos (maxSize : Int) : 0 < sizeOrDefault maxSize := by
  unfold sizeOrDefault
  split_ifs <;> omega

-- the in-memory store belongs to one process
def newInMemoryStore (maxSize : Int) : Store Evt where
  serves := fun p => p = 0
  maxSize := fun _ => sizeOrDefault maxSize
  key := id
  encode := some
  decode := some
  remote := false
  maxSize_pos := fun _ => sizeOrDefault_pos maxSize
  key_injective := fun _ _ h => h
  decode_encode := fun _ _ h => h.symm

def historyPrefix (configured : String) : String :=
  if trimSpace configured = "" then "sse:history" else trimSpace configured

def newRedisStore (codec : Codec) (configured : String) (maxSize : ℕ → Int) : Store String where
  serves := fun _ => true
  maxSize := fun p => sizeOrDefault (maxSize p)
  key := fun channel => historyPrefix configured ++ ":" ++ channel
  encode := codec.marshal
  decode := codec.unmarshal
  remote := true
  maxSize_pos := fun p => sizeOrDefault_pos (maxSize p)
  key_injective := fun _ _ h => by simpa using h
  decode_encode := codec.unmarshal_marshal

-- `log` is the history of what was appended
structure Replay (α : Type) where
  clock : Time
  counters : ℕ → ℕ
  held : String → List α
  log : List Evt

def freshReplay (α : Type) (clock : Time) (counters : ℕ → ℕ) : Replay α :=
  ⟨clock,counters,fun _ => [],[]⟩

inductive ReplayChoice where
  | draw (p : ℕ) (now : Time)
  | stored (p : ℕ)
  | failed (e : GoError)
  | storedThenFailed (p : ℕ) (e : GoError)
  | answer (ans : (op : Op) → Ans op)

namespace Store

variable {α : Type} (st : Store α)

def push (maxSize : ℕ) (items : List α) (x : α) : List α :=
  (items ++ [x]).drop ((items ++ [x]).length-maxSize)

def append (s : Replay α) (p : ℕ) (event : Evt) (x : α) : Replay α :=
  { s with
    held := fun key =>
      if key = st.key event.channel then push (st.maxSize p) (s.held key) x else s.held key
    log := s.log ++ [event] }

def getSince (s : Replay α) (channel lastEventID : String) (limit : Int) : List Evt :=
  let values := s.held (st.key channel)
  let out := (values.filterMap st.decode).filter fun e => lastEventID = "" || lastEventID < e.id
  out.drop (out.length-(if limit ≤ 0 then values.length else limit.toNat))

def draw (s : Replay α) (p : ℕ) : Replay α :=
  { s with counters := fun q => if q = p then (s.counters p+1)%2^64 else s.counters q }

def marshalError : GoError := .text "json: error calling MarshalJSON for type time.Time"

-- the process whose settings an append is made with, and what the caller hears; a reply of the
-- Redis server can be lost after the transaction ran
def appends : ReplayChoice → Option (ℕ × Except GoError Unit)
  | .stored p => if st.serves p then some (p,.ok ()) else none
  | .storedThenFailed p e => if st.serves p ∧ st.remote then some (p,.error e) else none
  | _ => none

def exec (s : Replay α) (op : Op) (x : ReplayChoice) : Option (Ans op × Replay α) :=
  match op with
  | .nextEventID => match x with
      | .draw p now =>
          if st.serves p ∧ now ≤ s.clock then
            some ((nextEventID now ((s.counters p+1)%2^64),now),draw s p)
          else none
      | _ => none
  | .append event => match st.appends x with
      | some (p,ans) => match st.encode event with
          | some v => some (ans,st.append s p event v)
          | none => some (.error marshalError,s)
      | none => match x with
          | .failed e => if st.remote then some (.error e,s) else none
          | _ => none
  | .getSince channel lastEventID limit => match x with
      | .failed e => if st.remote then some (.error e,s) else none
      | _ => some (.ok (st.getSince s channel lastEventID limit),s)
  | op => match x with
      | .answer ans => some (ans op,s)
      | _ => none

-- between the steps of the publishers time passes and Subscribe takes client IDs
inductive Meanwhile where
  | elapse (d : ℕ)
  | clientID (p : ℕ)
  deriving DecidableEq, Repr

def meanwhile (s : Replay α) : Meanwhile → Replay α
  | .elapse d => { s with clock := s.clock+d }
  | .clientID p => draw s p

-- Manager.Publish in every process, each with its own configuration
def publishers : Machine Ans GoError (Replay α) (ManagerConfig × PublishRequest)
    (Option GoError) ReplayChoice Meanwhile where
  program := fun call => publish (normalizeManagerConfig call.1) call.2
  exec := st.exec
  env := meanwhile

end Store

abbrev Publishers (α : Type) :=
  Config Ans GoError (Replay α) (ManagerConfig × PublishRequest) (Option GoError)

abbrev PublishStep := Action (ManagerConfig × PublishRequest) ReplayChoice Store.Meanwhile

section Completeness

variable {α : Type} (st : Store α)

def Replay.logOf (s : Replay α) (channel : String) : List Evt :=
  s.log.filter fun e => e.channel = channel

-- a channel retains the last events of its log, as many as its list holds
def Replay.retainedAfter (s : Replay α) (channel : String) (i : ℕ) : List Evt :=
  (s.logOf channel).drop
    (max (i+1) ((s.logOf channel).length-(s.held (st.key channel)).length))

def ReplaysAll (s : Replay α) : Prop :=
  ∀ channel i e, (s.logOf channel)[i]? = some e →
    st.getSince s channel e.id 0 = s.retainedAfter st channel i

def replaysAllAfter (c : Publishers α) (a : PublishStep) : Prop :=
  ∀ c', st.publishers.step c a = some c' → ReplaysAll st c'.shared

-- the event about to be appended has a greater ID than all that were appended to its channel
def appendsInOrder (c : Publishers α) (a : PublishStep) : Prop :=
  match c.next a with
  | some (_,.append event,x) => (st.appends x).isSome → (st.encode event).isSome →
      ∀ e ∈ c.shared.logOf event.channel, e.id < event.id
  | _ => True

def keepsOrder (c : Publishers α) (a : PublishStep) : Bool :=
  match c.next a with
  | some (_,.append event,x) => !(st.appends x).isSome || !(st.encode event).isSome ||
      (c.shared.logOf event.channel).all fun e => e.id < event.id
  | _ => true

theorem keepsOrder_iff (c : Publishers α) (a : PublishStep) :
    keepsOrder st c a = true ↔ appendsInOrder st c a := by
  unfold keepsOrder appendsInOrder
  split
  · rename_i event x _
    cases (st.appends x).isSome <;> cases (st.encode event).isSome <;> simp
  · simp

instance (c : Publishers α) (a : PublishStep) : Decidable (appendsInOrder st c a) :=
  decidable_of_iff _ (keepsOrder_iff st c a)

def stamped : Spec Ans where
  pre _ op := match op with
    | .append event => event.id ≠ ""
    | _ => True
  ans op a := match op,a with
    | .nextEventID,stamp => stamp.1 ≠ ""
    | _,_ => True

theorem nextEventID_ne (now : Time) (seq : ℕ) : nextEventID now seq ≠ "" := by
  intro h
  have hlist := congrArg String.toList h
  simp [nextEventID] at hlist

theorem stamped_deliver (cfg : ManagerConfig) (event : Evt) : Prog.Obeys stamped (deliver cfg event) := by
  have hdisconnect : ∀ id, Prog.Obeys stamped (disconnect id) := fun id tr =>
    (uses_disconnect id).meets (F := fun _ => True) (fun _ _ _ hop => by cases hop <;> trivial)
      (fun _ _ _ _ => trivial) trivial
  have henqueue : ∀ ref, Prog.Obeys stamped (enqueue ref event) := by
    refine fun ref => .step (fun _ => trivial) fun _ => .ite (.pure _) (.step (fun _ => trivial) ?_)
    intro result
    cases result with
    | sent => exact .pure _
    | full => exact .pure _
    | panicked => exact fun _ => trivial
  refine .step (fun _ => trivial) fun clients => ?_
  induction clients with
  | nil => exact .pure ()
  | cons p clients ih =>
    refine .ite (.bind (henqueue p.1) fun queued => .ite ?_ ih) ih
    exact .bind (hdisconnect p.2.id) fun _ => ih

theorem stamped_publish (cfg : ManagerConfig) (req : PublishRequest) :
    Prog.Obeys stamped (publish cfg req) := by
  refine .ite (.pure _) fun tr => ?_
  rw [Prog.meets_bind,Prog.meets_perform]
  refine ⟨trivial,fun stamp hstamp => ?_⟩
  refine ⟨hstamp,fun appended _ => ?_⟩
  cases appended with
  | error e => trivial
  | ok =>
    refine Prog.Obeys.ite (.step (fun _ => trivial) fun published => ?_)
      (.bind (stamped_deliver cfg _) fun _ => .pure _) _
    cases published <;> exact .pure _

theorem exec_cases {s s' : Replay α} {op : Op} {x : ReplayChoice} {ans : Ans op}
    (h : st.exec s op x = some (ans,s')) :
    stamped.ans op ans ∧
      ((∃ event p r v, op = .append event ∧ st.appends x = some (p,r) ∧
          st.encode event = some v ∧ s' = st.append s p event v) ∨
        ((∀ event, op = .append event → (st.appends x).isSome → st.encode event = none) ∧
          s'.held = s.held ∧ s'.log = s.log)) := by
  cases op with
  | nextEventID =>
    cases x with
    | draw p now =>
      simp only [Store.exec] at h
      split_ifs at h
      cases h
      exact ⟨nextEventID_ne _ _,.inr ⟨by simp,rfl,rfl⟩⟩
    | _ => cases h
  | append event =>
    refine ⟨trivial,?_⟩
    simp only [Store.exec] at h
    split at h
    · rename_i p r happ
      cases henc : st.encode event with
      | some v =>
        simp only [henc,Option.some.injEq,Prod.mk.injEq] at h
        exact .inl ⟨event,p,r,v,rfl,happ,henc,h.2.symm⟩
      | none =>
        simp only [henc,Option.some.injEq,Prod.mk.injEq] at h
        rw [← h.2]
        exact .inr ⟨fun event' heq _ => by cases heq; exact henc,rfl,rfl⟩
    · rename_i happ
      have hnone : ∀ event', Op.append event = .append event' → (st.appends x).isSome →
          st.encode event' = none := by simp [happ]
      split at h
      · split_ifs at h
        cases h
        exact .inr ⟨hnone,rfl,rfl⟩
      · cases h
  | getSince channel lastEventID limit =>
    refine ⟨trivial,.inr ⟨by simp,?_⟩⟩
    simp only [Store.exec] at h
    split at h
    · split_ifs at h
      cases h
      exact ⟨rfl,rfl⟩
    · cases h
      exact ⟨rfl,rfl⟩
  | _ =>
    cases x <;> cases h
    exact ⟨trivial,.inr ⟨by simp,rfl,rfl⟩⟩

structure Ordered (s : Replay α) : Prop where
  held : ∀ channel, (s.held (st.key channel)).map st.decode =
    ((s.logOf channel).drop
      ((s.logOf channel).length-(s.held (st.key channel)).length)).map some
  ids : ∀ e ∈ s.log, e.id ≠ ""
  ascending : ∀ channel, (s.logOf channel).Pairwise fun e e' => e.id < e'.id

section Lists

variable {β : Type} {r : β → β → Prop} [DecidableRel r]

theorem filter_drop_of_pairwise (hirrefl : ∀ a, ¬ r a a) (hasymm : ∀ a b, r a b → ¬ r b a)
    {l : List β} (h : l.Pairwise r) {i k : ℕ} {e : β} (he : l[i]? = some e) :
    (l.drop k).filter (fun a => r e a) = l.drop (max (i+1) k) := by
  induction l generalizing i k with
  | nil => simp at he
  | cons x l ih =>
    obtain ⟨hx,hl⟩ := List.pairwise_cons.mp h
    cases i with
    | zero =>
      obtain rfl : x = e := by simpa using he
      have hall : ∀ k, (l.drop k).filter (fun a => r x a) = l.drop k := fun k =>
        List.filter_eq_self.mpr fun a ha => by simpa using hx a (List.mem_of_mem_drop ha)
      cases k with
      | zero => simpa [hirrefl] using hall 0
      | succ k => simpa using hall k
    | succ i =>
      have he' : l[i]? = some e := by simpa using he
      cases k with
      | zero => simpa [hasymm x e (hx e (List.mem_of_getElem? he'))] using ih hl (k := 0) he'
      | succ k => simpa using ih hl (k := k) he'

end Lists

variable {st}

theorem Ordered.getSince_eq {s : Replay α} (h : Ordered st s) (channel lastEventID : String)
    (hid : lastEventID ≠ "") : st.getSince s channel lastEventID 0 =
      ((s.logOf channel).drop ((s.logOf channel).length-(s.held (st.key channel)).length)).filter
        fun e => lastEventID < e.id := by
  have hlist : (s.held (st.key channel)).filterMap st.decode =
      (s.logOf channel).drop ((s.logOf channel).length-(s.held (st.key channel)).length) := by
    have hmap := congrArg (List.filterMap id) (h.held channel)
    simpa [List.filterMap_map] using hmap
  have hlen := List.length_filterMap_le st.decode (s.held (st.key channel))
  simp only [Store.getSince,hid,decide_false,Bool.false_or,Int.le_refl,if_true]
  rw [Nat.sub_eq_zero_of_le ((List.length_filter_le _ _).trans hlen),List.drop_zero,hlist]

theorem Ordered.replaysAll {s : Replay α} (h : Ordered st s) : ReplaysAll st s := by
  intro channel i e he
  have hmem : e ∈ s.log := List.mem_of_mem_filter (List.mem_of_getElem? he)
  rw [h.getSince_eq channel e.id (h.ids e hmem)]
  refine filter_drop_of_pairwise (r := fun a b : Evt => a.id < b.id) ?_ ?_ (h.ascending channel) he
  · exact fun a => String.lt_irrefl a.id
  · exact fun a b hab => String.lt_asymm hab

theorem logOf_append (s : Replay α) (p : ℕ) (event : Evt) (v : α) (channel : String) :
    (st.append s p event v).logOf channel =
      s.logOf channel ++ if event.channel = channel then [event] else [] := by
  simp [Replay.logOf,Store.append,List.filter_append,List.filter_cons]

theorem held_append_same (s : Replay α) (p : ℕ) (event : Evt) (v : α) :
    (st.append s p event v).held (st.key event.channel) =
      Store.push (st.maxSize p) (s.held (st.key event.channel)) v := by
  simp [Store.append]

theorem held_append_other (s : Replay α) (p : ℕ) {event : Evt} (v : α) {channel : String}
    (hne : event.channel ≠ channel) :
    (st.append s p event v).held (st.key channel) = s.held (st.key channel) := by
  have hkey : st.key channel ≠ st.key event.channel := fun h =>
    hne (st.key_injective _ _ h).symm
  simp [Store.append,hkey]

theorem push_map {β : Type} {f : α → Option β} {items : List α} {log : List β} {x : α} {e : β}
    (n : ℕ) (h : items.map f = (log.drop (log.length-items.length)).map some) (hx : f x = some e) :
    (Store.push n items x).map f =
      ((log ++ [e]).drop ((log ++ [e]).length-(Store.push n items x).length)).map some := by
  have hle : items.length ≤ log.length := by
    have hlen := congrArg List.length h
    simp only [List.length_map,List.length_drop] at hlen
    omega
  have hwhole : (items ++ [x]).map f = ((log ++ [e]).drop (log.length-items.length)).map some := by
    rw [List.map_append,h,List.drop_append_of_le_length (Nat.sub_le _ _),List.map_append]
    simp [hx]
  have hsize : (log ++ [e]).length-(Store.push n items x).length =
      (log.length-items.length)+((items ++ [x]).length-n) := by
    simp only [Store.push,List.length_drop,List.length_append,List.length_singleton]
    omega
  rw [hsize,← List.drop_drop,List.map_drop,List.map_drop,← List.map_drop (i := log.length-items.length),
    ← hwhole,Store.push,List.map_drop]

theorem Ordered.append {s : Replay α} {event : Evt} {v : α} (h : Ordered st s) (p : ℕ)
    (henc : st.encode event = some v) (hid : event.id ≠ "")
    (hlt : ∀ e ∈ s.logOf event.channel, e.id < event.id) :
    Ordered st (st.append s p event v) := by
  refine ⟨fun channel => ?_,fun e he => ?_,fun channel => ?_⟩
  · rw [logOf_append]
    by_cases hc : event.channel = channel
    · subst hc
      rw [held_append_same,if_pos rfl]
      exact push_map _ (h.held event.channel) (st.decode_encode event v henc)
    · rw [held_append_other s p v hc,if_neg hc,List.append_nil]
      exact h.held channel
  · rcases List.mem_append.mp he with he | he
    · exact h.ids e he
    · rw [List.mem_singleton.mp he]
      exact hid
  · rw [logOf_append]
    split_ifs with hc
    · subst hc
      refine List.pairwise_append.mpr ⟨h.ascending _,List.pairwise_singleton _ _,fun e he e' he' => ?_⟩
      rw [List.mem_singleton.mp he']
      exact hlt e he
    · rw [List.append_nil]
      exact h.ascending channel

theorem push_length_pos (items : List α) (x : α) {n : ℕ} (hn : 0 < n) :
    0 < (Store.push n items x).length := by
  simp only [Store.push,List.length_drop,List.length_append,List.length_singleton]
  omega

theorem Ordered.lt_of_replaysAll {s : Replay α} {event : Evt} {v : α} {p : ℕ} (h : Ordered st s)
    (hall : ReplaysAll st (st.append s p event v)) :
    ∀ e ∈ s.logOf event.channel, e.id < event.id := by
  intro e he
  obtain ⟨i,hi⟩ := List.getElem?_of_mem he
  have hlt := (List.getElem?_eq_some_iff.mp hi).1
  have hlog : (st.append s p event v).logOf event.channel =
      s.logOf event.channel ++ [event] := by rw [logOf_append,if_pos rfl]
  have hsince := hall event.channel i e (by rw [hlog,List.getElem?_append_left hlt,hi])
  have hpos := push_length_pos (s.held (st.key event.channel)) v (st.maxSize_pos p)
  have hmem : event ∈ (st.append s p event v).retainedAfter st event.channel i := by
    rw [Replay.retainedAfter,hlog,held_append_same,List.drop_append_of_le_length]
    · exact List.mem_append_right _ (List.mem_singleton_self event)
    · simp only [List.length_append,List.length_singleton]
      omega
  rw [← hsince,Store.getSince] at hmem
  have hfilter := List.mem_filter.mp (List.mem_of_mem_drop hmem)
  have hid := h.ids e (List.mem_of_mem_filter he)
  simpa [hid] using hfilter.2

variable (st)

structure InOrder (c : Publishers α) : Prop where
  meets : Machine.ThreadsMeet (fun _ => stamped) (fun _ _ _ => True) c
  ordered : Ordered st c.shared

variable {st}

theorem Ordered.of_same {s s' : Replay α} (h : Ordered st s) (hheld : s'.held = s.held)
    (hlog : s'.log = s.log) : Ordered st s' := by
  have hof : ∀ channel, s'.logOf channel = s.logOf channel := fun channel => by
    simp [Replay.logOf,hlog]
  refine ⟨fun channel => ?_,by simpa [hlog] using h.ids,fun channel => ?_⟩
  · rw [hof,hheld]
    exact h.held channel
  · rw [hof]
    exact h.ascending channel

-- a step appends the event its thread stands before, or leaves lists and log alone
theorem InOrder.step_effect {c c' : Publishers α} {a : PublishStep} (h : InOrder st c)
    (hs : st.publishers.step c a = some c') :
    (∃ t event x p v, c.next a = some (t,.append event,x) ∧ (st.appends x).isSome ∧
      st.encode event = some v ∧ event.id ≠ "" ∧ c'.shared = st.append c.shared p event v) ∨
    (appendsInOrder st c a ∧ c'.shared.held = c.shared.held ∧ c'.shared.log = c.shared.log) := by
  obtain ⟨call,rfl,rfl⟩ | ⟨i,x,t,op,k,ans,s',rfl,ht,hal,hrest,hx,rfl⟩ | ⟨i,t,rfl,ht,rfl⟩ |
    ⟨e,rfl,rfl⟩ := st.publishers.step_cases hs
  · exact .inr ⟨trivial,rfl,rfl⟩
  · have hnext : c.next (.exec i x : PublishStep) = some (t,op,x) := Config.next_exec ht hal hrest x
    obtain ⟨_,⟨event,p,r,v,rfl,happ,henc,rfl⟩ | ⟨hnone,hheld,hlog⟩⟩ := exec_cases st hx
    · have hpre := h.meets t (List.mem_of_getElem? ht)
      rw [hrest] at hpre
      exact .inl ⟨t,event,x,p,v,hnext,by simp [happ],henc,hpre.1,rfl⟩
    · refine .inr ⟨?_,hheld,hlog⟩
      rw [appendsInOrder,hnext]
      cases op with
      | append event =>
        intro happ henc
        rw [hnone event rfl happ] at henc
        cases henc
      | _ => trivial
  · exact .inr ⟨trivial,rfl,rfl⟩
  · cases e <;> exact .inr ⟨trivial,rfl,rfl⟩

theorem InOrder.step {c c' : Publishers α} {a : PublishStep} (h : InOrder st c)
    (hin : appendsInOrder st c a) (hs : st.publishers.step c a = some c') : InOrder st c' := by
  have hmeets : Machine.ThreadsMeet (fun _ => stamped) (fun _ _ _ => True) c' :=
    h.meets.step _ (fun call => stamped_publish _ call.2 [])
      (fun _ _ _ _ _ _ hx => (exec_cases st hx).1) hs
  refine ⟨hmeets,?_⟩
  obtain ⟨t,event,x,p,v,hnext,happ,henc,hid,heq⟩ | ⟨_,hheld,hlog⟩ := h.step_effect hs
  · rw [appendsInOrder,hnext] at hin
    rw [heq]
    exact h.ordered.append p henc hid (hin happ (by simp [henc]))
  · exact h.ordered.of_same hheld hlog

theorem step_append {c : Publishers α} {a : PublishStep} {event : Evt} {x : ReplayChoice}
    {t : Thread Ans GoError (ManagerConfig × PublishRequest) (Option GoError)}
    (hnext : c.next a = some (t,.append event,x)) (happ : (st.appends x).isSome)
    (henc : (st.encode event).isSome) : ∃ c', st.publishers.step c a = some c' := by
  obtain ⟨i,rfl,ht,hal,k,hrest⟩ := Config.of_next hnext
  obtain ⟨⟨p,r⟩,happ⟩ := Option.isSome_iff_exists.mp happ
  obtain ⟨v,henc⟩ := Option.isSome_iff_exists.mp henc
  have hx : st.publishers.exec c.shared (.append event) x = some (r,st.append c.shared p event v) := by
    simp [Store.publishers,Store.exec,happ,henc]
  exact ⟨_,st.publishers.step_exec ht hal hrest hx⟩

theorem InOrder.replays_iff {c : Publishers α} {a : PublishStep} (h : InOrder st c) :
    replaysAllAfter st c a ↔ appendsInOrder st c a := by
  constructor
  · intro hall
    cases hs : st.publishers.step c a with
    | none =>
      unfold appendsInOrder
      split
      · rename_i hnext
        intro happ henc
        obtain ⟨c',hc'⟩ := step_append hnext happ henc
        rw [hs] at hc'
        cases hc'
      · trivial
    | some c' =>
      obtain ⟨t,event,x,p,v,hnext,happ,henc,hid,heq⟩ | ⟨hin,_⟩ := h.step_effect hs
      · rw [appendsInOrder,hnext]
        have hreplays := hall c' hs
        rw [heq] at hreplays
        exact fun _ _ => h.ordered.lt_of_replaysAll hreplays
      · exact hin
  · intro hin c' hs
    exact (h.step hin hs).ordered.replaysAll

theorem inOrder_fresh (clock : Time) (counters : ℕ → ℕ) :
    InOrder st ⟨freshReplay α clock counters,[]⟩ := by
  refine ⟨by simp [Machine.ThreadsMeet],?_,by simp [freshReplay],?_⟩
  · intro channel
    simp [freshReplay,Replay.logOf]
  · intro channel
    simp [freshReplay,Replay.logOf]

theorem replaysAll_iff_appendsInOrder (clock : Time) (counters : ℕ → ℕ)
    (acts : List PublishStep) :
    st.publishers.Along (replaysAllAfter st) acts ⟨freshReplay α clock counters,[]⟩ ↔
      st.publishers.Along (appendsInOrder st) acts ⟨freshReplay α clock counters,[]⟩ :=
  st.publishers.along_congr (I := InOrder st) (fun _ _ h => h.replays_iff)
    (fun _ _ _ h hin hs => h.step hin hs) (inOrder_fresh clock counters)

end Completeness

theorem replay_complete_iff_appends_in_order (clock : Time) (counters : ℕ → ℕ)
    (acts : List PublishStep) :
    (∀ maxSize : Int, (newInMemoryStore maxSize).publishers.Along
        (replaysAllAfter (newInMemoryStore maxSize)) acts ⟨freshReplay Evt clock counters,[]⟩ ↔
      (newInMemoryStore maxSize).publishers.Along
        (appendsInOrder (newInMemoryStore maxSize)) acts ⟨freshReplay Evt clock counters,[]⟩) ∧
    (∀ (codec : Codec) (configured : String) (maxSize : ℕ → Int),
      (newRedisStore codec configured maxSize).publishers.Along
        (replaysAllAfter (newRedisStore codec configured maxSize)) acts
        ⟨freshReplay String clock counters,[]⟩ ↔
      (newRedisStore codec configured maxSize).publishers.Along
        (appendsInOrder (newRedisStore codec configured maxSize)) acts
        ⟨freshReplay String clock counters,[]⟩) :=
  ⟨fun _ => replaysAll_iff_appendsInOrder clock counters acts,
    fun _ _ _ => replaysAll_iff_appendsInOrder clock counters acts⟩

def orderPlaced (data : String) : ManagerConfig × PublishRequest :=
  (defaultManagerConfig,⟨"orders","","","placed",data,0⟩)

def placedEvent (seq : ℕ) (data : String) : Evt :=
  ⟨nextEventID (1700000000*second) seq,"orders","","","placed",data,3000,1700000000*second⟩

-- encoding/json writes the data in base64 and leaves the empty fields out
def placedJSON (seq data : String) : String :=
  "\x7b\"id\":\"1700000000000-000000000" ++ seq ++ "\",\"channel\":\"orders\"," ++
    "\"type\":\"placed\",\"data\":\"" ++ data ++ "\",\"retry_ms\":3000," ++
    "\"timestamp\":\"2023-11-14T22:13:20Z\"\x7d"

def tableCodec (table : List (Evt × String)) (h : (table.map Prod.snd).Nodup) : Codec where
  marshal := fun e => (table.find? fun x => x.1 = e).map Prod.snd
  unmarshal := fun raw => (table.find? fun x => x.2 = raw).map Prod.fst
  unmarshal_marshal := by
    intro e raw hraw
    obtain ⟨x,hx,rfl⟩ := Option.map_eq_some_iff.mp hraw
    have hmem := List.mem_of_find?_eq_some hx
    have hevent : x.1 = e := by simpa using List.find?_some hx
    obtain ⟨y,hy⟩ : ∃ y, (table.find? fun y => y.2 = x.2) = some y :=
      Option.isSome_iff_exists.mp (List.find?_isSome.mpr ⟨x,hmem,by simp⟩)
    have hsame := List.inj_on_of_nodup_map h (List.mem_of_find?_eq_some hy) hmem
      (by simpa using List.find?_some hy)
    rw [hy,hsame,Option.map_some,hevent]

def placedCodec : Codec :=
  tableCodec [(placedEvent 1 "1",placedJSON "1" "MQ=="),(placedEvent 2 "2",placedJSON "2" "Mg==")]
    (by decide)

def placedInOrder : List PublishStep :=
  [.start (orderPlaced "1"),.start (orderPlaced "2"),.exec 0 (.draw 0 (1700000000*second)),
    .exec 0 (.stored 0),.exec 1 (.draw 0 (1700000000*second)),.exec 1 (.stored 0)]

theorem redis_replays_in_order :
    (newRedisStore placedCodec "" fun _ => 0).publishers.Along
        (replaysAllAfter (newRedisStore placedCodec "" fun _ => 0)) placedInOrder
        ⟨freshReplay String (1700000000*second) fun _ => 0,[]⟩ ∧
      ((newRedisStore placedCodec "" fun _ => 0).publishers.run placedInOrder
        ⟨freshReplay String (1700000000*second) fun _ => 0,[]⟩).map (fun c =>
          (newRedisStore placedCodec "" fun _ => 0).getSince c.shared "orders"
            "1700000000000-0000000001" 0) = some [placedEvent 2 "2"] := by
  refine ⟨?_,by decide +kernel⟩
  refine ((replay_complete_iff_appends_in_order _ _ _).2 placedCodec "" _).mpr ?_
  decide +kernel

-- the second publisher appends before the first
def overtakingPublishers : List PublishStep :=
  [.start (orderPlaced "1"),.start (orderPlaced "2"),
    .exec 0 (.draw 0 (1700000000*second)),.exec 1 (.draw 0 (1700000000*second)),
    .exec 1 (.stored 0)]

theorem overtaken_event_is_not_replayed :
    ¬ ∀ (maxSize : Int) (clock : Time) (counters : ℕ → ℕ) (acts : List PublishStep),
      (newInMemoryStore maxSize).publishers.Along
        (replaysAllAfter (newInMemoryStore maxSize)) acts ⟨freshReplay Evt clock counters,[]⟩ := by
  intro h
  have hrun : ((newInMemoryStore 256).publishers.run
      (overtakingPublishers ++ [.exec 0 (.stored 0)])
      ⟨freshReplay Evt (1700000000*second) fun _ => 0,[]⟩).map (fun c =>
        ((c.shared.logOf "orders").map Evt.id,
          ((newInMemoryStore 256).getSince c.shared "orders" "1700000000000-0000000002" 0).length,
          (c.shared.retainedAfter (newInMemoryStore 256) "orders" 0).length)) =
      some (["1700000000000-0000000002","1700000000000-0000000001"],0,1) := by decide +kernel
  obtain ⟨d,d',hd,hs,hlast⟩ := Machine.run_last _ hrun
  have hall := Machine.along_at _ (h 256 (1700000000*second) (fun _ => 0)
    (overtakingPublishers ++ [.exec 0 (.stored 0)])) hd d' hs
  simp only [Prod.mk.injEq] at hlast
  obtain ⟨hids,hsince,hretained⟩ := hlast
  cases hlog : d'.shared.logOf "orders" with
  | nil => simp [hlog] at hids
  | cons e log =>
    rw [hlog,List.map_cons,List.cons.injEq] at hids
    have heq := hall "orders" 0 e (by simp [hlog])
    rw [hids.1] at heq
    rw [heq,hretained] at hsince
    cases hsince

end Nimburion.HTTP.SSE
