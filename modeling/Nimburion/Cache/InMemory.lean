import Nimburion.Lib.GoTime
import Nimburion.Lib.Linearizable
import Mathlib.Data.List.Nodup

-- session.InMemoryStore and cache.InMemoryStore, one step for each mutex section and clock read
namespace Nimburion.InMemory
open Interaction GoTime

variable {V : Type}

structure Entry (V : Type) where
  data : V
  expiresAt : Time
  deriving DecidableEq, Repr

abbrev Entries (V : Type) := String → Option (Entry V)

def Entries.set (m : Entries V) (id : String) (e : Option (Entry V)) : Entries V :=
  fun id' => if id' = id then e else m id'

-- time.Now().After(expiresAt) is what makes an entry expired
def Entries.live (m : Entries V) (now : Time) (id : String) : Option (Entry V) :=
  (m id).filter fun e => now ≤ e.expiresAt

structure Store (V : Type) where
  clock : Time
  entries : Entries V

def Store.set (s : Store V) (id : String) (e : Option (Entry V)) : Store V :=
  { s with entries := s.entries.set id e }

inductive StoreError where
  | notFound
  | cacheMiss
  deriving DecidableEq, Repr

inductive Op (V : Type) where
  | lookup (id : String)
  | now
  | evict (id : String)
  | put (id : String) (data : V) (ttl : Duration)
  | remove (id : String)
  | extend (id : String) (ttl : Duration)

abbrev Ans (V : Type) : Op V → Type
  | .lookup _ => Option (Entry V)
  | .now => Time
  | .evict _ => Unit
  | .put .. => Unit
  | .remove _ => Unit
  | .extend .. => Bool

def exec (s : Store V) (op : Op V) (_ : Unit) : Option (Ans V op × Store V) :=
  match op with
  | .lookup id => some (s.entries id,s)
  | .now => some (s.clock,s)
  | .evict id => some ((),s.set id none)
  | .put id data ttl => some ((),s.set id (some ⟨data,s.clock+ttl⟩))
  | .remove id => some ((),s.set id none)
  | .extend id ttl => match s.entries id with
      | none => some (false,s)
      | some e => some (true,s.set id (some ⟨e.data,s.clock+ttl⟩))

abbrev Program (V : Type) := Prog (Op V) (Ans V) StoreError (Option V)

section Programs

variable (miss : StoreError)

def evicted (id : String) : Program V := .call (.evict id) fun _ => .fail miss

def checked (id : String) (e : Entry V) : Program V := .call .now fun now =>
  if e.expiresAt < now then evicted miss id else .ret (some e.data)

def loaded (id : String) : Option (Entry V) → Program V
  | none => .fail miss
  | some e => checked miss id e

-- Load and Get; the caller gets a copy
def load (id : String) : Program V := .call (.lookup id) (loaded miss id)

def save (id : String) (data : V) (ttl : Duration) : Program V :=
  .call (.put id data ttl) fun _ => .ret none

def delete (id : String) : Program V := .call (.remove id) fun _ => .ret none

def touch (id : String) (ttl : Duration) : Program V :=
  .call (.extend id ttl) fun found => if found then .ret none else .fail miss

end Programs

inductive Call (V : Type) where
  | load (id : String)
  | save (id : String) (data : V) (ttl : Duration)
  | delete (id : String)
  | touch (id : String) (ttl : Duration)

def Call.program (miss : StoreError) : Call V → Program V
  | .load id => InMemory.load miss id
  | .save id data ttl => InMemory.save id data ttl
  | .delete id => InMemory.delete id
  | .touch id ttl => InMemory.touch miss id ttl

inductive CacheCall (V : Type) where
  | get (key : String)
  | set (key : String) (value : V) (ttl : Duration)
  | delete (key : String)

-- Set of the cache falls back to a second
def CacheCall.call : CacheCall V → Call V
  | .get key => .load key
  | .set key value ttl => .save key value (if ttl ≤ 0 then second else ttl)
  | .delete key => .delete key

def machine {ι : Type} (miss : StoreError) (call : ι → Call V) :
    Machine (Ans V) StoreError (Store V) ι (Option V) Unit ℕ :=
  ⟨fun i => (call i).program miss,exec,fun s elapsed => { s with clock := s.clock+elapsed }⟩

def sessionStore (V : Type) : Machine (Ans V) StoreError (Store V) (Call V) (Option V) Unit ℕ :=
  machine .notFound id

def cacheStore (V : Type) : Machine (Ans V) StoreError (Store V) (CacheCall V) (Option V) Unit ℕ :=
  machine .cacheMiss CacheCall.call

abbrev Run (V ι : Type) := Config (Ans V) StoreError (Store V) ι (Option V)

-- a map with expiry, to which an expired key is absent whatever the call
def ttlMap (miss : StoreError) (m : Entries V) (now : Time) :
    Call V → Except StoreError (Option V) × Entries V
  | .load id => match m.live now id with
      | none => (.error miss,m)
      | some e => (.ok (some e.data),m)
  | .save id data ttl => (.ok none,m.set id (some ⟨data,now+ttl⟩))
  | .delete id => (.ok none,m.set id none)
  | .touch id ttl => match m.live now id with
      | none => (.error miss,m)
      | some e => (.ok none,m.set id (some ⟨e.data,now+ttl⟩))

def object {ι : Type} (miss : StoreError) (call : ι → Call V) :
    Object (Entries V) ι Time (Except StoreError (Option V)) :=
  ⟨fun m now i => ttlMap miss m now (call i)⟩

def noEntries : Entries V := fun _ => none

def fresh {ι : Type} (now : Time) : Run V ι := ⟨⟨now,noEntries⟩,[]⟩

-- the second section of Load finds nothing live to delete, Touch nothing expired to extend
def Op.Harmless (s : Store V) : Op V → Prop
  | .evict id => (s.entries.live s.clock id).isNone
  | .extend id _ => (s.entries id).all fun e => s.clock ≤ e.expiresAt
  | _ => True

instance (s : Store V) : (op : Op V) → Decidable (op.Harmless s)
  | .evict _ | .extend _ _ => inferInstanceAs (Decidable (_ = true))
  | .lookup _ | .now | .put _ _ _ | .remove _ => .isTrue trivial

def Harmless {ι : Type} (c : Run V ι) (a : Action ι Unit ℕ) : Prop := match c.next a with
  | some (_,op,_) => op.Harmless c.shared
  | none => True

instance {ι : Type} (c : Run V ι) (a : Action ι Unit ℕ) : Decidable (Harmless c a) :=
  match h : c.next a with
  | some (_,op,_) => decidable_of_iff (op.Harmless c.shared) (by rw [Harmless,h])
  | none => .isTrue (by rw [Harmless,h]; trivial)

section Live

variable {m m' : Entries V} {now now' : Time} {id : String} {e : Entry V}

theorem live_of_some (h : m id = some e) (hlive : now ≤ e.expiresAt) :
    m.live now id = some e := by
  rw [Entries.live,h,Option.filter_some,if_pos (by simpa using hlive)]

theorem live_of_expired (h : m id = some e) (hexpired : e.expiresAt < now) :
    m.live now id = none := by
  rw [Entries.live,h,Option.filter_some,if_neg (by simpa using hexpired)]

theorem live_of_none (h : m id = none) : m.live now id = none := by
  rw [Entries.live,h,Option.filter_none]

theorem ttlMap_load_none {miss : StoreError} (h : m.live now id = none) :
    ttlMap miss m now (.load id) = (.error miss,m) := by
  simp [ttlMap,h]

theorem ttlMap_load_some {miss : StoreError} (h : m.live now id = some e) :
    ttlMap miss m now (.load id) = (.ok (some e.data),m) := by
  simp [ttlMap,h]

theorem ttlMap_touch_none {miss : StoreError} (h : m.live now id = none) (ttl : Duration) :
    ttlMap miss m now (.touch id ttl) = (.error miss,m) := by
  simp [ttlMap,h]

theorem ttlMap_touch_some {miss : StoreError} (h : m.live now id = some e) (ttl : Duration) :
    ttlMap miss m now (.touch id ttl) = (.ok none,m.set id (some ⟨e.data,now+ttl⟩)) := by
  simp [ttlMap,h]

-- what is live later was live before
theorem live_later (hle : now ≤ now') :
    m.live now' id = (m.live now id).filter fun e => now' ≤ e.expiresAt := by
  unfold Entries.live
  cases m id with
  | none => rfl
  | some e =>
    rw [Option.filter_filter]
    congr 1
    funext e
    simpa using fun h : now' ≤ e.expiresAt => Int.le_trans hle h

def Agrees (m m' : Entries V) (now : Time) : Prop := ∀ id, m.live now id = m'.live now id

theorem Agrees.later (h : Agrees m m' now) (hle : now ≤ now') : Agrees m m' now' := by
  intro id
  rw [live_later hle,live_later hle,h id]

theorem live_set (m : Entries V) (now : Time) (id id' : String) (e : Option (Entry V)) :
    (m.set id e).live now id' =
      if id' = id then e.filter (fun e => now ≤ e.expiresAt) else m.live now id' := by
  unfold Entries.live Entries.set
  split_ifs <;> rfl

theorem Agrees.set (h : Agrees m m' now) (id : String) (e : Option (Entry V)) :
    Agrees (m.set id e) (m'.set id e) now := by
  intro id'
  rw [live_set,live_set,h id']

theorem Agrees.set_dead (h : Agrees m m' now) (hdead : m'.live now id = none) :
    Agrees m (m'.set id none) now := by
  intro id'
  rw [live_set]
  split_ifs with hid
  · rw [hid,h id,hdead]
    rfl
  · exact h id'

end Live

section Linearization

variable {ι : Type} {miss : StoreError} {call : ι → Call V}

abbrev Points (V ι : Type) := List (Point ι Time (Except StoreError (Option V)))

def HasPoint (L : Points V ι) (i : ℕ) (r : Except StoreError (Option V)) : Prop :=
  ∃ p ∈ L, p.thread = i ∧ p.result = r

-- a Load that has read a live entry has a point at that section; it loses it when the clock has
-- moved on, and gets one at the section that evicts
inductive Status (miss : StoreError) (call : ι → Call V) (now : Time) (L : Points V ι) (i : ℕ)
    (t : Thread (Ans V) StoreError ι (Option V)) : Prop where
  | begun (hrest : t.rest = (call t.call).program miss) (hfree : i ∉ L.map Point.thread)
  | found (id : String) (e : Entry V) (hcall : call t.call = .load id)
      (hrest : t.rest = checked miss id e)
      (hpoint : HasPoint L i (.ok (some e.data)) ∨ e.expiresAt < now ∧ i ∉ L.map Point.thread)
  | late (id : String) (hcall : call t.call = .load id) (hrest : t.rest = evicted miss id)
      (hfree : i ∉ L.map Point.thread)
  | done (r : Except StoreError (Option V)) (hresult : t.result = some r) (hpoint : HasPoint L i r)

structure Invariant (miss : StoreError) (call : ι → Call V) (c : Run V ι) (L : Points V ι) :
    Prop where
  unique : (L.map Point.thread).Nodup
  started : ∀ p ∈ L, ∃ t, c.threads[p.thread]? = some t ∧ t.call = p.call
  legal : (object miss call).Legal noEntries L
  agrees : Agrees ((object miss call).after noEntries L) c.shared.entries c.shared.clock
  status : ∀ i t, c.threads[i]? = some t → Status miss call c.shared.clock L i t

theorem program_is_call (miss : StoreError) (cl : Call V) : ∃ op k, cl.program miss = .call op k := by
  cases cl with
  | load id => exact ⟨_,_,rfl⟩
  | save id data ttl => exact ⟨_,_,rfl⟩
  | delete id => exact ⟨_,_,rfl⟩
  | touch id ttl => exact ⟨_,_,rfl⟩

theorem Status.hasPoint {now : Time} {L : Points V ι} {i : ℕ}
    {t : Thread (Ans V) StoreError ι (Option V)} {r : Except StoreError (Option V)}
    (h : Status miss call now L i t) (hr : t.result = some r) : HasPoint L i r := by
  cases h with
  | begun hrest _ =>
    obtain ⟨op,k,hcall⟩ := program_is_call miss (call t.call)
    rw [Thread.result,hrest,hcall] at hr
    cases hr
  | found id e _ hrest _ =>
    rw [Thread.result,hrest] at hr
    cases hr
  | late id _ hrest _ =>
    rw [Thread.result,hrest] at hr
    cases hr
  | done r' hresult hpoint =>
    rw [hresult,Option.some.injEq] at hr
    exact hr ▸ hpoint

theorem Invariant.explains {c : Run V ι} {L : Points V ι} (h : Invariant miss call c L) :
    Machine.Explains (object miss call) noEntries c L :=
  ⟨h.unique,h.started,fun i t _ ht hr => (h.status i t ht).hasPoint hr,h.legal⟩

-- a call's status depends on its own points only
theorem Status.congr {now now' : Time} {L L' : Points V ι} {i : ℕ}
    {t t' : Thread (Ans V) StoreError ι (Option V)} (h : Status miss call now L i t)
    (hcall : t'.call = t.call) (hrest : t'.rest = t.rest) (hle : now ≤ now')
    (hpoints : ∀ p, p.thread = i → (p ∈ L' ↔ p ∈ L)) : Status miss call now' L' i t' := by
  have hfree : i ∉ L.map Point.thread → i ∉ L'.map Point.thread := by
    intro hfree hmem
    obtain ⟨p,hp,hpi⟩ := List.mem_map.mp hmem
    exact hfree (List.mem_map.mpr ⟨p,(hpoints p hpi).mp hp,hpi⟩)
  have hhas : ∀ r, HasPoint L i r → HasPoint L' i r := by
    rintro r ⟨p,hp,hpi,hpr⟩
    exact ⟨p,(hpoints p hpi).mpr hp,hpi,hpr⟩
  cases h with
  | begun h hnot => exact .begun (by rw [hrest,h,hcall]) (hfree hnot)
  | found id e hload h hpoint =>
    refine .found id e (hcall ▸ hload) (hrest.trans h) ?_
    exact hpoint.imp (hhas _) fun hlate => ⟨Int.lt_of_lt_of_le hlate.1 hle,hfree hlate.2⟩
  | late id hload h hnot => exact .late id (hcall ▸ hload) (hrest.trans h) (hfree hnot)
  | done r hresult hpoint =>
    refine .done r ?_ (hhas r hpoint)
    rw [Thread.result,hrest]
    exact hresult

section Steps

variable {c : Run V ι} {L : Points V ι} {i : ℕ} {s' : Store V}
  {t t' : Thread (Ans V) StoreError ι (Option V)}

theorem Invariant.update (h : Invariant miss call c L) (ht : c.threads[i]? = some t)
    (hcall : t'.call = t.call) {L' : Points V ι} (hunique : (L'.map Point.thread).Nodup)
    (hothers : ∀ p, p.thread ≠ i → (p ∈ L' ↔ p ∈ L))
    (hmine : ∀ p ∈ L', p.thread = i → p.call = t.call)
    (hlegal : (object miss call).Legal noEntries L') (hclock : s'.clock = c.shared.clock)
    (hagrees : Agrees ((object miss call).after noEntries L') s'.entries s'.clock)
    (hstatus : Status miss call s'.clock L' i t') :
    Invariant miss call ⟨s',c.threads.set i t'⟩ L' := by
  have hi := (List.getElem?_eq_some_iff.mp ht).1
  refine ⟨hunique,?_,hlegal,hagrees,?_⟩
  · intro p hp
    by_cases hpi : p.thread = i
    · refine ⟨t',?_,hcall.trans (hmine p hp hpi).symm⟩
      rw [hpi]
      exact List.getElem?_set_self hi
    · obtain ⟨u,hu,hucall⟩ := h.started p ((hothers p hpi).mp hp)
      exact ⟨u,(List.getElem?_set_ne (Ne.symm hpi)).trans hu,hucall⟩
  · intro j u hu
    rcases Machine.of_getElem?_set hu with ⟨rfl,rfl⟩ | ⟨hij,hu⟩
    · exact hstatus
    · refine (h.status j u hu).congr rfl rfl (Int.le_of_eq hclock.symm) ?_
      rintro p rfl
      exact hothers p hij

theorem pending_of_call {op : Op V} {k : Ans V op → Program V} (ht : c.threads[i]? = some t)
    (hrest : t.rest = .call op k) : ¬ c.Returned i := by
  rintro ⟨u,r,hu,hr⟩
  rw [ht,Option.some.injEq] at hu
  rw [Thread.result,← hu,hrest] at hr
  cases hr

-- the step is no linearization point
theorem Invariant.stay (h : Invariant miss call c L) (ht : c.threads[i]? = some t)
    (hcall : t'.call = t.call) (hclock : s'.clock = c.shared.clock)
    (hentries : s'.entries = c.shared.entries) (hstatus : Status miss call s'.clock L i t') :
    ∃ L', Invariant miss call ⟨s',c.threads.set i t'⟩ L' ∧
      Machine.Moves Store.clock c L L' := by
  refine ⟨L,h.update ht hcall h.unique (fun _ _ => Iff.rfl) ?_ h.legal hclock ?_ hstatus,⟨?_⟩⟩
  · intro p hp hpi
    obtain ⟨u,hu,hucall⟩ := h.started p hp
    rw [hpi,ht,Option.some.injEq] at hu
    rw [← hucall,hu]
  · rw [hentries,hclock]
    exact h.agrees
  · exact ⟨fun _ => true,[],by simp,fun _ _ => rfl,fun p hp => absurd hp List.not_mem_nil⟩

-- the call takes effect at this step
theorem Invariant.append (h : Invariant miss call c L) (ht : c.threads[i]? = some t)
    (hpending : ¬ c.Returned i) (hfree : i ∉ L.map Point.thread) (hcall : t'.call = t.call)
    (hclock : s'.clock = c.shared.clock) {r : Except StoreError (Option V)}
    (hresult : (ttlMap miss ((object miss call).after noEntries L) c.shared.clock
      (call t.call)).1 = r)
    (hagrees : Agrees (ttlMap miss ((object miss call).after noEntries L) c.shared.clock
      (call t.call)).2 s'.entries s'.clock)
    (hstatus : ∀ L', HasPoint L' i r → Status miss call s'.clock L' i t') :
    ∃ L', Invariant miss call ⟨s',c.threads.set i t'⟩ L' ∧
      Machine.Moves Store.clock c L L' := by
  have hi := (List.getElem?_eq_some_iff.mp ht).1
  refine ⟨L ++ [⟨i,t.call,c.shared.clock,r⟩],?_,⟨?_⟩⟩
  · refine h.update ht hcall ?_ ?_ ?_ ?_ hclock ?_ ?_
    · rw [List.map_append,List.map_singleton,List.nodup_append]
      refine ⟨h.unique,by simp,?_⟩
      rintro j hj k hk rfl
      obtain rfl := List.mem_singleton.mp hk
      exact hfree hj
    · intro p hpi
      rw [List.mem_append,List.mem_singleton]
      refine or_iff_left ?_
      rintro rfl
      exact hpi rfl
    · intro p hp hpi
      rcases List.mem_append.mp hp with hp | hp
      · exact absurd (List.mem_map.mpr ⟨p,hp,hpi⟩) hfree
      · rw [List.mem_singleton.mp hp]
    · rw [Object.legal_append]
      exact ⟨h.legal,hresult,trivial⟩
    · rw [Object.after_append]
      exact hagrees
    · exact hstatus _ ⟨_,List.mem_append_right _ (List.mem_singleton.mpr rfl),rfl,rfl⟩
  · refine ⟨fun _ => true,[⟨i,t.call,c.shared.clock,r⟩],by simp,fun _ _ => rfl,?_⟩
    intro p hp
    rw [List.mem_singleton.mp hp]
    exact ⟨hi,hpending,rfl⟩

theorem load_reads (miss : StoreError) (m : Entries V) (now : Time) (id : String) :
    (ttlMap miss m now (.load id)).2 = m := by
  cases h : m.live now id with
  | none => rw [ttlMap_load_none h]
  | some e => rw [ttlMap_load_some h]

-- the point of a Load is given up
theorem Invariant.drop (h : Invariant miss call c L) (ht : c.threads[i]? = some t)
    (hpending : ¬ c.Returned i) {id : String} (hload : call t.call = .load id)
    (hcall : t'.call = t.call) (hstatus : ∀ L' : Points V ι, i ∉ L'.map Point.thread →
      Status miss call c.shared.clock L' i t') :
    ∃ L', Invariant miss call ⟨c.shared,c.threads.set i t'⟩ L' ∧
      Machine.Moves Store.clock c L L' := by
  have hreads : ∀ p ∈ L, decide (p.thread ≠ i) = false → ∀ m : Entries V,
      ((object miss call).apply m p.time p.call).2 = m := by
    intro p hp hpi m
    obtain ⟨u,hu,hucall⟩ := h.started p hp
    rw [not_not.mp (of_decide_eq_false hpi),ht,Option.some.injEq] at hu
    rw [object,← hucall,← hu]
    dsimp only
    rw [hload,load_reads]
  obtain ⟨hlegal,hafter⟩ := (object miss call).legal_filter hreads h.legal
  have hfree : i ∉ (L.filter fun p => decide (p.thread ≠ i)).map Point.thread := by
    intro hmem
    obtain ⟨p,hp,hpi⟩ := List.mem_map.mp hmem
    exact of_decide_eq_true (List.mem_filter.mp hp).2 hpi
  refine ⟨L.filter fun p => decide (p.thread ≠ i),?_,⟨?_⟩⟩
  · refine h.update ht hcall ?_ ?_ ?_ hlegal rfl ?_ (hstatus _ hfree)
    · exact h.unique.sublist (List.filter_sublist.map _)
    · intro p hpi
      rw [List.mem_filter]
      exact and_iff_left (decide_eq_true hpi)
    · intro p hp hpi
      exact absurd (List.mem_map.mpr ⟨p,hp,hpi⟩) hfree
    · rw [hafter]
      exact h.agrees
  · refine ⟨fun j => decide (j ≠ i),[],by simp,?_,fun p hp => absurd hp List.not_mem_nil⟩
    rintro j hj
    exact decide_eq_true fun hji => hpending (hji ▸ hj)

theorem result_of_ret {a : Option V} (h : t'.rest = .ret a) : t'.result = some (.ok a) := by
  rw [Thread.result,h]

theorem result_of_fail {e : StoreError} (h : t'.rest = .fail e) : t'.result = some (.error e) := by
  rw [Thread.result,h]

theorem Invariant.lookup (h : Invariant miss call c L) (ht : c.threads[i]? = some t)
    (hpending : ¬ c.Returned i) (hfree : i ∉ L.map Point.thread) {id : String}
    (hload : call t.call = .load id) (hcall : t'.call = t.call)
    (hrest : t'.rest = loaded miss id (c.shared.entries id)) :
    ∃ L', Invariant miss call ⟨c.shared,c.threads.set i t'⟩ L' ∧
      Machine.Moves Store.clock c L L' := by
  have hagrees := h.agrees id
  cases he : c.shared.entries id with
  | none =>
    rw [live_of_none he] at hagrees
    rw [he] at hrest
    refine h.append ht hpending hfree hcall rfl ?_ ?_ fun _ => .done _ (result_of_fail hrest)
    · rw [hload,ttlMap_load_none hagrees]
    · rw [hload,load_reads]
      exact h.agrees
  | some e =>
    rw [he] at hrest
    rcases Int.lt_or_le e.expiresAt c.shared.clock with hexpired | hlive
    · exact h.stay ht hcall rfl rfl
        (.found id e (hcall ▸ hload) hrest (.inr ⟨hexpired,hfree⟩))
    · rw [live_of_some he hlive] at hagrees
      refine h.append ht hpending hfree hcall rfl ?_ ?_ fun _ hpoint =>
        .found id e (hcall ▸ hload) hrest (.inl hpoint)
      · rw [hload,ttlMap_load_some hagrees]
      · rw [hload,load_reads]
        exact h.agrees

theorem Invariant.now (h : Invariant miss call c L) (ht : c.threads[i]? = some t)
    (hpending : ¬ c.Returned i) {id : String} {e : Entry V} (hload : call t.call = .load id)
    (hpoint : HasPoint L i (.ok (some e.data)) ∨
      e.expiresAt < c.shared.clock ∧ i ∉ L.map Point.thread) (hcall : t'.call = t.call)
    (hrest : t'.rest = if e.expiresAt < c.shared.clock then evicted miss id
      else .ret (some e.data)) :
    ∃ L', Invariant miss call ⟨c.shared,c.threads.set i t'⟩ L' ∧
      Machine.Moves Store.clock c L L' := by
  split_ifs at hrest with hexpired
  · exact h.drop ht hpending hload hcall fun _ hfree => .late id (hcall ▸ hload) hrest hfree
  · have hhit := hpoint.resolve_right fun hlate => hexpired hlate.1
    exact h.stay ht hcall rfl rfl (.done _ (result_of_ret hrest) hhit)

theorem Invariant.evict (h : Invariant miss call c L) (ht : c.threads[i]? = some t)
    (hpending : ¬ c.Returned i) (hfree : i ∉ L.map Point.thread) {id : String}
    (hload : call t.call = .load id) (hdead : c.shared.entries.live c.shared.clock id = none)
    (hcall : t'.call = t.call) (hrest : t'.rest = .fail miss) :
    ∃ L', Invariant miss call ⟨c.shared.set id none,c.threads.set i t'⟩ L' ∧
      Machine.Moves Store.clock c L L' := by
  refine h.append ht hpending hfree hcall rfl ?_ ?_ fun _ => .done _ (result_of_fail hrest)
  · rw [hload,ttlMap_load_none ((h.agrees id).trans hdead)]
  · rw [hload,load_reads]
    exact h.agrees.set_dead hdead

theorem Invariant.extend (h : Invariant miss call c L) (ht : c.threads[i]? = some t)
    (hpending : ¬ c.Returned i) (hfree : i ∉ L.map Point.thread) {id : String} {ttl : Duration}
    (htouch : call t.call = .touch id ttl)
    (hlive : ∀ e, c.shared.entries id = some e → c.shared.clock ≤ e.expiresAt)
    {found : Bool} (hx : exec c.shared (.extend id ttl) () = some (found,s'))
    (hcall : t'.call = t.call) (hrest : t'.rest = if found then .ret none else .fail miss) :
    ∃ L', Invariant miss call ⟨s',c.threads.set i t'⟩ L' ∧ Machine.Moves Store.clock c L L' := by
  have hagrees := h.agrees id
  unfold exec at hx
  cases he : c.shared.entries id with
  | none =>
    simp only [he,Option.some.injEq,Prod.mk.injEq] at hx
    obtain ⟨rfl,rfl⟩ := hx
    rw [live_of_none he] at hagrees
    refine h.append ht hpending hfree hcall rfl ?_ ?_ fun _ => .done _ (result_of_fail hrest)
    · rw [htouch,ttlMap_touch_none hagrees]
    · rw [htouch,ttlMap_touch_none hagrees]
      exact h.agrees
  | some e =>
    simp only [he,Option.some.injEq,Prod.mk.injEq] at hx
    obtain ⟨rfl,rfl⟩ := hx
    rw [live_of_some he (hlive e he)] at hagrees
    refine h.append ht hpending hfree hcall rfl ?_ ?_ fun _ => .done _ (result_of_ret hrest)
    · rw [htouch,ttlMap_touch_some hagrees]
    · rw [htouch,ttlMap_touch_some hagrees]
      exact h.agrees.set id _

theorem Invariant.overwrite (h : Invariant miss call c L) (ht : c.threads[i]? = some t)
    (hpending : ¬ c.Returned i) (hfree : i ∉ L.map Point.thread) {id : String}
    {e : Option (Entry V)} (hwrite : ∀ m : Entries V,
      ttlMap miss m c.shared.clock (call t.call) = (.ok none,m.set id e))
    (hcall : t'.call = t.call) (hrest : t'.rest = .ret none) :
    ∃ L', Invariant miss call ⟨c.shared.set id e,c.threads.set i t'⟩ L' ∧
      Machine.Moves Store.clock c L L' := by
  refine h.append ht hpending hfree hcall rfl ?_ ?_ fun _ => .done _ (result_of_ret hrest)
  · rw [hwrite]
  · rw [hwrite]
    exact h.agrees.set id e

theorem Invariant.exec (h : Invariant miss call c L) (ht : c.threads[i]? = some t) {op : Op V}
    {k : Ans V op → Program V} {ans : Ans V op} (hrest : t.rest = .call op k)
    (hharmless : op.Harmless c.shared) (hx : exec c.shared op () = some (ans,s'))
    (hcall : t'.call = t.call) (hnext : t'.rest = k ans) :
    ∃ L', Invariant miss call ⟨s',c.threads.set i t'⟩ L' ∧ Machine.Moves Store.clock c L L' := by
  have hpending := pending_of_call ht hrest
  cases h.status i t ht with
  | begun hbegun hfree =>
    rw [hbegun] at hrest
    cases hcl : call t.call with
    | load id =>
      rw [hcl] at hrest
      cases hrest
      cases hx
      exact h.lookup ht hpending hfree hcl hcall hnext
    | save id data ttl =>
      rw [hcl] at hrest
      cases hrest
      cases hx
      exact h.overwrite ht hpending hfree (fun m => by rw [hcl]; rfl) hcall hnext
    | delete id =>
      rw [hcl] at hrest
      cases hrest
      cases hx
      exact h.overwrite ht hpending hfree (fun m => by rw [hcl]; rfl) hcall hnext
    | touch id ttl =>
      rw [hcl] at hrest
      cases hrest
      refine h.extend ht hpending hfree hcl (fun e he => ?_) hx hcall hnext
      rw [Op.Harmless,he] at hharmless
      simpa using hharmless
  | found id e hload hfound hpoint =>
    rw [hfound] at hrest
    cases hrest
    cases hx
    exact h.now ht hpending hload hpoint hcall hnext
  | late id hload hlate hfree =>
    rw [hlate] at hrest
    cases hrest
    cases hx
    exact h.evict ht hpending hfree hload (Option.isNone_iff_eq_none.mp hharmless) hcall hnext
  | done r hresult hpoint => exact absurd ⟨t,r,ht,hresult⟩ hpending

theorem Invariant.start (h : Invariant miss call c L) (new : ι) :
    Invariant miss call
      { c with threads := c.threads ++ [⟨new,(call new).program miss,[],true⟩] } L := by
  have hbound : ∀ p ∈ L, p.thread < c.threads.length := by
    intro p hp
    obtain ⟨u,hu,-⟩ := h.started p hp
    exact (List.getElem?_eq_some_iff.mp hu).1
  refine ⟨h.unique,?_,h.legal,h.agrees,?_⟩
  · intro p hp
    obtain ⟨u,hu,hucall⟩ := h.started p hp
    exact ⟨u,(List.getElem?_append_left (hbound p hp)).trans hu,hucall⟩
  · intro j u hu
    rcases Nat.lt_or_ge j c.threads.length with hj | hj
    · exact h.status j u ((List.getElem?_append_left hj).symm.trans hu)
    · have hmem := List.mem_of_getElem? ((List.getElem?_append_right hj).symm.trans hu)
      obtain rfl := List.mem_singleton.mp hmem
      refine .begun rfl fun hmem => ?_
      obtain ⟨p,hp,rfl⟩ := List.mem_map.mp hmem
      exact absurd (hbound p hp) (Nat.not_lt.mpr hj)

theorem Invariant.tick (h : Invariant miss call c L) (elapsed : ℕ) :
    Invariant miss call
      { c with shared := { c.shared with clock := c.shared.clock+elapsed } } L := by
  have hle : c.shared.clock ≤ c.shared.clock+elapsed :=
    Int.le_add_of_nonneg_right (Int.natCast_nonneg _)
  exact ⟨h.unique,h.started,h.legal,h.agrees.later hle,fun i t ht =>
    (h.status i t ht).congr rfl rfl hle fun _ _ => Iff.rfl⟩

theorem moves_refl (c : Run V ι) (L : Points V ι) : Machine.Moves Store.clock c L L :=
  ⟨fun _ => true,[],by simp,fun _ _ => rfl,fun p hp => absurd hp List.not_mem_nil⟩

theorem Invariant.step (h : Invariant miss call c L) {a : Action ι Unit ℕ} (ha : Harmless c a)
    {c' : Run V ι} (hs : (machine miss call).step c a = some c') :
    ∃ L', Invariant miss call c' L' ∧ Machine.Moves Store.clock c L L' := by
  obtain ⟨new,rfl,rfl⟩ | ⟨i,x,t,op,k,ans,s',rfl,ht,hal,hrest,hx,rfl⟩ | ⟨i,t,rfl,ht,rfl⟩ |
    ⟨elapsed,rfl,rfl⟩ := (machine miss call).step_cases hs
  · exact ⟨L,h.start new,moves_refl c L⟩
  · rw [Harmless,Config.next_exec ht hal hrest] at ha
    exact h.exec ht hrest ha hx rfl rfl
  · exact h.stay ht rfl rfl rfl
      ((h.status i t ht).congr rfl rfl (Int.le_refl _) fun _ _ => Iff.rfl)
  · exact ⟨L,h.tick elapsed,moves_refl c L⟩

theorem clock_step {a : Action ι Unit ℕ} {c c' : Run V ι}
    (hs : (machine miss call).step c a = some c') : c.shared.clock ≤ c'.shared.clock := by
  obtain ⟨new,rfl,rfl⟩ | ⟨i,x,t,op,k,ans,s',rfl,ht,hal,hrest,hx,rfl⟩ | ⟨i,t,rfl,ht,rfl⟩ |
    ⟨elapsed,rfl,rfl⟩ := (machine miss call).step_cases hs
  · exact Int.le_refl _
  · have hclock : s'.clock = c.shared.clock := by
      change InMemory.exec c.shared op x = some (ans,s') at hx
      cases op with
      | extend id ttl =>
        unfold InMemory.exec at hx
        dsimp only at hx
        split at hx <;> cases hx <;> rfl
      | _ =>
        cases hx
        rfl
    exact Int.le_of_eq hclock.symm
  · exact Int.le_refl _
  · exact Int.le_add_of_nonneg_right (Int.natCast_nonneg elapsed)

end Steps

theorem invariant_fresh (now : Time) : Invariant miss call (fresh now : Run V ι) [] :=
  ⟨List.nodup_nil,fun p hp => absurd hp List.not_mem_nil,trivial,fun _ => rfl,fun i t ht => by
    simp [fresh] at ht⟩

theorem linearizable_of_harmless {now : Time} {acts : List (Action ι Unit ℕ)} {c : Run V ι}
    (hharmless : (machine miss call).Along Harmless acts (fresh now))
    (hrun : (machine miss call).run acts (fresh now) = some c) :
    (machine miss call).Linearizable Store.clock (object miss call) noEntries acts
      (fresh now) c :=
  (machine miss call).linearizable_of_steps (fun _ _ h => h.explains)
    (fun _ _ _ _ h ha hs => h.step ha hs) (fun _ _ _ hs => clock_step hs) (invariant_fresh now)
    hharmless hrun

def Call.writes (id : String) : Call V → Prop
  | .load _ => False
  | .save id' _ _ | .delete id' | .touch id' _ => id' = id

theorem ttlMap_frame {m : Entries V} {now : Time} {id : String} {cl : Call V}
    (h : ¬ cl.writes id) : (ttlMap miss m now cl).2 id = m id := by
  have hset : ∀ {id' : String}, id' ≠ id → ∀ e, m.set id' e id = m id := fun hne e =>
    if_neg (Ne.symm hne)
  cases cl with
  | load id' => rw [load_reads]
  | save id' data ttl => exact hset h _
  | delete id' => exact hset h _
  | touch id' ttl =>
    cases hlive : m.live now id' with
    | none => rw [ttlMap_touch_none hlive]
    | some e =>
      rw [ttlMap_touch_some hlive]
      exact hset h _

theorem after_frame {m : Entries V} {id : String} {L : Points V ι}
    (h : ∀ p ∈ L, ¬ (call p.call).writes id) : (object miss call).after m L id = m id := by
  induction L generalizing m with
  | nil => rfl
  | cons p L ih =>
    obtain ⟨hp,hL⟩ := List.forall_mem_cons.mp h
    exact (ih hL).trans (ttlMap_frame hp)

-- a point for each of two calls, the first before the second
theorem points_split {L : Points V ι} {i j : ℕ} (h : [j,i].Sublist (L.map Point.thread)) :
    ∃ (A B C : Points V ι) (p q : Point ι Time (Except StoreError (Option V))),
      L = A ++ p :: (B ++ q :: C) ∧ p.thread = j ∧ q.thread = i := by
  obtain ⟨r₁,r₂,hmap,hj,hi⟩ := List.cons_sublist_iff.mp h
  obtain ⟨L₁,L₂,rfl,rfl,rfl⟩ := List.map_eq_append_iff.mp hmap
  obtain ⟨p,hp,hpj⟩ := List.mem_map.mp hj
  obtain ⟨q,hq,hqi⟩ := List.mem_map.mp (List.singleton_sublist.mp hi)
  obtain ⟨A,B,rfl⟩ := List.append_of_mem hp
  obtain ⟨B',C,rfl⟩ := List.append_of_mem hq
  exact ⟨A,B ++ B',C,p,q,by simp,hpj,hqi⟩

-- d₁ is before the save, d₂ between the two calls and d₃ behind the load
structure SavedBefore (m : Machine (Ans V) StoreError (Store V) ι (Option V) Unit ℕ)
    (acts : List (Action ι Unit ℕ)) (c₀ : Run V ι) (j i : ℕ) (ttl : Duration)
    (d₁ d₂ d₃ : Run V ι) : Prop where
  passes₁ : m.Passes acts c₀ d₁
  passes₂ : m.Passes acts c₀ d₂
  passes₃ : m.Passes acts c₀ d₃
  unsaved : d₁.threads.length ≤ j
  saved : d₂.Returned j
  unstarted : d₂.threads.length ≤ i
  returned : d₃.Returned i
  unexpired : d₃.shared.clock ≤ d₁.shared.clock+ttl

-- a value that is saved before a Load starts, not overwritten, deleted or touched by another call,
-- and not expired when the Load returns
theorem saved_value_returned {now : Time} {acts : List (Action ι Unit ℕ)} {c d₁ d₂ d₃ : Run V ι}
    (h : (machine miss call).Linearizable Store.clock (object miss call) noEntries acts
      (fresh now) c) {i j : ℕ} {ti tj : Thread (Ans V) StoreError ι (Option V)}
    {id : String} {data : V} {ttl : Duration}
    (hj : c.threads[j]? = some tj) (hsave : call tj.call = .save id data ttl)
    (hi : c.threads[i]? = some ti) (hload : call ti.call = .load id)
    (hothers : ∀ k t, c.threads[k]? = some t → k ≠ j → ¬ (call t.call).writes id)
    (hbefore : SavedBefore (machine miss call) acts (fresh now) j i ttl d₁ d₂ d₃)
    {r : Except StoreError (Option V)} (hr : ti.result = some r) : r = .ok (some data) := by
  obtain ⟨L,hexplains,htimed⟩ := h
  obtain ⟨q',hq',hq'i,hq'r⟩ := hexplains.returned i ti r hi hr
  have hpair := htimed.realTime d₂ j i hbefore.passes₂ hbefore.saved hbefore.unstarted
    (List.mem_map.mpr ⟨q',hq',hq'i⟩)
  obtain ⟨A,B,C,p,q,rfl,hpj,hqi⟩ := points_split hpair
  have hpmem : p ∈ A ++ p :: (B ++ q :: C) := by simp
  have hqmem : q ∈ A ++ p :: (B ++ q :: C) := by simp
  have hqr : q.result = r := by
    have heq := List.inj_on_of_nodup_map hexplains.unique hq' hqmem (hq'i.trans hqi.symm)
    rw [← heq,hq'r]
  have hcallOf : ∀ {k t}, c.threads[k]? = some t →
      ∀ x ∈ A ++ p :: (B ++ q :: C), x.thread = k → x.call = t.call := by
    intro k t ht x hx hxk
    obtain ⟨u,hu,hucall⟩ := hexplains.started x hx
    rw [hxk,ht,Option.some.injEq] at hu
    rw [← hucall,hu]
  have hpcall : call p.call = .save id data ttl := by rw [hcallOf hj p hpmem hpj,hsave]
  have hqcall : call q.call = .load id := by rw [hcallOf hi q hqmem hqi,hload]
  have hbetween : ∀ x ∈ B, ¬ (call x.call).writes id := by
    intro x hx
    obtain ⟨u,hu,hucall⟩ := hexplains.started x (by simp [hx])
    rw [← hucall]
    refine hothers _ u hu fun hxj => ?_
    have hnodup := hexplains.unique
    rw [List.map_append,List.map_cons,List.map_append,List.nodup_append] at hnodup
    refine (List.nodup_cons.mp hnodup.2.1).1 (List.mem_append_left _ ?_)
    exact List.mem_map.mpr ⟨x,hx,hxj.trans hpj.symm⟩
  have hlive : q.time ≤ p.time+ttl :=
    calc q.time ≤ d₃.shared.clock := htimed.notAfter d₃ q hbefore.passes₃ hqmem (hqi ▸ hbefore.returned)
      _ ≤ d₁.shared.clock+ttl := hbefore.unexpired
      _ ≤ p.time+ttl := Int.add_le_add_right
        (htimed.notBefore d₁ p hbefore.passes₁ hpmem (hpj ▸ hbefore.unsaved)) ttl
  -- the map holds the value from the save to the load
  have hlegal := hexplains.legal
  rw [Object.legal_append] at hlegal
  obtain ⟨-,-,hlegal⟩ := hlegal
  rw [Object.legal_append] at hlegal
  have hresult := hlegal.2.1
  have hentry : (object miss call).after ((object miss call).apply
      ((object miss call).after noEntries A) p.time p.call).2 B id = some ⟨data,p.time+ttl⟩ := by
    rw [after_frame hbetween]
    change (ttlMap miss _ p.time (call p.call)).2 id = _
    rw [hpcall]
    exact if_pos rfl
  change (ttlMap miss _ q.time (call q.call)).1 = q.result at hresult
  rw [hqcall,ttlMap_load_some (live_of_some hentry hlive)] at hresult
  rw [← hqr,← hresult]

end Linearization

theorem stores_linearizable (V : Type) (now : Time) :
    (∀ acts c, (sessionStore V).Along Harmless acts (fresh now) →
      (sessionStore V).run acts (fresh now) = some c →
      (sessionStore V).Linearizable Store.clock (object .notFound id) noEntries acts
        (fresh now) c) ∧
    (∀ acts c, (cacheStore V).Along Harmless acts (fresh now) →
      (cacheStore V).run acts (fresh now) = some c →
      (cacheStore V).Linearizable Store.clock (object .cacheMiss CacheCall.call) noEntries acts
        (fresh now) c) :=
  ⟨fun _ _ hharmless hrun => linearizable_of_harmless hharmless hrun,
    fun _ _ hharmless hrun => linearizable_of_harmless hharmless hrun⟩

def sessionRun : List (Action (Call ℕ) Unit ℕ) :=
  [.start (.save "s" 7 10),.exec 0 (),.env 5,.start (.load "s"),.exec 1 (),.exec 1 ()]

def cacheRun : List (Action (CacheCall ℕ) Unit ℕ) :=
  [.start (.set "k" 7 0),.exec 0 (),.env 5,.start (.get "k"),.exec 1 (),.exec 1 ()]

theorem saved_value_loaded :
    (∃ c, (sessionStore ℕ).run sessionRun (fresh 0) = some c ∧
      (sessionStore ℕ).Linearizable Store.clock (object .notFound id) noEntries sessionRun
        (fresh 0) c) ∧
    ∃ c, (cacheStore ℕ).run cacheRun (fresh 0) = some c ∧
      (cacheStore ℕ).Linearizable Store.clock (object .cacheMiss CacheCall.call) noEntries
        cacheRun (fresh 0) c := by
  have hsession : ((sessionStore ℕ).run sessionRun (fresh 0)).isSome := by decide +kernel
  have hcache : ((cacheStore ℕ).run cacheRun (fresh 0)).isSome := by decide +kernel
  obtain ⟨c,hc⟩ := Option.isSome_iff_exists.mp hsession
  obtain ⟨d,hd⟩ := Option.isSome_iff_exists.mp hcache
  exact ⟨⟨c,hc,(stores_linearizable ℕ 0).1 _ c (by decide +kernel) hc⟩,
    d,hd,(stores_linearizable ℕ 0).2 _ d (by decide +kernel) hd⟩

-- a session that expired after one nanosecond is touched after five
def saved : Thread (Ans ℕ) StoreError (Call ℕ) (Option ℕ) :=
  ⟨.save "s" 7 1,.ret none,[⟨.put "s" 7 1,()⟩],true⟩

def touched : Thread (Ans ℕ) StoreError (Call ℕ) (Option ℕ) :=
  ⟨.touch "s" 10,.ret none,[⟨.extend "s" 10,true⟩],true⟩

def afterSave (now : Time) : Run ℕ (Call ℕ) :=
  ⟨⟨now,noEntries.set "s" (some ⟨7,1⟩)⟩,[saved]⟩

def afterTouch : Run ℕ (Call ℕ) :=
  ⟨⟨5,(noEntries.set "s" (some ⟨7,1⟩)).set "s" (some ⟨7,15⟩)⟩,[saved,touched]⟩

theorem threads_eq {ι : Type} {L : Points V ι} (hunique : (L.map Point.thread).Nodup)
    (hlt : ∀ p ∈ L, p.thread < 2) (hpair : [0,1].Sublist (L.map Point.thread)) :
    L.map Point.thread = [0,1] := by
  have hsub : L.map Point.thread ⊆ [0,1] := by
    intro i hi
    obtain ⟨p,hp,rfl⟩ := List.mem_map.mp hi
    have hp2 := hlt p hp
    simp only [List.mem_cons,List.not_mem_nil,or_false]
    omega
  exact (hpair.eq_of_length_le (List.subperm_of_subset hunique hsub).length_le).symm

def reviveRun : List (Action (Call ℕ) Unit ℕ) :=
  [.start (.save "s" 7 1),.exec 0 (),.env 5,.start (.touch "s" 10),.exec 1 ()]

theorem touch_revives_expired :
    (sessionStore ℕ).run reviveRun (fresh 0) = some afterTouch ∧
      ¬ (sessionStore ℕ).Linearizable Store.clock (object .notFound id) noEntries reviveRun
        (fresh 0) afterTouch := by
  refine ⟨rfl,fun h => ?_⟩
  have hsave : (sessionStore ℕ).run [.start (.save "s" 7 1),.exec 0 ()] (fresh 0) =
      some (afterSave 0) := rfl
  have htick : (sessionStore ℕ).run [.start (.save "s" 7 1),.exec 0 (),.env 5] (fresh 0) =
      some (afterSave 5) := rfl
  obtain ⟨L,hexplains,htimed⟩ := h
  obtain ⟨p₁,hp₁,hthread₁,-⟩ := hexplains.returned 1 touched (.ok none) rfl rfl
  have hreturned : (afterSave 0).Returned 0 := ⟨saved,.ok none,rfl,rfl⟩
  have hpair := htimed.realTime _ 0 1 ⟨_,_,rfl,hsave⟩ hreturned (Nat.le_refl 1)
    (List.mem_map.mpr ⟨p₁,hp₁,hthread₁⟩)
  have hthreads : L.map Point.thread = [0,1] := by
    refine threads_eq hexplains.unique (fun p hp => ?_) hpair
    obtain ⟨t,ht,-⟩ := hexplains.started p hp
    exact (List.getElem?_eq_some_iff.mp ht).1
  obtain ⟨p,L',rfl,hp,hL'⟩ := List.map_eq_cons_iff.mp hthreads
  obtain ⟨q,L'',rfl,hq,hL''⟩ := List.map_eq_cons_iff.mp hL'
  obtain rfl := List.map_eq_nil_iff.mp hL''
  obtain ⟨t,ht,hpcall⟩ := hexplains.started p (by simp)
  obtain ⟨u,hu,hqcall⟩ := hexplains.started q (by simp)
  rw [hp] at ht
  rw [hq] at hu
  cases ht
  cases hu
  -- the save took effect before the first nanosecond was over, the touch after the fifth
  have hearly : p.time ≤ 0 := htimed.notAfter _ p ⟨_,_,rfl,hsave⟩ (by simp) (hp ▸ hreturned)
  have hlate : 5 ≤ q.time := htimed.notBefore _ q ⟨_,_,rfl,htick⟩ (by simp) (Nat.le_of_eq hq.symm)
  obtain ⟨r,hr,hrthread,hrresult⟩ := hexplains.returned 1 touched (.ok none) rfl rfl
  have hqresult : q.result = .ok none := by
    rcases List.mem_cons.mp hr with rfl | hr
    · rw [hp] at hrthread
      cases hrthread
    · rw [List.mem_singleton.mp hr] at hrresult
      exact hrresult
  have hlegal := hexplains.legal.2.1
  rw [hqresult] at hlegal
  simp only [object,← hpcall,← hqcall] at hlegal
  have hexpired : ((noEntries : Entries ℕ).set "s" (some ⟨7,p.time+1⟩)).live q.time "s" = none := by
    refine live_of_expired (e := ⟨7,p.time+1⟩) (by simp [Entries.set]) ?_
    exact Int.lt_of_le_of_lt (Int.add_le_add_right hearly 1) (Int.lt_of_lt_of_le (by decide) hlate)
  change (ttlMap .notFound ((noEntries : Entries ℕ).set "s" (some ⟨7,p.time+1⟩)) q.time
    (.touch "s" 10)).1 = .ok none at hlegal
  rw [ttlMap_touch_none hexpired] at hlegal
  cases hlegal

end Nimburion.InMemory
