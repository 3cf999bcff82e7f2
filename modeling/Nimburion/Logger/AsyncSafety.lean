import Nimburion.Logger.Async

namespace Nimburion.Logger
open Transition

section Accounts

variable {E : Type}

-- the list holds the calls of one phase, each under its number
def Marks (phase : Phase) (l : List (ℕ × E)) (calls : List (Phase × E)) : Prop :=
  ∀ i entry, (i,entry) ∈ l ↔ calls[i]? = some (phase,entry)

variable {phase before after : Phase} {l : List (ℕ × E)} {calls : List (Phase × E)} {i : ℕ} {entry : E}

theorem Marks.set_other (h : Marks phase l calls) (hcall : calls[i]? = some (before,entry))
    (hbefore : before ≠ phase) (hafter : after ≠ phase) :
    Marks phase l (calls.set i (after,entry)) := by
  intro j x
  rw [h j x,List.getElem?_set]
  by_cases hij : i = j
  · subst hij
    have hlt := (List.getElem?_eq_some_iff.mp hcall).1
    rw [hcall]
    simp [hlt,hbefore,hafter]
  · simp [hij]

theorem Marks.set_same (h : Marks phase l calls) (hcall : calls[i]? = some (before,entry)) :
    Marks phase (l ++ [(i,entry)]) (calls.set i (phase,entry)) := by
  intro j x
  rw [List.mem_append,h j x,List.getElem?_set]
  by_cases hij : i = j
  · subst hij
    have hlt := (List.getElem?_eq_some_iff.mp hcall).1
    rw [hcall]
    simp [hlt,eq_comm]
  · simp [hij,Ne.symm hij]

theorem Marks.append (h : Marks phase l calls) (hphase : before ≠ phase) (entry : E) :
    Marks phase l (calls ++ [(before,entry)]) := by
  intro j x
  rw [h j x,List.getElem?_append]
  split
  · exact Iff.rfl
  · next hlt =>
    rw [List.getElem?_eq_none (Nat.le_of_not_lt hlt)]
    cases hj : j-calls.length <;> simp [hphase]

theorem Marks.notMem (h : Marks phase l calls) (hcall : calls[i]? = some (before,entry))
    (hbefore : before ≠ phase) : i ∉ l.map Prod.fst := by
  intro hmem
  obtain ⟨⟨j,x⟩,hx,rfl⟩ := List.mem_map.mp hmem
  rw [h,hcall] at hx
  exact hbefore (by simpa using congrArg (Option.map Prod.fst) hx)

theorem nodup_append_fst (h : (l.map Prod.fst).Nodup) (hnot : i ∉ l.map Prod.fst) (entry : E) :
    ((l ++ [(i,entry)]).map Prod.fst).Nodup := by
  rw [List.map_append,List.map_singleton,List.nodup_append]
  refine ⟨h,List.nodup_singleton i,fun j hj k hk => ?_⟩
  obtain rfl := List.mem_singleton.mp hk
  exact fun heq => hnot (heq ▸ hj)

theorem hand_set_perm {workers : List (Worker E)} {k : ℕ} {t : Worker E}
    (h : workers[k]? = some t) (t' : Worker E) :
    ((workers.set k t').flatMap Worker.hand ++ t.hand).Perm
      (workers.flatMap Worker.hand ++ t'.hand) := by
  induction workers generalizing k with
  | nil => exact nomatch h
  | cons u workers ih =>
    cases k with
    | zero =>
      obtain rfl : u = t := by simpa using h
      simp only [List.set_cons_zero,List.flatMap_cons,List.append_assoc]
      refine List.perm_append_comm.trans ?_
      rw [← List.append_assoc]
      exact List.perm_append_comm.append_right _
    | succ k =>
      simp only [List.set_cons_succ,List.flatMap_cons,List.append_assoc]
      exact (ih (by simpa using h)).append_left _

end Accounts

namespace Dispatcher

variable {B A : Type} {d d' : Dispatcher B A} {a : Label B A}

def hands (d : Dispatcher B A) : List (ℕ × AsyncEntry B A) := d.workers.flatMap Worker.hand

structure Accounted (d : Dispatcher B A) : Prop where
  kept : (d.drained ++ d.hands ++ d.entries.buffer).Perm d.accepted
  accepted_iff : Marks .queued d.accepted d.calls
  direct_iff : Marks .logged d.direct d.calls
  accepted_once : (d.accepted.map Prod.fst).Nodup
  direct_once : (d.direct.map Prod.fst).Nodup
  dropped : ∀ call ∈ d.calls, call.1 = .dropped → d.dropWhenFull = true

theorem Accounted.setCall (h : Accounted d) {i : ℕ} {before after : Phase} {entry : AsyncEntry B A}
    (hcall : d.calls[i]? = some (before,entry)) (hbefore : before ≠ .queued ∧ before ≠ .logged)
    (hafter : after ≠ .queued ∧ after ≠ .logged)
    (hdrop : after = .dropped → d.dropWhenFull = true) : Accounted (d.setCall i after entry) where
  kept := h.kept
  accepted_iff := h.accepted_iff.set_other hcall hbefore.1 hafter.1
  direct_iff := h.direct_iff.set_other hcall hbefore.2 hafter.2
  accepted_once := h.accepted_once
  direct_once := h.direct_once
  dropped call hmem hphase := by
    rcases List.mem_or_eq_of_mem_set hmem with hold | rfl
    · exact h.dropped call hold hphase
    · exact hdrop hphase

theorem hands_setWorker {k : ℕ} {t : Worker (ℕ × AsyncEntry B A)} (h : d.workers[k]? = some t)
    (t' : Worker (ℕ × AsyncEntry B A)) :
    ((d.setWorker k t').hands ++ t.hand).Perm (d.hands ++ t'.hand) := hand_set_perm h t'

theorem Accounted.step (h : Accounted d) (ht : Taken d a d') : Accounted d' := by
  cases ht with
  | log entry =>
    refine ⟨h.kept,h.accepted_iff.append (by decide) entry,h.direct_iff.append (by decide) entry,
      h.accepted_once,h.direct_once,fun call hmem hphase => ?_⟩
    rcases List.mem_append.mp hmem with hold | hnew
    · exact h.dropped call hold hphase
    · rw [List.mem_singleton.mp hnew] at hphase
      exact nomatch hphase
  | load hcall => exact h.setCall hcall (by decide) (by split <;> decide) (by split <;> nofun)
  | sent hcall hopen =>
    refine ⟨?_,h.accepted_iff.set_same hcall,
      h.direct_iff.set_other hcall (by decide) (by decide),
      nodup_append_fst h.accepted_once (h.accepted_iff.notMem hcall (by decide)) _,
      h.direct_once,fun call hmem hphase => ?_⟩
    · rw [← List.append_assoc]
      exact h.kept.append_right _
    · rcases List.mem_or_eq_of_mem_set hmem with hold | rfl
      · exact h.dropped call hold hphase
      · exact nomatch hphase
  | dropped hcall hopen hfull hdrop => exact h.setCall hcall (by decide) (by decide) fun _ => hdrop
  | sendPanics hcall hclosed => exact h.setCall hcall (by decide) (by decide) nofun
  | logNow hcall =>
    refine ⟨h.kept,h.accepted_iff.set_other hcall (by decide) (by decide),
      h.direct_iff.set_same hcall,h.accepted_once,
      nodup_append_fst h.direct_once (h.direct_iff.notMem hcall (by decide)) _,
      fun call hmem hphase => ?_⟩
    rcases List.mem_or_eq_of_mem_set hmem with hold | rfl
    · exact h.dropped call hold hphase
    · exact nomatch hphase
  | @receive k x ch hworker hbuffer hclosed =>
    refine ⟨?_,h.accepted_iff,h.direct_iff,h.accepted_once,h.direct_once,h.dropped⟩
    have hhands : (d.setWorker k (.writing x)).hands.Perm (d.hands ++ [x]) := by
      simpa [Worker.hand] using hands_setWorker hworker (.writing x)
    have hkept := h.kept
    rw [hbuffer,← List.singleton_append,← List.append_assoc,List.append_assoc d.drained] at hkept
    exact ((hhands.append_left d.drained).append_right ch.buffer).trans hkept
  | @write k x hworker =>
    refine ⟨?_,h.accepted_iff,h.direct_iff,h.accepted_once,h.direct_once,h.dropped⟩
    have hhands : ((d.setWorker k .ranging).hands ++ [x]).Perm d.hands := by
      simpa [Worker.hand] using hands_setWorker hworker .ranging
    refine List.Perm.trans ?_ h.kept
    rw [List.append_assoc d.drained]
    exact ((List.perm_append_comm.trans hhands).append_left d.drained).append_right _
  | @leave k hworker hclosed hempty =>
    refine ⟨?_,h.accepted_iff,h.direct_iff,h.accepted_once,h.direct_once,h.dropped⟩
    have hhands : (d.setWorker k .done).hands.Perm d.hands := by
      simpa [Worker.hand] using hands_setWorker hworker .done
    exact ((hhands.append_left d.drained).append_right _).trans h.kept
  | close | enter | entered | store | closeEntries | closePanics | wait =>
    exact ⟨h.kept,h.accepted_iff,h.direct_iff,h.accepted_once,h.direct_once,h.dropped⟩

-- a single worker writes in the order in which the channel took the entries
structure InOrder (d : Dispatcher B A) : Prop where
  alone : d.workers.length = 1
  order : d.drained ++ d.hands ++ d.entries.buffer = d.accepted

theorem alone_eq {k : ℕ} {t : Worker (ℕ × AsyncEntry B A)} (hlen : d.workers.length = 1)
    (hworker : d.workers[k]? = some t) : k = 0 ∧ d.workers = [t] := by
  obtain ⟨u,hu⟩ := List.length_eq_one_iff.mp hlen
  rw [hu] at hworker
  cases k with
  | zero => exact ⟨rfl,by simpa [hu] using hworker⟩
  | succ k => exact nomatch hworker

theorem InOrder.step (h : InOrder d) (ht : Taken d a d') : InOrder d' := by
  have horder := h.order
  cases ht with
  | sent hcall hopen =>
    refine ⟨h.alone,?_⟩
    rw [← List.append_assoc]
    exact congrArg (· ++ _) horder
  | @receive k x ch hworker hbuffer hclosed =>
    obtain ⟨rfl,hone⟩ := alone_eq h.alone hworker
    refine ⟨by simpa [setWorker] using h.alone,?_⟩
    simpa [hands,setWorker,hone,Worker.hand,hbuffer] using horder
  | @write k x hworker =>
    obtain ⟨rfl,hone⟩ := alone_eq h.alone hworker
    refine ⟨by simpa [setWorker] using h.alone,?_⟩
    simpa [hands,setWorker,hone,Worker.hand] using horder
  | @leave k hworker hclosed hempty =>
    obtain ⟨rfl,hone⟩ := alone_eq h.alone hworker
    refine ⟨by simpa [setWorker] using h.alone,?_⟩
    simpa [hands,setWorker,hone,Worker.hand] using horder
  | log | load | dropped | sendPanics | logNow | close | enter | entered | store | closeEntries |
    closePanics | wait => exact ⟨h.alone,horder⟩

-- how far stopOnce has come decides the flag, the channel and the workers
structure Stops (d : Dispatcher B A) : Prop where
  stopped : d.stopped = true ↔ d.once = .closing ∨ d.once = .waiting ∨ d.once = .done
  closed : d.entries.closed = true ↔ d.once = .waiting ∨ d.once = .done
  left : ∀ t ∈ d.workers, t = .done → d.entries.closed = true ∧ d.entries.buffer = []
  manned : d.workers ≠ []
  finished : d.once = .done → ∀ t ∈ d.workers, t = .done
  returned : ∀ t ∈ d.closers, t = .returned → d.once = .done
  unbroken : ∀ t ∈ d.closers, t ≠ .panicked

theorem forall_mem_setWorker {k : ℕ} {t : Worker (ℕ × AsyncEntry B A)}
    {p : Worker (ℕ × AsyncEntry B A) → Prop} (h : ∀ u ∈ d.workers, p u) (ht : p t) :
    ∀ u ∈ (d.setWorker k t).workers, p u := by
  intro u hu
  rcases List.mem_or_eq_of_mem_set hu with hold | rfl
  · exact h u hold
  · exact ht

theorem forall_mem_setCloser {c : ℕ} {t : Closer} {p : Closer → Prop} (h : ∀ u ∈ d.closers, p u)
    (ht : p t) : ∀ u ∈ (d.setCloser c t).closers, p u := by
  intro u hu
  rcases List.mem_or_eq_of_mem_set hu with hold | rfl
  · exact h u hold
  · exact ht

theorem Stops.none_ranging (h : Stops d) {k : ℕ} {t : Worker (ℕ × AsyncEntry B A)}
    (hworker : d.workers[k]? = some t) (ht : t ≠ .done) : d.once ≠ .done := fun honce =>
  ht (h.finished honce t (List.mem_of_getElem? hworker))

theorem Stops.none_returned (h : Stops d) (honce : d.once ≠ .done) :
    ∀ t ∈ d.closers, t ≠ .returned := fun t hmem hret => honce (h.returned t hmem hret)

theorem Stops.step (h : Stops d) (ht : Taken d a d') : Stops d' := by
  cases ht with
  | log | load | dropped | sendPanics | logNow =>
    exact ⟨h.stopped,h.closed,h.left,h.manned,h.finished,h.returned,h.unbroken⟩
  | sent hcall hopen =>
    refine ⟨h.stopped,h.closed,fun t hmem hdone => ?_,h.manned,h.finished,h.returned,h.unbroken⟩
    rw [(h.left t hmem hdone).1] at hopen
    exact nomatch hopen
  | @receive k x ch hworker hbuffer hclosed =>
    refine ⟨h.stopped,by rw [hclosed]; exact h.closed,?_,by simpa [setWorker] using h.manned,
      fun honce => absurd honce (h.none_ranging hworker nofun),h.returned,h.unbroken⟩
    refine forall_mem_setWorker (fun t hmem hdone => ?_) nofun
    have hempty := (h.left t hmem hdone).2
    rw [hbuffer] at hempty
    exact nomatch hempty
  | @write k x hworker =>
    exact ⟨h.stopped,h.closed,forall_mem_setWorker h.left nofun,by simpa [setWorker] using h.manned,
      fun honce => absurd honce (h.none_ranging hworker nofun),h.returned,h.unbroken⟩
  | @leave k hworker hclosed hempty =>
    exact ⟨h.stopped,h.closed,forall_mem_setWorker h.left fun _ => ⟨hclosed,hempty⟩,
      by simpa [setWorker] using h.manned,
      fun honce => absurd honce (h.none_ranging hworker nofun),h.returned,h.unbroken⟩
  | close =>
    refine ⟨h.stopped,h.closed,h.left,h.manned,h.finished,fun t hmem => ?_,fun t hmem => ?_⟩ <;>
      rcases List.mem_append.mp hmem with hold | hnew
    · exact h.returned t hold
    · rw [List.mem_singleton.mp hnew]
      exact nofun
    · exact h.unbroken t hold
    · rw [List.mem_singleton.mp hnew]
      exact nofun
  | enter hcloser honce =>
    refine ⟨?_,?_,h.left,h.manned,nofun,?_,forall_mem_setCloser h.unbroken nofun⟩
    · simpa [honce,setCloser] using h.stopped
    · simpa [honce,setCloser] using h.closed
    · exact forall_mem_setCloser
        (fun t hmem hret => absurd hret (h.none_returned (by simp [honce]) t hmem)) nofun
  | entered hcloser honce =>
    exact ⟨h.stopped,h.closed,h.left,h.manned,h.finished,
      forall_mem_setCloser h.returned fun _ => honce,forall_mem_setCloser h.unbroken nofun⟩
  | store honce =>
    exact ⟨by simp,by simpa [honce] using h.closed,h.left,h.manned,nofun,
      fun t hmem hret => absurd hret (h.none_returned (by simp [honce]) t hmem),h.unbroken⟩
  | closeEntries honce hopen =>
    refine ⟨by simpa [honce] using h.stopped,by simp,fun t hmem hdone => ?_,h.manned,nofun,
      fun t hmem hret => absurd hret (h.none_returned (by simp [honce]) t hmem),h.unbroken⟩
    rw [(h.left t hmem hdone).1] at hopen
    exact nomatch hopen
  | closePanics honce hclosed =>
    have hlate := h.closed.mp hclosed
    simp [honce] at hlate
  | wait honce hleft =>
    exact ⟨by simpa [honce,setCloser] using h.stopped,by simpa [honce,setCloser] using h.closed,
      h.left,h.manned,fun _ => hleft,forall_mem_setCloser (fun _ _ _ => rfl) fun _ => rfl,
      forall_mem_setCloser h.unbroken nofun⟩

structure Safe (d : Dispatcher B A) : Prop where
  accounted : Accounted d
  stops : Stops d

theorem Safe.step (h : Safe d) (hs : d.step a = some d') : Safe d' :=
  ⟨h.accounted.step (taken_of_step hs),h.stops.step (taken_of_step hs)⟩

theorem wrapAsync_eq {cfg : AsyncConfig} (h : wrapAsync cfg = some d) :
    ∃ capacity n, 0 < n ∧ (cfg.workerCount ≤ 1 → n = 1) ∧
      d = ⟨Channel.make capacity,cfg.dropWhenFull,false,.fresh,List.replicate n .ranging,
        [],[],[],[],[]⟩ := by
  unfold wrapAsync at h
  split at h
  · simp only [Option.some.injEq] at h
    exact ⟨_,_,by split <;> omega,by split <;> omega,h.symm⟩
  · exact nomatch h

theorem wrapAsync_safe {cfg : AsyncConfig} (h : wrapAsync cfg = some d) : Safe d := by
  obtain ⟨capacity,n,hn,-,rfl⟩ := wrapAsync_eq h
  refine ⟨⟨?_,by simp [Marks],by simp [Marks],by simp,by simp,nofun⟩,
    ⟨by simp,by simp [Channel.make],?_,?_,nofun,nofun,nofun⟩⟩
  · simp [hands,Channel.make,Worker.hand]
  · intro t ht hdone
    rw [List.eq_of_mem_replicate ht] at hdone
    exact nomatch hdone
  · simpa using Nat.ne_of_gt hn

theorem wrapAsync_inOrder {cfg : AsyncConfig} (h : wrapAsync cfg = some d) (hone : cfg.workerCount ≤ 1) :
    InOrder d := by
  obtain ⟨capacity,n,-,hn,rfl⟩ := wrapAsync_eq h
  exact ⟨by simpa using hn hone,by simp [hands,Channel.make,Worker.hand]⟩

theorem Accounted.numbered (h : Accounted d) : ((d.accepted ++ d.direct).map Prod.fst).Nodup := by
  rw [List.map_append,List.nodup_append]
  refine ⟨h.accepted_once,h.direct_once,fun i hi j hj heq => ?_⟩
  obtain ⟨⟨i,entry⟩,hqueued,rfl⟩ := List.mem_map.mp hi
  obtain ⟨⟨j,other⟩,hlogged,rfl⟩ := List.mem_map.mp hj
  obtain rfl : i = j := heq
  have htwice := (h.accepted_iff i entry).mp hqueued
  rw [(h.direct_iff i other).mp hlogged] at htwice
  simp at htwice

theorem Taken.dropWhenFull_eq (h : Taken d a d') : d'.dropWhenFull = d.dropWhenFull := by
  cases h <;> rfl

theorem Safe.emptied (h : Safe d) (honce : d.once = .done) :
    d.entries.buffer = [] ∧ d.hands = [] ∧ d.drained.Perm d.accepted := by
  have hdone := h.stops.finished honce
  obtain ⟨t,ht⟩ := List.exists_mem_of_ne_nil _ h.stops.manned
  have hbuffer := (h.stops.left t ht (hdone t ht)).2
  have hhands : d.hands = [] := by
    refine List.flatMap_eq_nil_iff.mpr fun u hu => ?_
    rw [hdone u hu]
    rfl
  refine ⟨hbuffer,hhands,?_⟩
  simpa [hbuffer,hhands] using h.accounted.kept

-- after the last worker has left nothing is queued and nothing is written by a worker
structure Finished (accepted drained : List (ℕ × AsyncEntry B A)) (d : Dispatcher B A) : Prop where
  safe : Safe d
  once : d.once = .done
  accepted_eq : d.accepted = accepted
  drained_eq : d.drained = drained

theorem Finished.step {accepted drained : List (ℕ × AsyncEntry B A)} (h : Finished accepted drained d)
    (hs : d.step a = some d') : Finished accepted drained d' := by
  have hsafe := h.safe.step hs
  have hstops := h.safe.stops
  cases taken_of_step hs with
  | sent hcall hopen =>
    rw [hstops.closed.mpr (.inr h.once)] at hopen
    exact nomatch hopen
  | receive hworker => exact absurd h.once (hstops.none_ranging hworker nofun)
  | write hworker => exact absurd h.once (hstops.none_ranging hworker nofun)
  | enter hcloser honce | store honce | closeEntries honce | closePanics honce =>
    rw [h.once] at honce
    exact nomatch honce
  | wait honce => exact ⟨hsafe,rfl,h.accepted_eq,h.drained_eq⟩
  | log | load | dropped | sendPanics | logNow | leave | close | entered =>
    exact ⟨hsafe,h.once,h.accepted_eq,h.drained_eq⟩

-- no call that has read the flag is still to send when the channel is closed
def Quiet (d : Dispatcher B A) : Label B A → Prop
  | .closeEntries _ => ∀ call ∈ d.calls, call.1 ≠ .sending
  | _ => True

instance decidableQuiet [DecidableEq B] [DecidableEq A] (d : Dispatcher B A) :
    (a : Label B A) → Decidable (Quiet d a)
  | .closeEntries _ => inferInstanceAs (Decidable (∀ call ∈ d.calls, call.1 ≠ .sending))
  | .log _ | .load _ | .send _ | .logNow _ | .receive _ | .write _ | .leave _ | .close | .enter _ |
    .store _ | .wait _ => .isTrue trivial

structure Unhurt (d : Dispatcher B A) : Prop where
  stops : Stops d
  whole : ∀ call ∈ d.calls, call.1 ≠ .panicked
  past : d.entries.closed = true → ∀ call ∈ d.calls, call.1 ≠ .sending

theorem forall_mem_setCall {i : ℕ} {phase : Phase} {entry : AsyncEntry B A}
    {p : Phase × AsyncEntry B A → Prop} (h : ∀ call ∈ d.calls, p call) (hnew : p (phase,entry)) :
    ∀ call ∈ (d.setCall i phase entry).calls, p call := by
  intro call hcall
  rcases List.mem_or_eq_of_mem_set hcall with hold | rfl
  · exact h call hold
  · exact hnew

theorem Unhurt.setCall (h : Unhurt d) {i : ℕ} {phase : Phase} {entry : AsyncEntry B A}
    (hs : Stops d') (hcalls : d'.calls = (d.setCall i phase entry).calls)
    (hclosed : d'.entries.closed = d.entries.closed) (hwhole : phase ≠ .panicked)
    (hpast : d.entries.closed = true → phase ≠ .sending) : Unhurt d' where
  stops := hs
  whole := hcalls ▸ forall_mem_setCall h.whole hwhole
  past hc := hcalls ▸ forall_mem_setCall (h.past (hclosed ▸ hc)) (hpast (hclosed ▸ hc))

theorem Unhurt.step (h : Unhurt d) (hq : Quiet d a) (ht : Taken d a d') : Unhurt d' := by
  have hs := h.stops.step ht
  cases ht with
  | log entry =>
    refine ⟨hs,fun call hmem => ?_,fun hc call hmem => ?_⟩ <;>
      rcases List.mem_append.mp hmem with hold | hnew
    · exact h.whole call hold
    · rw [List.mem_singleton.mp hnew]
      exact nofun
    · exact h.past hc call hold
    · rw [List.mem_singleton.mp hnew]
      exact nofun
  | load hcall =>
    refine h.setCall hs rfl rfl (by split <;> nofun) fun hc => ?_
    have hstopped : d.stopped = true := h.stops.stopped.mpr (.inr (h.stops.closed.mp hc))
    rw [hstopped]
    exact nofun
  | sent => exact h.setCall hs rfl rfl nofun nofun
  | dropped => exact h.setCall hs rfl rfl nofun nofun
  | sendPanics hcall hclosed =>
    exact absurd rfl (h.past hclosed _ (List.mem_of_getElem? hcall))
  | logNow => exact h.setCall hs rfl rfl nofun nofun
  | receive hworker hbuffer hclosed => exact ⟨hs,h.whole,fun hc => h.past (hclosed ▸ hc)⟩
  | closeEntries => exact ⟨hs,h.whole,fun _ => hq⟩
  | write | leave | close | enter | entered | store | closePanics | wait =>
    exact ⟨hs,h.whole,h.past⟩

theorem quiet_of_closed (hs : Stops d) (hclosed : d.entries.closed = true)
    (ht : Taken d a d') : Quiet d a ∧ d'.entries.closed = true := by
  cases ht with
  | closeEntries honce hopen =>
    rw [hclosed] at hopen
    exact nomatch hopen
  | closePanics honce =>
    have hlate := hs.closed.mp hclosed
    simp [honce] at hlate
  | receive hworker hbuffer hsame => exact ⟨trivial,hsame.trans hclosed⟩
  | log | load | sent | dropped | sendPanics | logNow | write | leave | close | enter | entered |
    store | wait => exact ⟨trivial,hclosed⟩

-- a call that is to send on the closed channel can only panic
structure Doomed (i : ℕ) (entry : AsyncEntry B A) (d : Dispatcher B A) : Prop where
  closed : d.entries.closed = true
  call : d.calls[i]? = some (.sending,entry) ∨ d.calls[i]? = some (.panicked,entry)

theorem Doomed.setCall {i j : ℕ} {entry other : AsyncEntry B A} {before after : Phase}
    (h : Doomed i entry d) (hcall : d.calls[j]? = some (before,other))
    (hbefore : before ≠ .sending ∧ before ≠ .panicked) :
    (d.setCall j after other).calls[i]? = d.calls[i]? := by
  refine List.getElem?_set_ne fun hij => ?_
  subst hij
  rcases h.call with hsending | hpanicked
  · rw [hcall] at hsending
    exact hbefore.1 (by simpa using congrArg (Option.map Prod.fst) hsending)
  · rw [hcall] at hpanicked
    exact hbefore.2 (by simpa using congrArg (Option.map Prod.fst) hpanicked)

theorem Doomed.step {i : ℕ} {entry : AsyncEntry B A} (h : Doomed i entry d) (hs : Stops d)
    (ht : Taken d a d') : Doomed i entry d' := by
  have hclosed := (quiet_of_closed hs h.closed ht).2
  refine ⟨hclosed,?_⟩
  cases ht with
  | log other =>
    rcases h.call with hcall | hcall
    · exact .inl ((List.getElem?_append_left (List.getElem?_eq_some_iff.mp hcall).1).trans hcall)
    · exact .inr ((List.getElem?_append_left (List.getElem?_eq_some_iff.mp hcall).1).trans hcall)
  | load hcall =>
    rw [h.setCall hcall (by decide)]
    exact h.call
  | @logNow j other hcall =>
    have hsame : (d.setCall j .logged other).calls[i]? = d.calls[i]? := h.setCall hcall (by decide)
    rw [hsame]
    exact h.call
  | sent hcall hopen | dropped hcall hopen =>
    rw [h.closed] at hopen
    exact nomatch hopen
  | @sendPanics j other hcall =>
    by_cases hij : j = i
    · subst hij
      right
      rcases h.call with hsending | hpanicked
      · obtain rfl : other = entry := by simpa [hcall] using hsending
        exact List.getElem?_set_self (List.getElem?_eq_some_iff.mp hcall).1
      · rw [hcall] at hpanicked
        simp at hpanicked
    · have hsame : (d.setCall j .panicked other).calls[i]? = d.calls[i]? := List.getElem?_set_ne hij
      rw [hsame]
      exact h.call
  | receive | write | leave | close | enter | entered | store | closeEntries | closePanics | wait =>
    exact h.call

theorem doomed_of_not_quiet (hs : Stops d) {c i : ℕ} {entry : AsyncEntry B A}
    (hcall : d.calls[i]? = some (.sending,entry)) (ht : Taken d (.closeEntries c) d') :
    Doomed i entry d' := by
  cases ht with
  | closeEntries honce hopen => exact ⟨rfl,.inl hcall⟩
  | closePanics honce hclosed =>
    have hlate := hs.closed.mp hclosed
    simp [honce] at hlate

end Dispatcher

section Runs

variable {B A : Type} {cfg : AsyncConfig} {start d : Dispatcher B A} {acts : List (Label B A)}

theorem run_safe (hstart : wrapAsync cfg = some start)
    (hrun : run Dispatcher.step acts start = some d) : d.Safe :=
  run_reaches (fun _ _ _ h hs => h.step hs) (Dispatcher.wrapAsync_safe hstart) hrun

theorem run_inOrder (hstart : wrapAsync cfg = some start) (hone : cfg.workerCount ≤ 1)
    (hrun : run Dispatcher.step acts start = some d) : d.InOrder :=
  run_reaches (fun _ _ _ h hs => h.step (Dispatcher.taken_of_step hs))
    (Dispatcher.wrapAsync_inOrder hstart hone) hrun

theorem run_dropWhenFull (hstart : wrapAsync cfg = some start)
    (hrun : run Dispatcher.step acts start = some d) : d.dropWhenFull = cfg.dropWhenFull := by
  refine run_reaches (I := fun d => d.dropWhenFull = cfg.dropWhenFull)
    (fun _ _ _ h hs => (Dispatcher.taken_of_step hs).dropWhenFull_eq.trans h) ?_ hrun
  obtain ⟨capacity,n,-,-,rfl⟩ := Dispatcher.wrapAsync_eq hstart
  rfl

theorem wrapAsync_unhurt (hstart : wrapAsync cfg = some start) : start.Unhurt := by
  have hstops := (Dispatcher.wrapAsync_safe hstart).stops
  obtain ⟨capacity,n,-,-,rfl⟩ := Dispatcher.wrapAsync_eq hstart
  exact ⟨hstops,nofun,nofun⟩

theorem panic_after_closed {i : ℕ} {entry : AsyncEntry B A} (h : d.Doomed i entry) :
    ∃ more d', run Dispatcher.step more d = some d' ∧ (Phase.panicked,entry) ∈ d'.calls := by
  rcases h.call with hsending | hpanicked
  · refine ⟨[.send i],d.setCall i .panicked entry,?_,?_⟩
    · simp [run,Dispatcher.step,hsending,Dispatcher.send,Channel.offer,h.closed]
    · exact List.mem_of_getElem? (List.getElem?_set_self (List.getElem?_eq_some_iff.mp hsending).1)
  · exact ⟨[],d,rfl,List.mem_of_getElem? hpanicked⟩

-- along the run: the step that closes the channel with a sender left over leads to a panic
theorem quiet_of_no_panic (hs : start.Stops) (hrun : run Dispatcher.step acts start = some d)
    (hwhole : ∀ more d', run Dispatcher.step more d = some d' → ∀ call ∈ d'.calls, call.1 ≠ .panicked) :
    Along Dispatcher.step Dispatcher.Quiet acts start := by
  induction acts generalizing start with
  | nil => trivial
  | cons a acts ih =>
    simp only [run,Option.bind_eq_some_iff] at hrun
    obtain ⟨s,hstep,hrest⟩ := hrun
    have ht := Dispatcher.taken_of_step hstep
    refine ⟨?_,by rw [hstep]; exact ih (hs.step ht) hrest⟩
    cases a with
    | closeEntries c =>
      rintro ⟨phase,entry⟩ hmem hphase
      obtain rfl : phase = .sending := hphase
      obtain ⟨i,hcall⟩ := List.getElem?_of_mem hmem
      have hdoomed := run_reaches (I := fun s => s.Stops ∧ s.Doomed i entry)
        (fun _ _ _ h hs' => ⟨h.1.step (Dispatcher.taken_of_step hs'),
          h.2.step h.1 (Dispatcher.taken_of_step hs')⟩)
        ⟨hs.step ht,Dispatcher.doomed_of_not_quiet hs hcall ht⟩ hrest
      obtain ⟨more,d',hmore,hpanicked⟩ := panic_after_closed hdoomed.2
      exact hwhole more d' hmore _ hpanicked rfl
    | log | load | send | logNow | receive | write | leave | close | enter | store | wait => trivial

end Runs

def oneSlot : AsyncConfig := ⟨true,1,1,true⟩

def line : AsyncEntry Unit Unit := ⟨(),.info,"ready",[]⟩

-- the second call finds the queue full, the third comes after Close
def threeCalls : List (Label Unit Unit) :=
  [.log line,.log line,.load 0,.load 1,.send 0,.send 1,.close,.enter 0,.store 0,.closeEntries 0,
    .receive 0,.write 0,.leave 0,.wait 0,.log line,.load 2,.logNow 2]

theorem entries_accounted {B A : Type} (cfg : AsyncConfig) (start d : Dispatcher B A)
    (acts : List (Label B A)) (hstart : wrapAsync cfg = some start)
    (hrun : run Dispatcher.step acts start = some d) :
    (d.drained ++ d.hands ++ d.entries.buffer).Perm d.accepted ∧
      (cfg.workerCount ≤ 1 → d.drained ++ d.hands ++ d.entries.buffer = d.accepted) ∧
      ((d.accepted ++ d.direct).map Prod.fst).Nodup ∧
      (∀ i entry, (i,entry) ∈ d.accepted ↔ d.calls[i]? = some (.queued,entry)) ∧
      (∀ i entry, (i,entry) ∈ d.direct ↔ d.calls[i]? = some (.logged,entry)) ∧
      (∀ call ∈ d.calls, call.1 = .dropped → cfg.dropWhenFull = true) := by
  have hsafe := run_safe hstart hrun
  refine ⟨hsafe.accounted.kept,fun hone => (run_inOrder hstart hone hrun).order,
    hsafe.accounted.numbered,hsafe.accounted.accepted_iff,hsafe.accounted.direct_iff,?_⟩
  rw [← run_dropWhenFull hstart hrun]
  exact hsafe.accounted.dropped

theorem entries_accounted_of_threeCalls : ∃ start d, wrapAsync oneSlot = some start ∧
    run Dispatcher.step threeCalls start = some d ∧ ((d.accepted ++ d.direct).map Prod.fst).Nodup ∧
      d.accepted = [(0,line)] ∧ d.direct = [(2,line)] :=
  ⟨_,_,rfl,rfl,(entries_accounted oneSlot _ _ threeCalls rfl rfl).2.2.1,rfl,rfl⟩

theorem close_drains_queue {B A : Type} (cfg : AsyncConfig) (start d d' : Dispatcher B A)
    (acts more : List (Label B A)) (hstart : wrapAsync cfg = some start)
    (hrun : run Dispatcher.step acts start = some d) (hreturned : .returned ∈ d.closers)
    (hmore : run Dispatcher.step more d = some d') :
    d'.accepted = d.accepted ∧ d'.drained = d.drained ∧ d'.drained.Perm d'.accepted ∧
      (cfg.workerCount ≤ 1 → d'.drained = d'.accepted) ∧ d'.entries.buffer = [] ∧
      (∀ t ∈ d'.workers, t = .done) ∧ ∀ t ∈ d'.closers, t ≠ .panicked := by
  have hsafe := run_safe hstart hrun
  have hdone := hsafe.stops.returned _ hreturned rfl
  have hfinished := run_reaches (I := Dispatcher.Finished d.accepted d.drained)
    (fun _ _ _ h hs => h.step hs) ⟨hsafe,hdone,rfl,rfl⟩ hmore
  obtain ⟨hbuffer,hhands,hperm⟩ := hfinished.safe.emptied hfinished.once
  refine ⟨hfinished.accepted_eq,hfinished.drained_eq,hperm,fun hone => ?_,hbuffer,
    hfinished.safe.stops.finished hfinished.once,hfinished.safe.stops.unbroken⟩
  have horder := (run_inOrder hstart hone hrun).order
  obtain ⟨hbuffer₀,hhands₀,-⟩ := hsafe.emptied hdone
  rw [hfinished.accepted_eq,hfinished.drained_eq]
  simpa [hbuffer₀,hhands₀] using horder

theorem close_drains_queue_of_threeCalls : ∃ start d, wrapAsync oneSlot = some start ∧
    run Dispatcher.step threeCalls start = some d ∧ .returned ∈ d.closers ∧ d.drained = d.accepted :=
  ⟨_,_,rfl,rfl,by decide,
    (close_drains_queue oneSlot _ _ _ threeCalls [] rfl rfl (by decide) rfl).2.2.2.1 (by decide)⟩

theorem no_send_panics_iff {B A : Type} (cfg : AsyncConfig) (start d : Dispatcher B A)
    (acts : List (Label B A)) (hstart : wrapAsync cfg = some start)
    (hrun : run Dispatcher.step acts start = some d) (hclosed : d.entries.closed = true) :
    (∀ more d', run Dispatcher.step more d = some d' → ∀ call ∈ d'.calls, call.1 ≠ .panicked) ↔
      Along Dispatcher.step Dispatcher.Quiet acts start := by
  refine ⟨quiet_of_no_panic (Dispatcher.wrapAsync_safe hstart).stops hrun,
    fun hquiet more d' hmore => ?_⟩
  have hunhurt := run_invariant (I := Dispatcher.Unhurt)
    (fun _ _ _ h hq hs => h.step hq (Dispatcher.taken_of_step hs)) (wrapAsync_unhurt hstart) hquiet hrun
  have hlater := run_reaches (I := fun d => d.Unhurt ∧ d.entries.closed = true)
    (fun _ _ _ h hs => by
      have ht := Dispatcher.taken_of_step hs
      obtain ⟨hq,hc⟩ := Dispatcher.quiet_of_closed h.1.stops h.2 ht
      exact ⟨h.1.step hq ht,hc⟩) ⟨hunhurt,hclosed⟩ hmore
  exact hlater.1.whole

theorem no_send_panics_in_threeCalls : ∃ start d, wrapAsync oneSlot = some start ∧
    run Dispatcher.step threeCalls start = some d ∧
      ∀ more d', run Dispatcher.step more d = some d' → ∀ call ∈ d'.calls, call.1 ≠ .panicked :=
  ⟨_,_,rfl,rfl,(no_send_panics_iff oneSlot _ _ threeCalls rfl rfl rfl).mpr (by decide)⟩

end Nimburion.Logger
