import Nimburion.Jobs.RuntimeLedger
import Nimburion.Lib.InteractionTrace

namespace Nimburion.Jobs.RuntimeBackend
open Interaction GoText GoTime

def settlesToken (token : String) : Effect → Bool
  | .settled _ t _ => t = token
  | .replaced .. => false

def settlesDelivery (d : ℕ) : Effect → Bool
  | .settled _ _ d' => d' = d
  | .replaced .. => false

-- a lease is followed under its token and under its delivery
inductive Mark where
  | token (t : String)
  | delivery (d : ℕ)

namespace Mark

def onEntry : Mark → Entry → Bool
  | token t, e => e.1 = t
  | delivery d, e => e.2.1 = d

def onEffect : Mark → Effect → Bool
  | token t => settlesToken t
  | delivery d => settlesDelivery d

def queued : Mark → List ℕ → ℕ
  | token _, _ => 0
  | delivery d, waiting => waiting.count d

def Born : Mark → Ledger → Prop
  | token t, l => t ∈ l.issued
  | delivery d, l => d < l.deliveries.length

def drawn : Mark → Event Ans → Bool
  | token t, ⟨.randomToken,t'⟩ => t' = t
  | delivery d, ⟨.receive _,.ok (d',_)⟩ => d' = d
  | _, _ => false

def fresh : Mark → Event Ans → Bool
  | token t, ⟨.randomToken,t'⟩ => t' = t
  | delivery d, ⟨.offer ..,.ok d'⟩ => d' = d
  | _, _ => false

def spent : Mark → Event Ans → Bool
  | m, ⟨.registerLease key state,_⟩ => m.onEntry (entry (key,state))
  | _, _ => false

def held (m : Mark) (tr : Trace) : Bool := tr.any m.drawn && !tr.any registers

def stock (m : Mark) (l : Ledger) : ℕ :=
  m.queued l.waiting + l.entries.countP m.onEntry + l.effects.countP m.onEffect

end Mark

section Conservation

variable {l l' : Ledger} {ev : Event Ans} (m : Mark)

theorem quiet_marks (hev : loud ev = false) :
    m.drawn ev = false ∧ m.fresh ev = false ∧ m.spent ev = false := by
  refine ⟨?_,?_,?_⟩
  · unfold Mark.drawn
    split <;> simp_all [loud]
  · unfold Mark.fresh
    split <;> simp_all [loud]
  · unfold Mark.spent
    split <;> simp_all [loud]

theorem countP_entries_drop {entries : List Entry} {t : String} {e : Entry} (p : Entry → Bool)
    (he : e ∈ entries) (hkey : e.1 = t) :
    (entries.filter fun e => e.1 ≠ t).countP p + (p e).toNat ≤ entries.countP p := by
  rw [List.countP_eq_countP_filter_add entries p fun e => e.1 ≠ t]
  cases hp : p e with
  | false => simp
  | true =>
    have hpos : 0 < (entries.filter fun e => !decide (e.1 ≠ t)).countP p :=
      List.countP_pos_iff.mpr ⟨e,by simp [he,hkey],hp⟩
    simp only [Bool.toNat_true]
    omega

theorem queued_perm {waiting waiting' : List ℕ} {d : ℕ} (h : waiting.Perm (d :: waiting')) :
    m.queued waiting = m.queued waiting' + (m.fresh ⟨.offer 0 none,.ok d⟩).toNat := by
  cases m with
  | token t => rfl
  | delivery x =>
    simp only [Mark.queued,Mark.fresh,h.count_eq x,List.count_cons]
    by_cases hx : d = x <;> simp [hx]

theorem stock_step (h : LedgerStep l ev l') : m.stock l' + (m.drawn ev).toNat ≤
    m.stock l + (m.spent ev).toNat + (m.fresh ev).toNat := by
  cases h with
  | quiet hev =>
    obtain ⟨hd,hf,hs⟩ := quiet_marks m hev
    simp [hd,hf,hs]
  | issue t hfresh =>
    have hsame : m.fresh ⟨.randomToken,t⟩ = m.drawn ⟨.randomToken,t⟩ := by cases m <;> rfl
    simp only [Mark.stock,hsame]
    omega
  | receive sub d delivery waiting hwait hget =>
    have hqueue := queued_perm m hwait
    have hsame : m.drawn ⟨.receive sub,.ok (d,delivery.job)⟩ =
        m.fresh ⟨.offer 0 none,.ok d⟩ := by cases m <;> rfl
    simp only [Mark.stock,hsame]
    omega
  | refuse token state =>
    have hd : m.drawn ⟨.registerLease token state,false⟩ = false := by cases m <;> rfl
    simp only [hd,Bool.toNat_false]
    omega
  | register token state =>
    have hle := List.Sublist.countP_le (p := m.onEntry)
      (List.filter_sublist (p := fun e : Entry => e.1 ≠ token) (l := l.entries))
    have hd : m.drawn ⟨.registerLease token state,true⟩ = false := by cases m <;> rfl
    simp only [Mark.stock,hd,Mark.spent,Machine.countP_cons_toNat,Bool.toNat_false]
    omega
  | pop settler token state hmem =>
    have hdrop := countP_entries_drop m.onEntry hmem (t := token) rfl
    have hd : m.drawn ⟨.popLease settler token,some state⟩ = false := by cases m <;> rfl
    have hsame : m.onEffect (.settled settler token state.delivery) =
        m.onEntry (entry (token,state)) := by cases m <;> rfl
    simp only [Mark.stock,hd,Machine.countP_cons_toNat,hsame,Bool.toNat_false]
    omega
  | close subs leases hperm =>
    have hd : m.drawn ⟨.close,some (subs,leases)⟩ = false := by cases m <;> rfl
    have hsame : m.onEffect ∘ closeEffect = m.onEntry ∘ entry := by
      funext e
      cases m <;> rfl
    have hmoved : (leases.map closeEffect).countP m.onEffect = l.entries.countP m.onEntry := by
      rw [← hperm.countP_eq,List.countP_map,List.countP_map,hsame]
    simp only [Mark.stock,hd,List.countP_append,hmoved,List.countP_nil,Bool.toNat_false]
    omega
  | complete d err =>
    have hd : m.drawn ⟨.complete d err,()⟩ = false := by cases m <;> rfl
    simp only [Mark.stock,hd,Bool.toNat_false]
    omega
  | enqueue d job r =>
    have hd : m.drawn ⟨.enqueue (some d) job,r⟩ = false := by cases m <;> rfl
    have hoff : m.onEffect (.replaced d job) = false := by cases m <;> rfl
    simp only [Mark.stock,hd,Machine.countP_cons_toNat,hoff,Bool.toNat_false]
    omega
  | enqueueFailed d job e =>
    have hd : m.drawn ⟨.enqueue (some d) job,.error e⟩ = false := by cases m <;> rfl
    simp only [hd,Bool.toNat_false]
    omega
  | offer sub job waiting hwait =>
    have hqueue := queued_perm m hwait
    have hd : m.drawn ⟨.offer sub job,.ok l.deliveries.length⟩ = false := by cases m <;> rfl
    have hsame : m.fresh ⟨.offer 0 none,.ok l.deliveries.length⟩ =
        m.fresh ⟨.offer sub job,.ok l.deliveries.length⟩ := by cases m <;> rfl
    rw [hsame] at hqueue
    simp only [Mark.stock,hd,Bool.toNat_false]
    omega
  | await sub d delivery result hget hdone =>
    have hd : m.drawn ⟨.await sub d,.ok result⟩ = false := by cases m <;> rfl
    simp only [hd,Bool.toNat_false]
    omega

theorem not_born_of_fresh (h : LedgerStep l ev l') (hf : m.fresh ev = true) : ¬ m.Born l := by
  cases h with
  | quiet hev => simp [(quiet_marks m hev).2.1] at hf
  | issue t hfresh =>
    cases m with
    | token x =>
      have hx : t = x := by simpa [Mark.fresh] using hf
      exact hx ▸ hfresh
    | delivery x => cases hf
  | offer sub job waiting hwait =>
    cases m with
    | token x => cases hf
    | delivery x =>
      have hx : l.deliveries.length = x := by simpa [Mark.fresh] using hf
      simp [Mark.Born,hx]
  | _ => cases m <;> cases hf

theorem born_of_born (h : LedgerStep l ev l') (hb : m.Born l) : m.Born l' := by
  cases h with
  | issue t hfresh =>
    cases m with
    | token x => exact List.mem_cons_of_mem t hb
    | delivery x => exact hb
  | offer sub job waiting hwait =>
    cases m with
    | token x => exact hb
    | delivery x =>
      simp only [Mark.Born,List.length_append] at hb ⊢
      omega
  | complete d err =>
    cases m with
    | token x => exact hb
    | delivery x => simpa [Mark.Born] using hb
  | _ => cases m <;> exact hb

theorem born_of_fresh (h : LedgerStep l ev l') (hf : m.fresh ev = true) : m.Born l' := by
  cases h with
  | quiet hev => simp [(quiet_marks m hev).2.1] at hf
  | issue t hfresh =>
    cases m with
    | token x =>
      have hx : t = x := by simpa [Mark.fresh] using hf
      simp [Mark.Born,hx]
    | delivery x => cases hf
  | offer sub job waiting hwait =>
    cases m with
    | token x => cases hf
    | delivery x =>
      have hx : l.deliveries.length = x := by simpa [Mark.fresh] using hf
      simp [Mark.Born,← hx]
  | _ => cases m <;> cases hf

end Conservation

def hands (d : ℕ) : Event Ans → Bool
  | ⟨.popLease settler _,some state⟩ => settler.hands && state.delivery = d
  | _ => false

def replacesDelivery (d : ℕ) : Event Ans → Bool
  | ⟨.enqueue (some d') _,_⟩ => d' = d
  | _ => false

def pendingFor (d : ℕ) (tr : Trace) : Bool := tr.any (hands d) && !tr.any replaces

def isReplaced (d : ℕ) : Effect → Bool
  | .replaced d' _ => d' = d
  | .settled .. => false

section Replacement

variable {l l' : Ledger} {ev : Event Ans} {call : Call} {tr : Trace} {op : Op} (d : ℕ)

theorem held_step (m : Mark) (ans : Ans op) (hpre : Permitted call tr op) :
    (m.held (⟨op,ans⟩ :: tr)).toNat + (m.spent ⟨op,ans⟩).toNat ≤
      (m.held tr).toNat + (m.drawn ⟨op,ans⟩).toNat := by
  cases hreg : registers ⟨op,ans⟩ with
  | false =>
    have hspent : m.spent ⟨op,ans⟩ = false := by
      cases op <;> first | rfl | simp [registers] at hreg
    simp only [Mark.held,List.any_cons,hreg,hspent,Bool.false_or,Bool.toNat_false]
    cases m.drawn ⟨op,ans⟩ <;> cases tr.any m.drawn <;> cases tr.any registers <;> decide
  | true =>
    cases op with
    | registerLease token state =>
      obtain ⟨htoken,⟨sub,hgot⟩,hnone⟩ := hpre
      have hdrawn : m.onEntry (entry (token,state)) = true → tr.any m.drawn = true := by
        intro hm
        rw [List.any_eq_true]
        cases m with
        | token t => exact ⟨_,htoken,hm⟩
        | delivery x => exact ⟨_,hgot,hm⟩
      simp only [Mark.held,List.any_cons,hreg,hnone,Mark.spent,Bool.true_or,Bool.not_true,
        Bool.and_false,Bool.toNat_false,Bool.not_false,Bool.and_true]
      cases hm : m.onEntry (entry (token,state)) with
      | false => simp
      | true => simp [hdrawn hm]
    | _ => cases hreg

theorem pendingFor_step (ans : Ans op) (hpre : Permitted call tr op) :
    (pendingFor d (⟨op,ans⟩ :: tr)).toNat + (replacesDelivery d ⟨op,ans⟩).toNat ≤
      (pendingFor d tr).toNat + (hands d ⟨op,ans⟩).toNat := by
  cases hrep : replaces ⟨op,ans⟩ with
  | false =>
    have hnot : replacesDelivery d ⟨op,ans⟩ = false := by
      cases op with
      | enqueue replaced job =>
        cases replaced with
        | none => rfl
        | some x => cases hrep
      | _ => rfl
    simp only [pendingFor,List.any_cons,hrep,hnot,Bool.false_or,Bool.toNat_false]
    cases hands d ⟨op,ans⟩ <;> cases tr.any (hands d) <;> cases tr.any replaces <;> decide
  | true =>
    cases op with
    | enqueue replaced job =>
      cases replaced with
      | none => cases hrep
      | some x =>
        obtain ⟨⟨state,⟨settler,token,hset,hmem⟩,hx,_⟩,hnone⟩ := hpre
        simp only [pendingFor,List.any_cons,hrep,hnone,Bool.true_or,Bool.not_true,Bool.and_false,
          Bool.toNat_false,Bool.not_false,Bool.and_true,replacesDelivery]
        by_cases hd : x = d
        · have hany : tr.any (hands d) = true :=
            List.any_eq_true.mpr ⟨_,hmem,by simp [hands,hset,hx,hd]⟩
          simp [hd,hany]
        · simp [hd]
    | _ => cases hrep

theorem replaced_step (h : LedgerStep l ev l') : l'.effects.countP (isReplaced d) ≤
    l.effects.countP (isReplaced d) + (replacesDelivery d ev).toNat := by
  cases h with
  | pop settler token state hmem => simp [isReplaced]
  | close subs leases hperm =>
    have hnone : (leases.map closeEffect).countP (isReplaced d) = 0 := by
      simp [List.countP_eq_zero,isReplaced,closeEffect]
    simp [List.countP_append,hnone]
  | enqueue x job r => simp [Machine.countP_cons_toNat,isReplaced,replacesDelivery]
  | _ => simp

theorem settled_step (h : LedgerStep l ev l') :
    l.effects.countP (settlesDelivery d) + (hands d ev).toNat ≤
      l'.effects.countP (settlesDelivery d) := by
  cases h with
  | quiet hev =>
    have hnot : hands d ev = false := by
      unfold hands
      split
      · simp [loud] at hev
      · rfl
    simp [hnot]
  | pop settler token state hmem =>
    simp only [Machine.countP_cons_toNat,settlesDelivery,hands]
    cases settler.hands <;> simp
  | close subs leases hperm => simp [List.countP_append,hands]
  | enqueue x job r => simp [settlesDelivery,hands]
  | _ => simp [hands]

end Replacement

namespace Ledger

def jobOf (l : Ledger) (d : ℕ) : Option (Option Job) := l.deliveries[d]?.map (·.job)

def doneOf (l : Ledger) (d : ℕ) : Option (Option GoError) := l.deliveries[d]?.bind (·.done)

def Justified (l : Ledger) (d : ℕ) : Prop :=
  (∃ token, Effect.settled .ack token d ∈ l.effects) ∨ ∃ job, Effect.replaced d job ∈ l.effects

structure Grows (l l' : Ledger) : Prop where
  jobs : ∀ d j, l.jobOf d = some j → l'.jobOf d = some j
  dones : ∀ d r, l.doneOf d = some r → l'.doneOf d = some r
  effects : ∀ e ∈ l.effects, e ∈ l'.effects

def Witnessed (l : Ledger) : Event Ans → Prop
  | ⟨.popLease settler token,some state⟩ =>
      Effect.settled settler token state.delivery ∈ l.effects ∧
      l.jobOf state.delivery = some (some state.job)
  | ⟨.enqueue (some d) job,.ok _⟩ => Effect.replaced d job ∈ l.effects
  | ⟨.receive _,.ok (d,job)⟩ => l.jobOf d = some job
  | ⟨.offer _ job,.ok d⟩ => l.jobOf d = some job
  | ⟨.await _ d,.ok r⟩ => l.doneOf d = some r
  | _ => True

structure Sound (l : Ledger) : Prop where
  entries : ∀ e ∈ l.entries, l.jobOf e.2.1 = some (some e.2.2)
  replaced : ∀ d job, Effect.replaced d job ∈ l.effects →
    ∃ j, l.jobOf d = some (some j) ∧ job.work = j.work
  done : ∀ d, l.doneOf d = some none → l.Justified d

end Ledger

section Facts

variable {l l' : Ledger} {ev : Event Ans} {call : Call} {tr : Trace} {op : Op} {ans : Ans op}

theorem jobOf_complete (l : Ledger) (d d' : ℕ) (err : Option GoError) :
    (Ledger.jobOf { l with deliveries := l.deliveries.modify d fun x =>
      { x with done := x.done.or (some err) } } d') = l.jobOf d' := by
  simp only [Ledger.jobOf,List.getElem?_modify]
  cases l.deliveries[d']? with
  | none => rfl
  | some x =>
    simp only [Option.map_some]
    split_ifs <;> rfl

theorem doneOf_complete (l : Ledger) (d d' : ℕ) (err : Option GoError) :
    (Ledger.doneOf { l with deliveries := l.deliveries.modify d fun x =>
      { x with done := x.done.or (some err) } } d') = if d = d' ∧ (l.deliveries[d']?).isSome then
        (l.doneOf d').or (some err) else l.doneOf d' := by
  simp only [Ledger.doneOf,List.getElem?_modify]
  cases l.deliveries[d']? with
  | none => simp
  | some x =>
    by_cases hd : d = d' <;> simp [hd]

theorem grows_step (h : LedgerStep l ev l') : l.Grows l' := by
  cases h with
  | pop settler token state hmem =>
    exact ⟨fun _ _ h => h,fun _ _ h => h,fun _ h => List.mem_cons_of_mem _ h⟩
  | close subs leases hperm =>
    exact ⟨fun _ _ h => h,fun _ _ h => h,fun _ h => List.mem_append_right _ h⟩
  | enqueue d job r =>
    exact ⟨fun _ _ h => h,fun _ _ h => h,fun _ h => List.mem_cons_of_mem _ h⟩
  | complete d err =>
    refine ⟨fun d' j hj => ?_,fun d' r hr => ?_,fun _ h => h⟩
    · rw [jobOf_complete,hj]
    · rw [doneOf_complete,hr]
      split_ifs <;> rfl
  | offer sub job waiting hwait =>
    have hold : ∀ (d' : ℕ) (x : Delivery), l.deliveries[d']? = some x →
        (l.deliveries ++ [⟨job,none⟩])[d']? = some x := by
      intro d' x hx
      obtain ⟨hlt,_⟩ := List.getElem?_eq_some_iff.mp hx
      rw [List.getElem?_append_left hlt,hx]
    refine ⟨fun d' j hj => ?_,fun d' r hr => ?_,fun _ h => h⟩
    · obtain ⟨x,hx,hxj⟩ := Option.map_eq_some_iff.mp hj
      exact Option.map_eq_some_iff.mpr ⟨x,hold d' x hx,hxj⟩
    · obtain ⟨x,hx,hxr⟩ := Option.bind_eq_some_iff.mp hr
      exact Option.bind_eq_some_iff.mpr ⟨x,hold d' x hx,hxr⟩
  | _ => exact ⟨fun _ _ h => h,fun _ _ h => h,fun _ h => h⟩

theorem witnessed_of_grows (hg : l.Grows l') (h : l.Witnessed ev) : l'.Witnessed ev := by
  unfold Ledger.Witnessed at h ⊢
  split
  · exact ⟨hg.effects _ h.1,hg.jobs _ _ h.2⟩
  · exact hg.effects _ h
  · exact hg.jobs _ _ h
  · exact hg.jobs _ _ h
  · exact hg.dones _ _ h
  · trivial

theorem justified_of_grows (hg : l.Grows l') {d : ℕ} (h : l.Justified d) : l'.Justified d := by
  rcases h with ⟨token,h⟩ | ⟨job,h⟩
  · exact .inl ⟨token,hg.effects _ h⟩
  · exact .inr ⟨job,hg.effects _ h⟩

theorem witnessed_step (hs : l.Sound) (h : LedgerStep l ev l') : l'.Witnessed ev := by
  cases h with
  | quiet hev =>
    unfold Ledger.Witnessed
    split
    · cases hev
    · cases hev
    · cases hev
    · cases hev
    · cases hev
    · trivial
  | receive sub d delivery waiting hwait hget => simp [Ledger.Witnessed,Ledger.jobOf,hget]
  | pop settler token state hmem => exact ⟨List.mem_cons_self,hs.entries _ hmem⟩
  | enqueue d job r =>
    cases r with
    | error e => trivial
    | ok u => exact List.mem_cons_self
  | offer sub job waiting hwait => simp [Ledger.Witnessed,Ledger.jobOf]
  | await sub d delivery result hget hdone => simp [Ledger.Witnessed,Ledger.doneOf,hget,hdone]
  | _ => trivial

theorem justified_of_earned (hw : ∀ ev ∈ tr, l.Witnessed ev) {d : ℕ} (h : Earned tr d) :
    l.Justified d := by
  rcases h with ⟨state,⟨settler,token,hset,hmem⟩,rfl⟩ | ⟨job,hmem⟩
  · have hack : settler = .ack := by simpa using hset
    exact .inl ⟨token,hack ▸ (hw _ hmem).1⟩
  · exact .inr ⟨job,hw _ hmem⟩

theorem entries_sound_step (hs : l.Sound) (hw : ∀ ev ∈ tr, l.Witnessed ev)
    (hpre : Permitted call tr op) (h : LedgerStep l ⟨op,ans⟩ l') :
    ∀ e ∈ l'.entries, l'.jobOf e.2.1 = some (some e.2.2) := by
  have hg := grows_step h
  have hold : ∀ e ∈ l.entries, l'.jobOf e.2.1 = some (some e.2.2) :=
    fun e he => hg.jobs _ _ (hs.entries e he)
  cases h with
  | register token state =>
    intro e he
    rcases List.mem_cons.mp he with rfl | he
    · obtain ⟨_,⟨sub,hgot⟩,_⟩ := hpre
      exact hw _ hgot
    · exact hold e (List.mem_of_mem_filter he)
  | pop settler token state hmem => exact fun e he => hold e (List.mem_of_mem_filter he)
  | close subs leases hperm => exact fun e he => absurd he (List.not_mem_nil)
  | _ => exact hold

theorem replaced_sound_step (hs : l.Sound) (hw : ∀ ev ∈ tr, l.Witnessed ev)
    (hpre : Permitted call tr op) (h : LedgerStep l ⟨op,ans⟩ l') (d : ℕ) (job : Job)
    (hmem : Effect.replaced d job ∈ l'.effects) :
    ∃ j, l'.jobOf d = some (some j) ∧ job.work = j.work := by
  have hg := grows_step h
  have hold : Effect.replaced d job ∈ l.effects →
      ∃ j, l'.jobOf d = some (some j) ∧ job.work = j.work := by
    intro hin
    obtain ⟨j,hj,hwork⟩ := hs.replaced d job hin
    exact ⟨j,hg.jobs _ _ hj,hwork⟩
  cases h with
  | pop settler token state hin =>
    rcases List.mem_cons.mp hmem with heq | hmem
    · cases heq
    · exact hold hmem
  | close subs leases hperm =>
    rcases List.mem_append.mp hmem with hmem | hmem
    · obtain ⟨e,_,heq⟩ := List.mem_map.mp hmem
      cases heq
    · exact hold hmem
  | enqueue x job' r =>
    rcases List.mem_cons.mp hmem with heq | hmem
    · cases heq
      obtain ⟨⟨state,⟨settler,token,_,hpop⟩,rfl,hwork⟩,_⟩ := hpre
      exact ⟨state.job,(hw _ hpop).2,hwork⟩
    · exact hold hmem
  | _ => exact hold hmem

theorem done_sound_step (hs : l.Sound) (hw : ∀ ev ∈ tr, l.Witnessed ev)
    (hpre : Permitted call tr op) (h : LedgerStep l ⟨op,ans⟩ l') (d : ℕ)
    (hdone : l'.doneOf d = some none) : l'.Justified d := by
  have hg := grows_step h
  cases h with
  | complete x err =>
    rw [doneOf_complete] at hdone
    split_ifs at hdone with hx
    · cases hold : l.doneOf d with
      | none =>
        rw [hold] at hdone
        cases hdone
        obtain ⟨rfl,_⟩ := hx
        exact justified_of_grows hg (justified_of_earned hw hpre)
      | some r =>
        rw [hold] at hdone
        cases hdone
        exact justified_of_grows hg (hs.done d hold)
    · exact justified_of_grows hg (hs.done d hdone)
  | offer sub job waiting hwait =>
    obtain ⟨x,hx,hnone⟩ := Option.bind_eq_some_iff.mp hdone
    rcases Nat.lt_or_ge d l.deliveries.length with hlt | hge
    · rw [List.getElem?_append_left hlt] at hx
      exact justified_of_grows hg (hs.done d (Option.bind_eq_some_iff.mpr ⟨x,hx,hnone⟩))
    · rw [List.getElem?_append_right hge,List.getElem?_singleton] at hx
      obtain ⟨_,heq⟩ := Option.ite_none_right_eq_some.mp hx
      cases heq
      cases hnone
  | _ => exact justified_of_grows hg (hs.done d hdone)

end Facts

structure Safe (c : State) : Prop where
  once : ∀ m : Mark,
    m.stock c.shared.ledger + c.threads.countP (fun t => m.held t.trace) ≤ 1
  unborn : ∀ m : Mark, ¬ m.Born c.shared.ledger →
    m.stock c.shared.ledger + c.threads.countP (fun t => m.held t.trace) = 0
  replaced : ∀ d : ℕ, c.shared.effects.countP (isReplaced d) +
    c.threads.countP (fun t => pendingFor d t.trace) ≤
      c.shared.effects.countP (settlesDelivery d)
  witnessed : ∀ t ∈ c.threads, ∀ ev ∈ t.trace, c.shared.ledger.Witnessed ev
  sound : c.shared.ledger.Sound

section Runs

variable {cfg : Config} {c : State}

theorem safe_start : Safe start where
  once m := by cases m <;> exact Nat.zero_le 1
  unborn m _ := by cases m <;> rfl
  replaced d := Nat.le_refl _
  witnessed t ht := absurd ht List.not_mem_nil
  sound := ⟨fun e he => absurd he List.not_mem_nil,fun d job h => absurd h List.not_mem_nil,
    fun d h => by simp [Ledger.doneOf,Heap.ledger,start,Heap.empty] at h⟩

theorem safe_of_threads {threads : List (Thread Ans GoError Call Reply)} (h : Safe c)
    (hcount : ∀ q : Trace → Bool, q [] = false →
      threads.countP (fun t => q t.trace) = c.threads.countP (fun t => q t.trace))
    (hmem : ∀ t ∈ threads, ∀ ev ∈ t.trace, c.shared.ledger.Witnessed ev) :
    Safe { c with threads := threads } where
  once m := by
    rw [hcount m.held rfl]
    exact h.once m
  unborn m hm := by
    rw [hcount m.held rfl]
    exact h.unborn m hm
  replaced d := by
    rw [hcount (pendingFor d) rfl]
    exact h.replaced d
  witnessed := hmem
  sound := h.sound

theorem safe_exec {i : ℕ} {x : Outcome} {t : Thread Ans GoError Call Reply} {op : Op}
    {k : Ans op → M Reply} {ans : Ans op} {s' : Heap} (h : Safe c) (ht : c.threads[i]? = some t)
    (hpre : Permitted t.call t.trace op) (hx : exec cfg.normalize c.shared op x = some (ans,s')) :
    Safe ⟨s',c.threads.set i { t with rest := k ans, trace := ⟨op,ans⟩ :: t.trace }⟩ := by
  have hstep := ledger_exec hx
  have hw : ∀ ev ∈ t.trace, c.shared.ledger.Witnessed ev :=
    h.witnessed t (List.mem_of_getElem? ht)
  have hcount := fun q : Trace → Bool => Machine.countP_set_toNat (fun t => q t.trace)
    ({ t with rest := k ans, trace := ⟨op,ans⟩ :: t.trace }) ht
  refine ⟨fun m => ?_,fun m hm => ?_,fun d => ?_,?_,?_⟩
  · have hset := hcount m.held
    have hstock := stock_step m hstep
    have hheld := held_step m ans hpre
    have honce := h.once m
    cases hf : m.fresh ⟨op,ans⟩ with
    | false =>
      simp only [hf,Bool.toNat_false] at hstock
      dsimp only at hset ⊢
      omega
    | true =>
      have hzero := h.unborn m (not_born_of_fresh m hstep hf)
      simp only [hf,Bool.toNat_true] at hstock
      dsimp only at hset ⊢
      omega
  · have hset := hcount m.held
    have hstock := stock_step m hstep
    have hheld := held_step m ans hpre
    have hzero := h.unborn m (mt (born_of_born m hstep) hm)
    have hf : m.fresh ⟨op,ans⟩ = false :=
      Bool.eq_false_iff.mpr fun hf => hm (born_of_fresh m hstep hf)
    simp only [hf,Bool.toNat_false] at hstock
    dsimp only at hset ⊢
    omega
  · have hset := hcount (pendingFor d)
    have hpend := pendingFor_step d ans hpre
    have hrep : s'.effects.countP (isReplaced d) ≤
      c.shared.effects.countP (isReplaced d) + (replacesDelivery d ⟨op,ans⟩).toNat :=
      replaced_step d hstep
    have hsettled : c.shared.effects.countP (settlesDelivery d) + (hands d ⟨op,ans⟩).toNat ≤
      s'.effects.countP (settlesDelivery d) := settled_step d hstep
    have hold := h.replaced d
    dsimp only at hset ⊢
    omega
  · have hold : ∀ u ∈ c.threads, ∀ ev ∈ u.trace, s'.ledger.Witnessed ev := fun u hu ev hev =>
      witnessed_of_grows (grows_step hstep) (h.witnessed u hu ev hev)
    refine Machine.forall_mem_set hold fun ev hev => ?_
    rcases List.mem_cons.mp hev with rfl | hev
    · exact witnessed_step h.sound hstep
    · exact hold t (List.mem_of_getElem? ht) ev hev
  · exact ⟨entries_sound_step h.sound hw hpre hstep,replaced_sound_step h.sound hw hpre hstep,
      done_sound_step h.sound hw hpre hstep⟩

theorem safe_of_run {acts : List Act} (hrun : (system cfg).run acts start = some c) :
    Safe c ∧ Machine.ThreadsMeet discipline Returned c := by
  refine Machine.run_config_invariant (P := fun _ _ => True)
    (program_meets cfg.normalize) ?_ ?_ ?_ ?_ safe_start ?_ ((system cfg).along_true acts start) hrun
  · intro c call h _
    refine safe_of_threads h (fun q hq => ?_) fun t ht => ?_
    · simp [hq]
    · rcases List.mem_append.mp ht with ht | ht
      · exact h.witnessed t ht
      · rw [List.mem_singleton.mp ht]
        exact fun ev hev => absurd hev List.not_mem_nil
  · intro c i x t op k ans s' h _ ht _ _ hpre hx
    exact ⟨trivial,safe_exec h ht hpre hx⟩
  · intro c i t h _ ht
    refine safe_of_threads h (fun q _ => ?_) ?_
    · exact Machine.countP_set_of_same ht rfl
    · exact Machine.forall_mem_set h.witnessed (h.witnessed t (List.mem_of_getElem? ht))
  · intro c e h _
    exact ⟨h.once,h.unborn,h.replaced,h.witnessed,h.sound⟩
  · exact fun t ht => absurd ht List.not_mem_nil

theorem disciplined_of_run {acts : List Act} (hrun : (system cfg).run acts start = some c) :
    ∀ t ∈ c.threads, Prog.Disciplined (discipline t.call) t.trace := by
  have hboth : Machine.ThreadsMeet discipline Returned c ∧
      ∀ t ∈ c.threads, Prog.Disciplined (discipline t.call) t.trace := by
    refine (system cfg).run_invariant (I := fun c => Machine.ThreadsMeet discipline Returned c ∧
      ∀ t ∈ c.threads, Prog.Disciplined (discipline t.call) t.trace) (P := fun _ _ => True) ?_
      ⟨fun t ht => absurd ht List.not_mem_nil,fun t ht => absurd ht List.not_mem_nil⟩
      ((system cfg).along_true acts start) hrun
    intro c a c' h _ hs
    exact ⟨h.1.step _ (program_meets cfg.normalize) (fun _ _ _ _ _ _ _ => trivial) hs,
      (system cfg).disciplined_step h.1 h.2 hs⟩
  exact hboth.2

-- an enqueue that replaces no delivery is the client's own
theorem enqueue_of_client {acts : List Act} (hrun : (system cfg).run acts start = some c)
    {t : Thread Ans GoError Call Reply} (ht : t ∈ c.threads) {job : Job} {r : Except GoError Unit}
    (hmem : (⟨.enqueue none job,r⟩ : Event Ans) ∈ t.trace) : t.call = .enqueue job := by
  have hdisciplined := disciplined_of_run hrun t ht
  obtain ⟨later,before,heq⟩ := List.append_of_mem hmem
  rw [heq] at hdisciplined
  exact hdisciplined.at later

theorem delivery_settled_once {acts : List Act} (hrun : (system cfg).run acts start = some c) :
    (∀ token, c.shared.effects.countP (settlesToken token) ≤ 1) ∧
    (∀ d, c.shared.effects.countP (settlesDelivery d) ≤ 1 ∧
      c.shared.effects.countP (isReplaced d) ≤ 1) ∧
    (∀ t ∈ c.threads, ∀ replaced job, (⟨.enqueue replaced job,.ok ()⟩ : Event Ans) ∈ t.trace →
      t.call = .enqueue job ∨ ∃ d, replaced = some d ∧ Effect.replaced d job ∈ c.shared.effects) ∧
    ∀ t ∈ c.threads, ∀ sub job r, t.call = .handle sub job → t.rest = .ret r →
      ∃ d, (⟨.offer sub job,.ok d⟩ : Event Ans) ∈ t.trace ∧
        ((∃ token, Effect.settled .ack token d ∈ c.shared.effects) ∨
          ∃ replacement j, Effect.replaced d replacement ∈ c.shared.effects ∧ job = some j ∧
            replacement.work = j.work) := by
  obtain ⟨hsafe,hmeet⟩ := safe_of_run hrun
  have hdelivery : ∀ d, c.shared.effects.countP (settlesDelivery d) ≤ 1 := by
    intro d
    refine le_trans ?_ (hsafe.once (.delivery d))
    exact le_trans (Nat.le_add_left _ _) (Nat.le_add_right _ _)
  refine ⟨fun token => ?_,fun d => ⟨hdelivery d,?_⟩,?_,?_⟩
  · refine le_trans ?_ (hsafe.once (.token token))
    exact le_trans (Nat.le_add_left _ _) (Nat.le_add_right _ _)
  · have hrep := hsafe.replaced d
    have hset := hdelivery d
    omega
  · intro t ht replaced job hmem
    cases replaced with
    | none => exact .inl (enqueue_of_client hrun ht hmem)
    | some d => exact .inr ⟨d,rfl,hsafe.witnessed t ht _ hmem⟩
  · intro t ht sub job r hcall hrest
    have hret := hmeet t ht
    rw [hrest,hcall,Prog.meets_ret] at hret
    obtain ⟨d,hoffer,hawait⟩ := hret
    have hjob : c.shared.ledger.jobOf d = some job := hsafe.witnessed t ht _ hoffer
    have hdone : c.shared.ledger.doneOf d = some none := hsafe.witnessed t ht _ hawait
    refine ⟨d,hoffer,?_⟩
    rcases hsafe.sound.done d hdone with hack | ⟨replacement,hrep⟩
    · exact .inl hack
    · obtain ⟨j,hj,hwork⟩ := hsafe.sound.replaced d replacement hrep
      rw [hjob] at hj
      exact .inr ⟨replacement,j,hrep,Option.some.inj hj,hwork⟩

end Runs

def mail : Job := ⟨"j1","mail","q",[1],∅,"","","","","",0,0,3,0⟩

def plain : Config := ⟨0,"",false⟩

def nackThenAck : List Act :=
  [.start (.reserve "q" 0),.exec 0 .done,.exec 0 .done,.start (.handle 0 (some mail)),
    .exec 1 .done,.exec 0 .done,.exec 0 (.token "a1"),.exec 0 (.at second),.exec 0 .done,
    .exec 0 .done,.start (.nack (some ⟨"j1","a1","q",0,0⟩) zeroTime none),.exec 2 .done,
    .start (.ack (some ⟨"j1","a1","q",0,0⟩)),.exec 3 .done,.exec 2 (.at second),
    .exec 2 (.at second),.exec 2 (.at second),.exec 2 .done,.exec 2 .done,.exec 1 .done]

def replied (t : Thread Ans GoError Call Reply) : Bool :=
  match t.rest with
  | .ret _ => true
  | _ => false

theorem delivery_settled_once_nack_then_ack : ∃ c, (system plain).run nackThenAck start = some c ∧
    c.shared.effects.length = 2 ∧ c.shared.effects.countP (settlesToken "a1") ≤ 1 ∧
    ∃ t ∈ c.threads, t.call = .handle 0 (some mail) ∧ replied t = true ∧
      ∃ d, (⟨.offer 0 (some mail),.ok d⟩ : Event Ans) ∈ t.trace ∧
        ((∃ token, Effect.settled .ack token d ∈ c.shared.effects) ∨
          ∃ replacement j, Effect.replaced d replacement ∈ c.shared.effects ∧ some mail = some j ∧
            replacement.work = j.work) := by
  have hrun : ((system plain).run nackThenAck start).any (fun c =>
      c.shared.effects.length = 2 && c.threads.any fun t =>
        t.call = .handle 0 (some mail) && replied t) = true := by decide +kernel
  obtain ⟨c,hc,hfacts⟩ := (Option.any_eq_true _ _).mp hrun
  simp only [Bool.and_eq_true,decide_eq_true_iff,List.any_eq_true] at hfacts
  obtain ⟨hlen,t,ht,hcall,hreplied⟩ := hfacts
  obtain ⟨htoken,_,_,hback⟩ := delivery_settled_once hc
  refine ⟨c,hc,hlen,htoken "a1",t,ht,hcall,hreplied,?_⟩
  cases hrest : t.rest with
  | ret r => exact hback t ht 0 (some mail) r hcall hrest
  | fail e => simp [replied,hrest] at hreplied
  | call op k => simp [replied,hrest] at hreplied

end Nimburion.Jobs.RuntimeBackend
