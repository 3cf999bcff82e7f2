import Nimburion.Lib.InteractionProject

namespace Nimburion.HTTP.RateLimit
open Interaction

-- a limiter is known to its maker only until it is stored, so store makes it
inductive Op where
  | load (key : String)
  | store (key : String)
  | allow (limiter : ℕ)
  deriving DecidableEq, Repr

abbrev Ans : Op → Type
  | .load _ => Option ℕ
  | .store _ => ℕ
  | .allow _ => Bool

abbrev M := Prog Op Ans Empty

def getLimiter (key : String) : M ℕ := do
  let loaded ← Prog.perform (Op.load key)
  match loaded with
  | some limiter => pure limiter
  | none => Prog.perform (Op.store key)

def allow (key : String) : M Bool := do
  let limiter ← getLimiter key
  Prog.perform (Op.allow limiter)

-- a token bucket while no time passes, beside the key it was made for
structure Bucket where
  key : String
  tokens : ℕ
  deriving DecidableEq, Repr

structure TokenBucketLimiter where
  limiters : String → Option ℕ
  buckets : ℕ → Option Bucket

def newTokenBucketLimiter : TokenBucketLimiter := ⟨fun _ => none,fun _ => none⟩

section Semantics

variable (burst : Int64)

def full (key : String) : Bucket := ⟨key,burst.toInt.toNat⟩

def put (s : TokenBucketLimiter) (l : ℕ) (b : Bucket) : TokenBucketLimiter :=
  { s with buckets := fun l' => if l' = l then some b else s.buckets l' }

-- the choice is the address of a new limiter
def exec (s : TokenBucketLimiter) : (op : Op) → ℕ → Option (Ans op × TokenBucketLimiter)
  | .load key,_ => some (s.limiters key,s)
  | .store key,l =>
      if s.buckets l = none then
        some (l,{ put s l (full burst key) with
          limiters := fun k => if k = key then some l else s.limiters k })
      else none
  | .allow l,_ => match s.buckets l with
      | some b =>
          if 0 < b.tokens then
            some (true,put s l { b with tokens := b.tokens-1 })
          else some (false,s)
      | none => none

def limiter : Machine Ans Empty TokenBucketLimiter String Bool ℕ Empty :=
  ⟨allow,exec burst,fun s _ => s⟩

end Semantics

abbrev Calls := Config Ans Empty TokenBucketLimiter String Bool

abbrev Calling := Thread Ans Empty String Bool

abbrev Act := Action String ℕ Empty

def started : Calls := ⟨newTokenBucketLimiter,[]⟩

section Discipline

-- the limiters a call has been given
def given : List (Event Ans) → List ℕ
  | [] => []
  | ⟨.load _,some l⟩ :: tr => l :: given tr
  | ⟨.store _,l⟩ :: tr => l :: given tr
  | _ :: tr => given tr

def granted : List (Event Ans) → Bool
  | ⟨.allow _,b⟩ :: _ => b
  | _ => false

def discipline (key : String) : Spec Ans where
  pre tr op := granted tr = false ∧ match op with
    | .load k => k = key
    | .store k => k = key
    | .allow l => l ∈ given tr
  ans _ _ := True

def Answered (tr : List (Event Ans)) : Except Empty Bool → Prop
  | .ok b => granted tr = b
  | .error _ => False

theorem meets_allow (key : String) : Prog.Meets (discipline key) Answered [] (allow key) := by
  rw [allow,Prog.meets_bind,getLimiter,Prog.meets_bind,Prog.meets_perform]
  refine ⟨⟨rfl,rfl⟩,fun loaded _ => ?_⟩
  cases loaded with
  | some l => exact ⟨⟨rfl,by simp [given]⟩,fun b _ => rfl⟩
  | none => exact ⟨⟨rfl,rfl⟩,fun l _ => ⟨⟨rfl,by simp [given]⟩,fun b _ => rfl⟩⟩

end Discipline

section Effects

variable (burst : Int64)

-- what one operation does
inductive Effect (s : TokenBucketLimiter) : Event Ans → TokenBucketLimiter → Prop where
  | load (key : String) : Effect s ⟨.load key,s.limiters key⟩ s
  | store (key : String) (l : ℕ) (hfree : s.buckets l = none) : Effect s ⟨.store key,l⟩
      { put s l (full burst key) with
        limiters := fun k => if k = key then some l else s.limiters k }
  | granted (l : ℕ) (b : Bucket) (hb : s.buckets l = some b) (hpos : 0 < b.tokens) :
      Effect s ⟨.allow l,true⟩ (put s l { b with tokens := b.tokens-1 })
  | refused (l : ℕ) : Effect s ⟨.allow l,false⟩ s

variable {burst} {s s' : TokenBucketLimiter} {ev : Event Ans}

theorem exec_effect {op : Op} {x : ℕ} {ans : Ans op} (h : exec burst s op x = some (ans,s')) :
    Effect burst s ⟨op,ans⟩ s' := by
  cases op with
  | load key =>
    simp only [exec,Option.some.injEq,Prod.mk.injEq] at h
    obtain ⟨rfl,rfl⟩ := h
    exact .load key
  | store key =>
    simp only [exec] at h
    split_ifs at h with hfree
    simp only [Option.some.injEq,Prod.mk.injEq] at h
    obtain ⟨rfl,rfl⟩ := h
    exact .store key _ hfree
  | allow l =>
    simp only [exec] at h
    cases hb : s.buckets l with
    | none => simp [hb] at h
    | some b =>
      simp only [hb] at h
      split_ifs at h with hpos
      · simp only [Option.some.injEq,Prod.mk.injEq] at h
        obtain ⟨rfl,rfl⟩ := h
        exact .granted l b hb hpos
      · simp only [Option.some.injEq,Prod.mk.injEq] at h
        obtain ⟨rfl,rfl⟩ := h
        exact .refused l

def MadeFor (s : TokenBucketLimiter) (l : ℕ) (k : String) : Prop := ∃ n, s.buckets l = some ⟨k,n⟩

theorem MadeFor.mono {l : ℕ} {k : String} (h : MadeFor s l k) (he : Effect burst s ev s') :
    MadeFor s' l k := by
  obtain ⟨n,hn⟩ := h
  cases he with
  | load key => exact ⟨n,hn⟩
  | store key l' hfree =>
    have hne : l ≠ l' := by
      rintro rfl
      rw [hfree] at hn
      cases hn
    exact ⟨n,by simp [put,hne,hn]⟩
  | granted l' b hb hpos =>
    by_cases hl : l = l'
    · subst hl
      rw [hb,Option.some.injEq] at hn
      exact ⟨b.tokens-1,by simp [put,hn]⟩
    · exact ⟨n,by simp [put,hl,hn]⟩
  | refused l' => exact ⟨n,hn⟩

end Effects

section Ownership

variable {burst : Int64} {c : Calls} {i : ℕ} {t : Calling} {op : Op} {k : Ans op → M Bool}
  {ans : Ans op} {s' : TokenBucketLimiter}

-- every limiter in use was made for the key it is used for
structure Owned (c : Calls) : Prop where
  stored : ∀ k l, c.shared.limiters k = some l → MadeFor c.shared l k
  given : ∀ t ∈ c.threads, ∀ l ∈ given t.trace, MadeFor c.shared l t.call

theorem Owned.start (h : Owned c) (call : String) :
    Owned { c with threads := c.threads ++ [⟨call,allow call,[],true⟩] } := by
  refine ⟨h.stored,fun t ht l hl => ?_⟩
  rcases List.mem_append.mp ht with ht | ht
  · exact h.given t ht l hl
  · rw [List.mem_singleton.mp ht] at hl
    cases hl

theorem Owned.exec (h : Owned c) (ht : c.threads[i]? = some t)
    (hpre : (discipline t.call).pre t.trace op) (he : Effect burst c.shared ⟨op,ans⟩ s') :
    Owned ⟨s',c.threads.set i { t with rest := k ans, trace := ⟨op,ans⟩ :: t.trace }⟩ := by
  have hold : ∀ u ∈ c.threads, ∀ l ∈ RateLimit.given u.trace, MadeFor s' l u.call :=
    fun u hu l hl => (h.given u hu l hl).mono he
  have htold := hold t (List.mem_of_getElem? ht)
  have hstored : ∀ k l, c.shared.limiters k = some l → MadeFor s' l k :=
    fun k l hl => (h.stored k l hl).mono he
  refine ⟨?_,Machine.forall_mem_set hold ?_⟩
  · intro key l hl
    cases he with
    | load key' => exact hstored key l hl
    | store key' l' hfree =>
      dsimp only at hl
      split_ifs at hl with hkey
      · cases hl
        exact ⟨burst.toInt.toNat,by simp [put,hkey,full]⟩
      · exact hstored key l hl
    | granted l' b hb hpos => exact hstored key l hl
    | refused l' => exact hstored key l hl
  · intro l hl
    cases he with
    | load key' =>
      obtain ⟨_,rfl⟩ := hpre
      cases hload : c.shared.limiters t.call with
      | none =>
        rw [hload] at hl
        exact htold l hl
      | some l' =>
        rw [hload] at hl
        rcases List.mem_cons.mp hl with rfl | hl
        · exact hstored _ _ hload
        · exact htold l hl
    | store key' l' hfree =>
      obtain ⟨_,rfl⟩ := hpre
      rcases List.mem_cons.mp hl with rfl | hl
      · exact ⟨burst.toInt.toNat,by simp [put,full]⟩
      · exact htold l hl
    | granted l' b hb hpos => exact htold l hl
    | refused l' => exact htold l hl

theorem Owned.crash (h : Owned c) (ht : c.threads[i]? = some t) :
    Owned { c with threads := c.threads.set i { t with alive := false } } :=
  ⟨h.stored,Machine.forall_mem_set h.given (h.given t (List.mem_of_getElem? ht))⟩

-- the invariant together with where each call stands in its program
def Running (c : Calls) : Prop :=
  Owned c ∧ Machine.ThreadsMeet (fun key => discipline key) (fun _ => Answered) c

theorem running_step {a : Act} {c' : Calls} (h : Running c)
    (hs : (limiter burst).step c a = some c') : Running c' := by
  obtain ⟨ho,hm⟩ := h
  refine ⟨?_,hm.step (m := limiter burst) meets_allow (fun _ _ _ _ _ _ _ => trivial) hs⟩
  obtain ⟨call,rfl,rfl⟩ | ⟨i,x,t,op,k,ans,s',rfl,ht,hal,hrest,hx,rfl⟩ | ⟨i,t,rfl,ht,rfl⟩ |
    ⟨e,rfl,rfl⟩ := (limiter burst).step_cases hs
  · exact ho.start call
  · have hmeet := hm t (List.mem_of_getElem? ht)
    rw [hrest,Prog.meets_call] at hmeet
    exact ho.exec ht hmeet.1 (exec_effect hx)
  · exact ho.crash ht
  · exact ho

theorem running_started : Running started :=
  ⟨⟨by simp [started,newTokenBucketLimiter],by simp [started]⟩,by simp [started,Machine.ThreadsMeet]⟩

end Ownership

section Separation

variable {burst : Int64} {key : String}

-- the limiter of one key, seen from two states
structure SameFor (key : String) (s s₁ : TokenBucketLimiter) : Prop where
  limiters : s.limiters key = s₁.limiters key
  buckets : ∀ l n, s.buckets l = some ⟨key,n⟩ ↔ s₁.buckets l = some ⟨key,n⟩
  free : ∀ l, s.buckets l = none → s₁.buckets l = none

theorem SameFor.put {s s₁ : TokenBucketLimiter} (h : SameFor key s s₁) (l : ℕ) (b : Bucket) :
    SameFor key (put s l b) (put s₁ l b) := by
  refine ⟨h.limiters,fun l' n => ?_,fun l' hfree => ?_⟩
  · simp only [RateLimit.put]
    split_ifs
    · exact Iff.rfl
    · exact h.buckets l' n
  · simp only [RateLimit.put] at hfree ⊢
    split_ifs at hfree ⊢
    exact h.free l' hfree

theorem SameFor.put_other {s s₁ : TokenBucketLimiter} (h : SameFor key s s₁) {l : ℕ} {b : Bucket}
    (hb : b.key ≠ key) (hl : ∀ n, s.buckets l ≠ some ⟨key,n⟩) : SameFor key (RateLimit.put s l b) s₁ := by
  refine ⟨h.limiters,fun l' n => ?_,fun l' hfree => ?_⟩
  · simp only [RateLimit.put]
    split_ifs with heq
    · subst heq
      rw [← h.buckets]
      refine iff_of_false (fun hsome => hb ?_) (hl n)
      rw [Option.some.inj hsome]
    · exact h.buckets l' n
  · simp only [RateLimit.put] at hfree
    split_ifs at hfree
    exact h.free l' hfree

theorem frame_key (key : String) :
    Machine.Frame (limiter burst) (fun k => k = key) (SameFor key) Running where
  kept := by
    intro c i t op k x ans s' s₁ hJ ht hp hrest hR hx
    obtain ⟨ho,hm⟩ := hJ
    have hmeet := hm t (List.mem_of_getElem? ht)
    rw [hrest,Prog.meets_call] at hmeet
    obtain ⟨_,hpre⟩ := hmeet.1
    have hkey : t.call = key := by simpa using hp
    cases op with
    | load k =>
      simp only at hpre
      subst hpre
      simp only [limiter,exec,Option.some.injEq,Prod.mk.injEq] at hx
      obtain ⟨rfl,rfl⟩ := hx
      exact ⟨s₁,by simp [limiter,exec,hkey,hR.limiters],hR⟩
    | store k =>
      simp only at hpre
      subst hpre
      simp only [limiter,exec] at hx
      split_ifs at hx with hfree
      simp only [Option.some.injEq,Prod.mk.injEq] at hx
      obtain ⟨rfl,rfl⟩ := hx
      refine ⟨{ put s₁ x (full burst t.call) with
        limiters := fun k => if k = t.call then some x else s₁.limiters k },
        by simp only [limiter,exec,if_pos (hR.free _ hfree)],?_,?_,?_⟩
      · simp [hkey]
      · exact (hR.put _ _).buckets
      · exact (hR.put _ _).free
    | allow l =>
      obtain ⟨n,hn⟩ := ho.given t (List.mem_of_getElem? ht) l hpre
      rw [hkey] at hn
      have hn₁ := (hR.buckets l n).mp hn
      simp only [limiter,exec,hn] at hx
      split_ifs at hx with hpos
      · simp only [Option.some.injEq,Prod.mk.injEq] at hx
        obtain ⟨rfl,rfl⟩ := hx
        exact ⟨put s₁ l ⟨key,n-1⟩,by simp only [limiter,exec,hn₁,if_pos hpos],hR.put _ _⟩
      · simp only [Option.some.injEq,Prod.mk.injEq] at hx
        obtain ⟨rfl,rfl⟩ := hx
        exact ⟨s₁,by simp only [limiter,exec,hn₁,if_neg hpos],hR⟩
  dropped := by
    intro c i t op k x ans s' s₁ hJ ht hp hrest hR hx
    obtain ⟨ho,hm⟩ := hJ
    have hmeet := hm t (List.mem_of_getElem? ht)
    rw [hrest,Prog.meets_call] at hmeet
    obtain ⟨_,hpre⟩ := hmeet.1
    have hkey : t.call ≠ key := by simpa using hp
    cases op with
    | load k =>
      simp only [limiter,exec,Option.some.injEq,Prod.mk.injEq] at hx
      exact hx.2 ▸ hR
    | store k =>
      simp only at hpre
      subst hpre
      simp only [limiter,exec] at hx
      split_ifs at hx with hfree
      simp only [Option.some.injEq,Prod.mk.injEq] at hx
      obtain ⟨rfl,rfl⟩ := hx
      have hput : SameFor key (put c.shared x (full burst t.call)) s₁ :=
        hR.put_other hkey fun n => by simp [hfree]
      refine ⟨?_,hput.buckets,hput.free⟩
      simp only [if_neg (Ne.symm hkey)]
      exact hR.limiters
    | allow l =>
      obtain ⟨n,hn⟩ := ho.given t (List.mem_of_getElem? ht) l hpre
      simp only [limiter,exec,hn] at hx
      split_ifs at hx with hpos
      · simp only [Option.some.injEq,Prod.mk.injEq] at hx
        obtain ⟨rfl,rfl⟩ := hx
        refine hR.put_other hkey fun n' hsome => hkey ?_
        rw [hn,Option.some.injEq,Bucket.mk.injEq] at hsome
        exact hsome.1
      · simp only [Option.some.injEq,Prod.mk.injEq] at hx
        exact hx.2 ▸ hR
  env := fun _ _ e => e.elim

end Separation

section Burst

variable {burst : Int64} {key : String}

def taken (key : String) (t : Calling) : Bool := t.call = key && granted t.trace

-- no limiter is stored over another one of the key
def storesOnce (key : String) (c : Calls) (a : Act) : Bool :=
  match c.next a with
  | some (_,.store k,_) => k ≠ key || c.shared.limiters key = none
  | _ => true

structure Single (burst : Int64) (key : String) (c : Calls) : Prop where
  one : ∀ t ∈ c.threads, t.call = key → ∀ l ∈ given t.trace, c.shared.limiters key = some l
  unseen : c.shared.limiters key = none → c.threads.countP (taken key) = 0
  tokens : ∀ l, c.shared.limiters key = some l → ∃ n, c.shared.buckets l = some ⟨key,n⟩ ∧
    n+c.threads.countP (taken key) = burst.toInt.toNat

def admitted (key : String) (t : Calling) : Bool :=
  t.call = key && match t.rest with
    | .ret b => b
    | _ => false

variable {c : Calls} {i : ℕ} {t : Calling} {op : Op} {k : Ans op → M Bool} {ans : Ans op}
  {s' : TokenBucketLimiter}

-- an operation that takes no token of the key and gives none of its limiters
theorem Single.quiet {ev : Event Ans} {rest : M Bool} (h : Single burst key c)
    (ht : c.threads[i]? = some t)
    (hone : t.call = key → ∀ l ∈ given (ev :: t.trace), s'.limiters key = some l)
    (htaken : granted (ev :: t.trace) = true → t.call ≠ key) (hgranted : granted t.trace = false)
    (hlimiters : s'.limiters key = c.shared.limiters key)
    (hbuckets : ∀ l n, c.shared.buckets l = some ⟨key,n⟩ → s'.buckets l = some ⟨key,n⟩) :
    Single burst key ⟨s',c.threads.set i { t with rest := rest, trace := ev :: t.trace }⟩ := by
  have hcount : (c.threads.set i { t with rest := rest, trace := ev :: t.trace }).countP
      (taken key) = c.threads.countP (taken key) := by
    apply Machine.countP_set_of_same ht
    have hbefore : taken key t = false := by simp [taken,hgranted]
    rw [hbefore]
    by_contra hafter
    simp only [taken,Bool.not_eq_false,Bool.and_eq_true,decide_eq_true_eq] at hafter
    exact htaken hafter.2 hafter.1
  refine ⟨?_,?_,?_⟩
  · refine Machine.forall_mem_set ?_ hone
    intro u hu hkey l hl
    rw [hlimiters]
    exact h.one u hu hkey l hl
  · intro hnone
    rw [hlimiters] at hnone
    exact hcount.trans (h.unseen hnone)
  · intro l hl
    rw [hlimiters] at hl
    obtain ⟨n,hn,hsum⟩ := h.tokens l hl
    exact ⟨n,hbuckets l n hn,by rw [hcount]; exact hsum⟩

-- the first limiter of the key: no call has one yet
theorem Single.stored {rest : M Bool} {l' : ℕ} (h : Single burst t.call c)
    (ht : c.threads[i]? = some t) (hgranted : granted t.trace = false)
    (hnone : c.shared.limiters t.call = none) : Single burst t.call
      ⟨{ put c.shared l' (full burst t.call) with
          limiters := fun k => if k = t.call then some l' else c.shared.limiters k },
        c.threads.set i { t with rest := rest, trace := ⟨.store t.call,l'⟩ :: t.trace }⟩ := by
  have hcount : (c.threads.set i { t with
      rest := rest, trace := ⟨.store t.call,l'⟩ :: t.trace }).countP (taken t.call) = 0 := by
    rw [Machine.countP_set_of_same ht ?_,h.unseen hnone]
    have hnew : granted (⟨.store t.call,l'⟩ :: t.trace) = false := rfl
    simp [taken,hgranted,hnew]
  have hnot : ∀ u ∈ c.threads, u.call = t.call → given u.trace = [] := by
    intro u hu hcall
    rw [List.eq_nil_iff_forall_not_mem]
    intro l hl
    have hsome := h.one u hu hcall l hl
    rw [hnone] at hsome
    cases hsome
  refine ⟨Machine.forall_mem_set ?_ ?_,?_,?_⟩
  · intro u hu hcall l hl
    rw [hnot u hu hcall] at hl
    cases hl
  · intro _ l hl
    rw [given,hnot t (List.mem_of_getElem? ht) rfl,List.mem_singleton] at hl
    simp [hl]
  · intro _
    exact hcount
  · intro l hl
    simp only [if_true,Option.some.injEq] at hl
    subst hl
    exact ⟨burst.toInt.toNat,by simp [put,full],by rw [hcount,Nat.add_zero]⟩

theorem Single.took {rest : M Bool} {l' n : ℕ} (h : Single burst t.call c)
    (ht : c.threads[i]? = some t) (hgranted : granted t.trace = false) (hgiven : l' ∈ given t.trace)
    (hb : c.shared.buckets l' = some ⟨t.call,n⟩) (hpos : 0 < n) : Single burst t.call
      ⟨put c.shared l' ⟨t.call,n-1⟩,
        c.threads.set i { t with rest := rest, trace := ⟨.allow l',true⟩ :: t.trace }⟩ := by
  have hmem := List.mem_of_getElem? ht
  have hl := h.one t hmem rfl l' hgiven
  obtain ⟨n',hn',hsum⟩ := h.tokens l' hl
  rw [hb,Option.some.injEq,Bucket.mk.injEq] at hn'
  obtain ⟨-,rfl⟩ := hn'
  have hcount : (c.threads.set i { t with
      rest := rest, trace := ⟨.allow l',true⟩ :: t.trace }).countP (taken t.call) =
      c.threads.countP (taken t.call)+1 :=
    Machine.countP_set_of_new ht (by simp [taken,hgranted]) (by simp [taken,granted])
  refine ⟨Machine.forall_mem_set h.one fun _ l hmore => h.one t hmem rfl l hmore,?_,?_⟩
  · intro hnone
    exact absurd (hl.symm.trans hnone) (by simp)
  · intro l hl'
    have heq : l = l' := Option.some.inj (hl'.symm.trans hl)
    subst heq
    refine ⟨n-1,by simp [put],?_⟩
    rw [hcount]
    omega

theorem Single.exec (h : Single burst key c) (ho : Owned c) (ht : c.threads[i]? = some t)
    (hpre : (discipline t.call).pre t.trace op)
    (hstore : op = .store key → c.shared.limiters key = none)
    (he : Effect burst c.shared ⟨op,ans⟩ s') : Single burst key
      ⟨s',c.threads.set i { t with rest := k ans, trace := ⟨op,ans⟩ :: t.trace }⟩ := by
  have hmem := List.mem_of_getElem? ht
  cases he with
  | load key' =>
    obtain ⟨hgranted,rfl⟩ := hpre
    refine h.quiet ht ?_ ?_ hgranted rfl fun _ _ hb => hb
    · intro hkey l hl
      cases hload : c.shared.limiters t.call with
      | none =>
        rw [hload] at hl
        exact h.one t hmem hkey l hl
      | some l' =>
        rw [hload] at hl
        rcases List.mem_cons.mp hl with rfl | hl
        · rw [← hkey,hload]
        · exact h.one t hmem hkey l hl
    · intro hnew
      simp [granted] at hnew
  | store key' l' hfree =>
    obtain ⟨hgranted,rfl⟩ := hpre
    by_cases hkey : t.call = key
    · subst hkey
      exact h.stored ht hgranted (hstore rfl)
    · refine h.quiet ht (fun hcall => absurd hcall hkey) ?_ hgranted ?_ ?_
      · intro hnew
        simp [granted] at hnew
      · simp [Ne.symm hkey]
      · intro l n hb
        have hne : l ≠ l' := by
          rintro rfl
          rw [hfree] at hb
          cases hb
        simp [put,hne,hb]
  | granted l' b hb hpos =>
    obtain ⟨hgranted,hgiven⟩ := hpre
    obtain ⟨n,hn⟩ := ho.given t hmem l' hgiven
    rw [hb,Option.some.injEq] at hn
    subst hn
    by_cases hkey : t.call = key
    · subst hkey
      exact h.took ht hgranted hgiven hb hpos
    · refine h.quiet ht (fun hcall => absurd hcall hkey) (fun _ => hkey) hgranted rfl ?_
      intro l n' hb'
      have hne : l ≠ l' := by
        rintro rfl
        rw [hb,Option.some.injEq,Bucket.mk.injEq] at hb'
        exact hkey hb'.1
      simp [put,hne,hb']
  | refused l' =>
    obtain ⟨hgranted,_⟩ := hpre
    refine h.quiet ht ?_ ?_ hgranted rfl fun _ _ hb => hb
    · exact fun hkey l hl => h.one t hmem hkey l hl
    · intro hnew
      cases hnew

theorem single_step {a : Act} {c' : Calls} (h : Single burst key c) (hr : Running c)
    (hP : storesOnce key c a = true) (hs : (limiter burst).step c a = some c') :
    Single burst key c' := by
  obtain ⟨ho,hm⟩ := hr
  obtain ⟨call,rfl,rfl⟩ | ⟨i,x,t,op,k,ans,s',rfl,ht,hal,hrest,hx,rfl⟩ | ⟨i,t,rfl,ht,rfl⟩ |
    ⟨e,rfl,rfl⟩ := (limiter burst).step_cases hs
  · have hcount : (c.threads ++ [(⟨call,allow call,[],true⟩ : Calling)]).countP (taken key) =
        c.threads.countP (taken key) := by simp [taken,granted]
    refine ⟨?_,fun hnone => hcount.trans (h.unseen hnone),fun l hl => ?_⟩
    · intro t ht hkey l hl
      rcases List.mem_append.mp ht with ht | ht
      · exact h.one t ht hkey l hl
      · rw [List.mem_singleton.mp ht] at hl
        cases hl
    · obtain ⟨n,hn,hsum⟩ := h.tokens l hl
      exact ⟨n,hn,hcount ▸ hsum⟩
  · have hmeet := hm t (List.mem_of_getElem? ht)
    rw [hrest,Prog.meets_call] at hmeet
    refine h.exec ho ht hmeet.1 ?_ (exec_effect hx)
    rintro rfl
    rw [storesOnce,Config.next_exec ht hal hrest] at hP
    simpa using hP
  · have hcount : (c.threads.set i { t with alive := false }).countP (taken key) =
        c.threads.countP (taken key) := Machine.countP_set_of_same ht rfl
    refine ⟨Machine.forall_mem_set h.one (h.one t (List.mem_of_getElem? ht)),
      fun hnone => hcount.trans (h.unseen hnone),fun l hl => ?_⟩
    obtain ⟨n,hn,hsum⟩ := h.tokens l hl
    exact ⟨n,hn,hcount.symm ▸ hsum⟩
  · exact h

theorem single_started : Single burst key started :=
  ⟨by simp [started],by simp [started],by simp [started,newTokenBucketLimiter]⟩

theorem admitted_le_taken (hm : Machine.ThreadsMeet (fun key => discipline key)
    (fun _ => Answered) c) : c.threads.countP (admitted key) ≤ c.threads.countP (taken key) := by
  refine List.countP_mono_left fun t ht hadmitted => ?_
  simp only [admitted,Bool.and_eq_true,decide_eq_true_eq] at hadmitted
  have hmeet := hm t ht
  cases hrest : t.rest with
  | ret b =>
    rw [hrest] at hmeet hadmitted
    have hpost : granted t.trace = b := hmeet
    simp [taken,hadmitted.1,hpost,hadmitted.2]
  | fail e => exact e.elim
  | call op k => simp [hrest] at hadmitted

theorem single_bound (h : Single burst key c) :
    c.threads.countP (taken key) ≤ burst.toInt.toNat := by
  cases hl : c.shared.limiters key with
  | none => rw [h.unseen hl]; exact Nat.zero_le _
  | some l =>
    obtain ⟨n,_,hsum⟩ := h.tokens l hl
    omega

theorem burst_enforced_per_key (burst : Int64) (key : String) (acts : List Act) (c' : Calls)
    (hrun : (limiter burst).run acts started = some c') :
    ((limiter burst).Along (fun c a => storesOnce key c a = true) acts started →
      c'.threads.countP (admitted key) ≤ burst.toInt.toNat) ∧
    ∃ acts' c'', (∀ k, .start k ∈ acts' → k = key) ∧
      (limiter burst).run acts' started = some c'' ∧
      c''.threads = c'.threads.filter fun t => t.call = key := by
  refine ⟨fun hP => ?_,?_⟩
  · have hboth : Single burst key c' ∧ Running c' := by
      refine (limiter burst).run_invariant (I := fun c => Single burst key c ∧ Running c) ?_
        ⟨single_started,running_started⟩ hP hrun
      rintro c a c' ⟨hsingle,hrunning⟩ hPa hs
      exact ⟨single_step hsingle hrunning hPa hs,running_step hrunning hs⟩
    exact Nat.le_trans (admitted_le_taken hboth.2.2) (single_bound hboth.1)
  · have hsame : SameFor key started.shared started.shared := ⟨rfl,fun _ _ => Iff.rfl,fun _ h => h⟩
    obtain ⟨c'',hrun',_,hthreads⟩ := Machine.project_run (frame_key key)
      (fun c a c' => running_step) running_started hrun hsame rfl
    exact ⟨_,c'',fun k hk => by simpa using Machine.start_of_mem_project hk,hrun',hthreads⟩

-- the second call finds the limiter of the first
def oneLimiter : List Act :=
  [.start "10.0.0.7",.exec 0 0,.start "10.0.0.7",.exec 0 0,.exec 1 0,.exec 1 0,.exec 0 0]

theorem second_call_refused : ∃ c', (limiter 1).run oneLimiter started = some c' ∧
    c'.threads.map (admitted "10.0.0.7") = [false,true] ∧
    c'.threads.countP (admitted "10.0.0.7") ≤ 1 := by
  have hresult : ((limiter 1).run oneLimiter started).map
      (fun c => c.threads.map (admitted "10.0.0.7")) = some [false,true] := by decide +kernel
  obtain ⟨c',hrun,hadmitted⟩ := Option.map_eq_some_iff.mp hresult
  exact ⟨c',hrun,hadmitted,
    (burst_enforced_per_key 1 "10.0.0.7" oneLimiter c' hrun).1 (by decide +kernel)⟩

-- both calls miss before either stores
def twoLimiters : List Act :=
  [.start "10.0.0.7",.start "10.0.0.7",.exec 0 0,.exec 1 0,.exec 0 0,.exec 1 1,.exec 0 0,.exec 1 0]

theorem concurrent_first_calls_exceed_burst :
    ¬∀ (burst : Int64) (key : String) (acts : List Act) (c' : Calls),
      (limiter burst).run acts started = some c' →
        c'.threads.countP (admitted key) ≤ burst.toInt.toNat := by
  intro h
  have hresult : ((limiter 1).run twoLimiters started).map
      (fun c => c.threads.countP (admitted "10.0.0.7")) = some 2 := by decide +kernel
  obtain ⟨c',hrun,hadmitted⟩ := Option.map_eq_some_iff.mp hresult
  have hle := h 1 "10.0.0.7" twoLimiters c' hrun
  rw [hadmitted] at hle
  exact absurd hle (by decide)

end Burst

end Nimburion.HTTP.RateLimit
