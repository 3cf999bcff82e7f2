import Nimburion.Lib.Interaction

namespace Nimburion.Interaction.Machine

section Filtering

variable {α : Type} (q : α → Bool)

-- the place of the i-th element among those that are kept
def rank (ts : List α) (i : ℕ) : ℕ := (ts.take i).countP q

theorem getElem?_rank {ts : List α} {i : ℕ} {t : α} (ht : ts[i]? = some t) (hq : q t = true) :
    (ts.filter q)[rank q ts i]? = some t := by
  induction ts generalizing i with
  | nil => cases ht
  | cons u ts ih =>
    cases i with
    | zero =>
      simp only [List.getElem?_cons_zero,Option.some.injEq] at ht
      subst ht
      simp [rank,List.filter_cons_of_pos hq]
    | succ i =>
      have hrest := ih (by simpa using ht)
      cases hu : q u with
      | true =>
        rw [List.filter_cons_of_pos hu,rank,List.take_succ_cons,List.countP_cons_of_pos hu,
          List.getElem?_cons_succ]
        exact hrest
      | false =>
        rw [List.filter_cons_of_neg (by simp [hu]),rank,List.take_succ_cons,
          List.countP_cons_of_neg (by simp [hu])]
        exact hrest

theorem filter_set_of_kept {ts : List α} {i : ℕ} {t t' : α} (ht : ts[i]? = some t)
    (hq : q t = true) (hq' : q t' = true) :
    (ts.set i t').filter q = (ts.filter q).set (rank q ts i) t' := by
  induction ts generalizing i with
  | nil => cases ht
  | cons u ts ih =>
    cases i with
    | zero =>
      simp only [List.getElem?_cons_zero,Option.some.injEq] at ht
      subst ht
      simp [rank,List.filter_cons_of_pos hq,List.filter_cons_of_pos hq']
    | succ i =>
      have hrest := ih (by simpa using ht)
      cases hu : q u with
      | true =>
        rw [List.set_cons_succ,List.filter_cons_of_pos hu,List.filter_cons_of_pos hu,rank,
          List.take_succ_cons,List.countP_cons_of_pos hu,List.set_cons_succ]
        exact congrArg (u :: ·) hrest
      | false =>
        have hneg : ¬q u = true := by simp [hu]
        rw [List.set_cons_succ,List.filter_cons_of_neg hneg,List.filter_cons_of_neg hneg,rank,
          List.take_succ_cons,List.countP_cons_of_neg hneg]
        exact hrest

theorem filter_set_of_dropped {ts : List α} {i : ℕ} {t t' : α} (ht : ts[i]? = some t)
    (hq : q t = false) (hq' : q t' = false) : (ts.set i t').filter q = ts.filter q := by
  induction ts generalizing i with
  | nil => cases ht
  | cons u ts ih =>
    cases i with
    | zero =>
      simp only [List.getElem?_cons_zero,Option.some.injEq] at ht
      subst ht
      simp [hq,hq']
    | succ i =>
      rw [List.set_cons_succ,List.filter_cons,List.filter_cons,ih (by simpa using ht)]

end Filtering

variable {Op : Type} {Ans : Op → Type} {ε σ ι ρ χ ν : Type} (m : Machine Ans ε σ ι ρ χ ν)
  (p : ι → Bool)

def keeps (t : Thread Ans ε ι ρ) : Bool := p t.call

-- the actions of the calls that are kept
def projectAct (c : Config Ans ε σ ι ρ) : Action ι χ ν → List (Action ι χ ν)
  | .start call => if p call then [.start call] else []
  | .exec i x => match c.threads[i]? with
      | some t => if p t.call then [.exec (rank (keeps p) c.threads i) x] else []
      | none => []
  | .crash i => match c.threads[i]? with
      | some t => if p t.call then [.crash (rank (keeps p) c.threads i)] else []
      | none => []
  | .env e => [.env e]

def project : Config Ans ε σ ι ρ → List (Action ι χ ν) → List (Action ι χ ν)
  | _,[] => []
  | c,a :: acts => match m.step c a with
      | some c' => projectAct p c a ++ project c' acts
      | none => []

-- what the kept calls see of the shared state
structure Frame (R : σ → σ → Prop) (J : Config Ans ε σ ι ρ → Prop) : Prop where
  kept : ∀ c (i : ℕ) (t : Thread Ans ε ι ρ) op k x ans s' s₁, J c → c.threads[i]? = some t → p t.call = true →
    t.rest = .call op k → R c.shared s₁ → m.exec c.shared op x = some (ans,s') →
    ∃ s₁', m.exec s₁ op x = some (ans,s₁') ∧ R s' s₁'
  dropped : ∀ c (i : ℕ) (t : Thread Ans ε ι ρ) op k x ans s' s₁, J c → c.threads[i]? = some t → p t.call = false →
    t.rest = .call op k → R c.shared s₁ → m.exec c.shared op x = some (ans,s') → R s' s₁
  env : ∀ s s₁ e, R s s₁ → R (m.env s e) (m.env s₁ e)

variable {m p} {R : σ → σ → Prop} {J : Config Ans ε σ ι ρ → Prop}

theorem projectAct_run (hf : Frame m p R J) {c c' d : Config Ans ε σ ι ρ} {a : Action ι χ ν}
    (hJ : J c) (hs : m.step c a = some c') (hR : R c.shared d.shared)
    (hd : d.threads = c.threads.filter (keeps p)) :
    ∃ d', m.run (projectAct p c a) d = some d' ∧ R c'.shared d'.shared ∧
      d'.threads = c'.threads.filter (keeps p) := by
  obtain ⟨call,rfl,rfl⟩ | ⟨i,x,t,op,k,ans,s',rfl,ht,hal,hrest,hx,rfl⟩ | ⟨i,t,rfl,ht,rfl⟩ |
    ⟨e,rfl,rfl⟩ := m.step_cases hs
  · cases hp : p call with
    | true =>
      refine ⟨{ d with threads := d.threads ++ [⟨call,m.program call,[],true⟩] },
        by simp [projectAct,hp,run_cons,run_nil,step],hR,?_⟩
      simp [hd,keeps,hp]
    | false =>
      refine ⟨d,by simp [projectAct,hp,run_nil],hR,?_⟩
      simp [hd,keeps,hp]
  · have hsame : keeps p { t with rest := k ans, trace := ⟨op,ans⟩ :: t.trace } = p t.call := rfl
    cases hp : p t.call with
    | true =>
      obtain ⟨s₁',hx',hR'⟩ := hf.kept c i t op k x ans s' d.shared hJ ht hp hrest hR hx
      have hthere : d.threads[rank (keeps p) c.threads i]? = some t := by
        rw [hd]
        exact getElem?_rank (keeps p) ht hp
      refine ⟨⟨s₁',d.threads.set (rank (keeps p) c.threads i)
        { t with rest := k ans, trace := ⟨op,ans⟩ :: t.trace }⟩,?_,hR',?_⟩
      · simp only [projectAct,ht,hp,if_true,run_cons,run_nil,m.step_exec hthere hal hrest hx',Option.bind_some]
      · rw [hd]
        exact (filter_set_of_kept (keeps p) ht hp (hsame.trans hp)).symm
    | false =>
      refine ⟨d,by simp [projectAct,ht,hp,run_nil],?_,?_⟩
      · exact hf.dropped c i t op k x ans s' d.shared hJ ht hp hrest hR hx
      · rw [hd]
        exact (filter_set_of_dropped (keeps p) ht hp (hsame.trans hp)).symm
  · have hsame : keeps p { t with alive := false } = p t.call := rfl
    cases hp : p t.call with
    | true =>
      have hthere : d.threads[rank (keeps p) c.threads i]? = some t := by
        rw [hd]
        exact getElem?_rank (keeps p) ht hp
      refine ⟨⟨d.shared,d.threads.set (rank (keeps p) c.threads i) { t with alive := false }⟩,
        ?_,hR,?_⟩
      · simp only [projectAct,ht,hp,if_true,run_cons,run_nil,step,hthere,Option.map_some,Option.bind_some]
      · rw [hd]
        exact (filter_set_of_kept (keeps p) ht hp (hsame.trans hp)).symm
    | false =>
      refine ⟨d,by simp [projectAct,ht,hp,run_nil],hR,?_⟩
      rw [hd]
      exact (filter_set_of_dropped (keeps p) ht hp (hsame.trans hp)).symm
  · exact ⟨{ d with shared := m.env d.shared e },by simp [projectAct,run_cons,run_nil,step],hf.env _ _ e hR,hd⟩

-- a run without the other calls in which the kept calls do the same
theorem project_run (hf : Frame m p R J)
    (hJ : ∀ c a c', J c → m.step c a = some c' → J c') {acts : List (Action ι χ ν)}
    {c c' d : Config Ans ε σ ι ρ} (hc : J c) (hrun : m.run acts c = some c')
    (hR : R c.shared d.shared) (hd : d.threads = c.threads.filter (keeps p)) :
    ∃ d', m.run (m.project p c acts) d = some d' ∧ R c'.shared d'.shared ∧
      d'.threads = c'.threads.filter (keeps p) := by
  induction acts generalizing c d with
  | nil =>
    simp only [run_nil,Option.some.injEq] at hrun
    subst hrun
    exact ⟨d,rfl,hR,hd⟩
  | cons a acts ih =>
    simp only [run_cons,Option.bind_eq_some_iff] at hrun
    obtain ⟨c₁,hs,hrun⟩ := hrun
    obtain ⟨d₁,hd₁,hR₁,hthreads⟩ := projectAct_run hf hc hs hR hd
    obtain ⟨d',hd',hR',hthreads'⟩ := ih (hJ c a c₁ hc hs) hrun hR₁ hthreads
    refine ⟨d',?_,hR',hthreads'⟩
    simp only [project,hs]
    rw [run_append,hd₁,Option.bind_some,hd']

theorem start_of_mem_project {acts : List (Action ι χ ν)} {c : Config Ans ε σ ι ρ} {call : ι}
    (h : .start call ∈ m.project p c acts) : p call = true := by
  induction acts generalizing c with
  | nil => cases h
  | cons a acts ih =>
    simp only [project] at h
    cases hs : m.step c a with
    | none => simp [hs] at h
    | some c' =>
      simp only [hs,List.mem_append] at h
      rcases h with h | h
      · cases a with
        | start other =>
          simp only [projectAct] at h
          split_ifs at h with hp
          · simp only [List.mem_singleton,Action.start.injEq] at h
            rw [h]
            exact hp
          · cases h
        | exec i x =>
          simp only [projectAct] at h
          split at h
          · split_ifs at h <;> simp at h
          · cases h
        | crash i =>
          simp only [projectAct] at h
          split at h
          · split_ifs at h <;> simp at h
          · cases h
        | env e => simp [projectAct] at h
      · exact ih h

end Nimburion.Interaction.Machine
