import Nimburion.Lib.Interaction
import Mathlib.Data.List.Induction

namespace Nimburion.Interaction

theorem Prog.Disciplined.at {Op : Type} {Ans : Op → Type} {S : Spec Ans} {ev : Event Ans}
    {before : List (Event Ans)} (later : List (Event Ans))
    (h : Prog.Disciplined S (later ++ ev :: before)) : S.pre before ev.op := by
  induction later with
  | nil => exact h.1
  | cons e later ih => exact ih h.2

namespace Machine

variable {Op : Type} {Ans : Op → Type} {ε σ ι ρ χ ν : Type} (m : Machine Ans ε σ ι ρ χ ν)

-- where the events of a thread's trace come from
theorem step_trace {c c' : Config Ans ε σ ι ρ} {a : Action ι χ ν} (hs : m.step c a = some c')
    {i : ℕ} {t' : Thread Ans ε ι ρ} (ht' : c'.threads[i]? = some t') :
    t'.trace = [] ∨ ∃ t, c.threads[i]? = some t ∧ t.call = t'.call ∧ (t'.trace = t.trace ∨
      ∃ x op ans k, a = .exec i x ∧ t.rest = .call op k ∧
        m.exec c.shared op x = some (ans,c'.shared) ∧ t'.trace = ⟨op,ans⟩ :: t.trace) := by
  obtain ⟨call,rfl,rfl⟩ | ⟨j,x,u,op,k,ans,s',rfl,hu,hal,hrest,hx,rfl⟩ | ⟨j,u,rfl,hu,rfl⟩ |
    ⟨e,rfl,rfl⟩ := m.step_cases hs
  · rw [List.getElem?_append] at ht'
    split_ifs at ht'
    · exact .inr ⟨t',ht',rfl,.inl rfl⟩
    · have hmem := List.mem_of_getElem? ht'
      rw [List.mem_singleton] at hmem
      exact .inl (by rw [hmem])
  · rcases of_getElem?_set ht' with ⟨rfl,rfl⟩ | ⟨_,h⟩
    · exact .inr ⟨u,hu,rfl,.inr ⟨x,op,ans,k,rfl,hrest,hx,rfl⟩⟩
    · exact .inr ⟨t',h,rfl,.inl rfl⟩
  · rcases of_getElem?_set ht' with ⟨rfl,rfl⟩ | ⟨_,h⟩
    · exact .inr ⟨u,hu,rfl,.inl rfl⟩
    · exact .inr ⟨t',h,rfl,.inl rfl⟩
  · exact .inr ⟨t',ht',rfl,.inl rfl⟩

theorem disciplined_step {S : ι → Spec Ans} {post : ι → List (Event Ans) → Except ε ρ → Prop}
    {c c' : Config Ans ε σ ι ρ} {a : Action ι χ ν} (hmeet : ThreadsMeet S post c)
    (h : ∀ t ∈ c.threads, Prog.Disciplined (S t.call) t.trace) (hs : m.step c a = some c') :
    ∀ t ∈ c'.threads, Prog.Disciplined (S t.call) t.trace := by
  obtain ⟨call,rfl,rfl⟩ | ⟨i,x,t,op,k,ans,s',rfl,ht,hal,hrest,hx,rfl⟩ | ⟨i,t,rfl,ht,rfl⟩ |
    ⟨e,rfl,rfl⟩ := m.step_cases hs
  · intro t ht
    rcases List.mem_append.mp ht with ht | ht
    · exact h t ht
    · rw [List.mem_singleton.mp ht]
      trivial
  · have hm := hmeet t (List.mem_of_getElem? ht)
    rw [hrest,Prog.meets_call] at hm
    exact forall_mem_set h ⟨hm.1,h t (List.mem_of_getElem? ht)⟩
  · exact forall_mem_set h (h t (List.mem_of_getElem? ht))
  · exact h

-- the step of a run that put an event on a thread's trace
structure Happened (acts : List (Action ι χ ν)) (c c' : Config Ans ε σ ι ρ) (i : ℕ)
    (call : ι) (before : List (Event Ans)) (ev : Event Ans) where
  pre : List (Action ι χ ν)
  choice : χ
  post : List (Action ι χ ν)
  source : Config Ans ε σ ι ρ
  target : Config Ans ε σ ι ρ
  thread : Thread Ans ε ι ρ
  split : acts = pre ++ .exec i choice :: post
  reached : m.run pre c = some source
  stepped : m.step source (.exec i choice) = some target
  rest : m.run post target = some c'
  there : source.threads[i]? = some thread
  called : thread.call = call
  trace : thread.trace = before
  effect : m.exec source.shared ev.op choice = some (ev.ans,target.shared)

theorem run_of_step {c d : Config Ans ε σ ι ρ} {a : Action ι χ ν} (hs : m.step c a = some d)
    (acts : List (Action ι χ ν)) : m.run (a :: acts) c = m.run acts d := by
  rw [run_cons,hs,Option.bind_some]

namespace Happened

variable {m} {acts more acts' : List (Action ι χ ν)} {c d c' : Config Ans ε σ ι ρ} {i : ℕ}
  {call call' : ι}
  {before : List (Event Ans)} {ev : Event Ans}

def extend (h : m.Happened acts c d i call before ev) (hrun : m.run more d = some c')
    (hacts : acts' = acts ++ more) (hcall : call = call') :
    m.Happened acts' c c' i call' before ev :=
  { h with
    post := h.post ++ more
    split := by simpa using hacts.trans (congrArg (· ++ more) h.split)
    called := h.called.trans hcall
    rest := by rw [run_append,h.rest,Option.bind_some]; exact hrun }

theorem run_source (h : m.Happened acts c c' i call before ev) :
    m.run (.exec i h.choice :: h.post) h.source = some c' := by
  rw [m.run_of_step h.stepped,h.rest]

end Happened

theorem run_event {acts : List (Action ι χ ν)} {c c' : Config Ans ε σ ι ρ}
    (hc : c.threads = []) (hrun : m.run acts c = some c') {i : ℕ} {t : Thread Ans ε ι ρ}
    (ht : c'.threads[i]? = some t) (later : List (Event Ans)) {before : List (Event Ans)}
    {ev : Event Ans} (htrace : t.trace = later ++ ev :: before) :
    Nonempty (m.Happened acts c c' i t.call before ev) := by
  induction acts using List.reverseRecOn generalizing c' t later with
  | nil =>
    simp only [run_nil,Option.some.injEq] at hrun
    subst hrun
    simp [hc] at ht
  | append_singleton acts a ih =>
    rw [run_append,Option.bind_eq_some_iff] at hrun
    obtain ⟨d,hd,hlast⟩ := hrun
    have hs : m.step d a = some c' := by
      cases hs : m.step d a with
      | none => simp [run_cons,hs] at hlast
      | some e => simpa [run_cons,run_nil,hs] using hlast
    have hextend : ∀ {u : Thread Ans ε ι ρ} {later' : List (Event Ans)}, d.threads[i]? = some u →
        u.call = t.call → u.trace = later' ++ ev :: before →
        Nonempty (m.Happened (acts ++ [a]) c c' i t.call before ev) := by
      intro u later' hu hcall hutrace
      obtain ⟨h⟩ := ih hd hu later' hutrace
      exact ⟨h.extend hlast rfl hcall⟩
    rcases m.step_trace hs ht with hnil | ⟨u,hu,hcall,hsame | ⟨x,op,ans,k,rfl,hrest,hx,hcons⟩⟩
    · rw [hnil] at htrace
      simp at htrace
    · exact hextend hu hcall (hsame ▸ htrace)
    · cases later with
      | nil =>
        rw [hcons,List.nil_append,List.cons.injEq] at htrace
        obtain ⟨rfl,rfl⟩ := htrace
        exact ⟨⟨acts,x,[],d,c',u,rfl,hd,hs,rfl,hu,hcall,rfl,hx⟩⟩
      | cons e later =>
        rw [hcons,List.cons_append,List.cons.injEq] at htrace
        exact hextend hu hcall htrace.2

end Machine

end Nimburion.Interaction
