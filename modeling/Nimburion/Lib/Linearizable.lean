import Nimburion.Lib.Interaction
import Mathlib.Data.List.Induction

-- runs of a machine against an object that takes one call after another, each at an instant
namespace Nimburion.Interaction

structure Object (S ι τ R : Type) where
  apply : S → τ → ι → R × S

structure Point (ι τ R : Type) where
  thread : ℕ
  call : ι
  time : τ
  result : R

namespace Object

variable {S ι τ R : Type} (o : Object S ι τ R)

def after (s : S) (L : List (Point ι τ R)) : S := L.foldl (fun s p => (o.apply s p.time p.call).2) s

def Legal : S → List (Point ι τ R) → Prop
  | _, [] => True
  | s, p :: L => (o.apply s p.time p.call).1 = p.result ∧ Legal (o.apply s p.time p.call).2 L

theorem after_append (s : S) (L M : List (Point ι τ R)) :
    o.after s (L ++ M) = o.after (o.after s L) M := List.foldl_append

theorem legal_append (s : S) (L M : List (Point ι τ R)) :
    o.Legal s (L ++ M) ↔ o.Legal s L ∧ o.Legal (o.after s L) M := by
  induction L generalizing s with
  | nil => simp [Legal,after]
  | cons p L ih => simp only [List.cons_append,Legal,ih,and_assoc,after,List.foldl_cons]

-- calls that leave the object as it is can be left out
theorem legal_filter {keep : Point ι τ R → Bool} {s : S} {L : List (Point ι τ R)}
    (hread : ∀ p ∈ L, keep p = false → ∀ s, (o.apply s p.time p.call).2 = s)
    (h : o.Legal s L) : o.Legal s (L.filter keep) ∧ o.after s (L.filter keep) = o.after s L := by
  induction L generalizing s with
  | nil => exact ⟨h,rfl⟩
  | cons p L ih =>
    obtain ⟨hp,hL⟩ := List.forall_mem_cons.mp hread
    obtain ⟨hlegal,hafter⟩ := ih hL h.2
    cases hk : keep p with
    | true =>
      rw [List.filter_cons_of_pos hk]
      exact ⟨⟨h.1,hlegal⟩,hafter⟩
    | false =>
      rw [List.filter_cons_of_neg (by simp [hk])]
      rw [hp hk s] at hlegal hafter
      have hcons : o.after s (p :: L) = o.after s L := by
        rw [after,List.foldl_cons,hp hk s]
        rfl
      exact ⟨hlegal,hafter.trans hcons.symm⟩

end Object

section Results

variable {Op : Type} {Ans : Op → Type} {ε σ ι ρ : Type}

def Thread.result (t : Thread Ans ε ι ρ) : Option (Except ε ρ) := match t.rest with
  | .ret a => some (.ok a)
  | .fail e => some (.error e)
  | .call _ _ => none

def Config.Returned (c : Config Ans ε σ ι ρ) (i : ℕ) : Prop :=
  ∃ t r, c.threads[i]? = some t ∧ t.result = some r

end Results

namespace Machine

variable {Op : Type} {Ans : Op → Type} {ε σ ι ρ χ ν S τ : Type} (m : Machine Ans ε σ ι ρ χ ν)

theorem returned_step {c c' : Config Ans ε σ ι ρ} {a : Action ι χ ν} (hs : m.step c a = some c')
    {i : ℕ} (h : c.Returned i) : c'.Returned i := by
  obtain ⟨t,r,ht,hr⟩ := h
  have hi := (List.getElem?_eq_some_iff.mp ht).1
  obtain ⟨call,rfl,rfl⟩ | ⟨j,x,u,op,k,ans,s',rfl,hu,hal,hrest,hx,rfl⟩ | ⟨j,u,rfl,hu,rfl⟩ |
    ⟨e,rfl,rfl⟩ := m.step_cases hs
  · exact ⟨t,r,(List.getElem?_append_left hi).trans ht,hr⟩
  · have hij : j ≠ i := by
      rintro rfl
      rw [ht,Option.some.injEq] at hu
      rw [Thread.result,hu,hrest] at hr
      cases hr
    exact ⟨t,r,(List.getElem?_set_ne hij).trans ht,hr⟩
  · by_cases hij : j = i
    · subst hij
      rw [ht,Option.some.injEq] at hu
      subst hu
      exact ⟨_,r,List.getElem?_set_self hi,hr⟩
    · exact ⟨t,r,(List.getElem?_set_ne hij).trans ht,hr⟩
  · exact ⟨t,r,ht,hr⟩

-- the calls of a configuration that have returned did so as the object answers
structure Explains (o : Object S ι τ (Except ε ρ)) (init : S) (c : Config Ans ε σ ι ρ)
    (L : List (Point ι τ (Except ε ρ))) : Prop where
  unique : (L.map Point.thread).Nodup
  started : ∀ p ∈ L, ∃ t, c.threads[p.thread]? = some t ∧ t.call = p.call
  returned : ∀ i t r, c.threads[i]? = some t → t.result = some r →
    ∃ p ∈ L, p.thread = i ∧ p.result = r
  legal : o.Legal init L

variable [LE τ]

-- the configurations that a run goes through
def Passes (acts : List (Action ι χ ν)) (c₀ d : Config Ans ε σ ι ρ) : Prop :=
  ∃ pre post, acts = pre ++ post ∧ m.run pre c₀ = some d

-- a call takes effect between its start and its return, and its instant is one of the clock there
structure Timed (clock : σ → τ) (acts : List (Action ι χ ν)) (c₀ : Config Ans ε σ ι ρ)
    (L : List (Point ι τ (Except ε ρ))) : Prop where
  realTime : ∀ d i j, m.Passes acts c₀ d → d.Returned i → d.threads.length ≤ j →
    j ∈ L.map Point.thread → [i,j].Sublist (L.map Point.thread)
  ordered : (L.map Point.time).Pairwise (· ≤ ·)
  notBefore : ∀ d p, m.Passes acts c₀ d → p ∈ L → d.threads.length ≤ p.thread →
    clock d.shared ≤ p.time
  notAfter : ∀ d p, m.Passes acts c₀ d → p ∈ L → d.Returned p.thread → p.time ≤ clock d.shared

def Linearizable (clock : σ → τ) (o : Object S ι τ (Except ε ρ)) (init : S)
    (acts : List (Action ι χ ν)) (c₀ c : Config Ans ε σ ι ρ) : Prop :=
  ∃ L : List (Point ι τ (Except ε ρ)), Explains o init c L ∧ m.Timed clock acts c₀ L

-- as long as a call has not returned its point may be dropped, and one may come at the end
structure Moves (clock : σ → τ) (c : Config Ans ε σ ι ρ)
    (L L' : List (Point ι τ (Except ε ρ))) : Prop where
  moved : ∃ (keep : ℕ → Bool) (new : List (Point ι τ (Except ε ρ))),
    L' = L.filter (fun p => keep p.thread) ++ new ∧
    (∀ i, c.Returned i → keep i = true) ∧
    ∀ p ∈ new, p.thread < c.threads.length ∧ ¬ c.Returned p.thread ∧ p.time = clock c.shared

section Rule

variable [Std.IsPreorder τ] {m} {clock : σ → τ} {acts : List (Action ι χ ν)} {a : Action ι χ ν}
  {c₀ c c' : Config Ans ε σ ι ρ} {L L' : List (Point ι τ (Except ε ρ))}

theorem run_snoc (h : m.run acts c₀ = some c) (hs : m.step c a = some c') :
    m.run (acts ++ [a]) c₀ = some c' := by
  rw [run_append,h,Option.bind_some,run_cons,hs,Option.bind_some,run_nil]

theorem mono_run (hmono : ∀ c a c', m.step c a = some c' → clock c.shared ≤ clock c'.shared)
    {d e : Config Ans ε σ ι ρ} {post : List (Action ι χ ν)} (h : m.run post d = some e) :
    clock d.shared ≤ clock e.shared := by
  induction post generalizing d with
  | nil =>
    cases h
    exact Std.le_refl _
  | cons b post ih =>
    simp only [run_cons,Option.bind_eq_some_iff] at h
    obtain ⟨d',hs,hrest⟩ := h
    exact Std.le_trans (hmono d b d' hs) (ih hrest)

theorem returned_run {d e : Config Ans ε σ ι ρ} {post : List (Action ι χ ν)}
    (h : m.run post d = some e) {i : ℕ} (hi : d.Returned i) : e.Returned i := by
  induction post generalizing d with
  | nil =>
    cases h
    exact hi
  | cons b post ih =>
    simp only [run_cons,Option.bind_eq_some_iff] at h
    obtain ⟨d',hs,hrest⟩ := h
    exact ih hrest (m.returned_step hs hi)

theorem Passes.rest {d : Config Ans ε σ ι ρ} (hd : m.Passes acts c₀ d)
    (hrun : m.run acts c₀ = some c) : ∃ post, m.run post d = some c := by
  obtain ⟨pre,post,rfl,hd⟩ := hd
  rw [run_append,hd,Option.bind_some] at hrun
  exact ⟨post,hrun⟩

theorem Passes.snoc {d : Config Ans ε σ ι ρ} (hd : m.Passes (acts ++ [a]) c₀ d)
    (hrun : m.run acts c₀ = some c) (hs : m.step c a = some c') :
    d = c' ∨ m.Passes acts c₀ d := by
  obtain ⟨pre,post,heq,hd⟩ := hd
  rcases List.eq_nil_or_concat' post with rfl | ⟨post',b,rfl⟩
  · rw [List.append_nil] at heq
    rw [← heq,run_snoc hrun hs] at hd
    exact .inl (Option.some.inj hd).symm
  · rw [← List.append_assoc] at heq
    exact .inr ⟨pre,post',(List.append_inj' heq rfl).1,hd⟩

-- what has a point, and all that has returned, keeps its place before what comes later
theorem Timed.step (hmono : ∀ c a c', m.step c a = some c' → clock c.shared ≤ clock c'.shared)
    (hrun : m.run acts c₀ = some c) (hs : m.step c a = some c')
    (hreturned : ∀ i, c.Returned i → i ∈ L.map Point.thread)
    (hstarted : ∀ p ∈ L', p.thread < c'.threads.length)
    (hbound : ∀ p ∈ L, p.time ≤ clock c.shared) (h : m.Timed clock acts c₀ L)
    (hmoves : Moves clock c L L') :
    m.Timed clock (acts ++ [a]) c₀ L' ∧ ∀ p ∈ L', p.time ≤ clock c'.shared := by
  have hclock := hmono c a c' hs
  obtain ⟨keep,new,rfl,hkeep,hnew⟩ := hmoves.moved
  have hkept : (L.filter fun p => keep p.thread).map Point.thread =
      (L.map Point.thread).filter keep := by
    rw [List.filter_map]
    rfl
  have hmem : ∀ i, c.Returned i → i ∈ (L.map Point.thread).filter keep := fun i hi =>
    List.mem_filter.mpr ⟨hreturned i hi,hkeep i hi⟩
  have hbound' : ∀ p ∈ L.filter (fun p => keep p.thread) ++ new, p.time ≤ clock c'.shared := by
    intro p hp
    rcases List.mem_append.mp hp with hp | hp
    · exact Std.le_trans (hbound p (List.mem_of_mem_filter hp)) hclock
    · rw [(hnew p hp).2.2]
      exact hclock
  have hreturns : ∀ d i, m.Passes acts c₀ d → d.Returned i → c.Returned i := by
    intro d i hd hi
    obtain ⟨post,hpost⟩ := hd.rest hrun
    exact returned_run hpost hi
  refine ⟨⟨?_,?_,?_,?_⟩,hbound'⟩
  · intro d i j hd hi hj hjmem
    rcases hd.snoc hrun hs with rfl | hd
    · obtain ⟨p,hp,rfl⟩ := List.mem_map.mp hjmem
      exact absurd (hstarted p hp) (Nat.not_lt.mpr hj)
    · have hic := hreturns d i hd hi
      rw [List.map_append,hkept] at hjmem ⊢
      rcases List.mem_append.mp hjmem with hold | hlate
      · have hpair := (h.realTime d i j hd hi hj (List.mem_of_mem_filter hold)).filter keep
        rw [List.filter_cons_of_pos (hkeep i hic),
          List.filter_cons_of_pos (List.of_mem_filter hold)] at hpair
        exact hpair.trans (List.sublist_append_left _ _)
      · exact (List.singleton_sublist.mpr (hmem i hic)).append (List.singleton_sublist.mpr hlate)
  · rw [List.map_append,List.pairwise_append]
    refine ⟨h.ordered.sublist (List.filter_sublist.map _),?_,?_⟩
    · rw [List.pairwise_map]
      refine List.pairwise_iff_forall_sublist.mpr fun hpair => ?_
      have hp := hpair.subset List.mem_cons_self
      have hq := hpair.subset (List.mem_cons_of_mem _ List.mem_cons_self)
      rw [(hnew _ hp).2.2,(hnew _ hq).2.2]
      exact Std.le_refl _
    · intro s hs' t ht
      obtain ⟨p,hp,rfl⟩ := List.mem_map.mp hs'
      obtain ⟨q,hq,rfl⟩ := List.mem_map.mp ht
      rw [(hnew q hq).2.2]
      exact hbound p (List.mem_of_mem_filter hp)
  · intro d p hd hp hlate
    rcases hd.snoc hrun hs with rfl | hd
    · exact absurd (hstarted p hp) (Nat.not_lt.mpr hlate)
    · rcases List.mem_append.mp hp with hp | hp
      · exact h.notBefore d p hd (List.mem_of_mem_filter hp) hlate
      · obtain ⟨post,hpost⟩ := hd.rest hrun
        rw [(hnew p hp).2.2]
        exact mono_run hmono hpost
  · intro d p hd hp hi
    rcases hd.snoc hrun hs with rfl | hd
    · exact hbound' p hp
    · rcases List.mem_append.mp hp with hp | hp
      · exact h.notAfter d p hd (List.mem_of_mem_filter hp) hi
      · exact absurd (hreturns d p.thread hd hi) (hnew p hp).2.1

end Rule

-- a machine whose every step keeps some points that explain it is linearizable
theorem linearizable_of_steps [Std.IsPreorder τ] {clock : σ → τ} {o : Object S ι τ (Except ε ρ)} {init : S}
    {P : Config Ans ε σ ι ρ → Action ι χ ν → Prop}
    {I : Config Ans ε σ ι ρ → List (Point ι τ (Except ε ρ)) → Prop}
    (hexplains : ∀ c L, I c L → Explains o init c L)
    (hstep : ∀ c a c' L, I c L → P c a → m.step c a = some c' → ∃ L', I c' L' ∧ Moves clock c L L')
    (hmono : ∀ c a c', m.step c a = some c' → clock c.shared ≤ clock c'.shared)
    {acts : List (Action ι χ ν)} {c₀ c : Config Ans ε σ ι ρ} (hinit : I c₀ [])
    (hP : m.Along P acts c₀) (hrun : m.run acts c₀ = some c) :
    m.Linearizable clock o init acts c₀ c := by
  have hall : ∃ L, I c L ∧ m.Timed clock acts c₀ L ∧ ∀ p ∈ L, p.time ≤ clock c.shared := by
    induction acts using List.reverseRecOn generalizing c with
    | nil =>
      cases hrun
      refine ⟨[],hinit,⟨?_,List.Pairwise.nil,?_,?_⟩,fun _ h => absurd h List.not_mem_nil⟩
      · exact fun _ _ _ _ _ _ h => absurd h List.not_mem_nil
      · exact fun _ _ _ h => absurd h List.not_mem_nil
      · exact fun _ _ _ h => absurd h List.not_mem_nil
    | append_singleton acts a ih =>
      rw [run_append,Option.bind_eq_some_iff] at hrun
      obtain ⟨d,hd,hlast⟩ := hrun
      have hs : m.step d a = some c := by
        simpa [run_cons,run_nil,Option.bind_eq_some_iff] using hlast
      obtain ⟨L,hI,htimed,hbound⟩ := ih (m.along_left hP) hd
      obtain ⟨L',hI',hmoves⟩ := hstep d a c L hI (m.along_at hP hd) hs
      have hreturned : ∀ i, d.Returned i → i ∈ L.map Point.thread := by
        rintro i ⟨t,r,ht,hr⟩
        obtain ⟨p,hp,rfl,-⟩ := (hexplains d L hI).returned i t r ht hr
        exact List.mem_map_of_mem hp
      have hstarted : ∀ p ∈ L', p.thread < c.threads.length := by
        intro p hp
        obtain ⟨t,ht,-⟩ := (hexplains c L' hI').started p hp
        exact (List.getElem?_eq_some_iff.mp ht).1
      exact ⟨L',hI',htimed.step hmono hd hs hreturned hstarted hbound hmoves⟩
  obtain ⟨L,hI,htimed,-⟩ := hall
  exact ⟨L,hexplains c L hI,htimed⟩

end Machine

end Nimburion.Interaction
