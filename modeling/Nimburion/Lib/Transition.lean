import Mathlib.Data.List.Basic
import Mathlib.Tactic.Common

namespace Nimburion.Transition

variable {σ α : Type} (step : σ → α → Option σ)

def run : List α → σ → Option σ
  | [],s => some s
  | a :: acts,s => (step s a).bind (run acts)

-- every step taken meets the condition in the state before it
def Along (P : σ → α → Prop) : List α → σ → Prop
  | [],_ => True
  | a :: acts,s => P s a ∧ match step s a with
      | some s' => Along P acts s'
      | none => True

instance decidableAlong (P : σ → α → Prop) [h : ∀ s a, Decidable (P s a)] :
    (acts : List α) → (s : σ) → Decidable (Along step P acts s)
  | [],_ => .isTrue trivial
  | a :: acts,s => match hs : step s a with
      | some s' => @decidable_of_iff _ (P s a ∧ Along step P acts s') (by simp [Along,hs])
          (@instDecidableAnd _ _ (h s a) (decidableAlong P acts s'))
      | none => @decidable_of_iff _ (P s a) (by simp [Along,hs]) (h s a)

variable {step}

theorem along_true (acts : List α) (s : σ) : Along step (fun _ _ => True) acts s := by
  induction acts generalizing s with
  | nil => trivial
  | cons a acts ih =>
    refine ⟨trivial,?_⟩
    cases step s a with
    | none => trivial
    | some s' => exact ih s'

theorem run_invariant {P : σ → α → Prop} {I : σ → Prop}
    (hstep : ∀ s a s', I s → P s a → step s a = some s' → I s')
    {acts : List α} {s s' : σ} (hs : I s) (hP : Along step P acts s)
    (hrun : run step acts s = some s') : I s' := by
  induction acts generalizing s with
  | nil =>
    simp only [run,Option.some.injEq] at hrun
    exact hrun ▸ hs
  | cons a acts ih =>
    simp only [run,Option.bind_eq_some_iff] at hrun
    obtain ⟨d,hd,hrest⟩ := hrun
    have hP' := hP.2
    rw [hd] at hP'
    exact ih (hstep s a d hs hP.1 hd) hP' hrest

theorem run_reaches {I : σ → Prop} (hstep : ∀ s a s', I s → step s a = some s' → I s')
    {acts : List α} {s s' : σ} (hs : I s) (hrun : run step acts s = some s') : I s' :=
  run_invariant (P := fun _ _ => True) (fun s a s' h _ => hstep s a s' h) hs (along_true acts s) hrun

theorem along_congr {P Q : σ → α → Prop} {I : σ → Prop} (hPQ : ∀ s a, I s → (P s a ↔ Q s a))
    (hstep : ∀ s a s', I s → Q s a → step s a = some s' → I s') {acts : List α} {s : σ} (hs : I s) :
    Along step P acts s ↔ Along step Q acts s := by
  induction acts generalizing s with
  | nil => exact Iff.rfl
  | cons a acts ih =>
    simp only [Along]
    rw [hPQ s a hs]
    refine and_congr_right fun hQ => ?_
    cases hd : step s a with
    | none => exact Iff.rfl
    | some s' => exact ih (hstep s a s' hs hQ hd)

theorem along_imp {P Q : σ → α → Prop} {I : σ → Prop} (hPQ : ∀ s a, I s → P s a → Q s a)
    (hstep : ∀ s a s', I s → P s a → step s a = some s' → I s') {acts : List α} {s : σ} (hs : I s)
    (h : Along step P acts s) : Along step Q acts s := by
  induction acts generalizing s with
  | nil => trivial
  | cons a acts ih =>
    refine ⟨hPQ s a hs h.1,?_⟩
    have hrest := h.2
    cases hd : step s a with
    | none => trivial
    | some s' =>
      rw [hd] at hrest
      exact ih (hstep s a s' hs h.1 hd) hrest

-- a state property that one step decides holds all along a run exactly when each step allows it
theorem along_iff_reached {P : σ → α → Prop} {I Q : σ → Prop}
    (hstep : ∀ s a s', I s → step s a = some s' → I s')
    (hiff : ∀ s a s', I s → Q s → step s a = some s' → (P s a ↔ Q s'))
    (hstuck : ∀ s a, I s → Q s → step s a = none → P s a)
    {acts : List α} {s : σ} (hs : I s) (hq : Q s) :
    (∀ pre s', pre <+: acts → run step pre s = some s' → Q s') ↔ Along step P acts s := by
  induction acts generalizing s with
  | nil =>
    refine ⟨fun _ => trivial,fun _ pre s' hpre hrun => ?_⟩
    rw [List.prefix_nil.mp hpre,run,Option.some.injEq] at hrun
    exact hrun ▸ hq
  | cons a acts ih =>
    simp only [Along]
    cases hd : step s a with
    | none =>
      refine ⟨fun _ => ⟨hstuck s a hs hq hd,trivial⟩,fun _ pre s' hpre hrun => ?_⟩
      rcases List.prefix_cons_iff.mp hpre with rfl | ⟨pre,rfl,-⟩
      · rw [run,Option.some.injEq] at hrun
        exact hrun ▸ hq
      · simp [run,hd] at hrun
    | some d =>
      have hI := hstep s a d hs hd
      constructor
      · intro h
        have hQ : Q d := h [a] d ⟨acts,rfl⟩ (by simp [run,hd])
        refine ⟨(hiff s a d hs hq hd).mpr hQ,(ih hI hQ).mp fun pre s' hpre hrun => ?_⟩
        exact h (a :: pre) s' (List.cons_prefix_cons.mpr ⟨rfl,hpre⟩) (by simpa [run,hd] using hrun)
      · rintro ⟨hP,hrest⟩ pre s' hpre hrun
        have hQ := (hiff s a d hs hq hd).mp hP
        rcases List.prefix_cons_iff.mp hpre with rfl | ⟨pre,rfl,hrest'⟩
        · rw [run,Option.some.injEq] at hrun
          exact hrun ▸ hq
        · exact (ih hI hQ).mpr hrest pre s' hrest' (by simpa [run,hd] using hrun)

end Nimburion.Transition
