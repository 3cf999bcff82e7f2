import Nimburion.Lib.Interaction
import Nimburion.Lib.Transition

namespace Nimburion.Goroutine
open Interaction Transition

variable {Op : Type} {Ans : Op → Type} {V σ χ ν α : Type}

-- a deferred recover; a program that fails is a goroutine that panics
def recovering (p : Prog Op Ans V α) (recovered : V → Prog Op Ans V α) : Prog Op Ans V α := do
  let r ← Prog.attempt p
  match r with
  | .ok a => pure a
  | .error v => recovered v

structure Process (Ans : Op → Type) (V σ χ ν : Type) where
  -- the goroutine that an operation starts
  starts : Op → Option (Prog Op Ans V Unit)
  exec : σ → (op : Op) → χ → Option (Ans op × σ)
  env : σ → ν → σ

structure State (Ans : Op → Type) (V σ : Type) where
  shared : σ
  goroutines : List (Prog Op Ans V Unit)

inductive Act (χ ν : Type) where
  | exec (i : ℕ) (choice : χ)
  | env (e : ν)

def panicking : Prog Op Ans V α → Bool
  | .fail _ => true
  | _ => false

-- a panic that its own goroutine does not recover ends the process
def ended (st : State Ans V σ) : Bool := st.goroutines.any panicking

namespace Process

variable (m : Process Ans V σ χ ν)

def advance (st : State Ans V σ) (i : ℕ) (x : χ) : Prog Op Ans V Unit → Option (State Ans V σ)
  | .call op k => (m.exec st.shared op x).map fun r =>
      ⟨r.2,st.goroutines.set i (k r.1) ++ (m.starts op).toList⟩
  | _ => none

def step (st : State Ans V σ) : Act χ ν → Option (State Ans V σ)
  | .exec i x => if ended st then none else st.goroutines[i]?.bind (m.advance st i x)
  | .env e => if ended st then none else some { st with shared := m.env st.shared e }

variable {m} {st st' : State Ans V σ}

theorem step_cases {a : Act χ ν} (h : m.step st a = some st') : ended st = false ∧
    ((∃ i x op k ans s', a = .exec i x ∧ st.goroutines[i]? = some (.call op k) ∧
      m.exec st.shared op x = some (ans,s') ∧
      st' = ⟨s',st.goroutines.set i (k ans) ++ (m.starts op).toList⟩) ∨
    ∃ e, a = .env e ∧ st' = { st with shared := m.env st.shared e }) := by
  cases a with
  | exec i x =>
    simp only [step] at h
    split_ifs at h with hended
    refine ⟨by simpa using hended,.inl ?_⟩
    simp only [Option.bind_eq_some_iff] at h
    obtain ⟨g,hg,h⟩ := h
    cases g with
    | ret a => cases h
    | fail v => cases h
    | call op k =>
      simp only [advance,Option.map_eq_some_iff] at h
      obtain ⟨⟨ans,s'⟩,hx,rfl⟩ := h
      exact ⟨i,x,op,k,ans,s',rfl,hg,hx,rfl⟩
  | env e =>
    simp only [step] at h
    split_ifs at h with hended
    exact ⟨by simpa using hended,.inr ⟨e,rfl,(Option.some.inj h).symm⟩⟩

theorem step_exec {i : ℕ} {x : χ} {op : Op} {k : Ans op → Prog Op Ans V Unit} {ans : Ans op} {s' : σ}
    (halive : ended st = false) (hg : st.goroutines[i]? = some (.call op k))
    (hx : m.exec st.shared op x = some (ans,s')) : m.step st (.exec i x) =
      some ⟨s',st.goroutines.set i (k ans) ++ (m.starts op).toList⟩ := by
  simp [step,halive,hg,advance,hx]

section Invariants

variable {S : Spec Ans}

-- the goroutine ends without a panic when the operations answer as `S` says
def Returns (S : Spec Ans) (g : Prog Op Ans V Unit) : Prop :=
  ∃ tr, Prog.Meets S (fun _ r => ∃ a, r = .ok a) tr g

theorem not_panicking_of_returns {g : Prog Op Ans V Unit} (h : Returns S g) :
    panicking g = false := by
  cases g with
  | ret a => rfl
  | call op k => rfl
  | fail v =>
    obtain ⟨_,_,ha⟩ := h
    cases ha

theorem returns_step {P : State Ans V σ → Act χ ν → Prop}
    (hstarts : ∀ op g, m.starts op = some g → Returns S g)
    (hans : ∀ st i x op ans s', P st (.exec i x) → m.exec st.shared op x = some (ans,s') →
      S.ans op ans) {a : Act χ ν} (hall : ∀ g ∈ st.goroutines, Returns S g) (hP : P st a)
    (h : m.step st a = some st') : ∀ g ∈ st'.goroutines, Returns S g := by
  obtain ⟨_,⟨i,x,op,k,ans,s',rfl,hg,hx,rfl⟩ | ⟨e,rfl,rfl⟩⟩ := step_cases h
  · intro g hmem
    rcases List.mem_append.mp hmem with hmem | hmem
    · rcases List.mem_or_eq_of_mem_set hmem with hmem | rfl
      · exact hall g hmem
      · obtain ⟨tr,hmeets⟩ := hall _ (List.mem_of_getElem? hg)
        exact ⟨_,hmeets.2 ans (hans st i x op ans s' hP hx)⟩
    · exact hstarts op g (by simpa using hmem)
  · exact hall

theorem alive_of_returns {P : State Ans V σ → Act χ ν → Prop}
    (hstarts : ∀ op g, m.starts op = some g → Returns S g)
    (hans : ∀ st i x op ans s', P st (.exec i x) → m.exec st.shared op x = some (ans,s') →
      S.ans op ans) {acts : List (Act χ ν)} (hall : ∀ g ∈ st.goroutines, Returns S g)
    (hP : Along m.step P acts st) (hrun : run m.step acts st = some st') : ended st' = false := by
  have hall' := run_invariant (I := fun st => ∀ g ∈ st.goroutines, Returns S g)
    (fun _ _ _ hall hP h => returns_step hstarts hans hall hP h) hall hP hrun
  rw [ended,List.any_eq_false]
  intro g hg
  rw [not_panicking_of_returns (hall' g hg)]
  simp

end Invariants

-- goroutine `i` gets to the goal by its own steps, whatever they answer, and by waiting
inductive Inevitable (m : Process Ans V σ χ ν) (wait : ν → Prop) (i : ℕ)
    (goal : State Ans V σ → Prop) : State Ans V σ → Prop
  | here {st : State Ans V σ} (h : goal st) : Inevitable m wait i goal st
  | next {st : State Ans V σ} (can : ∃ x st', m.step st (.exec i x) = some st')
      (all : ∀ x st', m.step st (.exec i x) = some st' → Inevitable m wait i goal st') :
      Inevitable m wait i goal st
  | wait {st st' : State Ans V σ} (e : ν) (he : wait e) (h : m.step st (.env e) = some st')
      (then_ : Inevitable m wait i goal st') : Inevitable m wait i goal st

end Process

end Nimburion.Goroutine
