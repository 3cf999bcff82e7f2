import Nimburion.Lib.Interaction

namespace Nimburion.Interaction

structure Performed (σ Op χ : Type) where
  before : σ
  op : Op
  choice : χ
  after : σ

namespace Machine

variable {Op : Type} {Ans : Op → Type} {ε σ ι ρ χ ν α β : Type} (m : Machine Ans ε σ ι ρ χ ν)

-- the program is the only one that runs; what the environment does, it does before an operation
def alone : List (List ν × χ) → List (Performed σ Op χ) → σ → Prog Op Ans ε α →
    Option (List (Performed σ Op χ) × Except ε α × σ)
  | [], tr, s, .ret a => some (tr,.ok a,s)
  | [], tr, s, .fail e => some (tr,.error e,s)
  | (es,x) :: xs, tr, s, .call op k =>
      (m.exec (es.foldl m.env s) op x).bind fun r =>
        alone xs (⟨es.foldl m.env s,op,x,r.2⟩ :: tr) r.2 (k r.1)
  | _, _, _, _ => none

def Ensures (Q : List (Performed σ Op χ) → Except ε α → σ → Prop) :
    List (Performed σ Op χ) → σ → Prog Op Ans ε α → Prop
  | tr, s, .ret a => Q tr (.ok a) s
  | tr, s, .fail e => Q tr (.error e) s
  | tr, s, .call op k => ∀ (es : List ν) x a s', m.exec (es.foldl m.env s) op x = some (a,s') →
      Ensures Q (⟨es.foldl m.env s,op,x,s'⟩ :: tr) s' (k a)

section Rules

variable {m}

@[simp] theorem ensures_pure (Q : List (Performed σ Op χ) → Except ε α → σ → Prop)
    (tr : List (Performed σ Op χ)) (s : σ) (a : α) :
    m.Ensures Q tr s (pure a) ↔ Q tr (.ok a) s := Iff.rfl

@[simp] theorem ensures_fail (Q : List (Performed σ Op χ) → Except ε α → σ → Prop)
    (tr : List (Performed σ Op χ)) (s : σ) (e : ε) :
    m.Ensures Q tr s (.fail e) ↔ Q tr (.error e) s := Iff.rfl

@[simp] theorem ensures_perform (op : Op)
    (Q : List (Performed σ Op χ) → Except ε (Ans op) → σ → Prop)
    (tr : List (Performed σ Op χ)) (s : σ) :
    m.Ensures Q tr s (Prog.perform op) ↔
      ∀ (es : List ν) x a s', m.exec (es.foldl m.env s) op x = some (a,s') →
        Q (⟨es.foldl m.env s,op,x,s'⟩ :: tr) (.ok a) s' := Iff.rfl

@[simp] theorem ensures_liftExcept (Q : List (Performed σ Op χ) → Except ε α → σ → Prop)
    (tr : List (Performed σ Op χ)) (s : σ) (r : Except ε α) :
    m.Ensures Q tr s (Prog.liftExcept r) ↔ Q tr r s := by
  cases r <;> rfl

theorem ensures_ite (Q : List (Performed σ Op χ) → Except ε α → σ → Prop)
    (tr : List (Performed σ Op χ)) (s : σ) (c : Prop) [Decidable c] (p q : Prog Op Ans ε α) :
    m.Ensures Q tr s (if c then p else q) ↔
      (c → m.Ensures Q tr s p) ∧ (¬ c → m.Ensures Q tr s q) := by
  by_cases hc : c <;> simp [hc]

@[simp] theorem ensures_bind (Q : List (Performed σ Op χ) → Except ε β → σ → Prop)
    (tr : List (Performed σ Op χ)) (s : σ) (p : Prog Op Ans ε α) (f : α → Prog Op Ans ε β) :
    m.Ensures Q tr s (p >>= f) ↔
      m.Ensures (fun tr' r s' => match r with
        | .ok a => m.Ensures Q tr' s' (f a)
        | .error e => Q tr' (.error e) s') tr s p := by
  change m.Ensures Q tr s (p.bind f) ↔ _
  induction p generalizing tr s with
  | ret a => rfl
  | fail e => rfl
  | call op k ih => simp only [Prog.bind,Ensures,ih]

end Rules

theorem post_of_alone {Q : List (Performed σ Op χ) → Except ε α → σ → Prop}
    {xs : List (List ν × χ)} {tr tr' : List (Performed σ Op χ)} {s s' : σ} {p : Prog Op Ans ε α}
    {r : Except ε α} (h : m.Ensures Q tr s p) (ha : m.alone xs tr s p = some (tr',r,s')) :
    Q tr' r s' := by
  induction p generalizing xs tr s with
  | ret a =>
    cases xs with
    | nil =>
      simp only [alone,Option.some.injEq,Prod.mk.injEq] at ha
      obtain ⟨rfl,rfl,rfl⟩ := ha
      exact h
    | cons x xs => simp [alone] at ha
  | fail e =>
    cases xs with
    | nil =>
      simp only [alone,Option.some.injEq,Prod.mk.injEq] at ha
      obtain ⟨rfl,rfl,rfl⟩ := ha
      exact h
    | cons x xs => simp [alone] at ha
  | call op k ih =>
    cases xs with
    | nil => simp [alone] at ha
    | cons x xs =>
      simp only [alone,Option.bind_eq_some_iff] at ha
      obtain ⟨⟨a,s₁⟩,hx,ha⟩ := ha
      exact ih a (h x.1 x.2 a s₁ hx) ha

section Handlers

variable {τ : Type} (h : τ → (op : Op) → Ans op × τ)

-- the program has a run that answers as the handler does
def Follows (Q : Except ε α → σ → τ → Prop) : σ → τ → Prog Op Ans ε α → Prop
  | s, t, .ret a => Q (.ok a) s t
  | s, t, .fail e => Q (.error e) s t
  | s, t, .call op k => ∃ x s', m.exec s op x = some ((h t op).1,s') ∧
      Follows Q s' (h t op).2 (k (h t op).1)

variable {m h} {s : σ} {t : τ}

@[simp] theorem follows_pure (Q : Except ε α → σ → τ → Prop) (a : α) :
    m.Follows h Q s t (pure a) ↔ Q (.ok a) s t := Iff.rfl

@[simp] theorem follows_fail (Q : Except ε α → σ → τ → Prop) (e : ε) :
    m.Follows h Q s t (.fail e) ↔ Q (.error e) s t := Iff.rfl

@[simp] theorem follows_perform (op : Op) (Q : Except ε (Ans op) → σ → τ → Prop) :
    m.Follows h Q s t (Prog.perform op) ↔
      ∃ x s', m.exec s op x = some ((h t op).1,s') ∧ Q (.ok (h t op).1) s' (h t op).2 := Iff.rfl

@[simp] theorem follows_liftExcept (Q : Except ε α → σ → τ → Prop) (r : Except ε α) :
    m.Follows h Q s t (Prog.liftExcept r) ↔ Q r s t := by
  cases r <;> rfl

@[simp] theorem follows_bind (Q : Except ε β → σ → τ → Prop) (p : Prog Op Ans ε α)
    (f : α → Prog Op Ans ε β) :
    m.Follows h Q s t (p >>= f) ↔
      m.Follows h (fun r s' t' => match r with
        | .ok a => m.Follows h Q s' t' (f a)
        | .error e => Q (.error e) s' t') s t p := by
  change m.Follows h Q s t (p.bind f) ↔ _
  induction p generalizing s t with
  | ret a => rfl
  | fail e => rfl
  | call op k ih => simp only [Prog.bind,Follows,ih]

@[simp] theorem follows_attempt (Q : Except ε (Except ε α) → σ → τ → Prop)
    (p : Prog Op Ans ε α) : m.Follows h Q s t (Prog.attempt p) ↔
      m.Follows h (fun r s' t' => Q (.ok r) s' t') s t p := by
  induction p generalizing s t with
  | ret a => rfl
  | fail e => rfl
  | call op k ih => simp only [Prog.attempt,Follows,ih]

theorem Follows.alone {Q : Except ε α → σ → τ → Prop} {p : Prog Op Ans ε α}
    (hp : m.Follows h Q s t p) (tr : List (Performed σ Op χ)) : ∃ xs tr' s',
      m.alone xs tr s p = some (tr',(p.eval h t).1,s') ∧ Q (p.eval h t).1 s' (p.eval h t).2 := by
  induction p generalizing s t tr with
  | ret a => exact ⟨[],tr,s,rfl,hp⟩
  | fail e => exact ⟨[],tr,s,rfl,hp⟩
  | call op k ih =>
    obtain ⟨x,s₁,hx,hrest⟩ := hp
    obtain ⟨xs,tr',s',hxs,hQ⟩ := ih _ hrest (⟨s,op,x,s₁⟩ :: tr)
    refine ⟨([],x) :: xs,tr',s',?_,hQ⟩
    simp only [Machine.alone,List.foldl_nil,hx,Option.bind_some]
    exact hxs

end Handlers

end Machine

end Nimburion.Interaction
