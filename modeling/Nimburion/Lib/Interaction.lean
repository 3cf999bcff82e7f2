import Mathlib.Data.Bool.Basic
import Mathlib.Data.List.Basic
import Mathlib.Data.List.Perm.Basic
import Mathlib.Tactic.Common
import Nimburion.Lib.Transition

namespace Nimburion.Interaction

inductive Prog (Op : Type) (Ans : Op → Type) (ε α : Type) where
  | ret (a : α)
  | fail (e : ε)
  | call (op : Op) (next : Ans op → Prog Op Ans ε α)

structure Event {Op : Type} (Ans : Op → Type) where
  op : Op
  ans : Ans op

structure Spec {Op : Type} (Ans : Op → Type) where
  pre : List (Event Ans) → Op → Prop
  ans : (op : Op) → Ans op → Prop

namespace Prog

variable {Op : Type} {Ans : Op → Type} {ε ε' α β γ : Type}

def bind : Prog Op Ans ε α → (α → Prog Op Ans ε β) → Prog Op Ans ε β
  | ret a, f => f a
  | fail e, _ => fail e
  | call op k, f => call op fun a => (k a).bind f

instance : Monad (Prog Op Ans ε) where
  pure := ret
  bind := bind

def perform (op : Op) : Prog Op Ans ε (Ans op) := call op ret

def attempt : Prog Op Ans ε α → Prog Op Ans ε' (Except ε α)
  | ret a => ret (.ok a)
  | fail e => ret (.error e)
  | call op k => call op fun a => (k a).attempt

def liftExcept : Except ε α → Prog Op Ans ε α
  | .ok a => ret a
  | .error e => fail e

def Meets (S : Spec Ans) (post : List (Event Ans) → Except ε α → Prop) :
    List (Event Ans) → Prog Op Ans ε α → Prop
  | tr, ret a => post tr (.ok a)
  | tr, fail e => post tr (.error e)
  | tr, call op k => S.pre tr op ∧ ∀ a, S.ans op a → Meets S post (⟨op,a⟩ :: tr) (k a)

section Rules

variable {S : Spec Ans}

@[simp] theorem meets_ret (post : List (Event Ans) → Except ε α → Prop)
    (tr : List (Event Ans)) (a : α) :
    Meets S post tr (ret a) ↔ post tr (.ok a) := Iff.rfl

@[simp] theorem meets_pure (post : List (Event Ans) → Except ε α → Prop)
    (tr : List (Event Ans)) (a : α) :
    Meets S post tr (pure a) ↔ post tr (.ok a) := Iff.rfl

@[simp] theorem meets_fail (post : List (Event Ans) → Except ε α → Prop)
    (tr : List (Event Ans)) (e : ε) :
    Meets S post tr (fail e) ↔ post tr (.error e) := Iff.rfl

@[simp] theorem meets_call (post : List (Event Ans) → Except ε α → Prop)
    (tr : List (Event Ans)) (op : Op) (k : Ans op → Prog Op Ans ε α) :
    Meets S post tr (call op k) ↔
      S.pre tr op ∧ ∀ a, S.ans op a → Meets S post (⟨op,a⟩ :: tr) (k a) := Iff.rfl

@[simp] theorem meets_perform (op : Op) (post : List (Event Ans) → Except ε (Ans op) → Prop)
    (tr : List (Event Ans)) :
    Meets S post tr (perform op) ↔
      S.pre tr op ∧ ∀ a, S.ans op a → post (⟨op,a⟩ :: tr) (.ok a) := Iff.rfl

@[simp] theorem meets_liftExcept (post : List (Event Ans) → Except ε α → Prop)
    (tr : List (Event Ans)) (r : Except ε α) :
    Meets S post tr (liftExcept r) ↔ post tr r := by
  cases r <;> rfl

theorem meets_ite (post : List (Event Ans) → Except ε α → Prop) (tr : List (Event Ans))
    (c : Prop) [Decidable c] (p q : Prog Op Ans ε α) :
    Meets S post tr (if c then p else q) ↔
      (c → Meets S post tr p) ∧ (¬ c → Meets S post tr q) := by
  by_cases hc : c <;> simp [hc]

theorem meets_mono {post post' : List (Event Ans) → Except ε α → Prop}
    (himp : ∀ tr r, post tr r → post' tr r) {tr : List (Event Ans)} {p : Prog Op Ans ε α}
    (h : Meets S post tr p) : Meets S post' tr p := by
  induction p generalizing tr with
  | ret a => exact himp _ _ h
  | fail e => exact himp _ _ h
  | call op k ih => exact ⟨h.1,fun a ha => ih a (h.2 a ha)⟩

theorem meets_weaken {S' : Spec Ans} {post : List (Event Ans) → Except ε α → Prop}
    (hpre : ∀ tr op, S.pre tr op → S'.pre tr op) (hans : ∀ op a, S'.ans op a → S.ans op a)
    {tr : List (Event Ans)} {p : Prog Op Ans ε α} (h : Meets S post tr p) : Meets S' post tr p := by
  induction p generalizing tr with
  | ret a => exact h
  | fail e => exact h
  | call op k ih => exact ⟨hpre tr op h.1,fun a ha => ih a (h.2 a (hans op a ha))⟩

@[simp] theorem meets_bind (post : List (Event Ans) → Except ε β → Prop)
    (tr : List (Event Ans)) (p : Prog Op Ans ε α) (f : α → Prog Op Ans ε β) :
    Meets S post tr (p >>= f) ↔
      Meets S (fun tr' r => match r with
        | .ok a => Meets S post tr' (f a)
        | .error e => post tr' (.error e)) tr p := by
  change Meets S post tr (p.bind f) ↔ _
  induction p generalizing tr with
  | ret a => rfl
  | fail e => rfl
  | call op k ih => simp only [bind,meets_call,ih]

@[simp] theorem meets_attempt (post : List (Event Ans) → Except ε' (Except ε α) → Prop)
    (tr : List (Event Ans)) (p : Prog Op Ans ε α) :
    Meets S post tr (attempt p) ↔ Meets S (fun tr' r => post tr' (.ok r)) tr p := by
  induction p generalizing tr with
  | ret a => rfl
  | fail e => rfl
  | call op k ih => simp only [attempt,meets_call,ih]

end Rules

section Evaluation

variable {σ : Type} (h : σ → (op : Op) → Ans op × σ)

def eval : Prog Op Ans ε α → σ → Except ε α × σ
  | ret a, s => (.ok a,s)
  | fail e, s => (.error e,s)
  | call op k, s => (k (h s op).1).eval (h s op).2

@[simp] theorem eval_ret (a : α) (s : σ) :
    eval h (ret a : Prog Op Ans ε α) s = (.ok a,s) := rfl

@[simp] theorem eval_pure (a : α) (s : σ) :
    eval h (pure a : Prog Op Ans ε α) s = (.ok a,s) := rfl

@[simp] theorem eval_fail (e : ε) (s : σ) :
    eval h (fail e : Prog Op Ans ε α) s = (.error e,s) := rfl

@[simp] theorem eval_perform (op : Op) (s : σ) :
    eval h (perform op : Prog Op Ans ε (Ans op)) s = (.ok (h s op).1,(h s op).2) := rfl

@[simp] theorem eval_liftExcept (r : Except ε α) (s : σ) :
    eval h (liftExcept r : Prog Op Ans ε α) s = (r,s) := by
  cases r <;> rfl

@[simp] theorem eval_bind (p : Prog Op Ans ε α) (f : α → Prog Op Ans ε β) (s : σ) :
    eval h (p >>= f) s = match eval h p s with
      | (.ok a,s') => eval h (f a) s'
      | (.error e,s') => (.error e,s') := by
  change eval h (p.bind f) s = _
  induction p generalizing s with
  | ret a => rfl
  | fail e => rfl
  | call op k ih => exact ih _ _

@[simp] theorem eval_attempt (p : Prog Op Ans ε α) (s : σ) :
    eval h (attempt p : Prog Op Ans ε' (Except ε α)) s = (.ok (eval h p s).1,(eval h p s).2) := by
  induction p generalizing s with
  | ret a => rfl
  | fail e => rfl
  | call op k ih => exact ih _ _

end Evaluation

def Always (Q : List (Event Ans) → Prog Op Ans ε α → Prop) :
    List (Event Ans) → Prog Op Ans ε α → Prop
  | tr, ret a => Q tr (ret a)
  | tr, fail e => Q tr (fail e)
  | tr, call op k => Q tr (call op k) ∧ ∀ a, Always Q (⟨op,a⟩ :: tr) (k a)

@[simp] theorem always_ret (Q : List (Event Ans) → Prog Op Ans ε α → Prop)
    (tr : List (Event Ans)) (a : α) : Always Q tr (ret a) ↔ Q tr (ret a) := Iff.rfl

@[simp] theorem always_pure (Q : List (Event Ans) → Prog Op Ans ε α → Prop)
    (tr : List (Event Ans)) (a : α) : Always Q tr (pure a) ↔ Q tr (ret a) := Iff.rfl

@[simp] theorem always_fail (Q : List (Event Ans) → Prog Op Ans ε α → Prop)
    (tr : List (Event Ans)) (e : ε) : Always Q tr (fail e) ↔ Q tr (fail e) := Iff.rfl

@[simp] theorem always_call (Q : List (Event Ans) → Prog Op Ans ε α → Prop)
    (tr : List (Event Ans)) (op : Op) (k : Ans op → Prog Op Ans ε α) :
    Always Q tr (call op k) ↔ Q tr (call op k) ∧ ∀ a, Always Q (⟨op,a⟩ :: tr) (k a) := Iff.rfl

@[simp] theorem always_perform_bind (Q : List (Event Ans) → Prog Op Ans ε β → Prop)
    (tr : List (Event Ans)) (op : Op) (f : Ans op → Prog Op Ans ε β) :
    Always Q tr (perform op >>= f) ↔ Q tr (call op f) ∧ ∀ a, Always Q (⟨op,a⟩ :: tr) (f a) := Iff.rfl

attribute [irreducible] Always

theorem always_ite (Q : List (Event Ans) → Prog Op Ans ε α → Prop) (tr : List (Event Ans))
    (c : Prop) [Decidable c] (p q : Prog Op Ans ε α) :
    Always Q tr (if c then p else q) ↔ (c → Always Q tr p) ∧ (¬ c → Always Q tr q) := by
  by_cases hc : c <;> simp [hc]

theorem Always.now {Q : List (Event Ans) → Prog Op Ans ε α → Prop} {tr : List (Event Ans)}
    {p : Prog Op Ans ε α} (h : Always Q tr p) : Q tr p := by
  cases p with
  | ret a => exact (always_ret Q tr a).mp h
  | fail e => exact (always_fail Q tr e).mp h
  | call op k => exact ((always_call Q tr op k).mp h).1

theorem Always.meets {Q : List (Event Ans) → Prog Op Ans ε α → Prop}
    {post : List (Event Ans) → Except ε α → Prop} (hret : ∀ tr a, Q tr (ret a) → post tr (.ok a))
    (hfail : ∀ tr e, Q tr (fail e) → post tr (.error e)) {tr : List (Event Ans)}
    {p : Prog Op Ans ε α} (h : Always Q tr p) :
    Meets ⟨fun _ _ => True,fun _ _ => True⟩ post tr p := by
  induction p generalizing tr with
  | ret a => exact hret tr a h.now
  | fail e => exact hfail tr e h.now
  | call op k ih => exact ⟨trivial,fun a _ => ih a (((always_call Q tr op k).mp h).2 a)⟩

def Obeys (S : Spec Ans) (p : Prog Op Ans ε α) : Prop :=
  ∀ tr, Meets S (fun _ _ => True) tr p

namespace Obeys

variable {S : Spec Ans}

theorem pure (a : α) : Obeys S (pure a : Prog Op Ans ε α) := fun _ => trivial

theorem bind {p : Prog Op Ans ε α} {f : α → Prog Op Ans ε β} (hp : Obeys S p)
    (hf : ∀ a, Obeys S (f a)) : Obeys S (p >>= f) := by
  intro tr
  rw [meets_bind]
  refine meets_mono ?_ (hp tr)
  rintro tr' (e | a) _
  · trivial
  · exact hf a tr'

theorem perform {op : Op} (h : ∀ tr, S.pre tr op) :
    Obeys S (perform op : Prog Op Ans ε (Ans op)) := fun tr => ⟨h tr,fun _ _ => trivial⟩

theorem step {op : Op} {f : Ans op → Prog Op Ans ε β} (h : ∀ tr, S.pre tr op)
    (hf : ∀ a, Obeys S (f a)) : Obeys S (Prog.perform op >>= f) := (perform h).bind hf

theorem ite {c : Prop} [Decidable c] {p q : Prog Op Ans ε α} (hp : Obeys S p) (hq : Obeys S q) :
    Obeys S (if c then p else q) := by
  split_ifs
  · exact hp
  · exact hq

end Obeys

def Preserves (S : Spec Ans) (F : List (Event Ans) → Prop) (p : Prog Op Ans ε α) : Prop :=
  ∀ tr, F tr → Meets S (fun tr' _ => F tr') tr p

namespace Preserves

variable {S : Spec Ans} {F : List (Event Ans) → Prop}

theorem pure (a : α) : Preserves S F (pure a : Prog Op Ans ε α) := fun _ h => h

theorem fail (e : ε) : Preserves S F (fail e : Prog Op Ans ε α) := fun _ h => h

theorem bind {p : Prog Op Ans ε α} {f : α → Prog Op Ans ε β} (hp : Preserves S F p)
    (hf : ∀ a, Preserves S F (f a)) : Preserves S F (p >>= f) := by
  intro tr htr
  rw [meets_bind]
  refine meets_mono ?_ (hp tr htr)
  rintro tr' (e | a) h
  · exact h
  · exact hf a tr' h

theorem perform {op : Op} (h : ∀ tr, F tr → S.pre tr op)
    (hgrow : ∀ tr a, F tr → F (⟨op,a⟩ :: tr)) :
    Preserves S F (perform op : Prog Op Ans ε (Ans op)) := fun tr htr =>
  ⟨h tr htr,fun a _ => hgrow tr a htr⟩

theorem step {op : Op} {f : Ans op → Prog Op Ans ε β} (h : ∀ tr, F tr → S.pre tr op)
    (hgrow : ∀ tr a, F tr → F (⟨op,a⟩ :: tr)) (hf : ∀ a, Preserves S F (f a)) :
    Preserves S F (Prog.perform op >>= f) := (perform h hgrow).bind hf

theorem ite {c : Prop} [Decidable c] {p q : Prog Op Ans ε α} (hp : Preserves S F p)
    (hq : Preserves S F q) : Preserves S F (if c then p else q) := by
  split_ifs
  · exact hp
  · exact hq

end Preserves

def Uses (A : Op → Prop) (p : Prog Op Ans ε α) : Prop :=
  Obeys ⟨fun _ op => A op,fun _ _ => True⟩ p

theorem Uses.meets {A : Op → Prop} {F : List (Event Ans) → Prop} {S : Spec Ans}
    {p : Prog Op Ans ε α} (h : Uses A p) (hpre : ∀ tr op, F tr → A op → S.pre tr op)
    (hgrow : ∀ ev tr, A ev.op → F tr → F (ev :: tr)) {tr : List (Event Ans)} (hF : F tr) :
    Meets S (fun tr' _ => F tr') tr p := by
  have hall := h tr
  clear h
  induction p generalizing tr with
  | ret a => exact hF
  | fail e => exact hF
  | call op k ih =>
    exact ⟨hpre tr op hF hall.1,fun a _ => ih a (hgrow ⟨op,a⟩ tr hall.1 hF) (hall.2 a trivial)⟩

def Disciplined (S : Spec Ans) : List (Event Ans) → Prop
  | [] => True
  | ev :: tr => S.pre tr ev.op ∧ Disciplined S tr

theorem meets_grows (p : Prog Op Ans ε α) (tr : List (Event Ans)) :
    Meets ⟨fun _ _ => True,fun _ _ => True⟩ (fun tr' _ => tr <:+ tr') tr p := by
  induction p generalizing tr with
  | ret a => exact List.suffix_refl tr
  | fail e => exact List.suffix_refl tr
  | call op k ih =>
    exact ⟨trivial,fun a _ => meets_mono (fun _ _ h => (List.suffix_cons _ tr).trans h) (ih a _)⟩

section Observation

variable {S : Spec Ans} (oracle : List (Event Ans) → (op : Op) → Ans op)

def observe (tr : List (Event Ans)) (op : Op) : Ans op × List (Event Ans) :=
  (oracle tr op,⟨op,oracle tr op⟩ :: tr)

theorem post_of_meets {post : List (Event Ans) → Except ε α → Prop}
    (hans : ∀ tr op, S.ans op (oracle tr op)) {tr : List (Event Ans)} {p : Prog Op Ans ε α}
    (h : Meets S post tr p) : post (eval (observe oracle) p tr).2 (eval (observe oracle) p tr).1 := by
  induction p generalizing tr with
  | ret a => exact h
  | fail e => exact h
  | call op k ih => exact ih _ (h.2 _ (hans tr op))

theorem disciplined_of_meets {post : List (Event Ans) → Except ε α → Prop}
    (hans : ∀ tr op, S.ans op (oracle tr op)) {tr : List (Event Ans)} {p : Prog Op Ans ε α}
    (h : Meets S post tr p) (htr : Disciplined S tr) :
    Disciplined S (eval (observe oracle) p tr).2 := by
  induction p generalizing tr with
  | ret a => exact htr
  | fail e => exact htr
  | call op k ih => exact ih _ (h.2 _ (hans tr op)) ⟨h.1,htr⟩

end Observation

end Prog

structure Machine {Op : Type} (Ans : Op → Type) (ε σ ι ρ χ ν : Type) where
  program : ι → Prog Op Ans ε ρ
  exec : σ → (op : Op) → χ → Option (Ans op × σ)
  env : σ → ν → σ

structure Thread {Op : Type} (Ans : Op → Type) (ε ι ρ : Type) where
  call : ι
  rest : Prog Op Ans ε ρ
  trace : List (Event Ans)
  alive : Bool

structure Config {Op : Type} (Ans : Op → Type) (ε σ ι ρ : Type) where
  shared : σ
  threads : List (Thread Ans ε ι ρ)

inductive Action (ι χ ν : Type) where
  | start (call : ι)
  | exec (i : ℕ) (choice : χ)
  | crash (i : ℕ)
  | env (e : ν)

def Config.next {Op : Type} {Ans : Op → Type} {ε σ ι ρ χ ν : Type} (c : Config Ans ε σ ι ρ) :
    Action ι χ ν → Option (Thread Ans ε ι ρ × Op × χ)
  | .exec i x => c.threads[i]?.bind fun t =>
      if t.alive then
        match t.rest with
        | .call op _ => some (t,op,x)
        | _ => none
      else none
  | _ => none

theorem Config.next_exec {Op : Type} {Ans : Op → Type} {ε σ ι ρ χ ν : Type}
    {c : Config Ans ε σ ι ρ} {i : ℕ} {t : Thread Ans ε ι ρ} {op : Op}
    {k : Ans op → Prog Op Ans ε ρ} (ht : c.threads[i]? = some t) (halive : t.alive = true)
    (hrest : t.rest = .call op k) (x : χ) :
    c.next (.exec i x : Action ι χ ν) = some (t,op,x) := by
  rw [Config.next,ht,Option.bind_some,if_pos halive,hrest]

theorem Config.of_next {Op : Type} {Ans : Op → Type} {ε σ ι ρ χ ν : Type}
    {c : Config Ans ε σ ι ρ} {a : Action ι χ ν} {t : Thread Ans ε ι ρ} {op : Op} {x : χ}
    (h : c.next a = some (t,op,x)) : ∃ i, a = .exec i x ∧ c.threads[i]? = some t ∧
      t.alive = true ∧ ∃ k, t.rest = .call op k := by
  cases a with
  | start call => cases h
  | exec i y =>
    simp only [Config.next,Option.bind_eq_some_iff] at h
    obtain ⟨u,hu,h⟩ := h
    split at h
    · rename_i halive
      split at h
      · rename_i op' k hrest
        cases h
        exact ⟨i,rfl,hu,halive,k,hrest⟩
      · cases h
    · cases h
  | crash i => cases h
  | env e => cases h

namespace Machine

variable {Op : Type} {Ans : Op → Type} {ε σ ι ρ χ ν : Type} (m : Machine Ans ε σ ι ρ χ ν)

def advance (s : σ) (t : Thread Ans ε ι ρ) (x : χ) : Option (Thread Ans ε ι ρ × σ) :=
  if t.alive then
    match t.rest with
    | .call op k => (m.exec s op x).map fun r =>
        ({ t with rest := k r.1, trace := ⟨op,r.1⟩ :: t.trace },r.2)
    | _ => none
  else none

def step (c : Config Ans ε σ ι ρ) : Action ι χ ν → Option (Config Ans ε σ ι ρ)
  | .start call => some { c with threads := c.threads ++ [⟨call,m.program call,[],true⟩] }
  | .exec i x => c.threads[i]?.bind fun t =>
      (m.advance c.shared t x).map fun r => ⟨r.2,c.threads.set i r.1⟩
  | .crash i => c.threads[i]?.map fun t =>
      { c with threads := c.threads.set i { t with alive := false } }
  | .env e => some { c with shared := m.env c.shared e }

def run : List (Action ι χ ν) → Config Ans ε σ ι ρ → Option (Config Ans ε σ ι ρ) :=
  Transition.run m.step

def Along (P : Config Ans ε σ ι ρ → Action ι χ ν → Prop) :
    List (Action ι χ ν) → Config Ans ε σ ι ρ → Prop :=
  Transition.Along m.step P

instance decidableAlong (P : Config Ans ε σ ι ρ → Action ι χ ν → Prop)
    [∀ c a, Decidable (P c a)] (acts : List (Action ι χ ν)) (c : Config Ans ε σ ι ρ) :
    Decidable (m.Along P acts c) := Transition.decidableAlong m.step P acts c

theorem run_nil (c : Config Ans ε σ ι ρ) : m.run [] c = some c := rfl

theorem run_cons (a : Action ι χ ν) (acts : List (Action ι χ ν)) (c : Config Ans ε σ ι ρ) :
    m.run (a :: acts) c = (m.step c a).bind (m.run acts) := rfl

theorem along_true (acts : List (Action ι χ ν)) (c : Config Ans ε σ ι ρ) :
    m.Along (fun _ _ => True) acts c := Transition.along_true acts c

theorem exec_cases {c c' : Config Ans ε σ ι ρ} {i : ℕ} {x : χ} (h : m.step c (.exec i x) = some c') :
    ∃ t op k ans s', c.threads[i]? = some t ∧ t.alive = true ∧ t.rest = .call op k ∧
      m.exec c.shared op x = some (ans,s') ∧
      c' = ⟨s',c.threads.set i { t with rest := k ans, trace := ⟨op,ans⟩ :: t.trace }⟩ := by
  simp only [step,Option.bind_eq_some_iff,Option.map_eq_some_iff] at h
  obtain ⟨t,ht,r,hr,rfl⟩ := h
  unfold advance at hr
  split at hr
  · rename_i halive
    split at hr
    · rename_i op k hrest
      simp only [Option.map_eq_some_iff] at hr
      obtain ⟨⟨ans,s'⟩,hx,rfl⟩ := hr
      exact ⟨t,op,k,ans,s',ht,halive,hrest,hx,rfl⟩
    · cases hr
  · cases hr

theorem step_cases {c c' : Config Ans ε σ ι ρ} {a : Action ι χ ν} (h : m.step c a = some c') :
    (∃ call, a = .start call ∧
      c' = { c with threads := c.threads ++ [⟨call,m.program call,[],true⟩] }) ∨
    (∃ i x t op k ans s', a = .exec i x ∧ c.threads[i]? = some t ∧ t.alive = true ∧
      t.rest = .call op k ∧ m.exec c.shared op x = some (ans,s') ∧
      c' = ⟨s',c.threads.set i { t with rest := k ans, trace := ⟨op,ans⟩ :: t.trace }⟩) ∨
    (∃ i t, a = .crash i ∧ c.threads[i]? = some t ∧
      c' = { c with threads := c.threads.set i { t with alive := false } }) ∨
    (∃ e, a = .env e ∧ c' = { c with shared := m.env c.shared e }) := by
  cases a with
  | start call =>
    simp only [step,Option.some.injEq] at h
    exact .inl ⟨call,rfl,h.symm⟩
  | exec i x =>
    obtain ⟨t,op,k,ans,s',hexec⟩ := m.exec_cases h
    exact .inr (.inl ⟨i,x,t,op,k,ans,s',rfl,hexec⟩)
  | crash i =>
    simp only [step,Option.map_eq_some_iff] at h
    obtain ⟨t,ht,rfl⟩ := h
    exact .inr (.inr (.inl ⟨i,t,rfl,ht,rfl⟩))
  | env e =>
    simp only [step,Option.some.injEq] at h
    exact .inr (.inr (.inr ⟨e,rfl,h.symm⟩))

theorem step_exec {c : Config Ans ε σ ι ρ} {i : ℕ} {x : χ} {t : Thread Ans ε ι ρ} {op : Op}
    {k : Ans op → Prog Op Ans ε ρ} {ans : Ans op} {s' : σ} (ht : c.threads[i]? = some t)
    (halive : t.alive = true) (hrest : t.rest = .call op k)
    (hx : m.exec c.shared op x = some (ans,s')) : m.step c (.exec i x) =
      some ⟨s',c.threads.set i { t with rest := k ans, trace := ⟨op,ans⟩ :: t.trace }⟩ := by
  have hadvance : m.advance c.shared t x =
      some ({ t with rest := k ans, trace := ⟨op,ans⟩ :: t.trace },s') := by
    rw [advance,if_pos halive,hrest]
    dsimp only
    rw [hx]
    rfl
  rw [step,ht,Option.bind_some,hadvance]
  rfl

theorem step_of_next {c c' : Config Ans ε σ ι ρ} {i : ℕ} {x y : χ} {t : Thread Ans ε ι ρ} {op : Op}
    (hnext : c.next (.exec i x : Action ι χ ν) = some (t,op,y))
    (hs : m.step c (.exec i x) = some c') :
    y = x ∧ t ∈ c.threads ∧ i < c.threads.length ∧ ∃ k ans s', t.rest = .call op k ∧
      m.exec c.shared op x = some (ans,s') ∧
      c' = ⟨s',c.threads.set i { t with rest := k ans, trace := ⟨op,ans⟩ :: t.trace }⟩ := by
  obtain ⟨u,op',k,ans,s',hu,hal,hrest,hx,rfl⟩ := m.exec_cases hs
  rw [Config.next_exec hu hal hrest,Option.some.injEq] at hnext
  cases hnext
  exact ⟨rfl,List.mem_of_getElem? hu,(List.getElem?_eq_some_iff.mp hu).1,k,ans,s',hrest,hx,rfl⟩

theorem run_append (xs ys : List (Action ι χ ν)) (c : Config Ans ε σ ι ρ) :
    m.run (xs ++ ys) c = (m.run xs c).bind (m.run ys) := by
  induction xs generalizing c with
  | nil => rfl
  | cons a xs ih =>
    simp only [List.cons_append,run_cons]
    cases m.step c a with
    | none => rfl
    | some c' => simpa using ih c'

theorem run_last {α : Type} {f : Config Ans ε σ ι ρ → α} {xs : List (Action ι χ ν)}
    {a : Action ι χ ν} {c : Config Ans ε σ ι ρ} {b : α}
    (h : (m.run (xs ++ [a]) c).map f = some b) :
    ∃ d d', m.run xs c = some d ∧ m.step d a = some d' ∧ f d' = b := by
  rw [run_append] at h
  cases hxs : m.run xs c with
  | none => simp [hxs] at h
  | some d =>
    cases hs : m.step d a with
    | none => simp [hxs,run_cons,hs] at h
    | some d' => exact ⟨d,d',rfl,hs,by simpa [hxs,run_cons,run_nil,hs] using h⟩

theorem run_invariant {P : Config Ans ε σ ι ρ → Action ι χ ν → Prop}
    {I : Config Ans ε σ ι ρ → Prop}
    (hstep : ∀ c a c', I c → P c a → m.step c a = some c' → I c')
    {acts : List (Action ι χ ν)} {c c' : Config Ans ε σ ι ρ}
    (hc : I c) (hP : m.Along P acts c) (hrun : m.run acts c = some c') : I c' :=
  Transition.run_invariant hstep hc hP hrun

theorem step_thread {c c' : Config Ans ε σ ι ρ} {a : Action ι χ ν} (hs : m.step c a = some c')
    {j : ℕ} {t : Thread Ans ε ι ρ} (ht : c.threads[j]? = some t) :
    ∃ t', c'.threads[j]? = some t' ∧ t'.call = t.call ∧ t.trace <:+ t'.trace ∧
      (t'.alive = true → t.alive = true) := by
  have hj := (List.getElem?_eq_some_iff.mp ht).1
  obtain ⟨call,rfl,rfl⟩ | ⟨i,x,u,op,k,ans,s',rfl,hu,hal,hrest,hx,rfl⟩ | ⟨i,u,rfl,hu,rfl⟩ |
    ⟨e,rfl,rfl⟩ := m.step_cases hs
  · exact ⟨t,(List.getElem?_append_left hj).trans ht,rfl,List.suffix_refl _,fun h => h⟩
  · by_cases hij : i = j
    · subst hij
      rw [ht,Option.some.injEq] at hu
      subst hu
      exact ⟨_,List.getElem?_set_self hj,rfl,List.suffix_cons _ _,fun h => h⟩
    · exact ⟨t,(List.getElem?_set_ne hij).trans ht,rfl,List.suffix_refl _,fun h => h⟩
  · by_cases hij : i = j
    · subst hij
      rw [ht,Option.some.injEq] at hu
      subst hu
      exact ⟨_,List.getElem?_set_self hj,rfl,List.suffix_refl _,by simp⟩
    · exact ⟨t,(List.getElem?_set_ne hij).trans ht,rfl,List.suffix_refl _,fun h => h⟩
  · exact ⟨t,ht,rfl,List.suffix_refl _,fun h => h⟩

theorem run_thread {acts : List (Action ι χ ν)} {c c' : Config Ans ε σ ι ρ}
    (hrun : m.run acts c = some c') {j : ℕ} {t : Thread Ans ε ι ρ} (ht : c.threads[j]? = some t) :
    ∃ t', c'.threads[j]? = some t' ∧ t'.call = t.call ∧ t.trace <:+ t'.trace ∧
      (t'.alive = true → t.alive = true) := by
  induction acts generalizing c t with
  | nil =>
    simp only [run_nil,Option.some.injEq] at hrun
    exact ⟨t,hrun ▸ ht,rfl,List.suffix_refl _,fun h => h⟩
  | cons a acts ih =>
    simp only [run_cons,Option.bind_eq_some_iff] at hrun
    obtain ⟨d,hs,hrun⟩ := hrun
    obtain ⟨u,hu,hcall,htrace,halive⟩ := m.step_thread hs ht
    obtain ⟨t',ht',hcall',htrace',halive'⟩ := ih hrun hu
    exact ⟨t',ht',hcall'.trans hcall,htrace.trans htrace',fun h => halive (halive' h)⟩

theorem along_congr {P Q : Config Ans ε σ ι ρ → Action ι χ ν → Prop} {I : Config Ans ε σ ι ρ → Prop}
    (hPQ : ∀ c a, I c → (P c a ↔ Q c a))
    (hstep : ∀ c a c', I c → Q c a → m.step c a = some c' → I c')
    {acts : List (Action ι χ ν)} {c : Config Ans ε σ ι ρ} (hc : I c) :
    m.Along P acts c ↔ m.Along Q acts c :=
  Transition.along_congr hPQ hstep hc

theorem along_imp {P Q : Config Ans ε σ ι ρ → Action ι χ ν → Prop} {I : Config Ans ε σ ι ρ → Prop}
    (hPQ : ∀ c a, I c → P c a → Q c a)
    (hstep : ∀ c a c', I c → P c a → m.step c a = some c' → I c')
    {acts : List (Action ι χ ν)} {c : Config Ans ε σ ι ρ} (hc : I c) (h : m.Along P acts c) :
    m.Along Q acts c :=
  Transition.along_imp hPQ hstep hc h

theorem along_at {P : Config Ans ε σ ι ρ → Action ι χ ν → Prop} {xs ys : List (Action ι χ ν)}
    {a : Action ι χ ν} {c d : Config Ans ε σ ι ρ} (h : m.Along P (xs ++ a :: ys) c)
    (hrun : m.run xs c = some d) : P d a := by
  induction xs generalizing c with
  | nil =>
    simp only [run_nil,Option.some.injEq] at hrun
    exact hrun ▸ h.1
  | cons b xs ih =>
    simp only [run_cons,Option.bind_eq_some_iff] at hrun
    obtain ⟨c',hs,hrun⟩ := hrun
    have hrest := h.2
    rw [hs] at hrest
    exact ih hrest hrun

theorem along_of_reached {P : Config Ans ε σ ι ρ → Action ι χ ν → Prop}
    {acts : List (Action ι χ ν)} {c : Config Ans ε σ ι ρ}
    (h : ∀ xs a ys d, acts = xs ++ a :: ys → m.run xs c = some d → P d a) : m.Along P acts c := by
  induction acts generalizing c with
  | nil => trivial
  | cons b acts ih =>
    refine ⟨h [] b acts c rfl rfl,?_⟩
    cases hs : m.step c b with
    | none => trivial
    | some c' =>
      refine ih fun xs a ys d heq hrun => h (b :: xs) a ys d (by rw [heq]; rfl) ?_
      simp only [run_cons,hs,Option.bind_some]
      exact hrun

theorem along_left {P : Config Ans ε σ ι ρ → Action ι χ ν → Prop} {xs ys : List (Action ι χ ν)}
    {c : Config Ans ε σ ι ρ} (h : m.Along P (xs ++ ys) c) : m.Along P xs c := by
  refine m.along_of_reached fun xs' a ys' d heq hrun => ?_
  rw [heq,List.append_assoc] at h
  exact m.along_at h hrun

def ThreadsMeet (S : ι → Spec Ans) (post : ι → List (Event Ans) → Except ε ρ → Prop)
    (c : Config Ans ε σ ι ρ) : Prop :=
  ∀ t ∈ c.threads, Prog.Meets (S t.call) (post t.call) t.trace t.rest

theorem forall_mem_set {p : Thread Ans ε ι ρ → Prop} {ts : List (Thread Ans ε ι ρ)} {i : ℕ}
    {t : Thread Ans ε ι ρ} (hall : ∀ u ∈ ts, p u) (ht : p t) : ∀ u ∈ ts.set i t, p u := by
  intro u hu
  rcases List.mem_or_eq_of_mem_set hu with hu | rfl
  · exact hall u hu
  · exact ht

theorem exists_mem_set {α : Type} {p : α → Prop} {ts : List α} {i : ℕ} {t t' : α}
    (ht : ts[i]? = some t) (hp : p t → p t') (h : ∃ u ∈ ts, p u) : ∃ u ∈ ts.set i t', p u := by
  obtain ⟨u,hu,hpu⟩ := h
  obtain ⟨j,hj⟩ := List.getElem?_of_mem hu
  by_cases hij : i = j
  · subst hij
    rw [ht,Option.some.injEq] at hj
    subst hj
    exact ⟨t',List.mem_set (List.getElem?_eq_some_iff.mp ht).1 _,hp hpu⟩
  · exact ⟨u,List.mem_of_getElem? ((List.getElem?_set_ne hij).trans hj),hpu⟩

theorem of_getElem?_set {α : Type} {ts : List α} {i j : ℕ} {t' u : α}
    (h : (ts.set i t')[j]? = some u) : (j = i ∧ u = t') ∨ (j ≠ i ∧ ts[j]? = some u) := by
  by_cases hij : j = i
  · subst hij
    have hlt : j < ts.length := by
      have hlt := (List.getElem?_eq_some_iff.mp h).1
      rwa [List.length_set] at hlt
    rw [List.getElem?_set_self hlt,Option.some.injEq] at h
    exact .inl ⟨rfl,h.symm⟩
  · rw [List.getElem?_set_ne (Ne.symm hij)] at h
    exact .inr ⟨hij,h⟩

theorem countP_cons_toNat {α : Type} (q : α → Bool) (t : α) (ts : List α) :
    (t :: ts).countP q = ts.countP q + (q t).toNat := by
  cases h : q t <;> simp [h]

theorem countP_set_toNat {α : Type} (q : α → Bool) {ts : List α} {i : ℕ} {t : α} (t' : α)
    (ht : ts[i]? = some t) :
    (ts.set i t').countP q + (q t).toNat = ts.countP q + (q t').toNat := by
  obtain ⟨hi,rfl⟩ := List.getElem?_eq_some_iff.mp ht
  rw [(List.set_perm_cons_eraseIdx hi t').countP_eq,
    ← (List.getElem_cons_eraseIdx_perm hi).countP_eq,List.countP_cons,List.countP_cons]
  cases q t' <;> cases q ts[i] <;> simp

theorem countP_set_of_same {α : Type} {q : α → Bool} {ts : List α} {i : ℕ} {t t' : α}
    (ht : ts[i]? = some t) (hq : q t' = q t) : (ts.set i t').countP q = ts.countP q := by
  have hcount := countP_set_toNat q t' ht
  rw [hq] at hcount
  exact Nat.add_right_cancel hcount

theorem countP_set_of_new {α : Type} {q : α → Bool} {ts : List α} {i : ℕ} {t t' : α}
    (ht : ts[i]? = some t) (hq : q t = false) (hq' : q t' = true) :
    (ts.set i t').countP q = ts.countP q + 1 := by
  simpa [hq,hq'] using countP_set_toNat q t' ht

theorem countP_set_of_drop {α : Type} {q : α → Bool} {ts : List α} {i : ℕ} {t t' : α}
    (ht : ts[i]? = some t) (hq : q t = true) (hq' : q t' = false) :
    (ts.set i t').countP q + 1 = ts.countP q := by
  simpa [hq,hq'] using countP_set_toNat q t' ht

theorem countP_le_set {α : Type} {q : α → Bool} {ts : List α} {i : ℕ} {t t' : α}
    (ht : ts[i]? = some t) (hq : q t = true → q t' = true) :
    ts.countP q ≤ (ts.set i t').countP q := by
  have hcount := countP_set_toNat q t' ht
  have hbit := Bool.toNat_le_toNat hq
  omega

theorem countP_set_le {α : Type} {q : α → Bool} {ts : List α} {i : ℕ} {t t' : α}
    (ht : ts[i]? = some t) (hq : q t' = true → q t = true) :
    (ts.set i t').countP q ≤ ts.countP q := by
  have hcount := countP_set_toNat q t' ht
  have hbit := Bool.toNat_le_toNat hq
  omega

theorem eq_of_countP_le_one {α : Type} {q : α → Bool} {ts : List α} {i j : ℕ} {a b : α}
    (h : ts.countP q ≤ 1) (ha : ts[i]? = some a) (hb : ts[j]? = some b) (hqa : q a = true)
    (hqb : q b = true) : i = j := by
  induction ts generalizing i j with
  | nil => cases ha
  | cons t ts ih =>
    have hrest : ∀ u ∈ ts, q u = true → 0 < ts.countP q :=
      fun u hu hqu => List.countP_pos_iff.mpr ⟨u,hu,hqu⟩
    rw [List.countP_cons] at h
    cases i with
    | zero =>
      cases j with
      | zero => rfl
      | succ j =>
        cases ha
        have := hrest b (List.mem_of_getElem? hb) hqb
        rw [if_pos hqa] at h
        omega
    | succ i =>
      cases j with
      | zero =>
        cases hb
        have := hrest a (List.mem_of_getElem? ha) hqa
        rw [if_pos hqb] at h
        omega
      | succ j => rw [ih (by omega) ha hb]

theorem countP_set_of_only {α : Type} {q : α → Bool} {ts : List α} {i : ℕ} {t : α} (t' : α)
    (ht : ts[i]? = some t) (hq : ∀ u ∈ ts.eraseIdx i, q u = false) :
    (ts.set i t').countP q ≤ 1 := by
  obtain ⟨hi,_⟩ := List.getElem?_eq_some_iff.mp ht
  have hzero : (ts.eraseIdx i).countP q = 0 := List.countP_eq_zero.mpr fun u hu => by simp [hq u hu]
  rw [(List.set_perm_cons_eraseIdx hi t').countP_eq,List.countP_cons,hzero]
  split_ifs <;> omega

theorem always_step {Q : ι → List (Event Ans) → Prog Op Ans ε ρ → Prop}
    (hprog : ∀ call, Prog.Always (Q call) [] (m.program call))
    {c c' : Config Ans ε σ ι ρ} {a : Action ι χ ν}
    (h : ∀ t ∈ c.threads, Prog.Always (Q t.call) t.trace t.rest) (hs : m.step c a = some c') :
    ∀ t ∈ c'.threads, Prog.Always (Q t.call) t.trace t.rest := by
  obtain ⟨call,rfl,rfl⟩ | ⟨i,x,t,op,k,ans,s',rfl,ht,hal,hrest,hx,rfl⟩ | ⟨i,t,rfl,ht,rfl⟩ |
    ⟨e,rfl,rfl⟩ := m.step_cases hs
  · intro t ht
    rcases List.mem_append.mp ht with ht | ht
    · exact h t ht
    · rw [List.mem_singleton.mp ht]
      exact hprog call
  · have hm := h t (List.mem_of_getElem? ht)
    rw [hrest,Prog.always_call] at hm
    exact forall_mem_set h (hm.2 ans)
  · exact forall_mem_set h (h t (List.mem_of_getElem? ht))
  · exact h

theorem ThreadsMeet.step {S : ι → Spec Ans} {post : ι → List (Event Ans) → Except ε ρ → Prop}
    (hprog : ∀ call, Prog.Meets (S call) (post call) [] (m.program call))
    (hans : ∀ call s op x ans s', m.exec s op x = some (ans,s') → (S call).ans op ans)
    {c c' : Config Ans ε σ ι ρ} {a : Action ι χ ν} (h : ThreadsMeet S post c)
    (hs : m.step c a = some c') : ThreadsMeet S post c' := by
  obtain ⟨call,rfl,rfl⟩ | ⟨i,x,t,op,k,ans,s',rfl,ht,hal,hrest,hx,rfl⟩ | ⟨i,t,rfl,ht,rfl⟩ |
    ⟨e,rfl,rfl⟩ := m.step_cases hs
  · intro t ht
    rcases List.mem_append.mp ht with ht | ht
    · exact h t ht
    · rw [List.mem_singleton.mp ht]
      exact hprog call
  · have hm := h t (List.mem_of_getElem? ht)
    rw [hrest,Prog.meets_call] at hm
    exact forall_mem_set h (hm.2 ans (hans t.call c.shared op x ans s' hx))
  · exact forall_mem_set h (h t (List.mem_of_getElem? ht))
  · exact h

section Invariants

variable {m} {S : ι → Spec Ans} {post : ι → List (Event Ans) → Except ε ρ → Prop}
  {P : Config Ans ε σ ι ρ → Action ι χ ν → Prop}

theorem run_config_invariant {J : Config Ans ε σ ι ρ → Prop}
    (hprog : ∀ call, Prog.Meets (S call) (post call) [] (m.program call))
    (hstart : ∀ c call, J c → P c (.start call) →
      J { c with threads := c.threads ++ [⟨call,m.program call,[],true⟩] })
    (hexec : ∀ c i x t op k ans s', J c → P c (.exec i x) → c.threads[i]? = some t →
      t.alive = true → t.rest = .call op k → (S t.call).pre t.trace op →
      m.exec c.shared op x = some (ans,s') → (S t.call).ans op ans ∧
      J ⟨s',c.threads.set i { t with rest := k ans, trace := ⟨op,ans⟩ :: t.trace }⟩)
    (hcrash : ∀ c i t, J c → P c (.crash i) → c.threads[i]? = some t →
      J { c with threads := c.threads.set i { t with alive := false } })
    (henv : ∀ c e, J c → P c (.env e) → J { c with shared := m.env c.shared e })
    {acts : List (Action ι χ ν)} {c c' : Config Ans ε σ ι ρ}
    (hc : J c) (hmeet : ThreadsMeet S post c) (hP : m.Along P acts c)
    (hrun : m.run acts c = some c') : J c' ∧ ThreadsMeet S post c' := by
  refine m.run_invariant (I := fun c => J c ∧ ThreadsMeet S post c) ?_ ⟨hc,hmeet⟩ hP hrun
  rintro c a c' ⟨hJ,hM⟩ hPa hs
  obtain ⟨call,rfl,rfl⟩ | ⟨i,x,t,op,k,ans,s',rfl,ht,hal,hrest,hx,rfl⟩ | ⟨i,t,rfl,ht,rfl⟩ |
    ⟨e,rfl,rfl⟩ := m.step_cases hs
  · refine ⟨hstart c call hJ hPa,?_⟩
    intro t ht
    rcases List.mem_append.mp ht with ht | ht
    · exact hM t ht
    · rw [List.mem_singleton.mp ht]
      exact hprog call
  · have hm := hM t (List.mem_of_getElem? ht)
    rw [hrest,Prog.meets_call] at hm
    obtain ⟨hans,hJ'⟩ := hexec c i x t op k ans s' hJ hPa ht hal hrest hm.1 hx
    exact ⟨hJ',forall_mem_set hM (hm.2 ans hans)⟩
  · exact ⟨hcrash c i t hJ hPa ht,forall_mem_set hM (hM t (List.mem_of_getElem? ht))⟩
  · exact ⟨henv c e hJ hPa,hM⟩

theorem run_shared_invariant {J : σ → Prop}
    (hprog : ∀ call, Prog.Meets (S call) (post call) [] (m.program call))
    (hexec : ∀ c i x t op ans s', J c.shared → P c (.exec i x) → t ∈ c.threads →
      (S t.call).pre t.trace op → m.exec c.shared op x = some (ans,s') →
      (S t.call).ans op ans ∧ J s')
    (henv : ∀ c e, J c.shared → P c (.env e) → J (m.env c.shared e))
    {acts : List (Action ι χ ν)} {c c' : Config Ans ε σ ι ρ}
    (hc : J c.shared) (hmeet : ThreadsMeet S post c) (hP : m.Along P acts c)
    (hrun : m.run acts c = some c') : J c'.shared ∧ ThreadsMeet S post c' := by
  refine run_config_invariant (J := fun c => J c.shared) hprog (fun _ _ h _ => h) ?_
    (fun _ _ _ h _ _ => h) henv hc hmeet hP hrun
  intro c i x t op k ans s' hJ hPa ht _ _ hpre hx
  exact hexec c i x t op ans s' hJ hPa (List.mem_of_getElem? ht) hpre hx

theorem run_trace_facts {F : Event Ans → σ → Prop}
    (hnew : ∀ s op x ans s', m.exec s op x = some (ans,s') → F ⟨op,ans⟩ s')
    (hexec : ∀ ev s op x ans s', F ev s → m.exec s op x = some (ans,s') → F ev s')
    (henv : ∀ ev s e, F ev s → F ev (m.env s e))
    {acts : List (Action ι χ ν)} {c c' : Config Ans ε σ ι ρ}
    (hc : ∀ t ∈ c.threads, ∀ ev ∈ t.trace, F ev c.shared)
    (hrun : m.run acts c = some c') : ∀ t ∈ c'.threads, ∀ ev ∈ t.trace, F ev c'.shared := by
  refine m.run_invariant (I := fun c => ∀ t ∈ c.threads, ∀ ev ∈ t.trace, F ev c.shared)
    (P := fun _ _ => True) ?_ hc (m.along_true acts c) hrun
  intro c a c' hI _ hs
  obtain ⟨call,rfl,rfl⟩ | ⟨i,x,t,op,k,ans,s',rfl,ht,hal,hrest,hx,rfl⟩ | ⟨i,t,rfl,ht,rfl⟩ |
    ⟨e,rfl,rfl⟩ := m.step_cases hs
  · intro t ht
    rcases List.mem_append.mp ht with ht | ht
    · exact hI t ht
    · rw [List.mem_singleton.mp ht]
      simp
  · have hold : ∀ u ∈ c.threads, ∀ ev ∈ u.trace, F ev s' := fun u hu ev hev =>
      hexec ev _ _ _ _ _ (hI u hu ev hev) hx
    refine forall_mem_set hold ?_
    intro ev hev
    rcases List.mem_cons.mp hev with rfl | hev
    · exact hnew _ _ _ _ _ hx
    · exact hold t (List.mem_of_getElem? ht) ev hev
  · exact forall_mem_set hI (hI t (List.mem_of_getElem? ht))
  · exact fun t ht ev hev => henv ev _ e (hI t ht ev hev)

end Invariants

end Machine

end Nimburion.Interaction
