import Nimburion.Errors
import Nimburion.Lib.GoTime
import Mathlib.Tactic.Common

namespace Nimburion.Retry

open GoTime

inductive Disposition where
  | immediateRetry
  | delayedRetry
  | deadLetter
  | quarantine
  | drop
  deriving DecidableEq, Repr

def classify : Option GoError → Classification
  | none => .retryable
  | some err => err.tag?.getD .retryable

structure Budget where
  maxAttempts : Int64
  initialBackoff : Duration
  maxBackoff : Duration
  attemptTimeout : Duration
  deriving DecidableEq, Repr

def Budget.normalize (b : Budget) (maxAttempts : Int64)
    (initialBackoff maxBackoff attemptTimeout : Duration) : Budget where
  maxAttempts := if b.maxAttempts ≤ 0 then maxAttempts else b.maxAttempts
  initialBackoff := if b.initialBackoff ≤ 0 then initialBackoff else b.initialBackoff
  maxBackoff := if b.maxBackoff ≤ 0 then maxBackoff else b.maxBackoff
  attemptTimeout := if b.attemptTimeout ≤ 0 then attemptTimeout else b.attemptTimeout

structure Policy where
  deadLetterEnabled : Bool
  quarantineEnabled : Bool
  deriving DecidableEq, Repr

structure Decision where
  classification : Classification
  disposition : Disposition
  attempt : Int64
  maxAttempts : Int64
  delay : Duration
  deriving DecidableEq, Repr

def backoffLoop (maxBackoff : Duration) : ℕ → Duration → Duration
  | 0, backoff => if maxBackoff < backoff then maxBackoff else backoff
  | n+1, backoff =>
      if maxBackoff.tdiv 2 ≤ backoff then maxBackoff else backoffLoop maxBackoff n (backoff*2)

def exponentialBackoff (attempt : Int64) (initial maxBackoff : Duration) : Duration :=
  if attempt ≤ 0 then initial else backoffLoop maxBackoff (attempt.toInt.toNat-1) initial

def decide (class_ : Classification) (attempt maxAttempts : Int64) (budget : Budget)
    (policy : Policy) : Decision :=
  let maxAttempts := if maxAttempts ≤ 0 then 1 else maxAttempts
  let decision (d : Disposition) (delay : Duration) : Decision :=
    ⟨class_,d,attempt,maxAttempts,delay⟩
  match class_ with
  | .poison =>
      if policy.quarantineEnabled then decision .quarantine 0
      else if policy.deadLetterEnabled then decision .deadLetter 0
      else decision .drop 0
  | .terminal =>
      if policy.deadLetterEnabled then decision .deadLetter 0
      else decision .drop 0
  | .retryable =>
      if attempt < maxAttempts then
        decision .delayedRetry
          (exponentialBackoff attempt budget.initialBackoff budget.maxBackoff)
      else if policy.quarantineEnabled then decision .quarantine 0
      else if policy.deadLetterEnabled then decision .deadLetter 0
      else decision .drop 0

structure QuarantineRecord where
  scope : String
  key : String
  classification : Classification
  reason : String
  attempt : Int64
  maxAttempts : Int64
  occurredAt : Int
  metadata : List (String × String)
  deriving DecidableEq, Repr

theorem decide_delay (class_ : Classification) (attempt maxAttempts : Int64) (budget : Budget)
    (policy : Policy) : (decide class_ attempt maxAttempts budget policy).delay = 0 ∨
      (decide class_ attempt maxAttempts budget policy).delay =
        exponentialBackoff attempt budget.initialBackoff budget.maxBackoff := by
  cases class_ with
  | retryable =>
    by_cases hretry : attempt < (if maxAttempts ≤ 0 then 1 else maxAttempts)
    · exact .inr (by simp only [decide,hretry,if_true])
    · left
      simp only [decide,hretry,if_false]
      split_ifs <;> rfl
  | poison =>
    left
    simp only [decide]
    split_ifs <;> rfl
  | terminal =>
    left
    simp only [decide]
    split_ifs <;> rfl

theorem decide_delayedRetry_iff (class_ : Classification) (attempt maxAttempts : Int64)
    (budget : Budget) (policy : Policy) :
    (decide class_ attempt maxAttempts budget policy).disposition = .delayedRetry ↔
      class_ = .retryable ∧ attempt < (if maxAttempts ≤ 0 then 1 else maxAttempts) := by
  cases class_ with
  | retryable =>
    simp only [decide]
    split_ifs <;> simp_all
  | poison => simp only [decide]; split_ifs <;> simp
  | terminal => simp only [decide]; split_ifs <;> simp

end Nimburion.Retry
