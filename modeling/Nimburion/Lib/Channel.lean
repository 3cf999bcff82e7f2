import Mathlib.Data.List.Basic
import Mathlib.Tactic.Common

namespace Nimburion

-- a Go channel with a buffer
structure Channel (α : Type) where
  capacity : ℕ
  buffer : List α
  closed : Bool
  deriving DecidableEq, Repr

inductive Offered (α : Type) where
  | sent (ch : Channel α)
  | full
  | panicked
  deriving DecidableEq, Repr

namespace Channel
variable {α : Type}

def make (capacity : ℕ) : Channel α := ⟨capacity,[],false⟩

-- select with this send and a default
def offer (ch : Channel α) (x : α) : Offered α :=
  if ch.closed then .panicked
  else if ch.buffer.length < ch.capacity then .sent { ch with buffer := ch.buffer ++ [x] }
  else .full

-- none is the panic of a second close
def close (ch : Channel α) : Option (Channel α) :=
  if ch.closed then none else some { ch with closed := true }

def receive (ch : Channel α) : Option (α × Channel α) :=
  match ch.buffer with
  | [] => none
  | x :: buffer => some (x,{ ch with buffer := buffer })

theorem offer_open {ch : Channel α} (h : ch.closed = false) (x : α) :
    (ch.offer x = .full ∧ ch.capacity ≤ ch.buffer.length) ∨
      ch.offer x = .sent { ch with buffer := ch.buffer ++ [x] } := by
  by_cases hroom : ch.buffer.length < ch.capacity
  · right
    simp [offer,h,hroom]
  · left
    exact ⟨by simp [offer,h,hroom],Nat.le_of_not_lt hroom⟩

theorem receive_eq_some {ch ch' : Channel α} {x : α} (h : ch.receive = some (x,ch')) :
    ch.buffer = x :: ch'.buffer ∧ ch'.closed = ch.closed := by
  cases hb : ch.buffer with
  | nil => simp [receive,hb] at h
  | cons y buffer =>
    simp only [receive,hb,Option.some.injEq,Prod.mk.injEq] at h
    obtain ⟨rfl,rfl⟩ := h
    exact ⟨rfl,rfl⟩

end Channel

end Nimburion
