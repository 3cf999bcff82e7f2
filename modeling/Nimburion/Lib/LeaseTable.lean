import Mathlib.Logic.Function.Basic
import Mathlib.Tactic.Common

namespace Nimburion.LeaseTable

structure Row (T : Type) where
  token : T
  expiresAt : Int
  deriving DecidableEq

abbrev Table (K T : Type) := K → Option (Row T)

variable {K T : Type} [DecidableEq K] [DecidableEq T]

section Commands

variable (alive : Row T → Bool) (tab : Table K T) (k : K) (token : T)

def live : Option (Row T) := (tab k).filter alive

def current : Bool := (live alive tab k).any fun row => row.token = token

def claim (expiresAt : Int) : Bool × Table K T :=
  if (live alive tab k).isSome then (false,tab)
  else (true,Function.update tab k (some ⟨token,expiresAt⟩))

def extend (expiresAt : Option Int) : Bool × Table K T :=
  if current alive tab k token then
    (true,Function.update tab k (expiresAt.map fun t => ⟨token,t⟩))
  else (false,tab)

def drop : Bool × Table K T :=
  if current alive tab k token then (true,Function.update tab k none) else (false,tab)

end Commands

section Rules

variable {alive : Row T → Bool} {tab : Table K T} {k : K} {token token' : T} {expiresAt : Int}

section Current

omit [DecidableEq K]

theorem current_iff : current alive tab k token = true ↔
    ∃ row, tab k = some row ∧ alive row = true ∧ row.token = token := by
  cases h : tab k <;> simp [current,live,h,Option.filter_some]
  split_ifs with halive <;> simp [halive]

theorem current_unique (h : current alive tab k token = true)
    (h' : current alive tab k token' = true) : token = token' := by
  obtain ⟨row,hrow,_,rfl⟩ := current_iff.mp h
  obtain ⟨row',hrow',_,rfl⟩ := current_iff.mp h'
  rw [hrow,Option.some.injEq] at hrow'
  rw [hrow']

end Current

section Claim

omit [DecidableEq T]

theorem claim_of_live (h : (live alive tab k).isSome = true) :
    claim alive tab k token expiresAt = (false,tab) := if_pos h

theorem claim_of_free (h : live alive tab k = none) :
    claim alive tab k token expiresAt =
      (true,Function.update tab k (some ⟨token,expiresAt⟩)) := by
  simp [claim,h]

theorem claim_fst : (claim alive tab k token expiresAt).1 = (live alive tab k).isNone := by
  cases h : live alive tab k <;> simp [claim,h]

end Claim

theorem extend_of_current (h : current alive tab k token = true) (t : Option Int) :
    extend alive tab k token t = (true,Function.update tab k (t.map fun t => ⟨token,t⟩)) := if_pos h

theorem extend_of_stale (h : current alive tab k token = false) (t : Option Int) :
    extend alive tab k token t = (false,tab) := by
  simp [extend,h]

theorem extend_fst (t : Option Int) :
    (extend alive tab k token t).1 = current alive tab k token := by
  cases h : current alive tab k token <;> simp [extend,h]

theorem drop_of_stale (h : current alive tab k token = false) :
    drop alive tab k token = (false,tab) := by
  simp [drop,h]

end Rules

end Nimburion.LeaseTable
