import Mathlib.Algebra.Group.Nat.Defs
import Mathlib.Data.List.Induction
import Mathlib.Tactic.Common

-- unsigned numbers in a fixed number of bytes, the highest byte first
namespace Nimburion.BigEndian

def put : ℕ → ℕ → List UInt8
  | 0, _ => []
  | w+1, n => put w (n/256) ++ [UInt8.ofNat n]

def value (bs : List UInt8) : ℕ := bs.foldl (fun n b => 256*n+b.toNat) 0

theorem value_concat (bs : List UInt8) (b : UInt8) : value (bs ++ [b]) = 256*value bs+b.toNat := by
  simp [value]

@[simp] theorem length_put (w n : ℕ) : (put w n).length = w := by
  induction w generalizing n with
  | zero => rfl
  | succ w ih => rw [put,List.length_append,ih,List.length_singleton]

theorem value_put {w n : ℕ} (h : n < 256^w) : value (put w n) = n := by
  induction w generalizing n with
  | zero =>
    have hn : n = 0 := by simpa using h
    rw [hn]
    rfl
  | succ w ih =>
    have hdiv : n/256 < 256^w := by
      rw [Nat.pow_succ] at h
      omega
    rw [put,value_concat,ih hdiv,UInt8.toNat_ofNat']
    omega

theorem put_value (bs : List UInt8) : put bs.length (value bs) = bs := by
  induction bs using List.reverseRecOn with
  | nil => rfl
  | append_singleton bs b ih =>
    have hb : b.toNat < 256 := b.toNat_lt
    have hdiv : (256*value bs+b.toNat)/256 = value bs := by omega
    have hlast : UInt8.ofNat (256*value bs+b.toNat) = b := by
      apply UInt8.toNat_inj.mp
      rw [UInt8.toNat_ofNat']
      omega
    rw [List.length_append,List.length_singleton,value_concat,put,hdiv,ih,hlast]

theorem value_lt (bs : List UInt8) : value bs < 256^bs.length := by
  induction bs using List.reverseRecOn with
  | nil => simp [value]
  | append_singleton bs b ih =>
    have hb : b.toNat < 256 := b.toNat_lt
    rw [value_concat,List.length_append,List.length_singleton,Nat.pow_succ]
    omega

end Nimburion.BigEndian
