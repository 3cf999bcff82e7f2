import Mathlib.Data.List.Lex
import Mathlib.Data.Prod.Lex
import Mathlib.Data.Sum.Order
import Mathlib.Order.WithBot
import Mathlib.Tactic.Common

namespace Nimburion.ThreeWay

variable {α β : Type} [LinearOrder α] [LinearOrder β]

def order (a b : α) : Int := if a < b then -1 else if b < a then 1 else 0

theorem order_of_lt {a b : α} (h : a < b) : order a b = -1 := if_pos h

theorem order_of_gt {a b : α} (h : b < a) : order a b = 1 := by
  rw [order,if_neg (not_lt.mpr h.le),if_pos h]

@[simp] theorem order_self (a : α) : order a a = 0 := by simp [order]

theorem order_eq_neg_one_iff {a b : α} : order a b = -1 ↔ a < b := by
  rcases lt_trichotomy a b with h | rfl | h
  · simp [order_of_lt h,h]
  · simp
  · simp [order_of_gt h,h.not_gt]

theorem order_eq_one_iff {a b : α} : order a b = 1 ↔ b < a := by
  rcases lt_trichotomy a b with h | rfl | h
  · simp [order_of_lt h,h.not_gt]
  · simp
  · simp [order_of_gt h,h]

theorem order_eq_zero_iff {a b : α} : order a b = 0 ↔ a = b := by
  rcases lt_trichotomy a b with h | rfl | h
  · simp [order_of_lt h,h.ne]
  · simp
  · simp [order_of_gt h,h.ne']

theorem order_nonpos_iff {a b : α} : order a b ≤ 0 ↔ a ≤ b := by
  rcases lt_trichotomy a b with h | rfl | h
  · simp [order_of_lt h,h.le]
  · simp
  · simp [order_of_gt h,h.not_ge]

theorem order_swap (a b : α) : order b a = -order a b := by
  rcases lt_trichotomy a b with h | rfl | h
  · rw [order_of_lt h,order_of_gt h]; rfl
  · simp
  · rw [order_of_lt h,order_of_gt h]

-- the two comparisons of ordered values agree when they order the same way
theorem order_eq_order_iff {a b : α} {c d : β} :
    order a b = order c d ↔ (a < b ↔ c < d) ∧ (b < a ↔ d < c) := by
  rcases lt_trichotomy a b with h | rfl | h
  · rw [order_of_lt h,eq_comm,order_eq_neg_one_iff]
    simp only [h,h.not_gt,true_iff,false_iff,not_lt]
    exact ⟨fun hcd => ⟨hcd,hcd.le⟩,And.left⟩
  · rw [order_self,eq_comm,order_eq_zero_iff]
    simp only [lt_self_iff_false,false_iff,not_lt]
    exact ⟨fun hcd => ⟨hcd.ge,hcd.le⟩,fun hcd => le_antisymm hcd.2 hcd.1⟩
  · rw [order_of_gt h,eq_comm,order_eq_one_iff]
    simp only [h,h.not_gt,true_iff,false_iff,not_lt]
    exact ⟨fun hcd => ⟨hcd.le,hcd⟩,And.right⟩

theorem order_map {f : α → β} (hf : StrictMono f) (a b : α) : order (f a) (f b) = order a b := by
  rw [order_eq_order_iff,hf.lt_iff_lt,hf.lt_iff_lt]
  exact ⟨Iff.rfl,Iff.rfl⟩

theorem order_toLex (a c : α) (b d : β) :
    order (toLex (a,b)) (toLex (c,d)) = if order a c ≠ 0 then order a c else order b d := by
  rcases lt_trichotomy a c with h | rfl | h
  · rw [order_of_lt (Prod.Lex.toLex_lt_toLex.mpr (Or.inl h)),order_of_lt h]
    simp
  · simp only [order_self,ne_eq,not_true_eq_false,if_false]
    rw [order_eq_order_iff]
    simp [Prod.Lex.toLex_lt_toLex]
  · rw [order_of_gt (Prod.Lex.toLex_lt_toLex.mpr (Or.inl h)),order_of_gt h]
    simp

theorem order_cons (a b : α) (as bs : List α) :
    order (a :: as) (b :: bs) = if order a b ≠ 0 then order a b else order as bs := by
  rcases lt_trichotomy a b with h | rfl | h
  · rw [order_of_lt (List.cons_lt_cons_iff.mpr (Or.inl h)),order_of_lt h]
    simp
  · simp only [order_self,ne_eq,not_true_eq_false,if_false]
    rw [order_eq_order_iff]
    simp
  · rw [order_of_gt (List.cons_lt_cons_iff.mpr (Or.inl h)),order_of_gt h]
    simp

end Nimburion.ThreeWay
