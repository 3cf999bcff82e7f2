import Mathlib.Data.List.Basic
import Mathlib.Tactic.Common

namespace Nimburion.GoSlice

-- an array with its first cells written
structure Array (α : Type) where
  cap : ℕ
  cells : List α

-- a slice that starts at the start of its array
structure Slice where
  array : ℕ
  len : ℕ
  deriving DecidableEq, Repr

-- the capacity of the array that append allocates
structure Growth where
  newCap : ℕ → ℕ → ℕ
  enough : ∀ oldCap newLen, newLen ≤ newCap oldCap newLen

abbrev Heap (α : Type) := List (Array α)

variable {α : Type}

def Heap.at (h : Heap α) (i : ℕ) : Array α := (h[i]?).getD ⟨0,[]⟩

def Heap.read (h : Heap α) (s : Slice) : List α := (h.at s.array).cells.take s.len

def overwrite (cells : List α) (n : ℕ) (xs : List α) : List α :=
  cells.take n ++ xs ++ cells.drop (n+xs.length)

def fits (h : Heap α) (s : Slice) (xs : List α) : Bool := s.len+xs.length ≤ (h.at s.array).cap

def Heap.append (g : Growth) (h : Heap α) (s : Slice) (xs : List α) : Heap α × Slice :=
  if fits h s xs then
    (h.set s.array ⟨(h.at s.array).cap,overwrite (h.at s.array).cells s.len xs⟩,
      ⟨s.array,s.len+xs.length⟩)
  else
    (h ++ [⟨g.newCap (h.at s.array).cap (s.len+xs.length),h.read s ++ xs⟩],
      ⟨h.length,s.len+xs.length⟩)

-- the cells the slice shows are there and written
structure Heap.Valid (h : Heap α) (s : Slice) : Prop where
  alloc : s.array < h.length
  written : s.len ≤ (h.at s.array).cells.length

section Cells

variable {cells xs : List α} {n k : ℕ}

theorem take_overwrite (hn : n ≤ cells.length) :
    (overwrite cells n xs).take (n+xs.length) = cells.take n ++ xs := by
  have hlen : (cells.take n ++ xs).length = n+xs.length := by simp [hn]
  rw [overwrite,← hlen,List.take_left']
  rfl

theorem length_overwrite (hn : n ≤ cells.length) :
    (overwrite cells n xs).length = max cells.length (n+xs.length) := by
  simp only [overwrite,List.length_append,List.length_take,List.length_drop]
  omega

theorem getElem?_overwrite (hn : n ≤ cells.length) (i : ℕ) : (overwrite cells n xs)[i]? =
    if n ≤ i ∧ i < n+xs.length then xs[i-n]? else cells[i]? := by
  have hlen : (cells.take n).length = n := by simp [hn]
  rw [overwrite,List.append_assoc,List.getElem?_append]
  split_ifs with hi hin hin
  · omega
  · rw [List.getElem?_take_of_lt (by omega)]
  · rw [hlen,List.getElem?_append_left (by omega)]
  · rw [hlen,List.getElem?_append_right (by omega),List.getElem?_drop]
    congr 1
    omega

theorem take_overwrite_eq_iff (hn : n ≤ cells.length) (hk : k ≤ cells.length) :
    (overwrite cells n xs).take k = cells.take k ↔
      ¬∃ i x y, (cells.take k)[n+i]? = some x ∧ xs[i]? = some y ∧ x ≠ y := by
  constructor
  · rintro heq ⟨i,x,y,hx,hy,hne⟩
    have hik : n+i < k := by
      by_contra hik
      rw [List.getElem?_take_eq_none (by omega)] at hx
      cases hx
    have hi := (List.getElem?_eq_some_iff.mp hy).1
    rw [← heq,List.getElem?_take_of_lt hik,getElem?_overwrite hn,if_pos (by omega),
      Nat.add_sub_cancel_left,hy] at hx
    exact hne (Option.some.inj hx).symm
  · intro hsame
    apply List.ext_getElem?
    intro j
    by_cases hj : j < k
    · rw [List.getElem?_take_of_lt hj,List.getElem?_take_of_lt hj,getElem?_overwrite hn]
      split_ifs with hin
      · have hx : cells[j]? = some (cells.get ⟨j,by omega⟩) := List.getElem?_eq_getElem (by omega)
        have hy : xs[j-n]? = some (xs.get ⟨j-n,by omega⟩) := List.getElem?_eq_getElem (by omega)
        by_contra hne
        refine hsame ⟨j-n,cells.get ⟨j,by omega⟩,_,?_,hy,fun heq => hne ?_⟩
        · rw [List.getElem?_take_of_lt (by omega),Nat.add_sub_cancel' hin.1,hx]
        · rw [hx,hy,heq]
      · rfl
    · rw [List.getElem?_take_eq_none (by omega),List.getElem?_take_eq_none (by omega)]

end Cells

section Appending

variable (g : Growth) {h : Heap α} {s t : Slice} {xs : List α}

-- the slice shows a cell that the append overwrites with another value
def Clobbers (h : Heap α) (s : Slice) (xs : List α) (t : Slice) : Prop :=
  fits h s xs = true ∧ t.array = s.array ∧
    ∃ i x y, (h.read t)[s.len+i]? = some x ∧ xs[i]? = some y ∧ x ≠ y

theorem length_read (hs : h.Valid s) : (h.read s).length = s.len := by
  rw [Heap.read,List.length_take]
  exact Nat.min_eq_left hs.written

theorem at_set_self {a : Array α} {i : ℕ} (hi : i < h.length) : Heap.at (h.set i a) i = a := by
  rw [Heap.at,List.getElem?_set_self hi]
  rfl

theorem at_set_ne {a : Array α} {i j : ℕ} (hij : i ≠ j) : Heap.at (h.set i a) j = h.at j := by
  rw [Heap.at,List.getElem?_set_ne hij,Heap.at]

theorem at_alloc_new (a : Array α) : Heap.at (h ++ [a]) h.length = a := by
  simp [Heap.at]

theorem at_alloc_old {a : Array α} {i : ℕ} (hi : i < h.length) : Heap.at (h ++ [a]) i = h.at i := by
  rw [Heap.at,List.getElem?_append_left hi,Heap.at]

theorem read_append (hs : h.Valid s) :
    (h.append g s xs).1.read (h.append g s xs).2 = h.read s ++ xs := by
  unfold Heap.append
  split_ifs with hfits
  · simp only [Heap.read]
    rw [at_set_self hs.alloc]
    exact take_overwrite hs.written
  · simp only [Heap.read]
    rw [at_alloc_new]
    have hlen := length_read hs
    apply List.take_of_length_le
    apply Nat.le_of_eq
    rw [List.length_append,← Heap.read,hlen]

theorem read_append_other (hs : h.Valid s) (ht : h.Valid t) :
    (h.append g s xs).1.read t = h.read t ↔ ¬Clobbers h s xs t := by
  unfold Heap.append
  split_ifs with hfits
  · by_cases harray : t.array = s.array
    · simp only [Heap.read,harray]
      rw [at_set_self hs.alloc]
      have hwritten := ht.written
      rw [harray] at hwritten
      rw [take_overwrite_eq_iff hs.written hwritten,Clobbers]
      simp [hfits,harray,Heap.read]
    · simp only [Heap.read,Clobbers,harray,false_and,and_false,not_false_eq_true,iff_true]
      rw [at_set_ne (Ne.symm harray)]
  · simp only [Heap.read]
    rw [at_alloc_old ht.alloc]
    simp [Clobbers,hfits]

theorem not_clobbers_self (hs : h.Valid s) : ¬Clobbers h s xs s := by
  rintro ⟨_,_,i,x,y,hx,_⟩
  have hlt := (List.getElem?_eq_some_iff.mp hx).1
  rw [length_read hs] at hlt
  omega

theorem valid_append_self (hs : h.Valid s) : (h.append g s xs).1.Valid (h.append g s xs).2 := by
  unfold Heap.append
  split_ifs with hfits
  · refine ⟨by simpa using hs.alloc,?_⟩
    simp only
    rw [at_set_self hs.alloc,length_overwrite hs.written]
    exact Nat.le_max_right _ _
  · refine ⟨by simp,?_⟩
    apply Nat.le_of_eq
    simp only
    rw [at_alloc_new,List.length_append,length_read hs]

theorem valid_append (hs : h.Valid s) (ht : h.Valid t) : (h.append g s xs).1.Valid t := by
  unfold Heap.append
  split_ifs with hfits
  · refine ⟨by simpa using ht.alloc,?_⟩
    by_cases harray : t.array = s.array
    · have hwritten := ht.written
      rw [harray] at hwritten ⊢
      rw [at_set_self hs.alloc,length_overwrite hs.written]
      exact Nat.le_trans hwritten (Nat.le_max_left _ _)
    · rw [at_set_ne (Ne.symm harray)]
      exact ht.written
  · refine ⟨by have := ht.alloc; simp; omega,?_⟩
    rw [at_alloc_old ht.alloc]
    exact ht.written

theorem length_append_le : h.length ≤ (h.append g s xs).1.length := by
  unfold Heap.append
  split_ifs <;> simp

theorem cap_append {i : ℕ} (hs : h.Valid s) (hi : i < h.length) :
    ((h.append g s xs).1.at i).cap = (h.at i).cap := by
  unfold Heap.append
  split_ifs
  · by_cases heq : i = s.array
    · rw [heq,at_set_self hs.alloc]
    · rw [at_set_ne (Ne.symm heq)]
  · rw [at_alloc_old hi]

end Appending

section Keeping

-- every slice goes on showing what it showed
structure Keeps (h h' : Heap α) : Prop where
  length : h.length ≤ h'.length
  valid : ∀ t, h.Valid t → h'.Valid t
  read : ∀ t, h.Valid t → h'.read t = h.read t

variable {h h' h'' : Heap α} {s : Slice} {xs : List α}

theorem Keeps.trans (hk : Keeps h h') (hk' : Keeps h' h'') : Keeps h h'' where
  length := Nat.le_trans hk.length hk'.length
  valid t ht := hk'.valid t (hk.valid t ht)
  read t ht := (hk'.read t (hk.valid t ht)).trans (hk.read t ht)

-- an append to a slice that none of these slices shares cells with
theorem Keeps.append (g : Growth) (hk : Keeps h h') (hs : h'.Valid s)
    (hfree : s.array < h.length → (h'.at s.array).cap = 0) : Keeps h (h'.append g s xs).1 where
  length := Nat.le_trans hk.length (length_append_le g)
  valid t ht := valid_append g hs (hk.valid t ht)
  read t ht := by
    refine Eq.trans ?_ (hk.read t ht)
    rw [read_append_other g hs (hk.valid t ht)]
    rintro ⟨hfits,harray,i,x,y,_,hy,_⟩
    have halloc := ht.alloc
    rw [harray] at halloc
    have hi := (List.getElem?_eq_some_iff.mp hy).1
    simp only [fits,hfree halloc,decide_eq_true_eq] at hfits
    omega

theorem Keeps.refl (h : Heap α) : Keeps h h := ⟨Nat.le_refl _,fun _ ht => ht,fun _ _ => rfl⟩

end Keeping

end Nimburion.GoSlice
