import Mathlib.Data.List.Nodup
import Mathlib.Data.List.Perm.Basic
import Mathlib.Tactic.Common

-- what a loop over a map finds, whatever order it visits the entries in

namespace Nimburion.MapOrder

variable {α β κ : Type} {l l₁ l₂ : List α}

theorem exists_perm_head {a : α} (h : a ∈ l) : ∃ r, (a :: r).Perm l := by
  obtain ⟨s,t,rfl⟩ := List.append_of_mem h
  exact ⟨s ++ t,List.perm_middle.symm⟩

section First

variable {f : α → Option β}

def Agree (f : α → Option β) (l : List α) : Prop :=
  ∀ a ∈ l, ∀ b ∈ l, ∀ x y, f a = some x → f b = some y → x = y

theorem findSome?_eq_none_of_perm (hp : l₁.Perm l₂) :
    l₁.findSome? f = none ↔ l₂.findSome? f = none := by
  rw [List.findSome?_eq_none_iff,List.findSome?_eq_none_iff]
  exact ⟨fun h a ha => h a (hp.mem_iff.mpr ha),fun h a ha => h a (hp.mem_iff.mp ha)⟩

theorem Agree.findSome?_eq (h : Agree f l) (h₁ : l₁.Perm l) (h₂ : l₂.Perm l) :
    l₁.findSome? f = l₂.findSome? f := by
  have hnone := findSome?_eq_none_of_perm (f := f) (h₁.trans h₂.symm)
  cases hx : l₁.findSome? f with
  | none => rw [hnone.mp hx]
  | some x =>
    cases hy : l₂.findSome? f with
    | none =>
      rw [hnone.mpr hy] at hx
      cases hx
    | some y =>
      obtain ⟨a,ha,hax⟩ := List.exists_of_findSome?_eq_some hx
      obtain ⟨b,hb,hby⟩ := List.exists_of_findSome?_eq_some hy
      rw [h a (h₁.mem_iff.mp ha) b (h₂.mem_iff.mp hb) x y hax hby]

theorem findSome?_congr {g : α → Option β} (h : ∀ a ∈ l, f a = g a) :
    l.findSome? f = l.findSome? g := by
  induction l with
  | nil => rfl
  | cons a l ih =>
    rw [List.findSome?_cons,List.findSome?_cons,h a List.mem_cons_self,
      ih fun b hb => h b (List.mem_cons_of_mem _ hb)]

theorem findSome?_eq_of_head {a : α} {x : β} {r : List α} (h : f a = some x) :
    (a :: r).findSome? f = some x := by
  rw [List.findSome?_cons,h]

theorem agree_iff : Agree f l ↔
    ∀ l₁ l₂ : List α, l₁.Perm l → l₂.Perm l → l₁.findSome? f = l₂.findSome? f := by
  refine ⟨fun h l₁ l₂ h₁ h₂ => h.findSome?_eq h₁ h₂,fun h a ha b hb x y hx hy => ?_⟩
  obtain ⟨r,hr⟩ := exists_perm_head ha
  obtain ⟨s,hs⟩ := exists_perm_head hb
  have heq := h _ _ hr hs
  rw [findSome?_eq_of_head hx,findSome?_eq_of_head hy] at heq
  exact Option.some.inj heq

end First

section Representatives

-- one value for each class: that of `first` where there is one, else the first the loop meets
def Chosen (key : β → κ) (first : κ → Option β) (f : κ → α → Option β) (l : List α) (x : β) : Prop :=
  (first (key x)).or (l.findSome? (f (key x))) = some x

variable {key : β → κ} {first : κ → Option β} {f : κ → α → Option β}

theorem chosen_of_head {k : κ} {a : α} {x : β} {r : List α} (hkey : key x = k)
    (hfirst : first k = none) (hx : f k a = some x) : Chosen key first f (a :: r) x := by
  rw [Chosen,hkey,hfirst,Option.none_or,findSome?_eq_of_head hx]

theorem Chosen.unique {x y : β} (hx : Chosen key first f l x) (hy : Chosen key first f l y)
    (hkey : key x = key y) : x = y := by
  rw [Chosen,hkey,hy] at hx
  exact (Option.some.inj hx).symm

theorem chosen_iff (key : β → κ) (first : κ → Option β) (f : κ → α → Option β) (P : β → Prop)
    (l : List α) (hkey : ∀ k a x, f k a = some x → key x = k) :
    (∀ l₁ l₂ : List α, l₁.Perm l → l₂.Perm l →
      ∀ x, Chosen key first f l₁ x ∨ P x ↔ Chosen key first f l₂ x ∨ P x) ↔
    ∀ k, first k = none → ∀ a ∈ l, ∀ b ∈ l, ∀ x y, f k a = some x → f k b = some y →
      x = y ∨ P x ∧ P y := by
  constructor
  · intro h k hfirst a ha b hb x y hx hy
    obtain ⟨r,hr⟩ := exists_perm_head ha
    obtain ⟨s,hs⟩ := exists_perm_head hb
    have hxa : Chosen key first f (a :: r) x := chosen_of_head (hkey k a x hx) hfirst hx
    have hyb : Chosen key first f (b :: s) y := chosen_of_head (hkey k b y hy) hfirst hy
    have hsame : key x = key y := (hkey k a x hx).trans (hkey k b y hy).symm
    rcases (h _ _ hr hs x).mp (.inl hxa) with hxb | hPx
    · exact .inl (hxb.unique hyb hsame)
    · rcases (h _ _ hr hs y).mpr (.inl hyb) with hya | hPy
      · exact .inl (hxa.unique hya hsame)
      · exact .inr ⟨hPx,hPy⟩
  · intro h
    have hone : ∀ l₁ l₂ : List α, l₁.Perm l → l₂.Perm l → ∀ x, Chosen key first f l₁ x →
        Chosen key first f l₂ x ∨ P x := by
      intro l₁ l₂ h₁ h₂ x hx
      rw [Chosen] at hx
      cases hfirst : first (key x) with
      | some z =>
        rw [hfirst,Option.some_or] at hx
        exact .inl (by rw [Chosen,hfirst,Option.some_or,hx])
      | none =>
        rw [hfirst,Option.none_or] at hx
        obtain ⟨a,ha,hax⟩ := List.exists_of_findSome?_eq_some hx
        cases hy : l₂.findSome? (f (key x)) with
        | none =>
          rw [(findSome?_eq_none_of_perm (h₂.trans h₁.symm)).mp hy] at hx
          cases hx
        | some y =>
          obtain ⟨b,hb,hby⟩ := List.exists_of_findSome?_eq_some hy
          rcases h _ hfirst a (h₁.mem_iff.mp ha) b (h₂.mem_iff.mp hb) x y hax hby with rfl | hP
          · exact .inl (by rw [Chosen,hfirst,Option.none_or,hy])
          · exact .inr hP.1
    intro l₁ l₂ h₁ h₂ x
    constructor
    · rintro (hx | hP)
      · exact hone l₁ l₂ h₁ h₂ x hx
      · exact .inr hP
    · rintro (hx | hP)
      · exact hone l₂ l₁ h₂ h₁ x hx
      · exact .inr hP

end Representatives

section Last

variable {p : α → Bool} {f : β → List α} {groups : List β} {a : α}

theorem findLast_append (x y : List α) :
    (x ++ y).reverse.find? p = (y.reverse.find? p).or (x.reverse.find? p) := by
  rw [List.reverse_append,List.find?_append]

theorem findLast_of_none_after {x y : List α} (ha : p a = true) (hy : ∀ b ∈ y, p b = false) :
    (x ++ a :: y).reverse.find? p = some a := by
  have hnone : y.reverse.find? p = none := by
    rw [List.find?_eq_none]
    intro b hb
    simp [hy b (List.mem_reverse.mp hb)]
  rw [findLast_append,List.reverse_cons,List.find?_append,hnone,Option.none_or,
    List.find?_cons_of_pos ha,Option.some_or]

-- a later match hides an earlier one
theorem findLast_mem_after {x y : List α} {b : α} (hb : b ∈ y) (hp : p b = true) :
    ∃ c ∈ y, (x ++ y).reverse.find? p = some c := by
  cases hfound : y.reverse.find? p with
  | none =>
    rw [List.find?_eq_none] at hfound
    exact absurd hp (hfound b (List.mem_reverse.mpr hb))
  | some c =>
    refine ⟨c,List.mem_reverse.mp (List.mem_of_find?_eq_some hfound),?_⟩
    rw [findLast_append,hfound,Option.some_or]

-- groups are visited in any order and their entries in a fixed one; the last match stays
theorem findLast_iff (hnodup : (groups.flatMap f).Nodup) (ha : a ∈ groups.flatMap f)
    (hp : p a = true) :
    (∀ order : List β, order.Perm groups → (order.flatMap f).reverse.find? p = some a) ↔
      ∀ l g r, groups = l ++ g :: r → ∀ x y, f g = x ++ a :: y →
        ∀ b, b ∈ y ∨ b ∈ (l ++ r).flatMap f → p b = false := by
  constructor
  · rintro h l g r rfl x y hg b hb
    rw [← Bool.not_eq_true]
    intro hpb
    have hperm : (l ++ g :: r).Perm (g :: (l ++ r)) := List.perm_middle
    have hdup : a ∉ y ∧ a ∉ (l ++ r).flatMap f := by
      have hflat := (hperm.flatMap_right f).nodup_iff.mp hnodup
      rw [List.flatMap_cons,hg,List.append_assoc,List.nodup_append] at hflat
      simpa [List.nodup_cons] using (List.nodup_cons.mp hflat.2.1).1
    rcases hb with hb | hb
    · have hlast := h (l ++ r ++ [g]) ((List.perm_append_singleton _ _).trans hperm.symm)
      rw [List.flatMap_append,List.flatMap_singleton,hg,List.append_cons,← List.append_assoc] at hlast
      obtain ⟨c,hc,hfound⟩ := findLast_mem_after (x := (l ++ r).flatMap f ++ (x ++ [a])) hb hpb
      rw [hlast] at hfound
      cases hfound
      exact hdup.1 hc
    · obtain ⟨g',hg',hbg⟩ := List.mem_flatMap.mp hb
      obtain ⟨s,t,hst⟩ := List.append_of_mem hg'
      have horder : (s ++ t ++ [g] ++ [g']).Perm (l ++ g :: r) := by
        refine List.Perm.trans ?_ hperm.symm
        rw [hst]
        have hrest : (s ++ t ++ [g']).Perm (s ++ g' :: t) :=
          (List.perm_append_singleton _ _).trans List.perm_middle.symm
        exact (List.perm_append_comm.append_right [g']).trans (hrest.cons g)
      have hlast := h _ horder
      rw [List.flatMap_append,List.flatMap_singleton] at hlast
      obtain ⟨c,hc,hfound⟩ := findLast_mem_after (x := (s ++ t ++ [g]).flatMap f) hbg hpb
      rw [hlast] at hfound
      cases hfound
      exact hdup.2 (List.mem_flatMap.mpr ⟨g',hg',hc⟩)
  · intro h order horder
    obtain ⟨g,hg,hag⟩ := List.mem_flatMap.mp ((horder.flatMap_right f).mem_iff.mpr ha)
    obtain ⟨s,t,rfl⟩ := List.append_of_mem hg
    obtain ⟨x,y,hxy⟩ := List.append_of_mem hag
    obtain ⟨l,r,hlr⟩ := List.append_of_mem (horder.mem_iff.mp hg)
    have hrest : (s ++ t).Perm (l ++ r) := by
      rw [hlr] at horder
      exact (List.perm_middle.symm.trans (horder.trans List.perm_middle)).cons_inv
    have hafter : ∀ b ∈ y ++ t.flatMap f, p b = false := by
      intro b hb
      refine h l g r hlr x y hxy b ?_
      rcases List.mem_append.mp hb with hb | hb
      · exact .inl hb
      · exact .inr ((hrest.flatMap_right f).mem_iff.mp (by simp [List.flatMap_append,hb]))
    have hflat : (s ++ g :: t).flatMap f = s.flatMap f ++ x ++ a :: (y ++ t.flatMap f) := by
      simp [hxy]
    rw [hflat]
    exact findLast_of_none_after hp hafter

end Last

section Writes

variable {key : α → κ} {value : α → (κ → Option β) → Option β} {s : κ → Option β}

-- one turn of a loop that writes the entry of one key from what the map holds
def write [DecidableEq κ] (key : α → κ) (value : α → (κ → Option β) → Option β)
    (s : κ → Option β) (a : α) : κ → Option β :=
  match value a s with
  | some v => Function.update s (key a) (some v)
  | none => s

-- no turn reads a key that another one writes
def Apart (key : α → κ) (value : α → (κ → Option β) → Option β) (l : List α) : Prop :=
  ∀ a ∈ l, ∀ s s' : κ → Option β,
    (∀ k, (∀ b ∈ l, key b = k → key a = k) → s k = s' k) → value a s = value a s'

theorem Apart.tail {a : α} (h : Apart key value (a :: l)) : Apart key value l := by
  intro b hb s s' hsame
  refine h b (List.mem_cons_of_mem _ hb) s s' fun k hk => hsame k fun c hc => ?_
  exact hk c (List.mem_cons_of_mem _ hc)

theorem Apart.perm (h : Apart key value l) (hp : l₁.Perm l) : Apart key value l₁ := by
  intro a ha s s' hsame
  refine h a (hp.mem_iff.mp ha) s s' fun k hk => hsame k fun b hb => ?_
  exact hk b (hp.mem_iff.mp hb)

variable [DecidableEq κ]

theorem write_of_ne {a : α} {k : κ} (hk : key a ≠ k) : write key value s a k = s k := by
  unfold write
  cases value a s with
  | none => rfl
  | some v => exact Function.update_of_ne (Ne.symm hk) _ _

theorem write_self (a : α) : write key value s a (key a) = (value a s).or (s (key a)) := by
  unfold write
  cases value a s with
  | none => rfl
  | some v => exact Function.update_self _ _ _

theorem foldl_write (hkeys : (l.map key).Nodup) (h : Apart key value l) {read : α → Option β}
    (hread : ∀ a ∈ l, value a s = read a) (k : κ) :
    l.foldl (write key value) s k =
      (l.findSome? fun a => if key a = k then read a else none).or (s k) := by
  induction l generalizing s with
  | nil => rfl
  | cons a l ih =>
    rw [List.map_cons,List.nodup_cons] at hkeys
    have hrest : ∀ b ∈ l, value b (write key value s a) = read b := by
      intro b hb
      rw [← hread b (List.mem_cons_of_mem _ hb)]
      refine h b (List.mem_cons_of_mem _ hb) _ _ fun k hk => write_of_ne fun hak => ?_
      have hsame := hk a List.mem_cons_self hak
      exact hkeys.1 (List.mem_map.mpr ⟨b,hb,hsame.trans hak.symm⟩)
    rw [List.foldl_cons,ih hkeys.2 h.tail hrest,List.findSome?_cons]
    by_cases hk : key a = k
    · subst hk
      have hnone : (l.findSome? fun b => if key b = key a then read b else none) = none := by
        refine List.findSome?_eq_none_iff.mpr fun b hb => if_neg fun hba => ?_
        exact hkeys.1 (List.mem_map.mpr ⟨b,hb,hba⟩)
      rw [hnone,Option.none_or,write_self,if_pos rfl,hread a List.mem_cons_self]
      cases read a with
      | none => rfl
      | some v => rfl
    · rw [write_of_ne hk,if_neg hk]

theorem agree_of_keys (hkeys : (l.map key).Nodup) (read : α → Option β) (k : κ) :
    Agree (fun a => if key a = k then read a else none) l := by
  intro a ha b hb x y hx hy
  obtain ⟨hak,hx⟩ := Option.ite_none_right_eq_some.mp hx
  obtain ⟨hbk,hy⟩ := Option.ite_none_right_eq_some.mp hy
  have hab : a = b := List.inj_on_of_nodup_map hkeys ha hb (hak.trans hbk.symm)
  subst hab
  exact Option.some.inj (hx.symm.trans hy)

theorem foldl_write_perm (hkeys : (l.map key).Nodup) (h : Apart key value l) {read : α → Option β}
    (hread : ∀ a ∈ l, value a s = read a) (hp : l₁.Perm l) (k : κ) :
    l₁.foldl (write key value) s k =
      (l.findSome? fun a => if key a = k then read a else none).or (s k) := by
  rw [foldl_write ((hp.map key).nodup_iff.mpr hkeys) (h.perm hp)
    (fun a ha => hread a (hp.mem_iff.mp ha)) k,
    (agree_of_keys hkeys read k).findSome?_eq hp (.refl l)]

theorem findSome?_key_eq_lookup {γ : Type} {entries : List (κ × γ)}
    (hkeys : (entries.map Prod.fst).Nodup) (f : γ → Option β) (k : κ) :
    (entries.findSome? fun entry => if entry.1 = k then f entry.2 else none) =
      (entries.lookup k).bind f := by
  induction entries with
  | nil => rfl
  | cons entry entries ih =>
    rw [List.map_cons,List.nodup_cons] at hkeys
    rw [List.findSome?_cons,List.lookup_cons,ih hkeys.2]
    by_cases hk : entry.1 = k
    · subst hk
      have hnone : entries.lookup entry.1 = none := by
        rw [List.lookup_eq_none_iff]
        intro other hother
        rw [bne_iff_ne]
        exact fun heq => hkeys.1 (List.mem_map.mpr ⟨other,hother,heq.symm⟩)
      rw [if_pos rfl,hnone,beq_self_eq_true]
      cases hf : f entry.2 <;> simp [hf]
    · rw [if_neg hk,beq_false_of_ne (Ne.symm hk)]

end Writes

end Nimburion.MapOrder
