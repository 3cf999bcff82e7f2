import Mathlib.Data.List.Sort
import Mathlib.Data.List.Nodup
import Mathlib.Tactic.Common

namespace Nimburion.Redis

variable {V : Type}

structure ListRow (V : Type) where
  key : String
  val : V

structure ZRow (V : Type) where
  key : String
  score : Int
  member : V

structure StrRow (V : Type) where
  key : String
  val : V
  deadline : Option Int

def ZRow.slot (z : ZRow V) : String × V := (z.key,z.member)

structure Store (V : Type) where
  clock : Int
  lists : List (ListRow V)
  zsets : List (ZRow V)
  strings : List (StrRow V)
  zsets_nodup : (zsets.map ZRow.slot).Nodup
  strings_nodup : (strings.map StrRow.key).Nodup

theorem nodup_map_filter {α β : Type} (f : α → β) (q : α → Bool) {l : List α}
    (h : (l.map f).Nodup) : ((l.filter q).map f).Nodup :=
  h.sublist (List.filter_sublist.map f)

theorem nodup_replace {α β : Type} [DecidableEq β] (f : α → β) (a : α) {l : List α}
    (h : (l.map f).Nodup) : (((l.filter fun x => f x ≠ f a) ++ [a]).map f).Nodup := by
  rw [List.map_append,List.nodup_append]
  refine ⟨nodup_map_filter f _ h,by simp,?_⟩
  simp only [List.map_cons,List.map_nil,List.mem_singleton,List.mem_map,List.mem_filter]
  rintro b ⟨x,⟨_,hx⟩,rfl⟩ c rfl
  simpa using hx

theorem countP_eq_countP_filter_add {α β : Type} [DecidableEq β] (f : α → β) (p : α → Bool)
    (b : β) (l : List α) :
    l.countP p = (l.filter fun x => f x ≠ b).countP p + (l.filter fun x => f x = b).countP p := by
  induction l with
  | nil => rfl
  | cons a l ih => by_cases ha : f a = b <;> simp [ha,List.countP_cons,ih] <;> omega

theorem filter_eq_toList_find? {α β : Type} [DecidableEq β] (f : α → β) (b : β) {l : List α}
    (h : (l.map f).Nodup) : (l.filter fun x => f x = b) = (l.find? fun x => f x = b).toList := by
  induction l with
  | nil => rfl
  | cons a l ih =>
    rw [List.map_cons,List.nodup_cons] at h
    by_cases ha : f a = b
    · have hn : (l.filter fun x => f x = b) = [] := by
        rw [List.filter_eq_nil_iff]
        intro x hx hxb
        have hxb : f x = b := by simpa using hxb
        exact h.1 (ha ▸ hxb ▸ List.mem_map_of_mem hx)
      simp [ha,hn]
    · simp [ha,ih h.2]

theorem countP_singleton_toNat {α : Type} (p : α → Bool) (a : α) :
    [a].countP p = (p a).toNat := by
  cases h : p a <;> simp [h]

theorem countP_split_key {α β : Type} [DecidableEq β] (f : α → β) (p : α → Bool) (b : β)
    {l : List α} (h : (l.map f).Nodup) :
    l.countP p = (l.filter fun x => f x ≠ b).countP p +
      (l.find? fun x => f x = b).elim 0 fun a => (p a).toNat := by
  rw [countP_eq_countP_filter_add f p b l,filter_eq_toList_find? f b h]
  cases l.find? fun x => f x = b with
  | none => rfl
  | some a => exact congrArg _ (countP_singleton_toNat p a)

namespace Store

def empty : Store V := ⟨0,[],[],[],.nil,.nil⟩

def rpush (r : Store V) (k : String) (v : V) : Store V :=
  { r with lists := r.lists ++ [⟨k,v⟩] }

def lpop (r : Store V) (k : String) : Option V × Store V :=
  ((r.lists.find? fun x => x.key = k).map ListRow.val,
    { r with lists := r.lists.eraseP fun x => x.key = k })

def zrem [DecidableEq V] (r : Store V) (k : String) (v : V) : Store V :=
  { r with
    zsets := r.zsets.filter fun z => z.slot ≠ (k,v)
    zsets_nodup := nodup_map_filter _ _ r.zsets_nodup }

def zadd [DecidableEq V] (r : Store V) (k : String) (score : Int) (v : V) : Store V :=
  { r with
    zsets := (r.zsets.filter fun z => z.slot ≠ (k,v)) ++ [⟨k,score,v⟩]
    zsets_nodup := nodup_replace ZRow.slot ⟨k,score,v⟩ r.zsets_nodup }

def zbefore (le : V → V → Bool) (a b : ZRow V) : Prop :=
  a.score < b.score ∨ a.score = b.score ∧ le a.member b.member = true

instance (le : V → V → Bool) : DecidableRel (zbefore le) := fun a b =>
  inferInstanceAs (Decidable (a.score < b.score ∨ a.score = b.score ∧ le a.member b.member = true))

def zrangeByScore (le : V → V → Bool) (r : Store V) (k : String) (max : Int) (limit : ℕ) :
    List V :=
  (((r.zsets.filter fun z => z.key = k ∧ z.score ≤ max).insertionSort (zbefore le)).take
    limit).map ZRow.member

def zrevrange (le : V → V → Bool) (r : Store V) (k : String) (limit : ℕ) : List V :=
  (((r.zsets.filter fun z => z.key = k).insertionSort (zbefore le)).reverse.take limit).map
    ZRow.member

def get (r : Store V) (k : String) : Option V :=
  (r.strings.find? fun s => s.key = k).map StrRow.val

def del (r : Store V) (k : String) : Store V :=
  { r with
    strings := r.strings.filter fun s => s.key ≠ k
    strings_nodup := nodup_map_filter _ _ r.strings_nodup }

def set (r : Store V) (k : String) (v : V) (deadline : Option Int) : Store V :=
  { r with
    strings := (r.strings.filter fun s => s.key ≠ k) ++ [⟨k,v,deadline⟩]
    strings_nodup := nodup_replace StrRow.key ⟨k,v,deadline⟩ r.strings_nodup }

def setPX (r : Store V) (k : String) (v : V) (ms : Int) : Store V :=
  r.set k v (some (r.clock+ms))

def pexpire (r : Store V) (k : String) (ms : Int) : Bool × Store V :=
  match r.get k with
  | some v => (true,r.setPX k v ms)
  | none => (false,r)

def expired (now : Int) (s : StrRow V) : Bool :=
  match s.deadline with
  | some d => d < now
  | none => false

def tick (r : Store V) (ms : ℕ) : Store V :=
  { r with
    clock := r.clock+ms
    strings := r.strings.filter fun s => !expired (r.clock+ms) s
    strings_nodup := nodup_map_filter _ _ r.strings_nodup }

def listed (p : V → Bool) (r : Store V) : ℕ := r.lists.countP fun x => p x.val

def scheduled (p : V → Bool) (r : Store V) : ℕ := r.zsets.countP fun z => p z.member

def stored (K : String → Bool) (p : V → Bool) (r : Store V) : ℕ :=
  r.strings.countP fun s => K s.key && p s.val

def live (K : String → Bool) (p : V → Bool) (r : Store V) : ℕ :=
  r.listed p + r.scheduled p + r.stored K p

def zmem (r : Store V) (k : String) (v : V) : Prop := ∃ z ∈ r.zsets, z.slot = (k,v)

variable (K : String → Bool) (p : V → Bool) (r : Store V) (k : String) (v : V)

@[simp] theorem live_rpush : (r.rpush k v).live K p = r.live K p + (p v).toNat := by
  simp only [live,listed,scheduled,stored,rpush,List.countP_append,countP_singleton_toNat]
  omega

theorem lpop_none (h : (r.lpop k).1 = none) : (r.lpop k).2 = r := by
  simp only [lpop,Option.map_eq_none_iff,List.find?_eq_none] at h ⊢
  rw [List.eraseP_of_forall_not h]

theorem live_lpop (h : (r.lpop k).1 = some v) :
    (r.lpop k).2.live K p + (p v).toNat = r.live K p := by
  simp only [lpop,Option.map_eq_some_iff] at h ⊢
  obtain ⟨x,hx,rfl⟩ := h
  obtain ⟨hk,pre,post,hl,hpre⟩ := List.find?_eq_some_iff_append.mp hx
  have he : r.lists.eraseP (fun x => x.key = k) = pre ++ post := by
    rw [hl,List.eraseP_append_right _ (by simpa using hpre)]
    simp only [List.eraseP_cons,hk,cond_true]
  have hc : r.lists.countP (fun x => p x.val) =
      (pre ++ post).countP (fun x => p x.val) + (p x.val).toNat := by
    rw [hl,List.append_cons,List.countP_append,List.countP_append,countP_singleton_toNat,
      List.countP_append]
    omega
  simp only [live,listed,scheduled,stored,he,hc]
  omega

theorem live_del : (r.del k).live K p + ((r.get k).elim 0 fun v => (K k && p v).toNat) =
    r.live K p := by
  have hs := countP_split_key StrRow.key (fun s => K s.key && p s.val) k r.strings_nodup
  have hg : ((r.get k).elim 0 fun v => (K k && p v).toNat) =
      (r.strings.find? fun s => s.key = k).elim 0 fun s => (K s.key && p s.val).toNat := by
    unfold get
    cases hf : r.strings.find? fun s => s.key = k with
    | none => rfl
    | some s =>
      have hk : s.key = k := by simpa using List.find?_some hf
      simp [hk]
  rw [hg]
  simp only [live,listed,scheduled,stored,del] at hs ⊢
  omega

theorem live_del_of_not (hk : K k = false) : (r.del k).live K p = r.live K p := by
  have := live_del K p r k
  cases hg : r.get k <;> simp [hk,hg] at this <;> exact this

theorem live_set (deadline : Option Int) :
    (r.set k v deadline).live K p = (r.del k).live K p + (K k && p v).toNat := by
  simp only [live,listed,scheduled,stored,set,del,List.countP_append,countP_singleton_toNat]
  omega

theorem live_pexpire (ms : Int) : (r.pexpire k ms).2.live K p = r.live K p := by
  unfold pexpire
  split
  · rename_i v hv
    have := live_del K p r k
    simp only [hv,Option.elim_some] at this
    simpa [setPX,live_set] using this
  · rfl

theorem live_tick_le (ms : ℕ) : (r.tick ms).live K p ≤ r.live K p := by
  have : (r.tick ms).stored K p ≤ r.stored K p := List.Sublist.countP_le List.filter_sublist
  simp only [live,listed,scheduled,tick] at this ⊢
  omega

theorem live_tick (ms : ℕ) (h : ∀ s ∈ r.strings, K s.key = true → expired (r.clock+ms) s = false) :
    (r.tick ms).live K p = r.live K p := by
  have : (r.tick ms).stored K p = r.stored K p := by
    simp only [stored,tick,List.countP_filter]
    apply List.countP_congr
    intro s hs
    have := h s hs
    cases hk : K s.key <;> simp_all
  simp only [live,listed,scheduled,tick] at this ⊢
  omega

theorem mem_zrangeByScore (le : V → V → Bool) (max : Int) (limit : ℕ) {w : V}
    (h : w ∈ r.zrangeByScore le k max limit) : r.zmem k w := by
  simp only [zrangeByScore,List.mem_map] at h
  obtain ⟨z,hz,rfl⟩ := h
  have hz := (List.mem_insertionSort _).mp (List.mem_of_mem_take hz)
  simp only [List.mem_filter,decide_eq_true_eq] at hz
  exact ⟨z,hz.1,by simp [ZRow.slot,hz.2.1]⟩

theorem nodup_zrangeByScore (le : V → V → Bool) (max : Int) (limit : ℕ) :
    (r.zrangeByScore le k max limit).Nodup := by
  have hp := List.perm_insertionSort (zbefore le)
    (r.zsets.filter fun z => z.key = k ∧ z.score ≤ max)
  have hnd : ((r.zsets.filter fun z => z.key = k ∧ z.score ≤ max).map ZRow.member).Nodup := by
    rw [List.nodup_map_iff_inj_on ((nodup_map_filter ZRow.slot _ r.zsets_nodup).of_map _)]
    intro x hx y hy hxy
    simp only [List.mem_filter,decide_eq_true_eq] at hx hy
    exact List.inj_on_of_nodup_map r.zsets_nodup hx.1 hy.1
      (by simp [ZRow.slot,hx.2.1,hy.2.1,hxy])
  exact (((hp.map ZRow.member).nodup_iff).mpr hnd).sublist
    ((List.take_sublist _ _).map ZRow.member)

section SortedSets

variable [DecidableEq V]

theorem scheduled_zrem_add : r.scheduled p = (r.zrem k v).scheduled p +
    (r.zsets.find? fun z => z.slot = (k,v)).elim 0 fun _ => (p v).toNat := by
  have hs := countP_split_key ZRow.slot (fun z => p z.member) (k,v) r.zsets_nodup
  simp only [scheduled,zrem]
  rw [hs]
  congr 1
  cases hf : r.zsets.find? fun z => z.slot = (k,v) with
  | none => rfl
  | some z =>
    have hz := List.find?_some hf
    simp only [ZRow.slot,decide_eq_true_eq,Prod.mk.injEq] at hz
    simp [hz.2]

theorem live_zrem (h : r.zmem k v) : (r.zrem k v).live K p + (p v).toNat = r.live K p := by
  obtain ⟨z,hz,hzs⟩ := h
  have hs := scheduled_zrem_add p r k v
  cases hf : r.zsets.find? fun z => z.slot = (k,v) with
  | none => exact absurd (List.find?_eq_none.mp hf z hz) (by simp [hzs])
  | some y =>
    simp only [hf,Option.elim_some] at hs
    simp only [live,listed,stored,zrem] at hs ⊢
    omega

theorem live_zrem_of_not (hp : p v = false) : (r.zrem k v).live K p = r.live K p := by
  have hs := scheduled_zrem_add p r k v
  cases hf : r.zsets.find? fun z => z.slot = (k,v) <;> simp only [hf,hp,Option.elim_none,
    Option.elim_some,Bool.toNat_false] at hs <;> simp only [live,listed,stored,zrem] at hs ⊢ <;>
    omega

theorem scheduled_zadd (score : Int) :
    (r.zadd k score v).scheduled p = (r.zrem k v).scheduled p + (p v).toNat := by
  simp only [scheduled,zadd,zrem,List.countP_append,countP_singleton_toNat]

theorem live_zadd_le (score : Int) : (r.zadd k score v).live K p ≤ r.live K p + (p v).toNat := by
  have h1 := scheduled_zadd p r k v score
  have h2 := scheduled_zrem_add p r k v
  simp only [live,listed,stored,zadd] at h1 ⊢
  omega

theorem live_le_zadd (score : Int) : r.live K p ≤ (r.zadd k score v).live K p := by
  have h1 := scheduled_zadd p r k v score
  have h2 := scheduled_zrem_add p r k v
  have h3 : ((r.zsets.find? fun z => z.slot = (k,v)).elim 0 fun _ => (p v).toNat) ≤
      (p v).toNat := by
    cases r.zsets.find? fun z => z.slot = (k,v) <;> simp
  simp only [live,listed,stored,zadd] at h1 ⊢
  omega

theorem toNat_le_live_zadd (score : Int) : (p v).toNat ≤ (r.zadd k score v).live K p := by
  have h1 := scheduled_zadd p r k v score
  simp only [live]
  omega

theorem zmem_rpush_zrem {w : V} (q : String) (hw : r.zmem k w) (hne : w ≠ v) :
    ((r.rpush q v).zrem k v).zmem k w := by
  obtain ⟨z,hz,hzs⟩ := hw
  refine ⟨z,?_,hzs⟩
  simp only [zrem,rpush,List.mem_filter]
  exact ⟨hz,by simpa [hzs] using hne⟩

theorem live_transfer (q : String) (vs : List V) (hnd : vs.Nodup) (hvs : ∀ v ∈ vs, r.zmem k v) :
    (vs.foldl (fun r v => (r.rpush q v).zrem k v) r).live K p = r.live K p := by
  induction vs generalizing r with
  | nil => rfl
  | cons v vs ih =>
    rw [List.nodup_cons] at hnd
    rw [List.foldl_cons,ih _ hnd.2]
    · have hz : (r.rpush q v).zmem k v := hvs v (by simp)
      have := live_zrem K p (r.rpush q v) k v hz
      rw [live_rpush] at this
      omega
    · intro w hw
      exact zmem_rpush_zrem r k v q (hvs w (by simp [hw])) (by rintro rfl; exact hnd.1 hw)

end SortedSets

section Lookup

variable (q : String)

theorem get_del : (r.del k).get q = if q = k then none else r.get q := by
  simp only [get,del,List.find?_filter]
  split_ifs with hq
  · subst hq
    rw [Option.map_eq_none_iff,List.find?_eq_none]
    simp
  · congr 2
    funext s
    by_cases hs : s.key = q
    · simp [hs,hq]
    · simp [hs]

theorem get_set (deadline : Option Int) :
    (r.set k v deadline).get q = if q = k then some v else r.get q := by
  have hd := get_del r k q
  simp only [get,del] at hd
  simp only [get,set,List.find?_append,Option.map_or,hd]
  by_cases hq : q = k
  · simp [hq]
  · simp [hq,Ne.symm hq]

theorem get_pexpire (ms : Int) : (r.pexpire k ms).2.get q = r.get q := by
  unfold pexpire
  split
  · rename_i v hv
    by_cases hq : q = k
    · simp [setPX,get_set,hq,hv]
    · simp [setPX,get_set,hq]
  · rfl

theorem isSome_get_iff : (r.get q).isSome = true ↔ ∃ s ∈ r.strings, s.key = q := by
  simp [get,List.find?_isSome]

theorem get_eq_some_iff {r : Store V} {q : String} {w : V} :
    r.get q = some w ↔ ∃ s ∈ r.strings, s.key = q ∧ s.val = w := by
  simp only [get,Option.map_eq_some_iff]
  constructor
  · rintro ⟨s,hs,rfl⟩
    exact ⟨s,List.mem_of_find?_eq_some hs,by simpa using List.find?_some hs,rfl⟩
  · rintro ⟨s,hs,rfl,rfl⟩
    cases hf : r.strings.find? fun t => t.key = s.key with
    | none => exact absurd (List.find?_eq_none.mp hf s hs) (by simp)
    | some t =>
      have hkey : t.key = s.key := by simpa using List.find?_some hf
      have heq := List.inj_on_of_nodup_map r.strings_nodup (List.mem_of_find?_eq_some hf) hs hkey
      exact ⟨t,rfl,congrArg StrRow.val heq⟩

theorem get_of_get_tick {r : Store V} {q : String} {w : V} {ms : ℕ}
    (h : (r.tick ms).get q = some w) : r.get q = some w := by
  rw [get_eq_some_iff] at h ⊢
  obtain ⟨s,hs,hq⟩ := h
  exact ⟨s,(List.mem_filter.mp hs).1,hq⟩

theorem isSome_get_tick (ms : ℕ) (h : ((r.tick ms).get q).isSome = true) :
    (r.get q).isSome = true := by
  rw [isSome_get_iff] at h ⊢
  obtain ⟨s,hs,hq⟩ := h
  exact ⟨s,(List.mem_filter.mp hs).1,hq⟩

theorem get_transfer [DecidableEq V] (t : String) (vs : List V) :
    (vs.foldl (fun r v => (r.rpush t v).zrem k v) r).get q = r.get q := by
  induction vs generalizing r with
  | nil => rfl
  | cons v vs ih => rw [List.foldl_cons,ih]; rfl

end Lookup

structure Placed (L : String → Prop) (Z : String → V → Prop) (S : String → Prop) (r : Store V) :
    Prop where
  lists : ∀ x ∈ r.lists, L x.key
  zsets : ∀ z ∈ r.zsets, Z z.key z.member
  strings : ∀ s ∈ r.strings, S s.key

section Placement

variable {L : String → Prop} {Z : String → V → Prop} {S S' : String → Prop} {r k v}

theorem Placed.mono (h : r.Placed L Z S) (hS : ∀ q, S q → S' q) : r.Placed L Z S' :=
  ⟨h.lists,h.zsets,fun s hs => hS _ (h.strings s hs)⟩

theorem Placed.rpush (h : r.Placed L Z S) (hk : L k) : (r.rpush k v).Placed L Z S := by
  refine ⟨?_,h.zsets,h.strings⟩
  intro x hx
  rcases List.mem_append.mp hx with hx | hx
  · exact h.lists x hx
  · rw [List.mem_singleton.mp hx]
    exact hk

theorem Placed.lpop (h : r.Placed L Z S) : (r.lpop k).2.Placed L Z S :=
  ⟨fun x hx => h.lists x (List.mem_of_mem_eraseP hx),h.zsets,h.strings⟩

theorem Placed.zrem [DecidableEq V] (h : r.Placed L Z S) : (r.zrem k v).Placed L Z S :=
  ⟨h.lists,fun z hz => h.zsets z (List.mem_filter.mp hz).1,h.strings⟩

theorem Placed.zadd [DecidableEq V] {score : Int} (h : r.Placed L Z S) (hk : Z k v) :
    (r.zadd k score v).Placed L Z S := by
  refine ⟨h.lists,?_,h.strings⟩
  intro z hz
  rcases List.mem_append.mp hz with hz | hz
  · exact h.zsets z (List.mem_filter.mp hz).1
  · rw [List.mem_singleton.mp hz]
    exact hk

theorem Placed.del (h : r.Placed L Z S) : (r.del k).Placed L Z S :=
  ⟨h.lists,h.zsets,fun s hs => h.strings s (List.mem_filter.mp hs).1⟩

theorem Placed.set {deadline : Option Int} (h : r.Placed L Z S) (hk : S k) :
    (r.set k v deadline).Placed L Z S := by
  refine ⟨h.lists,h.zsets,?_⟩
  intro s hs
  rcases List.mem_append.mp hs with hs | hs
  · exact h.strings s (List.mem_filter.mp hs).1
  · rw [List.mem_singleton.mp hs]
    exact hk

theorem Placed.pexpire {ms : Int} (h : r.Placed L Z S) : (r.pexpire k ms).2.Placed L Z S := by
  unfold Store.pexpire
  split
  · rename_i v hv
    obtain ⟨s,hs,rfl⟩ := (isSome_get_iff r k).mp (by simp [hv])
    exact h.set (h.strings s hs)
  · exact h

theorem Placed.tick {ms : ℕ} (h : r.Placed L Z S) : (r.tick ms).Placed L Z S :=
  ⟨h.lists,h.zsets,fun s hs => h.strings s (List.mem_filter.mp hs).1⟩

theorem Placed.transfer [DecidableEq V] {t : String} (hk : L t) (vs : List V)
    (h : r.Placed L Z S) :
    (vs.foldl (fun r v => (r.rpush t v).zrem k v) r).Placed L Z S := by
  induction vs generalizing r with
  | nil => exact h
  | cons v vs ih => exact ih (h.rpush hk).zrem

end Placement

end Store

end Nimburion.Redis
