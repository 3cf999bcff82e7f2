import Mathlib.Data.List.Basic
import Mathlib.Tactic.Common

namespace Nimburion.Replace

variable {α : Type} [DecidableEq α]

-- strings.ReplaceAll for a non-empty old text: skip counts what is left of the last match
def replaceFrom (old new : List α) : ℕ → List α → List α
  | _,[] => []
  | skip+1,_ :: s => replaceFrom old new skip s
  | 0,c :: s =>
    if old <+: c :: s then new ++ replaceFrom old new (old.length-1) s
    else c :: replaceFrom old new 0 s

def replaceAll (old new s : List α) : List α := replaceFrom old new 0 s

-- what stands before each match that is replaced
def matchesFrom (old : List α) : ℕ → List α → List (List α)
  | _,[] => []
  | skip+1,c :: s => (matchesFrom old skip s).map (c :: ·)
  | 0,c :: s =>
    if old <+: c :: s then [] :: (matchesFrom old (old.length-1) s).map (c :: ·)
    else (matchesFrom old 0 s).map (c :: ·)

def replaced (old s : List α) : List (List α) := matchesFrom old 0 s

section Steps

variable {old : List α}

theorem replaceFrom_append (new w s : List α) :
    replaceFrom old new w.length (w ++ s) = replaceFrom old new 0 s := by
  induction w with
  | nil => rfl
  | cons c w ih => exact ih

theorem matchesFrom_append (w s : List α) :
    matchesFrom old w.length (w ++ s) = (matchesFrom old 0 s).map (w ++ ·) := by
  induction w with
  | nil => simp
  | cons c w ih =>
    rw [List.length_cons,List.cons_append,matchesFrom,ih]
    simp

theorem replaceAll_match (hold : old ≠ []) (new s : List α) :
    replaceAll old new (old ++ s) = new ++ replaceAll old new s := by
  obtain ⟨c,w,rfl⟩ := List.exists_cons_of_ne_nil hold
  have hpre : c :: w <+: c :: (w ++ s) := ⟨s,rfl⟩
  rw [replaceAll,List.cons_append,replaceFrom,if_pos hpre,List.length_cons,Nat.add_sub_cancel,
    replaceFrom_append]
  rfl

theorem replaced_match (hold : old ≠ []) (s : List α) :
    replaced old (old ++ s) = [] :: (replaced old s).map (old ++ ·) := by
  obtain ⟨c,w,rfl⟩ := List.exists_cons_of_ne_nil hold
  have hpre : c :: w <+: c :: (w ++ s) := ⟨s,rfl⟩
  rw [replaced,List.cons_append,matchesFrom,if_pos hpre,List.length_cons,Nat.add_sub_cancel,
    matchesFrom_append]
  simp [replaced]

-- no match starts inside w
def Quiet (old w s : List α) : Prop := ∀ l r, w = l ++ r → r ≠ [] → ¬old <+: r ++ s

omit [DecidableEq α] in
theorem Quiet.tail {c : α} {w s : List α} (h : Quiet old (c :: w) s) : Quiet old w s :=
  fun l r hw hr => h (c :: l) r (by rw [hw,List.cons_append]) hr

theorem replaceAll_quiet {w s : List α} (new : List α) (h : Quiet old w s) :
    replaceAll old new (w ++ s) = w ++ replaceAll old new s := by
  induction w with
  | nil => rfl
  | cons c w ih =>
    have hhead : ¬old <+: c :: (w ++ s) := h [] (c :: w) rfl (by simp)
    rw [replaceAll,List.cons_append,replaceFrom,if_neg hhead,List.cons_append]
    exact congrArg (c :: ·) (ih h.tail)

theorem replaced_quiet {w s : List α} (h : Quiet old w s) :
    replaced old (w ++ s) = (replaced old s).map (w ++ ·) := by
  induction w with
  | nil => simp
  | cons c w ih =>
    have hhead : ¬old <+: c :: (w ++ s) := h [] (c :: w) rfl (by simp)
    rw [replaced,List.cons_append,matchesFrom,if_neg hhead]
    have hih : matchesFrom old 0 (w ++ s) = (replaced old s).map (w ++ ·) := ih h.tail
    rw [hih]
    simp

-- the first match that starts inside w is replaced
theorem replaced_of_not_quiet {w s : List α} (h : ¬Quiet old w s) :
    ∃ l ∈ replaced old (w ++ s),l.length < w.length := by
  induction w with
  | nil =>
    refine absurd (fun l r hw hr => absurd ?_ hr) h
    exact (List.append_eq_nil_iff.mp hw.symm).2
  | cons c w ih =>
    rw [replaced,List.cons_append,matchesFrom]
    by_cases hhead : old <+: c :: (w ++ s)
    · exact ⟨[],by simp [hhead],by simp⟩
    · have hrest : ¬Quiet old w s := by
        intro hquiet
        refine h fun l r hw hr => ?_
        cases l with
        | nil =>
          rw [List.nil_append] at hw
          rw [← hw]
          exact hhead
        | cons d l => exact hquiet l r (List.cons.inj hw).2 hr
      obtain ⟨l,hl,hlen⟩ := ih hrest
      refine ⟨c :: l,?_,by simpa using hlen⟩
      rw [if_neg hhead]
      exact List.mem_map_of_mem hl

end Steps

-- a text in pieces, some of which are the matches meant
section Pieces

variable {P : Type} {render fill : P → List α} {target : P → Prop} {old new : List α}

def AtTarget (render : P → List α) (target : P → Prop) (ps : List P) (l : List α) : Prop :=
  ∃ qs p rs, ps = qs ++ p :: rs ∧ target p ∧ l = qs.flatMap render

-- every match starts inside a target piece
def OnlyTargets (render : P → List α) (target : P → Prop) (old : List α) (ps : List P) : Prop :=
  ∀ l r, ps.flatMap render = l ++ old ++ r → ∃ qs p rs m, ps = qs ++ p :: rs ∧ target p ∧
    l = qs.flatMap render ++ m ∧ m.length < old.length

omit [DecidableEq α] in
theorem OnlyTargets.quiet {p : P} {ps : List P} (h : OnlyTargets render target old (p :: ps))
    (hp : ¬target p) : Quiet old (render p) (ps.flatMap render) := by
  rintro l r hw hr ⟨t,ht⟩
  obtain ⟨qs,q,rs,m,hqs,hq,hl,_⟩ := h l t (by rw [List.flatMap_cons,hw,List.append_assoc,← ht]; simp)
  cases qs with
  | nil =>
    cases hqs
    exact hp hq
  | cons q' qs =>
    obtain ⟨rfl,_⟩ := List.cons.inj hqs
    have hlen := congrArg List.length hl
    have hwlen := congrArg List.length hw
    have hrlen := List.length_pos_iff.mpr hr
    simp only [List.flatMap_cons,List.length_append] at hlen hwlen
    omega

omit [DecidableEq α] in
theorem OnlyTargets.tail {p : P} {ps : List P} (h : OnlyTargets render target old (p :: ps))
    (hp : target p → render p = old) : OnlyTargets render target old ps := by
  intro l r hlr
  obtain ⟨qs,q,rs,m,hqs,hq,hl,hm⟩ := h (render p ++ l) r (by rw [List.flatMap_cons,hlr]; simp)
  cases qs with
  | nil =>
    obtain ⟨rfl,_⟩ := List.cons.inj hqs
    have hlen := congrArg List.length hl
    simp only [hp hq,List.flatMap_nil,List.nil_append,List.length_append] at hlen
    omega
  | cons q' qs =>
    obtain ⟨rfl,rfl⟩ := List.cons.inj hqs
    rw [List.flatMap_cons,List.append_assoc,List.append_cancel_left_eq] at hl
    exact ⟨qs,q,rs,m,rfl,hq,hl,hm⟩

theorem replaceAll_targets (hold : old ≠ []) (hrender : ∀ p,target p → render p = old)
    (hfill : ∀ p,target p → fill p = new) (hkeep : ∀ p, ¬target p → fill p = render p)
    {ps : List P} (h : OnlyTargets render target old ps) :
    replaceAll old new (ps.flatMap render) = ps.flatMap fill := by
  induction ps with
  | nil => rfl
  | cons p ps ih =>
    have htail := ih (h.tail (hrender p))
    rw [List.flatMap_cons,List.flatMap_cons]
    by_cases hp : target p
    · rw [hrender p hp,replaceAll_match hold,hfill p hp,htail]
    · rw [replaceAll_quiet new (h.quiet hp),hkeep p hp,htail]

theorem replaced_atTarget_of_only (hold : old ≠ []) (hrender : ∀ p,target p → render p = old)
    {ps : List P} (h : OnlyTargets render target old ps) {l : List α}
    (hl : l ∈ replaced old (ps.flatMap render)) : AtTarget render target ps l := by
  induction ps generalizing l with
  | nil => cases hl
  | cons p ps ih =>
    have hcons {l : List α} (hl : l ∈ replaced old (ps.flatMap render)) :
        AtTarget render target (p :: ps) (render p ++ l) := by
      obtain ⟨qs,q,rs,rfl,hq,rfl⟩ := ih (h.tail (hrender p)) hl
      exact ⟨p :: qs,q,rs,rfl,hq,rfl⟩
    rw [List.flatMap_cons] at hl
    by_cases hp : target p
    · rw [hrender p hp,replaced_match hold] at hl
      rcases List.mem_cons.mp hl with rfl | hl
      · exact ⟨[],p,ps,rfl,hp,rfl⟩
      · obtain ⟨l,hmem,rfl⟩ := List.mem_map.mp hl
        rw [← hrender p hp]
        exact hcons hmem
    · rw [replaced_quiet (h.quiet hp)] at hl
      obtain ⟨l,hmem,rfl⟩ := List.mem_map.mp hl
      exact hcons hmem

omit [DecidableEq α] in
theorem onlyTargets_nil (hold : old ≠ []) : OnlyTargets render target old [] := by
  intro l r hlr
  have hnil := congrArg List.length hlr
  have hpos := List.length_pos_iff.mpr hold
  simp only [List.flatMap_nil,List.length_nil,List.length_append] at hnil
  omega

-- a match starts behind the first piece, or inside it
omit [DecidableEq α] in
theorem OnlyTargets.cons {p : P} {ps : List P} (h : OnlyTargets render target old ps)
    (hp : target p → render p = old)
    (hquiet : ¬target p → Quiet old (render p) (ps.flatMap render)) :
    OnlyTargets render target old (p :: ps) := by
  intro l r hlr
  rw [List.flatMap_cons,List.append_assoc] at hlr
  rcases List.append_eq_append_iff.mp hlr with ⟨l',rfl,hrest⟩ | ⟨w,hw,hrest⟩
  · obtain ⟨qs,q,rs,m,rfl,hq,rfl,hm⟩ := h l' r (by rw [hrest,List.append_assoc])
    exact ⟨p :: qs,q,rs,m,rfl,hq,by simp,hm⟩
  · cases w with
    | nil =>
      obtain ⟨qs,q,rs,m,rfl,hq,hl,hm⟩ := h [] r (by simpa using hrest.symm)
      refine ⟨p :: qs,q,rs,m,rfl,hq,?_,hm⟩
      rw [List.append_nil] at hw
      rw [← hw,List.flatMap_cons,List.append_assoc,← hl,List.append_nil]
    | cons c w =>
      by_cases htarget : target p
      · refine ⟨[],p,ps,l,rfl,htarget,rfl,?_⟩
        have hlen := congrArg List.length hw
        rw [hp htarget,List.length_append,List.length_cons] at hlen
        omega
      · exact absurd ⟨r,hrest⟩ (hquiet htarget l (c :: w) hw (by simp))

omit [DecidableEq α] in
theorem AtTarget.tail {p : P} {ps : List P} {l : List α} (hold : old ≠ [])
    (hp : target p → render p = old) (h : AtTarget render target (p :: ps) (render p ++ l)) :
    AtTarget render target ps l := by
  obtain ⟨qs,q,rs,hqs,hq,heq⟩ := h
  cases qs with
  | nil =>
    obtain ⟨rfl,_⟩ := List.cons.inj hqs
    rw [hp hq,List.flatMap_nil,List.append_eq_nil_iff] at heq
    exact absurd heq.1 hold
  | cons q' qs =>
    obtain ⟨rfl,rfl⟩ := List.cons.inj hqs
    rw [List.flatMap_cons,List.append_cancel_left_eq] at heq
    exact ⟨qs,q,rs,rfl,hq,heq⟩

theorem quiet_of_replaced_atTarget {p : P} {ps : List P}
    (h : ∀ l ∈ replaced old ((p :: ps).flatMap render),AtTarget render target (p :: ps) l)
    (hp : ¬target p) : Quiet old (render p) (ps.flatMap render) := by
  by_contra hloud
  obtain ⟨l,hl,hlen⟩ := replaced_of_not_quiet hloud
  obtain ⟨qs,q,rs,hqs,hq,rfl⟩ := h l hl
  cases qs with
  | nil =>
    cases hqs
    exact hp hq
  | cons q' qs =>
    obtain ⟨rfl,_⟩ := List.cons.inj hqs
    rw [List.flatMap_cons,List.length_append] at hlen
    omega

theorem only_of_replaced_atTarget (hold : old ≠ []) (hrender : ∀ p,target p → render p = old)
    {ps : List P}
    (h : ∀ l ∈ replaced old (ps.flatMap render),AtTarget render target ps l) :
    OnlyTargets render target old ps := by
  induction ps with
  | nil => exact onlyTargets_nil hold
  | cons p ps ih =>
    have hquiet : ¬target p → Quiet old (render p) (ps.flatMap render) :=
      quiet_of_replaced_atTarget h
    have hback {l : List α} (hl : l ∈ replaced old (ps.flatMap render)) :
        render p ++ l ∈ replaced old ((p :: ps).flatMap render) := by
      rw [List.flatMap_cons]
      by_cases hp : target p
      · rw [hrender p hp,replaced_match hold]
        exact List.mem_cons_of_mem _ (List.mem_map_of_mem hl)
      · rw [replaced_quiet (hquiet hp)]
        exact List.mem_map_of_mem hl
    exact (ih fun l hl => (h _ (hback hl)).tail hold (hrender p)).cons (hrender p) hquiet

end Pieces

end Nimburion.Replace
