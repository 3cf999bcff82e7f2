import Mathlib.Data.List.DropRight
import Mathlib.Tactic.Common

namespace Nimburion.GoText

-- unicode.IsSpace: the Latin-1 spaces and the runes with property White_Space
def isSpace (c : Char) : Bool :=
  let n := c.toNat
  (9 ≤ n && n ≤ 13) || n == 0x20 || n == 0x85 || n == 0xA0 || n == 0x1680 ||
  (0x2000 ≤ n && n ≤ 0x200a) || n == 0x2028 || n == 0x2029 || n == 0x202f || n == 0x205f ||
  n == 0x3000

def trimSpace (s : String) : String :=
  String.ofList ((s.toList.dropWhile isSpace).rdropWhile isSpace)

def trimRight (s : String) (p : Char → Bool) : String :=
  String.ofList (s.toList.rdropWhile p)

-- strings.Trim with a cutset of one rune
def trim (s : String) (cutset : Char) : String :=
  String.ofList ((s.toList.dropWhile (· = cutset)).rdropWhile (· = cutset))

-- strings.Split by one rune
def split (s : String) (sep : Char) : List String :=
  (s.toList.splitOn sep).map String.ofList

def cutChars (sep : Char) : List Char → Option (List Char × List Char)
  | [] => none
  | c :: cs => if c = sep then some ([],cs) else (cutChars sep cs).map fun p => (c :: p.1,p.2)

-- the two parts of strings.SplitN(s,sep,2) when s contains sep
def cut (s : String) (sep : Char) : Option (String × String) :=
  (cutChars sep s.toList).map fun p => (String.ofList p.1,String.ofList p.2)

theorem cutChars_eq_none_iff (sep : Char) (cs : List Char) :
    cutChars sep cs = none ↔ sep ∉ cs := by
  induction cs with
  | nil => simp [cutChars]
  | cons c cs ih =>
    by_cases hc : c = sep
    · simp [cutChars,hc]
    · simp [cutChars,hc,ih,Ne.symm hc]

theorem cutChars_eq_some_iff {sep : Char} {cs l r : List Char} :
    cutChars sep cs = some (l,r) ↔ cs = l ++ sep :: r ∧ sep ∉ l := by
  induction cs generalizing l with
  | nil => simp [cutChars]
  | cons c cs ih =>
    by_cases hc : c = sep
    · cases l with
      | nil => simp [cutChars,hc,eq_comm]
      | cons d l =>
        simp only [cutChars,hc,if_true,Option.some.injEq,Prod.mk.injEq,reduceCtorEq,false_and,
          List.cons_append,List.cons.injEq,List.mem_cons,not_or,false_iff]
        exact fun h => h.2.1 h.1.1
    · cases l with
      | nil => simp [cutChars,hc]
      | cons d l =>
        simp only [cutChars,hc,if_false,Option.map_eq_some_iff,Prod.mk.injEq,Prod.exists]
        constructor
        · rintro ⟨l',r',heq,hl,rfl⟩
          obtain ⟨rfl,hnot⟩ := ih.mp heq
          cases hl
          exact ⟨rfl,by simp [hnot,Ne.symm hc]⟩
        · rintro ⟨heq,hnot⟩
          cases heq
          exact ⟨l,r,ih.mpr ⟨rfl,fun h => hnot (List.mem_cons_of_mem _ h)⟩,rfl,rfl⟩

theorem cut_eq_none_iff (s : String) (sep : Char) : cut s sep = none ↔ sep ∉ s.toList := by
  rw [cut,Option.map_eq_none_iff,cutChars_eq_none_iff]

theorem cut_eq_some_iff {s l r : String} {sep : Char} :
    cut s sep = some (l,r) ↔ s = l ++ String.singleton sep ++ r ∧ sep ∉ l.toList := by
  rw [cut,Option.map_eq_some_iff]
  constructor
  · rintro ⟨⟨cs,ds⟩,heq,hpair⟩
    cases hpair
    obtain ⟨hs,hnot⟩ := cutChars_eq_some_iff.mp heq
    refine ⟨String.toList_inj.mp ?_,by simpa using hnot⟩
    simp [hs]
  · rintro ⟨rfl,hnot⟩
    refine ⟨(l.toList,r.toList),cutChars_eq_some_iff.mpr ⟨?_,hnot⟩,by simp⟩
    simp

def hexDigit (n : ℕ) : Char := Nat.digitChar n

-- strconv.Quote on ASCII; runes above it are taken as printable
def quoteChar (c : Char) : List Char :=
  if c = '"' ∨ c = '\\' then ['\\',c]
  else if c.toNat = 7 then ['\\','a']
  else if c.toNat = 8 then ['\\','b']
  else if c.toNat = 9 then ['\\','t']
  else if c.toNat = 10 then ['\\','n']
  else if c.toNat = 11 then ['\\','v']
  else if c.toNat = 12 then ['\\','f']
  else if c.toNat = 13 then ['\\','r']
  else if c.toNat < 32 ∨ c.toNat = 127 then
    ['\\','x',hexDigit (c.toNat/16),hexDigit (c.toNat%16)]
  else [c]

def quote (s : String) : String := String.ofList ('"' :: s.toList.flatMap quoteChar ++ ['"'])

theorem dropWhile_rdropWhile_dropWhile (p : Char → Bool) (l : List Char) :
    ((l.dropWhile p).rdropWhile p).dropWhile p = (l.dropWhile p).rdropWhile p := by
  rw [List.dropWhile_eq_self_iff]
  intro hl
  have hpre := List.rdropWhile_prefix p (l.dropWhile p)
  have hlen : 0 < (l.dropWhile p).length := lt_of_lt_of_le hl hpre.length_le
  rw [hpre.getElem hl]
  exact List.dropWhile_get_zero_not p l hlen

@[simp] theorem trimSpace_trimSpace (s : String) : trimSpace (trimSpace s) = trimSpace s := by
  simp only [trimSpace,String.toList_ofList,dropWhile_rdropWhile_dropWhile,
    List.rdropWhile_idempotent]

theorem isSpace_of_isAlphanum {c : Char} (h : c.isAlphanum = true) : isSpace c = false := by
  have hrange : 48 ≤ c.toNat ∧ c.toNat ≤ 122 := by
    change ((decide (c.val ≥ 'A'.val ∧ c.val ≤ 'Z'.val) ||
      (decide (c.val ≥ 'a'.val) && decide (c.val ≤ 'z'.val))) ||
        (decide (c.val ≥ '0'.val) && decide (c.val ≤ '9'.val))) = true at h
    simp only [Bool.or_eq_true,Bool.and_eq_true,decide_eq_true_eq,UInt32.le_iff_toNat_le,
      ge_iff_le] at h
    change ((65 ≤ c.toNat ∧ c.toNat ≤ 90) ∨ (97 ≤ c.toNat ∧ c.toNat ≤ 122)) ∨
      (48 ≤ c.toNat ∧ c.toNat ≤ 57) at h
    omega
  simp only [isSpace,Bool.or_eq_false_iff,Bool.and_eq_false_iff,decide_eq_false_iff_not,
    beq_eq_false_iff_ne]
  omega

theorem trimSpace_of_no_space {s : String} (h : ∀ c ∈ s.toList, isSpace c = false) :
    trimSpace s = s := by
  have hl : s.toList.dropWhile isSpace = s.toList := by
    rw [List.dropWhile_eq_self_iff]
    intro hl
    simp [h _ (List.getElem_mem hl)]
  have hr : s.toList.rdropWhile isSpace = s.toList := by
    rw [List.rdropWhile_eq_self_iff]
    intro hl
    simp [h _ (List.getLast_mem hl)]
  rw [trimSpace,hl,hr,String.ofList_toList]

theorem trimSpace_of_all {s : String} (h : s.toList.all (fun c => !isSpace c) = true) :
    trimSpace s = s :=
  trimSpace_of_no_space fun c hc => by simpa using List.all_eq_true.mp h c hc

theorem ofList_eq_empty_iff (l : List Char) : String.ofList l = "" ↔ l = [] := by
  rw [← String.toList_inj,String.toList_ofList]
  simp

theorem dropWhile_rdropWhile_eq_nil_iff (p : Char → Bool) (l : List Char) :
    (l.dropWhile p).rdropWhile p = [] ↔ ∀ c ∈ l, p c = true := by
  rw [List.rdropWhile_eq_nil_iff]
  constructor
  · intro h
    rw [← List.dropWhile_eq_nil_iff,← List.length_eq_zero_iff]
    by_contra hne
    have hpos : 0 < (l.dropWhile p).length := Nat.pos_of_ne_zero hne
    exact List.dropWhile_get_zero_not p l hpos (h _ (List.get_mem _ ⟨0,hpos⟩))
  · intro h
    rw [List.dropWhile_eq_nil_iff.mpr h]
    simp

theorem trimSpace_eq_empty_iff (s : String) :
    trimSpace s = "" ↔ ∀ c ∈ s.toList, isSpace c = true := by
  rw [trimSpace,ofList_eq_empty_iff,dropWhile_rdropWhile_eq_nil_iff]

theorem head_of_trimmed {q : String} (hq : trimSpace q = q) (hne : q ≠ "") :
    ∃ c l, q.toList = c :: l ∧ isSpace c = false := by
  cases hl : q.toList with
  | nil => exact absurd (String.toList_inj.mp (by simpa using hl)) hne
  | cons c l =>
    refine ⟨c,l,rfl,?_⟩
    by_contra hc
    have hdrop := congrArg (List.length ∘ String.toList) hq
    simp only [trimSpace,Function.comp,String.toList_ofList,hl,
      List.dropWhile_cons_of_pos (by simpa using hc)] at hdrop
    have hle := (List.rdropWhile_prefix isSpace (l.dropWhile isSpace)).length_le
    have hle' := (List.dropWhile_sublist isSpace (l := l)).length_le
    simp only [List.length_cons] at hdrop
    omega

theorem last_of_trimmed {q : String} (hq : trimSpace q = q) (hne : q ≠ "") :
    ∃ l c, q.toList = l ++ [c] ∧ isSpace c = false := by
  have htrim : (q.toList.dropWhile isSpace).rdropWhile isSpace = q.toList := by
    have hlist := congrArg String.toList hq
    simpa only [trimSpace,String.toList_ofList] using hlist
  have hnil : (q.toList.dropWhile isSpace).rdropWhile isSpace ≠ [] := by
    rw [htrim]
    exact fun hnil => hne (String.toList_inj.mp (by simpa using hnil))
  have hlast := List.rdropWhile_last_not isSpace _ hnil
  refine ⟨_,_,htrim.symm.trans (List.dropLast_append_getLast hnil).symm,?_⟩
  simpa using hlast

theorem trimSpace_joined {a b : String} (mid : String) (ha : trimSpace a = a) (hane : a ≠ "")
    (hb : trimSpace b = b) (hbne : b ≠ "") : trimSpace (a ++ mid ++ b) = a ++ mid ++ b := by
  obtain ⟨c,l,hhead,hc⟩ := head_of_trimmed ha hane
  obtain ⟨l',c',hlast,hc'⟩ := last_of_trimmed hb hbne
  have hkeep : (a ++ mid ++ b).toList.dropWhile isSpace = (a ++ mid ++ b).toList := by
    rw [String.toList_append,String.toList_append,hhead,List.cons_append,List.cons_append,
      List.dropWhile_cons_of_neg (by simp [hc])]
  have hend : (a ++ mid ++ b).toList.rdropWhile isSpace = (a ++ mid ++ b).toList := by
    rw [String.toList_append,hlast,← List.append_assoc,List.rdropWhile_concat_neg _ _ _ (by simp [hc'])]
  rw [trimSpace,hkeep,hend,String.ofList_toList]

theorem trimSpace_append_ne {q suf : String} (hq : trimSpace q = q) (hne : q ≠ "")
    (hsuf : trimSpace suf ≠ "") : trimSpace (q ++ suf) ≠ q := by
  intro heq
  obtain ⟨c,l,hl,hc⟩ := head_of_trimmed hq hne
  have hkeep : (q.toList ++ suf.toList).dropWhile isSpace = q.toList ++ suf.toList := by
    rw [hl,List.cons_append,List.dropWhile_cons_of_neg (by simp [hc])]
  have hrev : (suf.toList.reverse.dropWhile isSpace) ≠ [] := by
    rw [ne_eq,trimSpace_eq_empty_iff] at hsuf
    rw [ne_eq,List.dropWhile_eq_nil_iff]
    simpa using hsuf
  have hlen := congrArg (List.length ∘ String.toList) heq
  simp only [trimSpace,Function.comp,String.toList_ofList,String.toList_append,hkeep,
    List.rdropWhile,List.reverse_append,List.dropWhile_append,List.isEmpty_iff,hrev,if_false,
    List.length_reverse,List.length_append] at hlen
  have hpos := List.length_pos_iff.mpr hrev
  omega

attribute [irreducible] trimSpace

end Nimburion.GoText
