import Nimburion.Lib.Decimal
import Nimburion.Lib.GoText

namespace Nimburion.Version

open GoText
open Decimal (value atoi itoa)

structure SemVer where
  major : Int64
  minor : Int64
  patch : Int64
  preRelease : String
  build : String
  deriving DecidableEq, Repr

structure Submatches where
  major : String
  minor : String
  patch : String
  preRelease : String
  build : String

-- (0|[1-9]\d*)
def numeral (cs : List Char) : Bool :=
  cs != [] && cs.all Char.isDigit && (cs == ['0'] || cs.head? != some '0')

-- [0-9A-Za-z-]
def identifierChar (c : Char) : Bool := c.isAlphanum || c == '-'

-- [0-9A-Za-z-]+(?:\.[0-9A-Za-z-]+)*
def identifiers (cs : List Char) : Bool :=
  (cs.splitOn '.').all fun id => id != [] && id.all identifierChar

def optional (sep : Char) (cs : List Char) : List Char × Option (List Char) :=
  match cutChars sep cs with
  | none => (cs,none)
  | some (l,r) => (l,some r)

def optionalV : List Char → List Char
  | 'v' :: cs => cs
  | cs => cs

-- the pattern is anchored and each group ends at the first rune its class leaves out
def semVerPattern (raw : String) : Option Submatches :=
  match cutChars '.' (optionalV raw.toList) with
  | none => none
  | some (major,rest) =>
    match cutChars '.' rest with
    | none => none
    | some (minor,rest) =>
      let (core,build) := optional '+' rest
      let (patch,preRelease) := optional '-' core
      if numeral major && numeral minor && numeral patch && preRelease.all identifiers &&
          build.all identifiers then
        some ⟨String.ofList major,String.ofList minor,String.ofList patch,
          String.ofList (preRelease.getD []),String.ofList (build.getD [])⟩
      else none

def parseInt (s : String) : Except String Int64 :=
  match atoi s with
  | .ok n => .ok n
  | .error .badSyntax => .error ("strconv.ParseInt: parsing " ++ quote s ++ ": invalid syntax")
  | .error .outOfRange => .error ("strconv.ParseInt: parsing " ++ quote s ++ ": value out of range")

def reads (id : String) : Bool := (parseInt id).isOk

def leadingZero (id : String) : Bool :=
  reads id && 1 < id.toList.length && id.toList.head? == some '0'

def validateIdentifiers : List String → Option String
  | [] => none
  | id :: ids =>
    if id = "" then some "invalid prerelease identifier: empty"
    else if leadingZero id then
      some ("invalid prerelease numeric identifier " ++ quote id ++ ": leading zero")
    else validateIdentifiers ids

def validatePreRelease (pr : String) : Option String :=
  if pr = "" then none else validateIdentifiers (split pr '.')

def parse (raw : String) : Except String SemVer :=
  let raw := trimSpace raw
  if raw = "" then .error "version cannot be empty"
  else match semVerPattern raw with
  | none => .error ("invalid semantic version: " ++ quote raw)
  | some m =>
    match parseInt m.major with
    | .error err => .error ("invalid major version: " ++ err)
    | .ok major =>
      match parseInt m.minor with
      | .error err => .error ("invalid minor version: " ++ err)
      | .ok minor =>
        match parseInt m.patch with
        | .error err => .error ("invalid patch version: " ++ err)
        | .ok patch =>
          match validatePreRelease m.preRelease with
          | some err => .error err
          | none => .ok ⟨major,minor,patch,m.preRelease,m.build⟩

def SemVer.string (v : SemVer) : String :=
  itoa v.major ++ "." ++ itoa v.minor ++ "." ++ itoa v.patch ++
    (if v.preRelease ≠ "" then "-" ++ v.preRelease else "") ++
    (if v.build ≠ "" then "+" ++ v.build else "")

def compareInt (a b : Int64) : Int := if a < b then -1 else if b < a then 1 else 0

-- the switch on two identifiers that differ
def compareIdentifier (a b : String) : Int :=
  match parseInt a,parseInt b with
  | .ok aNum,.ok bNum => compareInt aNum bNum
  | .ok _,.error _ => -1
  | .error _,.ok _ => 1
  | .error _,.error _ => if a < b then -1 else 1

def compareIdentifiers : List String → List String → Int
  | a :: aParts,b :: bParts =>
    if a = b then compareIdentifiers aParts bParts else compareIdentifier a b
  | aParts,bParts => if aParts.length < bParts.length then -1 else 1

def comparePreRelease (a b : String) : Int :=
  if a = b then 0
  else if a = "" then 1
  else if b = "" then -1
  else compareIdentifiers (split a '.') (split b '.')

def SemVer.compare (v other : SemVer) : Int :=
  if compareInt v.major other.major ≠ 0 then compareInt v.major other.major
  else if compareInt v.minor other.minor ≠ 0 then compareInt v.minor other.minor
  else if compareInt v.patch other.patch ≠ 0 then compareInt v.patch other.patch
  else comparePreRelease v.preRelease other.preRelease

def Parsed (v : SemVer) : Prop := ∃ raw, parse raw = .ok v

theorem optional_cut {sep : Char} {l : List Char} (h : sep ∉ l) (r : List Char) :
    optional sep (l ++ sep :: r) = (l,some r) := by
  rw [optional,cutChars_eq_some_iff.mpr ⟨rfl,h⟩]

theorem optional_whole {sep : Char} {l : List Char} (h : sep ∉ l) : optional sep l = (l,none) := by
  rw [optional,(cutChars_eq_none_iff sep l).mpr h]

-- what Parse leaves in the pre-release and build fields
def Suffix (s : String) : Prop := s = "" ∨ identifiers s.toList = true

theorem suffix_of_all {o : Option (List Char)} (h : o.all identifiers = true) :
    Suffix (String.ofList (o.getD [])) := by
  cases o with
  | none => exact Or.inl rfl
  | some cs => exact Or.inr (by simpa using h)

structure WellFormed (v : SemVer) : Prop where
  major : 0 ≤ v.major
  minor : 0 ≤ v.minor
  patch : 0 ≤ v.patch
  preRelease : Suffix v.preRelease
  valid : validatePreRelease v.preRelease = none
  build : Suffix v.build

theorem numeral_digits {cs : List Char} (h : numeral cs = true) :
    cs ≠ [] ∧ cs.all Char.isDigit = true := by
  simp only [numeral,Bool.and_eq_true,bne_iff_ne,ne_eq] at h
  exact h.1

theorem atoi_digits {cs : List Char} (hne : cs ≠ []) (h : cs.all Char.isDigit = true) :
    atoi (String.ofList cs) =
      if value cs < 2^63 then .ok (Int64.ofInt (value cs)) else .error .outOfRange := by
  have hnot : ¬(cs = [] ∨ cs.all Char.isDigit = false) := by simp [hne,h]
  have hplain : Decimal.atoiDigits false cs =
      if value cs < 2^63 then .ok (Int64.ofInt (value cs)) else .error .outOfRange := by
    rw [Decimal.atoiDigits,if_neg hnot]
    rfl
  rw [atoi,String.toList_ofList]
  split
  · cases (List.all_eq_true.mp h) '-' (by simp)
  · cases (List.all_eq_true.mp h) '+' (by simp)
  · exact hplain

theorem parseInt_nonneg {cs : List Char} (h : numeral cs = true) {n : Int64}
    (hn : parseInt (String.ofList cs) = .ok n) : 0 ≤ n := by
  obtain ⟨hne,hdigits⟩ := numeral_digits h
  rw [parseInt,atoi_digits hne hdigits] at hn
  split_ifs at hn with hlt
  · cases hn
    rw [Int64.le_iff_toInt_le,Int64.toInt_ofInt_of_le (by omega) (by omega)]
    exact Int.natCast_nonneg _

theorem wellFormed_of_parsed {v : SemVer} (h : Parsed v) : WellFormed v := by
  obtain ⟨raw,hraw⟩ := h
  simp only [parse] at hraw
  split at hraw
  · cases hraw
  split at hraw
  · cases hraw
  rename_i m hm
  split at hraw
  · cases hraw
  rename_i major hmajor
  split at hraw
  · cases hraw
  rename_i minor hminor
  split at hraw
  · cases hraw
  rename_i patch hpatch
  split at hraw
  · cases hraw
  rename_i hvalid
  cases hraw
  -- the groups of the match
  simp only [semVerPattern] at hm
  split at hm
  · cases hm
  split at hm
  · cases hm
  split at hm
  · rename_i hgroups
    cases hm
    simp only [Bool.and_eq_true] at hgroups
    obtain ⟨⟨⟨⟨ha,hb⟩,hc⟩,hpre⟩,hbuild⟩ := hgroups
    exact ⟨parseInt_nonneg ha hmajor,parseInt_nonneg hb hminor,parseInt_nonneg hc hpatch,
      suffix_of_all hpre,hvalid,suffix_of_all hbuild⟩
  · cases hm

theorem numeral_toDigits (n : ℕ) : numeral (Nat.toDigits 10 n) = true := by
  have hne : Nat.toDigits 10 n ≠ [] := Nat.toDigits_ne_nil
  have hall : (Nat.toDigits 10 n).all Char.isDigit = true :=
    List.all_eq_true.mpr (Decimal.allDigits_toDigits n)
  simp only [numeral,Bool.and_eq_true,bne_iff_ne,ne_eq,hne,not_false_eq_true,hall,true_and,
    Bool.or_eq_true,beq_iff_eq]
  rcases Nat.eq_zero_or_pos n with rfl | hpos
  · exact Or.inl (Nat.toDigits_zero 10)
  · exact Or.inr (Decimal.toDigits_head hpos)

theorem mem_splitOn (sep : Char) {c : Char} {cs : List Char} (hc : c ∈ cs) :
    c = sep ∨ ∃ part ∈ cs.splitOn sep,c ∈ part := by
  induction cs with
  | nil => cases hc
  | cons x cs ih =>
    obtain ⟨part,parts,hparts⟩ := List.exists_cons_of_ne_nil (List.splitOn_ne_nil sep cs)
    rw [List.splitOn_cons_eq_if_modifyHead]
    by_cases hx : x = sep
    · rcases List.mem_cons.mp hc with rfl | hmem
      · exact Or.inl hx
      · simp only [hx,beq_self_eq_true,if_true,List.mem_cons,exists_eq_or_imp]
        exact (ih hmem).imp_right Or.inr
    · simp only [beq_iff_eq,hx,if_false,hparts,List.modifyHead_cons,List.mem_cons,
        exists_eq_or_imp] at ih ⊢
      rcases List.mem_cons.mp hc with rfl | hmem
      · exact Or.inr (Or.inl (Or.inl rfl))
      · exact (ih hmem).imp_right (Or.imp_left Or.inr)

theorem mem_of_identifiers {cs : List Char} (h : identifiers cs = true) {c : Char} (hc : c ∈ cs) :
    identifierChar c = true ∨ c = '.' := by
  rw [identifiers,List.all_eq_true] at h
  rcases mem_splitOn '.' hc with rfl | ⟨part,hpart,hmem⟩
  · exact Or.inr rfl
  · have hall := h part hpart
    simp only [Bool.and_eq_true,List.all_eq_true] at hall
    exact Or.inl (hall.2 c hmem)

-- the runes a canonical version is written in
def versionChar (c : Char) : Bool := identifierChar c || c == '.' || c == '+'

theorem isSpace_versionChar {c : Char} (h : versionChar c = true) : isSpace c = false := by
  simp only [versionChar,identifierChar,Bool.or_eq_true,beq_iff_eq] at h
  rcases h with ((h | rfl) | rfl) | rfl
  · exact isSpace_of_isAlphanum h
  · decide
  · decide
  · decide

theorem identifierChar_of_isDigit {c : Char} (h : c.isDigit = true) : identifierChar c = true := by
  simp [identifierChar,Char.isAlphanum,h]

theorem not_mem_digits (sep : Char) (hsep : sep.isDigit = false) (n : ℕ) :
    sep ∉ Nat.toDigits 10 n := by
  intro hmem
  rw [Decimal.allDigits_toDigits n sep hmem] at hsep
  cases hsep

def joinSuffix (sep : Char) (s : String) : List Char := if s = "" then [] else sep :: s.toList

theorem toList_string {v : SemVer} (h : WellFormed v) : v.string.toList =
    Nat.toDigits 10 v.major.toInt.natAbs ++ '.' :: (Nat.toDigits 10 v.minor.toInt.natAbs ++
      '.' :: (Nat.toDigits 10 v.patch.toInt.natAbs ++ joinSuffix '-' v.preRelease ++
        joinSuffix '+' v.build)) := by
  rw [SemVer.string,Decimal.itoa_of_nonneg h.major,Decimal.itoa_of_nonneg h.minor,
    Decimal.itoa_of_nonneg h.patch]
  simp only [joinSuffix,String.toList_append,String.toList_ofList,List.append_assoc]
  by_cases hpre : v.preRelease = "" <;> by_cases hbuild : v.build = "" <;>
    simp [hpre,hbuild]

theorem optional_joinSuffix {sep : Char} {l : List Char} (hl : sep ∉ l) (s : String) :
    optional sep (l ++ joinSuffix sep s) = (l,if s = "" then none else some s.toList) := by
  by_cases hs : s = ""
  · rw [joinSuffix,if_pos hs,if_pos hs,List.append_nil,optional_whole hl]
  · rw [joinSuffix,if_neg hs,if_neg hs,optional_cut hl]

theorem plus_not_mem {s : String} (h : Suffix s) : '+' ∉ joinSuffix '-' s := by
  rw [joinSuffix]
  split_ifs with hs
  · simp
  · intro hmem
    rcases List.mem_cons.mp hmem with heq | hmem
    · cases heq
    · rcases mem_of_identifiers (h.resolve_left hs) hmem with hc | hc
      · cases hc
      · cases hc

theorem suffix_group {s : String} (h : Suffix s) :
    (if s = "" then none else some s.toList : Option (List Char)).all identifiers = true ∧
      String.ofList ((if s = "" then none else some s.toList : Option (List Char)).getD []) = s := by
  split_ifs with hs
  · exact ⟨rfl,hs.symm⟩
  · exact ⟨h.resolve_left hs,String.ofList_toList⟩

theorem optionalV_digits {cs : List Char} (h : cs.head? ≠ some 'v') : optionalV cs = cs := by
  rw [optionalV]
  rintro tail rfl
  exact h rfl

theorem semVerPattern_string {v : SemVer} (h : WellFormed v) : semVerPattern v.string =
    some ⟨itoa v.major,itoa v.minor,itoa v.patch,v.preRelease,v.build⟩ := by
  have hhead : v.string.toList.head? ≠ some 'v' := by
    rw [toList_string h,List.head?_append_of_ne_nil _ Nat.toDigits_ne_nil]
    intro hv
    exact not_mem_digits _ (by decide) _ (List.mem_of_mem_head? hv)
  have hplus : '+' ∉ Nat.toDigits 10 v.patch.toInt.natAbs ++ joinSuffix '-' v.preRelease := by
    rw [List.mem_append,not_or]
    exact ⟨not_mem_digits _ (by decide) _,plus_not_mem h.preRelease⟩
  rw [semVerPattern,optionalV_digits hhead,toList_string h,
    cutChars_eq_some_iff.mpr ⟨rfl,not_mem_digits _ (by decide) _⟩]
  simp only
  rw [cutChars_eq_some_iff.mpr ⟨rfl,not_mem_digits _ (by decide) _⟩]
  simp only [optional_joinSuffix hplus,optional_joinSuffix (not_mem_digits '-' (by decide) _),
    numeral_toDigits,(suffix_group h.preRelease).1,(suffix_group h.preRelease).2,
    (suffix_group h.build).1,(suffix_group h.build).2,Bool.and_true,if_true,
    Decimal.itoa_of_nonneg h.major,Decimal.itoa_of_nonneg h.minor,Decimal.itoa_of_nonneg h.patch]

theorem versionChar_string {v : SemVer} (h : WellFormed v) {c : Char}
    (hc : c ∈ v.string.toList) : versionChar c = true := by
  have hdigit (n : ℕ) (hn : c ∈ Nat.toDigits 10 n) : versionChar c = true := by
    simp [versionChar,identifierChar_of_isDigit (Decimal.allDigits_toDigits n c hn)]
  have hsuffix {s : String} (hs : Suffix s) (sep : Char) (hsep : versionChar sep = true)
      (hmem : c ∈ joinSuffix sep s) : versionChar c = true := by
    rw [joinSuffix] at hmem
    split_ifs at hmem with hempty
    · cases hmem
    · rcases List.mem_cons.mp hmem with rfl | hmem
      · exact hsep
      · rcases mem_of_identifiers (hs.resolve_left hempty) hmem with hchar | rfl
        · simp [versionChar,hchar]
        · rfl
  rw [toList_string h] at hc
  simp only [List.mem_append,List.mem_cons] at hc
  rcases hc with hc | rfl | hc | rfl | (hc | hc) | hc
  · exact hdigit _ hc
  · rfl
  · exact hdigit _ hc
  · rfl
  · exact hdigit _ hc
  · exact hsuffix h.preRelease '-' rfl hc
  · exact hsuffix h.build '+' rfl hc

theorem parseInt_itoa {n : Int64} (h : 0 ≤ n) : parseInt (itoa n) = .ok n := by
  rw [parseInt,Decimal.atoi_itoa h]

theorem parse_string {v : SemVer} (h : WellFormed v) : parse v.string = .ok v := by
  have htrim : trimSpace v.string = v.string :=
    trimSpace_of_no_space fun c hc => isSpace_versionChar (versionChar_string h hc)
  have hne : v.string ≠ "" := by
    intro hempty
    have hlist := congrArg String.toList hempty
    rw [toList_string h] at hlist
    simp at hlist
  simp only [parse,htrim,hne,if_false,semVerPattern_string h,parseInt_itoa h.major,
    parseInt_itoa h.minor,parseInt_itoa h.patch,h.valid]

end Nimburion.Version
