import Nimburion.Lib.ThreeWay
import Nimburion.Version.SemVer
import Mathlib.Data.Set.Basic
import Mathlib.Data.String.Basic

namespace Nimburion.Version

open GoText ThreeWay
open Decimal (value atoi)

section Specification

def digitsOnly (id : String) : Bool := id.toList.all Char.isDigit

-- SemVer 2.0, section 11: digits compare as numbers and below everything else
def identifierKey (id : String) : ℕ ⊕ₗ String :=
  if digitsOnly id then Sum.inlₗ (value id.toList) else Sum.inrₗ id

def identifierKeys (ids : List String) : List (ℕ ⊕ₗ String) := ids.map identifierKey

-- a version without pre-release comes after all its pre-releases
def preReleaseKey (pr : String) : WithTop (List (ℕ ⊕ₗ String)) :=
  if pr = "" then ⊤ else (identifierKeys (split pr '.') : List (ℕ ⊕ₗ String))

def precedence (v : SemVer) : Int ×ₗ Int ×ₗ Int ×ₗ WithTop (List (ℕ ⊕ₗ String)) :=
  toLex (v.major.toInt,toLex (v.minor.toInt,toLex (v.patch.toInt,preReleaseKey v.preRelease)))

def EqualUpToBuild (v w : SemVer) : Prop := {w with build := v.build} = v

structure IsPrecedence (S : Set SemVer) : Prop where
  refl : ∀ v ∈ S, v.compare v = 0
  antisymm : ∀ v ∈ S, ∀ w ∈ S, w.compare v = -v.compare w
  trans : ∀ u ∈ S, ∀ v ∈ S, ∀ w ∈ S, u.compare v ≤ 0 → v.compare w ≤ 0 → u.compare w ≤ 0
  equivTrans : ∀ u ∈ S, ∀ v ∈ S, ∀ w ∈ S, u.compare v = 0 → v.compare w = 0 → u.compare w = 0
  zero : ∀ v ∈ S, ∀ w ∈ S, v.compare w = 0 ↔ EqualUpToBuild v w
  section11 : ∀ v ∈ S, ∀ w ∈ S, v.compare w = order (precedence v) (precedence w)
  roundTrip : ∀ v ∈ S, parse v.string = .ok v

-- how ParseInt and section 11 read an identifier
inductive Kind where
  | number
  | huge
  | hyphenated
  | word
  deriving DecidableEq, Repr

def kind (id : String) : Kind :=
  match digitsOnly id,reads id with
  | true,true => .number
  | true,false => .huge
  | false,true => .hyphenated
  | false,false => .word

-- the number behind the hyphen
def magnitude (id : String) : ℕ := value (id.toList.drop 1)

-- two different identifiers that ParseInt and the text order put as section 11 does
def SameOrder (a b : String) : Prop :=
  match kind a,kind b with
  | .hyphenated,.number | .number,.hyphenated | .hyphenated,.huge | .huge,.hyphenated => False
  | .hyphenated,.hyphenated =>
    (magnitude b < magnitude a ↔ a < b) ∧ (magnitude a < magnitude b ↔ b < a)
  | .huge,.huge =>
    (value a.toList < value b.toList ↔ a < b) ∧ (value b.toList < value a.toList ↔ b < a)
  | .hyphenated,.word | .huge,.word => a < b
  | .word,.hyphenated | .word,.huge => b < a
  | _,_ => True

-- numerals too large for ParseInt that differ in leading zeros only
def SameNumber (a b : String) : Prop :=
  kind a = .huge ∧ kind b = .huge ∧ value a.toList = value b.toList

-- the condition on the first identifiers that differ
def Faithful : List String → List String → Prop
  | a :: as,b :: bs =>
    if a = b then Faithful as bs
    else SameOrder a b ∨ SameNumber a b ∧ (a < b ↔ identifierKeys as < identifierKeys bs) ∧
      (b < a ↔ identifierKeys bs < identifierKeys as)
  | _,_ => True

def SameCore (v w : SemVer) : Prop := v.major = w.major ∧ v.minor = w.minor ∧ v.patch = w.patch

end Specification

section Identifiers

structure Identifier (id : String) : Prop where
  ne : id.toList ≠ []
  chars : ∀ c ∈ id.toList,identifierChar c = true
  zero : leadingZero id = false

theorem reads_iff {id : String} : reads id = true ↔ ∃ n, parseInt id = .ok n := by
  rw [reads]
  cases parseInt id with
  | ok n => simp [Except.isOk,Except.toBool]
  | error e => simp [Except.isOk,Except.toBool]

theorem parseInt_eq_ok {id : String} {n : Int64} : parseInt id = .ok n ↔ atoi id = .ok n := by
  rw [parseInt]
  cases atoi id with
  | ok m => simp
  | error e => cases e <;> simp

theorem atoi_hyphen {ds : List Char} {n : Int64} (h : atoi (String.ofList ('-' :: ds)) = .ok n) :
    n.toInt = -(value ds : Int) := by
  rw [atoi,String.toList_ofList] at h
  simp only [Decimal.atoiDigits] at h
  split_ifs at h with hbad hlt
  cases h
  exact Int64.toInt_ofInt_of_le (by omega) (by omega)

-- an identifier that is not a numeral and still parses starts with a hyphen
theorem toInt_hyphenated {id : String} (hid : Identifier id) (hdigits : digitsOnly id = false)
    {n : Int64} (h : atoi id = .ok n) : n.toInt = -(magnitude id : Int) := by
  obtain ⟨c,ds,hlist⟩ := List.exists_cons_of_ne_nil hid.ne
  have hid' : id = String.ofList (c :: ds) := by rw [← hlist,String.ofList_toList]
  have hplus : c ≠ '+' := by
    rintro rfl
    have hc := hid.chars '+' (by simp [hlist])
    cases hc
  by_cases hc : c = '-'
  · rw [hid',hc] at h
    rw [magnitude,hlist,List.drop_one,List.tail_cons]
    exact atoi_hyphen h
  · have hplain : atoi id = Decimal.atoiDigits false (c :: ds) := by
      rw [atoi,hlist]
      split
      · rename_i heq
        exact absurd (List.cons.inj heq).1 hc
      · rename_i heq
        exact absurd (List.cons.inj heq).1 hplus
      · rfl
    rw [digitsOnly,hlist] at hdigits
    rw [hplain,Decimal.atoiDigits,if_pos (Or.inr hdigits)] at h
    cases h

inductive Shape (id : String) : Kind → Prop where
  | number (n : Int64) : digitsOnly id = true → parseInt id = .ok n →
      n.toInt = value id.toList → Shape id .number
  | huge (err : String) : digitsOnly id = true → parseInt id = .error err →
      2^63 ≤ value id.toList → Shape id .huge
  | hyphenated (n : Int64) : digitsOnly id = false → parseInt id = .ok n →
      n.toInt = -(magnitude id : Int) → Shape id .hyphenated
  | word (err : String) : digitsOnly id = false → parseInt id = .error err → Shape id .word

theorem shape {id : String} (hid : Identifier id) : Shape id (kind id) := by
  have hatoi (hdigits : digitsOnly id = true) : atoi id =
      if value id.toList < 2^63 then .ok (Int64.ofInt (value id.toList))
      else .error .outOfRange := by
    have h := atoi_digits hid.ne hdigits
    rwa [String.ofList_toList] at h
  cases hp : parseInt id with
  | ok n =>
    have hreads : reads id = true := reads_iff.mpr ⟨n,hp⟩
    have hok := parseInt_eq_ok.mp hp
    cases hdigits : digitsOnly id with
    | true =>
      rw [kind,hdigits,hreads]
      refine .number n hdigits hp ?_
      rw [hatoi hdigits] at hok
      split_ifs at hok with hlt
      cases hok
      exact Int64.toInt_ofInt_of_le (by omega) (by omega)
    | false =>
      rw [kind,hdigits,hreads]
      exact .hyphenated n hdigits hp (toInt_hyphenated hid hdigits hok)
  | error err =>
    have hreads : reads id = false := by simp [reads,hp,Except.isOk,Except.toBool]
    cases hdigits : digitsOnly id with
    | true =>
      rw [kind,hdigits,hreads]
      refine .huge err hdigits hp ?_
      by_contra hlt
      have hok := hatoi hdigits
      rw [if_pos (by omega)] at hok
      rw [parseInt_eq_ok.mpr hok] at hp
      cases hp
    | false =>
      rw [kind,hdigits,hreads]
      exact .word err hdigits hp

theorem compareInt_eq (a b : Int64) : compareInt a b = order a.toInt b.toInt := by
  simp only [compareInt,order,Int64.lt_iff_toInt_lt]

theorem text_eq_order {a b : String} (hne : a ≠ b) : (if a < b then -1 else 1) = order a b := by
  rcases lt_or_gt_of_ne hne with h | h
  · rw [order_of_lt h,if_pos h]
  · rw [order_of_gt h,if_neg h.not_gt]

theorem order_number (m n : ℕ) : order (Sum.inlₗ m : ℕ ⊕ₗ String) (Sum.inlₗ n) = order m n :=
  order_map (fun _ _ h => Sum.Lex.inl_lt_inl_iff.mpr h) m n

theorem order_text (a b : String) : order (Sum.inrₗ a : ℕ ⊕ₗ String) (Sum.inrₗ b) = order a b :=
  order_map (fun _ _ h => Sum.Lex.inr_lt_inr_iff.mpr h) a b

theorem order_number_text (n : ℕ) (a : String) :
    order (Sum.inlₗ n : ℕ ⊕ₗ String) (Sum.inrₗ a) = -1 := order_of_lt (Sum.Lex.inl_lt_inr n a)

theorem order_text_number (n : ℕ) (a : String) :
    order (Sum.inrₗ a : ℕ ⊕ₗ String) (Sum.inlₗ n) = 1 := order_of_gt (Sum.Lex.inl_lt_inr n a)

theorem order_cast (m n : ℕ) : order (m : Int) (n : Int) = order m n :=
  order_map (fun _ _ h => Int.ofNat_lt.mpr h) m n

theorem compareIdentifier_iff {a b : String} (ha : Identifier a) (hb : Identifier b)
    (hne : a ≠ b) :
    compareIdentifier a b = order (identifierKey a) (identifierKey b) ↔ SameOrder a b := by
  have hsa := shape ha
  have hsb := shape hb
  rw [SameOrder,compareIdentifier,identifierKey,identifierKey]
  generalize kind a = ka at hsa ⊢
  generalize kind b = kb at hsb ⊢
  cases hsa with
  | number m hda hpa hma =>
    cases hsb with
    | number n hdb hpb hnb =>
      simp only [hpa,hpb,hda,hdb,if_true,compareInt_eq,hma,hnb,order_cast,order_number]
    | huge err hdb hpb hnb =>
      have hlt : value a.toList < value b.toList := by
        have := m.toInt_lt
        omega
      simp only [hpa,hpb,hda,hdb,if_true,order_number,order_of_lt hlt]
    | hyphenated n hdb hpb hnb =>
      have hnonneg : order m.toInt n.toInt ≠ -1 := by
        rw [ne_eq,order_eq_neg_one_iff]
        omega
      simp only [hpa,hpb,hda,hdb,if_true,compareInt_eq,order_number_text,Bool.false_eq_true,
        if_false,hnonneg]
    | word err hdb hpb => simp [hpa,hpb,hda,hdb,order_number_text]
  | huge err hda hpa hma =>
    cases hsb with
    | number n hdb hpb hnb =>
      have hlt : value b.toList < value a.toList := by
        have := n.toInt_lt
        omega
      simp only [hpa,hpb,hda,hdb,if_true,order_number,order_of_gt hlt]
    | huge err' hdb hpb hnb =>
      simp only [hpa,hpb,hda,hdb,if_true,order_number,text_eq_order hne]
      rw [eq_comm,order_eq_order_iff]
    | hyphenated n hdb hpb hnb => simp [hpa,hpb,hda,hdb,order_number_text]
    | word err' hdb hpb =>
      simp only [hpa,hpb,hda,hdb,if_true,order_number_text,text_eq_order hne,order_eq_neg_one_iff,
        Bool.false_eq_true,if_false]
  | hyphenated m hda hpa hma =>
    cases hsb with
    | number n hdb hpb hnb =>
      have hnonpos : order m.toInt n.toInt ≠ 1 := by
        rw [ne_eq,order_eq_one_iff]
        omega
      simp only [hpa,hpb,hda,hdb,if_true,compareInt_eq,order_text_number,Bool.false_eq_true,
        if_false,hnonpos]
    | huge err hdb hpb hnb => simp [hpa,hpb,hda,hdb,order_text_number]
    | hyphenated n hdb hpb hnb =>
      have hab : m.toInt < n.toInt ↔ magnitude b < magnitude a := by omega
      have hba : n.toInt < m.toInt ↔ magnitude a < magnitude b := by omega
      simp only [hpa,hpb,hda,hdb,compareInt_eq,order_text,Bool.false_eq_true,if_false]
      rw [order_eq_order_iff,hab,hba]
    | word err hdb hpb =>
      simp only [hpa,hpb,hda,hdb,order_text,Bool.false_eq_true,if_false]
      rw [eq_comm,order_eq_neg_one_iff]
  | word err hda hpa =>
    cases hsb with
    | number n hdb hpb hnb => simp [hpa,hpb,hda,hdb,order_text_number]
    | huge err' hdb hpb hnb =>
      simp only [hpa,hpb,hda,hdb,if_true,order_text_number,text_eq_order hne,order_eq_one_iff,
        Bool.false_eq_true,if_false]
    | hyphenated n hdb hpb hnb =>
      simp only [hpa,hpb,hda,hdb,order_text,Bool.false_eq_true,if_false]
      rw [eq_comm,order_eq_one_iff]
    | word err' hdb hpb =>
      simp only [hpa,hpb,hda,hdb,order_text,text_eq_order hne,Bool.false_eq_true,if_false]

theorem canonical_number {a : String} (ha : Identifier a) (hdigits : digitsOnly a = true)
    (hreads : reads a = true) : Nat.toDigits 10 (value a.toList) = a.toList := by
  refine Decimal.toDigits_value ha.ne (List.all_eq_true.mp hdigits) fun hhead => ?_
  have hzero := ha.zero
  rw [leadingZero,hreads,hhead] at hzero
  have hlen : ¬1 < a.toList.length := by simpa using hzero
  obtain ⟨c,ds,hlist⟩ := List.exists_cons_of_ne_nil ha.ne
  rw [hlist,List.length_cons] at hlen
  have hds : ds = [] := List.eq_nil_of_length_eq_zero (by omega)
  rw [hlist,List.head?_cons,Option.some.injEq] at hhead
  rw [hlist,hds,hhead]

theorem eq_of_number {a b : String} (ha : Identifier a) (hb : Identifier b)
    (hka : kind a = .number) (hkb : kind b = .number)
    (hvalue : value a.toList = value b.toList) : a = b := by
  have hsa := shape ha
  have hsb := shape hb
  rw [hka] at hsa
  rw [hkb] at hsb
  cases hsa with
  | number m hda hpa hma =>
    cases hsb with
    | number n hdb hpb hnb =>
      apply String.toList_inj.mp
      rw [← canonical_number ha hda (reads_iff.mpr ⟨m,hpa⟩),hvalue,
        canonical_number hb hdb (reads_iff.mpr ⟨n,hpb⟩)]

theorem key_eq_iff {a b : String} (ha : Identifier a) (hb : Identifier b) (hne : a ≠ b) :
    identifierKey a = identifierKey b ↔ SameNumber a b := by
  have hsa := shape ha
  have hsb := shape hb
  have hnumber : kind a = .number → kind b = .number → value a.toList ≠ value b.toList :=
    fun hka hkb hvalue => hne (eq_of_number ha hb hka hkb hvalue)
  rw [SameNumber,identifierKey,identifierKey]
  generalize kind a = ka at hsa hnumber ⊢
  generalize kind b = kb at hsb hnumber ⊢
  cases hsa with
  | number m hda hpa hma =>
    cases hsb with
    | number n hdb hpb hnb => simp [hda,hdb,hnumber rfl rfl]
    | huge err hdb hpb hnb =>
      have hdiff : value a.toList ≠ value b.toList := by
        have := m.toInt_lt
        omega
      simp [hda,hdb,hdiff]
    | hyphenated n hdb hpb hnb => simp [hda,hdb]
    | word err hdb hpb => simp [hda,hdb]
  | huge err hda hpa hma =>
    cases hsb with
    | number n hdb hpb hnb =>
      have hdiff : value a.toList ≠ value b.toList := by
        have := n.toInt_lt
        omega
      simp [hda,hdb,hdiff]
    | huge err hdb hpb hnb => simp [hda,hdb]
    | hyphenated n hdb hpb hnb => simp [hda,hdb]
    | word err hdb hpb => simp [hda,hdb]
  | hyphenated m hda hpa hma => cases hsb <;> simp [*]
  | word err hda hpa => cases hsb <;> simp [*]

theorem compareIdentifier_sameNumber {a b : String} (h : SameNumber a b) (ha : Identifier a)
    (hb : Identifier b) (hne : a ≠ b) :
    compareIdentifier a b = order a b ∧ ¬SameOrder a b := by
  obtain ⟨hka,hkb,hvalue⟩ := h
  have hsa := shape ha
  have hsb := shape hb
  have hnot : ¬SameOrder a b := by
    rw [SameOrder,hka,hkb]
    simp only [hvalue,lt_self_iff_false,false_iff,not_lt]
    rintro ⟨hba,hab⟩
    exact hne (le_antisymm hab hba)
  rw [hka] at hsa
  rw [hkb] at hsb
  refine ⟨?_,hnot⟩
  cases hsa with
  | huge err hda hpa hma =>
    cases hsb with
    | huge err' hdb hpb hnb => simp only [compareIdentifier,hpa,hpb,text_eq_order hne]

end Identifiers

section Lists

theorem order_nil_cons (x : ℕ ⊕ₗ String) (xs : List (ℕ ⊕ₗ String)) : order [] (x :: xs) = -1 :=
  order_of_lt (List.nil_lt_cons x xs)

theorem order_cons_nil (x : ℕ ⊕ₗ String) (xs : List (ℕ ⊕ₗ String)) : order (x :: xs) [] = 1 :=
  order_of_gt (List.nil_lt_cons x xs)

-- along the loop the condition stays with the first identifiers that differ
theorem compareIdentifiers_iff {as bs : List String} (has : ∀ a ∈ as,Identifier a)
    (hbs : ∀ b ∈ bs,Identifier b) (hne : as ≠ bs) :
    compareIdentifiers as bs = order (identifierKeys as) (identifierKeys bs) ↔ Faithful as bs := by
  induction as generalizing bs with
  | nil =>
    cases bs with
    | nil => exact absurd rfl hne
    | cons b bs =>
      simp only [compareIdentifiers,Faithful,identifierKeys,List.map_nil,List.map_cons,
        order_nil_cons,List.length_nil,List.length_cons,Nat.zero_lt_succ,if_true]
  | cons a as ih =>
    cases bs with
    | nil =>
      simp only [compareIdentifiers,Faithful,identifierKeys,List.map_nil,List.map_cons,
        order_cons_nil,List.length_nil,Nat.not_lt_zero,if_false]
    | cons b bs =>
      have ha := has a (by simp)
      have hb := hbs b (by simp)
      simp only [compareIdentifiers,Faithful,identifierKeys,List.map_cons,order_cons]
      by_cases hab : a = b
      · subst hab
        simp only [if_true,order_self,ne_eq,not_true_eq_false,if_false]
        exact ih (fun x hx => has x (by simp [hx])) (fun x hx => hbs x (by simp [hx]))
          fun h => hne (by rw [h])
      · simp only [hab,if_false]
        by_cases hsame : SameNumber a b
        · obtain ⟨htext,hnot⟩ := compareIdentifier_sameNumber hsame ha hb hab
          have hkey := (key_eq_iff ha hb hab).mpr hsame
          simp only [hkey,order_self,ne_eq,not_true_eq_false,if_false,htext,hnot,hsame,true_and,
            false_or]
          exact order_eq_order_iff
        · have hkey : order (identifierKey a) (identifierKey b) ≠ 0 := by
            rw [ne_eq,order_eq_zero_iff,key_eq_iff ha hb hab]
            exact hsame
          simp only [hkey,ne_eq,not_false_eq_true,if_true,hsame,false_and,or_false]
          exact compareIdentifier_iff ha hb hab

theorem keys_ne {as bs : List String} (has : ∀ a ∈ as,Identifier a) (hbs : ∀ b ∈ bs,Identifier b)
    (hne : as ≠ bs) (h : Faithful as bs) : identifierKeys as ≠ identifierKeys bs := by
  induction as generalizing bs with
  | nil =>
    cases bs with
    | nil => exact absurd rfl hne
    | cons b bs => simp [identifierKeys]
  | cons a as ih =>
    cases bs with
    | nil => simp [identifierKeys]
    | cons b bs =>
      have ha := has a (by simp)
      have hb := hbs b (by simp)
      rw [Faithful] at h
      intro hkeys
      obtain ⟨hhead,htail⟩ := List.cons.inj hkeys
      by_cases hab : a = b
      · subst hab
        rw [if_pos rfl] at h
        exact ih (fun x hx => has x (by simp [hx])) (fun x hx => hbs x (by simp [hx]))
          (fun heq => hne (by rw [heq])) h htail
      · rw [if_neg hab] at h
        have hsame := (key_eq_iff ha hb hab).mp hhead
        obtain ⟨htext,hnot⟩ := compareIdentifier_sameNumber hsame ha hb hab
        obtain ⟨_,hlt,hgt⟩ := h.resolve_left hnot
        change identifierKeys as = identifierKeys bs at htail
        rw [htail,lt_self_iff_false,iff_false,not_lt] at hlt hgt
        exact hab (le_antisymm hgt hlt)

end Lists

section Versions

theorem split_inj {a b : String} (h : split a '.' = split b '.') : a = b := by
  have hparts : a.toList.splitOn '.' = b.toList.splitOn '.' :=
    (List.map_injective_iff.mpr fun _ _ hl => String.ofList_injective hl) h
  have hjoin := congrArg (['.'].intercalate ·) hparts
  simp only [List.intercalate_splitOn] at hjoin
  exact String.toList_inj.mp hjoin

theorem leadingZero_of_valid {ids : List String} (h : validateIdentifiers ids = none) {id : String}
    (hid : id ∈ ids) : leadingZero id = false := by
  induction ids with
  | nil => cases hid
  | cons x ids ih =>
    rw [validateIdentifiers] at h
    split_ifs at h with hempty hzero
    rcases List.mem_cons.mp hid with rfl | hmem
    · simpa using hzero
    · exact ih h hmem

theorem identifier_of_wellFormed {v : SemVer} (h : WellFormed v) (hne : v.preRelease ≠ "")
    {id : String} (hid : id ∈ split v.preRelease '.') : Identifier id := by
  have hvalid := h.valid
  rw [validatePreRelease,if_neg hne] at hvalid
  have hzero := leadingZero_of_valid hvalid hid
  have hall := h.preRelease.resolve_left hne
  rw [identifiers,List.all_eq_true] at hall
  obtain ⟨part,hpart,rfl⟩ := List.mem_map.mp hid
  have hchars := hall part hpart
  simp only [Bool.and_eq_true,bne_iff_ne,ne_eq,List.all_eq_true] at hchars
  exact ⟨by simpa using hchars.1,by simpa using hchars.2,hzero⟩

theorem order_coe_top (ids : List (ℕ ⊕ₗ String)) :
    order (ids : WithTop (List (ℕ ⊕ₗ String))) ⊤ = -1 := by
  rw [order_eq_neg_one_iff]
  exact WithTop.coe_lt_top ids

theorem order_top_coe (ids : List (ℕ ⊕ₗ String)) :
    order ⊤ (ids : WithTop (List (ℕ ⊕ₗ String))) = 1 := by
  rw [order_swap,order_coe_top]
  rfl

-- the condition on two versions: that on their first differing identifiers
def FaithfulVersions (v w : SemVer) : Prop :=
  SameCore v w → v.preRelease ≠ "" → w.preRelease ≠ "" →
    Faithful (split v.preRelease '.') (split w.preRelease '.')

theorem faithful_self (ids : List String) : Faithful ids ids := by
  induction ids with
  | nil => trivial
  | cons id ids ih =>
    rw [Faithful,if_pos rfl]
    exact ih

theorem comparePreRelease_iff {v w : SemVer} (hv : WellFormed v) (hw : WellFormed w) :
    comparePreRelease v.preRelease w.preRelease =
        order (preReleaseKey v.preRelease) (preReleaseKey w.preRelease) ↔
      (v.preRelease ≠ "" → w.preRelease ≠ "" →
        Faithful (split v.preRelease '.') (split w.preRelease '.')) := by
  rw [comparePreRelease,preReleaseKey,preReleaseKey]
  by_cases heq : v.preRelease = w.preRelease
  · simp only [heq,if_true,order_self,true_iff]
    exact fun _ _ => faithful_self _
  rw [if_neg heq]
  by_cases hve : v.preRelease = ""
  · have hwe : w.preRelease ≠ "" := fun h => heq (hve.trans h.symm)
    simp [hve,hwe,order_top_coe]
  by_cases hwe : w.preRelease = ""
  · simp [hve,hwe,order_coe_top]
  simp only [hve,hwe,if_false,ne_eq,not_false_eq_true,forall_const]
  rw [order_map WithTop.coe_strictMono]
  exact compareIdentifiers_iff (fun _ h => identifier_of_wellFormed hv hve h)
    (fun _ h => identifier_of_wellFormed hw hwe h) fun h => heq (split_inj h)

theorem compareInt_eq_zero_iff {a b : Int64} : compareInt a b = 0 ↔ a = b := by
  rw [compareInt_eq,order_eq_zero_iff,Int64.toInt_inj]

theorem compare_iff {v w : SemVer} (hv : WellFormed v) (hw : WellFormed w) :
    v.compare w = order (precedence v) (precedence w) ↔ FaithfulVersions v w := by
  simp only [SemVer.compare,precedence,order_toLex,← compareInt_eq]
  rw [FaithfulVersions,SameCore,← comparePreRelease_iff hv hw]
  by_cases ha : compareInt v.major w.major = 0
  · by_cases hb : compareInt v.minor w.minor = 0
    · by_cases hc : compareInt v.patch w.patch = 0
      · have hcore := And.intro (compareInt_eq_zero_iff.mp ha)
          (And.intro (compareInt_eq_zero_iff.mp hb) (compareInt_eq_zero_iff.mp hc))
        rw [forall_prop_of_true hcore]
        simp only [ha,hb,hc,ne_eq,not_true_eq_false,if_false]
      · have hne : v.patch ≠ w.patch := fun h => hc (compareInt_eq_zero_iff.mpr h)
        simp [ha,hb,hc,hne]
    · have hne : v.minor ≠ w.minor := fun h => hb (compareInt_eq_zero_iff.mpr h)
      simp [ha,hb,hne]
  · have hne : v.major ≠ w.major := fun h => ha (compareInt_eq_zero_iff.mpr h)
    simp [ha,hne]

theorem equalUpToBuild_iff {v w : SemVer} :
    EqualUpToBuild v w ↔ SameCore v w ∧ v.preRelease = w.preRelease := by
  rw [EqualUpToBuild,SameCore]
  obtain ⟨a,b,c,p,q⟩ := v
  obtain ⟨a',b',c',p',q'⟩ := w
  simp only [SemVer.mk.injEq,and_true]
  exact ⟨fun ⟨h1,h2,h3,h4⟩ => ⟨⟨h1.symm,h2.symm,h3.symm⟩,h4.symm⟩,
    fun ⟨⟨h1,h2,h3⟩,h4⟩ => ⟨h1.symm,h2.symm,h3.symm,h4.symm⟩⟩

theorem preReleaseKey_inj {v w : SemVer} (hv : WellFormed v) (hw : WellFormed w)
    (h : v.preRelease ≠ "" → w.preRelease ≠ "" →
      Faithful (split v.preRelease '.') (split w.preRelease '.'))
    (hkey : preReleaseKey v.preRelease = preReleaseKey w.preRelease) :
    v.preRelease = w.preRelease := by
  by_contra hne
  rw [preReleaseKey,preReleaseKey] at hkey
  split_ifs at hkey with hve hwe hwe
  · exact hne (hve.trans hwe.symm)
  · exact WithTop.coe_ne_top hkey.symm
  · exact WithTop.coe_ne_top hkey
  · exact keys_ne (fun _ hid => identifier_of_wellFormed hv hve hid)
      (fun _ hid => identifier_of_wellFormed hw hwe hid) (fun heq => hne (split_inj heq))
      (h hve hwe) (WithTop.coe_injective hkey)

theorem precedence_eq_iff {v w : SemVer} (hv : WellFormed v) (hw : WellFormed w)
    (h : FaithfulVersions v w) : precedence v = precedence w ↔ EqualUpToBuild v w := by
  rw [equalUpToBuild_iff,precedence,precedence]
  simp only [EmbeddingLike.apply_eq_iff_eq,Prod.mk.injEq,Int64.toInt_inj]
  constructor
  · rintro ⟨ha,hb,hc,hkey⟩
    exact ⟨⟨ha,hb,hc⟩,preReleaseKey_inj hv hw (h ⟨ha,hb,hc⟩) hkey⟩
  · rintro ⟨⟨ha,hb,hc⟩,hpre⟩
    exact ⟨ha,hb,hc,by rw [hpre]⟩

theorem semver_precedence_iff (S : Set SemVer) (hS : ∀ v ∈ S,Parsed v) :
    IsPrecedence S ↔ ∀ v ∈ S, ∀ w ∈ S, FaithfulVersions v w := by
  have hwf (v : SemVer) (hv : v ∈ S) : WellFormed v := wellFormed_of_parsed (hS v hv)
  constructor
  · intro h v hv w hw
    exact (compare_iff (hwf v hv) (hwf w hw)).mp (h.section11 v hv w hw)
  · intro h
    have horder (v : SemVer) (hv : v ∈ S) (w : SemVer) (hw : w ∈ S) :
        v.compare w = order (precedence v) (precedence w) :=
      (compare_iff (hwf v hv) (hwf w hw)).mpr (h v hv w hw)
    refine ⟨fun v hv => ?_,fun v hv w hw => ?_,fun u hu v hv w hw huv hvw => ?_,
      fun u hu v hv w hw huv hvw => ?_,fun v hv w hw => ?_,horder,
      fun v hv => parse_string (hwf v hv)⟩
    · rw [horder v hv v hv,order_self]
    · rw [horder v hv w hw,horder w hw v hv,order_swap]
    · rw [horder u hu v hv,order_nonpos_iff] at huv
      rw [horder v hv w hw,order_nonpos_iff] at hvw
      rw [horder u hu w hw,order_nonpos_iff]
      exact huv.trans hvw
    · rw [horder u hu v hv,order_eq_zero_iff] at huv
      rw [horder v hv w hw,order_eq_zero_iff] at hvw
      rw [horder u hu w hw,order_eq_zero_iff]
      exact huv.trans hvw
    · rw [horder v hv w hw,order_eq_zero_iff]
      exact precedence_eq_iff (hwf v hv) (hwf w hw) (h v hv w hw)

def candidate (preRelease : String) : SemVer := ⟨1,0,0,preRelease,""⟩

theorem candidates_ordered : IsPrecedence {candidate "rc.2",candidate "rc.10"} := by
  have hsplit2 : split "rc.2" '.' = ["rc","2"] := by decide
  have hsplit10 : split "rc.10" '.' = ["rc","10"] := by decide
  have hkind2 : kind "2" = .number := by decide
  have hkind10 : kind "10" = .number := by decide
  refine (semver_precedence_iff _ ?_).mpr ?_
  · rintro v (rfl | rfl)
    · exact ⟨"1.0.0-rc.2",by decide +kernel⟩
    · exact ⟨"v1.0.0-rc.10",by decide +kernel⟩
  · rintro v (rfl | rfl) w (rfl | rfl) _ _ _
    · exact faithful_self _
    · simp [candidate,hsplit2,hsplit10,Faithful,SameOrder,hkind2,hkind10]
    · simp [candidate,hsplit2,hsplit10,Faithful,SameOrder,hkind2,hkind10]
    · exact faithful_self _

-- the hyphen is read as a sign
theorem hyphen_numbers_collapse : ¬IsPrecedence {v | Parsed v} := by
  intro h
  have hfive : Parsed (candidate "-5") := ⟨"1.0.0--5",by decide +kernel⟩
  have hzeroFive : Parsed (candidate "-05") := ⟨"1.0.0--05",by decide +kernel⟩
  have hzero : (candidate "-5").compare (candidate "-05") = 0 := by decide +kernel
  have hequal := (h.zero _ hfive _ hzeroFive).mp hzero
  have hpre : "-5" = "-05" := (equalUpToBuild_iff.mp hequal).2
  exact absurd hpre (by decide)

end Versions

end Nimburion.Version
