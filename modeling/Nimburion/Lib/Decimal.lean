import Mathlib.Algebra.Group.Int.Defs
import Mathlib.Algebra.Group.Nat.Defs
import Mathlib.Data.List.DropRight
import Mathlib.Tactic.Common

namespace Nimburion.Decimal

def digitValue (c : Char) : ℕ := c.toNat-48

def value (ds : List Char) : ℕ := ds.foldl (fun n c => 10*n+digitValue c) 0

def AllDigits (ds : List Char) : Prop := ∀ c ∈ ds, c.isDigit = true

def pad (width n : ℕ) : List Char :=
  List.replicate (width-(Nat.toDigits 10 n).length) '0' ++ Nat.toDigits 10 n

@[simp] theorem value_append_singleton (ds : List Char) (c : Char) :
    value (ds ++ [c]) = 10*value ds+digitValue c := by
  simp [value]

theorem digitValue_digitChar {d : ℕ} (h : d < 10) : digitValue (Nat.digitChar d) = d :=
  Nat.toNat_digitChar_sub_48_of_lt_ten h

theorem isDigit_digitChar {d : ℕ} (h : d < 10) : (Nat.digitChar d).isDigit = true := by
  simp [Nat.isDigit_digitChar,h]

theorem value_toDigits (n : ℕ) : value (Nat.toDigits 10 n) = n := by
  induction n using Nat.strong_induction_on with
  | _ n ih =>
    rcases Nat.lt_or_ge n 10 with hlt | hge
    · rw [Nat.toDigits_of_lt_base hlt]
      simp [value,digitValue_digitChar hlt]
    · rw [Nat.toDigits_of_base_le (by decide) hge,value_append_singleton,ih (n/10) (by omega),
        digitValue_digitChar (Nat.mod_lt n (by decide))]
      omega

theorem pad_succ {width n : ℕ} (hw : 0 < width) (hn : n < 10^(width+1)) :
    pad (width+1) n = pad width (n/10) ++ [Nat.digitChar (n%10)] := by
  rcases Nat.lt_or_ge n 10 with hlt | hge
  · have hdiv : n/10 = 0 := by omega
    have hmod : n%10 = n := by omega
    obtain ⟨w,rfl⟩ : ∃ w, width = w+1 := ⟨width-1,by omega⟩
    rw [hdiv,hmod,pad,pad,Nat.toDigits_of_lt_base hlt,Nat.toDigits_zero]
    simp [List.replicate_succ']
  · rw [pad,pad,Nat.toDigits_of_base_le (by decide) hge]
    simp

theorem pad_one {n : ℕ} (hn : n < 10) : pad 1 n = [Nat.digitChar n] := by
  simp [pad,Nat.toDigits_of_lt_base hn]

theorem pad_spec (width : ℕ) {n : ℕ} (hw : 0 < width) (hn : n < 10^width) :
    (pad width n).length = width ∧ value (pad width n) = n ∧ AllDigits (pad width n) := by
  induction width generalizing n with
  | zero => omega
  | succ width ih =>
    rcases Nat.eq_zero_or_pos width with rfl | hpos
    · have hlt : n < 10 := by simpa using hn
      rw [pad_one hlt]
      refine ⟨rfl,by simp [value,digitValue_digitChar hlt],?_⟩
      intro c hc
      rw [List.mem_singleton.mp hc]
      exact isDigit_digitChar hlt
    · have hdiv : n/10 < 10^width := by
        rw [Nat.pow_succ] at hn
        omega
      have hmod : n%10 < 10 := Nat.mod_lt n (by decide)
      obtain ⟨hlen,hval,hall⟩ := ih hpos hdiv
      rw [pad_succ hpos hn]
      refine ⟨by simp [hlen],?_,?_⟩
      · rw [value_append_singleton,hval,digitValue_digitChar hmod]
        omega
      · intro c hc
        rcases List.mem_append.mp hc with hc | hc
        · exact hall c hc
        · rw [List.mem_singleton.mp hc]
          exact isDigit_digitChar hmod

theorem pad_two {n : ℕ} (hn : n < 100) :
    pad 2 n = [Nat.digitChar (n/10),Nat.digitChar (n%10)] := by
  rw [pad_succ (by decide) (by simpa using hn),pad_one (by omega)]
  rfl

theorem pad_four {n : ℕ} (hn : n < 10000) : pad 4 n =
    [Nat.digitChar (n/1000),Nat.digitChar (n/100%10),Nat.digitChar (n/10%10),
      Nat.digitChar (n%10)] := by
  rw [pad_succ (by decide) (by simpa using hn),pad_succ (by decide) (by simp; omega),
    pad_two (by omega)]
  have h1 : n/10/10 = n/100 := by omega
  have h2 : n/100/10 = n/1000 := by omega
  simp [h1,h2]

theorem value_append_zeros (ds : List Char) (k : ℕ) :
    value (ds ++ List.replicate k '0') = value ds*10^k := by
  induction k with
  | zero => simp
  | succ k ih =>
    have hzero : digitValue '0' = 0 := rfl
    rw [List.replicate_succ',← List.append_assoc,value_append_singleton,ih,hzero,Nat.pow_succ,Nat.add_zero,
      Nat.mul_comm 10,Nat.mul_assoc]

theorem rdropWhile_zero_append (ds : List Char) : ∃ k,
    ds = ds.rdropWhile (· = '0') ++ List.replicate k '0' := by
  induction ds using List.reverseRecOn with
  | nil => exact ⟨0,rfl⟩
  | append_singleton ds c ih =>
    by_cases hc : c = '0'
    · obtain ⟨k,hk⟩ := ih
      refine ⟨k+1,?_⟩
      rw [List.rdropWhile_concat_pos _ _ _ (by simpa using hc),List.replicate_succ',
        ← List.append_assoc,← hk,hc]
    · refine ⟨0,?_⟩
      rw [List.rdropWhile_concat_neg _ _ _ (by simpa using hc)]
      simp

inductive NumError where
  | badSyntax
  | outOfRange
  deriving DecidableEq, Repr

def itoa (n : Int64) : String :=
  String.ofList (if n < 0 then '-' :: Nat.toDigits 10 n.toInt.natAbs
    else Nat.toDigits 10 n.toInt.natAbs)

def atoiDigits (negative : Bool) (ds : List Char) : Except NumError Int64 :=
  if ds = [] ∨ ds.all Char.isDigit = false then .error .badSyntax
  else if negative then
    if value ds ≤ 2^63 then .ok (Int64.ofInt (-(value ds : Int))) else .error .outOfRange
  else if value ds < 2^63 then .ok (Int64.ofInt (value ds)) else .error .outOfRange

def atoi (s : String) : Except NumError Int64 :=
  match s.toList with
  | '-' :: ds => atoiDigits true ds
  | '+' :: ds => atoiDigits false ds
  | ds => atoiDigits false ds

theorem allDigits_toDigits (n : ℕ) : AllDigits (Nat.toDigits 10 n) := fun _ hc =>
  Nat.isDigit_of_mem_toDigits (by decide) (by decide) hc

theorem allDigits_pad (width n : ℕ) : AllDigits (pad width n) := by
  intro c hc
  rcases List.mem_append.mp hc with hc | hc
  · rw [(List.mem_replicate.mp hc).2]
    rfl
  · exact allDigits_toDigits n c hc

theorem toNat_of_isDigit {c : Char} (h : c.isDigit = true) : 48 ≤ c.toNat ∧ c.toNat ≤ 57 :=
  Char.isDigit_iff_toNat.mp h

theorem digitValue_lt {c : Char} (h : c.isDigit = true) : digitValue c < 10 := by
  have hn := toNat_of_isDigit h
  rw [digitValue]
  omega

theorem digitChar_digitValue {c : Char} (h : c.isDigit = true) :
    Nat.digitChar (digitValue c) = c := by
  have hn := toNat_of_isDigit h
  have hd := toNat_of_isDigit (isDigit_digitChar (digitValue_lt h))
  have hv : digitValue (Nat.digitChar (digitValue c)) = digitValue c :=
    digitValue_digitChar (digitValue_lt h)
  apply Char.toNat_inj.mp
  simp only [digitValue] at hv hd ⊢
  omega

-- a numeral without a leading zero is the canonical one of its value
theorem toDigits_value {ds : List Char} (hne : ds ≠ []) (hall : AllDigits ds)
    (hzero : ds.head? = some '0' → ds = ['0']) : Nat.toDigits 10 (value ds) = ds := by
  induction ds using List.reverseRecOn with
  | nil => exact absurd rfl hne
  | append_singleton ds c ih =>
    have hc : c.isDigit = true := hall c (by simp)
    rcases List.eq_nil_or_concat ds with rfl | hds
    · have hv : value ([] ++ [c]) = digitValue c := by simp [value]
      rw [hv,Nat.toDigits_of_lt_base (digitValue_lt hc),digitChar_digitValue hc,List.nil_append]
    · have hdsne : ds ≠ [] := by
        rintro rfl
        obtain ⟨l,b,hl⟩ := hds
        simp at hl
      have hhead : ds.head? ≠ some '0' := by
        intro h
        have hwhole := hzero (by rw [List.head?_append_of_ne_nil _ hdsne]; exact h)
        have hlen := congrArg List.length hwhole
        have hpos := List.length_pos_iff.mpr hdsne
        rw [List.length_append,List.length_singleton,List.length_singleton] at hlen
        omega
      have hih := ih hdsne (fun d hd => hall d (by simp [hd])) fun h => absurd h hhead
      have hpos : 0 < value ds := by
        rcases Nat.eq_zero_or_pos (value ds) with h | h
        · rw [h,Nat.toDigits_zero] at hih
          rw [← hih] at hhead
          exact absurd rfl hhead
        · exact h
      rw [value_append_singleton,← Nat.toDigits_append_toDigits (by decide) hpos (digitValue_lt hc),
        hih,Nat.toDigits_of_lt_base (digitValue_lt hc),digitChar_digitValue hc]

theorem toDigits_head {n : ℕ} (hn : 0 < n) : (Nat.toDigits 10 n).head? ≠ some '0' := by
  induction n using Nat.strong_induction_on with
  | _ n ih =>
    rcases Nat.lt_or_ge n 10 with hlt | hge
    · rw [Nat.toDigits_of_lt_base hlt]
      simpa using hn.ne'
    · rw [Nat.toDigits_of_base_le (by decide) hge,List.head?_append_of_ne_nil _ Nat.toDigits_ne_nil]
      exact ih (n/10) (by omega) (by omega)

theorem length_pad_gt (width n : ℕ) (hw : 0 < width) (hn : 10^width ≤ n) :
    width < (pad width n).length := by
  have hlen : ¬ (Nat.toDigits 10 n).length ≤ width := by
    rw [Nat.length_toDigits_le_iff (by decide) hw]
    omega
  simp only [pad,List.length_append,List.length_replicate]
  omega

theorem itoa_of_nonneg {n : Int64} (h : 0 ≤ n) :
    itoa n = String.ofList (Nat.toDigits 10 n.toInt.natAbs) := by
  rw [itoa,if_neg (Int64.not_lt.mpr h)]

theorem atoi_itoa {n : Int64} (h : 0 ≤ n) : atoi (itoa n) = .ok n := by
  have hpos : 0 ≤ n.toInt := Int64.le_iff_toInt_le.mp h
  have hlt : n.toInt < 2^63 := n.toInt_lt
  have hall := allDigits_toDigits n.toInt.natAbs
  have hdigits : atoiDigits false (Nat.toDigits 10 n.toInt.natAbs) = .ok n := by
    have hnot : ¬ (Nat.toDigits 10 n.toInt.natAbs = [] ∨
        (Nat.toDigits 10 n.toInt.natAbs).all Char.isDigit = false) := by
      rintro (hnil | hbad)
      · exact Nat.toDigits_ne_nil hnil
      · rw [List.all_eq_true.mpr hall] at hbad
        cases hbad
    rw [atoiDigits,if_neg hnot,value_toDigits,if_neg (by decide),if_pos (by omega)]
    congr 1
    rw [Int.natAbs_of_nonneg hpos]
    exact Int64.ofInt_toInt n
  rw [itoa_of_nonneg h,atoi,String.toList_ofList]
  split
  · rename_i ds heq
    have hdash := hall '-' (by rw [heq]; simp)
    cases hdash
  · rename_i ds heq
    have hplus := hall '+' (by rw [heq]; simp)
    cases hplus
  · exact hdigits

end Nimburion.Decimal
