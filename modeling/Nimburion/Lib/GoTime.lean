import Nimburion.Lib.Decimal
import Mathlib.Data.Int.Basic
import Mathlib.Tactic.Common

namespace Nimburion.GoTime
open Decimal

abbrev Time := Int

abbrev Duration := Int

def millisecond : Int := 1000000

def second : Int := 1000000000

def daySeconds : Int := 86400

def zeroTime : Time := -62135596800 * second

def isZero (t : Time) : Bool := t = zeroTime

def unixMilli (t : Time) : Int := t / millisecond

def yearZero : Time := -62167219200 * second

def yearTenThousand : Time := 253402300800 * second

def inYearRange (t : Time) : Bool := yearZero ≤ t && t < yearTenThousand

theorem inYearRange_iff (t : Int) : inYearRange t = true ↔
    -62167219200000000000 ≤ t ∧ t < 253402300800000000000 := by
  have hlo : yearZero = -62167219200000000000 := rfl
  have hhi : yearTenThousand = 253402300800000000000 := rfl
  simp only [inYearRange,hlo,hhi,Bool.and_eq_true,decide_eq_true_iff]

structure Civil where
  year : Int
  month : Int
  day : Int
  deriving DecidableEq, Repr

def yearOfEra (doe : Int) : Int :=
  let century := min 3 (doe/36524)
  let doc := doe-36524*century
  let quad := doc/1461
  100*century+4*quad+min 3 ((doc-1461*quad)/365)

def yearStart (yoe : Int) : Int := 365*yoe+yoe/4-yoe/100

def civilOfYearDay (y doy : Int) : Civil :=
  let mp := (5*doy+2)/153
  let month := if mp < 10 then mp+3 else mp-9
  ⟨if month ≤ 2 then y+1 else y,month,doy-(153*mp+2)/5+1⟩

-- days are counted from 1970-01-01; the shifted year starts on 1 March
def civilOfDays (z : Int) : Civil :=
  let n := z+719468
  let era := n/146097
  let doe := n-era*146097
  civilOfYearDay (yearOfEra doe+era*400) (doe-yearStart (yearOfEra doe))

def daysOfCivil (c : Civil) : Int :=
  let y := if c.month ≤ 2 then c.year-1 else c.year
  let era := y/400
  let mp := if 2 < c.month then c.month-3 else c.month+9
  era*146097+yearStart (y-era*400)+((153*mp+2)/5+c.day-1)-719468

def isLeap (year : Int) : Bool := year%4 = 0 && (year%100 ≠ 0 || year%400 = 0)

def daysIn (month year : Int) : Int :=
  if month = 2 then (if isLeap year then 29 else 28)
  else if month = 4 ∨ month = 6 ∨ month = 9 ∨ month = 11 then 30
  else 31

def formatYear (year : Int) : List Char :=
  if year < 0 then '-' :: pad 4 year.natAbs else pad 4 year.natAbs

def formatFraction (nsec : ℕ) : List Char :=
  if nsec = 0 then [] else '.' :: (pad 9 nsec).rdropWhile (· = '0')

def formatRFC3339Nano (t : Time) : String :=
  let sec := t/second
  let nsec := (t%second).toNat
  let c := civilOfDays (sec/daySeconds)
  let tod := (sec%daySeconds).toNat
  String.ofList (formatYear c.year ++ '-' :: pad 2 c.month.toNat ++ '-' :: pad 2 c.day.toNat ++
    'T' :: pad 2 (tod/3600) ++ ':' :: pad 2 (tod/60%60) ++ ':' :: pad 2 (tod%60) ++
    formatFraction nsec ++ ['Z'])

section Calendar

variable {doe : Int}

theorem yearOfEra_split (h0 : 0 ≤ doe) (h1 : doe < 146097) : ∃ c q y r : Int,
    0 ≤ c ∧ c ≤ 3 ∧ 0 ≤ q ∧ q ≤ 24 ∧ 0 ≤ y ∧ y ≤ 3 ∧ 0 ≤ r ∧
    (r ≤ 364 ∨ r = 365 ∧ y = 3 ∧ (q < 24 ∨ c = 3)) ∧
    yearOfEra doe = 100*c+4*q+y ∧ yearStart (yearOfEra doe) = 36524*c+1461*q+365*y ∧
    doe = 36524*c+1461*q+365*y+r := by
  obtain ⟨c,hc⟩ : ∃ c, c = min 3 (doe/36524) := ⟨_,rfl⟩
  obtain ⟨q,hq⟩ : ∃ q, q = (doe-36524*c)/1461 := ⟨_,rfl⟩
  obtain ⟨y,hy⟩ : ∃ y, y = min 3 ((doe-36524*c-1461*q)/365) := ⟨_,rfl⟩
  have hyoe : yearOfEra doe = 100*c+4*q+y := by simp only [yearOfEra,hc,hq,hy]
  have hcb : 0 ≤ c ∧ c ≤ 3 := by omega
  have hdoc : 0 ≤ doe-36524*c ∧ doe-36524*c ≤ 36524 ∧ (doe-36524*c < 36524 ∨ c = 3) := by omega
  have hqb : 0 ≤ q ∧ q ≤ 24 := by omega
  have hyb : 0 ≤ y ∧ y ≤ 3 := by omega
  have h4 : yearOfEra doe/4 = 25*c+q := by omega
  have h100 : yearOfEra doe/100 = c := by omega
  refine ⟨c,q,y,doe-36524*c-1461*q-365*y,hcb.1,hcb.2,hqb.1,hqb.2,hyb.1,hyb.2,?_,?_,hyoe,?_,?_⟩
  · omega
  · omega
  · rw [yearStart,h4,h100,hyoe]
    omega
  · omega

theorem isLeap_of_quad {c q : Int} (hc0 : 0 ≤ c) (hc1 : c ≤ 3) (hq0 : 0 ≤ q) (hq1 : q ≤ 24)
    (h : q < 24 ∨ c = 3) : isLeap (100*c+4*q+4) = true := by
  have hfour : (100*c+4*q+4)%4 = 0 := by omega
  rcases Int.lt_or_eq_of_le hq1 with hlt | rfl
  · have hcent : (100*c+4*q+4)%100 ≠ 0 := by omega
    simp [isLeap,hfour,hcent]
  · have hera : c = 3 := by omega
    rw [hera]
    rfl

theorem yearOfEra_spec (h0 : 0 ≤ doe) (h1 : doe < 146097) :
    0 ≤ yearOfEra doe ∧ yearOfEra doe < 400 ∧ yearStart (yearOfEra doe) ≤ doe ∧
    doe ≤ yearStart (yearOfEra doe)+365 ∧
    (doe = yearStart (yearOfEra doe)+365 → isLeap (yearOfEra doe+1) = true) := by
  obtain ⟨c,q,y,r,hc0,hc1,hq0,hq1,hy0,hy1,hr0,hr1,hyoe,hstart,hdoe⟩ := yearOfEra_split h0 h1
  refine ⟨by omega,by omega,by omega,by omega,?_⟩
  intro hlast
  have hy : y = 3 ∧ (q < 24 ∨ c = 3) := by omega
  rw [hyoe,hy.1,Int.add_assoc]
  exact isLeap_of_quad hc0 hc1 hq0 hq1 hy.2

theorem isLeap_add_eras (year era : Int) : isLeap (year+era*400) = isLeap year := by
  have h4 : (year+era*400)%4 = year%4 := by omega
  have h100 : (year+era*400)%100 = year%100 := by omega
  have h400 : (year+era*400)%400 = year%400 := by omega
  rw [isLeap,isLeap,h4,h100,h400]

theorem civilOfYearDay_valid (y doy : Int) (h0 : 0 ≤ doy) (h1 : doy ≤ 365)
    (hleap : doy = 365 → isLeap (y+1) = true) :
    1 ≤ (civilOfYearDay y doy).month ∧ (civilOfYearDay y doy).month ≤ 12 ∧
    1 ≤ (civilOfYearDay y doy).day ∧
    (civilOfYearDay y doy).day ≤
      daysIn (civilOfYearDay y doy).month (civilOfYearDay y doy).year := by
  obtain ⟨mp,hmp⟩ : ∃ mp, mp = (5*doy+2)/153 := ⟨_,rfl⟩
  have hcases : mp = 0 ∨ mp = 1 ∨ mp = 2 ∨ mp = 3 ∨ mp = 4 ∨ mp = 5 ∨ mp = 6 ∨ mp = 7 ∨ mp = 8 ∨
      mp = 9 ∨ mp = 10 ∨ mp = 11 := by omega
  simp only [civilOfYearDay,← hmp]
  rcases hcases with h | h | h | h | h | h | h | h | h | h | h | h <;> subst h <;>
    refine ⟨by decide,by decide,by omega,?_⟩
  case inr.inr.inr.inr.inr.inr.inr.inr.inr.inr.inr =>
    simp only [daysIn]
    by_cases hlast : doy = 365
    · simp [hleap hlast,hlast]
    · have hday : doy-(153*11+2)/5+1 ≤ 28 := by omega
      simp
      split_ifs <;> omega
  all_goals
    simp [daysIn]
    omega

theorem daysOfCivil_civilOfYearDay {yoe era doy : Int} (hy0 : 0 ≤ yoe) (hy1 : yoe < 400)
    (h0 : 0 ≤ doy) (h1 : doy ≤ 365) :
    daysOfCivil (civilOfYearDay (yoe+era*400) doy) = era*146097+yearStart yoe+doy-719468 := by
  obtain ⟨mp,hmp⟩ : ∃ mp, mp = (5*doy+2)/153 := ⟨_,rfl⟩
  have hmonth : (civilOfYearDay (yoe+era*400) doy).month = if mp < 10 then mp+3 else mp-9 := by
    rw [civilOfYearDay,← hmp]
  have hyear : (if (civilOfYearDay (yoe+era*400) doy).month ≤ 2
      then (civilOfYearDay (yoe+era*400) doy).year-1
      else (civilOfYearDay (yoe+era*400) doy).year) = yoe+era*400 := by
    simp only [civilOfYearDay]
    split_ifs <;> omega
  have hmp' : (if 2 < (civilOfYearDay (yoe+era*400) doy).month
      then (civilOfYearDay (yoe+era*400) doy).month-3
      else (civilOfYearDay (yoe+era*400) doy).month+9) = mp := by
    rw [hmonth]
    split_ifs <;> omega
  have hera : (yoe+era*400)/400 = era := by omega
  have hday : (civilOfYearDay (yoe+era*400) doy).day = doy-(153*mp+2)/5+1 := by
    rw [civilOfYearDay,← hmp]
  simp only [daysOfCivil,hyear,hmp',hera,hday]
  have hyoe : yoe+era*400-era*400 = yoe := by omega
  rw [hyoe]
  omega

structure Civil.Valid (c : Civil) : Prop where
  month_pos : 1 ≤ c.month
  month_le : c.month ≤ 12
  day_pos : 1 ≤ c.day
  day_le : c.day ≤ daysIn c.month c.year

theorem civilOfDays_valid (z : Int) :
    (civilOfDays z).Valid ∧ daysOfCivil (civilOfDays z) = z := by
  have hdoe : 0 ≤ z+719468-(z+719468)/146097*146097 ∧
      z+719468-(z+719468)/146097*146097 < 146097 := by omega
  obtain ⟨hy0,hy1,hlo,hhi,hleap⟩ := yearOfEra_spec hdoe.1 hdoe.2
  simp only [civilOfDays]
  have hleap' := fun h => hleap h
  generalize (z+719468)/146097 = era at *
  generalize yearOfEra (z+719468-era*146097) = yoe at *
  have hvalid := civilOfYearDay_valid (yoe+era*400)
    (z+719468-era*146097-yearStart yoe) (by omega) (by omega) (by
      intro hlast
      have hl := hleap' (by omega)
      rwa [← isLeap_add_eras _ era,show yoe+1+era*400 = yoe+era*400+1 by omega] at hl)
  refine ⟨⟨hvalid.1,hvalid.2.1,hvalid.2.2.1,hvalid.2.2.2⟩,?_⟩
  rw [daysOfCivil_civilOfYearDay hy0 hy1 (by omega) (by omega)]
  omega

theorem civilOfDays_year {z : Int} (h0 : -719528 ≤ z) (h1 : z < 2932897) :
    0 ≤ (civilOfDays z).year ∧ (civilOfDays z).year < 10000 := by
  have hdoe : 0 ≤ z+719468-(z+719468)/146097*146097 ∧
      z+719468-(z+719468)/146097*146097 < 146097 := by omega
  obtain ⟨hy0,hy1,hlo,hhi,_⟩ := yearOfEra_spec hdoe.1 hdoe.2
  simp only [civilOfDays,civilOfYearDay]
  have hera : -1 ≤ (z+719468)/146097 ∧ (z+719468)/146097 ≤ 24 := by omega
  generalize (z+719468)/146097 = era at *
  generalize yearOfEra (z+719468-era*146097) = yoe at *
  have hstart : yearStart yoe ≤ 365*yoe+99 ∧ 365*yoe ≤ yearStart yoe := by
    unfold yearStart
    omega
  have hfirst : yearStart 399 = 145731 := rfl
  -- only the last shifted year before year 0 and the last one of 9999 touch the bounds
  have hlow : era = -1 → yoe = 399 := by omega
  by_cases hyoe : yoe = 399
  · subst hyoe
    rw [hfirst] at hlo hhi ⊢
    split_ifs <;> omega
  · have hera0 : 0 ≤ era := by omega
    split_ifs <;> omega

theorem civilOfDays_year_neg {z : Int} (h : z < -719528) : (civilOfDays z).year < 0 := by
  have hdoe : 0 ≤ z+719468-(z+719468)/146097*146097 ∧
      z+719468-(z+719468)/146097*146097 < 146097 := by omega
  obtain ⟨hy0,hy1,hlo,hhi,_⟩ := yearOfEra_spec hdoe.1 hdoe.2
  simp only [civilOfDays,civilOfYearDay]
  have hera : (z+719468)/146097 ≤ -1 := by omega
  generalize (z+719468)/146097 = era at *
  generalize yearOfEra (z+719468-era*146097) = yoe at *
  have hfirst : yearStart 399 = 145731 := rfl
  by_cases hyoe : yoe = 399
  · subst hyoe
    rw [hfirst] at hlo hhi ⊢
    split_ifs <;> omega
  · split_ifs <;> omega

theorem civilOfDays_year_large {z : Int} (h : 2932897 ≤ z) : 10000 ≤ (civilOfDays z).year := by
  have hdoe : 0 ≤ z+719468-(z+719468)/146097*146097 ∧
      z+719468-(z+719468)/146097*146097 < 146097 := by omega
  obtain ⟨hy0,hy1,hlo,hhi,_⟩ := yearOfEra_spec hdoe.1 hdoe.2
  simp only [civilOfDays,civilOfYearDay]
  have hera : 24 ≤ (z+719468)/146097 := by omega
  generalize (z+719468)/146097 = era at *
  generalize yearOfEra (z+719468-era*146097) = yoe at *
  have hstart : yearStart yoe ≤ 365*yoe+99 := by
    unfold yearStart
    omega
  have hfirst : yearStart 399 = 145731 := rfl
  by_cases hyoe : yoe = 399
  · subst hyoe
    rw [hfirst] at hlo hhi ⊢
    split_ifs <;> omega
  · have hera1 : 25 ≤ era := by omega
    split_ifs <;> omega

end Calendar

end Nimburion.GoTime
