import Nimburion.Scheduler.Cron

namespace Nimburion.Scheduler
open GoText Decimal

-- the bounds and the switch a field is parsed with; only the day-of-week field turns it on
structure CronField where
  minValue : Int64
  maxValue : Int64
  normalizeSunday : Bool
  ordered : minValue ≤ maxValue
  week : normalizeSunday = true → minValue = 0 ∧ maxValue = 7

inductive Base where
  | star
  | single (a : Int64)
  | range (a b : Int64)
  deriving DecidableEq, Repr

structure Segment where
  base : Base
  step : Option Int64
  deriving DecidableEq, Repr

def Numeral (s : String) (n : Int64) : Prop := atoi (trimSpace s) = .ok n

inductive SpellsBase : String → Base → Prop
  | star : SpellsBase "*" .star
  | single {s : String} {a : Int64} : '-' ∉ s.toList → Numeral s a → SpellsBase s (.single a)
  | range {l r : String} {a b : Int64} : '-' ∉ l.toList → Numeral l a → Numeral r b →
      SpellsBase (l ++ "-" ++ r) (.range a b)

inductive Spells (bareStep : Bool) : String → Segment → Prop
  | plain {s : String} {base : Base} : '/' ∉ s.toList → SpellsBase s base →
      Spells bareStep s ⟨base,none⟩
  | stepped {l r : String} {base : Base} {n : Int64} : '/' ∉ l.toList →
      SpellsBase (trimSpace l) base → Numeral r n → 0 < n →
      Spells bareStep (l ++ "/" ++ r) ⟨base,some n⟩
  | bare {l r : String} {n : Int64} : bareStep = true → trimSpace l = "" → Numeral r n → 0 < n →
      Spells bareStep (l ++ "/" ++ r) ⟨.star,some n⟩

def segments (raw : String) : List String := (split (trimSpace raw) ',').map trimSpace

namespace Segment

variable (F : CronField) (seg : Segment)

def start : Int64 :=
  match seg.base with
  | .star => F.minValue
  | .single a => a
  | .range a _ => a

def last : Int64 :=
  match seg.base with
  | .star => F.maxValue
  | .single a => if seg.step.isSome then F.maxValue else a
  | .range _ b => b

def stride : Int64 := seg.step.getD 1

def Valid : Prop := F.minValue ≤ seg.start F ∧ seg.start F ≤ seg.last F ∧ seg.last F ≤ F.maxValue

def weekday (value : Int) : Int := if F.normalizeSunday ∧ value = 7 then 0 else value

def Denotes (v : Int64) : Prop :=
  ∃ k : ℕ, (seg.start F).toInt+k*seg.stride.toInt ≤ (seg.last F).toInt ∧
    weekday F v.toInt = weekday F ((seg.start F).toInt+k*seg.stride.toInt)

structure Regular : Prop where
  unit : ∀ a, seg = ⟨.single a,some 1⟩ → a = F.maxValue
  sundayRange : F.normalizeSunday = true → ∀ a b, seg.base = .range a b → (a = 7 ↔ b = 7)
  sundayStep : F.normalizeSunday = true → ∀ n, seg = ⟨.single 7,some n⟩ → n = 1
  inside : ∀ k : ℕ, (seg.start F).toInt+k*seg.stride.toInt ≤ (seg.last F).toInt →
    (seg.start F).toInt+(k+1)*seg.stride.toInt < 2^63

-- what the source computes as start and end
def ends : Int64 × Int64 :=
  match seg.base with
  | .star => (F.minValue,F.maxValue)
  | .single a => (normalizeCronValue a F.normalizeSunday,
      if 1 < seg.stride then F.maxValue else normalizeCronValue a F.normalizeSunday)
  | .range a b => (normalizeCronValue a F.normalizeSunday,normalizeCronValue b F.normalizeSunday)

end Segment

section Spelling

variable (F : CronField)

theorem not_numeral_empty (n : Int64) : ¬ Numeral "" n := by
  intro h
  have hbad : atoi (trimSpace "") = .error .badSyntax := by decide +kernel
  rw [Numeral,hbad] at h
  cases h

theorem Numeral.ne_star {s : String} {n : Int64} (h : Numeral s n) : s ≠ "*" := by
  rintro rfl
  have hbad : atoi (trimSpace "*") = .error .badSyntax := by decide +kernel
  rw [Numeral,hbad] at h
  cases h

theorem range_ne_star {l r : String} (hcut : cut (l ++ "-" ++ r) '-' = some (l,r)) :
    l ++ "-" ++ r ≠ "*" := by
  intro heq
  have hnone : cut "*" '-' = none := by decide +kernel
  rw [heq,hnone] at hcut
  cases hcut

theorem SpellsBase.ne_empty {s : String} {base : Base} (h : SpellsBase s base) : s ≠ "" := by
  intro hs
  cases h with
  | star => exact absurd hs (by decide)
  | single _ ha => exact not_numeral_empty _ (hs ▸ ha)
  | range _ _ _ =>
    have hlen := congrArg (List.length ∘ String.toList) hs
    simp at hlen

theorem cronSegmentEnds_of_spells {s : String} {base : Base} (step : Option Int64)
    (hs : trimSpace s = s) (h : SpellsBase s base) :
    cronSegmentEnds s (step.getD 1) F.minValue F.maxValue F.normalizeSunday =
      .ok ((⟨base,step⟩ : Segment).ends F) := by
  have hne := h.ne_empty
  simp only [cronSegmentEnds,hs,if_neg hne]
  cases h with
  | star => rfl
  | @single _ a hdash ha =>
    have hstar := ha.ne_star
    rw [Numeral,hs] at ha
    simp only [if_neg hstar,(cut_eq_none_iff s '-').mpr hdash,ha]
    rfl
  | @range l r a b hdash ha hb =>
    have hcut : cut (l ++ "-" ++ r) '-' = some (l,r) := cut_eq_some_iff.mpr ⟨rfl,hdash⟩
    have hstar := range_ne_star hcut
    rw [Numeral] at ha hb
    simp only [if_neg hstar,hcut,ha,hb]
    rfl

theorem spells_of_cronSegmentEnds {s : String} (step : Option Int64) {ends : Int64 × Int64}
    (hs : trimSpace s = s) (hne : s ≠ "")
    (h : cronSegmentEnds s (step.getD 1) F.minValue F.maxValue F.normalizeSunday = .ok ends) :
    ∃ base, SpellsBase s base := by
  simp only [cronSegmentEnds,hs,if_neg hne] at h
  by_cases hstar : s = "*"
  · exact ⟨.star,hstar ▸ .star⟩
  · rw [if_neg hstar] at h
    cases hcut : cut s '-' with
    | some p =>
      obtain ⟨l,r⟩ := p
      obtain ⟨hlr,hdash⟩ := cut_eq_some_iff.mp hcut
      simp only [hcut] at h
      cases ha : atoi (trimSpace l) with
      | error e => simp [ha] at h
      | ok a =>
        cases hb : atoi (trimSpace r) with
        | error e => simp [ha,hb] at h
        | ok b =>
          rw [hlr]
          exact ⟨.range a b,.range hdash ha hb⟩
    | none =>
      simp only [hcut] at h
      cases ha : atoi s with
      | error e => simp [ha] at h
      | ok a =>
        refine ⟨.single a,.single ((cut_eq_none_iff s '-').mp hcut) ?_⟩
        rw [Numeral,hs]
        exact ha

theorem not_mem_of_blank {l : String} (h : trimSpace l = "") : '/' ∉ l.toList := by
  intro hmem
  have hspace := (trimSpace_eq_empty_iff l).mp h '/' hmem
  revert hspace
  decide

def readBase (s : String) : Option Base :=
  if s = "*" then some .star
  else match cut s '-' with
  | none => (atoi (trimSpace s)).toOption.map .single
  | some (l,r) => (atoi (trimSpace l)).toOption.bind fun a =>
      (atoi (trimSpace r)).toOption.map fun b => .range a b

def readSegment (s : String) : Option Segment :=
  match cut s '/' with
  | none => (readBase s).map fun base => ⟨base,none⟩
  | some (l,r) => (atoi (trimSpace r)).toOption.bind fun n =>
      (if trimSpace l = "" then some .star else readBase (trimSpace l)).map fun base => ⟨base,some n⟩

theorem SpellsBase.read {s : String} {base : Base} (h : SpellsBase s base) :
    readBase s = some base := by
  cases h with
  | star => rfl
  | @single _ a hdash ha =>
    have hstar := ha.ne_star
    rw [Numeral] at ha
    simp [readBase,hstar,(cut_eq_none_iff s '-').mpr hdash,ha,Except.toOption]
  | @range l r a b hdash ha hb =>
    rw [Numeral] at ha hb
    have hcut : cut (l ++ "-" ++ r) '-' = some (l,r) := cut_eq_some_iff.mpr ⟨rfl,hdash⟩
    have hstar := range_ne_star hcut
    simp only [readBase,if_neg hstar,hcut,ha,hb]
    rfl

theorem Spells.read {bareStep : Bool} {s : String} {seg : Segment} (h : Spells bareStep s seg) :
    readSegment s = some seg := by
  cases h with
  | plain hslash hbase =>
    simp only [readSegment,(cut_eq_none_iff s '/').mpr hslash,hbase.read]
    rfl
  | @stepped l r base n hslash hbase hn _ =>
    have hcut : cut (l ++ "/" ++ r) '/' = some (l,r) := cut_eq_some_iff.mpr ⟨rfl,hslash⟩
    rw [Numeral] at hn
    simp only [readSegment,hcut,hn,if_neg hbase.ne_empty,hbase.read]
    rfl
  | @bare l r n _ hblank hn _ =>
    have hslash : '/' ∉ l.toList := not_mem_of_blank hblank
    have hcut : cut (l ++ "/" ++ r) '/' = some (l,r) := cut_eq_some_iff.mpr ⟨rfl,hslash⟩
    rw [Numeral] at hn
    simp only [readSegment,hcut,hn,if_pos hblank]
    rfl

theorem cronSegmentEnds_blank (step : Int64) :
    cronSegmentEnds "" step F.minValue F.maxValue F.normalizeSunday = .ok (F.minValue,F.maxValue) := by
  have hblank : trimSpace "" = "" := by decide +kernel
  simp [cronSegmentEnds,hblank]

theorem cronSegmentStep_stepped {l r : String} {n : Int64} (hslash : '/' ∉ l.toList)
    (hn : Numeral r n) (hpos : 0 < n) :
    cronSegmentStep (l ++ "/" ++ r) = .ok (trimSpace l,n) := by
  have hcut : cut (l ++ "/" ++ r) '/' = some (l,r) := cut_eq_some_iff.mpr ⟨rfl,hslash⟩
  rw [Numeral] at hn
  simp only [cronSegmentStep,hcut,hn,if_neg (Int64.not_le.mpr hpos)]

theorem cronSegment_of_spells {s : String} {seg : Segment} (hs : trimSpace s = s)
    (h : Spells true s seg) : ∃ base, cronSegmentStep s = .ok (base,seg.stride) ∧
      cronSegmentEnds base seg.stride F.minValue F.maxValue F.normalizeSunday = .ok (seg.ends F) := by
  cases h with
  | plain hslash hbase =>
    refine ⟨s,?_,cronSegmentEnds_of_spells F none hs hbase⟩
    simp only [cronSegmentStep,(cut_eq_none_iff s '/').mpr hslash]
    rfl
  | @stepped l r base n hslash hbase hn hpos =>
    refine ⟨trimSpace l,cronSegmentStep_stepped hslash hn hpos,?_⟩
    exact cronSegmentEnds_of_spells F (some n) (trimSpace_trimSpace l) hbase
  | @bare l r n _ hblank hn hpos =>
    refine ⟨"",?_,cronSegmentEnds_blank F n⟩
    rw [cronSegmentStep_stepped (not_mem_of_blank hblank) hn hpos,hblank]
    rfl

theorem spells_of_cronSegment {s base : String} {step : Int64} {ends : Int64 × Int64}
    (hs : trimSpace s = s) (hne : s ≠ "") (hstep : cronSegmentStep s = .ok (base,step))
    (hends : cronSegmentEnds base step F.minValue F.maxValue F.normalizeSunday = .ok ends) :
    ∃ seg, Spells true s seg := by
  cases hcut : cut s '/' with
  | none =>
    simp only [cronSegmentStep,hcut,Except.ok.injEq,Prod.mk.injEq] at hstep
    obtain ⟨rfl,rfl⟩ := hstep
    obtain ⟨base,hbase⟩ := spells_of_cronSegmentEnds F none hs hne hends
    exact ⟨⟨base,none⟩,.plain ((cut_eq_none_iff s '/').mp hcut) hbase⟩
  | some p =>
    obtain ⟨l,r⟩ := p
    obtain ⟨hlr,hslash⟩ := cut_eq_some_iff.mp hcut
    cases hn : atoi (trimSpace r) with
    | error e => simp [cronSegmentStep,hcut,hn] at hstep
    | ok n =>
      by_cases hpos : n ≤ 0
      · simp [cronSegmentStep,hcut,hn,hpos] at hstep
      · simp only [cronSegmentStep,hcut,hn,if_neg hpos,Except.ok.injEq,Prod.mk.injEq] at hstep
        obtain ⟨rfl,rfl⟩ := hstep
        rw [hlr]
        by_cases hblank : trimSpace l = ""
        · exact ⟨⟨.star,some n⟩,.bare rfl hblank hn (Int64.not_le.mp hpos)⟩
        · obtain ⟨base,hbase⟩ := spells_of_cronSegmentEnds F (some n) (trimSpace_trimSpace l)
            hblank hends
          exact ⟨⟨base,some n⟩,.stepped hslash hbase hn (Int64.not_le.mp hpos)⟩

theorem Spells.stride_pos {bareStep : Bool} {s : String} {seg : Segment} (h : Spells bareStep s seg) :
    0 < seg.stride.toInt := by
  cases h with
  | plain _ _ => exact (by decide : 0 < (1 : Int64).toInt)
  | stepped _ _ _ hpos => exact Int64.lt_iff_toInt_lt.mp hpos
  | bare _ _ _ hpos => exact Int64.lt_iff_toInt_lt.mp hpos

end Spelling

end Nimburion.Scheduler
