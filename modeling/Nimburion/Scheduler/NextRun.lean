import Nimburion.Scheduler.Task
import Mathlib.Order.Bounds.Basic

namespace Nimburion.Scheduler
open GoText GoTime

def Admits (m : CronFieldMatcher) (value : Int) : Prop :=
  m.any = true ∨ Int64.ofInt value ∈ m.values

structure Fires (e : CronExpression) (c : Clock) : Prop where
  minute : Admits e.minute c.minute
  hour : Admits e.hour c.hour
  month : Admits e.month c.month
  day : if e.dayOfMonth.any = false ∧ e.dayOfWeek.any = false then
      Admits e.dayOfMonth c.day ∨ Admits e.dayOfWeek c.weekday
    else Admits e.dayOfMonth c.day ∧ Admits e.dayOfWeek c.weekday

theorem admits_iff (m : CronFieldMatcher) (value : Int) :
    m.contains (.ofInt value) = true ↔ Admits m value := by
  simp [CronFieldMatcher.contains,Admits]

theorem matches_iff_fires (e : CronExpression) (c : Clock) : e.matches c = true ↔ Fires e c := by
  have hfires : Fires e c ↔ Admits e.minute c.minute ∧ Admits e.hour c.hour ∧ Admits e.month c.month ∧
      (if e.dayOfMonth.any = false ∧ e.dayOfWeek.any = false then
        Admits e.dayOfMonth c.day ∨ Admits e.dayOfWeek c.weekday
      else Admits e.dayOfMonth c.day ∧ Admits e.dayOfWeek c.weekday) :=
    ⟨fun h => ⟨h.minute,h.hour,h.month,h.day⟩,fun h => ⟨h.1,h.2.1,h.2.2.1,h.2.2.2⟩⟩
  rw [hfires]
  simp only [CronExpression.matches,Bool.and_eq_true,admits_iff,and_assoc]
  refine and_congr_right fun _ => and_congr_right fun _ => and_congr_right fun _ => ?_
  cases hdom : e.dayOfMonth.any <;> cases hdow : e.dayOfWeek.any <;>
    simp [Admits,hdom,hdow,CronFieldMatcher.contains]

-- the local clock shows a full minute
def WholeMinute (loc : Location) (t : Time) : Prop :=
  t%second = 0 ∧ (t/second+loc t)%60 = 0

def runs (e : CronExpression) (loc : Location) (now : Time) : Set Time :=
  { t | now < t ∧ WholeMinute loc t ∧ Fires e (clockIn loc t) }

-- a schedule that reaches the search, with the expression it is parsed to
structure Parsed (schedule : String) (e : CronExpression) : Prop where
  cron : everyMark.toList.isPrefixOf schedule.toList = false
  parsed : ∃ f0 f1 f2 f3 f4, fields schedule = [f0,f1,f2,f3,f4] ∧
    (parseCronExpression f0 f1 f2 f3 f4).run = some (.ok e)

def unableToFind (schedule : String) : GoError :=
  schedulerError errValidation ("unable to find next run for schedule " ++ quote schedule)

theorem nextRunForSchedule_parsed {schedule : String} {e : CronExpression} (h : Parsed schedule e)
    (lib : Library) (now : Time) (loc : Location) :
    (nextRunForSchedule lib schedule now loc).run =
      match searchRun e loc maxCronSearchIterations (now-now%minute+minute) with
      | some candidate => some (.ok candidate)
      | none => some (.error (unableToFind schedule)) := by
  obtain ⟨f0,f1,f2,f3,f4,hfields,hparsed⟩ := h.parsed
  simp only [nextRunForSchedule,h.cron,Bool.false_eq_true,if_false,hfields]
  have hbind : ∀ f : CronExpression → ExceptT GoError Option Time,
      (parseCronExpression f0 f1 f2 f3 f4 >>= f).run = (f e).run := by
    intro f
    change Option.bind (parseCronExpression f0 f1 f2 f3 f4) (ExceptT.bindCont f) = (f e).run
    rw [show parseCronExpression f0 f1 f2 f3 f4 = some (.ok e) from hparsed]
    rfl
  rw [hbind]
  cases searchRun e loc maxCronSearchIterations (now-now%minute+minute) <;> rfl

theorem searchRun_none {e : CronExpression} {loc : Location} {n : ℕ} {t : Int}
    (h : searchRun e loc n t = none) : ∀ j < n, e.matches (clockIn loc (t+j*minute)) = false := by
  induction n generalizing t with
  | zero => exact fun j hj => absurd hj (Nat.not_lt_zero j)
  | succ n ih =>
    simp only [searchRun] at h
    by_cases hmatch : e.matches (clockIn loc t) = true
    · simp [hmatch] at h
    · rw [if_neg hmatch] at h
      intro j hj
      cases j with
      | zero => simpa using hmatch
      | succ j =>
        have hnext := ih h j (by omega)
        push_cast
        rw [Int.add_mul,Int.one_mul,Int.add_comm (j*minute),← Int.add_assoc]
        exact hnext

section Minutes

variable {loc : Location} {now t : Int}

theorem wholeMinute_iff (hloc : ∀ t, 60 ∣ loc t) (t : Int) : WholeMinute loc t ↔ t%minute = 0 := by
  obtain ⟨k,hk⟩ := hloc t
  have hwhole : WholeMinute loc t ↔ t%1000000000 = 0 ∧ (t/1000000000+loc t)%60 = 0 := Iff.rfl
  have hminute : minute = 60000000000 := rfl
  rw [hwhole,hminute,hk]
  omega

-- the whole minutes after now, counted from the search's first candidate
theorem exists_candidate (hlater : now < t) (hwhole : t%minute = 0) :
    ∃ j : ℕ, t = now-now%minute+minute+j*minute := by
  have hminute : minute = 60000000000 := rfl
  refine ⟨((t-(now-now%minute+minute))/minute).toNat,?_⟩
  rw [hminute] at hwhole ⊢
  omega

theorem candidate_later (now : Int) (j : ℕ) :
    now < now-now%minute+minute+j*minute ∧ (now-now%minute+minute+j*minute)%minute = 0 := by
  have hminute : minute = 60000000000 := rfl
  rw [hminute]
  omega

theorem candidate_within {j : ℕ} (n : ℕ) (h : now-now%minute+minute+j*minute ≤ now+n*minute) : j < n := by
  have hminute : minute = 60000000000 := rfl
  rw [hminute] at h
  omega

theorem candidate_mono {j k : ℕ} (h : now-now%minute+minute+j*minute < now-now%minute+minute+k*minute) :
    j < k := by
  have hminute : minute = 60000000000 := rfl
  rw [hminute] at h
  omega

end Minutes

theorem next_run_least (lib : Library) (schedule : String) (e : CronExpression) (now : Time)
    (loc : Location) (hloc : ∀ t, 60 ∣ loc t) (hparsed : Parsed schedule e) :
    (∃ r, (nextRunForSchedule lib schedule now loc).run = some (.ok r) ∧ IsLeast (runs e loc now) r) ∨
    ((nextRunForSchedule lib schedule now loc).run = some (.error (unableToFind schedule)) ∧
      ∀ t ∈ runs e loc now, now+maxCronSearchIterations*minute < t) := by
  rw [nextRunForSchedule_parsed hparsed]
  cases hsearch : searchRun e loc maxCronSearchIterations (now-now%minute+minute) with
  | some r =>
    obtain ⟨k,_,rfl,hmatch,hbefore⟩ := searchRun_some hsearch
    obtain ⟨hlater,hwhole⟩ := candidate_later now k
    refine .inl ⟨_,rfl,⟨hlater,(wholeMinute_iff hloc _).mpr hwhole,(matches_iff_fires e _).mp hmatch⟩,?_⟩
    rintro t ⟨htlater,htwhole,htfires⟩
    obtain ⟨j,rfl⟩ := exists_candidate htlater ((wholeMinute_iff hloc t).mp htwhole)
    by_contra hlt
    have hj := hbefore j (candidate_mono (Int.not_le.mp hlt))
    rw [(matches_iff_fires e _).mpr htfires] at hj
    cases hj
  | none =>
    refine .inr ⟨rfl,?_⟩
    rintro t ⟨htlater,htwhole,htfires⟩
    obtain ⟨j,rfl⟩ := exists_candidate htlater ((wholeMinute_iff hloc t).mp htwhole)
    by_contra hle
    have hj := searchRun_none hsearch j (candidate_within _ (Int.not_lt.mp hle))
    rw [(matches_iff_fires e _).mpr htfires] at hj
    cases hj

deriving instance DecidableEq for CronExpression

def utc : Location := fun _ => 0

def quarterHours : CronExpression :=
  ⟨⟨false,[0,15,30,45]⟩,⟨true,[]⟩,⟨true,[]⟩,⟨true,[]⟩,⟨true,[]⟩⟩

theorem parsed_quarterHours : Parsed "*/15 * * * *" quarterHours where
  cron := by decide +kernel
  parsed := ⟨"*/15","*","*","*","*",by decide +kernel,by decide +kernel⟩

theorem next_quarter_hour : IsLeast (runs quarterHours utc (1772107420*second)) (1772108100*second) := by
  have hrun : (nextRunForSchedule utcOnly "*/15 * * * *" (1772107420*second) utc).run =
      some (.ok (1772108100*second)) := by decide +kernel
  obtain ⟨r,hr,hleast⟩ | ⟨herr,_⟩ := next_run_least utcOnly "*/15 * * * *" quarterHours
    (1772107420*second) utc (fun _ => Int.dvd_zero 60) parsed_quarterHours
  · rw [hrun,Option.some.injEq,Except.ok.injEq] at hr
    exact hr ▸ hleast
  · rw [hrun] at herr
    cases herr

section LeapDay

def leapDay : CronExpression := ⟨⟨false,[0]⟩,⟨false,[0]⟩,⟨false,[29]⟩,⟨false,[2]⟩,⟨true,[]⟩⟩

-- 1 March 2096; the next leap day is in 2104
def afterLeapDay : Time := 46081*daySeconds*second

theorem parsed_leapDay : Parsed "0 0 29 2 *" leapDay where
  cron := by decide +kernel
  parsed := ⟨"0","0","29","2","*",by decide +kernel,by decide +kernel⟩

theorem searchRun_of_none {e : CronExpression} {loc : Location} {n : ℕ} {t : Int}
    (h : ∀ j < n, e.matches (clockIn loc (t+j*minute)) = false) : searchRun e loc n t = none := by
  cases hsearch : searchRun e loc n t with
  | none => rfl
  | some r =>
    obtain ⟨k,hk,rfl,hmatch,_⟩ := searchRun_some hsearch
    rw [h k hk] at hmatch
    cases hmatch

theorem eq_of_admits {value v : Int} (hlo : 1 ≤ value) (hhi : value ≤ 31)
    (h : Admits ⟨false,[Int64.ofInt v]⟩ value) (hv : -2^63 ≤ v ∧ v < 2^63) : value = v := by
  obtain hany | hmem := h
  · cases hany
  · have heq := congrArg Int64.toInt (List.mem_singleton.mp hmem)
    rwa [Int64.toInt_ofInt_of_le (by omega) (by omega),Int64.toInt_ofInt_of_le hv.1 hv.2] at heq

theorem leapDay_of_fires {t : Time} (h : Fires leapDay (clockIn utc t)) :
    (civilOfDays (t/second/daySeconds)).month = 2 ∧ (civilOfDays (t/second/daySeconds)).day = 29 := by
  have hlocal : t/second+utc t = t/second := Int.add_zero _
  have hday := h.day
  have hmonth := h.month
  rw [if_neg (by decide)] at hday
  simp only [clockIn,hlocal] at hday hmonth
  obtain ⟨hvalid,_⟩ := civilOfDays_valid (t/second/daySeconds)
  have hle := hvalid.day_le
  have hlast : daysIn (civilOfDays (t/second/daySeconds)).month
      (civilOfDays (t/second/daySeconds)).year ≤ 31 := by
    simp only [daysIn]
    split_ifs <;> decide
  have hbound : (civilOfDays (t/second/daySeconds)).month ≤ 31 := by
    have := hvalid.month_le
    omega
  exact ⟨eq_of_admits hvalid.month_pos hbound hmonth (by decide),
    eq_of_admits hvalid.day_pos (Int.le_trans hle hlast) hday.1 (by decide)⟩

-- 2100 is no leap year
theorem no_leapDay {z : Int} (hlo : 46081 ≤ z) (hhi : z ≤ 46081+1830)
    (hmonth : (civilOfDays z).month = 2) (hday : (civilOfDays z).day = 29) : False := by
  obtain ⟨hvalid,hdays⟩ := civilOfDays_valid z
  have hle := hvalid.day_le
  rw [hmonth,hday,daysIn,if_pos rfl] at hle
  have hleap : isLeap (civilOfDays z).year = true := by
    by_contra hnot
    simp [hnot] at hle
  simp only [isLeap,Bool.and_eq_true,Bool.or_eq_true,decide_eq_true_eq] at hleap
  simp only [daysOfCivil,yearStart,hmonth,hday,if_pos (show (2 : Int) ≤ 2 by decide),
    if_neg (show ¬ (2 : Int) < 2 by decide)] at hdays
  generalize (civilOfDays z).year = y at *
  have hera : (y-1)/400 = 5 := by omega
  rw [hera] at hdays
  have hyear : y = 2096 ∨ y = 2100 := by omega
  omega

theorem candidate_day (j : ℕ) :
    (afterLeapDay-afterLeapDay%minute+minute+j*minute)/second/daySeconds = 46081+((j : Int)+1)/1440 := by
  have hafter : afterLeapDay = 3981398400000000000 := rfl
  have hminute : minute = 60000000000 := rfl
  have hsecond : second = 1000000000 := rfl
  have hday : daySeconds = 86400 := rfl
  have hint : ∀ j : Int, (3981398400000000000-3981398400000000000%60000000000+60000000000+
      j*60000000000)/1000000000/86400 = 46081+(j+1)/1440 := by
    intro j
    omega
  rw [hafter,hminute,hsecond,hday]
  exact hint j

theorem leap_day_not_found :
    Parsed "0 0 29 2 *" leapDay ∧
    (nextRunForSchedule utcOnly "0 0 29 2 *" afterLeapDay utc).run =
      some (.error (unableToFind "0 0 29 2 *")) ∧
    49001*daySeconds*second ∈ runs leapDay utc afterLeapDay := by
  refine ⟨parsed_leapDay,?_,by decide,by unfold WholeMinute; decide,
    (matches_iff_fires _ _).mp (by decide +kernel)⟩
  rw [nextRunForSchedule_parsed parsed_leapDay,searchRun_of_none]
  intro j hj
  have hmax : maxCronSearchIterations = 2635200 := rfl
  by_contra hmatch
  obtain ⟨hmonth,hday⟩ := leapDay_of_fires
    ((matches_iff_fires _ _).mp (Bool.not_eq_false _ ▸ hmatch))
  rw [candidate_day] at hmonth hday
  exact no_leapDay (by omega) (by omega) hmonth hday

end LeapDay

end Nimburion.Scheduler
