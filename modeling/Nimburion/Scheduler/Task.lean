import Nimburion.Jobs.Job
import Nimburion.Scheduler.Cron

namespace Nimburion.Scheduler
open GoText GoTime

inductive MisfirePolicy where
  | skip
  | fireOnce
  deriving DecidableEq, Repr

def maxCronSearchIterations : ℕ := 5*366*24*60

def minute : Duration := 60*second

structure Task where
  name : String
  schedule : String
  queue : String
  jobName : String
  payload : List UInt8
  headers : EventBus.Headers
  tenantID : String
  idempotencyKey : String
  timezone : String
  lockTTL : Duration
  misfirePolicy : MisfirePolicy

-- a location is its offset from UTC in seconds at every instant
abbrev Location := Time → Int

-- time.LoadLocation reads the zone database of the host
structure Library where
  loadLocation : String → Except GoError Location
  parseDuration : String → Except GoError Duration

structure CronExpression where
  minute : CronFieldMatcher
  hour : CronFieldMatcher
  dayOfMonth : CronFieldMatcher
  month : CronFieldMatcher
  dayOfWeek : CronFieldMatcher

structure Clock where
  minute : Int
  hour : Int
  day : Int
  month : Int
  weekday : Int
  deriving DecidableEq, Repr

def clockIn (loc : Location) (t : Time) : Clock :=
  let sec := t/second+loc t
  let date := civilOfDays (sec/daySeconds)
  let tod := sec%daySeconds
  ⟨tod/60%60,tod/3600,date.day,date.month,(sec/daySeconds+4)%7⟩

def CronExpression.matches (e : CronExpression) (candidate : Clock) : Bool :=
  e.minute.contains (.ofInt candidate.minute) && e.hour.contains (.ofInt candidate.hour) &&
  e.month.contains (.ofInt candidate.month) &&
    let dayOfMonthMatch := e.dayOfMonth.contains (.ofInt candidate.day)
    let dayOfWeekMatch := e.dayOfWeek.contains (.ofInt candidate.weekday)
    if e.dayOfMonth.any && e.dayOfWeek.any then true
    else if e.dayOfMonth.any then dayOfWeekMatch
    else if e.dayOfWeek.any then dayOfMonthMatch
    else dayOfMonthMatch || dayOfWeekMatch

def parseNamedField (label raw : String) (minValue maxValue : Int64) (normalizeSunday : Bool) :
    ExceptT GoError Option CronFieldMatcher :=
  ExceptT.mk ((parseCronField raw minValue maxValue normalizeSunday).map fun
    | .ok m => .ok m
    | .error e => .error (.join (schedulerError errValidation
        ("invalid " ++ label ++ " field " ++ quote raw)) e))

def parseCronExpression (f0 f1 f2 f3 f4 : String) : ExceptT GoError Option CronExpression := do
  let minute ← parseNamedField "minute" f0 0 59 false
  let hour ← parseNamedField "hour" f1 0 23 false
  let dayOfMonth ← parseNamedField "day-of-month" f2 1 31 false
  let month ← parseNamedField "month" f3 1 12 false
  let dayOfWeek ← parseNamedField "day-of-week" f4 0 7 true
  pure ⟨minute,hour,dayOfMonth,month,dayOfWeek⟩

def searchRun (e : CronExpression) (loc : Location) : ℕ → Time → Option Time
  | 0, _ => none
  | n+1, candidate =>
      if e.matches (clockIn loc candidate) then some candidate
      else searchRun e loc n (candidate+minute)

theorem searchRun_some {e : CronExpression} {loc : Location} {n : ℕ} {t r : Int}
    (h : searchRun e loc n t = some r) : ∃ k < n, r = t+k*minute ∧
      e.matches (clockIn loc r) = true ∧
      ∀ j < k, e.matches (clockIn loc (t+j*minute)) = false := by
  induction n generalizing t with
  | zero => cases h
  | succ n ih =>
    simp only [searchRun] at h
    by_cases hmatch : e.matches (clockIn loc t) = true
    · rw [if_pos hmatch,Option.some.injEq] at h
      subst h
      exact ⟨0,by omega,by simp,hmatch,fun j hj => absurd hj (Nat.not_lt_zero j)⟩
    · rw [if_neg hmatch] at h
      obtain ⟨k,hk,hr,hm,hbefore⟩ := ih h
      refine ⟨k+1,by omega,?_,hm,fun j hj => ?_⟩
      · rw [hr]
        push_cast
        rw [Int.add_mul,Int.one_mul]
        omega
      · cases j with
        | zero => simpa using hmatch
        | succ j =>
          have hj' := hbefore j (by omega)
          push_cast
          rw [Int.add_mul,Int.one_mul,Int.add_comm (j*minute),← Int.add_assoc]
          exact hj'

def everyMark : String := "@every "

-- strings.Fields
def fields (s : String) : List String :=
  ((s.toList.splitOnP isSpace).filter (fun cs => !cs.isEmpty)).map String.ofList

def nextRunForSchedule (lib : Library) (schedule : String) (now : Time) (loc : Location) :
    ExceptT GoError Option Time :=
  if everyMark.toList.isPrefixOf schedule.toList then
    let durationRaw := trimSpace (String.ofList (schedule.toList.drop everyMark.toList.length))
    match lib.parseDuration durationRaw with
    | .error e => throw (.join (schedulerError errValidation "invalid @every duration") e)
    | .ok interval =>
        if interval ≤ 0 then throw (schedulerError errValidation "@every duration must be > 0")
        else pure (now+interval)
  else match fields schedule with
  | [f0,f1,f2,f3,f4] => do
      let cronExpr ← parseCronExpression f0 f1 f2 f3 f4
      match searchRun cronExpr loc maxCronSearchIterations (now-now%minute+minute) with
      | some candidate => pure candidate
      | none => throw (schedulerError errValidation
          ("unable to find next run for schedule " ++ quote schedule))
  | _ => throw (schedulerError errValidation ("unsupported schedule format " ++ quote schedule))

namespace Task

def location (lib : Library) (t : Task) : Except GoError Location :=
  if trimSpace t.timezone = "" then .ok fun _ => 0
  else match lib.loadLocation (trimSpace t.timezone) with
  | .error e => .error (.join (schedulerError errValidation "invalid task timezone") e)
  | .ok loc => .ok loc

-- none is a schedule whose parsing never ends
def nextRun (lib : Library) (t : Task) (now : Time) : Option (Except GoError Time) :=
  match t.location lib with
  | .error e => some (.error e)
  | .ok loc => (nextRunForSchedule lib (trimSpace t.schedule) now loc).run

end Task

def utcOnly : Library :=
  ⟨fun _ => .error (.text "unknown time zone"),fun _ => .error (.text "time: invalid duration")⟩

example : (nextRunForSchedule utcOnly "*/5 * * * *" (1772107420*second) fun _ => 0).run =
    some (.ok (1772107500*second)) := by decide +kernel

end Nimburion.Scheduler
