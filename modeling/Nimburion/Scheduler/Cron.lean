import Nimburion.Errors
import Nimburion.Lib.Decimal
import Nimburion.Lib.GoText

namespace Nimburion.Scheduler
open GoText Decimal

def errValidation : GoError := .text "scheduler validation error"

def errRetryable : GoError := .text "scheduler retryable error"

def schedulerError (kind : GoError) (message : String) : GoError :=
  .wrapped (message ++ ": ") kind

structure CronFieldMatcher where
  any : Bool
  values : List Int64
  deriving DecidableEq

def CronFieldMatcher.contains (m : CronFieldMatcher) (value : Int64) : Bool :=
  m.any || decide (value ∈ m.values)

def normalizeCronValue (value : Int64) (normalizeSunday : Bool) : Int64 :=
  if normalizeSunday ∧ value = 7 then 0 else value

def cronSegmentStep (segment : String) : Except GoError (String × Int64) :=
  match cut segment '/' with
  | none => .ok (segment,1)
  | some (before,after) =>
      let stepRaw := trimSpace after
      match atoi stepRaw with
      | .error _ => .error (schedulerError errValidation ("invalid step value " ++ quote stepRaw))
      | .ok parsedStep =>
          if parsedStep ≤ 0 then
            .error (schedulerError errValidation ("invalid step value " ++ quote stepRaw))
          else .ok (trimSpace before,parsedStep)

def cronSegmentEnds (base : String) (step minValue maxValue : Int64) (normalizeSunday : Bool) :
    Except GoError (Int64 × Int64) :=
  let base := trimSpace base
  let base := if base = "" then "*" else base
  if base = "*" then .ok (minValue,maxValue)
  else match cut base '-' with
  | some (low,high) => match atoi (trimSpace low) with
      | .error _ => .error (schedulerError errValidation ("invalid range start " ++ quote low))
      | .ok rangeStart => match atoi (trimSpace high) with
          | .error _ => .error (schedulerError errValidation ("invalid range end " ++ quote high))
          | .ok rangeEnd => .ok (normalizeCronValue rangeStart normalizeSunday,
              normalizeCronValue rangeEnd normalizeSunday)
  | none => match atoi base with
      | .error _ => .error (schedulerError errValidation ("invalid value " ++ quote base))
      | .ok singleValue =>
          let start := normalizeCronValue singleValue normalizeSunday
          .ok (start,if 1 < step then maxValue else start)

def outOfRange (value minValue maxValue : Int64) : GoError :=
  schedulerError errValidation ("value " ++ itoa value ++ " out of range [" ++ itoa minValue ++ "," ++
    itoa maxValue ++ "]")

def checkCronEnds (start last minValue maxValue : Int64) : Except GoError Unit :=
  if start < minValue ∨ start > maxValue then .error (outOfRange start minValue maxValue)
  else if last < minValue ∨ last > maxValue then .error (outOfRange last minValue maxValue)
  else if last < start then
    .error (schedulerError errValidation ("invalid range " ++ itoa start ++ "-" ++ itoa last))
  else .ok ()

-- the for loop; none once it can only repeat itself
def cronSteps : ℕ → Int64 → Int64 → Int64 → Option (List Int64)
  | 0, _, _, _ => none
  | fuel+1, value, last, step =>
      if value ≤ last then (cronSteps fuel (value+step) last step).map (value :: ·) else some []

def keepCronValues (visited : List Int64) (minValue maxValue : Int64) (normalizeSunday : Bool) :
    List Int64 :=
  (visited.map (normalizeCronValue · normalizeSunday)).filter
    fun value => !(decide (value < minValue) || decide (value > maxValue))

-- none is a call that never returns
def appendCronSegmentValues (values : List Int64) (segment : String) (minValue maxValue : Int64)
    (normalizeSunday : Bool) : Option (Except GoError (List Int64)) :=
  match cronSegmentStep segment with
  | .error e => some (.error e)
  | .ok (base,step) => match cronSegmentEnds base step minValue maxValue normalizeSunday with
      | .error e => some (.error e)
      | .ok (start,last) => match checkCronEnds start last minValue maxValue with
          | .error e => some (.error e)
          | .ok _ => (cronSteps (2^64) start last step).map fun visited =>
              .ok (values ++ keepCronValues visited minValue maxValue normalizeSunday)

def appendCronSegments (values : List Int64) (minValue maxValue : Int64) (normalizeSunday : Bool) :
    List String → Option (Except GoError (List Int64))
  | [] => some (.ok values)
  | segment :: segments =>
      let segment := trimSpace segment
      if segment = "" then some (.error (schedulerError errValidation "empty segment"))
      else match appendCronSegmentValues values segment minValue maxValue normalizeSunday with
      | none => none
      | some (.error e) => some (.error e)
      | some (.ok values) => appendCronSegments values minValue maxValue normalizeSunday segments

def parseCronField (raw : String) (minValue maxValue : Int64) (normalizeSunday : Bool) :
    Option (Except GoError CronFieldMatcher) :=
  let field := trimSpace raw
  if field = "" then some (.error (schedulerError errValidation "empty field"))
  else if field = "*" then some (.ok ⟨true,[]⟩)
  else match appendCronSegments [] minValue maxValue normalizeSunday (split field ',') with
  | none => none
  | some (.error e) => some (.error e)
  | some (.ok values) =>
      if values = [] then some (.error (schedulerError errValidation "no values parsed"))
      else some (.ok ⟨false,values⟩)

end Nimburion.Scheduler
