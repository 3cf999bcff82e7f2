import Nimburion.Lib.GoTime
import Nimburion.Lib.GoText

namespace Nimburion.GoTime
open Decimal GoText

def expect (c : Char) : List Char → Option (List Char)
  | d :: v => if d = c then some v else none
  | [] => none

def getnum (fixed : Bool) : List Char → Option (ℕ × List Char)
  | [] => none
  | [a] => if a.isDigit ∧ fixed = false then some (digitValue a,[]) else none
  | a :: b :: v =>
      if a.isDigit ∧ b.isDigit then some (value [a,b],v)
      else if a.isDigit ∧ fixed = false then some (digitValue a,b :: v)
      else none

def getYear : List Char → Option (ℕ × List Char)
  | a :: b :: c :: d :: v =>
      if a.isDigit ∧ b.isDigit ∧ c.isDigit ∧ d.isDigit then some (value [a,b,c,d],v) else none
  | _ => none

-- parseNanoseconds: digits after the ninth are dropped
def nanoseconds (ds : List Char) : ℕ := value (ds.take 9)*10^(9-(ds.take 9).length)

def getFraction : List Char → ℕ × List Char
  | [] => (0,[])
  | s :: v =>
      if (s = '.' ∨ s = ',') ∧ v.head?.any Char.isDigit then
        (nanoseconds (v.takeWhile Char.isDigit),v.dropWhile Char.isDigit)
      else (0,s :: v)

def getZone : List Char → Option (Int × List Char)
  | 'Z' :: v => some (0,v)
  | s :: h :: h' :: c :: m :: m' :: v =>
      let offset : Int := (value [h,h']*60+value [m,m'])*60
      if c = ':' ∧ h.isDigit ∧ h'.isDigit ∧ m.isDigit ∧ m'.isDigit ∧ value [h,h'] ≤ 24 ∧
          value [m,m'] ≤ 60 then
        if s = '+' then some (offset,v) else if s = '-' then some (-offset,v) else none
      else none
  | _ => none

-- time.Parse with the layout 2006-01-02T15:04:05.999999999Z07:00
def parseRFC3339Nano (s : String) : Option Time := do
  let (year,v) ← getYear s.toList
  let v ← expect '-' v
  let (month,v) ← getnum true v
  let v ← expect '-' v
  let (day,v) ← getnum true v
  let v ← expect 'T' v
  let (hour,v) ← getnum false v
  let v ← expect ':' v
  let (min,v) ← getnum true v
  let v ← expect ':' v
  let (sec,v) ← getnum true v
  let (nsec,v) := getFraction v
  let (offset,v) ← getZone v
  if v = [] ∧ (1 ≤ month ∧ month ≤ 12) ∧ hour < 24 ∧ min < 60 ∧ sec < 60 ∧
      1 ≤ day ∧ (day : Int) ≤ daysIn month year then
    pure ((daysOfCivil ⟨year,month,day⟩*daySeconds+(hour*3600+min*60+sec)-offset)*second+nsec)
  else none

theorem bind_of_some {α β : Type} {x : Option α} {f : α → Option β} {a : α} {r : Option β}
    (h : x = some a) (hf : f a = r) : (x >>= f) = r := by
  rw [h]
  exact hf

theorem bind_of_none {α β : Type} {x : Option α} {f : α → Option β} (h : x = none) :
    (x >>= f) = none := by
  rw [h]
  rfl

theorem expect_self (c : Char) (v : List Char) : expect c (c :: v) = some v := if_pos rfl

theorem getYear_pad {n : ℕ} (hn : n < 10000) (v : List Char) :
    getYear (pad 4 n ++ v) = some (n,v) := by
  obtain ⟨_,hval,hall⟩ := pad_spec 4 (by decide) (by simpa using hn)
  rw [pad_four hn] at *
  simp only [List.cons_append,List.nil_append,getYear,hval]
  rw [if_pos]
  refine ⟨?_,?_,?_,?_⟩ <;> exact hall _ (by simp)

theorem getnum_pad {n : ℕ} (hn : n < 100) (fixed : Bool) (v : List Char) :
    getnum fixed (pad 2 n ++ v) = some (n,v) := by
  obtain ⟨_,hval,hall⟩ := pad_spec 2 (by decide) (by simpa using hn)
  rw [pad_two hn] at *
  simp only [List.cons_append,List.nil_append,getnum,hval]
  rw [if_pos]
  refine ⟨?_,?_⟩ <;> exact hall _ (by simp)

theorem getFraction_format {n : ℕ} (hn : n < 1000000000) :
    getFraction (formatFraction n ++ ['Z']) = (n,['Z']) := by
  unfold formatFraction
  by_cases hzero : n = 0
  · subst hzero
    rfl
  · rw [if_neg hzero]
    obtain ⟨hlen,hval,hall⟩ := pad_spec 9 (by decide) (by simpa using hn)
    obtain ⟨k,hk⟩ := rdropWhile_zero_append (pad 9 n)
    generalize (pad 9 n).rdropWhile (fun x => decide (x = '0')) = ds at *
    have hds : AllDigits ds := fun c hc => hall c (by rw [hk]; simp [hc])
    have hvalue : value ds*10^k = n := by rw [← value_append_zeros,← hk,hval]
    have hlen' : ds.length+k = 9 := by
      have h := congrArg List.length hk
      simp only [hlen,List.length_append,List.length_replicate] at h
      omega
    have hne : ds ≠ [] := by
      rintro rfl
      simp [value] at hvalue
      omega
    obtain ⟨c,cs,rfl⟩ := List.exists_cons_of_ne_nil hne
    have htake : (c :: cs ++ ['Z']).takeWhile Char.isDigit = c :: cs := by
      rw [List.takeWhile_append_of_pos hds]
      simp [Char.isDigit]
    have hdrop : (c :: cs ++ ['Z']).dropWhile Char.isDigit = ['Z'] := by
      rw [List.dropWhile_append_of_pos hds]
      rfl
    have hnine : (c :: cs).take 9 = c :: cs := List.take_of_length_le (by omega)
    have hk' : 9-(c :: cs).length = k := by omega
    have hhead : (c :: cs ++ ['Z']).head?.any Char.isDigit = true := by
      simpa using hds c (by simp)
    rw [List.cons_append,getFraction,if_pos ⟨.inl rfl,hhead⟩,htake,hdrop,nanoseconds,hnine,hk',
      hvalue]

theorem formatYear_of_nonneg {year : Int} (h : 0 ≤ year) : formatYear year = pad 4 year.toNat := by
  rw [formatYear,if_neg (by omega)]
  congr 1
  omega

theorem days_of_inYearRange (t : Int) : inYearRange t = true ↔
    -719528 ≤ t/second/daySeconds ∧ t/second/daySeconds < 2932897 := by
  have hsecond : second = 1000000000 := rfl
  have hday : daySeconds = 86400 := rfl
  rw [inYearRange_iff,hsecond,hday]
  omega

def layout (year month day hour min sec nsec : ℕ) : List Char :=
  pad 4 year ++ '-' :: (pad 2 month ++ '-' :: (pad 2 day ++ 'T' :: (pad 2 hour ++ ':' ::
    (pad 2 min ++ ':' :: (pad 2 sec ++ (formatFraction nsec ++ ['Z']))))))

theorem parse_layout (year month day hour min sec nsec : ℕ) (hyear : year < 10000)
    (hmonth : 1 ≤ month ∧ month ≤ 12) (hhour : hour < 24) (hmin : min < 60) (hsec : sec < 60)
    (hday : 1 ≤ day ∧ (day : Int) ≤ daysIn month year) (hdays : day < 100)
    (hnsec : nsec < 1000000000) :
    parseRFC3339Nano (String.ofList (layout year month day hour min sec nsec)) =
      some ((daysOfCivil ⟨year,month,day⟩*daySeconds+(hour*3600+min*60+sec))*second+nsec) := by
  have hmonth' : month < 100 := by omega
  have hhour' : hour < 100 := by omega
  have hmin' : min < 100 := by omega
  have hsec' : sec < 100 := by omega
  rw [parseRFC3339Nano,String.toList_ofList,layout]
  refine bind_of_some (getYear_pad hyear _) ?_
  refine bind_of_some (expect_self _ _) ?_
  refine bind_of_some (getnum_pad hmonth' _ _) ?_
  refine bind_of_some (expect_self _ _) ?_
  refine bind_of_some (getnum_pad hdays _ _) ?_
  refine bind_of_some (expect_self _ _) ?_
  refine bind_of_some (getnum_pad hhour' _ _) ?_
  refine bind_of_some (expect_self _ _) ?_
  refine bind_of_some (getnum_pad hmin' _ _) ?_
  refine bind_of_some (expect_self _ _) ?_
  refine bind_of_some (getnum_pad hsec' _ _) ?_
  dsimp only
  rw [getFraction_format hnsec]
  refine bind_of_some rfl ?_
  rw [if_pos ⟨rfl,hmonth,hhour,hmin,hsec,hday⟩]
  simp

theorem parse_formatRFC3339Nano (t : Int) (h : inYearRange t = true) :
    parseRFC3339Nano (formatRFC3339Nano t) = some t := by
  obtain ⟨hlo,hhi⟩ := (days_of_inYearRange t).mp h
  obtain ⟨hyear0,hyear1⟩ := civilOfDays_year hlo hhi
  obtain ⟨⟨hm0,hm1,hd0,hd1⟩,hdays⟩ := civilOfDays_valid (t/second/daySeconds)
  have hdayle : daysIn (civilOfDays (t/second/daySeconds)).month
      (civilOfDays (t/second/daySeconds)).year ≤ 31 := by
    unfold daysIn
    split_ifs <;> omega
  simp only [formatRFC3339Nano]
  generalize civilOfDays (t/second/daySeconds) = c at *
  obtain ⟨year,month,day⟩ := c
  dsimp only at *
  lift year to ℕ using hyear0
  lift month to ℕ using (by omega)
  lift day to ℕ using (by omega)
  have htod : 0 ≤ t/second%daySeconds ∧ t/second%daySeconds < 86400 := by
    unfold daySeconds
    omega
  have hnsec : 0 ≤ t%second ∧ t%second < 1000000000 := by
    unfold second
    omega
  have hsplit : (t/second/daySeconds*daySeconds+t/second%daySeconds)*second+t%second = t := by
    unfold second daySeconds
    omega
  lift t/second%daySeconds to ℕ using htod.1 with tod
  lift t%second to ℕ using hnsec.1 with nsec
  have hlayout := parse_layout year month day (tod/3600) (tod/60%60) (tod%60) nsec
    (by omega) (by omega) (by omega) (by omega) (by omega) ⟨by omega,hd1⟩ (by omega) (by omega)
  have hclock : ((tod/3600 : ℕ) : Int)*3600+((tod/60%60 : ℕ) : Int)*60+((tod%60 : ℕ) : Int) = tod := by
    omega
  rw [hdays,hclock,hsplit] at hlayout
  rw [formatYear_of_nonneg (Int.natCast_nonneg year)]
  simpa [layout] using hlayout

theorem getYear_of_five {ds : List Char} (hall : AllDigits ds) (hlen : 5 ≤ ds.length)
    (v : List Char) : ∃ n c w, getYear (ds ++ v) = some (n,c :: w) ∧ c.isDigit = true := by
  obtain ⟨a,b,c,d,e,w,rfl⟩ : ∃ a b c d e w, ds = a :: b :: c :: d :: e :: w := by
    match ds,hlen with
    | a :: b :: c :: d :: e :: w,_ => exact ⟨a,b,c,d,e,w,rfl⟩
  refine ⟨value [a,b,c,d],e,w ++ v,?_,hall e (by simp)⟩
  simp only [List.cons_append,getYear]
  rw [if_pos]
  refine ⟨?_,?_,?_,?_⟩ <;> exact hall _ (by simp)

theorem getYear_dash (v : List Char) : getYear ('-' :: v) = none := by
  match v with
  | [] => rfl
  | [_] => rfl
  | [_,_] => rfl
  | _ :: _ :: _ :: _ => simp [getYear]

theorem expect_digit {c d : Char} (hc : c.isDigit = true) (hd : d.isDigit = false)
    (v : List Char) : expect d (c :: v) = none := by
  rw [expect,if_neg]
  rintro rfl
  rw [hc] at hd
  cases hd

theorem parse_long_year {ds : List Char} (hall : AllDigits ds) (hlen : 5 ≤ ds.length)
    (v : List Char) : parseRFC3339Nano (String.ofList (ds ++ v)) = none := by
  obtain ⟨n,c,w,hget,hdigit⟩ := getYear_of_five hall hlen v
  rw [parseRFC3339Nano,String.toList_ofList]
  refine bind_of_some hget ?_
  exact bind_of_none (expect_digit hdigit rfl w)

theorem parse_format_none (t : Int) (h : inYearRange t = false) :
    parseRFC3339Nano (formatRFC3339Nano t) = none := by
  have hout : ¬ (-719528 ≤ t/second/daySeconds ∧ t/second/daySeconds < 2932897) := by
    rw [← days_of_inYearRange,h]
    simp
  simp only [formatRFC3339Nano]
  rcases Int.lt_or_le (t/second/daySeconds) (-719528) with hlt | hge
  · have hyear := civilOfDays_year_neg hlt
    rw [parseRFC3339Nano,String.toList_ofList,formatYear,if_pos hyear]
    exact bind_of_none (getYear_dash _)
  · have hyear := civilOfDays_year_large (z := t/second/daySeconds) (by omega)
    have hpos : 0 ≤ (civilOfDays (t/second/daySeconds)).year := by omega
    have hlong := length_pad_gt 4 (civilOfDays (t/second/daySeconds)).year.toNat (by decide)
      (by omega)
    rw [formatYear_of_nonneg hpos]
    simp only [List.append_assoc]
    exact parse_long_year (allDigits_pad 4 _) hlong _

theorem not_space_of_isDigit {c : Char} (h : c.isDigit = true) : isSpace c = false := by
  simp only [Char.isDigit,Bool.and_eq_true,decide_eq_true_iff] at h
  have hlo : 48 ≤ c.toNat := by
    have := UInt32.le_iff_toNat_le.mp h.1
    simpa using this
  have hhi : c.toNat ≤ 57 := by
    have := UInt32.le_iff_toNat_le.mp h.2
    simpa using this
  simp only [isSpace,Bool.or_eq_false_iff,Bool.and_eq_false_iff,decide_eq_false_iff_not,
    beq_eq_false_iff_ne]
  omega

theorem trimSpace_itoa {n : Int64} (h : 0 ≤ n) : trimSpace (itoa n) = itoa n := by
  refine trimSpace_of_no_space ?_
  rw [itoa_of_nonneg h,String.toList_ofList]
  exact fun c hc => not_space_of_isDigit (allDigits_toDigits _ c hc)

theorem itoa_ne_empty {n : Int64} (h : 0 ≤ n) : itoa n ≠ "" := by
  rw [itoa_of_nonneg h,ne_eq,← String.toList_inj,String.toList_ofList]
  exact Nat.toDigits_ne_nil

theorem trimSpace_formatRFC3339Nano (t : Int) :
    trimSpace (formatRFC3339Nano t) = formatRFC3339Nano t := by
  have hpad : ∀ width n, ∀ c ∈ pad width n, isSpace c = false := fun width n c hc =>
    not_space_of_isDigit (allDigits_pad width n c hc)
  have hyear : ∀ year, ∀ c ∈ formatYear year, isSpace c = false := by
    intro year c hc
    unfold formatYear at hc
    split_ifs at hc
    · rcases List.mem_cons.mp hc with rfl | hc
      · rfl
      · exact hpad _ _ c hc
    · exact hpad _ _ c hc
  have hfrac : ∀ n, ∀ c ∈ formatFraction n, isSpace c = false := by
    intro n c hc
    unfold formatFraction at hc
    split_ifs at hc
    · cases hc
    · rcases List.mem_cons.mp hc with rfl | hc
      · rfl
      · exact hpad _ _ c ((List.rdropWhile_prefix _ _).subset hc)
  refine trimSpace_of_no_space ?_
  intro c hc
  simp only [formatRFC3339Nano,String.toList_ofList,List.mem_append,List.mem_cons] at hc
  rcases hc with (((((((hc | rfl | hc) | rfl | hc) | rfl | hc) | rfl | hc) | rfl | hc) | hc) | rfl | hc)
  all_goals first | exact hyear _ c hc | exact hpad _ _ c hc | exact hfrac _ c hc | rfl | cases hc

theorem formatRFC3339Nano_ne_empty (t : Int) : formatRFC3339Nano t ≠ "" := by
  intro h
  have hlist := congrArg String.toList h
  simp [formatRFC3339Nano] at hlist

end Nimburion.GoTime
