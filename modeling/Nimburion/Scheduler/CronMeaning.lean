import Nimburion.Scheduler.CronSyntax

namespace Nimburion.Scheduler
open GoText Decimal

section Loop

variable {step last : Int64}

theorem toInt_add_of_lt {a b : Int64} (hb : 0 < b.toInt) (h : a.toInt+b.toInt < 2^63) :
    (a+b).toInt = a.toInt+b.toInt := by
  have hge := a.le_toInt
  rw [Int64.toInt_add]
  exact Int.bmod_eq_of_le (by omega) (by omega)

theorem succ_mul_stride (k : ℕ) (d : Int) : ((k+1 : ℕ) : Int)*d = k*d+d := by
  push_cast
  rw [Int.add_mul,Int.one_mul]

theorem cronSteps_spec (hstep : 0 < step.toInt) (fuel : ℕ) (value : Int64)
    (hinside : ∀ k : ℕ, value.toInt+k*step.toInt ≤ last.toInt →
      value.toInt+(k+1)*step.toInt < 2^63)
    (hfuel : (last.toInt-value.toInt+1).toNat < fuel) :
    ∃ l, cronSteps fuel value last step = some l ∧ ∀ v, v ∈ l ↔
      ∃ k : ℕ, v.toInt = value.toInt+k*step.toInt ∧ v.toInt ≤ last.toInt := by
  induction fuel generalizing value with
  | zero => omega
  | succ fuel ih =>
    by_cases hle : value ≤ last
    · have hle' := Int64.le_iff_toInt_le.mp hle
      have hlt := hinside 0 (by simpa using hle')
      have hnext : (value+step).toInt = value.toInt+step.toInt :=
        toInt_add_of_lt hstep (by simpa using hlt)
      have hrest : ∀ k : ℕ, (value+step).toInt+k*step.toInt ≤ last.toInt →
          (value+step).toInt+(k+1)*step.toInt < 2^63 := by
        intro k hk
        have hk' := hinside (k+1)
        rw [succ_mul_stride] at hk'
        rw [hnext] at hk ⊢
        have hbound := hk' (by omega)
        rw [Int.add_mul,Int.one_mul] at hbound ⊢
        push_cast at hbound
        rw [Int.add_mul,Int.one_mul] at hbound
        omega
      obtain ⟨l,hl,hmem⟩ := ih (value+step) hrest (by rw [hnext]; omega)
      refine ⟨value :: l,by simp [cronSteps,hle,hl],fun v => ?_⟩
      rw [List.mem_cons,hmem,hnext]
      constructor
      · rintro (rfl | ⟨k,hk,hv⟩)
        · exact ⟨0,by simp,hle'⟩
        · exact ⟨k+1,by rw [succ_mul_stride]; omega,hv⟩
      · rintro ⟨k,hk,hv⟩
        cases k with
        | zero => exact .inl (Int64.toInt_inj.mp (by simpa using hk))
        | succ k =>
          rw [succ_mul_stride] at hk
          exact .inr ⟨k,by omega,hv⟩
    · refine ⟨[],by simp [cronSteps,hle],fun v => ?_⟩
      have hgt := Int.not_le.mp (mt Int64.le_iff_toInt_le.mpr hle)
      simp only [List.not_mem_nil,false_iff,not_exists,not_and]
      intro k hk hv
      have hpos : 0 ≤ (k : Int)*step.toInt := Int.mul_nonneg (by omega) (by omega)
      omega

end Loop

section Meaning

variable {F : CronField} {seg : Segment}

theorem checkCronEnds_iff (start last minValue maxValue : Int64) :
    checkCronEnds start last minValue maxValue = .ok () ↔
      minValue ≤ start ∧ start ≤ last ∧ last ≤ maxValue := by
  simp only [checkCronEnds,Int64.le_iff_toInt_le,Int64.lt_iff_toInt_lt,gt_iff_lt]
  split_ifs <;> simp only [false_iff,true_iff] <;> omega

theorem normalizeCronValue_of_ne {value : Int64} {normalizeSunday : Bool}
    (h : normalizeSunday = true → value ≠ 7) : normalizeCronValue value normalizeSunday = value := by
  unfold normalizeCronValue
  split_ifs with hseven
  · exact absurd hseven.2 (h hseven.1)
  · rfl

-- the source's ends are the segment's own, unless the segment is Sunday written as 7
theorem ends_of_regular (h : seg.Regular F) (hpos : 0 < seg.stride.toInt) :
    seg.ends F = (seg.start F,seg.last F) ∨
      (F.normalizeSunday = true ∧ seg.start F = 7 ∧ seg.last F = 7 ∧ seg.ends F = (0,0)) := by
  obtain ⟨base,step⟩ := seg
  cases base with
  | star => exact .inl rfl
  | range a b =>
    by_cases hseven : F.normalizeSunday = true ∧ a = 7
    · obtain ⟨hsunday,rfl⟩ := hseven
      have hb := (h.sundayRange hsunday 7 b rfl).mp rfl
      refine .inr ⟨hsunday,rfl,hb,?_⟩
      simp [Segment.ends,normalizeCronValue,hsunday,hb]
    · have ha : F.normalizeSunday = true → a ≠ 7 := fun hs h7 => hseven ⟨hs,h7⟩
      have hb : F.normalizeSunday = true → b ≠ 7 :=
        fun hs h7 => ha hs ((h.sundayRange hs a b rfl).mpr h7)
      refine .inl ?_
      simp only [Segment.ends,Segment.start,Segment.last,normalizeCronValue_of_ne ha,
        normalizeCronValue_of_ne hb]
  | single a =>
    by_cases hseven : F.normalizeSunday = true ∧ a = 7
    · obtain ⟨hsunday,rfl⟩ := hseven
      refine .inr ⟨hsunday,rfl,?_⟩
      cases step with
      | none => simp [Segment.ends,Segment.last,Segment.stride,normalizeCronValue,hsunday]
      | some n =>
        obtain rfl := h.sundayStep hsunday n rfl
        simp [Segment.ends,Segment.last,Segment.stride,normalizeCronValue,hsunday,
          (F.week hsunday).2]
    · have ha : F.normalizeSunday = true → a ≠ 7 := fun hs h7 => hseven ⟨hs,h7⟩
      refine .inl ?_
      simp only [Segment.ends,Segment.start,Segment.last,normalizeCronValue_of_ne ha]
      cases step with
      | none => simp [Segment.stride]
      | some n =>
        by_cases hone : n = 1
        · subst hone
          simp [Segment.stride,h.unit a rfl]
        · have hlt : 1 < n := by
            rw [Int64.lt_iff_toInt_lt]
            have hne : n.toInt ≠ 1 := fun heq => hone (Int64.toInt_inj.mp heq)
            have hn : 0 < n.toInt := hpos
            change 1 < n.toInt
            omega
          simp [Segment.stride,hlt]

theorem valid_iff_ends (h : seg.Regular F) (hpos : 0 < seg.stride.toInt) :
    checkCronEnds (seg.ends F).1 (seg.ends F).2 F.minValue F.maxValue = .ok () ↔ seg.Valid F := by
  rw [checkCronEnds_iff,Segment.Valid]
  rcases ends_of_regular h hpos with hends | ⟨hsunday,hstart,hlast,hends⟩
  · rw [hends]
  · obtain ⟨hmin,hmax⟩ := F.week hsunday
    rw [hends,hstart,hlast,hmin,hmax]
    decide

theorem toInt_eq_seven (v : Int64) : v.toInt = 7 ↔ v = 7 :=
  ⟨fun h => Int64.toInt_inj.mp h,fun h => h ▸ rfl⟩

theorem weekday_normalize (F : CronField) (v : Int64) :
    (normalizeCronValue v F.normalizeSunday).toInt = Segment.weekday F v.toInt := by
  simp only [normalizeCronValue,Segment.weekday,toInt_eq_seven]
  split_ifs <;> rfl

theorem normalize_inj_iff (F : CronField) (u v : Int64) :
    normalizeCronValue u F.normalizeSunday = normalizeCronValue v F.normalizeSunday ↔
      Segment.weekday F v.toInt = Segment.weekday F u.toInt := by
  rw [← weekday_normalize,← weekday_normalize,Int64.toInt_inj,eq_comm]

theorem normalize_in_range {v : Int64} (hmin : F.minValue ≤ v) (hmax : v ≤ F.maxValue) :
    F.minValue ≤ normalizeCronValue v F.normalizeSunday ∧
      normalizeCronValue v F.normalizeSunday ≤ F.maxValue := by
  unfold normalizeCronValue
  split_ifs with hseven
  · obtain ⟨hlow,hhigh⟩ := F.week hseven.1
    rw [hlow,hhigh]
    decide
  · exact ⟨hmin,hmax⟩

theorem mem_keepCronValues {visited : List Int64} {w : Int64} :
    w ∈ keepCronValues visited F.minValue F.maxValue F.normalizeSunday ↔
      (∃ u ∈ visited, normalizeCronValue u F.normalizeSunday = w) ∧ F.minValue ≤ w ∧ w ≤ F.maxValue := by
  simp only [keepCronValues,List.mem_filter,List.mem_map,Bool.not_eq_true',Bool.or_eq_false_iff,
    decide_eq_false_iff_not,Int64.not_lt,gt_iff_lt]

theorem kept_iff_reached {visited : List Int64} {start last : Int64} {d : Int} (hd : 0 < d)
    (hmem : ∀ u, u ∈ visited ↔ ∃ k : ℕ, u.toInt = start.toInt+k*d ∧ u.toInt ≤ last.toInt)
    (hmin : F.minValue ≤ start) (hmax : last ≤ F.maxValue) (v : Int64) :
    normalizeCronValue v F.normalizeSunday ∈
        keepCronValues visited F.minValue F.maxValue F.normalizeSunday ↔
      ∃ k : ℕ, start.toInt+k*d ≤ last.toInt ∧
        Segment.weekday F v.toInt = Segment.weekday F (start.toInt+k*d) := by
  rw [mem_keepCronValues]
  constructor
  · rintro ⟨⟨u,hu,hnorm⟩,_⟩
    obtain ⟨k,hk,hle⟩ := (hmem u).mp hu
    rw [normalize_inj_iff,hk] at hnorm
    exact ⟨k,hk ▸ hle,hnorm⟩
  · rintro ⟨k,hle,hday⟩
    have hnonneg : 0 ≤ (k : Int)*d := Int.mul_nonneg (by omega) (by omega)
    have hstart := start.le_toInt
    have hlast := last.toInt_lt
    have htoInt : (Int64.ofInt (start.toInt+k*d)).toInt = start.toInt+k*d :=
      Int64.toInt_ofInt_of_le (by omega) (by omega)
    have hnorm : normalizeCronValue (Int64.ofInt (start.toInt+k*d)) F.normalizeSunday =
        normalizeCronValue v F.normalizeSunday := by
      rw [normalize_inj_iff,htoInt]
      exact hday
    refine ⟨⟨Int64.ofInt (start.toInt+k*d),(hmem _).mpr ⟨k,htoInt,?_⟩,hnorm⟩,?_⟩
    · rw [htoInt]
      exact hle
    · rw [← hnorm]
      rw [Int64.le_iff_toInt_le] at hmin hmax
      refine normalize_in_range ?_ ?_ <;> rw [Int64.le_iff_toInt_le,htoInt] <;> omega

theorem last_of_inside {start last d : Int} (hd : 0 < d) (hle : start ≤ last)
    (h : ∀ k : ℕ, start+k*d ≤ last → start+(k+1)*d < 2^63) : last+1 < 2^63 := by
  have hdiv := Int.ediv_mul_le (last-start) (Int.ne_of_gt hd)
  have hover := Int.lt_ediv_add_one_mul_self (last-start) hd
  have hq : 0 ≤ (last-start)/d := Int.ediv_nonneg (by omega) (by omega)
  have hk := h ((last-start)/d).toNat
  rw [Int.toNat_of_nonneg hq] at hk
  have := hk (by omega)
  omega

theorem visited_of_regular (h : seg.Regular F) (hpos : 0 < seg.stride.toInt) (hvalid : seg.Valid F) :
    ∃ visited, cronSteps (2^64) (seg.ends F).1 (seg.ends F).2 seg.stride = some visited ∧
      ∀ v, normalizeCronValue v F.normalizeSunday ∈
        keepCronValues visited F.minValue F.maxValue F.normalizeSunday ↔ seg.Denotes F v := by
  obtain ⟨hmin,hle,hmax⟩ := hvalid
  rcases ends_of_regular h hpos with hends | ⟨hsunday,hstart,hlast,hends⟩
  · rw [hends]
    have hle' := Int64.le_iff_toInt_le.mp hle
    have hbound := last_of_inside hpos hle' h.inside
    have hge := (seg.start F).le_toInt
    obtain ⟨visited,hvisited,hmem⟩ := cronSteps_spec hpos (2^64) (seg.start F) h.inside (by omega)
    exact ⟨visited,hvisited,kept_iff_reached hpos hmem hmin hmax⟩
  · obtain ⟨hlow,hhigh⟩ := F.week hsunday
    have hlt := seg.stride.toInt_lt
    have hzero : ∀ k : ℕ, (k : Int)*seg.stride.toInt ≤ 0 → (k : Int)*seg.stride.toInt = 0 := by
      intro k hk
      have := Int.mul_nonneg (show (0 : Int) ≤ k by omega) (Int.le_of_lt hpos)
      omega
    have hinside : ∀ k : ℕ, (0 : Int64).toInt+k*seg.stride.toInt ≤ (0 : Int64).toInt →
        (0 : Int64).toInt+(k+1)*seg.stride.toInt < 2^63 := by
      intro k hk
      have hk' := hzero k (by simpa using hk)
      rw [Int.add_mul,hk']
      simpa using hlt
    obtain ⟨visited,hvisited,hmem⟩ := cronSteps_spec hpos (2^64) 0 hinside (by decide)
    rw [hends]
    refine ⟨visited,hvisited,fun v => ?_⟩
    rw [kept_iff_reached hpos hmem (by rw [hlow]; decide) (by rw [hhigh]; decide) v]
    simp only [Segment.Denotes,hstart,hlast]
    refine exists_congr fun k => ?_
    have hseven : (7 : Int64).toInt = 7 := rfl
    have hnone : (0 : Int64).toInt = 0 := rfl
    rw [hseven,hnone]
    constructor
    · rintro ⟨hk,hday⟩
      have hk' := hzero k (by omega)
      rw [hk'] at hday ⊢
      exact ⟨by omega,by simpa [Segment.weekday,hsunday] using hday⟩
    · rintro ⟨hk,hday⟩
      have hk' := hzero k (by omega)
      rw [hk'] at hday ⊢
      exact ⟨by omega,by simpa [Segment.weekday,hsunday] using hday⟩

theorem append_of_spells {s : String} (hs : trimSpace s = s) (hspells : Spells true s seg)
    (h : seg.Regular F) (hvalid : seg.Valid F) (values : List Int64) :
    ∃ l, appendCronSegmentValues values s F.minValue F.maxValue F.normalizeSunday =
        some (.ok (values ++ l)) ∧
      ∀ v, normalizeCronValue v F.normalizeSunday ∈ l ↔ seg.Denotes F v := by
  obtain ⟨base,hstep,hends⟩ := cronSegment_of_spells F hs hspells
  have hcheck := (valid_iff_ends h hspells.stride_pos).mpr hvalid
  obtain ⟨visited,hvisited,hmem⟩ := visited_of_regular h hspells.stride_pos hvalid
  refine ⟨_,?_,hmem⟩
  simp only [appendCronSegmentValues,hstep,hends,hcheck,hvisited,Option.map_some]

theorem append_of_invalid {s : String} (hs : trimSpace s = s) (hspells : Spells true s seg)
    (h : seg.Regular F) (hinvalid : ¬ seg.Valid F) (values : List Int64) :
    ∃ e, appendCronSegmentValues values s F.minValue F.maxValue F.normalizeSunday =
      some (.error e) := by
  obtain ⟨base,hstep,hends⟩ := cronSegment_of_spells F hs hspells
  rw [← valid_iff_ends h hspells.stride_pos] at hinvalid
  cases hcheck : checkCronEnds (seg.ends F).1 (seg.ends F).2 F.minValue F.maxValue with
  | error e => exact ⟨e,by simp only [appendCronSegmentValues,hstep,hends,hcheck]⟩
  | ok u => exact absurd hcheck hinvalid

theorem append_of_unspelled {s : String} (hs : trimSpace s = s) (hne : s ≠ "")
    (hnone : ∀ seg, ¬ Spells true s seg) (values : List Int64) :
    ∃ e, appendCronSegmentValues values s F.minValue F.maxValue F.normalizeSunday =
      some (.error e) := by
  cases hstep : cronSegmentStep s with
  | error e => exact ⟨e,by simp only [appendCronSegmentValues,hstep]⟩
  | ok p =>
    obtain ⟨base,step⟩ := p
    cases hends : cronSegmentEnds base step F.minValue F.maxValue F.normalizeSunday with
    | error e => exact ⟨e,by simp only [appendCronSegmentValues,hstep,hends]⟩
    | ok ends =>
      obtain ⟨seg,hseg⟩ := spells_of_cronSegment F hs hne hstep hends
      exact absurd hseg (hnone seg)

theorem not_spells_empty (seg : Segment) : ¬ Spells true "" seg := by
  intro h
  generalize hs : "" = s at h
  cases h with
  | plain _ hbase => exact hbase.ne_empty hs.symm
  | stepped _ _ _ _ =>
    have hlen := congrArg (List.length ∘ String.toList) hs
    simp at hlen
  | bare _ _ _ _ =>
    have hlen := congrArg (List.length ∘ String.toList) hs
    simp at hlen

theorem appendCronSegments_accepts (ss : List String) (values : List Int64)
    (hreg : ∀ s ∈ ss, ∀ seg, Spells true (trimSpace s) seg → seg.Regular F)
    (hall : ∀ s ∈ ss, ∃ seg, Spells true (trimSpace s) seg ∧ seg.Valid F) :
    ∃ l, appendCronSegments values F.minValue F.maxValue F.normalizeSunday ss =
        some (.ok (values ++ l)) ∧
      ∀ v, normalizeCronValue v F.normalizeSunday ∈ l ↔
        ∃ s ∈ ss, ∃ seg, Spells true (trimSpace s) seg ∧ seg.Denotes F v := by
  induction ss generalizing values with
  | nil => exact ⟨[],by simp [appendCronSegments],by simp⟩
  | cons s ss ih =>
    obtain ⟨seg,hspells,hvalid⟩ := hall s List.mem_cons_self
    have hne : trimSpace s ≠ "" := fun h => not_spells_empty seg (h ▸ hspells)
    obtain ⟨l,hl,hmem⟩ := append_of_spells (trimSpace_trimSpace s) hspells
      (hreg s List.mem_cons_self seg hspells) hvalid values
    obtain ⟨l',hl',hmem'⟩ := ih (values ++ l) (fun t ht => hreg t (List.mem_cons_of_mem _ ht))
      fun t ht => hall t (List.mem_cons_of_mem _ ht)
    refine ⟨l ++ l',?_,fun v => ?_⟩
    · simp only [appendCronSegments,if_neg hne,hl,hl',List.append_assoc]
    · rw [List.mem_append,hmem,hmem',List.exists_mem_cons_iff]
      refine or_congr_left ⟨fun h => ⟨seg,hspells,h⟩,?_⟩
      rintro ⟨seg',hspells',h⟩
      have heq : seg' = seg := Option.some.inj (hspells'.read.symm.trans hspells.read)
      exact heq ▸ h

theorem appendCronSegments_rejects (ss : List String) (values : List Int64)
    (hreg : ∀ s ∈ ss, ∀ seg, Spells true (trimSpace s) seg → seg.Regular F)
    (hnot : ¬ ∀ s ∈ ss, ∃ seg, Spells true (trimSpace s) seg ∧ seg.Valid F) :
    ∃ e, appendCronSegments values F.minValue F.maxValue F.normalizeSunday ss = some (.error e) := by
  induction ss generalizing values with
  | nil => exact absurd (fun s hs => by simp at hs) hnot
  | cons s ss ih =>
    by_cases hne : trimSpace s = ""
    · refine ⟨schedulerError errValidation "empty segment",?_⟩
      simp only [appendCronSegments,if_pos hne]
    by_cases hspelled : ∃ seg, Spells true (trimSpace s) seg
    · obtain ⟨seg,hspells⟩ := hspelled
      have hregular := hreg s List.mem_cons_self seg hspells
      by_cases hvalid : seg.Valid F
      · obtain ⟨l,hl,_⟩ := append_of_spells (trimSpace_trimSpace s) hspells hregular hvalid values
        obtain ⟨e,he⟩ := ih (values ++ l) (fun t ht => hreg t (List.mem_cons_of_mem _ ht)) fun hall =>
          hnot (List.forall_mem_cons.mpr ⟨⟨seg,hspells,hvalid⟩,hall⟩)
        exact ⟨e,by simp only [appendCronSegments,if_neg hne,hl,he]⟩
      · obtain ⟨e,he⟩ := append_of_invalid (trimSpace_trimSpace s) hspells hregular hvalid values
        exact ⟨e,by simp only [appendCronSegments,if_neg hne,he]⟩
    · obtain ⟨e,he⟩ := append_of_unspelled (F := F) (trimSpace_trimSpace s) hne
        (not_exists.mp hspelled) values
      exact ⟨e,by simp only [appendCronSegments,if_neg hne,he]⟩

end Meaning

structure StandardField (bareStep : Bool) (F : CronField) (raw : String) : Prop where
  returns : ∃ result,
    parseCronField raw F.minValue F.maxValue F.normalizeSunday = some result
  accepts : (∃ m, parseCronField raw F.minValue F.maxValue F.normalizeSunday = some (.ok m)) ↔
    ∀ s ∈ segments raw, ∃ seg, Spells bareStep s seg ∧ seg.Valid F
  contains : ∀ m, parseCronField raw F.minValue F.maxValue F.normalizeSunday = some (.ok m) →
    ∀ v, F.minValue ≤ v → v ≤ F.maxValue →
      (m.contains (normalizeCronValue v F.normalizeSunday) = true ↔
        ∃ s ∈ segments raw, ∃ seg, Spells bareStep s seg ∧ seg.Denotes F v)

section Field

variable {F : CronField} {raw : String}

theorem start_denoted {seg : Segment} (hvalid : seg.Valid F) : seg.Denotes F (seg.start F) :=
  ⟨0,by simpa using Int64.le_iff_toInt_le.mp hvalid.2.1,by simp⟩

theorem segments_ne_nil (raw : String) : segments raw ≠ [] := by
  simp [segments,split,List.splitOn]

theorem standardField_star (h : trimSpace raw = "*") : StandardField true F raw := by
  have hsegments : segments raw = ["*"] := by
    rw [segments,h]
    decide +kernel
  have hparse : parseCronField raw F.minValue F.maxValue F.normalizeSunday = some (.ok ⟨true,[]⟩) := by
    simp [parseCronField,h]
  have hspells : Spells true "*" ⟨.star,none⟩ := .plain (by decide) .star
  refine ⟨⟨_,hparse⟩,?_,?_⟩
  · rw [hsegments]
    refine iff_of_true ⟨_,hparse⟩ ?_
    intro s hs
    rw [List.mem_singleton] at hs
    exact ⟨⟨.star,none⟩,hs ▸ hspells,Int64.le_refl _,F.ordered,Int64.le_refl _⟩
  · intro m hm v hmin hmax
    rw [hparse,Option.some.injEq,Except.ok.injEq] at hm
    subst hm
    refine iff_of_true rfl ⟨"*",by simp [hsegments],⟨.star,none⟩,hspells,?_⟩
    rw [Int64.le_iff_toInt_le] at hmin hmax
    refine ⟨(v.toInt-F.minValue.toInt).toNat,?_⟩
    have hstride : (⟨.star,none⟩ : Segment).stride.toInt = 1 := rfl
    have hstart : (⟨.star,none⟩ : Segment).start F = F.minValue := rfl
    have hlast : (⟨.star,none⟩ : Segment).last F = F.maxValue := rfl
    rw [hstride,hstart,hlast,Int.mul_one,Int.toNat_of_nonneg (by omega)]
    have heq : F.minValue.toInt+(v.toInt-F.minValue.toInt) = v.toInt := by omega
    rw [heq]
    exact ⟨hmax,rfl⟩

theorem standardField_blank (h : trimSpace raw = "") : StandardField true F raw := by
  have hsegments : segments raw = [""] := by
    rw [segments,h]
    decide +kernel
  have hparse : parseCronField raw F.minValue F.maxValue F.normalizeSunday =
      some (.error (schedulerError errValidation "empty field")) := by
    simp [parseCronField,h]
  refine ⟨⟨_,hparse⟩,?_,?_⟩
  · rw [hparse,hsegments]
    refine iff_of_false (fun ⟨m,hm⟩ => by simp at hm) ?_
    intro hall
    obtain ⟨seg,hspells,_⟩ := hall "" (by simp)
    exact not_spells_empty seg hspells
  · intro m hm
    simp [hparse] at hm

theorem cron_field_denotes (F : CronField) (raw : String)
    (hreg : ∀ s ∈ segments raw, ∀ seg, Spells true s seg → seg.Regular F) :
    StandardField true F raw := by
  by_cases hblank : trimSpace raw = ""
  · exact standardField_blank hblank
  by_cases hstar : trimSpace raw = "*"
  · exact standardField_star hstar
  have hreg' : ∀ s ∈ split (trimSpace raw) ',', ∀ seg, Spells true (trimSpace s) seg →
      seg.Regular F := fun s hs => hreg (trimSpace s) (List.mem_map_of_mem hs)
  have hiff : (∀ s ∈ segments raw, ∃ seg, Spells true s seg ∧ seg.Valid F) ↔
      ∀ s ∈ split (trimSpace raw) ',', ∃ seg, Spells true (trimSpace s) seg ∧ seg.Valid F := by
    simp [segments]
  by_cases hall : ∀ s ∈ segments raw, ∃ seg, Spells true s seg ∧ seg.Valid F
  · obtain ⟨l,hl,hmem⟩ := appendCronSegments_accepts (split (trimSpace raw) ',') [] hreg' (hiff.mp hall)
    rw [List.nil_append] at hl
    have hdenotes : ∀ v, normalizeCronValue v F.normalizeSunday ∈ l ↔
        ∃ s ∈ segments raw, ∃ seg, Spells true s seg ∧ seg.Denotes F v := by
      intro v
      rw [hmem]
      simp [segments]
    have hne : l ≠ [] := by
      obtain ⟨s,hs⟩ := List.exists_mem_of_ne_nil _ (segments_ne_nil raw)
      obtain ⟨seg,hspells,hvalid⟩ := hall s hs
      exact List.ne_nil_of_mem ((hdenotes _).mpr ⟨s,hs,seg,hspells,start_denoted hvalid⟩)
    have hparse : parseCronField raw F.minValue F.maxValue F.normalizeSunday =
        some (.ok ⟨false,l⟩) := by
      simp only [parseCronField,if_neg hblank,if_neg hstar,hl,if_neg hne]
    refine ⟨⟨_,hparse⟩,iff_of_true ⟨_,hparse⟩ hall,?_⟩
    intro m hm v _ _
    rw [hparse,Option.some.injEq,Except.ok.injEq] at hm
    subst hm
    rw [← hdenotes]
    simp [CronFieldMatcher.contains]
  · obtain ⟨e,he⟩ := appendCronSegments_rejects (split (trimSpace raw) ',') [] hreg' (mt hiff.mpr hall)
    have hparse : parseCronField raw F.minValue F.maxValue F.normalizeSunday = some (.error e) := by
      simp only [parseCronField,if_neg hblank,if_neg hstar,he]
    refine ⟨⟨_,hparse⟩,iff_of_false (fun ⟨m,hm⟩ => by simp [hparse] at hm) hall,?_⟩
    intro m hm
    simp [hparse] at hm

end Field

def minuteField : CronField := ⟨0,59,false,by decide,nofun⟩

theorem regular_quarter_hours (s : String) (hs : s ∈ segments "*/15, 7") (seg : Segment)
    (h : Spells true s seg) : seg.Regular minuteField := by
  have hsegments : segments "*/15, 7" = ["*/15","7"] := by decide +kernel
  rw [hsegments] at hs
  have hread := h.read
  rcases List.mem_pair.mp hs with rfl | rfl
  · have hstar : readSegment "*/15" = some ⟨.star,some 15⟩ := by decide +kernel
    rw [hstar,Option.some.injEq] at hread
    subst hread
    refine ⟨nofun,nofun,nofun,fun k hk => ?_⟩
    change 0+(k : Int)*15 ≤ 59 at hk
    change 0+((k : Int)+1)*15 < 2^63
    omega
  · have hseven : readSegment "7" = some ⟨.single 7,none⟩ := by decide +kernel
    rw [hseven,Option.some.injEq] at hread
    subst hread
    refine ⟨nofun,nofun,nofun,fun k hk => ?_⟩
    change 7+(k : Int)*1 ≤ 7 at hk
    change 7+((k : Int)+1)*1 < 2^63
    omega

theorem cron_field_denotes_quarter_hours :
    (parseCronField "*/15, 7" 0 59 false).isSome ∧ StandardField true minuteField "*/15, 7" :=
  ⟨by decide +kernel,cron_field_denotes minuteField "*/15, 7" regular_quarter_hours⟩

theorem bare_step_accepted :
    (parseCronField "/5" 0 59 false).map (·.toOption.map (·.values)) =
      some (some [0,5,10,15,20,25,30,35,40,45,50,55]) ∧
    ¬ StandardField false minuteField "/5" := by
  refine ⟨by decide +kernel,fun h => ?_⟩
  have hok : ∃ m, parseCronField "/5" 0 59 false = some (.ok m) :=
    ⟨⟨false,[0,5,10,15,20,25,30,35,40,45,50,55]⟩,by decide +kernel⟩
  have hsegments : segments "/5" = ["/5"] := by decide +kernel
  obtain ⟨seg,hspells,_⟩ := h.accepts.mp hok "/5" (by simp [hsegments])
  generalize hs : "/5" = s at hspells
  cases hspells with
  | plain hslash _ =>
    subst hs
    exact hslash (by decide)
  | @stepped l r base n hslash hbase _ _ =>
    have hcut : cut "/5" '/' = some (l,r) := cut_eq_some_iff.mpr ⟨hs,hslash⟩
    have hempty : cut "/5" '/' = some ("","5") := by decide +kernel
    rw [hempty,Option.some.injEq,Prod.mk.injEq] at hcut
    rw [← hcut.1] at hbase
    exact hbase.ne_empty (by decide +kernel)
  | bare hbare _ _ _ => cases hbare

end Nimburion.Scheduler
