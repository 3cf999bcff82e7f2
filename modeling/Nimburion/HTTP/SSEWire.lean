import Nimburion.Lib.Decimal
import Nimburion.Lib.EventStream

namespace Nimburion.HTTP.SSEWire
open EventStream

-- the fields of an event that are written to a client
structure Event where
  id : Bytes
  type : Bytes
  data : Bytes
  retryMS : Int64
  deriving DecidableEq, Repr

-- "id: ", "event: ", "retry: ", "data: " and "{}"
def idPart : Bytes := [105,100,58,32]

def eventPart : Bytes := [101,118,101,110,116,58,32]

def retryPart : Bytes := [114,101,116,114,121,58,32]

def dataPart : Bytes := [100,97,116,97,58,32]

def emptyObject : Bytes := [123,125]

def itoaBytes (n : Int64) : Bytes := (Decimal.itoa n).toList.map fun c => UInt8.ofNat c.toNat

def dataOf (event : Event) : Bytes := if event.data.length = 0 then emptyObject else event.data

def writeEvent (event : Event) : Bytes :=
  (if event.id ≠ [] then idPart ++ event.id ++ [10] else []) ++
  (if event.type ≠ [] then eventPart ++ event.type ++ [10] else []) ++
  (if 0 < event.retryMS then retryPart ++ itoaBytes event.retryMS ++ [10] else []) ++
  ((dataOf event).splitOn 10).flatMap (fun line => dataPart ++ line ++ [10]) ++ [10]

-- what a client is to receive
def expected (event : Event) : Message where
  type := if event.type = [] then messageName else event.type
  lastEventId := event.id
  data := readEnds false (dataOf event)

section Data

-- an LF of the data starts the next line of the field
def escape (b : UInt8) : Bytes := if b = 10 then 10 :: dataPart else [b]

theorem flatMap_splitOn (data : Bytes) :
    (data.splitOn 10).flatMap (fun line => dataPart ++ line ++ [10]) =
      dataPart ++ data.flatMap escape ++ [10] := by
  induction data with
  | nil => simp
  | cons b data ih =>
    rw [List.flatMap_cons,List.splitOn_cons_eq_if_modifyHead]
    by_cases hb : b = 10
    · subst hb
      rw [beq_self_eq_true,if_pos rfl,List.flatMap_cons,ih,escape,if_pos rfl]
      simp
    · obtain ⟨first,others,hsplit⟩ := List.exists_cons_of_ne_nil (List.splitOn_ne_nil 10 data)
      rw [hsplit,List.flatMap_cons] at ih
      rw [beq_eq_false_iff_ne.mpr hb,if_neg (by simp),hsplit,List.modifyHead_cons,List.flatMap_cons,
        escape,if_neg hb]
      simp only [List.append_assoc,List.append_cancel_left_eq] at ih ⊢
      rw [← ih]
      rfl

-- every CR is followed by an LF
def paired (cr : Bool) : Bytes → Bool
  | [] => !cr
  | b :: rest =>
      if b = 10 then paired false rest
      else if cr then false
      else if b = 13 then paired true rest
      else paired false rest

def rest (cr : Bool) (acc data : Bytes) : List Bytes :=
  linesFrom cr acc (data.flatMap escape ++ [10,10])

theorem dataPart_clean : ∀ b ∈ dataPart, b ≠ 10 ∧ b ≠ 13 := by simp [dataPart]

theorem rest_nil (acc : Bytes) : rest false acc [] = [acc,[]] := by
  simp [rest,linesFrom]

theorem rest_cr_nil : rest true [] [] = [[]] := by
  simp [rest,linesFrom]

theorem rest_lf (acc data : Bytes) : rest false acc (10 :: data) = acc :: rest false dataPart data := by
  rw [rest,List.flatMap_cons,escape,if_pos rfl,List.cons_append,List.cons_append,linesFrom,if_pos rfl,
    List.append_assoc,linesFrom_append dataPart_clean]
  rfl

theorem rest_cr_lf (data : Bytes) : rest true [] (10 :: data) = rest false dataPart data := by
  rw [rest,List.flatMap_cons,escape,if_pos rfl,List.cons_append,List.cons_append,linesFrom,if_pos rfl,
    List.append_assoc,linesFrom_append dataPart_clean]
  rfl

theorem rest_cr (cr : Bool) (acc data : Bytes) :
    rest cr acc (13 :: data) = acc :: rest true [] data := by
  rw [rest,List.flatMap_cons,escape,if_neg (by decide)]
  rfl

theorem rest_other {b : UInt8} (hlf : b ≠ 10) (hcr : b ≠ 13) (cr : Bool) (acc data : Bytes) :
    rest cr acc (b :: data) = rest false (acc ++ [b]) data := by
  rw [rest,List.flatMap_cons,escape,if_neg hlf,List.append_assoc,List.cons_append,List.nil_append,
    linesFrom,if_neg hlf,if_neg hcr]
  rfl

theorem weight_data (text : Bytes) : weight (dataPart ++ text) = text.length+1 := by
  simp [weight,fieldOf,valueOf,dataPart,dataName,dropSpace]

theorem weight_le (line : Bytes) : weight line ≤ line.length := by
  unfold weight
  split_ifs with hfield
  · have hlen : line.length = (fieldOf line).length+(line.dropWhile (· ≠ 58)).length := by
      rw [fieldOf,← List.length_append,List.takeWhile_append_dropWhile]
    have hvalue : (valueOf line).length ≤ (line.dropWhile (· ≠ 58)).length := by
      have hspace : ∀ bs : Bytes, (dropSpace bs).length ≤ bs.length := by
        intro bs
        cases bs with
        | nil => exact Nat.le_refl _
        | cons b bs =>
          rw [dropSpace]
          split_ifs
          · exact Nat.le_succ _
          · exact Nat.le_refl _
      refine Nat.le_trans (hspace _) ?_
      rw [List.length_drop]
      omega
    rw [hfield] at hlen
    simp only [dataName,List.length_cons,List.length_nil] at hlen
    omega
  · exact Nat.zero_le _

section Ends

variable {b : UInt8} {cr : Bool} (data : Bytes)

theorem readEnds_lf : (readEnds false (10 :: data)).length = (readEnds false data).length+1 := rfl

theorem readEnds_cr_lf : readEnds true (10 :: data) = readEnds false data := rfl

theorem readEnds_cr (cr : Bool) :
    (readEnds cr (13 :: data)).length = (readEnds true data).length+1 := rfl

theorem readEnds_other (hlf : b ≠ 10) (hcr : b ≠ 13) (cr : Bool) :
    readEnds cr (b :: data) = b :: readEnds false data := by
  rw [readEnds,if_neg hlf,if_neg hcr]

theorem paired_other (hlf : b ≠ 10) (hcr : b ≠ 13) :
    paired false (b :: data) = paired false data := by
  rw [paired,if_neg hlf,if_neg hcr]
  rfl

end Ends

structure Short (data : Bytes) : Prop where
  bare : ∀ acc, total (rest false acc data) ≤ acc.length+(readEnds false data).length
  behind : total (rest true [] data) ≤ (readEnds true data).length+1
  behind_eq : total (rest true [] data) = (readEnds true data).length+1 → paired true data = true
  marked : ∀ text, total (rest false (dataPart ++ text) data) ≤
    text.length+(readEnds false data).length+1
  marked_eq : ∀ text, total (rest false (dataPart ++ text) data) =
    text.length+(readEnds false data).length+1 → paired false data = true

theorem short_nil : Short [] where
  bare acc := by
    rw [rest_nil,total_cons]
    exact Nat.add_le_add (weight_le acc) (Nat.le_refl 0)
  behind := by
    rw [rest_cr_nil]
    exact Nat.zero_le 1
  behind_eq h := by
    rw [rest_cr_nil] at h
    cases h
  marked text := by
    rw [rest_nil,total_cons,weight_data]
    exact Nat.le_refl _
  marked_eq _ _ := rfl

theorem Short.lf {data : Bytes} (h : Short data) : Short (10 :: data) where
  bare acc := by
    have hdata := h.marked []
    have hweight := weight_le acc
    rw [List.append_nil,List.length_nil] at hdata
    rw [rest_lf,total_cons,readEnds_lf]
    omega
  behind := by
    have hdata := h.marked []
    rw [List.append_nil,List.length_nil] at hdata
    rw [rest_cr_lf,readEnds_cr_lf]
    omega
  behind_eq heq := by
    rw [rest_cr_lf,readEnds_cr_lf] at heq
    exact h.marked_eq [] (by rw [List.append_nil,heq,List.length_nil]; omega)
  marked text := by
    have hdata := h.marked []
    rw [List.append_nil,List.length_nil] at hdata
    rw [rest_lf,total_cons,weight_data,readEnds_lf]
    omega
  marked_eq text heq := by
    rw [rest_lf,total_cons,weight_data,readEnds_lf] at heq
    exact h.marked_eq [] (by rw [List.append_nil,List.length_nil]; omega)

theorem Short.cr {data : Bytes} (h : Short data) : Short (13 :: data) where
  bare acc := by
    have hbehind := h.behind
    have hweight := weight_le acc
    rw [rest_cr,total_cons,readEnds_cr]
    omega
  behind := by
    have hbehind := h.behind
    have hblank : weight [] = 0 := rfl
    rw [rest_cr,total_cons,readEnds_cr,hblank]
    omega
  behind_eq heq := by
    have hbehind := h.behind
    have hblank : weight [] = 0 := rfl
    rw [rest_cr,total_cons,readEnds_cr,hblank] at heq
    omega
  marked text := by
    have hbehind := h.behind
    rw [rest_cr,total_cons,weight_data,readEnds_cr]
    omega
  marked_eq text heq := by
    rw [rest_cr,total_cons,weight_data,readEnds_cr] at heq
    exact h.behind_eq (by omega)

theorem Short.other {data : Bytes} (h : Short data) {b : UInt8} (hlf : b ≠ 10) (hcr : b ≠ 13) :
    Short (b :: data) where
  bare acc := by
    have hbare := h.bare (acc ++ [b])
    rw [List.length_append,List.length_singleton] at hbare
    rw [rest_other hlf hcr,readEnds_other _ hlf hcr,List.length_cons]
    omega
  behind := by
    have hbare := h.bare ([] ++ [b])
    rw [List.nil_append,List.length_singleton] at hbare
    rw [rest_other hlf hcr,readEnds_other _ hlf hcr,List.length_cons,List.nil_append]
    omega
  behind_eq heq := by
    have hbare := h.bare ([] ++ [b])
    rw [List.nil_append,List.length_singleton] at hbare
    rw [rest_other hlf hcr,readEnds_other _ hlf hcr,List.length_cons,List.nil_append] at heq
    omega
  marked text := by
    have hdata := h.marked (text ++ [b])
    rw [← List.append_assoc,List.length_append,List.length_singleton] at hdata
    rw [rest_other hlf hcr,readEnds_other _ hlf hcr,List.length_cons]
    omega
  marked_eq text heq := by
    rw [rest_other hlf hcr,readEnds_other _ hlf hcr,List.length_cons] at heq
    rw [paired_other _ hlf hcr]
    refine h.marked_eq (text ++ [b]) ?_
    rw [← List.append_assoc,heq,List.length_append,List.length_singleton]
    omega

-- what comes behind a CR on the same line of the data arrives short, and so does a last CR
theorem short (data : Bytes) : Short data := by
  induction data with
  | nil => exact short_nil
  | cons b data ih =>
    by_cases hlf : b = 10
    · exact hlf ▸ ih.lf
    · by_cases hcr : b = 13
      · exact hcr ▸ ih.cr
      · exact ih.other hlf hcr

theorem paired_iff (cr : Bool) (data : Bytes) : paired cr data = true ↔
    (cr = true → data[0]? = some 10) ∧
      ∀ i : ℕ, data[i]? = some 13 → data[i+1]? = some 10 := by
  induction data generalizing cr with
  | nil => cases cr <;> simp [paired]
  | cons b data ih =>
    rw [paired]
    have hsucc : (∀ i : ℕ, (b :: data)[i]? = some 13 → (b :: data)[i+1]? = some 10) ↔
        (b = 13 → data[0]? = some 10) ∧ ∀ i : ℕ, data[i]? = some 13 → data[i+1]? = some 10 := by
      constructor
      · intro h
        exact ⟨fun hb => by simpa using h 0 (by simp [hb]),fun i hi => by simpa using h (i+1) (by simpa using hi)⟩
      · rintro ⟨hzero,h⟩ i hi
        cases i with
        | zero => simpa using hzero (by simpa using hi)
        | succ i => simpa using h i (by simpa using hi)
    rw [hsucc]
    by_cases hlf : b = 10
    · rw [if_pos hlf,ih]
      simp [hlf]
    · rw [if_neg hlf]
      cases cr with
      | true => simp [hlf]
      | false =>
        by_cases hcr : b = 13
        · rw [if_neg (by simp),if_pos hcr,ih]
          simp [hcr]
        · rw [if_neg (by simp),if_neg hcr,ih]
          simp [hcr]

theorem feed_silent {s s' : State} {line : Bytes} (h : feedLine s line = (s',[]))
    (lines : List Bytes) : feed s (line :: lines) = feed s' lines := by
  simp [feed,h]

theorem feedLine_data (s : State) (text : Bytes) :
    feedLine s (dataPart ++ text) = ({ s with data := s.data ++ text ++ [10] },[]) := by
  simp [feedLine,process,fieldOf,valueOf,dataPart,dataName,eventName,dropSpace]

theorem feed_blank (s : State) : feed s [[]] = dispatch s := by
  simp [feed,feedLine]

theorem feed_rest (data : Bytes) :
    (paired false data = true → ∀ s text, feed s (rest false (dataPart ++ text) data) =
      dispatch { s with data := s.data ++ text ++ readEnds false data ++ [10] }) ∧
    (paired true data = true → ∀ s, feed s (rest true [] data) =
      dispatch { s with data := s.data ++ readEnds true data ++ [10] }) := by
  induction data with
  | nil =>
    refine ⟨fun _ s text => ?_,fun h => by cases h⟩
    rw [rest_nil,feed_silent (feedLine_data s text),feed_blank]
    simp [readEnds]
  | cons b data ih =>
    obtain ⟨ihdata,ihcr⟩ := ih
    by_cases hlf : b = 10
    · subst hlf
      refine ⟨fun h s text => ?_,fun h s => ?_⟩
      · have hfeed := ihdata h { s with data := s.data ++ text ++ [10] } []
        rw [List.append_nil] at hfeed
        rw [rest_lf,feed_silent (feedLine_data s text),hfeed]
        simp [readEnds]
      · have hfeed := ihdata h s []
        rw [List.append_nil] at hfeed
        rw [rest_cr_lf,hfeed]
        simp [readEnds]
    · by_cases hcr : b = 13
      · subst hcr
        refine ⟨fun h s text => ?_,fun h => by cases h⟩
        rw [rest_cr,feed_silent (feedLine_data s text),ihcr h]
        simp [readEnds]
      · refine ⟨fun h s text => ?_,fun h => ?_⟩
        · rw [paired_other _ hlf hcr] at h
          have hfeed := ihdata h s (text ++ [b])
          rw [← List.append_assoc] at hfeed
          rw [rest_other hlf hcr,hfeed,readEnds_other _ hlf hcr]
          simp
        · rw [paired,if_neg hlf] at h
          cases h

end Data

section Fields

def fields (event : Event) : List Bytes :=
  (if event.id ≠ [] then [idPart ++ event.id] else []) ++
  (if event.type ≠ [] then [eventPart ++ event.type] else []) ++
  (if 0 < event.retryMS then [retryPart ++ itoaBytes event.retryMS] else [])

theorem writeEvent_eq (event : Event) : writeEvent event =
    (fields event).flatMap (· ++ [10]) ++
      (dataPart ++ (dataOf event).flatMap escape ++ [10,10]) := by
  unfold writeEvent fields
  rw [flatMap_splitOn,List.flatMap_append,List.flatMap_append]
  split_ifs <;> simp

theorem linesFrom_fields {lines : List Bytes}
    (h : ∀ line ∈ lines, ∀ b ∈ line, b ≠ 10 ∧ b ≠ 13) (rest : Bytes) :
    linesFrom false [] (lines.flatMap (· ++ [10]) ++ rest) = lines ++ linesFrom false [] rest := by
  induction lines with
  | nil => rfl
  | cons line lines ih =>
    obtain ⟨hline,hlines⟩ := List.forall_mem_cons.mp h
    rw [List.flatMap_cons,List.append_assoc,List.append_assoc,List.singleton_append,
      linesFrom_line hline,ih hlines]
    rfl

theorem itoaBytes_clean {n : Int64} (h : 0 < n) : ∀ b ∈ itoaBytes n, b ≠ 10 ∧ b ≠ 13 := by
  intro b hb
  rw [itoaBytes,Decimal.itoa_of_nonneg (Int64.le_of_lt h),String.toList_ofList,List.mem_map] at hb
  obtain ⟨c,hc,rfl⟩ := hb
  have hdigit := Decimal.allDigits_toDigits _ c hc
  rw [Char.isDigit,Bool.and_eq_true,decide_eq_true_eq,decide_eq_true_eq] at hdigit
  have hlow : 48 ≤ c.toNat := hdigit.1
  have hhigh : c.toNat ≤ 57 := hdigit.2
  have hnat : (UInt8.ofNat c.toNat).toNat = c.toNat := by
    rw [UInt8.toNat_ofNat']
    omega
  constructor <;> intro heq <;> rw [heq] at hnat <;> simp at hnat <;> omega

structure Writable (event : Event) : Prop where
  id : ∀ b ∈ event.id, b ≠ 10 ∧ b ≠ 13 ∧ b ≠ 0
  type : ∀ b ∈ event.type, b ≠ 10 ∧ b ≠ 13

theorem fields_clean {event : Event} (h : Writable event) :
    ∀ line ∈ fields event, ∀ b ∈ line, b ≠ 10 ∧ b ≠ 13 := by
  have hid : ∀ b ∈ idPart ++ event.id, b ≠ 10 ∧ b ≠ 13 :=
    List.forall_mem_append.mpr ⟨by simp [idPart],fun b hb => ⟨(h.id b hb).1,(h.id b hb).2.1⟩⟩
  have htype : ∀ b ∈ eventPart ++ event.type, b ≠ 10 ∧ b ≠ 13 :=
    List.forall_mem_append.mpr ⟨by simp [eventPart],h.type⟩
  unfold fields
  rw [List.forall_mem_append,List.forall_mem_append]
  refine ⟨⟨?_,?_⟩,?_⟩
  · split_ifs
    · simpa only [List.forall_mem_singleton] using hid
    · simp
  · split_ifs
    · simpa only [List.forall_mem_singleton] using htype
    · simp
  · split_ifs with hretry
    · rw [List.forall_mem_singleton]
      exact List.forall_mem_append.mpr ⟨by simp [retryPart],itoaBytes_clean hretry⟩
    · simp

theorem feedLine_id (s : State) {id : Bytes} (h : 0 ∉ id) :
    feedLine s (idPart ++ id) = ({ s with id := id },[]) := by
  simp [feedLine,process,fieldOf,valueOf,idPart,idName,dataName,eventName,dropSpace,h]

theorem feedLine_event (s : State) (type : Bytes) :
    feedLine s (eventPart ++ type) = ({ s with type := type },[]) := by
  simp [feedLine,process,fieldOf,valueOf,eventPart,eventName,dropSpace]

theorem feedLine_retry (s : State) (digits : Bytes) : feedLine s (retryPart ++ digits) = (s,[]) := by
  simp [feedLine,process,fieldOf,retryPart,eventName,dataName,idName]

theorem feed_fields {event : Event} (h : Writable event) (lines : List Bytes) :
    feed initial (fields event ++ lines) = feed ⟨[],event.type,event.id⟩ lines := by
  have hzero : 0 ∉ event.id := fun hmem => (h.id 0 hmem).2.2 rfl
  have hid : ∀ ls, feed initial ((if event.id ≠ [] then [idPart ++ event.id] else []) ++ ls) =
      feed ⟨[],[],event.id⟩ ls := by
    intro ls
    split_ifs with hne
    · exact feed_silent (feedLine_id initial hzero) ls
    · rw [not_not.mp hne]
      rfl
  have htype : ∀ ls, feed ⟨[],[],event.id⟩
      ((if event.type ≠ [] then [eventPart ++ event.type] else []) ++ ls) =
        feed ⟨[],event.type,event.id⟩ ls := by
    intro ls
    split_ifs with hne
    · exact feed_silent (feedLine_event _ event.type) ls
    · rw [not_not.mp hne]
      rfl
  have hretry : ∀ ls, feed ⟨[],event.type,event.id⟩
      ((if 0 < event.retryMS then [retryPart ++ itoaBytes event.retryMS] else []) ++ ls) =
        feed ⟨[],event.type,event.id⟩ ls := by
    intro ls
    split_ifs
    · exact feed_silent (feedLine_retry _ _) ls
    · rfl
  rw [fields,List.append_assoc,List.append_assoc,hid,htype,hretry]

theorem parse_writeEvent {event : Event} (h : Writable event) : parse (writeEvent event) =
    (feed ⟨[],event.type,event.id⟩ (rest false dataPart (dataOf event))).2 := by
  rw [parse,writeEvent_eq,linesFrom_fields (fields_clean h),feed_fields h,List.append_assoc,
    linesFrom_append dataPart_clean]
  rfl

theorem parse_expected {event : Event} (h : Writable event)
    (hdata : paired false (dataOf event) = true) : parse (writeEvent event) = [expected event] := by
  have hfeed := (feed_rest (dataOf event)).1 hdata ⟨[],event.type,event.id⟩ []
  rw [List.append_nil] at hfeed
  rw [parse_writeEvent h,hfeed]
  simp [dispatch,stripLF,expected]

theorem writable_of_parse {event : Event} (h : parse (writeEvent event) = [expected event]) :
    Writable event := by
  obtain ⟨htype,hid⟩ := parse_clean (h ▸ List.mem_singleton_self (expected event))
  refine ⟨hid,?_⟩
  by_cases hnil : event.type = []
  · simp [hnil]
  · simpa [expected,hnil] using htype

theorem paired_of_parse {event : Event} (hwritable : Writable event)
    (h : parse (writeEvent event) = [expected event]) : paired false (dataOf event) = true := by
  have hweight := feed_weight (s := ⟨[],event.type,event.id⟩) (.inl rfl)
    (rest false dataPart (dataOf event))
  rw [← parse_writeEvent hwritable,h] at hweight
  have hsize : sizes [expected event] = (readEnds false (dataOf event)).length+1 := by
    simp [sizes,expected]
  have hle := (short (dataOf event)).marked []
  refine (short (dataOf event)).marked_eq [] ?_
  rw [List.append_nil,List.length_nil] at hle ⊢
  simp only [List.length_nil] at hweight
  omega

theorem paired_dataOf (event : Event) :
    paired false (dataOf event) = true ↔
      ∀ i : ℕ, event.data[i]? = some 13 → event.data[i+1]? = some 10 := by
  have hiff := paired_iff false event.data
  simp only [Bool.false_eq_true,false_implies,true_and] at hiff
  unfold dataOf
  split_ifs with hempty
  · rw [List.length_eq_zero_iff.mp hempty]
    exact iff_of_true (by decide) (by simp)
  · exact hiff

theorem event_round_trip_iff (event : Event) : parse (writeEvent event) = [expected event] ↔
    (∀ b ∈ event.id, b ≠ 10 ∧ b ≠ 13 ∧ b ≠ 0) ∧ (∀ b ∈ event.type, b ≠ 10 ∧ b ≠ 13) ∧
      ∀ i : ℕ, event.data[i]? = some 13 → event.data[i+1]? = some 10 := by
  rw [← paired_dataOf]
  constructor
  · intro h
    have hwritable := writable_of_parse h
    exact ⟨hwritable.id,hwritable.type,paired_of_parse hwritable h⟩
  · rintro ⟨hid,htype,hdata⟩
    exact parse_expected ⟨hid,htype⟩ hdata

-- "a\r\rdata: b" arrives as two events
theorem lone_cr_injects_event :
    (parse (writeEvent ⟨[55],[],[97,13,13,100,97,116,97,58,32,98],0⟩)).map Message.data =
      [[97],[98]] ∧
    parse (writeEvent ⟨[55],[],[97,13,13,100,97,116,97,58,32,98],0⟩) ≠
      [expected ⟨[55],[],[97,13,13,100,97,116,97,58,32,98],0⟩] := by decide +kernel

end Fields

end Nimburion.HTTP.SSEWire
