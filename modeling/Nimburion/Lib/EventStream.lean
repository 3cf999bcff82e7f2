import Mathlib.Tactic.Common

-- the WHATWG event-stream algorithm on bytes: decoding the UTF-8 first neither makes nor removes a
-- line end, a colon or a blank

namespace Nimburion.EventStream

abbrev Bytes := List UInt8

-- the complete lines; `cr` is set behind a CR, where an LF is the rest of the same line end
def linesFrom (cr : Bool) (acc : Bytes) : Bytes → List Bytes
  | [] => []
  | b :: rest =>
      if b = 10 then if cr then linesFrom false acc rest else acc :: linesFrom false [] rest
      else if b = 13 then acc :: linesFrom true [] rest
      else linesFrom false (acc ++ [b]) rest

-- a text with its line ends read as LF
def readEnds (cr : Bool) : Bytes → Bytes
  | [] => []
  | b :: rest =>
      if b = 10 then if cr then readEnds false rest else 10 :: readEnds false rest
      else if b = 13 then 10 :: readEnds true rest
      else b :: readEnds false rest

structure State where
  data : Bytes
  type : Bytes
  id : Bytes
  deriving DecidableEq, Repr

structure Message where
  type : Bytes
  lastEventId : Bytes
  data : Bytes
  deriving DecidableEq, Repr

def initial : State := ⟨[],[],[]⟩

-- event, data, id and message
def eventName : Bytes := [101,118,101,110,116]

def dataName : Bytes := [100,97,116,97]

def idName : Bytes := [105,100]

def messageName : Bytes := [109,101,115,115,97,103,101]

def dropSpace : Bytes → Bytes
  | b :: rest => if b = 32 then rest else b :: rest
  | [] => []

def fieldOf (line : Bytes) : Bytes := line.takeWhile (· ≠ 58)

def valueOf (line : Bytes) : Bytes := dropSpace ((line.dropWhile (· ≠ 58)).drop 1)

-- retry sets the reconnection time, which no message carries
def process (s : State) (field value : Bytes) : State :=
  if field = eventName then { s with type := value }
  else if field = dataName then { s with data := s.data ++ value ++ [10] }
  else if field = idName then if 0 ∈ value then s else { s with id := value }
  else s

def stripLF (data : Bytes) : Bytes := if data.getLast? = some 10 then data.dropLast else data

def dispatch (s : State) : State × List Message :=
  if s.data = [] then ({ s with type := [] },[])
  else ({ s with data := [], type := [] },
    [⟨if s.type = [] then messageName else s.type,s.id,stripLF s.data⟩])

def feedLine (s : State) (line : Bytes) : State × List Message :=
  if line = [] then dispatch s
  else if line.head? = some 58 then (s,[])
  else (process s (fieldOf line) (valueOf line),[])

def feed (s : State) : List Bytes → State × List Message
  | [] => (s,[])
  | line :: lines =>
      let step := feedLine s line
      let rest := feed step.1 lines
      (rest.1,step.2 ++ rest.2)

def parse (stream : Bytes) : List Message := (feed initial (linesFrom false [] stream)).2

section Lines

theorem linesFrom_append {body : Bytes} (hbody : ∀ b ∈ body, b ≠ 10 ∧ b ≠ 13) (acc rest : Bytes) :
    linesFrom false acc (body ++ rest) = linesFrom false (acc ++ body) rest := by
  induction body generalizing acc with
  | nil => rw [List.nil_append,List.append_nil]
  | cons b body ih =>
    obtain ⟨hb,hrest⟩ := List.forall_mem_cons.mp hbody
    rw [List.cons_append,linesFrom,if_neg hb.1,if_neg hb.2,ih hrest,List.append_assoc]
    rfl

theorem linesFrom_line {body : Bytes} (hbody : ∀ b ∈ body, b ≠ 10 ∧ b ≠ 13) (rest : Bytes) :
    linesFrom false [] (body ++ 10 :: rest) = body :: linesFrom false [] rest := by
  rw [linesFrom_append hbody,linesFrom,if_pos rfl]
  rfl

theorem mem_linesFrom {cr : Bool} {acc stream line : Bytes} (hacc : ∀ b ∈ acc, b ≠ 10 ∧ b ≠ 13)
    (h : line ∈ linesFrom cr acc stream) : ∀ b ∈ line, b ≠ 10 ∧ b ≠ 13 := by
  induction stream generalizing cr acc with
  | nil => cases h
  | cons b rest ih =>
    have hnil : ∀ b ∈ ([] : Bytes), b ≠ 10 ∧ b ≠ 13 := by simp
    rw [linesFrom] at h
    split_ifs at h with hlf hcr hcr'
    · exact ih hacc h
    · rcases List.mem_cons.mp h with rfl | h
      · exact hacc
      · exact ih hnil h
    · rcases List.mem_cons.mp h with rfl | h
      · exact hacc
      · exact ih hnil h
    · refine ih ?_ h
      rw [List.forall_mem_append]
      exact ⟨hacc,by simpa using ⟨hlf,hcr'⟩⟩

end Lines

section Messages

-- the bytes that a line adds to the data buffer
def weight (line : Bytes) : ℕ :=
  if fieldOf line = dataName then (valueOf line).length+1 else 0

def Ended (data : Bytes) : Prop := data = [] ∨ ∃ text, data = text ++ [10]

def total : List Bytes → ℕ
  | [] => 0
  | line :: lines => weight line+total lines

def sizes : List Message → ℕ
  | [] => 0
  | m :: messages => m.data.length+1+sizes messages

theorem total_cons (line : Bytes) (lines : List Bytes) :
    total (line :: lines) = weight line+total lines := rfl

theorem sizes_append (messages more : List Message) :
    sizes (messages ++ more) = sizes messages+sizes more := by
  induction messages with
  | nil => simp [sizes]
  | cons m messages ih =>
    rw [List.cons_append,sizes,sizes,ih]
    omega

theorem process_weight {s : State} (h : Ended s.data) (line : Bytes) :
    Ended (process s (fieldOf line) (valueOf line)).data ∧
      (process s (fieldOf line) (valueOf line)).data.length = s.data.length+weight line := by
  unfold process weight
  split_ifs with hevent hdata hdata' hid hnul
  · exact absurd (hevent.symm.trans hdata) (by decide)
  · exact ⟨h,rfl⟩
  · exact ⟨.inr ⟨s.data ++ valueOf line,rfl⟩,by simp⟩
  · exact ⟨h,rfl⟩
  · exact ⟨h,rfl⟩
  · exact ⟨h,rfl⟩

theorem dispatch_weight {s : State} (h : Ended s.data) :
    (dispatch s).1.data = [] ∧ sizes (dispatch s).2 = s.data.length := by
  by_cases hnil : s.data = []
  · rw [dispatch,if_pos hnil]
    exact ⟨hnil,by simp [sizes,hnil]⟩
  · obtain ⟨text,htext⟩ := h.resolve_left hnil
    rw [dispatch,if_neg hnil]
    exact ⟨rfl,by simp [sizes,stripLF,htext]⟩

theorem feedLine_weight {s : State} (h : Ended s.data) (line : Bytes) :
    Ended (feedLine s line).1.data ∧
      sizes (feedLine s line).2+(feedLine s line).1.data.length = s.data.length+weight line := by
  unfold feedLine
  split_ifs with hnil hcolon
  · obtain ⟨hdata,hsize⟩ := dispatch_weight h
    have hweight : weight line = 0 := by
      rw [hnil]
      rfl
    exact ⟨.inl hdata,by rw [hdata,hsize,hweight]; rfl⟩
  · have hweight : weight line = 0 := by
      obtain ⟨rest,rfl⟩ := List.head?_eq_some_iff.mp hcolon
      exact if_neg (by simp [fieldOf,dataName])
    exact ⟨h,by simp [sizes,hweight]⟩
  · obtain ⟨hended,hlen⟩ := process_weight h line
    exact ⟨hended,by simp [sizes,hlen]⟩

-- nothing that went into the buffer is lost, except what has not been dispatched
theorem feed_weight {s : State} (h : Ended s.data) (lines : List Bytes) :
    sizes (feed s lines).2+(feed s lines).1.data.length =
      s.data.length+total lines := by
  induction lines generalizing s with
  | nil => simp [feed,sizes,total]
  | cons line lines ih =>
    obtain ⟨hended,hline⟩ := feedLine_weight h line
    have hrest := ih hended
    have hsizes : sizes (feed s (line :: lines)).2 =
        sizes (feedLine s line).2+sizes (feed (feedLine s line).1 lines).2 :=
      sizes_append _ _
    rw [hsizes,total_cons]
    simp only [feed]
    omega

structure Clean (s : State) : Prop where
  type : ∀ b ∈ s.type, b ≠ 10 ∧ b ≠ 13
  id : ∀ b ∈ s.id, b ≠ 10 ∧ b ≠ 13 ∧ b ≠ 0

def CleanMessage (m : Message) : Prop :=
  (∀ b ∈ m.type, b ≠ 10 ∧ b ≠ 13) ∧ ∀ b ∈ m.lastEventId, b ≠ 10 ∧ b ≠ 13 ∧ b ≠ 0

theorem mem_valueOf {line : Bytes} {b : UInt8} (h : b ∈ valueOf line) : b ∈ line := by
  have hspace : ∀ bs : Bytes, dropSpace bs ⊆ bs := by
    intro bs
    cases bs with
    | nil => exact List.Subset.refl _
    | cons c bs =>
      rw [dropSpace]
      split_ifs
      · exact List.subset_cons_self c bs
      · exact List.Subset.refl _
  exact (List.dropWhile_sublist _).subset (List.mem_of_mem_drop (hspace _ h))

theorem dispatch_clean {s : State} (h : Clean s) :
    Clean (dispatch s).1 ∧ ∀ m ∈ (dispatch s).2, CleanMessage m := by
  by_cases hdata : s.data = []
  · rw [dispatch,if_pos hdata]
    exact ⟨⟨by simp,h.id⟩,by simp⟩
  · rw [dispatch,if_neg hdata]
    refine ⟨⟨by simp,h.id⟩,?_⟩
    rw [List.forall_mem_singleton]
    refine ⟨?_,h.id⟩
    by_cases htype : s.type = []
    · simp [htype,messageName]
    · simp only [htype,if_false]
      exact h.type

theorem feedLine_clean {s : State} (h : Clean s) {line : Bytes}
    (hline : ∀ b ∈ line, b ≠ 10 ∧ b ≠ 13) :
    Clean (feedLine s line).1 ∧ ∀ m ∈ (feedLine s line).2, CleanMessage m := by
  have hvalue : ∀ b ∈ valueOf line, b ≠ 10 ∧ b ≠ 13 := fun b hb => hline b (mem_valueOf hb)
  unfold feedLine
  split_ifs
  · exact dispatch_clean h
  · exact ⟨h,by simp⟩
  · refine ⟨?_,by simp⟩
    unfold process
    split_ifs with hevent hdata hid hnul
    · exact ⟨hvalue,h.id⟩
    · exact ⟨h.type,h.id⟩
    · exact h
    · refine ⟨h.type,fun b hb => ?_⟩
      exact ⟨(hvalue b hb).1,(hvalue b hb).2,fun hzero => hnul (hzero ▸ hb)⟩
    · exact h

-- no message carries a line end, and no ID a NUL
theorem feed_clean {s : State} (h : Clean s) {lines : List Bytes}
    (hlines : ∀ line ∈ lines, ∀ b ∈ line, b ≠ 10 ∧ b ≠ 13) :
    ∀ m ∈ (feed s lines).2, CleanMessage m := by
  induction lines generalizing s with
  | nil => simp [feed]
  | cons line lines ih =>
    obtain ⟨hline,hrest⟩ := List.forall_mem_cons.mp hlines
    obtain ⟨hclean,hmessages⟩ := feedLine_clean h hline
    simp only [feed,List.forall_mem_append]
    exact ⟨hmessages,ih hclean hrest⟩

theorem parse_clean {stream : Bytes} {m : Message} (h : m ∈ parse stream) : CleanMessage m :=
  feed_clean ⟨by simp [initial],by simp [initial]⟩
    (fun _ hline => mem_linesFrom (by simp) hline) m h

end Messages

end Nimburion.EventStream
