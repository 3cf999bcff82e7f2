import Nimburion.Lib.Decimal

-- the memcached text protocol, from the server's side
namespace Nimburion.Memcached

abbrev Bytes := List UInt8

def ascii (s : String) : Bytes := s.toList.map fun c => UInt8.ofNat c.toNat

def takeLine : Bytes → Option (Bytes × Bytes)
  | [] => none
  | b :: bs => if b = 10 then some ([],bs) else (takeLine bs).map fun p => (b :: p.1,p.2)

def chomp (line : Bytes) : Bytes := if line.getLast? = some 13 then line.dropLast else line

def tokens (line : Bytes) : List Bytes := (line.splitOn 32).filter fun word => !word.isEmpty

-- at most 250 bytes, no control characters and no blanks
def validKey (key : Bytes) : Bool :=
  !key.isEmpty && key.length ≤ 250 && key.all fun b => 32 < b && b ≠ 127

def isDigit (b : UInt8) : Bool := 48 ≤ b && b ≤ 57

def number (ds : Bytes) : Option ℕ :=
  if ds.isEmpty || !ds.all isDigit then none
  else some (ds.foldl (fun n b => 10*n+(b.toNat-48)) 0)

def integer : Bytes → Option Int
  | [] => none
  | b :: ds => if b = 45 then (number ds).map fun n : ℕ => -(n : Int)
      else (number (b :: ds)).map Int.ofNat

inductive Command where
  | get (keys : List Bytes)
  | set (key : Bytes) (flags : ℕ) (exptime : Int) (noreply : Bool) (data : Bytes)
  | delete (key : Bytes) (noreply : Bool)
  | touch (key : Bytes) (exptime : Int) (noreply : Bool)
  | other (line : Bytes)
  | unfinished (rest : Bytes)
  deriving DecidableEq, Repr

def Command.keys : Command → List Bytes
  | .get keys => keys
  | .set key .. | .delete key _ | .touch key .. => [key]
  | _ => []

-- a command line; of a storage command it says how long the data block is
inductive Line where
  | whole (c : Command)
  | stores (key : Bytes) (flags : ℕ) (exptime : Int) (size : ℕ) (noreply : Bool)
  deriving DecidableEq, Repr

def noreply : List Bytes → Option Bool
  | [] => some false
  | [word] => if word = ascii "noreply" then some true else none
  | _ => none

def getLine (args : List Bytes) : Option Line :=
  if args.isEmpty || !args.all validKey then none else some (.whole (.get args))

def setLine : List Bytes → Option Line
  | key :: flags :: exptime :: size :: opts =>
      if validKey key then do
        some (.stores key (← number flags) (← integer exptime) (← number size) (← noreply opts))
      else none
  | _ => none

def deleteLine : List Bytes → Option Line
  | key :: opts => if validKey key then do some (.whole (.delete key (← noreply opts))) else none
  | _ => none

def touchLine : List Bytes → Option Line
  | key :: exptime :: opts =>
      if validKey key then do
        some (.whole (.touch key (← integer exptime) (← noreply opts)))
      else none
  | _ => none

def commandLine : List Bytes → Option Line
  | [] => none
  | verb :: args =>
      if verb = ascii "get" then getLine args
      else if verb = ascii "set" then setLine args
      else if verb = ascii "delete" then deleteLine args
      else if verb = ascii "touch" then touchLine args
      else none

def next (bs : Bytes) : Command × Bytes :=
  match takeLine bs with
  | none => (.unfinished bs,[])
  | some (line,rest) => match commandLine (tokens (chomp line)) with
      | none => (.other (chomp line),rest)
      | some (.whole c) => (c,rest)
      | some (.stores key flags exptime size noreply) =>
          if rest.length < size+2 then (.unfinished bs,[])
          else if (rest.drop size).take 2 = [13,10] then
            (.set key flags exptime noreply (rest.take size),rest.drop (size+2))
          else (.other (chomp line),rest.drop (size+2))

-- every command takes at least its line end
def parseWithin : ℕ → Bytes → List Command
  | 0, _ => []
  | _+1, [] => []
  | n+1, b :: bs => (next (b :: bs)).1 :: parseWithin n (next (b :: bs)).2

def parse (bs : Bytes) : List Command := parseWithin bs.length bs

def digits (n : ℕ) : Bytes := (Nat.toDigits 10 n).map fun c => UInt8.ofNat c.toNat

-- %d
def decimal (n : Int) : Bytes := if n < 0 then 45 :: digits n.natAbs else digits n.natAbs

structure IsWord (word : Bytes) : Prop where
  nonempty : word ≠ []
  no_blank : (32 : UInt8) ∉ word
  no_newline : (10 : UInt8) ∉ word

theorem isWord_of_all {word : Bytes} (hne : word ≠ []) (h : ∀ b ∈ word, 32 < b) : IsWord word :=
  ⟨hne,fun hmem => absurd (h 32 hmem) (by decide),fun hmem => absurd (h 10 hmem) (by decide)⟩

theorem isWord_of_validKey {key : Bytes} (h : validKey key = true) : IsWord key := by
  simp only [validKey,Bool.and_eq_true,Bool.not_eq_true',List.isEmpty_eq_false_iff,List.all_eq_true,
    decide_eq_true_eq] at h
  exact isWord_of_all h.1.1 fun b hb => (h.2 b hb).1

section Numbers

theorem digitByte {c : Char} (h : c.isDigit = true) :
    isDigit (UInt8.ofNat c.toNat) = true ∧ (UInt8.ofNat c.toNat).toNat = c.toNat := by
  obtain ⟨hlow,hhigh⟩ := Char.isDigit_iff_toNat.mp h
  have hzero : '0'.toNat = 48 := rfl
  have hnine : '9'.toNat = 57 := rfl
  have hnat : (UInt8.ofNat c.toNat).toNat = c.toNat := by
    rw [UInt8.toNat_ofNat']
    omega
  refine ⟨?_,hnat⟩
  simp only [isDigit,Bool.and_eq_true,decide_eq_true_eq,UInt8.le_iff_toNat_le,hnat]
  exact ⟨hlow,hhigh⟩

theorem isDigit_of_mem_digits {n : ℕ} {b : UInt8} (h : b ∈ digits n) : isDigit b = true := by
  obtain ⟨c,hc,rfl⟩ := List.mem_map.mp h
  exact (digitByte (Decimal.allDigits_toDigits n c hc)).1

theorem digits_ne_nil (n : ℕ) : digits n ≠ [] := by
  simp [digits]

theorem number_digits (n : ℕ) : number (digits n) = some n := by
  have hfold : ∀ (ds : List Char) (a : ℕ), Decimal.AllDigits ds →
      (ds.map fun c => UInt8.ofNat c.toNat).foldl (fun n b => 10*n+(b.toNat-48)) a =
        ds.foldl (fun n c => 10*n+Decimal.digitValue c) a := by
    intro ds
    induction ds with
    | nil => exact fun _ _ => rfl
    | cons c ds ih =>
      intro a hall
      obtain ⟨hc,hds⟩ := List.forall_mem_cons.mp hall
      rw [List.map_cons,List.foldl_cons,List.foldl_cons,(digitByte hc).2,ih _ hds]
      rfl
  have hall : (digits n).all isDigit = true :=
    List.all_eq_true.mpr fun b hb => isDigit_of_mem_digits hb
  rw [number,hall,List.isEmpty_eq_false_iff.mpr (digits_ne_nil n)]
  have hvalue := (hfold (Nat.toDigits 10 n) 0 (Decimal.allDigits_toDigits n)).trans
    (Decimal.value_toDigits n)
  simpa [digits] using hvalue

theorem blank_lt_of_isDigit {b : UInt8} (h : isDigit b = true) : 32 < b ∧ b ≠ 45 := by
  simp only [isDigit,Bool.and_eq_true,decide_eq_true_eq] at h
  refine ⟨UInt8.lt_of_lt_of_le (by decide : (32 : UInt8) < 48) h.1,?_⟩
  rintro rfl
  exact absurd h.1 (by decide)

theorem isWord_digits (n : ℕ) : IsWord (digits n) :=
  isWord_of_all (digits_ne_nil n) fun _ hb => (blank_lt_of_isDigit (isDigit_of_mem_digits hb)).1

theorem integer_digits (n : ℕ) : integer (digits n) = some (n : Int) := by
  have hnumber := number_digits n
  cases hd : digits n with
  | nil => exact absurd hd (digits_ne_nil n)
  | cons b ds =>
    have hb : b ≠ 45 := (blank_lt_of_isDigit (isDigit_of_mem_digits (n := n) (by simp [hd]))).2
    rw [hd] at hnumber
    simp [integer,hb,hnumber]

theorem integer_decimal (n : Int) : integer (decimal n) = some n := by
  unfold decimal
  split_ifs with hneg
  · rw [integer,if_pos rfl,number_digits,Option.map_some]
    congr 1
    omega
  · rw [integer_digits]
    congr 1
    omega

theorem isWord_decimal (n : Int) : IsWord (decimal n) := by
  unfold decimal
  split_ifs
  · refine isWord_of_all (List.cons_ne_nil _ _) fun b hb => ?_
    rcases List.mem_cons.mp hb with rfl | hb
    · decide
    · exact (blank_lt_of_isDigit (isDigit_of_mem_digits hb)).1
  · exact isWord_digits _

end Numbers

section Lines

theorem takeLine_append {line : Bytes} (h : (10 : UInt8) ∉ line) (rest : Bytes) :
    takeLine (line ++ 10 :: rest) = some (line,rest) := by
  induction line with
  | nil => simp [takeLine]
  | cons b line ih =>
    rw [List.mem_cons,not_or] at h
    simp [takeLine,Ne.symm h.1,ih h.2]

theorem chomp_append (line : Bytes) : chomp (line ++ [13]) = line := by simp [chomp]

theorem tokens_intercalate {words : List Bytes} (hne : words ≠ []) (h : ∀ w ∈ words, IsWord w) :
    tokens ([32].intercalate words) = words := by
  rw [tokens,List.splitOn_intercalate 32 (fun w hw => (h w hw).no_blank) hne]
  exact List.filter_eq_self.mpr fun w hw => by simp [(h w hw).nonempty]

theorem not_mem_intercalate {words : List Bytes} {b : UInt8} (hb : b ≠ 32)
    (h : ∀ w ∈ words, b ∉ w) : b ∉ [32].intercalate words := by
  induction words with
  | nil => simp
  | cons w words ih =>
    obtain ⟨hw,hwords⟩ := List.forall_mem_cons.mp h
    cases words with
    | nil => simpa using hw
    | cons w' words =>
      rw [List.intercalate_cons_cons,List.mem_append,List.mem_append,List.mem_singleton]
      rintro ((hmem | rfl) | hmem)
      · exact hw hmem
      · exact hb rfl
      · exact ih hwords hmem

theorem takeLine_words {words : List Bytes} (hne : words ≠ []) (h : ∀ w ∈ words, IsWord w)
    (rest : Bytes) : ∃ line, takeLine ([32].intercalate words ++ [13,10] ++ rest) = some (line,rest) ∧
      tokens (chomp line) = words := by
  refine ⟨[32].intercalate words ++ [13],?_,by rw [chomp_append,tokens_intercalate hne h]⟩
  have hline : (10 : UInt8) ∉ [32].intercalate words ++ [13] := by
    rw [List.mem_append,not_or]
    exact ⟨not_mem_intercalate (by decide) fun w hw => (h w hw).no_newline,by decide⟩
  have htake := takeLine_append hline rest
  simpa using htake

end Lines

section Commands

theorem parse_of_next {bs : Bytes} {c : Command} (hne : bs ≠ []) (h : next bs = (c,[])) :
    parse bs = [c] := by
  cases bs with
  | nil => exact absurd rfl hne
  | cons b bs =>
    rw [parse,List.length_cons,parseWithin,h]
    cases bs <;> rfl

theorem parse_words {words : List Bytes} {c : Command} (hwords : ∀ w ∈ words, IsWord w)
    (h : commandLine words = some (.whole c)) : parse ([32].intercalate words ++ [13,10]) = [c] := by
  have hne : words ≠ [] := by
    rintro rfl
    cases h
  obtain ⟨line,htake,htokens⟩ := takeLine_words hne hwords []
  rw [List.append_nil] at htake
  refine parse_of_next (by simp) ?_
  rw [next,htake]
  dsimp only
  rw [htokens,h]

theorem parse_words_data {words : List Bytes} {key data : Bytes} {flags : ℕ} {exptime : Int}
    {quiet : Bool} (hwords : ∀ w ∈ words, IsWord w)
    (h : commandLine words = some (.stores key flags exptime data.length quiet)) :
    parse ([32].intercalate words ++ [13,10] ++ (data ++ [13,10])) =
      [.set key flags exptime quiet data] := by
  have hne : words ≠ [] := by
    rintro rfl
    cases h
  obtain ⟨line,htake,htokens⟩ := takeLine_words hne hwords (data ++ [13,10])
  refine parse_of_next (by simp) ?_
  rw [next,htake]
  dsimp only
  rw [htokens,h]
  simp

def Line.keys : Line → List Bytes
  | .whole c => c.keys
  | .stores key .. => [key]

theorem keys_commandLine {words : List Bytes} {l : Line} (h : commandLine words = some l) :
    ∀ k ∈ l.keys, validKey k = true := by
  unfold commandLine at h
  split at h
  · cases h
  · split_ifs at h
    · unfold getLine at h
      split_ifs at h with hargs
      cases h
      simp only [Bool.or_eq_true,not_or,Bool.not_eq_true,Bool.not_eq_false'] at hargs
      exact List.all_eq_true.mp hargs.2
    · unfold setLine at h
      split at h
      · split_ifs at h with hkey
        simp only [Option.bind_eq_bind,Option.bind_eq_some_iff,Option.some.injEq] at h
        obtain ⟨_,_,_,_,_,_,_,_,rfl⟩ := h
        simpa [Line.keys] using hkey
      · cases h
    · unfold deleteLine at h
      split at h
      · split_ifs at h with hkey
        simp only [Option.bind_eq_bind,Option.bind_eq_some_iff,Option.some.injEq] at h
        obtain ⟨_,_,rfl⟩ := h
        simpa [Line.keys,Command.keys] using hkey
      · cases h
    · unfold touchLine at h
      split at h
      · split_ifs at h with hkey
        simp only [Option.bind_eq_bind,Option.bind_eq_some_iff,Option.some.injEq] at h
        obtain ⟨_,_,_,_,rfl⟩ := h
        simpa [Line.keys,Command.keys] using hkey
      · cases h

theorem keys_next (bs : Bytes) : ∀ k ∈ (next bs).1.keys, validKey k = true := by
  unfold next
  split
  · simp [Command.keys]
  · split
    · simp [Command.keys]
    · rename_i hline
      exact keys_commandLine hline
    · rename_i hline
      split_ifs
      · simp [Command.keys]
      · exact keys_commandLine hline
      · simp [Command.keys]

theorem keys_parse {bs : Bytes} {c : Command} (h : c ∈ parse bs) :
    ∀ k ∈ c.keys, validKey k = true := by
  have hwithin : ∀ n bs, c ∈ parseWithin n bs → ∀ k ∈ c.keys, validKey k = true := by
    intro n
    induction n with
    | zero => intro bs hc; cases hc
    | succ n ih =>
      intro bs hc
      cases bs with
      | nil => cases hc
      | cons b bs =>
        rw [parseWithin,List.mem_cons] at hc
        rcases hc with rfl | hc
        · exact keys_next _
        · exact ih _ hc
  exact hwithin _ _ h

end Commands

end Nimburion.Memcached
