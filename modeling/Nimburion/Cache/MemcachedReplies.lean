import Nimburion.Cache.Memcached
import Nimburion.Lib.ByteText

-- memcachedkit.Client over a connection whose server sends any finite bytes
namespace Nimburion.Cache.Memcachedkit
open GoTime Memcached
open ByteText (fields Plain fields_plain fields_append_blank trimSpace_crlf)

variable {ε : Type}

structure Conn (ε : Type) where
  setDeadline : Time → Option ε
  write : ℕ → Option ε
  -- what the server sends, and what a read behind it gives: none is io.EOF
  reply : Bytes
  ended : Option ε
  close : Option ε

inductive ClientError (ε : Type) where
  | conn (e : ε)
  | joined (e closeErr : ε)
  | eof
  | unexpectedEOF
  | notFound
  | size (e : Decimal.NumError)
  | reply (text : String) (line : Bytes)
  deriving DecidableEq, Repr

-- what a call returns, with nil for no bytes
inductive Outcome (ε : Type) where
  | returned (data : Bytes) (err : Option (ClientError ε))
  | panicked
  deriving DecidableEq, Repr

def fail (e : ClientError ε) : Outcome ε := .returned [] (some e)

structure Client where
  addresses : List String
  timeout : Duration
  nonempty : addresses ≠ []

def newClientWithDial (addresses : List String) (timeout : Duration) : Except String Client :=
  if addresses = [] then .error "at least one memcached address is required"
  else
    if h : (addresses.map GoText.trimSpace).filter (· ≠ "") = [] then
      .error "at least one non-empty memcached address is required"
    else .ok ⟨_,if timeout ≤ 0 then 500*millisecond else timeout,h⟩

def fnv32a (bs : Bytes) : UInt32 :=
  bs.foldl (fun h b => (h ^^^ b.toUInt32)*16777619) 2166136261

namespace Client

variable (c : Client)

def pickAddress (key : Bytes) : String :=
  if c.addresses.length = 1 then c.addresses.head c.nonempty
  else (c.addresses[(fnv32a key).toNat%c.addresses.length]?).getD (c.addresses.head c.nonempty)

theorem pickAddress_mem (key : Bytes) : c.pickAddress key ∈ c.addresses := by
  unfold pickAddress
  split_ifs
  · exact List.head_mem c.nonempty
  · cases h : c.addresses[(fnv32a key).toNat%c.addresses.length]? with
    | none => exact List.head_mem c.nonempty
    | some address => exact List.mem_of_getElem? h

def deadline (now : Time) (ctx : Option Time) : Time := match ctx with
  | some t => if t < now+c.timeout then t else now+c.timeout
  | none => now+c.timeout

def connect (dial : String → Except ε (Conn ε)) (now : Time) (ctx : Option Time) (key : Bytes) :
    Except (ClientError ε) (Conn ε) :=
  match dial (c.pickAddress key) with
  | .error e => .error (.conn e)
  | .ok conn => match conn.setDeadline (c.deadline now ctx) with
      | none => .ok conn
      | some e => match conn.close with
          | some closeErr => .error (.joined e closeErr)
          | none => .error (.conn e)

end Client

def trimmed (raw : Bytes) : Bytes := ByteText.trimSpace (raw ++ [10])

def atoi (bs : Bytes) : Except Decimal.NumError Int64 :=
  Decimal.atoi (String.ofList (bs.map fun b => Char.ofNat b.toNat))

namespace Conn

variable (conn : Conn ε)

-- the deferred close overwrites a nil error only
def closing : Outcome ε → Outcome ε
  | .returned data none => .returned data (conn.close.map .conn)
  | out => out

def writes (n : ℕ) : Option ε := (List.range n).findSome? conn.write

-- what ReadString returns when the delimiter does not come
def readErr : ClientError ε := match conn.ended with
  | none => .eof
  | some e => .conn e

-- io.ReadFull on fewer bytes than asked for
def readFullErr (rest : Bytes) : ClientError ε := match conn.ended with
  | none => if rest = [] then .eof else .unexpectedEOF
  | some e => .conn e

def terminated (size : Int64) (payload rest : Bytes) : Outcome ε :=
  match takeLine rest with
  | none => fail conn.readErr
  | some (raw,_) =>
      if trimmed raw ≠ ascii "END" then
        fail (.reply "unexpected memcached terminator: " (trimmed raw))
      else if size < 0 then .panicked
      else .returned (payload.take size.toNatClampNeg) none

-- make panics on a negative length and on one beyond what the runtime can allocate
def payload (maxAlloc : ℕ) (size : Int64) (rest : Bytes) : Outcome ε :=
  if size+2 < 0 ∨ maxAlloc < (size+2).toNatClampNeg then .panicked
  else if rest.length < (size+2).toNatClampNeg then fail (conn.readFullErr rest)
  else conn.terminated size (rest.take (size+2).toNatClampNeg) (rest.drop (size+2).toNatClampNeg)

def header (maxAlloc : ℕ) (line rest : Bytes) : Outcome ε :=
  match fields line with
  | [verb,_,_,size] =>
      if verb ≠ ascii "VALUE" then fail (.reply "unexpected memcached response: " line)
      else match atoi size with
        | .error e => fail (.size e)
        | .ok n => conn.payload maxAlloc n rest
  | _ => fail (.reply "unexpected memcached response: " line)

def get (maxAlloc : ℕ) : Outcome ε :=
  match conn.writes 1 with
  | some e => fail (.conn e)
  | none => match takeLine conn.reply with
      | none => fail conn.readErr
      | some (raw,rest) =>
          if trimmed raw = ascii "END" then fail .notFound
          else conn.header maxAlloc (trimmed raw) rest

-- the other calls write, read one line and compare it
def answered (writes : ℕ) (verdict : Bytes → Option (ClientError ε)) : Outcome ε :=
  match conn.writes writes with
  | some e => fail (.conn e)
  | none => match takeLine conn.reply with
      | none => fail conn.readErr
      | some (raw,_) => .returned [] (verdict (trimmed raw))

def set : Outcome ε := conn.answered 3 fun line =>
  if line ≠ ascii "STORED" then some (.reply "memcached set failed: " line) else none

def delete : Outcome ε := conn.answered 1 fun line =>
  if line = ascii "DELETED" then none
  else if line = ascii "NOT_FOUND" then some .notFound
  else some (.reply "unexpected memcached delete response: " line)

def touch : Outcome ε := conn.answered 1 fun line =>
  if line = ascii "TOUCHED" then none
  else if line = ascii "NOT_FOUND" then some .notFound
  else some (.reply "unexpected memcached touch response: " line)

def serve (maxAlloc : ℕ) : Call → Outcome ε
  | .get _ => conn.get maxAlloc
  | .set .. => conn.set
  | .delete _ => conn.delete
  | .touch .. => conn.touch

end Conn

def Client.run (c : Client) (dial : String → Except ε (Conn ε)) (maxAlloc : ℕ) (now : Time)
    (ctx : Option Time) (call : Call) : Outcome ε :=
  match c.connect dial now ctx call.key with
  | .error e => fail e
  | .ok conn => conn.closing (conn.serve maxAlloc call)

-- a header line whose size make or the slice expression cannot take
def BadSize (maxAlloc : ℕ) (n : Int64) (rest : Bytes) : Prop :=
  n+2 < 0 ∨ maxAlloc < (n+2).toNatClampNeg ∨
    n < 0 ∧ (n+2).toNatClampNeg ≤ rest.length ∧
      ∃ raw more, takeLine (rest.drop (n+2).toNatClampNeg) = some (raw,more) ∧
        trimmed raw = ascii "END"

def Breaks (maxAlloc : ℕ) (reply : Bytes) : Prop :=
  ∃ raw rest key flags size n, takeLine reply = some (raw,rest) ∧
    fields (trimmed raw) = [ascii "VALUE",key,flags,size] ∧ atoi size = .ok n ∧
    BadSize maxAlloc n rest

section Panics

variable (conn : Conn ε) (maxAlloc : ℕ)

theorem fail_ne_panicked (e : ClientError ε) : fail e ≠ Outcome.panicked := by
  intro h
  cases h

theorem closing_panicked_iff (out : Outcome ε) :
    conn.closing out = .panicked ↔ out = .panicked := by
  rcases out with ⟨data,_ | err⟩ | _ <;> simp [Conn.closing]

theorem answered_ne_panicked (writes : ℕ) (verdict : Bytes → Option (ClientError ε)) :
    conn.answered writes verdict ≠ .panicked := by
  unfold Conn.answered
  split
  · exact fail_ne_panicked _
  · split
    · exact fail_ne_panicked _
    · intro h
      cases h

theorem terminated_panicked_iff (size : Int64) (payload rest : Bytes) :
    conn.terminated size payload rest = .panicked ↔
      size < 0 ∧ ∃ raw more, takeLine rest = some (raw,more) ∧ trimmed raw = ascii "END" := by
  unfold Conn.terminated
  cases takeLine rest with
  | none => simp [fail]
  | some line =>
    obtain ⟨raw,more⟩ := line
    dsimp only
    split_ifs with hend hneg
    · simp [fail,hend]
    · simpa [hneg] using hend
    · simp [hneg]

theorem payload_panicked_iff (size : Int64) (rest : Bytes) :
    conn.payload maxAlloc size rest = .panicked ↔ BadSize maxAlloc size rest := by
  unfold Conn.payload BadSize
  split_ifs with halloc hshort
  · simp only [true_iff]
    exact halloc.elim .inl fun h => .inr (.inl h)
  · have hlong : ¬ (size+2).toNatClampNeg ≤ rest.length := Nat.not_le.mpr hshort
    obtain ⟨hneg,hbig⟩ := not_or.mp halloc
    simp [fail,hneg,hbig,hlong]
  · have hlong : (size+2).toNatClampNeg ≤ rest.length := Nat.not_lt.mp hshort
    obtain ⟨hneg,hbig⟩ := not_or.mp halloc
    simp [terminated_panicked_iff,hneg,hbig,hlong]

theorem header_panicked_iff (line rest : Bytes) :
    conn.header maxAlloc line rest = .panicked ↔ ∃ key flags size n,
      fields line = [ascii "VALUE",key,flags,size] ∧ atoi size = .ok n ∧
        BadSize maxAlloc n rest := by
  unfold Conn.header
  split
  · rename_i verb key flags size hfields
    rw [hfields]
    split_ifs with hverb
    · simp [fail,hverb]
    · obtain rfl := not_not.mp hverb
      cases hatoi : atoi size with
      | error e => simp [fail,hatoi]
      | ok n => simp [payload_panicked_iff,hatoi]
  · rename_i hshape
    refine iff_of_false (fail_ne_panicked _) ?_
    rintro ⟨key,flags,size,_,hfields,-⟩
    exact hshape _ _ _ _ hfields

theorem get_panicked_iff :
    conn.get maxAlloc = .panicked ↔ conn.writes 1 = none ∧ Breaks maxAlloc conn.reply := by
  unfold Conn.get Breaks
  cases conn.writes 1 with
  | some e => simp [fail]
  | none =>
    cases takeLine conn.reply with
    | none => simp [fail]
    | some line =>
      obtain ⟨raw,rest⟩ := line
      dsimp only
      split_ifs with hend
      · have hfields : fields (ascii "END") = [ascii "END"] := by decide
        simp only [true_and]
        refine iff_of_false (fail_ne_panicked _) ?_
        rintro ⟨raw',rest',key,flags,size,n,hline,hheader,-⟩
        cases hline
        rw [hend,hfields] at hheader
        exact absurd (congrArg List.length hheader) (by simp)
      · rw [header_panicked_iff]
        constructor
        · rintro ⟨key,flags,size,n,h⟩
          exact ⟨rfl,raw,rest,key,flags,size,n,rfl,h⟩
        · rintro ⟨-,raw',rest',key,flags,size,n,hline,h⟩
          cases hline
          exact ⟨key,flags,size,n,h⟩

end Panics

-- what a compliant server holds under a key; a data block is one []byte
structure Item where
  flags : ℕ
  data : Bytes
  fits : data.length < 2^63

def headerLine (key : Bytes) (item : Item) : Bytes :=
  ascii "VALUE" ++ 32 :: (key ++ 32 :: (digits item.flags ++ 32 :: digits item.data.length))

def itemReply (key : Bytes) (item : Item) : Bytes :=
  headerLine key item ++ ascii "\r\n" ++ item.data ++ ascii "\r\n"

def getReply (held : Bytes → Option Item) (keys : List Bytes) : Bytes :=
  (keys.flatMap fun key => match held key with
    | some item => itemReply key item
    | none => []) ++ ascii "END\r\n"

def Compliant (held : Bytes → Option Item) (request reply : Bytes) : Prop :=
  ∀ keys, parse request = [.get keys] → getReply held keys <+: reply

section Hits

variable {key : Bytes} {item : Item}

theorem plain_digits (n : ℕ) : Plain (digits n) := by
  intro b hb
  have hdigit := isDigit_of_mem_digits hb
  simp only [isDigit,Bool.and_eq_true,decide_eq_true_eq,UInt8.le_iff_toNat_le] at hdigit
  obtain ⟨hlow,hhigh⟩ := hdigit
  have h48 : (48 : UInt8).toNat = 48 := rfl
  have h57 : (57 : UInt8).toNat = 57 := rfl
  refine ⟨UInt8.lt_iff_toNat_lt.mpr (Nat.lt_of_le_of_lt hhigh (by decide)),?_⟩
  have hblank : b ≠ 32 := by
    rintro rfl
    exact absurd hlow (by decide)
  have hcontrol : ¬ b ≤ 13 := fun h =>
    absurd (Nat.le_trans hlow (UInt8.le_iff_toNat_le.mp h)) (by decide)
  simp [ByteText.asciiSpace,hblank,hcontrol]

theorem fields_headerLine (key : Bytes) (item : Item) : fields (headerLine key item) =
    ascii "VALUE" :: (fields key ++ [digits item.flags,digits item.data.length]) := by
  have hverb : fields (ascii "VALUE") = [ascii "VALUE"] := by decide
  rw [headerLine,fields_append_blank,fields_append_blank,fields_append_blank,hverb,
    fields_plain (plain_digits _) (digits_ne_nil _),fields_plain (plain_digits _) (digits_ne_nil _)]
  rfl

theorem trimmed_headerLine (key : Bytes) (item : Item) :
    trimmed (headerLine key item ++ [13]) = headerLine key item := by
  obtain ⟨init,b,hlast⟩ := List.eq_nil_or_concat'
    (digits item.data.length) |>.resolve_left (digits_ne_nil _)
  have hb : b ∈ digits item.data.length := by simp [hlast]
  have hplain : Plain [b] := by
    intro x hx
    rw [List.mem_singleton.mp hx]
    exact plain_digits _ b hb
  have hbody : ∃ mid, headerLine key item = 86 :: mid ++ [b] := by
    refine ⟨ascii "ALUE" ++ 32 :: (key ++ 32 :: (digits item.flags ++ 32 :: init)),?_⟩
    rw [headerLine,hlast]
    simp [ascii]
  have htrim := trimSpace_crlf (by decide) hplain hbody
  rw [trimmed,List.append_assoc]
  exact htrim

theorem atoi_digits {n : ℕ} (h : n < 2^63) : atoi (digits n) = .ok (Int64.ofNat n) := by
  have hnat : (Int64.ofNat n).toInt = n := Int64.toInt_ofNat_of_lt h
  have hnonneg : 0 ≤ Int64.ofNat n := by
    rw [Int64.le_iff_toInt_le,hnat]
    exact Int.natCast_nonneg n
  have hback : ∀ c ∈ Nat.toDigits 10 n, Char.ofNat (UInt8.ofNat c.toNat).toNat = c := by
    intro c hc
    rw [(digitByte (Decimal.allDigits_toDigits n c hc)).2,Char.ofNat_toNat]
  have hchars : (digits n).map (fun b => Char.ofNat b.toNat) = Nat.toDigits 10 n := by
    rw [digits,List.map_map]
    exact (List.map_congr_left hback).trans (List.map_id _)
  have hitoa := Decimal.atoi_itoa hnonneg
  rw [Decimal.itoa_of_nonneg hnonneg,hnat,Int.natAbs_natCast] at hitoa
  rw [atoi,hchars,hitoa]

theorem takeLine_hit (hkey : validKey key = true) (item : Item) (rest : Bytes) :
    takeLine (headerLine key item ++ ascii "\r\n" ++ rest) =
      some (headerLine key item ++ [13],rest) := by
  have hline : (10 : UInt8) ∉ headerLine key item ++ [13] := by
    have hdigits : ∀ n, (10 : UInt8) ∉ digits n := fun n => (isWord_digits n).no_newline
    have hverb : (10 : UInt8) ∉ ascii "VALUE" := by decide
    simp [headerLine,hdigits,hverb,(isWord_of_validKey hkey).no_newline]
  have htake := takeLine_append hline rest
  have hcrlf : ascii "\r\n" = [13,10] := by decide
  rw [hcrlf]
  simpa using htake

theorem size_add_two {n : ℕ} (hn : n < 2^63) (h : ¬ Int64.ofNat n+2 < 0) :
    (Int64.ofNat n+2).toNatClampNeg = n+2 := by
  have hnat : (Int64.ofNat n).toInt = n := Int64.toInt_ofNat_of_lt hn
  have hsum : (Int64.ofNat n+2).toInt = ((n : Int)+2).bmod (2^64) := by
    rw [Int64.toInt_add,hnat]
    rfl
  rw [Int64.lt_iff_toInt_lt,hsum] at h
  have hzero : (0 : Int64).toInt = 0 := rfl
  rw [hzero,Int.bmod_def] at h
  rw [Int64.toNatClampNeg,hsum,Int.bmod_def]
  split_ifs at h ⊢ <;> omega

theorem payload_hit (conn : Conn ε) {maxAlloc : ℕ} {more : Bytes}
    (h : ¬ BadSize maxAlloc (Int64.ofNat item.data.length)
      (item.data ++ ascii "\r\n" ++ (ascii "END\r\n" ++ more))) :
    conn.payload maxAlloc (Int64.ofNat item.data.length)
      (item.data ++ ascii "\r\n" ++ (ascii "END\r\n" ++ more)) = .returned item.data none := by
  have hneg : ¬ Int64.ofNat item.data.length+2 < 0 := fun hneg => h (.inl hneg)
  have hbig : ¬ maxAlloc < (Int64.ofNat item.data.length+2).toNatClampNeg :=
    fun hbig => h (.inr (.inl hbig))
  have hsize := size_add_two item.fits hneg
  have hnat : (Int64.ofNat item.data.length).toInt = item.data.length :=
    Int64.toInt_ofNat_of_lt item.fits
  have hpos : ¬ Int64.ofNat item.data.length < 0 := by
    rw [Int64.lt_iff_toInt_lt,hnat]
    exact Int.not_lt.mpr (Int.natCast_nonneg _)
  have hlen : (item.data ++ ascii "\r\n").length = item.data.length+2 := by
    rw [List.length_append]
    rfl
  have hline : (10 : UInt8) ∉ ascii "END\r" := by decide
  have htake : takeLine (ascii "END\r\n" ++ more) = some (ascii "END\r",more) :=
    takeLine_append hline more
  have hend : trimmed (ascii "END\r") = ascii "END" := by decide
  rw [Conn.payload,if_neg (not_or.mpr ⟨hneg,hbig⟩),hsize,← hlen,List.take_left,List.drop_left,
    if_neg (by simp),Conn.terminated,htake]
  dsimp only
  rw [if_neg (not_not.mpr hend),if_neg hpos,Int64.toNatClampNeg,hnat,Int.toNat_natCast,
    List.take_left]

-- strings.Fields must see the echoed key as one word
theorem get_hit_iff (conn : Conn ε) {maxAlloc : ℕ} (hkey : validKey key = true)
    (hwrites : conn.writes 1 = none)
    (hreply : itemReply key item ++ ascii "END\r\n" <+: conn.reply)
    (hok : ¬ Breaks maxAlloc conn.reply) :
    conn.get maxAlloc = .returned item.data none ↔ (fields key).length = 1 := by
  obtain ⟨more,hmore⟩ := hreply
  have hbytes : conn.reply = headerLine key item ++ ascii "\r\n" ++
      (item.data ++ ascii "\r\n" ++ (ascii "END\r\n" ++ more)) := by
    rw [← hmore,itemReply]
    simp only [List.append_assoc]
  have htake := takeLine_hit hkey item
    (item.data ++ ascii "\r\n" ++ (ascii "END\r\n" ++ more))
  rw [← hbytes] at htake
  have hfields := fields_headerLine key item
  have hnotend : headerLine key item ≠ ascii "END" := by
    simp [headerLine,ascii]
  rw [Conn.get,hwrites]
  dsimp only
  rw [htake]
  dsimp only
  rw [trimmed_headerLine,if_neg hnotend,Conn.header]
  constructor
  · intro h
    split at h
    · rename_i verb k flags size hshape
      rw [hfields] at hshape
      have hlen := congrArg List.length hshape
      simpa using hlen
    · simp [fail] at h
  · intro hone
    obtain ⟨word,hword⟩ := List.length_eq_one_iff.mp hone
    have hatoi := atoi_digits item.fits
    have hsize : ¬ BadSize maxAlloc (Int64.ofNat item.data.length)
        (item.data ++ ascii "\r\n" ++ (ascii "END\r\n" ++ more)) := by
      intro hbad
      refine hok ⟨_,_,word,digits item.flags,_,_,htake,?_,hatoi,hbad⟩
      rw [trimmed_headerLine,hfields,hword]
      rfl
    rw [hfields,hword]
    simp only [List.cons_append,List.nil_append,ne_eq,not_true_eq_false,if_false,hatoi]
    exact payload_hit conn hsize

end Hits

section Soundness

variable (c : Client) (dial : String → Except ε (Conn ε)) (maxAlloc : ℕ) (now : Time)
  (ctx : Option Time)

-- the connection works and its server, which read the request, holds the item under the key
structure Holding (conn : Conn ε) (key : Bytes) (item : Item) : Prop where
  dialed : c.connect dial now ctx key = .ok conn
  valid : validKey key = true
  writes : conn.writes 1 = none
  close : conn.close = none
  answer : ∃ held : Bytes → Option Item, held key = some item ∧
    Compliant held ((Call.get key).write now) conn.reply

def ReadsBack (call : Call) : Prop :=
  ∀ key conn item, call = .get key → Holding c dial now ctx conn key item →
    c.run dial maxAlloc now ctx call = .returned item.data none

structure Sound (call : Call) : Prop where
  survives : c.run dial maxAlloc now ctx call ≠ .panicked
  readsBack : ReadsBack c dial maxAlloc now ctx call

structure Harmless (key : Bytes) (conn : Conn ε) : Prop where
  sized : conn.writes 1 = none → ¬ Breaks maxAlloc conn.reply
  oneWord : ∀ item, Holding c dial now ctx conn key item → (fields key).length = 1

variable {c dial maxAlloc now ctx}

theorem itemReply_of_holding {conn : Conn ε} {key : Bytes} {item : Item}
    (h : Holding c dial now ctx conn key item) :
    itemReply key item ++ ascii "END\r\n" <+: conn.reply := by
  obtain ⟨held,hheld,hanswer⟩ := h.answer
  have hreply := hanswer [key] (parse_get h.valid)
  simpa [getReply,hheld] using hreply

theorem run_of_dialed (call : Call) {conn : Conn ε}
    (h : c.connect dial now ctx call.key = .ok conn) :
    c.run dial maxAlloc now ctx call = conn.closing (conn.serve maxAlloc call) := by
  rw [Client.run,h]

theorem run_get_panicked_iff {key : Bytes} {conn : Conn ε}
    (h : c.connect dial now ctx key = .ok conn) :
    c.run dial maxAlloc now ctx (.get key) = .panicked ↔
      conn.writes 1 = none ∧ Breaks maxAlloc conn.reply := by
  rw [run_of_dialed (.get key) h,closing_panicked_iff]
  exact get_panicked_iff conn maxAlloc

theorem run_get_returned_iff {key : Bytes} {conn : Conn ε} {item : Item}
    (h : Holding c dial now ctx conn key item) :
    c.run dial maxAlloc now ctx (.get key) = .returned item.data none ↔
      conn.get maxAlloc = .returned item.data none := by
  rw [run_of_dialed (.get key) h.dialed]
  change conn.closing (conn.get maxAlloc) = _ ↔ _
  rcases conn.get maxAlloc with ⟨data,_ | err⟩ | _ <;> simp [Conn.closing,h.close]

theorem serve_ne_panicked (conn : Conn ε) {call : Call} (h : ∀ key, call ≠ .get key) :
    conn.serve maxAlloc call ≠ .panicked := by
  cases call with
  | get key => exact absurd rfl (h key)
  | set key value ttl =>
    rw [Conn.serve,Conn.set]
    exact answered_ne_panicked conn _ _
  | delete key =>
    rw [Conn.serve,Conn.delete]
    exact answered_ne_panicked conn _ _
  | touch key ttl =>
    rw [Conn.serve,Conn.touch]
    exact answered_ne_panicked conn _ _

theorem run_other_ne_panicked {call : Call} (h : ∀ key, call ≠ .get key) :
    c.run dial maxAlloc now ctx call ≠ .panicked := by
  unfold Client.run
  split
  · exact fail_ne_panicked _
  · rename_i conn hconn
    rw [ne_eq,closing_panicked_iff]
    exact serve_ne_panicked conn h

theorem sound_iff_harmless (c : Client) (dial : String → Except ε (Conn ε)) (maxAlloc : ℕ)
    (now : Time) (ctx : Option Time) (call : Call) :
    Sound c dial maxAlloc now ctx call ↔
      ∀ key conn, call = .get key → c.connect dial now ctx key = .ok conn →
        Harmless c dial maxAlloc now ctx key conn := by
  constructor
  · rintro ⟨hsurvives,hback⟩ key conn rfl hconn
    have hsized : conn.writes 1 = none → ¬ Breaks maxAlloc conn.reply := fun hwrites hbreaks =>
      hsurvives ((run_get_panicked_iff hconn).mpr ⟨hwrites,hbreaks⟩)
    refine ⟨hsized,fun item hholding => ?_⟩
    have hget := (run_get_returned_iff hholding).mp (hback key conn item rfl hholding)
    exact (get_hit_iff conn hholding.valid hholding.writes (itemReply_of_holding hholding)
      (hsized hholding.writes)).mp hget
  · intro h
    by_cases hget : ∃ key, call = .get key
    · obtain ⟨key,rfl⟩ := hget
      constructor
      · cases hconn : c.connect dial now ctx key with
        | error e =>
          rw [Client.run,Call.key,hconn]
          exact fail_ne_panicked e
        | ok conn =>
          rw [ne_eq,run_get_panicked_iff hconn]
          exact fun hbad => (h key conn rfl hconn).sized hbad.1 hbad.2
      · rintro key' conn item heq hholding
        cases heq
        have hharmless := h key conn rfl hholding.dialed
        rw [run_get_returned_iff hholding]
        exact (get_hit_iff conn hholding.valid hholding.writes (itemReply_of_holding hholding)
          (hharmless.sized hholding.writes)).mpr (hharmless.oneWord item hholding)
    · refine ⟨run_other_ne_panicked fun key heq => hget ⟨key,heq⟩,?_⟩
      intro key conn item heq
      exact absurd ⟨key,heq⟩ hget

end Soundness

-- a server that answers any get with a negative size
def hostile : Conn Unit :=
  ⟨fun _ => none,fun _ => none,ascii "VALUE k 0 -3\r\n",none,none⟩

def localClient : Client := ⟨["127.0.0.1:11211"],500*millisecond,by decide⟩

theorem negative_size_panics :
    ¬ ∀ (c : Client) (dial : String → Except Unit (Conn Unit)) (maxAlloc : ℕ) (now : Time)
      (ctx : Option Time) (call : Call), Sound c dial maxAlloc now ctx call := by
  intro h
  have hrun : localClient.run (fun _ => .ok hostile) (2^48) 0 none (.get (ascii "k")) =
      .panicked := by
    decide +kernel
  exact (h localClient (fun _ => .ok hostile) (2^48) 0 none (.get (ascii "k"))).survives hrun

end Nimburion.Cache.Memcachedkit
