import Nimburion.HTTP.Compression

namespace Nimburion.HTTP.Compression
open GoText NetHTTP CompressResponseWriter
open HTTP.Cache (Header)

section Codings

def contentEncoding (h : Header) : List String := (h.lookup "Content-Encoding").getD []

def blank (codings : List String) : Bool := codings.all fun v => trimSpace v = ""

-- two values of Content-Encoding that every client undoes alike
def sameCoding (c d : List String) : Bool := c = d || (blank c && blank d)

theorem decode_of_blank (codec : Codec) {c : List String} (h : blank c = true) (b : Bytes) :
    codec.decode c b = some b :=
  codec.decode_blank c b (by simpa [blank] using h)

theorem decode_of_same (codec : Codec) {c d : List String} (h : sameCoding c d = true) (b : Bytes) :
    codec.decode c b = codec.decode d b := by
  simp only [sameCoding,Bool.or_eq_true,decide_eq_true_eq,Bool.and_eq_true] at h
  rcases h with rfl | ⟨hc,hd⟩
  · rfl
  · rw [decode_of_blank codec hc,decode_of_blank codec hd]

theorem content_append (xs ys : List Piece) : content (xs ++ ys) = content xs ++ content ys := by
  induction xs with
  | nil => rfl
  | cons piece xs ih =>
    cases piece with
    | data p => simp [content,ih]
    | flush => simp [content,ih]

theorem bodyAllowed_iff (code : ℕ) : bodyAllowedForStatus code = true ↔ noBodyStatus code = false := by
  simp only [bodyAllowedForStatus,noBodyStatus,Bool.not_eq_true',Bool.or_eq_false_iff,
    Bool.and_eq_false_iff,decide_eq_false_iff_not]
  omega

theorem informational_false {code : ℕ} (h : noBodyStatus code = false) :
    informational code = false := by
  simp only [noBodyStatus,Bool.or_eq_false_iff,Bool.and_eq_false_iff,decide_eq_false_iff_not] at h
  simp only [informational,Bool.and_eq_false_iff,decide_eq_false_iff_not]
  omega

theorem lookup_set_self (h : Header) (key value : String) :
    (h.set key value).lookup key = some [value] := by
  rw [Header.set,Header.put,List.lookup_append,Header.lookup_del_self]
  simp

theorem lookup_set_of_ne (h : Header) {key key' : String} (value : String) (hne : key' ≠ key) :
    (h.set key value).lookup key' = h.lookup key' := by
  have hlast : ([(key,[value])] : Header).lookup key' = none := by simp [hne]
  rw [Header.set,Header.put,List.lookup_append,Header.lookup_del_of_ne h hne,hlast,Option.or_none]

theorem contentEncoding_appendVary {F : Type} (lib : Library F) (h : Header) (value : String) :
    contentEncoding (appendVary lib h value) = contentEncoding h := by
  unfold appendVary contentEncoding
  dsimp only
  split_ifs
  · rw [lookup_set_of_ne h _ (by decide)]
  · rfl
  · rw [lookup_set_of_ne h _ (by decide)]

theorem contentEncoding_encodedHeader {F : Type} (lib : Library F) (w : CompressResponseWriter) :
    contentEncoding (w.encodedHeader lib) = [w.encoding.name] := by
  rw [encodedHeader,contentEncoding_appendVary,contentEncoding,lookup_set_self]
  rfl

end Codings

section Condition

variable {F : Type} (lib : Library F) (cfg : Config)

-- the Content-Encoding sent, or to be sent with the headers as they stand
def coding (c : Conn) : List String := contentEncoding c.sent.header

-- the decision gives the client what the plain writer c gives it
def settles (w : CompressResponseWriter) (c : Conn) : Bool :=
  if w.compresses lib cfg then
    w.base.conn.committed.isNone && (w.encoding ≠ .gzip || validGzipLevel cfg.gzipLevel) &&
      blank (coding c)
  else sameCoding (coding w.base.conn) (coding c)

def safe (w : CompressResponseWriter) (c : Conn) : Call → Bool
  | .header _ => true
  | .writeHeader status =>
      w.headerWritten || w.base.conn.committed.isSome || !informational status.code
  | .write p =>
      let w := { w with buffer := w.buffer ++ p }
      w.decided || (w.buffer.length : Int) < cfg.minSize || settles lib cfg w c
  | .flush => w.decided || w.base.conn.committed.isSome || !w.headerWritten || w.statusCode = 200

-- every call is safe, and so is the decision that Close takes
def Safe (w : CompressResponseWriter) (p : ResponseWriter) : List Call → Bool
  | [] => w.decided || settles lib cfg w p.conn
  | call :: calls => safe lib cfg w p.conn call && Safe (w.step lib cfg call) (p.step call) calls

end Condition

section Phases

-- undecided, beside the plain writer that has sent its header
structure Pending (w : CompressResponseWriter) (c : Conn) (sent : Committed) : Prop where
  panicked : w.panicked = false
  decided : w.decided = false
  fresh : w.base.written = false
  empty : w.base.conn.body = []
  status : noBodyStatus w.statusCode = false
  committed : c.committed = some sent
  allowed : bodyAllowedForStatus sent.status = true
  first : (w.base.conn.committed.map Committed.status).getD w.statusOrOK = sent.status
  buffer : w.buffer = c.body

structure Plain (w : CompressResponseWriter) (c : Conn) (sent sent' : Committed) : Prop where
  panicked : w.panicked = false
  decided : w.decided = true
  compress : w.compress = false
  written : w.base.written = true
  base : w.base.conn.committed = some sent
  committed : c.committed = some sent'
  status : sent.status = sent'.status
  coding : sameCoding (contentEncoding sent.header) (contentEncoding sent'.header) = true
  body : w.base.conn.body = c.body

structure Coded (w : CompressResponseWriter) (c : Conn) (sent sent' : Committed)
    (pieces : List Piece) : Prop where
  panicked : w.panicked = false
  decided : w.decided = true
  compress : w.compress = true
  written : w.base.written = true
  base : w.base.conn.committed = some sent
  committed : c.committed = some sent'
  status : sent.status = sent'.status
  allowed : bodyAllowedForStatus sent.status = true
  coding : contentEncoding sent.header = [w.encoding.name]
  blank : blank (contentEncoding sent'.header) = true
  empty : w.base.conn.body = []
  input : w.input = some pieces
  content : content pieces = c.body

-- decided, one way or the other
def Decided (w : CompressResponseWriter) (c : Conn) : Prop :=
  (∃ sent sent', Plain w c sent sent') ∨ ∃ sent sent' pieces, Coded w c sent sent' pieces

variable {F : Type} {lib : Library F} {cfg : Config} {w : CompressResponseWriter} {c : Conn}
  {sent : Committed}

theorem statusOrOK_body {w : CompressResponseWriter} (h : noBodyStatus w.statusCode = false) :
    noBodyStatus w.statusOrOK = false := by
  rw [statusOrOK]
  split_ifs
  · rfl
  · exact h

-- what the base has sent after its WriteHeader, if it was not written
theorem sent_of_pending (base : ResponseWriter) {code : ℕ} {status : ℕ}
    (hfresh : base.written = false) (hcode : noBodyStatus code = false)
    (hfirst : (base.conn.committed.map Committed.status).getD code = status) :
    (base.writeHeader code).conn.committed = some ⟨status,base.conn.sent.header⟩ ∧
    (base.writeHeader code).conn.body = base.conn.body ∧ (base.writeHeader code).written = true := by
  rw [ResponseWriter.writeHeader_fresh hfresh]
  cases hc : base.conn.committed with
  | none =>
    rw [hc] at hfirst
    rw [Conn.writeHeader_none hc (informational_false hcode)]
    simp only [Option.map_none,Option.getD_none] at hfirst
    refine ⟨?_,rfl,rfl⟩
    simp [Conn.sent,hc,hfirst]
  | some s =>
    rw [hc] at hfirst
    rw [Conn.writeHeader_some hc]
    simp only [Option.map_some,Option.getD_some] at hfirst
    refine ⟨?_,rfl,rfl⟩
    simp [Conn.sent,hc,← hfirst]

theorem Pending.sent_eq (h : Pending w c sent) : c.sent = sent := by
  rw [Conn.sent,h.committed]
  rfl

theorem Pending.flushPlain (h : Pending w c sent)
    (hcoding : sameCoding (coding w.base.conn) (coding c) = true) :
    Decided (flushPlainBuffer { w with decided := true, compress := false }) c := by
  obtain ⟨hbase,hbody,hwritten⟩ := sent_of_pending w.base h.fresh (statusOrOK_body h.status) h.first
  have hcommit : commitBase { w with decided := true, compress := false } =
      { w with decided := true, compress := false, base := w.base.writeHeader w.statusOrOK } := by
    rw [commitBase]
    exact if_neg (by simp [h.fresh])
  rw [coding,coding,h.sent_eq] at hcoding
  rw [flushPlainBuffer,hcommit]
  dsimp only
  split_ifs with hnil
  · refine .inl ⟨⟨sent.status,w.base.conn.sent.header⟩,sent,h.panicked,rfl,rfl,hwritten,hbase,
      h.committed,rfl,hcoding,?_⟩
    rw [hbody,h.empty,← h.buffer,hnil]
  · refine .inl ⟨⟨sent.status,w.base.conn.sent.header⟩,sent,h.panicked,rfl,rfl,?_,?_,h.committed,
      rfl,hcoding,?_⟩
    · rw [ResponseWriter.write_written hwritten]
      exact hwritten
    · rw [ResponseWriter.write_written hwritten,Conn.write_some hbase,if_pos h.allowed]
      exact hbase
    · rw [ResponseWriter.write_written hwritten,Conn.write_some hbase,if_pos h.allowed]
      simp only [hbody,h.empty,List.nil_append,h.buffer]

theorem Pending.encode (h : Pending w c sent) (hnone : w.base.conn.committed = none)
    (hlevel : (w.encoding = .gzip && !validGzipLevel cfg.gzipLevel) = false)
    (hblank : blank (coding c) = true) (hdr : Header)
    (hdrCoding : contentEncoding hdr = [w.encoding.name]) :
    Decided (startEncoder cfg (commitBase { w with
      decided := true, compress := true, base := w.base.mapHeader fun _ => hdr })).1 c ∧
    (startEncoder cfg (commitBase { w with
      decided := true, compress := true, base := w.base.mapHeader fun _ => hdr })).2 = none := by
  have hfirst := h.first
  have hfirst' : ((w.base.mapHeader fun _ => hdr).conn.committed.map Committed.status).getD
      w.statusOrOK = sent.status := hfirst
  obtain ⟨hbase,hbody,hwritten⟩ := sent_of_pending (w.base.mapHeader fun _ => hdr)
    h.fresh (statusOrOK_body h.status) hfirst'
  have hsent : (w.base.mapHeader fun _ => hdr).conn.sent.header = hdr := by
    simp [Conn.sent,ResponseWriter.mapHeader,hnone]
  have hcommit : commitBase { w with
      decided := true, compress := true, base := w.base.mapHeader fun _ => hdr } =
      { w with
        decided := true
        compress := true
        base := (w.base.mapHeader fun _ => hdr).writeHeader w.statusOrOK } := by
    rw [commitBase]
    exact if_neg (by simp [ResponseWriter.mapHeader,h.fresh])
  rw [hsent] at hbase
  rw [coding,h.sent_eq] at hblank
  have hcontent : content (if w.buffer = [] then [] else [.data w.buffer]) = c.body := by
    rw [← h.buffer]
    split_ifs with hnil
    · rw [hnil]
      rfl
    · simp [content]
  rw [hcommit,startEncoder]
  dsimp only
  rw [if_neg (by simp [hlevel])]
  refine ⟨.inr ⟨_,sent,_,h.panicked,rfl,rfl,hwritten,hbase,h.committed,rfl,h.allowed,hdrCoding,hblank,
    ?_,rfl,hcontent⟩,rfl⟩
  exact hbody.trans h.empty

theorem Pending.decide (h : Pending w c sent) (hs : settles lib cfg w c = true) :
    Decided (w.decideAndFlushBuffer lib cfg).1 c ∧ (w.decideAndFlushBuffer lib cfg).2 = none := by
  rw [decideAndFlushBuffer,if_neg (by simp [h.decided])]
  dsimp only
  rw [if_neg (by simp [h.status])]
  rw [settles] at hs
  have hsame : compresses lib cfg { w with decided := true } = w.compresses lib cfg := rfl
  rw [hsame]
  cases hcompresses : w.compresses lib cfg with
  | true =>
    rw [hcompresses,if_pos rfl] at hs
    simp only [Bool.and_eq_true,Option.isNone_iff_eq_none] at hs
    rw [if_pos rfl]
    refine h.encode hs.1.1 ?_ hs.2 _ (contentEncoding_encodedHeader lib w)
    by_contra hlevel
    simp only [Bool.not_eq_false,Bool.and_eq_true,decide_eq_true_eq,Bool.not_eq_true'] at hlevel
    have hok := hs.1.2
    simp [hlevel.1,hlevel.2] at hok
  | false =>
    rw [hcompresses,if_neg (by decide)] at hs
    rw [if_neg (by decide)]
    exact ⟨h.flushPlain hs,rfl⟩

end Phases

section PlainWriter

variable {p : ResponseWriter} {sent : Committed}

theorem conn_writeHeader (h : p.conn.committed = some sent) (code : ℕ) :
    (p.writeHeader code).conn = p.conn := by
  rw [ResponseWriter.writeHeader]
  split_ifs
  · rfl
  · exact Conn.writeHeader_some h code

theorem conn_write (h : p.conn.committed = some sent) (b : Bytes) :
    (p.write b).conn = p.conn.write b := by
  rw [ResponseWriter.write]
  dsimp only
  split_ifs
  · rfl
  · rw [conn_writeHeader h]

theorem conn_flush (h : p.conn.committed = some sent) : p.flush.conn = p.conn :=
  Conn.commit_some h 200

theorem committed_write {c : Conn} (h : c.committed = some sent) (b : Bytes) :
    (c.write b).committed = some sent := by
  rw [Conn.write_some h]
  split_ifs
  · exact h
  · exact h

theorem committed_step (h : p.conn.committed = some sent) (call : Call) :
    (p.step call).conn.committed = some sent := by
  cases call with
  | header change => exact h
  | writeHeader status => rw [ResponseWriter.step,conn_writeHeader h]; exact h
  | write b => rw [ResponseWriter.step,conn_write h]; exact committed_write h b
  | flush => rw [ResponseWriter.step,conn_flush h]; exact h

theorem coding_committed {c c' : Conn} (h : c.committed = some sent) (h' : c'.committed = some sent) :
    coding c' = coding c := by
  simp only [coding,Conn.sent,h,h',Option.getD_some]

theorem coding_writeHeader (code : ℕ) (hfresh : p.written = false)
    (hnone : p.conn.committed = none) (hcode : informational code = false) :
    (p.writeHeader code).conn.committed = some ⟨code,p.conn.header⟩ ∧
    coding (p.writeHeader code).conn = coding p.conn := by
  have heq : (p.writeHeader code).conn = { p.conn with committed := some ⟨code,p.conn.header⟩ } := by
    rw [ResponseWriter.writeHeader_fresh hfresh]
    exact Conn.writeHeader_none hnone hcode
  rw [heq]
  refine ⟨rfl,?_⟩
  simp [coding,Conn.sent,hnone]

theorem body_run (h : p.conn.committed = some sent) (calls : List Call) :
    (p.run calls).conn.committed = some sent ∧
    (p.run calls).conn.body =
      p.conn.body ++ if bodyAllowedForStatus sent.status then writes calls else [] := by
  induction calls generalizing p with
  | nil => exact ⟨h,by simp [ResponseWriter.run,writes]⟩
  | cons call calls ih =>
    obtain ⟨hsent,hbody⟩ := ih (committed_step h call)
    refine ⟨hsent,hbody.trans ?_⟩
    cases call with
    | header change => rfl
    | writeHeader status => rw [ResponseWriter.step,conn_writeHeader h]; rfl
    | write b =>
      rw [ResponseWriter.step,conn_write h,Conn.write_some h,writes]
      split_ifs
      · exact List.append_assoc _ _ _
      · rfl
    | flush => rw [ResponseWriter.step,conn_flush h]; rfl

end PlainWriter

section Steps

variable {F : Type} {lib : Library F} {cfg : Config} {w : CompressResponseWriter}
  {p : ResponseWriter}

-- nothing but headers yet
structure Fresh (w : CompressResponseWriter) (p : ResponseWriter) : Prop where
  panicked : w.panicked = false
  decided : w.decided = false
  headerWritten : w.headerWritten = false
  statusCode : w.statusCode = 0
  buffer : w.buffer = []
  base : w.base = p
  written : p.written = false
  committed : p.conn.committed = none
  body : p.conn.body = []

-- a call that wrote no header leaves it to a Flush that came first
def Held (w : CompressResponseWriter) (p : ResponseWriter) : Prop :=
  ∃ sent, Pending w p.conn sent ∧
    (w.headerWritten = true ∨ (w.base.conn.committed = p.conn.committed ∧ w.buffer = []))

def Follows (w : CompressResponseWriter) (p : ResponseWriter) : Prop :=
  Fresh w p ∨ Held w p ∨ (Decided w p.conn ∧ w.headerWritten = true)

theorem sameCoding_refl (codings : List String) : sameCoding codings codings = true := by
  simp [sameCoding]

theorem writeHeader_body {w : CompressResponseWriter} {code : ℕ} (hw : w.headerWritten = false)
    (hcode : noBodyStatus code = false) :
    w.writeHeader code = { w with statusCode := code, headerWritten := true } := by
  rw [CompressResponseWriter.writeHeader,if_neg (by simp [hw])]
  dsimp only
  rw [if_neg (by simp [hcode])]

theorem writeHeader_noBody {w : CompressResponseWriter} {code : ℕ} (hw : w.headerWritten = false)
    (hcode : noBodyStatus code = true) :
    w.writeHeader code = { w with
      statusCode := code
      headerWritten := true
      decided := true
      compress := false
      base := w.base.writeHeader code } := by
  rw [CompressResponseWriter.writeHeader,if_neg (by simp [hw])]
  dsimp only
  rw [if_pos hcode]

theorem Fresh.writeHeader (h : Fresh w p) {code : ℕ} (hpos : code ≠ 0)
    (hcode : informational code = false) :
    Follows (w.writeHeader code) (p.writeHeader code) ∧
    (noBodyStatus code = false → Held (w.writeHeader code) (p.writeHeader code)) := by
  obtain ⟨hsent,_⟩ := coding_writeHeader _ h.written h.committed hcode
  have hbody : (p.writeHeader code).conn.body = [] := by
    rw [ResponseWriter.writeHeader_fresh h.written]
    rw [Conn.writeHeader_none h.committed hcode]
    exact h.body
  have hheld : noBodyStatus code = false → Held (w.writeHeader code) (p.writeHeader code) := by
    intro hallowed
    rw [writeHeader_body h.headerWritten hallowed]
    refine ⟨_,⟨h.panicked,h.decided,?_,?_,hallowed,hsent,(bodyAllowed_iff code).mpr hallowed,?_,?_⟩,
      .inl rfl⟩
    · rw [h.base]
      exact h.written
    · rw [h.base]
      exact h.body
    · simp [h.base,h.committed,statusOrOK,hpos]
    · exact h.buffer.trans hbody.symm
  refine ⟨?_,hheld⟩
  cases hno : noBodyStatus code with
  | false => exact .inr (.inl (hheld hno))
  | true =>
    rw [writeHeader_noBody h.headerWritten hno]
    refine .inr (.inr ⟨.inl ⟨_,_,h.panicked,rfl,rfl,?_,?_,hsent,rfl,sameCoding_refl _,?_⟩,rfl⟩)
    · rw [h.base,ResponseWriter.writeHeader_fresh h.written]
    · rw [h.base]
      exact hsent
    · rw [h.base]

theorem Held.unwritten (h : Held w p) (hw : w.headerWritten = false) :
    w.buffer = [] ∧ ∃ sent, Pending w p.conn sent ∧ w.base.conn.committed = some sent := by
  obtain ⟨sent,hp,hopen | ⟨hopen,hempty⟩⟩ := h
  · rw [hw] at hopen
    cases hopen
  · exact ⟨hempty,sent,hp,hopen.trans hp.committed⟩

theorem Held.writeHeader_body (h : Held w p) {code : ℕ} (hno : noBodyStatus code = false) :
    Held (w.writeHeader code) (p.writeHeader code) := by
  cases hw : w.headerWritten with
  | true =>
    obtain ⟨sent,hp,_⟩ := h
    rw [CompressResponseWriter.writeHeader,if_pos hw]
    exact ⟨sent,by rw [conn_writeHeader hp.committed]; exact hp,.inl hw⟩
  | false =>
    obtain ⟨_,sent,hp,hsame⟩ := h.unwritten hw
    rw [Compression.writeHeader_body hw hno]
    refine ⟨sent,?_,.inl rfl⟩
    rw [conn_writeHeader hp.committed]
    refine ⟨hp.panicked,hp.decided,hp.fresh,hp.empty,hno,hp.committed,hp.allowed,?_,hp.buffer⟩
    simp [hsame]

theorem Held.writeHeader (h : Held w p) (code : ℕ) :
    Follows (w.writeHeader code) (p.writeHeader code) := by
  cases hno : noBodyStatus code with
  | false => exact .inr (.inl (h.writeHeader_body hno))
  | true =>
    cases hw : w.headerWritten with
    | true =>
      obtain ⟨sent,hp,_⟩ := h
      rw [CompressResponseWriter.writeHeader,if_pos hw]
      exact .inr (.inl ⟨sent,by rw [conn_writeHeader hp.committed]; exact hp,.inl hw⟩)
    | false =>
      obtain ⟨hempty,sent,hp,hsame⟩ := h.unwritten hw
      have hconn := conn_writeHeader hp.committed code
      rw [writeHeader_noBody hw hno]
      refine .inr (.inr ⟨.inl ⟨sent,sent,hp.panicked,rfl,rfl,?_,?_,?_,rfl,sameCoding_refl _,?_⟩,rfl⟩)
      · rw [ResponseWriter.writeHeader_fresh hp.fresh]
      · rw [conn_writeHeader hsame]
        exact hsame
      · rw [hconn]
        exact hp.committed
      · rw [conn_writeHeader hsame,hconn,hp.empty,← hp.buffer,hempty]

theorem Pending.grow {c : Conn} {sent : Committed} (h : Pending w c sent) (b : Bytes) :
    Pending { w with buffer := w.buffer ++ b } (c.write b) sent := by
  refine ⟨h.panicked,h.decided,h.fresh,h.empty,h.status,committed_write h.committed b,h.allowed,
    h.first,?_⟩
  rw [Conn.write_some h.committed,if_pos h.allowed]
  simp [h.buffer]

theorem commitBase_headerWritten (w : CompressResponseWriter) :
    w.commitBase.headerWritten = w.headerWritten := by
  rw [commitBase]
  split_ifs <;> rfl

theorem decide_headerWritten (w : CompressResponseWriter) (hw : w.headerWritten = true) :
    (w.decideAndFlushBuffer lib cfg).1.headerWritten = true := by
  rw [decideAndFlushBuffer]
  dsimp only
  split_ifs
  · exact hw
  · exact (commitBase_headerWritten _).trans hw
  · rw [startEncoder]
    split
    · exact (commitBase_headerWritten _).trans hw
    · exact (commitBase_headerWritten _).trans hw
  · rw [flushPlainBuffer]
    dsimp only
    split
    · exact (commitBase_headerWritten _).trans hw
    · exact (commitBase_headerWritten _).trans hw

theorem Held.write_opened (h : Held w p) (hw : w.headerWritten = true) (b : Bytes)
    (hs : safe lib cfg w p.conn (.write b) = true) :
    Follows (w.write lib cfg b) (p.write b) := by
  obtain ⟨sent,hp,_⟩ := h
  have hgrow := hp.grow b
  have hconn := conn_write hp.committed b
  rw [← hconn] at hgrow
  rw [CompressResponseWriter.write]
  dsimp only
  rw [if_pos hw,if_neg (by simp [hp.decided])]
  split_ifs with hsmall
  · exact .inr (.inl ⟨sent,hgrow,.inl hw⟩)
  · simp only [safe,hp.decided,hsmall,decide_false,Bool.false_or] at hs
    have hcoding : coding (p.write b).conn = coding p.conn :=
      coding_committed hp.committed hgrow.committed
    have hsettles : settles lib cfg { w with buffer := w.buffer ++ b } (p.write b).conn = true := by
      rw [settles,hcoding]
      exact hs
    exact .inr (.inr ⟨(hgrow.decide hsettles).1,decide_headerWritten _ hw⟩)

-- the first Write is a WriteHeader(200) and then the Write
theorem write_unwritten (hw : w.headerWritten = false) (b : Bytes) :
    w.write lib cfg b = (w.writeHeader 200).write lib cfg b := by
  have hopened : (w.writeHeader 200).headerWritten = true := by
    rw [writeHeader_body hw rfl]
  simp only [CompressResponseWriter.write,hw,hopened,Bool.false_eq_true,if_false,if_true]

theorem plain_write_unwritten (p : ResponseWriter) (b : Bytes) :
    (p.writeHeader 200).write b = p.write b := by
  cases hp : p.written with
  | true => rw [ResponseWriter.writeHeader_written hp]
  | false =>
    have hwritten : (p.writeHeader 200).written = true := by
      rw [ResponseWriter.writeHeader_fresh hp]
    simp only [ResponseWriter.write,hp,hwritten,Bool.false_eq_true,if_false,if_true]

theorem safe_write_unwritten (hw : w.headerWritten = false) {b : Bytes}
    (hcoding : coding (p.writeHeader 200).conn = coding p.conn)
    (hs : safe lib cfg w p.conn (.write b) = true) :
    safe lib cfg (w.writeHeader 200) (p.writeHeader 200).conn (.write b) = true := by
  rw [writeHeader_body hw rfl]
  simp only [safe,settles,hcoding] at hs ⊢
  exact hs

theorem follows_write (h : Fresh w p ∨ Held w p) (b : Bytes)
    (hs : safe lib cfg w p.conn (.write b) = true) :
    Follows (w.write lib cfg b) (p.write b) := by
  cases hw : w.headerWritten with
  | true =>
    rcases h with h | h
    · rw [h.headerWritten] at hw
      cases hw
    · exact h.write_opened hw b hs
  | false =>
    rw [write_unwritten hw,← plain_write_unwritten]
    have hopened : (w.writeHeader 200).headerWritten = true := by
      rw [writeHeader_body hw rfl]
    rcases h with h | h
    · have hcoding := (coding_writeHeader 200 h.written h.committed rfl).2
      exact ((h.writeHeader (by decide) rfl).2 rfl).write_opened hopened b
        (safe_write_unwritten hw hcoding hs)
    · obtain ⟨_,sent,hp,_⟩ := h.unwritten hw
      have hcoding : coding (p.writeHeader 200).conn = coding p.conn := by
        rw [conn_writeHeader hp.committed]
      exact (h.writeHeader_body rfl).write_opened hopened b (safe_write_unwritten hw hcoding hs)

theorem Fresh.flush (h : Fresh w p) : Follows w.flush p.flush := by
  have hconn : p.flush.conn = { p.conn with committed := some ⟨200,p.conn.header⟩ } :=
    Conn.commit_none h.committed 200
  refine .inr (.inl ⟨⟨200,p.conn.header⟩,⟨h.panicked,h.decided,?_,?_,?_,?_,rfl,?_,?_⟩,.inr ⟨?_,h.buffer⟩⟩)
  · rw [CompressResponseWriter.flush,h.base]
    exact h.written
  · rw [CompressResponseWriter.flush,h.base,hconn]
    exact h.body
  · rw [CompressResponseWriter.flush,h.statusCode]
    rfl
  · rw [hconn]
  · rw [CompressResponseWriter.flush,h.base,hconn]
    rfl
  · rw [hconn]
    exact h.buffer.trans h.body.symm
  · rw [CompressResponseWriter.flush,h.base]

theorem Held.flush (h : Held w p) (hs : safe lib cfg w p.conn .flush = true) :
    Follows w.flush p.flush := by
  obtain ⟨sent,hp,hopen⟩ := h
  have hplain : p.flush.conn = p.conn := conn_flush hp.committed
  cases hc : w.base.conn.committed with
  | some s =>
    have hsame : w.base.flush = w.base := by
      rw [ResponseWriter.flush,Conn.flush,Conn.commit_some hc]
    refine .inr (.inl ⟨sent,?_,?_⟩)
    · rw [hplain,CompressResponseWriter.flush,hsame]
      exact ⟨hp.panicked,hp.decided,hp.fresh,hp.empty,hp.status,hp.committed,hp.allowed,hp.first,
        hp.buffer⟩
    · rw [hplain,CompressResponseWriter.flush,hsame]
      exact hopen
  | none =>
    have hw : w.headerWritten = true := by
      rcases hopen with hopen | ⟨hopen,_⟩
      · exact hopen
      · rw [hc,hp.committed] at hopen
        cases hopen
    have hcode : w.statusCode = 200 := by
      simpa [safe,hp.decided,hc,hw] using hs
    have hflush : w.base.flush.conn = { w.base.conn with
        committed := some ⟨200,w.base.conn.header⟩ } := Conn.commit_none hc 200
    have hstatus : sent.status = 200 := by
      have hfirst := hp.first
      simp only [hc,Option.map_none,Option.getD_none,statusOrOK,hcode] at hfirst
      exact hfirst.symm
    refine .inr (.inl ⟨sent,?_,.inl hw⟩)
    rw [hplain,CompressResponseWriter.flush]
    refine ⟨hp.panicked,hp.decided,hp.fresh,?_,hp.status,hp.committed,hp.allowed,?_,hp.buffer⟩
    · rw [hflush]
      exact hp.empty
    · rw [hflush]
      exact hstatus.symm

variable (lib cfg) in
theorem Plain.step {sent sent' : Committed} (h : Plain w p.conn sent sent')
    (hw : w.headerWritten = true) (call : Call) :
    Plain (w.step lib cfg call) (p.step call).conn sent sent' ∧
      (w.step lib cfg call).headerWritten = true := by
  rw [step_live lib cfg h.panicked]
  cases call with
  | header change =>
    exact ⟨⟨h.panicked,h.decided,h.compress,h.written,h.base,h.committed,h.status,h.coding,h.body⟩,hw⟩
  | writeHeader status =>
    simp only [ResponseWriter.step]
    rw [CompressResponseWriter.writeHeader,if_pos hw,conn_writeHeader h.committed]
    exact ⟨h,hw⟩
  | write b =>
    simp only [ResponseWriter.step]
    rw [CompressResponseWriter.write]
    dsimp only
    rw [if_pos hw,if_pos h.decided,if_neg (by simp [h.compress]),conn_write h.committed,
      ResponseWriter.write_written h.written]
    refine ⟨⟨h.panicked,h.decided,h.compress,h.written,committed_write h.base b,
      committed_write h.committed b,h.status,h.coding,?_⟩,hw⟩
    dsimp only
    rw [Conn.write_some h.base,Conn.write_some h.committed,h.status]
    split_ifs
    · simp only [h.body]
    · exact h.body
  | flush =>
    simp only [ResponseWriter.step]
    rw [conn_flush h.committed,CompressResponseWriter.flush,ResponseWriter.flush,Conn.flush,
      Conn.commit_some h.base]
    exact ⟨⟨h.panicked,h.decided,h.compress,h.written,h.base,h.committed,h.status,h.coding,h.body⟩,hw⟩

variable (lib cfg) in
theorem Coded.step {sent sent' : Committed} {pieces : List Piece}
    (h : Coded w p.conn sent sent' pieces) (hw : w.headerWritten = true) (call : Call) :
    (∃ pieces', Coded (w.step lib cfg call) (p.step call).conn sent sent' pieces') ∧
      (w.step lib cfg call).headerWritten = true := by
  rw [step_live lib cfg h.panicked]
  cases call with
  | header change =>
    exact ⟨⟨pieces,h.panicked,h.decided,h.compress,h.written,h.base,h.committed,h.status,h.allowed,
      h.coding,h.blank,h.empty,h.input,h.content⟩,hw⟩
  | writeHeader status =>
    simp only [ResponseWriter.step]
    rw [CompressResponseWriter.writeHeader,if_pos hw,conn_writeHeader h.committed]
    exact ⟨⟨pieces,h⟩,hw⟩
  | write b =>
    simp only [ResponseWriter.step]
    rw [CompressResponseWriter.write]
    dsimp only
    rw [if_pos hw,if_pos h.decided,if_pos h.compress,h.input,conn_write h.committed]
    refine ⟨⟨_,h.panicked,h.decided,h.compress,h.written,h.base,committed_write h.committed b,h.status,
      h.allowed,h.coding,h.blank,h.empty,rfl,?_⟩,hw⟩
    rw [Conn.write_some h.committed,if_pos (h.status ▸ h.allowed),content_append,h.content]
    simp [Compression.content]
  | flush =>
    simp only [ResponseWriter.step]
    rw [conn_flush h.committed,CompressResponseWriter.flush,ResponseWriter.flush,Conn.flush,
      Conn.commit_some h.base,h.input]
    refine ⟨⟨_,h.panicked,h.decided,h.compress,h.written,h.base,h.committed,h.status,h.allowed,
      h.coding,h.blank,h.empty,rfl,?_⟩,hw⟩
    rw [content_append,h.content]
    simp [Compression.content]

theorem follows_step {call : Call} (h : Follows w p) (hs : safe lib cfg w p.conn call = true) :
    Follows (w.step lib cfg call) (p.step call) := by
  rcases h with h | h | ⟨⟨sent,sent',h⟩ | ⟨sent,sent',pieces,h⟩,hw⟩
  · rw [step_live lib cfg h.panicked]
    cases call with
    | header change =>
      refine .inl ⟨h.panicked,h.decided,h.headerWritten,h.statusCode,h.buffer,?_,h.written,h.committed,
        h.body⟩
      simp only [ResponseWriter.step,h.base]
    | writeHeader status =>
      have hpos : status.code ≠ 0 := by
        have := status.valid
        omega
      refine (h.writeHeader hpos ?_).1
      simpa [safe,h.headerWritten,h.base,h.committed] using hs
    | write b => exact follows_write (.inl h) b hs
    | flush => exact h.flush
  · have hpanic : w.panicked = false := h.choose_spec.1.panicked
    rw [step_live lib cfg hpanic]
    cases call with
    | header change =>
      obtain ⟨sent,hp,hopen⟩ := h
      exact .inr (.inl ⟨sent,⟨hp.panicked,hp.decided,hp.fresh,hp.empty,hp.status,hp.committed,
        hp.allowed,hp.first,hp.buffer⟩,hopen⟩)
    | writeHeader status => exact h.writeHeader status.code
    | write b => exact follows_write (.inr h) b hs
    | flush => exact h.flush hs
  · obtain ⟨hplain,hw'⟩ := h.step lib cfg hw call
    exact .inr (.inr ⟨.inl ⟨sent,sent',hplain⟩,hw'⟩)
  · obtain ⟨⟨pieces',hcoded⟩,hw'⟩ := h.step lib cfg hw call
    exact .inr (.inr ⟨.inr ⟨sent,sent',pieces',hcoded⟩,hw'⟩)

theorem follows_run {calls : List Call} (h : Follows w p) (hs : Safe lib cfg w p calls = true) :
    Follows (w.run lib cfg calls) (p.run calls) ∧
      Safe lib cfg (w.run lib cfg calls) (p.run calls) [] = true := by
  induction calls generalizing w p with
  | nil => exact ⟨h,hs⟩
  | cons call calls ih =>
    simp only [Safe,Bool.and_eq_true] at hs
    exact ih (follows_step h hs.1) hs.2

end Steps

section Transparency

variable {F : Type} {lib : Library F} {cfg : Config} {w : CompressResponseWriter}
  {p : ResponseWriter}

-- what a client makes of two responses is the same
def Alike (codec : Codec) (out c : Conn) : Prop :=
  ∃ sent sent', out.committed = some sent ∧ c.committed = some sent' ∧ sent.status = sent'.status ∧
    codec.decode (contentEncoding sent.header) out.body =
      codec.decode (contentEncoding sent'.header) c.body

theorem close_plain {c : Conn} {sent sent' : Committed} (codec : Codec) (h : Plain w c sent sent') :
    Alike codec (w.close lib codec cfg).1.base.conn c := by
  have hclose : (w.close lib codec cfg).1 = w := by
    simp only [close,h.decided,if_true,Option.isSome_none,Bool.false_eq_true,h.compress,
      Bool.not_false,commitBase,h.written,ite_self]
  rw [hclose]
  refine ⟨sent,sent',h.base,h.committed,h.status,?_⟩
  rw [h.body,decode_of_same codec h.coding]

theorem close_coded {c : Conn} {sent sent' : Committed} {pieces : List Piece} (codec : Codec)
    (h : Coded w c sent sent' pieces) : Alike codec (w.close lib codec cfg).1.base.conn c := by
  have hclose : (w.close lib codec cfg).1 =
      { w with base := w.base.write (codec.encode w.encoding pieces) } := by
    simp only [close,h.decided,if_true,Option.isSome_none,Bool.false_eq_true,if_false,h.compress,
      Bool.not_true,h.input]
  rw [hclose]
  dsimp only
  rw [ResponseWriter.write_written h.written]
  refine ⟨sent,sent',committed_write h.base _,h.committed,h.status,?_⟩
  dsimp only
  rw [Conn.write_some h.base,if_pos h.allowed]
  dsimp only
  rw [h.empty,List.nil_append,h.coding,codec.decode_encode,h.content,decode_of_blank codec h.blank]

theorem close_decided {c : Conn} (codec : Codec) (h : Decided w c) :
    Alike codec (w.close lib codec cfg).1.base.conn c := by
  rcases h with ⟨sent,sent',h⟩ | ⟨sent,sent',pieces,h⟩
  · exact close_plain codec h
  · exact close_coded codec h

theorem Decided.decided {c : Conn} (h : Decided w c) : w.decided = true := by
  rcases h with ⟨sent,sent',h⟩ | ⟨sent,sent',pieces,h⟩
  · exact h.decided
  · exact h.decided

theorem close_pending {c : Conn} {sent : Committed} (codec : Codec) (h : Pending w c sent)
    (hs : settles lib cfg w c = true) : Alike codec (w.close lib codec cfg).1.base.conn c := by
  obtain ⟨hdecided,hnone⟩ := h.decide hs
  have hclose : w.close lib codec cfg =
      (w.decideAndFlushBuffer lib cfg).1.close lib codec cfg := by
    simp only [close,h.decided,hdecided.decided,hnone,Option.isSome_none,Bool.false_eq_true,if_false,
      if_true]
  rw [hclose]
  exact close_decided codec hdecided

theorem Fresh.finished (h : Fresh w p) :
    Pending w p.conn.finish ⟨200,p.conn.header⟩ ∧ coding p.conn.finish = coding p.conn := by
  have hfinish : p.conn.finish = { p.conn with committed := some ⟨200,p.conn.header⟩ } :=
    Conn.commit_none h.committed 200
  refine ⟨⟨h.panicked,h.decided,?_,?_,?_,?_,rfl,?_,?_⟩,?_⟩
  · rw [h.base]
    exact h.written
  · rw [h.base]
    exact h.body
  · rw [h.statusCode]
    rfl
  · rw [hfinish]
  · simp [h.base,h.committed,statusOrOK,h.statusCode]
  · rw [hfinish]
    exact h.buffer.trans h.body.symm
  · rw [hfinish]
    simp [coding,Conn.sent,h.committed]

theorem close_follows (codec : Codec) (h : Follows w p)
    (hs : Safe lib cfg w p [] = true) :
    Alike codec (w.close lib codec cfg).1.base.conn p.conn.finish := by
  simp only [Safe,Bool.or_eq_true] at hs
  rcases h with h | ⟨sent,h,_⟩ | ⟨h,_⟩
  · obtain ⟨hpending,hcoding⟩ := h.finished
    refine close_pending codec hpending ?_
    rw [settles,hcoding]
    exact hs.resolve_left (by simp [h.decided])
  · have hfinish : p.conn.finish = p.conn := Conn.commit_some h.committed 200
    rw [hfinish]
    exact close_pending codec h (hs.resolve_left (by simp [h.decided]))
  · obtain ⟨_,_,h⟩ | ⟨_,_,_,h⟩ := h
    · rw [Conn.finish,Conn.commit_some h.committed]
      exact close_plain codec h
    · rw [Conn.finish,Conn.commit_some h.committed]
      exact close_coded codec h

-- without compression, the status and the body are the handler's own
theorem plain_response {calls : List Call} (h : Fresh w p) (hs : Safe lib cfg w p calls = true) :
    (p.run calls).conn.finish.sent.status = firstStatus calls ∧
    (p.run calls).conn.finish.body =
      if bodyAllowedForStatus (firstStatus calls) then writes calls else [] := by
  have hlater : ∀ {q : ResponseWriter} {sent : Committed} (calls : List Call),
      q.conn.committed = some sent →
      (q.run calls).conn.finish.sent.status = sent.status ∧
      (q.run calls).conn.finish.body =
        q.conn.body ++ if bodyAllowedForStatus sent.status then writes calls else [] := by
    intro q sent calls hq
    obtain ⟨hsent,hbody⟩ := body_run hq calls
    rw [Conn.finish,Conn.commit_some hsent,Conn.sent,hsent]
    exact ⟨rfl,hbody⟩
  induction calls generalizing w p with
  | nil =>
    have hfinish : p.conn.finish = { p.conn with committed := some ⟨200,p.conn.header⟩ } :=
      Conn.commit_none h.committed 200
    rw [ResponseWriter.run,List.foldl_nil,hfinish]
    exact ⟨rfl,h.body⟩
  | cons call calls ih =>
    simp only [Safe,Bool.and_eq_true] at hs
    cases call with
    | header change =>
      refine ih (w := w.step lib cfg (.header change)) ?_ hs.2
      rw [step_live lib cfg h.panicked]
      refine ⟨h.panicked,h.decided,h.headerWritten,h.statusCode,h.buffer,?_,h.written,h.committed,
        h.body⟩
      simp only [ResponseWriter.step,h.base]
    | writeHeader status =>
      have hcode : informational status.code = false := by
        simpa [safe,h.headerWritten,h.base,h.committed] using hs.1
      have hsent := (coding_writeHeader _ h.written h.committed hcode).1
      have hbody : (p.writeHeader status.code).conn.body = [] := by
        rw [ResponseWriter.writeHeader_fresh h.written,Conn.writeHeader_none h.committed hcode]
        exact h.body
      have hrest := hlater calls hsent
      rw [hbody,List.nil_append] at hrest
      exact hrest
    | write b =>
      have hsent := (coding_writeHeader 200 h.written h.committed rfl).1
      have hbody : (p.writeHeader 200).conn.body = [] := by
        rw [ResponseWriter.writeHeader_fresh h.written,Conn.writeHeader_none h.committed rfl]
        exact h.body
      have hwrite := conn_write hsent b
      rw [plain_write_unwritten] at hwrite
      have hcommitted : (p.write b).conn.committed = some ⟨200,p.conn.header⟩ := by
        rw [hwrite]
        exact committed_write hsent b
      have hrest := hlater calls hcommitted
      rw [hwrite,Conn.write_some hsent] at hrest
      rw [show p.run (.write b :: calls) = (p.write b).run calls from rfl]
      simpa [hbody,bodyAllowedForStatus,firstStatus,writes] using hrest
    | flush =>
      have hflush : p.flush.conn = { p.conn with committed := some ⟨200,p.conn.header⟩ } :=
        Conn.commit_none h.committed 200
      have hrest := hlater calls (q := p.flush) (by rw [hflush])
      rw [hflush] at hrest
      rw [show p.run (.flush :: calls) = p.flush.run calls from rfl]
      simpa [h.body,bodyAllowedForStatus,firstStatus,writes] using hrest

-- the response of a handler under compression, and without it
def compressed (lib : Library F) (codec : Codec) (cfg : Config) (encoding : Encoding) (h : Header)
    (calls : List Call) : Conn :=
  (((newCompressResponseWriter (.new h) encoding).run lib cfg calls).close lib codec cfg).1.base.conn.finish

def uncompressed (h : Header) (calls : List Call) : Conn :=
  ((ResponseWriter.new h).run calls).conn.finish

theorem compression_transparent (lib : Library F) (codec : Codec) (cfg : Config)
    (encoding : Encoding) (h : Header) (calls : List Call)
    (hbody : bodyAllowedForStatus (firstStatus calls) = false → writes calls = [])
    (hsafe : Safe lib cfg (newCompressResponseWriter (.new h) encoding) (.new h) calls = true) :
    let out := compressed lib codec cfg encoding h calls
    out.sent.status = firstStatus calls ∧
    codec.decode (coding out) out.body =
      codec.decode (coding (uncompressed h calls)) (writes calls) ∧
    (blank (coding (uncompressed h calls)) = true →
      codec.decode (coding out) out.body = some (writes calls)) := by
  intro out
  have hfresh : Fresh (newCompressResponseWriter (.new h) encoding) (.new h) :=
    ⟨rfl,rfl,rfl,rfl,rfl,rfl,rfl,rfl,rfl⟩
  obtain ⟨hfollows,hclose⟩ := follows_run (.inl hfresh) hsafe
  obtain ⟨hstatus,hplain⟩ := plain_response hfresh hsafe
  obtain ⟨sent,sent',hsent,hsent',hsame,hdecode⟩ := close_follows codec hfollows hclose
  have hout : out = _ := Conn.commit_some hsent 200
  have hwrites : (uncompressed h calls).body = writes calls := by
    rw [uncompressed,hplain]
    split_ifs with hallowed
    · rfl
    · exact (hbody (by simpa using hallowed)).symm
  have hcoding : coding out = contentEncoding sent.header := by
    rw [hout,coding,Conn.sent,hsent]
    rfl
  have hcoding' : coding (uncompressed h calls) = contentEncoding sent'.header := by
    rw [coding,Conn.sent,uncompressed,hsent']
    rfl
  have hview : codec.decode (coding out) out.body =
      codec.decode (coding (uncompressed h calls)) (writes calls) := by
    rw [hcoding,hcoding',hout,hdecode,← hwrites]
    rfl
  refine ⟨?_,hview,fun hblank => ?_⟩
  · rw [← hstatus,hout,Conn.sent,Conn.sent,hsent,hsent']
    exact hsame
  · rw [hview,decode_of_blank codec hblank]

def asciiLibrary : Library ℕ where
  toLower := String.toLower
  equalFold a b := a.toLower = b.toLower
  zero := 0
  one := 1
  gt a b := b < a
  parseFloat := String.toNat?
  compile _ := none
  typeByExtension _ := ""

-- one byte ahead of the content
def tagging : Codec where
  encode _ pieces := 0 :: content pieces
  decode codings b := if blank codings then some b else b.tail?
  decode_blank codings b h := if_pos (by simpa [blank] using h)
  decode_encode e pieces := by
    cases e with
    | brotli => exact if_neg (by decide +kernel)
    | gzip => exact if_neg (by decide +kernel)

def notFound : Status := ⟨404,by decide⟩

theorem error_page_compressed :
    let calls := [.writeHeader notFound,.write [104,105],.flush]
    let out := compressed asciiLibrary tagging defaultConfig .gzip [] calls
    out.body = [0,104,105] ∧ out.sent.status = 404 ∧
      tagging.decode (coding out) out.body = some [104,105] := by
  intro calls out
  have hbody : bodyAllowedForStatus (firstStatus calls) = false → writes calls = [] := by decide
  have hsafe : Safe asciiLibrary defaultConfig (newCompressResponseWriter (.new []) .gzip)
    (.new []) calls = true := by decide +kernel
  obtain ⟨hstatus,_,hview⟩ :=
    compression_transparent asciiLibrary tagging defaultConfig .gzip [] calls hbody hsafe
  exact ⟨by decide +kernel,hstatus,hview (by decide +kernel)⟩

-- Flush sends the header 200 while 404 waits for the decision
theorem flush_before_decision_sends_ok :
    ¬∀ (F : Type) (lib : Library F) (codec : Codec) (cfg : Config) (encoding : Encoding) (h : Header)
      (calls : List Call),
      (bodyAllowedForStatus (firstStatus calls) = false → writes calls = []) →
      let out := compressed lib codec cfg encoding h calls
      out.sent.status = firstStatus calls ∧
      codec.decode (coding out) out.body =
        codec.decode (coding (uncompressed h calls)) (writes calls) := by
  intro hclaim
  have hstatus := (hclaim ℕ asciiLibrary tagging defaultConfig .gzip []
    [.writeHeader notFound,.flush,.write [104,105]] (by decide)).1
  exact absurd hstatus (by decide +kernel)

end Transparency

end Nimburion.HTTP.Compression
