import Nimburion.HTTP.CompressionTransparency

namespace Nimburion.HTTP.Compression
open GoText NetHTTP CompressResponseWriter
open HTTP.Cache (Header)

section Chain

inductive Outcome where
  | returned (err : Option GoError)
  | panicked
  deriving DecidableEq, Repr

-- a handler, with the middleware inside, by what it does to the response and how it ends
structure Handler where
  calls : List Call
  outcome : Outcome

-- the writer in the context when the chain has run
inductive Response where
  | plain (w : ResponseWriter)
  | compressed (w : CompressResponseWriter)

def Response.written : Response → Bool
  | .plain w => w.written
  | .compressed w => w.written

def Response.base : Response → ResponseWriter
  | .plain w => w
  | .compressed w => w.base

variable {F : Type} (lib : Library F) (codec : Codec) (cfg : Config) (push : Bool) (req : Request)

-- Close runs on every way out, a panic included
def closing (w : CompressResponseWriter) (outcome : Outcome) : Response × Outcome :=
  let r := w.close lib codec (normalizeConfig cfg)
  let outcome := if w.panicked then .panicked else outcome
  (.compressed r.1,match outcome with
    | .returned none => .returned r.2
    | outcome => outcome)

def middleware (base : ResponseWriter) (next : Handler) : Response × Outcome :=
  match selectEncoding lib (normalizeConfig cfg) push req with
  | none => (.plain (base.run next.calls),next.outcome)
  | some encoding =>
      let base := base.mapHeader fun h => appendVary lib h "Accept-Encoding"
      closing lib codec cfg
        ((newCompressResponseWriter base encoding).run lib (normalizeConfig cfg) next.calls) next.outcome

def utf8 (s : String) : Bytes := s.toUTF8.toList

-- http.Error on the server's own writer
def httpError (c : Conn) (msg : String) (code : ℕ) : Conn :=
  let header := ((c.header.del "Content-Length").set "Content-Type" "text/plain; charset=utf-8").set
    "X-Content-Type-Options" "nosniff"
  ({ c with header := header }.writeHeader code).write (utf8 (msg ++ "\n"))

-- c.JSON(500, ...) on the writer in the context, with the encoded response
def recovered (payload : Bytes) : Response → Conn
  | .plain w =>
      let w := w.mapHeader fun h => h.set "Content-Type" "application/json"
      ((w.writeHeader 500).write payload).conn
  | .compressed w =>
      let w := { w with base := w.base.mapHeader fun h => h.set "Content-Type" "application/json" }
      ((w.writeHeader 500).write lib (normalizeConfig cfg) payload).base.conn

-- the router around Recovery around the chain
def serveHTTP (payload : Bytes) (r : Response × Outcome) : Conn :=
  match r.2 with
  | .returned none => r.1.base.conn.finish
  | .returned (some err) =>
      if r.1.written then r.1.base.conn.finish
      else (httpError r.1.base.conn err.message 500).finish
  | .panicked =>
      if r.1.written then r.1.base.conn.finish else (recovered lib cfg payload r.1).finish

end Chain

section Failures

-- a handler that fails before it has written anything
structure Failing where
  changes : List (Header → Header)
  failure : Option GoError

def Failing.handler (f : Failing) : Handler where
  calls := f.changes.map .header
  outcome := match f.failure with
    | some err => .returned (some err)
    | none => .panicked

variable {F : Type} {lib : Library F} {cfg : Config}

variable (lib cfg) in
theorem run_headers (changes : List (Header → Header)) {w : CompressResponseWriter}
    (h : w.panicked = false) : ∃ header, w.run lib cfg (changes.map .header) =
      { w with base := w.base.mapHeader fun _ => header } := by
  induction changes generalizing w with
  | nil => exact ⟨w.header,rfl⟩
  | cons change changes ih =>
    have hstep : w.step lib cfg (.header change) = { w with base := w.base.mapHeader change } :=
      step_live lib cfg h (.header change)
    obtain ⟨header,hrun⟩ := ih (w := { w with base := w.base.mapHeader change }) h
    refine ⟨header,?_⟩
    rw [List.map_cons,run,List.foldl_cons,hstep]
    exact hrun

theorem plain_run_headers (changes : List (Header → Header)) (w : ResponseWriter) :
    ∃ header, w.run (changes.map .header) = w.mapHeader fun _ => header := by
  induction changes generalizing w with
  | nil => exact ⟨w.conn.header,rfl⟩
  | cons change changes ih =>
    obtain ⟨header,hrun⟩ := ih (w.mapHeader change)
    exact ⟨header,hrun⟩

-- the base has sent a header, and the router's writer knows
def Sent (w : CompressResponseWriter) : Prop :=
  ∃ sent, w.base.conn.committed = some sent ∧ sent.status = 200 ∧ w.base.written = true

theorem Sent.write {w : CompressResponseWriter} (h : Sent w) (b buffer : Bytes) :
    Sent { w with base := w.base.write b, buffer := buffer } := by
  obtain ⟨sent,hsent,hstatus,hwritten⟩ := h
  refine ⟨sent,?_,hstatus,?_⟩
  · dsimp only
    rw [conn_write hsent]
    exact committed_write hsent b
  · dsimp only
    rw [ResponseWriter.write_written hwritten]
    exact hwritten

theorem sent_commitBase {w : CompressResponseWriter} (hw : w.base.written = false)
    (hnone : w.base.conn.committed = none) (hcode : w.statusCode = 0) : Sent w.commitBase := by
  have hok : w.statusOrOK = 200 := by rw [statusOrOK,if_pos hcode]
  rw [commitBase,if_neg (by simp [hw]),hok]
  refine ⟨⟨200,w.base.conn.header⟩,?_,rfl,?_⟩
  · exact (coding_writeHeader _ hw hnone rfl).1
  · dsimp only
    rw [ResponseWriter.writeHeader_fresh hw]

variable (lib cfg) in
theorem sent_decide {w : CompressResponseWriter} (hdecided : w.decided = false)
    (hw : w.base.written = false) (hnone : w.base.conn.committed = none)
    (hcode : w.statusCode = 0) : Sent (w.decideAndFlushBuffer lib cfg).1 := by
  have hbody : noBodyStatus w.statusCode = false := by rw [hcode]; rfl
  rw [decideAndFlushBuffer,if_neg (by simp [hdecided])]
  dsimp only
  rw [if_neg (by simp [hbody])]
  split_ifs
  · have hsent : Sent (commitBase { w with
        decided := true, compress := true,
        base := w.base.mapHeader fun _ => encodedHeader lib { w with decided := true } }) :=
      sent_commitBase hw hnone hcode
    rw [startEncoder]
    split
    · exact hsent
    · exact hsent
  · have hsent : Sent (commitBase { w with decided := true, compress := false }) :=
      sent_commitBase hw hnone hcode
    rw [flushPlainBuffer]
    dsimp only
    split
    · exact hsent
    · exact hsent.write _ []

variable (lib cfg) in
-- Close sends the header of a response of which nothing was written
theorem sent_close (codec : Codec) {w : CompressResponseWriter} (hdecided : w.decided = false)
    (hw : w.base.written = false) (hnone : w.base.conn.committed = none)
    (hcode : w.statusCode = 0) : Sent (w.close lib codec cfg).1 := by
  have hsent := sent_decide lib cfg hdecided hw hnone hcode
  simp only [close,hdecided,Bool.false_eq_true,if_false]
  split
  · exact hsent
  · split
    · have hcommit : (w.decideAndFlushBuffer lib cfg).1.commitBase =
          (w.decideAndFlushBuffer lib cfg).1 := by
        rw [commitBase,if_pos hsent.choose_spec.2.2]
      rw [hcommit,ite_self]
      exact hsent
    · split
      · exact hsent.write _ _
      · exact hsent

variable (lib cfg) in
-- the failure is answered as it would be without compression
def AnsweredAlike (codec : Codec) (push : Bool) (req : Request) (h : Header) (payload : Bytes)
    (f : Failing) : Prop :=
  let r := middleware lib codec cfg push req (.new h) f.handler
  let without := (ResponseWriter.new h).run f.handler.calls
  r.1.base.conn.committed = none ∧
  contentEncoding r.1.base.conn.header = contentEncoding without.conn.header ∧
  serveHTTP lib cfg payload r = serveHTTP lib cfg payload (.plain without,f.handler.outcome)

theorem failure_answered_iff_not_wrapped (lib : Library F) (codec : Codec) (cfg : Config)
    (push : Bool) (req : Request) (h : Header) (payload : Bytes) (f : Failing) :
    AnsweredAlike lib cfg codec push req h payload f ↔
      selectEncoding lib (normalizeConfig cfg) push req = none := by
  constructor
  · rintro ⟨hnone,_⟩
    cases hselect : selectEncoding lib (normalizeConfig cfg) push req with
    | none => rfl
    | some encoding =>
      rw [middleware,hselect] at hnone
      dsimp only at hnone
      obtain ⟨header,hrun⟩ := run_headers lib (normalizeConfig cfg) f.changes
        (w := newCompressResponseWriter ((ResponseWriter.new h).mapHeader
          fun h => appendVary lib h "Accept-Encoding") encoding) rfl
      obtain ⟨sent,hsent,_⟩ := sent_close lib (normalizeConfig cfg) codec
        (w := { newCompressResponseWriter ((ResponseWriter.new h).mapHeader
          fun h => appendVary lib h "Accept-Encoding") encoding with
            base := ((ResponseWriter.new h).mapHeader
              fun h => appendVary lib h "Accept-Encoding").mapHeader fun _ => header }) rfl rfl rfl rfl
      rw [Failing.handler,hrun] at hnone
      exact absurd (hsent.symm.trans hnone) (by simp)
  · intro hselect
    obtain ⟨header,hrun⟩ := plain_run_headers f.changes (.new h)
    have hmiddle : middleware lib codec cfg push req (.new h) f.handler =
        (.plain ((ResponseWriter.new h).run f.handler.calls),f.handler.outcome) := by
      rw [middleware,hselect]
    rw [AnsweredAlike,hmiddle]
    refine ⟨?_,rfl,rfl⟩
    rw [Failing.handler]
    dsimp only [Response.base]
    rw [hrun]
    rfl

def gzipRequest : Request := ⟨"GET","/items",[("Accept-Encoding",["gzip"])]⟩

def boom : Failing := ⟨[],some (.text "boom")⟩

-- the client gets 200 and an empty page instead of 500 and the message
theorem failed_handler_answers_ok :
    (serveHTTP asciiLibrary defaultConfig []
      (middleware asciiLibrary tagging defaultConfig false gzipRequest (.new []) boom.handler)).sent.status
        = 200 ∧
    (serveHTTP asciiLibrary defaultConfig [] (.plain (.new []),boom.handler.outcome)).sent.status = 500 ∧
    ¬AnsweredAlike asciiLibrary defaultConfig tagging false gzipRequest [] [] boom := by
  have hselect : selectEncoding asciiLibrary (normalizeConfig defaultConfig) false gzipRequest =
      some .gzip := by decide +kernel
  refine ⟨by decide +kernel,by decide +kernel,fun halike => ?_⟩
  have hnone := halike.1
  rw [middleware,hselect] at hnone
  exact absurd hnone (by decide +kernel)

end Failures

end Nimburion.HTTP.Compression
