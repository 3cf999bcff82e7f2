import Nimburion.HTTP.CacheEntry

namespace Nimburion.HTTP.NetHTTP
open HTTP.Cache (Header)

abbrev Bytes := List UInt8

-- net/http panics on other codes
structure Status where
  code : ℕ
  valid : 100 ≤ code ∧ code ≤ 999
  deriving DecidableEq, Repr

def informational (code : ℕ) : Bool := 100 ≤ code && code ≤ 199 && code ≠ 101

def bodyAllowedForStatus (code : ℕ) : Bool :=
  !((100 ≤ code && code ≤ 199) || code = 204 || code = 304)

structure Committed where
  status : ℕ
  header : Header
  deriving DecidableEq, Repr

-- the server's side of a response: the handler's headers, what was sent of them, and the body
structure Conn where
  header : Header
  committed : Option Committed
  body : Bytes
  deriving DecidableEq, Repr

namespace Conn

def new (h : Header) : Conn := ⟨h,none,[]⟩

def commit (c : Conn) (code : ℕ) : Conn :=
  match c.committed with
  | some _ => c
  | none => { c with committed := some ⟨code,c.header⟩ }

-- an informational status is sent ahead of the response
def writeHeader (c : Conn) (code : ℕ) : Conn := if informational code then c else c.commit code

def write (c : Conn) (p : Bytes) : Conn :=
  let c := c.commit 200
  if c.committed.any fun sent => bodyAllowedForStatus sent.status then { c with body := c.body ++ p }
  else c

def flush (c : Conn) : Conn := c.commit 200

-- the server commits when the handler has returned
def finish (c : Conn) : Conn := c.commit 200

def sent (c : Conn) : Committed := c.committed.getD ⟨200,c.header⟩

theorem commit_none {c : Conn} (h : c.committed = none) (code : ℕ) :
    c.commit code = { c with committed := some ⟨code,c.header⟩ } := by rw [commit,h]

theorem commit_some {c : Conn} {sent : Committed} (h : c.committed = some sent) (code : ℕ) :
    c.commit code = c := by rw [commit,h]

theorem write_some {c : Conn} {sent : Committed} (h : c.committed = some sent) (p : Bytes) :
    c.write p = if bodyAllowedForStatus sent.status then { c with body := c.body ++ p } else c := by
  rw [write,commit_some h,h]
  rfl

theorem writeHeader_some {c : Conn} {sent : Committed} (h : c.committed = some sent) (code : ℕ) :
    c.writeHeader code = c := by
  rw [writeHeader,commit_some h]
  exact ite_self c

theorem writeHeader_none {c : Conn} (h : c.committed = none) {code : ℕ}
    (hcode : informational code = false) :
    c.writeHeader code = { c with committed := some ⟨code,c.header⟩ } := by
  rw [writeHeader,hcode,commit_none h]
  rfl

end Conn

-- the router's writer over it
structure ResponseWriter where
  conn : Conn
  status : ℕ
  written : Bool
  deriving DecidableEq, Repr

namespace ResponseWriter

def new (h : Header) : ResponseWriter := ⟨.new h,0,false⟩

def writeHeader (w : ResponseWriter) (code : ℕ) : ResponseWriter :=
  if w.written then w else { conn := w.conn.writeHeader code, status := code, written := true }

def write (w : ResponseWriter) (p : Bytes) : ResponseWriter :=
  let w := if w.written then w else w.writeHeader 200
  { w with conn := w.conn.write p }

def flush (w : ResponseWriter) : ResponseWriter := { w with conn := w.conn.flush }

def mapHeader (w : ResponseWriter) (f : Header → Header) : ResponseWriter :=
  { w with conn := { w.conn with header := f w.conn.header } }

theorem writeHeader_written {w : ResponseWriter} (h : w.written = true) (code : ℕ) :
    w.writeHeader code = w := by rw [writeHeader,if_pos h]

theorem writeHeader_fresh {w : ResponseWriter} (h : w.written = false) (code : ℕ) :
    w.writeHeader code = ⟨w.conn.writeHeader code,code,true⟩ := by
  rw [writeHeader,h]
  rfl

theorem write_written {w : ResponseWriter} (h : w.written = true) (p : Bytes) :
    w.write p = { w with conn := w.conn.write p } := by rw [write,if_pos h]

end ResponseWriter

-- what a handler does to its response
inductive Call where
  | header (change : Header → Header)
  | writeHeader (status : Status)
  | write (p : Bytes)
  | flush

def ResponseWriter.step (w : ResponseWriter) : Call → ResponseWriter
  | .header change => w.mapHeader change
  | .writeHeader status => w.writeHeader status.code
  | .write p => w.write p
  | .flush => w.flush

def ResponseWriter.run (w : ResponseWriter) (calls : List Call) : ResponseWriter :=
  calls.foldl ResponseWriter.step w

-- the status of the first WriteHeader, which a first Write or Flush stands for with 200
def firstStatus : List Call → ℕ
  | [] => 200
  | .header _ :: calls => firstStatus calls
  | .writeHeader status :: _ => status.code
  | .write _ :: _ => 200
  | .flush :: _ => 200

def writes : List Call → Bytes
  | [] => []
  | .write p :: calls => p ++ writes calls
  | _ :: calls => writes calls

end Nimburion.HTTP.NetHTTP
