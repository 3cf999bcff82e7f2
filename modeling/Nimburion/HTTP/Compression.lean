import Nimburion.HTTP.ResponseWriter
import Nimburion.Lib.GoPath
import Nimburion.Errors

namespace Nimburion.HTTP.Compression
open GoText GoPath NetHTTP
open HTTP.Cache (Header)

-- F stands for float64; `compile` is regexp.Compile, none when the pattern does not compile
structure Library (F : Type) where
  toLower : String → String
  equalFold : String → String → Bool
  zero : F
  one : F
  gt : F → F → Bool
  parseFloat : String → Option F
  compile : String → Option (String → Bool)
  typeByExtension : String → String

inductive Encoding where
  | brotli
  | gzip
  deriving DecidableEq, Repr

def Encoding.name : Encoding → String
  | .brotli => "br"
  | .gzip => "gzip"

structure Config where
  enabled : Bool
  enableGzip : Bool
  enableBrotli : Bool
  gzipLevel : Int
  brotliLevel : Int
  minSize : Int
  compressibleContentTypes : List String
  excludedPathPrefixes : List String
  excludedPathRegex : List String
  excludedExtensions : List String
  excludedMIMETypes : List String
  excludeServerPush : Bool
  deriving DecidableEq, Repr

def defaultConfig : Config :=
  { enabled := true, enableGzip := true, enableBrotli := true, gzipLevel := -1, brotliLevel := 4,
    minSize := 0,
    compressibleContentTypes :=
      ["text/","application/json","application/javascript","application/xml","image/svg+xml"],
    excludedPathPrefixes := [], excludedPathRegex := [], excludedExtensions := [],
    excludedMIMETypes := [], excludeServerPush := false }

def emptyConfig : Config :=
  { enabled := false, enableGzip := false, enableBrotli := false, gzipLevel := 0, brotliLevel := 0,
    minSize := 0, compressibleContentTypes := [], excludedPathPrefixes := [],
    excludedPathRegex := [], excludedExtensions := [], excludedMIMETypes := [],
    excludeServerPush := false }

def normalizeConfig (cfg : Config) : Config :=
  if cfg = emptyConfig then defaultConfig
  else { cfg with
    gzipLevel := if cfg.gzipLevel = 0 then defaultConfig.gzipLevel else cfg.gzipLevel
    brotliLevel := if cfg.brotliLevel ≤ 0 then defaultConfig.brotliLevel else cfg.brotliLevel
    minSize := if cfg.minSize < 0 then 0 else cfg.minSize
    compressibleContentTypes := if cfg.compressibleContentTypes = [] then
      defaultConfig.compressibleContentTypes else cfg.compressibleContentTypes }

structure Request where
  method : String
  path : String
  header : Header

section Selection

variable {F : Type} (lib : Library F)

def compileRegexes (patterns : List String) : List (String → Bool) :=
  patterns.filterMap fun pattern =>
    let pattern := trimSpace pattern
    if pattern = "" then none else lib.compile pattern

def isExcludedPath (path : String) (prefixes : List String) (regex : List (String → Bool)) : Bool :=
  prefixes.any (fun pre => trimSpace pre ≠ "" && hasPrefix path pre) || regex.any fun re => re path

def normalizeExt (ext : String) : String :=
  let ext := lib.toLower (trimSpace ext)
  if ext = "" then ""
  else if hasPrefix ext "." then ext
  else "." ++ ext

def hasExcludedExtension (requestPath : String) (excluded : List String) : Bool :=
  let ext := normalizeExt lib (GoPath.ext requestPath)
  ext ≠ "" && excluded.any fun candidate => ext = normalizeExt lib candidate

def matchesMIME (contentType : String) (excluded : List String) : Bool :=
  if contentType = "" || excluded.length = 0 then false
  else
    let baseType := lib.toLower (trimSpace ((split contentType ';').headD ""))
    excluded.any fun rule =>
      let rule := lib.toLower (trimSpace rule)
      if rule = "" then false
      else if hasSuffix rule "/*" then hasPrefix baseType (String.ofList rule.toList.dropLast)
      else baseType = rule

def hasExcludedMIMEFromExtension (requestPath : String) (excludedMIME : List String) : Bool :=
  let ext := normalizeExt lib (GoPath.ext requestPath)
  let detected := lib.toLower (trimSpace (lib.typeByExtension ext))
  ext ≠ "" && detected ≠ "" && matchesMIME lib detected excludedMIME

def isCompressibleContentType (contentType : String) (allow : List String) : Bool :=
  let ct := lib.toLower (trimSpace contentType)
  ct = "" || allow.any fun pre => hasPrefix ct (lib.toLower (trimSpace pre))

-- the last q parameter that parses
def sectionQuality (q : F) (part : String) : F :=
  match cut (trimSpace part) '=' with
  | some (key,value) => if lib.toLower key = "q" then (lib.parseFloat value).getD q else q
  | none => q

def qualityForEncoding (acceptEncoding encoding : String) : Option F :=
  (split acceptEncoding ',').findSome? fun part =>
    let token := trimSpace part
    if token = "" then none
    else
      let sections := split token ';'
      if lib.toLower (trimSpace (sections.headD "")) = lib.toLower encoding then
        some (sections.tail.foldl (sectionQuality lib) lib.one)
      else none

def negotiateEncoding (acceptEncoding : String) (cfg : Config) : Option Encoding :=
  if acceptEncoding = "" then none
  else
    let qAny := qualityForEncoding lib acceptEncoding "*"
    let qBr := qualityForEncoding lib acceptEncoding "br"
    let qGzip := qualityForEncoding lib acceptEncoding "gzip"
    let qBr := if cfg.enableBrotli && qBr.isNone then qAny else qBr
    let qGzip := if cfg.enableGzip && qGzip.isNone then qAny else qGzip
    let brotli := if cfg.enableBrotli then qBr.filter fun q => lib.gt q lib.zero else none
    let gzip := if cfg.enableGzip then qGzip.filter fun q =>
      lib.gt q lib.zero && lib.gt q (brotli.getD lib.zero) else none
    match gzip,brotli with
    | some _,_ => some .gzip
    | none,some _ => some .brotli
    | none,none => none

def appendVary (h : Header) (value : String) : Header :=
  let current := h.get "Vary"
  if current = "" then h.set "Vary" value
  else if (split current ',').any fun part => lib.equalFold (trimSpace part) value then h
  else h.set "Vary" (current ++ ", " ++ value)

-- the encoding the response is compressed with, if the middleware wraps it
def selectEncoding (cfg : Config) (push : Bool) (req : Request) : Option Encoding :=
  if !cfg.enabled then none
  else if req.method = "HEAD" then none
  else if isExcludedPath req.path cfg.excludedPathPrefixes (compileRegexes lib cfg.excludedPathRegex)
  then none
  else if cfg.excludeServerPush && push then none
  else if hasExcludedExtension lib req.path cfg.excludedExtensions then none
  else if hasExcludedMIMEFromExtension lib req.path cfg.excludedMIMETypes then none
  else negotiateEncoding lib (req.header.get "Accept-Encoding") cfg

end Selection

section Writer

inductive Piece where
  | data (p : Bytes)
  | flush
  deriving DecidableEq, Repr

def content : List Piece → Bytes
  | [] => []
  | .data p :: pieces => p ++ content pieces
  | .flush :: pieces => content pieces

-- the gzip and brotli packages, and a client that undoes a Content-Encoding
structure Codec where
  encode : Encoding → List Piece → Bytes
  decode : List String → Bytes → Option Bytes
  decode_blank : ∀ codings b, (∀ v ∈ codings, trimSpace v = "") → decode codings b = some b
  decode_encode : ∀ e pieces, decode [e.name] (encode e pieces) = some (content pieces)

-- `input` is what the compressed writer was given, once it is made
structure CompressResponseWriter where
  base : ResponseWriter
  encoding : Encoding
  statusCode : ℕ
  headerWritten : Bool
  decided : Bool
  compress : Bool
  input : Option (List Piece)
  buffer : Bytes
  panicked : Bool
  deriving DecidableEq, Repr

def newCompressResponseWriter (base : ResponseWriter) (encoding : Encoding) :
    CompressResponseWriter :=
  ⟨base,encoding,0,false,false,false,none,[],false⟩

def noBodyStatus (code : ℕ) : Bool := code = 204 || code = 304 || (100 ≤ code && code < 200)

def validGzipLevel (level : Int) : Bool := -2 ≤ level && level ≤ 9

variable {F : Type} (lib : Library F) (codec : Codec) (cfg : Config)

namespace CompressResponseWriter

def header (w : CompressResponseWriter) : Header := w.base.conn.header

def statusOrOK (w : CompressResponseWriter) : ℕ := if w.statusCode = 0 then 200 else w.statusCode

def written (w : CompressResponseWriter) : Bool := w.base.written || w.headerWritten

def writeHeader (w : CompressResponseWriter) (code : ℕ) : CompressResponseWriter :=
  if w.headerWritten then w
  else
    let w := { w with statusCode := code, headerWritten := true }
    if noBodyStatus code then
      { w with decided := true, compress := false, base := w.base.writeHeader code }
    else w

-- WriteHeader on the base, unless it was written
def commitBase (w : CompressResponseWriter) : CompressResponseWriter :=
  if w.base.written then w else { w with base := w.base.writeHeader w.statusOrOK }

def flushPlainBuffer (w : CompressResponseWriter) : CompressResponseWriter :=
  let w := w.commitBase
  if w.buffer = [] then w else { w with base := w.base.write w.buffer, buffer := [] }

-- what decideAndFlushBuffer finds before it compresses
def compresses (w : CompressResponseWriter) : Bool :=
  let contentType := lib.toLower (trimSpace (w.header.get "Content-Type"))
  trimSpace (w.header.get "Content-Encoding") = "" && !decide ((w.buffer.length : Int) < cfg.minSize) &&
    !matchesMIME lib contentType cfg.excludedMIMETypes &&
    isCompressibleContentType lib contentType cfg.compressibleContentTypes

def encodedHeader (w : CompressResponseWriter) : Header :=
  appendVary lib ((w.header.del "Content-Length").set "Content-Encoding" w.encoding.name)
    "Accept-Encoding"

-- gzip.NewWriterLevel refuses a level outside its range
def startEncoder (w : CompressResponseWriter) : CompressResponseWriter × Option GoError :=
  if w.encoding = .gzip && !validGzipLevel cfg.gzipLevel then
    (w,some (.wrapped "create gzip writer: "
      (.text ("gzip: invalid compression level: " ++ toString cfg.gzipLevel))))
  else
    ({ w with input := some (if w.buffer = [] then [] else [.data w.buffer]), buffer := [] },none)

def decideAndFlushBuffer (w : CompressResponseWriter) : CompressResponseWriter × Option GoError :=
  if w.decided then (w,none)
  else
    let w := { w with decided := true }
    if noBodyStatus w.statusCode then ({ w with compress := false }.commitBase,none)
    else if w.compresses lib cfg then
      startEncoder cfg (commitBase { w with
        compress := true, base := w.base.mapHeader fun _ => w.encodedHeader lib })
    else (flushPlainBuffer { w with compress := false },none)

def write (w : CompressResponseWriter) (p : Bytes) : CompressResponseWriter :=
  let w := if w.headerWritten then w else w.writeHeader 200
  if w.decided then
    if w.compress then
      match w.input with
      | some pieces => { w with input := some (pieces ++ [.data p]) }
      | none => { w with panicked := true }
    else { w with base := w.base.write p }
  else
    let w := { w with buffer := w.buffer ++ p }
    if (w.buffer.length : Int) < cfg.minSize then w else (w.decideAndFlushBuffer lib cfg).1

def flush (w : CompressResponseWriter) : CompressResponseWriter :=
  { w with input := w.input.map (· ++ [.flush]), base := w.base.flush }

def close (w : CompressResponseWriter) : CompressResponseWriter × Option GoError :=
  let r := if w.decided then (w,none) else w.decideAndFlushBuffer lib cfg
  let w := r.1
  if r.2.isSome then r
  else if !w.compress then
    (if w.headerWritten then w.commitBase else w,none)
  else match w.input with
    | some pieces => ({ w with base := w.base.write (codec.encode w.encoding pieces) },none)
    | none => (w,none)

-- a handler that panicked makes no further call
def step (w : CompressResponseWriter) (call : Call) : CompressResponseWriter :=
  if w.panicked then w
  else match call with
    | .header change => { w with base := w.base.mapHeader change }
    | .writeHeader status => w.writeHeader status.code
    | .write p => w.write lib cfg p
    | .flush => w.flush

def run (w : CompressResponseWriter) (calls : List Call) : CompressResponseWriter :=
  calls.foldl (step lib cfg) w

theorem step_live {w : CompressResponseWriter} (h : w.panicked = false) (call : Call) :
    w.step lib cfg call = match call with
      | .header change => { w with base := w.base.mapHeader change }
      | .writeHeader status => w.writeHeader status.code
      | .write p => w.write lib cfg p
      | .flush => w.flush := by
  cases call <;> simp [step,h]

end CompressResponseWriter

end Writer

end Nimburion.HTTP.Compression
