import Nimburion.Lib.GoPath
import Nimburion.HTTP.ResponseWriter

namespace Nimburion.HTTP.Static
open GoText GoPath
open NetHTTP (Bytes)

section Tree

inductive Node where
  | dir
  | file (content : Bytes)
  deriving DecidableEq, Repr

-- what stands at a path below the root; only a directory has anything below it
structure FileTree where
  node : List String → Option Node
  root : node [] = some .dir
  closed : ∀ p name, node (p ++ [name]) ≠ none → node p = some .dir

-- http.Dir refuses a name with a NUL
def unsafeName (p : List String) : Bool := p.any fun name => name.toList.contains '\x00'

def FileTree.open (t : FileTree) (p : List String) : Option Node :=
  if unsafeName p then none else t.node p

end Tree

section Check

def normalizePrefix (urlPrefix : String) : String :=
  let urlPrefix := trimSpace urlPrefix
  if urlPrefix = "" then ""
  else
    let cleaned := cleanRooted ("/" ++ trim urlPrefix '/')
    if cleaned = "/" then "" else cleaned

def sanitizeRequestPath (urlPrefix requestPath : String) : Option String :=
  let cleaned := cleanRooted ("/" ++ requestPath)
  let cleaned := if cleaned = "." then "/" else cleaned
  let normalizedPrefix := normalizePrefix urlPrefix
  if normalizedPrefix = "" then some cleaned
  else if cleaned = normalizedPrefix then some "/"
  else if hasPrefix cleaned (normalizedPrefix ++ "/") then
    let relative := trimPrefix cleaned normalizedPrefix
    if relative = "" then some "/" else some relative
  else none

-- the elements of the file that Exists opens
def located (urlPrefix requestPath : String) : Option (List String) :=
  (sanitizeRequestPath urlPrefix requestPath).map fun relative => elements ("/" ++ relative)

-- LocalFile with allowIndexes false: the content of the file that Exists finds
def exists? (t : FileTree) (urlPrefix requestPath : String) : Option Bytes :=
  match (located urlPrefix requestPath).bind t.open with
  | some (.file content) => some content
  | _ => none

end Check

section Server

structure Request where
  path : String
  rawPath : String
  deriving DecidableEq, Repr

-- of these `file`, `listing` and `error` have a body
inductive Reply where
  | next
  | redirect (location : String)
  | file (content : Bytes)
  | listing
  | error (code : ℕ) (msg : String)
  deriving DecidableEq, Repr

def notFound : Reply := .error 404 "404 page not found"

def rooted (p : String) : String := if hasPrefix p "/" then p else "/" ++ p

-- the file server on a path that begins with a slash, for a GET without conditions or ranges
def serveFile (t : FileTree) (url : String) : Reply :=
  if hasSuffix url "/index.html" then .redirect "./"
  else match t.open (elements url) with
    | none => notFound
    | some (.file content) =>
        if hasSuffix url "/" then
          if base url = "/" || base url = "." then
            .error 500 "http: attempting to traverse a non-directory"
          else .redirect ("../" ++ base url)
        else .file content
    | some .dir =>
        if hasSuffix url "/" then
          match t.open (elements url ++ ["index.html"]) with
          | some (.file content) => .file content
          | _ => .listing
        else .redirect (base url ++ "/")

-- whether http.StripPrefix finds its prefix
def strips (urlPrefix : String) (req : Request) : Bool :=
  hasPrefix req.path urlPrefix && (req.rawPath = "" || hasPrefix req.rawPath urlPrefix)

def fileServer (urlPrefix : String) (t : FileTree) (req : Request) : Reply :=
  if urlPrefix = "" then serveFile t (rooted req.path)
  else if strips urlPrefix req then serveFile t (rooted (trimPrefix req.path urlPrefix))
  else notFound

def serve (urlPrefix : String) (t : FileTree) (req : Request) : Reply :=
  let normalized := normalizePrefix urlPrefix
  if (exists? t normalized req.path).isSome then fileServer normalized t req else .next

end Server

section Condition

-- a body is the content of the file that was checked
def Honest (urlPrefix : String) (t : FileTree) (req : Request) : Prop :=
  match serve urlPrefix t req with
  | .next => True
  | .redirect _ => True
  | .file content => exists? t (normalizePrefix urlPrefix) req.path = some content
  | .listing => False
  | .error _ _ => False

-- the url that the file server sees
def served (normalized : String) (req : Request) : String :=
  if normalized = "" then rooted req.path else rooted (trimPrefix req.path normalized)

-- the file server sent to `url` answers with the file at `p`, or with a redirect
def agrees (url : String) (p : List String) : Bool :=
  hasSuffix url "/index.html" ||
  (elements url = p && (!hasSuffix url "/" || (base url ≠ "/" && base url ≠ "."))) ||
  ((elements url).isPrefixOf p && elements url ≠ p &&
    (!hasSuffix url "/" || elements url ++ ["index.html"] = p))

def agreesOn (urlPrefix : String) (req : Request) : Bool :=
  let normalized := normalizePrefix urlPrefix
  match located normalized req.path with
  | none => true
  | some p => p = [] || unsafeName p ||
      ((normalized = "" || strips normalized req) && agrees (served normalized req) p)

end Condition

section Paths

theorem FileTree.dir_of_below (t : FileTree) (p q : List String) (hq : q ≠ [])
    (h : t.node (p ++ q) ≠ none) : t.node p = some .dir := by
  induction q generalizing p with
  | nil => exact absurd rfl hq
  | cons name q ih =>
      cases q with
      | nil => exact t.closed p name h
      | cons next q =>
          have hbelow : t.node (p ++ [name]) = some .dir := by
            apply ih
            · simp
            · simpa using h
          apply t.closed p name
          rw [hbelow]
          simp

theorem unsafeName_append (p q : List String) :
    unsafeName (p ++ q) = (unsafeName p || unsafeName q) := by
  simp only [unsafeName,List.any_append]

theorem FileTree.open_eq_some {t : FileTree} {p : List String} {n : Node} :
    t.open p = some n ↔ unsafeName p = false ∧ t.node p = some n := by
  unfold FileTree.open
  split <;> simp_all

theorem FileTree.open_above {t : FileTree} {p q : List String} {n : Node} (hq : q ≠ [])
    (h : t.open (p ++ q) = some n) : t.open p = some .dir := by
  obtain ⟨hsafe,hnode⟩ := open_eq_some.mp h
  rw [unsafeName_append,Bool.or_eq_false_iff] at hsafe
  apply open_eq_some.mpr
  refine ⟨hsafe.1,t.dir_of_below p q hq ?_⟩
  rw [hnode]
  simp

theorem exists?_eq_some {t : FileTree} {pre path : String} {content : Bytes} :
    exists? t pre path = some content ↔
      ∃ p, located pre path = some p ∧ t.open p = some (.file content) := by
  unfold exists?
  cases hl : located pre path with
  | none => simp
  | some p =>
      rcases ho : t.open p with _|_|_ <;> simp [ho]

end Paths

section Sufficient

-- a reply that sends no other body than `content`
def Reply.Sends (content : Bytes) : Reply → Prop
  | .next => True
  | .redirect _ => True
  | .file sent => sent = content
  | .listing => False
  | .error _ _ => False

theorem serveFile_at_file {t : FileTree} {url : String} {content : Bytes}
    (hfile : t.open (elements url) = some (.file content))
    (hslash : hasSuffix url "/" = true → base url ≠ "/" ∧ base url ≠ ".") :
    (serveFile t url).Sends content := by
  unfold serveFile
  split
  · trivial
  rw [hfile]
  by_cases hs : hasSuffix url "/" = true
  · obtain ⟨hroot,hdot⟩ := hslash hs
    simp [hs,hroot,hdot,Reply.Sends]
  · simp [hs,Reply.Sends]

theorem serveFile_above_file {t : FileTree} {url : String} {p : List String} {content : Bytes}
    (hfile : t.open p = some (.file content)) (hdir : t.open (elements url) = some .dir)
    (hslash : hasSuffix url "/" = true → elements url ++ ["index.html"] = p) :
    (serveFile t url).Sends content := by
  unfold serveFile
  split
  · trivial
  rw [hdir]
  by_cases hs : hasSuffix url "/" = true
  · simp [hs,hslash hs,hfile,Reply.Sends]
  · simp [hs,Reply.Sends]

theorem serveFile_of_agrees {t : FileTree} {url : String} {p : List String} {content : Bytes}
    (hfile : t.open p = some (.file content)) (h : agrees url p = true) :
    (serveFile t url).Sends content := by
  simp only [agrees,Bool.or_eq_true,Bool.and_eq_true,Bool.not_eq_true',decide_eq_true_eq,
    List.isPrefixOf_iff_prefix] at h
  rcases h with (hindex | ⟨rfl,hslash⟩) | ⟨⟨⟨q,hq⟩,hne⟩,hslash⟩
  · simp [serveFile,hindex,Reply.Sends]
  · apply serveFile_at_file hfile
    intro hs
    simpa [hs] using hslash
  · have hbelow : q ≠ [] := by
      rintro rfl
      simp only [List.append_nil] at hq
      exact hne hq
    apply serveFile_above_file hfile
    · apply FileTree.open_above hbelow
      rw [hq]
      exact hfile
    · intro hs
      simpa [hs] using hslash

end Sufficient

section Necessary

-- one empty file at `p`, and the directories above it
def onlyNode (p q : List String) : Option Node :=
  if q = p then some (.file [])
  else if q.isPrefixOf p then some .dir
  else none

def only (p : List String) (h : p ≠ []) : FileTree where
  node := onlyNode p
  root := by
    unfold onlyNode
    rw [if_neg (Ne.symm h)]
    simp
  closed := by
    intro q name hnode
    have hbelow : q ++ [name] <+: p := by
      unfold onlyNode at hnode
      by_cases heq : q ++ [name] = p
      · exact heq ▸ List.prefix_refl p
      · by_contra hno
        rw [if_neg heq,if_neg] at hnode
        · exact hnode rfl
        · simpa using hno
    have hne : q ≠ p := by
      rintro rfl
      have hlen := hbelow.length_le
      rw [List.length_append,List.length_singleton] at hlen
      omega
    unfold onlyNode
    rw [if_neg hne,if_pos]
    rw [List.isPrefixOf_iff_prefix]
    exact (List.prefix_append q [name]).trans hbelow

theorem only_open_self {p : List String} (h : p ≠ []) (hsafe : unsafeName p = false) :
    (only p h).open p = some (.file []) := by
  apply FileTree.open_eq_some.mpr
  simp [hsafe,only,onlyNode]

theorem only_open_file {p q : List String} {h : p ≠ []} {content : Bytes}
    (ho : (only p h).open q = some (.file content)) : q = p := by
  obtain ⟨-,hnode⟩ := FileTree.open_eq_some.mp ho
  by_contra hne
  simp only [only,onlyNode,if_neg hne] at hnode
  split at hnode <;> simp at hnode

theorem only_open_dir {p q : List String} {h : p ≠ []}
    (ho : (only p h).open q = some .dir) : q <+: p ∧ q ≠ p := by
  obtain ⟨-,hnode⟩ := FileTree.open_eq_some.mp ho
  have hne : q ≠ p := by
    rintro rfl
    simp [only,onlyNode] at hnode
  simp only [only,onlyNode,if_neg hne] at hnode
  split at hnode
  case isTrue hpre => exact ⟨List.isPrefixOf_iff_prefix.mp hpre,hne⟩
  case isFalse => simp at hnode

theorem agrees_of_serveFile_only {p : List String} {url : String} (h : p ≠ [])
    (hs : (serveFile (only p h) url).Sends []) : agrees url p = true := by
  simp only [agrees,Bool.or_eq_true,Bool.and_eq_true,Bool.not_eq_true',decide_eq_true_eq,
    List.isPrefixOf_iff_prefix]
  unfold serveFile at hs
  split at hs
  case isTrue hindex => exact .inl (.inl hindex)
  case isFalse =>
    rcases ho : (only p h).open (elements url) with _|_|content
    · rw [ho] at hs
      exact hs.elim
    · obtain ⟨hpre,hne⟩ := only_open_dir ho
      refine .inr ⟨⟨hpre,hne⟩,?_⟩
      cases hslash : hasSuffix url "/" with
      | false => exact .inl rfl
      | true =>
          simp only [ho,hslash,if_true] at hs
          rcases hi : (only p h).open (elements url ++ ["index.html"]) with _|_|content
          · simp [hi,Reply.Sends] at hs
          · simp [hi,Reply.Sends] at hs
          · exact .inr (only_open_file hi)
    · refine .inl (.inr ⟨only_open_file ho,?_⟩)
      cases hslash : hasSuffix url "/" with
      | false => exact .inl rfl
      | true =>
          right
          by_contra hbase
          have hbad : (base url = "/" || base url = ".") = true := by
            simpa [or_iff_not_imp_left] using hbase
          simp [ho,hslash,hbad,Reply.Sends] at hs

end Necessary

section Agreement

theorem honest_iff_sends (urlPrefix : String) (t : FileTree) (req : Request) :
    Honest urlPrefix t req ↔ ∀ content,
      exists? t (normalizePrefix urlPrefix) req.path = some content →
        (fileServer (normalizePrefix urlPrefix) t req).Sends content := by
  cases he : exists? t (normalizePrefix urlPrefix) req.path with
  | none =>
      have hserve : serve urlPrefix t req = .next := by simp [serve,he]
      simp [Honest,hserve]
  | some content =>
      have hserve : serve urlPrefix t req = fileServer (normalizePrefix urlPrefix) t req := by
        simp [serve,he]
      simp only [Honest,hserve,he,Option.some.injEq,forall_eq']
      cases fileServer (normalizePrefix urlPrefix) t req with
      | file sent => exact eq_comm
      | _ => exact Iff.rfl

theorem fileServer_eq (normalized : String) (t : FileTree) (req : Request) :
    fileServer normalized t req =
      if (normalized = "" || strips normalized req) = true then serveFile t (served normalized req)
      else notFound := by
  unfold fileServer served
  by_cases he : normalized = "" <;> simp [he]

theorem honest_of_agreesOn {urlPrefix : String} {req : Request} (h : agreesOn urlPrefix req = true)
    (t : FileTree) : Honest urlPrefix t req := by
  rw [honest_iff_sends]
  intro content he
  obtain ⟨p,hp,hfile⟩ := exists?_eq_some.mp he
  obtain ⟨hsafe,hnode⟩ := FileTree.open_eq_some.mp hfile
  have hne : p ≠ [] := by
    rintro rfl
    rw [t.root] at hnode
    simp at hnode
  simp only [agreesOn,hp,hsafe,hne,decide_false,Bool.false_or] at h
  obtain ⟨hstrips,hagrees⟩ := (Bool.and_eq_true _ _).mp h
  rw [fileServer_eq,if_pos hstrips]
  exact serveFile_of_agrees hfile hagrees

theorem agreesOn_of_honest {urlPrefix : String} {req : Request}
    (h : ∀ t : FileTree, Honest urlPrefix t req) : agreesOn urlPrefix req = true := by
  cases hp : located (normalizePrefix urlPrefix) req.path with
  | none => simp only [agreesOn,hp]
  | some p =>
      simp only [agreesOn,hp]
      by_cases hne : p = []
      · simp [hne]
      cases hsafe : unsafeName p with
      | true => simp
      | false =>
          have hsends := (honest_iff_sends urlPrefix (only p hne) req).mp (h (only p hne)) []
            (exists?_eq_some.mpr ⟨p,hp,only_open_self hne hsafe⟩)
          rw [fileServer_eq] at hsends
          split at hsends
          case isTrue hstrips =>
            simp only [hstrips,agrees_of_serveFile_only hne hsends,Bool.and_self,Bool.or_true]
          case isFalse => exact hsends.elim

theorem served_where_checked_iff (urlPrefix : String) (req : Request) :
    (∀ t : FileTree, Honest urlPrefix t req) ↔ agreesOn urlPrefix req = true :=
  ⟨agreesOn_of_honest,honest_of_agreesOn⟩

-- a public file `x`, and a directory `s/x` that nobody asked to publish
def listedTree : FileTree where
  node p :=
    if p = [] ∨ p = ["s"] ∨ p = ["s","x"] then some .dir
    else if p = ["x"] then some (.file [])
    else none
  root := by simp
  closed := by
    intro p name h
    rcases p with _|⟨a,_|⟨b,p⟩⟩
    · simp
    · by_cases ha : a = "s"
      · simp [ha]
      · simp [ha] at h
    · simp at h

theorem dot_segments_list_directory :
    exists? listedTree (normalizePrefix "/s") "/s/../s/x/" = some [] ∧
    serve "/s" listedTree ⟨"/s/../s/x/",""⟩ = .listing ∧
    ¬ Honest "/s" listedTree ⟨"/s/../s/x/",""⟩ := by
  have hlisting : serve "/s" listedTree ⟨"/s/../s/x/",""⟩ = .listing := by decide +kernel
  refine ⟨by decide +kernel,hlisting,?_⟩
  unfold Honest
  rw [hlisting]
  exact id

end Agreement

end Nimburion.HTTP.Static
