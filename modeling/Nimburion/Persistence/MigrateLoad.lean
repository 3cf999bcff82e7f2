import Mathlib.Data.String.Basic
import Nimburion.Lib.Decimal
import Nimburion.Persistence.Migrate

namespace Nimburion.Persistence.Migrate
open GoText

-- what ReadDir lists, with what ReadFile gives for it
structure Entry where
  name : String
  isDir : Bool
  content : Except GoError String

-- ReadDir sorts by file name
structure Directory where
  entries : List Entry
  sorted : (entries.map Entry.name).Pairwise (· < ·)

def isNameChar (c : Char) : Bool :=
  ('a' ≤ c && c ≤ 'z') || ('A' ≤ c && c ≤ 'Z') || c.isDigit || c = '_' || c = '-'

def Direction.suffix : Direction → List Char
  | .up => ['.','u','p','.','s','q','l']
  | .down => ['.','d','o','w','n','.','s','q','l']

-- the submatches of migrationNamePattern
structure NameMatch where
  digits : List Char
  name : List Char
  direction : Direction
  deriving DecidableEq, Repr

def directionOf (suffix : List Char) : Option Direction :=
  if suffix = Direction.suffix .up then some .up
  else if suffix = Direction.suffix .down then some .down
  else none

def findSubmatch (cs : List Char) : Option NameMatch :=
  match cs.dropWhile Char.isDigit with
  | '_' :: rest =>
      if cs.takeWhile Char.isDigit = [] ∨ rest.takeWhile isNameChar = [] then none
      else (directionOf (rest.dropWhile isNameChar)).map
        (⟨cs.takeWhile Char.isDigit,rest.takeWhile isNameChar,·⟩)
  | _ => none

-- a file that takes part, under its file name
structure File where
  file : String
  version : Int64
  name : String
  direction : Direction
  sql : String
  deriving DecidableEq, Repr

def rangeError (digits : List Char) : GoError :=
  .text ("strconv.ParseInt: parsing " ++ quote (String.ofList digits) ++ ": value out of range")

def parseEntry (e : Entry) : Except GoError (Option File) :=
  if e.isDir then .ok none
  else match findSubmatch e.name.toList with
    | none => .ok none
    | some m =>
        match Decimal.atoi (String.ofList m.digits) with
        | .error _ => .error (.wrapped ("parse migration version " ++
            quote (String.ofList m.digits) ++ ": ") (rangeError m.digits))
        | .ok version =>
            match e.content with
            | .error err => .error (.wrapped ("read migration file " ++ quote e.name ++ ": ") err)
            | .ok payload => .ok (some ⟨e.name,version,String.ofList m.name,m.direction,payload⟩)

structure Partial where
  version : Int64
  name : String
  up : String
  down : String
  deriving DecidableEq, Repr

def Partial.put (p : Partial) (d : Direction) (payload : String) : Partial :=
  match d with
  | .up => { p with up := payload }
  | .down => { p with down := payload }

-- the map is the list of its values; each has its version as key
def recordFile (byVersion : List Partial) (f : File) : List Partial :=
  let byVersion := if byVersion.any (·.version = f.version) then byVersion
    else byVersion ++ [⟨f.version,f.name,"",""⟩]
  byVersion.map fun p => if p.version = f.version then p.put f.direction f.sql else p

def loadEntries (byVersion : List Partial) : List Entry → Except GoError (List Partial)
  | [] => .ok byVersion
  | e :: entries =>
      match parseEntry e with
      | .error err => .error err
      | .ok none => loadEntries byVersion entries
      | .ok (some f) => loadEntries (recordFile byVersion f) entries

def finish : List Partial → Except GoError (List Migration)
  | [] => .ok []
  | item :: items =>
      if trimSpace item.up = "" then
        .error (.text ("missing up migration for version " ++ Decimal.itoa item.version))
      else (finish items).map (⟨item.version,item.name,item.up,item.down⟩ :: ·)

def loadMigrations (dir : Except GoError Directory) : Except GoError (List Migration) :=
  match dir with
  | .error err => .error (.wrapped "read migration files: " err)
  | .ok dir => do
      let byVersion ← loadEntries [] dir.entries
      finish (byVersion.mergeSort fun a b => a.version ≤ b.version)

section Pattern

theorem suffix_stops (d : Direction) : ∃ rest, d.suffix = '.' :: rest := by
  cases d <;> exact ⟨_,rfl⟩

theorem directionOf_suffix (d : Direction) : directionOf d.suffix = some d := by
  cases d <;> rfl

theorem suffix_of_directionOf {suffix : List Char} {d : Direction}
    (h : directionOf suffix = some d) : suffix = d.suffix := by
  unfold directionOf at h
  split_ifs at h with hup hdown
  · cases h
    exact hup
  · cases h
    exact hdown

theorem takeWhile_stop {α : Type} {p : α → Bool} {l : List α} (h : ∀ a ∈ l, p a = true) {x : α}
    (hx : p x = false) (rest : List α) :
    (l ++ x :: rest).takeWhile p = l ∧ (l ++ x :: rest).dropWhile p = x :: rest := by
  rw [List.takeWhile_append_of_pos h,List.dropWhile_append_of_pos h]
  simp [hx]

-- the expression reads a name in one way only
theorem findSubmatch_eq_some_iff {cs : List Char} {m : NameMatch} : findSubmatch cs = some m ↔
    cs = m.digits ++ '_' :: (m.name ++ m.direction.suffix) ∧
      m.digits ≠ [] ∧ (∀ c ∈ m.digits, c.isDigit = true) ∧
      m.name ≠ [] ∧ ∀ c ∈ m.name, isNameChar c = true := by
  constructor
  · intro h
    unfold findSubmatch at h
    split at h
    · rename_i rest hrest
      split_ifs at h with hempty
      rw [not_or] at hempty
      obtain ⟨d,hd,rfl⟩ := Option.map_eq_some_iff.mp h
      refine ⟨?_,hempty.1,fun c hc => List.mem_takeWhile_imp hc,hempty.2,
        fun c hc => List.mem_takeWhile_imp hc⟩
      rw [← suffix_of_directionOf hd,List.takeWhile_append_dropWhile,← hrest,
        List.takeWhile_append_dropWhile]
    · cases h
  · rintro ⟨rfl,hdigits,hall,hname,hchars⟩
    obtain ⟨tail,htail⟩ := suffix_stops m.direction
    obtain ⟨htake,hdrop⟩ := takeWhile_stop hall (x := '_') (by decide) (m.name ++ m.direction.suffix)
    obtain ⟨htake',hdrop'⟩ := takeWhile_stop hchars (x := '.') (by decide) tail
    rw [← htail] at htake' hdrop'
    unfold findSubmatch
    rw [hdrop]
    simp only [htake,htake',hdrop',hdigits,hname,or_self,if_false,directionOf_suffix,Option.map_some]

end Pattern

section Slots

def lookup (byVersion : List Partial) (v : Int64) : Option Partial :=
  byVersion.find? (·.version = v)

theorem version_put (p : Partial) (d : Direction) (sql : String) :
    (p.put d sql).version = p.version := by
  cases d <;> rfl

theorem lookup_map_put (byVersion : List Partial) (f : File) (v : Int64) :
    lookup (byVersion.map fun p => if p.version = f.version then p.put f.direction f.sql else p) v =
      (lookup byVersion v).map fun p => if p.version = f.version then p.put f.direction f.sql
        else p := by
  have hkey : ((fun p : Partial => decide (p.version = v)) ∘ fun p : Partial =>
      if p.version = f.version then p.put f.direction f.sql else p) =
        fun p => decide (p.version = v) := by
    funext p
    rw [Function.comp_apply]
    split_ifs
    · rw [version_put]
    · rfl
  rw [lookup,List.find?_map,hkey]
  rfl

theorem lookup_eq_none_iff {byVersion : List Partial} {v : Int64} :
    lookup byVersion v = none ↔ byVersion.any (·.version = v) = false := by
  simp [lookup]

theorem lookup_version {byVersion : List Partial} {v : Int64} {p : Partial}
    (h : lookup byVersion v = some p) : p.version = v := by
  simpa using List.find?_some h

theorem lookup_recordFile (byVersion : List Partial) (f : File) (v : Int64) :
    lookup (recordFile byVersion f) v = if v = f.version then
      some (((lookup byVersion v).getD ⟨f.version,f.name,"",""⟩).put f.direction f.sql)
    else lookup byVersion v := by
  have hput : ∀ {p : Partial}, lookup byVersion v = some p →
      (if p.version = f.version then p.put f.direction f.sql else p) =
        if v = f.version then p.put f.direction f.sql else p :=
    fun hp => by rw [lookup_version hp]
  unfold recordFile
  rw [lookup_map_put]
  cases hany : byVersion.any (·.version = f.version) with
  | true =>
    rw [if_pos rfl]
    cases hp : lookup byVersion v with
    | none =>
      have hne : v ≠ f.version := by
        rintro rfl
        rw [lookup_eq_none_iff.mp hp] at hany
        cases hany
      rw [if_neg hne]
      rfl
    | some p =>
      rw [Option.map_some,hput hp]
      split_ifs <;> rfl
  | false =>
    have happ : lookup (byVersion ++ [⟨f.version,f.name,"",""⟩]) v = (lookup byVersion v).or
        (if v = f.version then some ⟨f.version,f.name,"",""⟩ else none) := by
      rw [lookup,List.find?_append]
      congr 1
      by_cases hv : v = f.version
      · simp [hv]
      · simp [hv,Ne.symm hv]
    rw [if_neg (by simp),happ]
    cases hp : lookup byVersion v with
    | none =>
      rw [Option.none_or]
      split_ifs with hv
      · simp
      · rfl
    | some p =>
      rw [Option.some_or,Option.map_some,hput hp]
      split_ifs <;> rfl

-- the SQL that ends up in a slot is that of the last file for it
def lastSQL (files : List File) (v : Int64) (d : Direction) : String :=
  ((files.filter fun f => f.version = v ∧ f.direction = d).getLast?.map File.sql).getD ""

theorem lastSQL_concat (files : List File) (f : File) (v : Int64) (d : Direction) :
    lastSQL (files ++ [f]) v d =
      if f.version = v ∧ f.direction = d then f.sql else lastSQL files v d := by
  unfold lastSQL
  rw [List.filter_append]
  split_ifs with hf
  · simp [hf]
  · simp [hf]

def filed (files : List File) : List Partial := files.foldl recordFile []

theorem lookup_filed (files : List File) (v : Int64) : lookup (filed files) v =
    (files.find? (·.version = v)).map fun f =>
      ⟨v,f.name,lastSQL files v .up,lastSQL files v .down⟩ := by
  induction files using List.reverseRecOn with
  | nil => rfl
  | append_singleton files f ih =>
    have hstep : filed (files ++ [f]) = recordFile (filed files) f := by
      rw [filed,List.foldl_append]
      rfl
    rw [hstep,lookup_recordFile,ih,List.find?_append,lastSQL_concat,lastSQL_concat]
    by_cases hv : v = f.version
    · subst hv
      rw [if_pos rfl]
      cases hfind : files.find? (·.version = f.version) with
      | none =>
        have hnone : ∀ d, lastSQL files f.version d = "" := by
          intro d
          have hempty : (files.filter fun g => g.version = f.version ∧ g.direction = d) = [] := by
            rw [List.filter_eq_nil_iff]
            intro g hg
            have hne := List.find?_eq_none.mp hfind g hg
            simp only [decide_eq_true_eq] at hne ⊢
            exact fun hboth => hne hboth.1
          rw [lastSQL,hempty]
          rfl
        rw [hnone,hnone]
        cases hd : f.direction <;> simp [Partial.put]
      | some g => cases hd : f.direction <;> simp [Partial.put]
    · rw [if_neg hv]
      simp [Ne.symm hv]

theorem versions_recordFile (byVersion : List Partial) (f : File) :
    (recordFile byVersion f).map Partial.version =
      if byVersion.any (·.version = f.version) then byVersion.map Partial.version
      else byVersion.map Partial.version ++ [f.version] := by
  have hput : ∀ ps : List Partial, (ps.map fun p => if p.version = f.version then
      p.put f.direction f.sql else p).map Partial.version = ps.map Partial.version := by
    intro ps
    rw [List.map_map]
    refine List.map_congr_left fun p _ => ?_
    rw [Function.comp_apply]
    split_ifs
    · exact version_put p f.direction f.sql
    · rfl
  unfold recordFile
  rw [hput]
  split_ifs
  · rfl
  · rw [List.map_append]
    rfl

theorem nodup_filed (files : List File) : ((filed files).map Partial.version).Nodup := by
  induction files using List.reverseRecOn with
  | nil => exact List.nodup_nil
  | append_singleton files f ih =>
    have hstep : filed (files ++ [f]) = recordFile (filed files) f := by
      rw [filed,List.foldl_append]
      rfl
    rw [hstep,versions_recordFile]
    split_ifs with hany
    · exact ih
    · rw [List.nodup_append]
      refine ⟨ih,List.nodup_singleton _,fun v hv w hw heq => hany ?_⟩
      obtain ⟨p,hp,rfl⟩ := List.mem_map.mp hv
      rw [List.mem_singleton] at hw
      exact List.any_eq_true.mpr ⟨p,hp,by simpa using heq.trans hw⟩

theorem mem_iff_lookup {byVersion : List Partial} (h : (byVersion.map Partial.version).Nodup)
    {p : Partial} : p ∈ byVersion ↔ lookup byVersion p.version = some p := by
  constructor
  · intro hp
    cases hq : lookup byVersion p.version with
    | none =>
      have hnone := lookup_eq_none_iff.mp hq
      rw [List.any_eq_false] at hnone
      exact absurd (decide_eq_true rfl) (hnone p hp)
    | some q =>
      exact congrArg some (List.inj_on_of_nodup_map h (List.mem_of_find?_eq_some hq) hp
        (lookup_version hq))
  · exact List.mem_of_find?_eq_some

end Slots

section Reading

def files (entries : List Entry) : List File :=
  entries.filterMap fun e => (parseEntry e).toOption.join

theorem loadEntries_ok {entries : List Entry} (h : ∀ e ∈ entries, ∃ o, parseEntry e = .ok o)
    (byVersion : List Partial) :
    loadEntries byVersion entries = .ok ((files entries).foldl recordFile byVersion) := by
  induction entries generalizing byVersion with
  | nil => rfl
  | cons e entries ih =>
    obtain ⟨⟨o,ho⟩,hrest⟩ := List.forall_mem_cons.mp h
    rw [loadEntries,ho]
    cases o with
    | none => simp [files,ho,ih hrest,Except.toOption]
    | some f => simp [files,ho,ih hrest,Except.toOption]

theorem loadEntries_error {entries : List Entry} (h : ∃ e ∈ entries, ∃ err, parseEntry e = .error err)
    (byVersion : List Partial) : ∃ err, loadEntries byVersion entries = .error err := by
  induction entries generalizing byVersion with
  | nil => simp at h
  | cons e entries ih =>
    rw [loadEntries]
    cases he : parseEntry e with
    | error err => exact ⟨err,rfl⟩
    | ok o =>
      have hrest : ∃ e ∈ entries, ∃ err, parseEntry e = .error err := by
        rw [List.exists_mem_cons_iff] at h
        refine h.resolve_left ?_
        rintro ⟨err,herr⟩
        rw [he] at herr
        cases herr
      cases o with
      | none => exact ih hrest _
      | some f => exact ih hrest _

def Partial.toMigration (p : Partial) : Migration := ⟨p.version,p.name,p.up,p.down⟩

theorem finish_ok {items : List Partial} (h : ∀ p ∈ items, trimSpace p.up ≠ "") :
    finish items = .ok (items.map Partial.toMigration) := by
  induction items with
  | nil => rfl
  | cons p items ih =>
    obtain ⟨hp,hrest⟩ := List.forall_mem_cons.mp h
    rw [finish,if_neg hp,ih hrest]
    rfl

theorem finish_error {items : List Partial} (h : ∃ p ∈ items, trimSpace p.up = "") :
    ∃ err, finish items = .error err := by
  induction items with
  | nil => simp at h
  | cons p items ih =>
    rw [finish]
    split_ifs with hp
    · exact ⟨_,rfl⟩
    · rw [List.exists_mem_cons_iff] at h
      obtain ⟨err,herr⟩ := ih (h.resolve_left hp)
      exact ⟨err,by rw [herr]; rfl⟩

def arranged (ps : List Partial) : List Partial := ps.mergeSort fun a b => a.version ≤ b.version

theorem arranged_increasing {ps : List Partial} (h : (ps.map Partial.version).Nodup) :
    (arranged ps).Pairwise fun a b => a.version < b.version := by
  have hsorted : (arranged ps).Pairwise fun a b => decide (a.version ≤ b.version) = true := by
    refine List.pairwise_mergeSort ?_ ?_ ps
    · intro a b c hab hbc
      simp only [decide_eq_true_eq] at *
      exact Int64.le_trans hab hbc
    · intro a b
      simp only [Bool.or_eq_true,decide_eq_true_eq]
      exact Int64.le_total _ _
  have hnodup : ((arranged ps).map Partial.version).Nodup :=
    ((List.mergeSort_perm _ _).map _).nodup_iff.mpr h
  have hne := List.pairwise_map.mp hnodup
  refine (hsorted.and hne).imp fun {a b} hab => ?_
  exact Int64.lt_of_le_of_ne (of_decide_eq_true hab.1) hab.2

-- a file of the pattern that has no number in range or cannot be read
def Unreadable (e : Entry) : Prop :=
  e.isDir = false ∧ ∃ m, findSubmatch e.name.toList = some m ∧
    (2^63 ≤ Decimal.value m.digits ∨ ∃ err, e.content = .error err)

theorem atoi_digits {ds : List Char} (hne : ds ≠ []) (hall : ∀ c ∈ ds, c.isDigit = true) :
    Decimal.atoi (String.ofList ds) =
      if Decimal.value ds < 2^63 then .ok (Int64.ofInt (Decimal.value ds)) else .error .outOfRange := by
  have hdigits : Decimal.atoiDigits false ds =
      if Decimal.value ds < 2^63 then .ok (Int64.ofInt (Decimal.value ds))
      else .error .outOfRange := by
    have hnot : ¬ (ds = [] ∨ ds.all Char.isDigit = false) := by
      rw [not_or,Bool.not_eq_false,List.all_eq_true]
      exact ⟨hne,hall⟩
    rw [Decimal.atoiDigits,if_neg hnot,if_neg (by simp)]
  rw [Decimal.atoi,String.toList_ofList]
  split
  · exact absurd (hall '-' List.mem_cons_self) (by decide)
  · exact absurd (hall '+' List.mem_cons_self) (by decide)
  · exact hdigits

theorem parseEntry_error_iff {e : Entry} :
    (∃ err, parseEntry e = .error err) ↔ Unreadable e := by
  unfold parseEntry Unreadable
  cases hdir : e.isDir with
  | true => simp
  | false =>
    rw [if_neg (by simp)]
    cases hm : findSubmatch e.name.toList with
    | none => simp
    | some m =>
      obtain ⟨-,hne,hall,-,-⟩ := findSubmatch_eq_some_iff.mp hm
      simp only [atoi_digits hne hall,Option.some.injEq,exists_eq_left',true_and]
      by_cases hrange : Decimal.value m.digits < 2^63
      · rw [if_pos hrange]
        cases hcontent : e.content with
        | error err => simp
        | ok payload => simp; omega
      · rw [if_neg hrange]
        exact iff_of_true ⟨_,rfl⟩ (.inl (Nat.not_lt.mp hrange))

end Reading

section Loading

def Migration.sql (m : Migration) : Direction → String
  | .up => m.upSQL
  | .down => m.downSQL

-- the slot of a file holds its SQL and has no other file, an up and a down go together by name, and
-- no version is loaded without a file
structure Lossless (files : List File) (ms : List Migration) : Prop where
  increasing : ms.Pairwise fun a b => a.version < b.version
  stored : ∀ f ∈ files, ∃ m ∈ ms, m.version = f.version ∧ m.sql f.direction = f.sql ∧
    ∀ g ∈ files, g.version = m.version → g.direction = f.direction → g = f
  together : ∀ m ∈ ms, ∀ f ∈ files, ∀ g ∈ files, f.version = m.version → g.version = m.version →
    f.direction = .up → g.direction = .down → f.name = g.name
  filed : ∀ m ∈ ms, ∃ f ∈ files, f.version = m.version

structure Separate (files : List File) : Prop where
  slots : ∀ f ∈ files, ∀ g ∈ files, f.version = g.version → f.direction = g.direction → f = g
  names : ∀ f ∈ files, ∀ g ∈ files, f.version = g.version → f.name = g.name

def listed : Except GoError Directory → List File
  | .error _ => []
  | .ok dir => files dir.entries

def Refused : Except GoError Directory → Prop
  | .error _ => True
  | .ok dir => (∃ e ∈ dir.entries, Unreadable e) ∨
      ∃ f ∈ files dir.entries, trimSpace (lastSQL (files dir.entries) f.version .up) = ""

theorem mem_filed_iff {fs : List File} {p : Partial} : p ∈ filed fs ↔
    ∃ f, fs.find? (·.version = p.version) = some f ∧
      p = ⟨p.version,f.name,lastSQL fs p.version .up,lastSQL fs p.version .down⟩ := by
  rw [mem_iff_lookup (nodup_filed fs),lookup_filed,Option.map_eq_some_iff]
  simp only [eq_comm]

theorem exists_filed {fs : List File} {f : File} (hf : f ∈ fs) : ∃ p ∈ filed fs,
    p.version = f.version ∧ ∀ d, p.toMigration.sql d = lastSQL fs f.version d := by
  have hfind : ∃ g, fs.find? (·.version = f.version) = some g := by
    rw [← Option.isSome_iff_exists,List.find?_isSome]
    exact ⟨f,hf,by simp⟩
  obtain ⟨g,hg⟩ := hfind
  refine ⟨⟨f.version,g.name,lastSQL fs f.version .up,lastSQL fs f.version .down⟩,
    mem_filed_iff.mpr ⟨g,hg,rfl⟩,rfl,fun d => ?_⟩
  cases d <;> rfl

theorem up_of_mem_filed {fs : List File} {p : Partial} (h : p ∈ filed fs) :
    p.up = lastSQL fs p.version .up ∧ ∃ f ∈ fs, f.version = p.version := by
  obtain ⟨f,hf,hp⟩ := mem_filed_iff.mp h
  refine ⟨by rw [hp],f,List.mem_of_find?_eq_some hf,?_⟩
  simpa using List.find?_some hf

theorem loadMigrations_cases (dir : Except GoError Directory) :
    (Refused dir ∧ ∃ err, loadMigrations dir = .error err) ∨
    (¬ Refused dir ∧ loadMigrations dir =
      .ok ((arranged (filed (listed dir))).map Partial.toMigration)) := by
  cases dir with
  | error err => exact .inl ⟨trivial,_,rfl⟩
  | ok dir =>
    by_cases hread : ∃ e ∈ dir.entries, Unreadable e
    · have hbad : ∃ e ∈ dir.entries, ∃ err, parseEntry e = .error err := by
        simpa only [parseEntry_error_iff] using hread
      obtain ⟨err,herr⟩ := loadEntries_error hbad []
      exact .inl ⟨.inl hread,err,by rw [loadMigrations,herr]; rfl⟩
    · have hgood : ∀ e ∈ dir.entries, ∃ o, parseEntry e = .ok o := by
        intro e he
        cases hparse : parseEntry e with
        | ok o => exact ⟨o,rfl⟩
        | error err => exact absurd ⟨e,he,parseEntry_error_iff.mp ⟨err,hparse⟩⟩ hread
      have hload : loadMigrations (.ok dir) = finish (arranged (filed (files dir.entries))) := by
        rw [loadMigrations,loadEntries_ok hgood]
        rfl
      have hmem : ∀ {p}, p ∈ arranged (filed (files dir.entries)) ↔ p ∈ filed (files dir.entries) :=
        List.mem_mergeSort
      by_cases hblank : ∃ f ∈ files dir.entries,
          trimSpace (lastSQL (files dir.entries) f.version .up) = ""
      · obtain ⟨f,hf,hup⟩ := hblank
        obtain ⟨p,hp,hversion,hsql⟩ := exists_filed hf
        have hitem : ∃ p ∈ arranged (filed (files dir.entries)), trimSpace p.up = "" :=
          ⟨p,hmem.mpr hp,by rw [← hup,← hsql .up]; rfl⟩
        obtain ⟨err,herr⟩ := finish_error hitem
        exact .inl ⟨.inr ⟨f,hf,hup⟩,err,hload.trans herr⟩
      · refine .inr ⟨fun href => href.elim hread hblank,?_⟩
        rw [hload,listed]
        refine finish_ok fun p hp hup => hblank ?_
        obtain ⟨hsql,f,hf,hversion⟩ := up_of_mem_filed (hmem.mp hp)
        exact ⟨f,hf,by rw [hversion,← hsql,hup]⟩

theorem loaded_increasing {dir : Except GoError Directory} {ms : List Migration}
    (h : loadMigrations dir = .ok ms) : ms.Pairwise fun a b => a.version < b.version := by
  rcases loadMigrations_cases dir with ⟨-,err,herr⟩ | ⟨-,hload⟩
  · rw [herr] at h
    cases h
  · rw [hload,Except.ok.injEq] at h
    rw [← h,List.pairwise_map]
    exact arranged_increasing (nodup_filed _)

theorem lastSQL_of_only {fs : List File} {f : File} (hf : f ∈ fs)
    (honly : ∀ g ∈ fs, g.version = f.version → g.direction = f.direction → g = f) :
    lastSQL fs f.version f.direction = f.sql := by
  have hall : ∀ g ∈ fs.filter (fun g => g.version = f.version ∧ g.direction = f.direction),
      g = f := by
    intro g hg
    obtain ⟨hmem,hslot⟩ := List.mem_filter.mp hg
    have hslot' := of_decide_eq_true hslot
    exact honly g hmem hslot'.1 hslot'.2
  have hne : fs.filter (fun g => g.version = f.version ∧ g.direction = f.direction) ≠ [] := by
    exact List.ne_nil_of_mem (List.mem_filter.mpr ⟨hf,by simp⟩)
  rw [lastSQL,List.getLast?_eq_some_getLast hne,Option.map_some,Option.getD_some,
    hall _ (List.getLast_mem hne)]

theorem lossless_iff_separate (fs : List File) :
    Lossless fs ((arranged (filed fs)).map Partial.toMigration) ↔ Separate fs := by
  constructor
  · intro h
    refine ⟨fun f hf g hg hversion hdirection => ?_,fun f hf g hg hversion => ?_⟩
    · obtain ⟨m,-,hm,-,honly⟩ := h.stored f hf
      exact (honly g hg (hversion.symm.trans hm.symm) hdirection.symm).symm
    · obtain ⟨m,hmem,hm,-,honly⟩ := h.stored f hf
      by_cases hdirection : g.direction = f.direction
      · rw [honly g hg (hversion.symm.trans hm.symm) hdirection]
      · have hgm : g.version = m.version := hversion.symm.trans hm.symm
        cases hf' : f.direction with
        | up =>
          cases hg' : g.direction with
          | up => exact absurd (hg'.trans hf'.symm) hdirection
          | down => exact h.together m hmem f hf g hg hm.symm hgm hf' hg'
        | down =>
          cases hg' : g.direction with
          | up => exact (h.together m hmem g hg f hf hgm hm.symm hg' hf').symm
          | down => exact absurd (hg'.trans hf'.symm) hdirection
  · intro h
    refine ⟨?_,fun f hf => ?_,
      fun m _ f hf g hg hfm hgm _ _ => h.names f hf g hg (hfm.trans hgm.symm),fun m hm => ?_⟩
    · rw [List.pairwise_map]
      exact arranged_increasing (nodup_filed fs)
    · obtain ⟨p,hp,hversion,hsql⟩ := exists_filed hf
      have honly : ∀ g ∈ fs, g.version = f.version → g.direction = f.direction → g = f :=
        fun g hg hv hd => h.slots g hg f hf hv hd
      refine ⟨p.toMigration,List.mem_map_of_mem (List.mem_mergeSort.mpr hp),hversion,?_,
        fun g hg hgm hd => honly g hg (hgm.trans hversion) hd⟩
      rw [hsql,lastSQL_of_only hf honly]
    · obtain ⟨p,hp,rfl⟩ := List.mem_map.mp hm
      exact (up_of_mem_filed (List.mem_mergeSort.mp hp)).2

theorem load_lossless_iff (dir : Except GoError Directory) :
    (∀ ms, loadMigrations dir = .ok ms → Lossless (listed dir) ms) ↔
      Refused dir ∨ Separate (listed dir) := by
  rcases loadMigrations_cases dir with ⟨hrefused,err,herr⟩ | ⟨hnot,hload⟩
  · refine iff_of_true (fun ms hms => ?_) (.inl hrefused)
    rw [herr] at hms
    cases hms
  · rw [hload]
    constructor
    · intro h
      exact .inr ((lossless_iff_separate _).mp (h _ rfl))
    · rintro (hrefused | hseparate) ms hms
      · exact absurd hrefused hnot
      · cases hms
        exact (lossless_iff_separate _).mpr hseparate

def zeroPadded : Directory where
  entries := [⟨"01_b.up.sql",false,.ok "CREATE b"⟩,⟨"1_a.up.sql",false,.ok "CREATE a"⟩]
  sorted := by decide

theorem padded_version_dropped :
    loadMigrations (.ok zeroPadded) = .ok [⟨1,"b","CREATE a",""⟩] ∧
    ¬ ∀ ms, loadMigrations (.ok zeroPadded) = .ok ms → Lossless (listed (.ok zeroPadded)) ms := by
  have hentries : loadEntries [] zeroPadded.entries = .ok [⟨1,"b","CREATE a",""⟩] := by
    decide +kernel
  have hlisted : listed (.ok zeroPadded) = [⟨"01_b.up.sql",1,"b",.up,"CREATE b"⟩,
      ⟨"1_a.up.sql",1,"a",.up,"CREATE a"⟩] := by decide +kernel
  have hup : trimSpace "CREATE a" ≠ "" := by decide +kernel
  have hload : loadMigrations (.ok zeroPadded) = .ok [⟨1,"b","CREATE a",""⟩] := by
    rw [loadMigrations,hentries]
    simp [finish,hup,bind,Except.bind,Except.map]
  refine ⟨hload,fun h => ?_⟩
  obtain ⟨m,hm,-,hsql,-⟩ := (h _ hload).stored ⟨"01_b.up.sql",1,"b",.up,"CREATE b"⟩
    (by rw [hlisted]; simp)
  rw [List.mem_singleton] at hm
  rw [hm] at hsql
  exact absurd hsql (by decide +kernel)

-- NewSQLManager, given a database and a file system
def newSQLManager (migrationsDir : String) (dir : Except GoError Directory) :
    Except GoError SQLManager :=
  if trimSpace migrationsDir = "" then .error (.text "migration directory is required")
  else match hload : loadMigrations dir with
    | .error err => .error err
    | .ok ms => .ok ⟨ms,loaded_increasing hload⟩

end Loading

end Nimburion.Persistence.Migrate
