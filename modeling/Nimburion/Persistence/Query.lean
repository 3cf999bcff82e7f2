import Mathlib.Data.String.Basic
import Mathlib.Data.List.Sort
import Nimburion.Errors
import Nimburion.Lib.GoText

namespace Nimburion.Persistence.Query
open GoText

-- the members of the map
abbrev ColumnAllowlist := List String

def newColumnAllowlist (columns : List String) : ColumnAllowlist :=
  (columns.map trimSpace).filter (· ≠ "")

def ColumnAllowlist.allows (a : ColumnAllowlist) (column : String) : Bool :=
  if a.length = 0 then false else column ∈ a

def errColumnNotAllowed : GoError := .text "relational column not allowed"

inductive Dialect where
  | postgres
  | mysql
  deriving DecidableEq, Repr

def Dialect.placeholder : Dialect → ℕ → String
  | .postgres, index => "$" ++ toString index
  | .mysql, _ => "?"

-- a column of a row, NULL being none
abbrev Row (V : Type) := String → Option V

-- a map from names to values; `entries` is in the order the map is ranged over
structure Filter (V : Type) where
  entries : List (String × Option V)
  nodup : (entries.map Prod.fst).Nodup

namespace Filter

variable {V : Type} (filter : Filter V)

def fields : List String := filter.entries.map Prod.fst

def get (field : String) : Option V := (filter.entries.lookup field).join

end Filter

def sortedFilterFields {V : Type} (filter : Filter V) : List String :=
  filter.fields.mergeSort (· ≤ ·)

-- Sort
structure Sorting where
  field : String
  order : String
  deriving DecidableEq, Repr

structure Pagination where
  page : Int64
  pageSize : Int64
  deriving DecidableEq, Repr

namespace Pagination

def offset (p : Pagination) : Int64 := if p.page ≤ 0 then 0 else (p.page-1)*p.pageSize

def limit (p : Pagination) : Int64 := p.pageSize

end Pagination

structure QueryOptions (V : Type) where
  filter : Filter V
  sort : Sorting
  pagination : Pagination

inductive Arg (V : Type) where
  | value (v : Option V)
  | int (n : Int64)
  deriving DecidableEq, Repr

inductive Token where
  | text (s : String)
  | column (name : String)
  | placeholder (index : ℕ)
  deriving DecidableEq, Repr

def Token.render (d : Dialect) : Token → String
  | .text s => s
  | .column name => name
  | .placeholder index => d.placeholder index

-- SELECT what FROM table WHERE column = placeholder AND … ORDER BY column LIMIT … OFFSET …
structure Select where
  what : String
  table : String
  wheres : List (String × ℕ)
  orderBy : Option (String × Bool)
  page : Option (ℕ × ℕ)
  deriving DecidableEq, Repr

namespace Select

variable (s : Select)

def whereTokens : List Token :=
  if s.wheres = [] then []
  else Token.text " WHERE " :: [Token.text " AND "].intercalate
    (s.wheres.map fun w => [Token.column w.1,Token.text " = ",Token.placeholder w.2])

def orderTokens : List Token :=
  match s.orderBy with
  | none => []
  | some (field,desc) =>
      [.text " ORDER BY ",.column field,.text " ",.text (if desc then "DESC" else "ASC")]

def pageTokens : List Token :=
  match s.page with
  | none => []
  | some (limit,offset) =>
      [.text " LIMIT ",.placeholder limit,.text " OFFSET ",.placeholder offset]

def tokens : List Token :=
  [.text "SELECT ",.text s.what,.text " FROM ",.text s.table] ++ s.whereTokens ++ s.orderTokens ++
    s.pageTokens

-- the query text
def sql (d : Dialect) : String := String.join (s.tokens.map (Token.render d))

def columns : List String :=
  s.tokens.filterMap fun
    | .column name => some name
    | _ => none

def placeholders : List ℕ :=
  s.tokens.filterMap fun
    | .placeholder index => some index
    | _ => none

end Select

structure Statement (V : Type) where
  select : Select
  args : List (Arg V)

structure Repository (T V : Type) where
  tableName : String
  dialect : Dialect
  fromRow : Row V → Except GoError T
  allowlist : ColumnAllowlist

-- the optional parameter is a variadic one; without it the map is nil
def newGenericCrudRepository {T V : Type} (tableName : String) (dialect : Dialect)
    (fromRow : Row V → Except GoError T) (allowlist : List ColumnAllowlist) : Repository T V :=
  ⟨tableName,dialect,fromRow,allowlist.head?.getD []⟩

section Builders

variable {T V : Type} (r : Repository T V)

-- %w: %q
def validateColumnAllowed (column : String) : Option GoError :=
  if r.allowlist.length = 0 then none
  else if r.allowlist.allows column then none
  else some (.pair "" ": " errColumnNotAllowed (.text (quote column)))

-- the loop over the sorted fields, the same in FindAll and Count
def filterClauses (filter : Filter V) (argIndex : ℕ) :
    List String → Except GoError (List (String × ℕ) × List (Arg V))
  | [] => .ok ([],[])
  | field :: fields =>
      match validateColumnAllowed r field with
      | some err => .error err
      | none =>
        match filterClauses filter (argIndex+1) fields with
        | .error err => .error err
        | .ok (clauses,args) =>
            .ok ((field,argIndex) :: clauses,Arg.value (filter.get field) :: args)

def sortClause (sort : Sorting) : Except GoError (Option (String × Bool)) :=
  if sort.field ≠ "" then
    match validateColumnAllowed r sort.field with
    | some err => .error err
    | none => .ok (some (sort.field,sort.order = "desc"))
  else .ok none

def findAllStatement (opts : QueryOptions V) : Except GoError (Statement V) := do
  let (clauses,args) ← filterClauses r opts.filter 1 (sortedFilterFields opts.filter)
  let orderBy ← sortClause r opts.sort
  let argIndex := clauses.length+1
  if 0 < opts.pagination.pageSize then
    .ok ⟨⟨"*",r.tableName,clauses,orderBy,some (argIndex,argIndex+1)⟩,
      args ++ [.int opts.pagination.limit,.int opts.pagination.offset]⟩
  else .ok ⟨⟨"*",r.tableName,clauses,orderBy,none⟩,args⟩

def countStatement (filter : Filter V) : Except GoError (Statement V) := do
  let (clauses,args) ← filterClauses r filter 1 (sortedFilterFields filter)
  .ok ⟨⟨"COUNT(*)",r.tableName,clauses,none,none⟩,args⟩

-- what QueryContext yields before rows.Err, and QueryRowContext after Scan
structure Executor (V : Type) where
  query : Statement V → Except GoError (List (Row V))
  queryRow : Statement V → Except GoError Int64

def scanRows : List (Row V) → Except GoError (List T)
  | [] => .ok []
  | row :: rows =>
      match r.fromRow row with
      | .error err => .error (.wrapped "failed to scan entity: " err)
      | .ok entity => (scanRows rows).map (entity :: ·)

-- with the statements that were sent
def findAll (db : Executor V) (opts : QueryOptions V) :
    List (Statement V) × Except GoError (List T) :=
  match findAllStatement r opts with
  | .error err => ([],.error err)
  | .ok stmt => ([stmt],match db.query stmt with
      | .error err => .error (.wrapped "failed to query entities: " err)
      | .ok rows => scanRows r rows)

def count (db : Executor V) (filter : Filter V) : List (Statement V) × Except GoError Int64 :=
  match countStatement r filter with
  | .error err => ([],.error err)
  | .ok stmt => ([stmt],match db.queryRow stmt with
      | .error err => .error (.wrapped "failed to count entities: " err)
      | .ok n => .ok n)

end Builders

-- the names that a call interpolates
def QueryOptions.columns {V : Type} (opts : QueryOptions V) : List String :=
  sortedFilterFields opts.filter ++ if opts.sort.field ≠ "" then [opts.sort.field] else []

section Tokens

theorem filterMap_intercalate {α β : Type} {f : α → Option β} {sep : List α}
    (hsep : sep.filterMap f = []) (ls : List (List α)) :
    (sep.intercalate ls).filterMap f = ls.flatMap fun l => l.filterMap f := by
  induction ls with
  | nil => rfl
  | cons l ls ih =>
    cases ls with
    | nil => simp
    | cons l' ls =>
      rw [List.intercalate_cons_cons,List.filterMap_append,List.filterMap_append,hsep,ih]
      simp

theorem whereTokens_filterMap {α : Type} {f : Token → Option α} (htext : ∀ s, f (.text s) = none)
    (s : Select) : s.whereTokens.filterMap f = s.wheres.flatMap fun w =>
      (f (.column w.1)).toList ++ (f (.placeholder w.2)).toList := by
  unfold Select.whereTokens
  split_ifs with hnil
  · rw [hnil]
    rfl
  · have hand : [Token.text " AND "].filterMap f = [] := by simp [htext]
    rw [List.filterMap_cons,htext,filterMap_intercalate hand,List.flatMap_map]
    refine List.flatMap_congr fun w _ => ?_
    cases hcolumn : f (.column w.1) <;> cases hplace : f (.placeholder w.2) <;>
      simp [htext,hcolumn,hplace]

theorem columns_eq (s : Select) :
    s.columns = s.wheres.map Prod.fst ++ (s.orderBy.map Prod.fst).toList := by
  have horder : ∀ o : Option (String × Bool), o = s.orderBy →
      s.columns = s.wheres.map Prod.fst ++ (o.map Prod.fst).toList := by
    intro o ho
    unfold Select.columns Select.tokens Select.orderTokens Select.pageTokens
    rw [List.filterMap_append,List.filterMap_append,List.filterMap_append,
      whereTokens_filterMap fun _ => rfl,List.map_eq_flatMap,← ho]
    cases o <;> cases s.page <;> simp
  exact horder _ rfl

theorem placeholders_eq (s : Select) : s.placeholders = s.wheres.map Prod.snd ++
    s.page.toList.flatMap fun p => [p.1,p.2] := by
  have hpage : ∀ o : Option (ℕ × ℕ), o = s.page →
      s.placeholders = s.wheres.map Prod.snd ++ o.toList.flatMap fun p => [p.1,p.2] := by
    intro o ho
    unfold Select.placeholders Select.tokens Select.orderTokens Select.pageTokens
    rw [List.filterMap_append,List.filterMap_append,List.filterMap_append,
      whereTokens_filterMap fun _ => rfl,List.map_eq_flatMap,← ho]
    cases o <;> cases s.orderBy <;> simp
  exact hpage _ rfl

end Tokens

section Validation

variable {T V : Type} {r : Repository T V}

theorem validateColumnAllowed_eq_none_iff {column : String} :
    validateColumnAllowed r column = none ↔ r.allowlist = [] ∨ column ∈ r.allowlist := by
  unfold validateColumnAllowed ColumnAllowlist.allows
  cases hlist : r.allowlist with
  | nil => simp
  | cons a as => simp [or_iff_not_imp_left]

theorem validateColumnAllowed_error {column : String} {err : GoError}
    (h : validateColumnAllowed r column = some err) : errColumnNotAllowed.wraps err = true := by
  unfold validateColumnAllowed at h
  split_ifs at h
  cases h
  simp [GoError.wraps,errColumnNotAllowed]

theorem filterClauses_ok (filter : Filter V) {fields : List String} (k : ℕ)
    (h : ∀ f ∈ fields, validateColumnAllowed r f = none) : filterClauses r filter k fields =
      .ok (fields.zipIdx k,fields.map fun f => Arg.value (filter.get f)) := by
  induction fields generalizing k with
  | nil => rfl
  | cons f fields ih =>
    obtain ⟨hf,hfields⟩ := List.forall_mem_cons.mp h
    rw [filterClauses,hf]
    simp only [ih (k+1) hfields,List.zipIdx_cons,List.map_cons]

theorem filterClauses_error (filter : Filter V) {fields : List String} (k : ℕ)
    (h : ∃ f ∈ fields, validateColumnAllowed r f ≠ none) :
    ∃ err, filterClauses r filter k fields = .error err ∧ errColumnNotAllowed.wraps err = true := by
  induction fields generalizing k with
  | nil => simp at h
  | cons f fields ih =>
    rw [filterClauses]
    cases hf : validateColumnAllowed r f with
    | some err => exact ⟨err,rfl,validateColumnAllowed_error hf⟩
    | none =>
      rw [List.exists_mem_cons_iff] at h
      obtain ⟨err,herr,hwraps⟩ := ih (k+1) (h.resolve_left fun hnot => hnot hf)
      exact ⟨err,by simp only [herr],hwraps⟩

-- the statement a call sends when all its names are allowed
def filterStatement (r : Repository T V) (what : String) (filter : Filter V)
    (orderBy : Option (String × Bool)) : Statement V :=
  ⟨⟨what,r.tableName,(sortedFilterFields filter).zipIdx 1,orderBy,none⟩,
    (sortedFilterFields filter).map fun f => Arg.value (filter.get f)⟩

def pageOf (p : Pagination) (s : Statement V) : Statement V :=
  if 0 < p.pageSize then
    ⟨{ s.select with page := some (s.select.wheres.length+1,s.select.wheres.length+2) },
      s.args ++ [.int p.limit,.int p.offset]⟩
  else s

def orderOf (sort : Sorting) : Option (String × Bool) :=
  if sort.field ≠ "" then some (sort.field,sort.order = "desc") else none

theorem findAllStatement_ok {opts : QueryOptions V}
    (h : ∀ c ∈ opts.columns, validateColumnAllowed r c = none) : findAllStatement r opts =
      .ok (pageOf opts.pagination (filterStatement r "*" opts.filter (orderOf opts.sort))) := by
  rw [QueryOptions.columns,List.forall_mem_append] at h
  have hsort : sortClause r opts.sort = .ok (orderOf opts.sort) := by
    unfold sortClause orderOf
    split_ifs with hfield
    · rw [h.2 _ (by simp [hfield])]
    · rfl
  unfold findAllStatement pageOf
  rw [filterClauses_ok opts.filter 1 h.1,hsort]
  simp only [bind,Except.bind]
  split_ifs <;> rfl

theorem findAllStatement_error {opts : QueryOptions V}
    (h : ∃ c ∈ opts.columns, validateColumnAllowed r c ≠ none) :
    ∃ err, findAllStatement r opts = .error err ∧ errColumnNotAllowed.wraps err = true := by
  by_cases hfilter : ∃ c ∈ sortedFilterFields opts.filter, validateColumnAllowed r c ≠ none
  · obtain ⟨err,herr,hwraps⟩ := filterClauses_error opts.filter 1 hfilter
    exact ⟨err,by rw [findAllStatement,herr]; rfl,hwraps⟩
  · have hfields : ∀ c ∈ sortedFilterFields opts.filter, validateColumnAllowed r c = none := by
      simpa using hfilter
    obtain ⟨c,hc,hnot⟩ := h
    rw [QueryOptions.columns,List.mem_append] at hc
    have hsort := hc.resolve_left fun hmem => hnot (hfields c hmem)
    split_ifs at hsort with hfield
    · rw [List.mem_singleton] at hsort
      subst hsort
      obtain ⟨err,herr⟩ := Option.ne_none_iff_exists'.mp hnot
      refine ⟨err,?_,validateColumnAllowed_error herr⟩
      rw [findAllStatement,filterClauses_ok opts.filter 1 hfields,sortClause,if_pos hfield,herr]
      rfl
    · simp at hsort

theorem countStatement_ok {filter : Filter V}
    (h : ∀ c ∈ sortedFilterFields filter, validateColumnAllowed r c = none) :
    countStatement r filter = .ok (filterStatement r "COUNT(*)" filter none) := by
  rw [countStatement,filterClauses_ok filter 1 h]
  rfl

theorem countStatement_error {filter : Filter V}
    (h : ∃ c ∈ sortedFilterFields filter, validateColumnAllowed r c ≠ none) :
    ∃ err, countStatement r filter = .error err ∧ errColumnNotAllowed.wraps err = true := by
  obtain ⟨err,herr,hwraps⟩ := filterClauses_error filter 1 h
  exact ⟨err,by rw [countStatement,herr]; rfl,hwraps⟩

end Validation

section Allowlist

variable {T V : Type}

-- what a call sends and returns, against the names it is asked to interpolate
structure Enforced {α : Type} (allowlist : ColumnAllowlist) (names : List String)
    (out : List (Statement V) × Except GoError α) : Prop where
  sent : ∀ stmt ∈ out.1, ∀ c ∈ stmt.select.columns, c ∈ allowlist
  refused : (∃ c ∈ names, c ∉ allowlist) →
    out.1 = [] ∧ ∃ err, out.2 = .error err ∧ errColumnNotAllowed.wraps err = true

theorem columns_filterStatement (r : Repository T V) (what : String) (filter : Filter V)
    (orderBy : Option (String × Bool)) : (filterStatement r what filter orderBy).select.columns =
      sortedFilterFields filter ++ (orderBy.map Prod.fst).toList := by
  rw [columns_eq,filterStatement]
  simp

theorem columns_pageOf (p : Pagination) (s : Statement V) :
    (pageOf p s).select.columns = s.select.columns := by
  unfold pageOf
  split_ifs
  · rw [columns_eq,columns_eq]
  · rfl

theorem columns_orderOf (sort : Sorting) : ((orderOf sort).map Prod.fst).toList =
    if sort.field ≠ "" then [sort.field] else [] := by
  unfold orderOf
  split_ifs <;> rfl

variable {r : Repository T V}

theorem findAll_cases (r : Repository T V) (db : Executor V) (opts : QueryOptions V) :
    ((∀ c ∈ opts.columns, validateColumnAllowed r c = none) ∧
      ∃ stmt, (findAll r db opts).1 = [stmt] ∧ stmt.select.columns = opts.columns) ∨
    ((∃ c ∈ opts.columns, validateColumnAllowed r c ≠ none) ∧
      (findAll r db opts).1 = [] ∧ ∃ err, (findAll r db opts).2 = .error err ∧
        errColumnNotAllowed.wraps err = true) := by
  by_cases h : ∀ c ∈ opts.columns, validateColumnAllowed r c = none
  · refine .inl ⟨h,_,by rw [findAll,findAllStatement_ok h],?_⟩
    rw [columns_pageOf,columns_filterStatement,columns_orderOf]
    rfl
  · have hbad : ∃ c ∈ opts.columns, validateColumnAllowed r c ≠ none := by simpa using h
    obtain ⟨err,herr,hwraps⟩ := findAllStatement_error hbad
    exact .inr ⟨hbad,by rw [findAll,herr],err,by rw [findAll,herr],hwraps⟩

theorem count_cases (r : Repository T V) (db : Executor V) (filter : Filter V) :
    ((∀ c ∈ sortedFilterFields filter, validateColumnAllowed r c = none) ∧
      ∃ stmt, (count r db filter).1 = [stmt] ∧ stmt.select.columns = sortedFilterFields filter) ∨
    ((∃ c ∈ sortedFilterFields filter, validateColumnAllowed r c ≠ none) ∧
      (count r db filter).1 = [] ∧ ∃ err, (count r db filter).2 = .error err ∧
        errColumnNotAllowed.wraps err = true) := by
  by_cases h : ∀ c ∈ sortedFilterFields filter, validateColumnAllowed r c = none
  · refine .inl ⟨h,_,by rw [count,countStatement_ok h],?_⟩
    rw [columns_filterStatement]
    simp
  · have hbad : ∃ c ∈ sortedFilterFields filter, validateColumnAllowed r c ≠ none := by simpa using h
    obtain ⟨err,herr,hwraps⟩ := countStatement_error hbad
    exact .inr ⟨hbad,by rw [count,herr],err,by rw [count,herr],hwraps⟩

theorem enforced_iff {α : Type} {out : List (Statement V) × Except GoError α} {names : List String}
    (hcases : ((∀ c ∈ names, validateColumnAllowed r c = none) ∧
        ∃ stmt, out.1 = [stmt] ∧ stmt.select.columns = names) ∨
      ((∃ c ∈ names, validateColumnAllowed r c ≠ none) ∧
        out.1 = [] ∧ ∃ err, out.2 = .error err ∧ errColumnNotAllowed.wraps err = true)) :
    Enforced r.allowlist names out ↔ r.allowlist ≠ [] ∨ names = [] := by
  simp only [ne_eq,validateColumnAllowed_eq_none_iff] at hcases
  rcases hcases with ⟨hallowed,stmt,hout,hcolumns⟩ | ⟨⟨c,hc,hnot⟩,hout,herr⟩
  · constructor
    · intro h
      by_contra hcon
      rw [not_or,not_not] at hcon
      obtain ⟨c,hc⟩ := List.exists_mem_of_ne_nil names hcon.2
      have hmem := h.sent stmt (by simp [hout]) c (hcolumns ▸ hc)
      simp [hcon.1] at hmem
    · intro h
      have hall : ∀ c ∈ names, c ∈ r.allowlist := by
        intro c hc
        rcases h with hne | hnil
        · exact (hallowed c hc).resolve_left hne
        · simp [hnil] at hc
      refine ⟨?_,?_⟩
      · rw [hout]
        simpa [hcolumns] using hall
      · rintro ⟨c,hc,hnot⟩
        exact absurd (hall c hc) hnot
  · rw [not_or] at hnot
    exact ⟨fun _ => .inl hnot.1,fun _ => ⟨by simp [hout],fun _ => ⟨hout,herr⟩⟩⟩

theorem newColumnAllowlist_ne_nil_iff {columns : List String} :
    newColumnAllowlist columns ≠ [] ↔ ∃ c ∈ columns, trimSpace c ≠ "" := by
  simp [newColumnAllowlist,List.filter_eq_nil_iff]

theorem sortedFilterFields_eq_nil_iff {filter : Filter V} :
    sortedFilterFields filter = [] ↔ filter.fields = [] := by
  rw [← List.length_eq_zero_iff,sortedFilterFields,List.length_mergeSort,List.length_eq_zero_iff]

theorem columns_eq_nil_iff {opts : QueryOptions V} :
    opts.columns = [] ↔ opts.filter.fields = [] ∧ opts.sort.field = "" := by
  rw [QueryOptions.columns,List.append_eq_nil_iff,sortedFilterFields_eq_nil_iff]
  split_ifs with hfield
  · simpa using fun _ => hfield
  · simp [not_not.mp hfield]

theorem allowlist_enforced_iff (tableName : String) (dialect : Dialect)
    (fromRow : Row V → Except GoError T) (columns : List String) (db : Executor V) :
    (∀ opts : QueryOptions V, Enforced (newColumnAllowlist columns) opts.columns
        (findAll (newGenericCrudRepository tableName dialect fromRow [newColumnAllowlist columns])
          db opts) ↔
      (∃ c ∈ columns, trimSpace c ≠ "") ∨ opts.filter.fields = [] ∧ opts.sort.field = "") ∧
    ∀ filter : Filter V, Enforced (newColumnAllowlist columns) (sortedFilterFields filter)
        (count (newGenericCrudRepository tableName dialect fromRow [newColumnAllowlist columns])
          db filter) ↔
      (∃ c ∈ columns, trimSpace c ≠ "") ∨ filter.fields = [] := by
  have hfind := fun opts => enforced_iff (findAll_cases
    (newGenericCrudRepository tableName dialect fromRow [newColumnAllowlist columns]) db opts)
  have hcount := fun filter => enforced_iff (count_cases
    (newGenericCrudRepository tableName dialect fromRow [newColumnAllowlist columns]) db filter)
  refine ⟨fun opts => ?_,fun filter => ?_⟩
  · rw [← newColumnAllowlist_ne_nil_iff,← columns_eq_nil_iff]
    exact hfind opts
  · rw [← newColumnAllowlist_ne_nil_iff,← sortedFilterFields_eq_nil_iff]
    exact hcount filter

def roleFilter : QueryOptions Unit :=
  ⟨⟨[("role",some ())],by simp⟩,⟨"",""⟩,⟨0,0⟩⟩

def emptyTable : Executor Unit := ⟨fun _ => .ok [],fun _ => .ok 0⟩

-- a name is interpolated although the allowlist has none
theorem blank_allowlist_enforces_nothing :
    ¬ Enforced (newColumnAllowlist [" "]) roleFilter.columns
      (findAll (newGenericCrudRepository "users" .postgres (fun _ => .ok ())
        [newColumnAllowlist [" "]]) emptyTable roleFilter) := by
  have hempty : newColumnAllowlist [" "] = [] := by
    simp [newColumnAllowlist,trimSpace_eq_empty_iff,isSpace]
  have hcolumns : roleFilter.columns = ["role"] := by
    simp [QueryOptions.columns,sortedFilterFields,Filter.fields,roleFilter]
  intro h
  obtain ⟨hsent,-⟩ := h.refused ⟨"role",by rw [hcolumns]; simp,by rw [hempty]; simp⟩
  rcases findAll_cases (newGenericCrudRepository "users" .postgres (fun _ => Except.ok ())
      [newColumnAllowlist [" "]]) emptyTable roleFilter with ⟨-,stmt,hstmt,-⟩ | ⟨⟨c,-,hnot⟩,-⟩
  · rw [hsent] at hstmt
    cases hstmt
  · exact hnot (validateColumnAllowed_eq_none_iff.mpr (.inl hempty))

end Allowlist

end Nimburion.Persistence.Query
