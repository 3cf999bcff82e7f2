import Nimburion.Persistence.Paging

namespace Nimburion.Persistence.Query

-- sql.ErrNoRows
def errNoRows : GoError := .text "sql: no rows in result set"

-- the repository of an entity type that does not implement Versioned
structure Entities (T ID V : Type) where
  tableName : String
  idColumn : String
  dialect : Dialect
  getID : T → ID
  toRow : T → Except GoError (List String × List (Option V))
  idValue : ID → Option V

-- UPDATE table SET column = placeholder, … WHERE id = placeholder
structure UpdateStatement (V : Type) where
  table : String
  sets : List (String × ℕ)
  idColumn : String
  idArg : ℕ
  args : List (Arg V)

namespace UpdateStatement

variable {V : Type} (s : UpdateStatement V)

def tokens : List Token :=
  [.text "UPDATE ",.text s.table,.text " SET "] ++
    [Token.text ", "].intercalate
      (s.sets.map fun c => [Token.column c.1,Token.text " = ",Token.placeholder c.2]) ++
    [.text " WHERE ",.column s.idColumn,.text " = ",.placeholder s.idArg]

def sql (d : Dialect) : String := String.join (s.tokens.map (Token.render d))

def placeholders : List ℕ := s.tokens.filterMap fun
  | .placeholder index => some index
  | _ => none

end UpdateStatement

section Update

variable {T ID V : Type} (r : Entities T ID V)

def updateStatement (e : T) (columns : List String) (values : List (Option V)) :
    UpdateStatement V :=
  ⟨r.tableName,columns.zipIdx 1,r.idColumn,values.length+1,
    values.map Arg.value ++ [.value (r.idValue (r.getID e))]⟩

-- what ExecContext returns, RowsAffected inside, and the table after it
abbrev Exec (V S : Type) := S → UpdateStatement V → Except GoError (Except GoError ℕ) × S

def update {S : Type} (exec : Exec V S) (s : S) (e : T) : Option GoError × S :=
  match r.toRow e with
  | .error err => (some (.wrapped "failed to map entity to row: " err),s)
  | .ok (columns,values) =>
      match exec s (updateStatement r e columns values) with
      | (.error err,s) => (some (.wrapped "failed to update entity: " err),s)
      | (.ok (.error err),s) => (some (.wrapped "failed to get rows affected: " err),s)
      | (.ok (.ok affected),s) => (if affected = 0 then some errNoRows else none,s)

end Update

section Database

variable {V : Type}

-- `eq` is the comparison of the id column's type
structure Schema (V : Type) where
  columns : List String
  eq : V → V → Bool
  eq_refl : ∀ v, eq v v = true

variable (schema : Schema V)

def setColumns (row : Row V) (sets : List (String × Option V)) : Row V :=
  sets.foldl (fun row c => fun column => if column = c.1 then c.2 else row column) row

def Schema.equals (a b : Option V) : Bool :=
  match a,b with
  | some x,some y => schema.eq x y
  | _,_ => false

def argValue : Arg V → Option V
  | .value v => v
  | .int _ => none

variable [DecidableEq V]

-- a value of the row is another one afterwards
def changes (sets : List (String × Option V)) (row : Row V) : Bool :=
  sets.any fun c => setColumns row sets c.1 ≠ row c.1

-- Postgres counts the rows it found and MySQL, unless asked otherwise, the rows it changed
def affected (d : Dialect) (hit : Row V → Bool) (sets : List (String × Option V))
    (rows : List (Row V)) : ℕ :=
  match d with
  | .postgres => rows.countP hit
  | .mysql => rows.countP fun row => hit row && changes sets row

def assignments (stmt : UpdateStatement V) (vals : List (Arg V)) : List (String × Option V) :=
  (stmt.sets.map Prod.fst).zip (vals.map argValue)

def targets (stmt : UpdateStatement V) (vals : List (Arg V)) (row : Row V) : Bool :=
  schema.equals (row stmt.idColumn) (vals.map argValue)[stmt.sets.length]?.join

-- a database that holds the table and does not fail: an UPDATE of known columns, each set once,
-- changes the rows it finds and counts them as the dialect does
def Updates (d : Dialect) (exec : Exec V (List (Row V))) : Prop :=
  ∀ rows stmt vals, stmt.placeholders.length = stmt.args.length → stmt.sets ≠ [] →
    (stmt.sets.map Prod.fst).Nodup →
    (∀ c ∈ stmt.idColumn :: stmt.sets.map Prod.fst, c ∈ schema.columns) →
    bindFrom d stmt.args 0 stmt.placeholders = some vals →
    exec rows stmt =
      (.ok (.ok (affected d (targets schema stmt vals) (assignments stmt vals) rows)),
        rows.map fun row => if targets schema stmt vals row then
          setColumns row (assignments stmt vals) else row)

-- one that also refuses what it cannot run
def runUpdate (d : Dialect) : Exec V (List (Row V)) := fun rows stmt =>
  if stmt.placeholders.length ≠ stmt.args.length ∨ stmt.sets = [] ∨
      d = .postgres ∧ ¬ (stmt.sets.map Prod.fst).Nodup ∨
      (stmt.idColumn :: stmt.sets.map Prod.fst).any (· ∉ schema.columns) then
    (.error databaseError,rows)
  else match bindFrom d stmt.args 0 stmt.placeholders with
    | none => (.error databaseError,rows)
    | some vals =>
        (.ok (.ok (affected d (targets schema stmt vals) (assignments stmt vals) rows)),
          rows.map fun row => if targets schema stmt vals row then
            setColumns row (assignments stmt vals) else row)

theorem updates_runUpdate (d : Dialect) : Updates schema d (runUpdate schema d) := by
  intro rows stmt vals hplace hne honce hknown hbound
  have hany : (stmt.idColumn :: stmt.sets.map Prod.fst).any (· ∉ schema.columns) = false := by
    rw [List.any_eq_false]
    simpa using hknown
  rw [runUpdate,hany,if_neg (by simp [hplace,hne,honce]),hbound]

end Database

section Effect

variable {T ID V : Type} {r : Entities T ID V} {schema : Schema V} {e : T}
  {columns : List String} {values : List (Option V)}

-- what ToRow is for: a value for each of the columns, which the table has
structure Listed (r : Entities T ID V) (schema : Schema V) (e : T) (columns : List String)
    (values : List (Option V)) : Prop where
  row : r.toRow e = .ok (columns,values)
  some_column : columns ≠ []
  each : columns.length = values.length
  once : columns.Nodup
  known : ∀ c ∈ r.idColumn :: columns, c ∈ schema.columns

theorem placeholders_updateStatement (h : columns.length = values.length) :
    (updateStatement r e columns values).placeholders =
      List.range' 1 (updateStatement r e columns values).args.length := by
  have hcomma : ([Token.text ", "].filterMap fun
      | Token.placeholder index => some index
      | _ => none) = ([] : List ℕ) := rfl
  unfold UpdateStatement.placeholders UpdateStatement.tokens
  rw [List.filterMap_append,List.filterMap_append,filterMap_intercalate hcomma,List.flatMap_map]
  simp only [updateStatement,List.length_append,List.length_map,List.length_singleton,← h]
  rw [List.range'_concat]
  have hsets : ((columns.zipIdx 1).flatMap fun c => [c.2]) = List.range' 1 columns.length := by
    rw [← List.map_eq_flatMap,List.zipIdx_map_snd]
  simp [hsets,Nat.add_comm]

-- the statement decides the listed columns, whatever was there
theorem setColumns_congr {sets : List (String × Option V)} {column : String} (row row' : Row V)
    (h : column ∈ sets.map Prod.fst ∨ row column = row' column) :
    setColumns row sets column = setColumns row' sets column := by
  induction sets generalizing row row' with
  | nil => exact h.resolve_left (by simp)
  | cons c sets ih =>
    refine ih _ _ ?_
    rw [List.map_cons,List.mem_cons] at h
    by_cases hc : column = c.1
    · exact .inr (by simp [hc])
    · rcases h with (heq | hmem) | hrow
      · exact absurd heq hc
      · exact .inl hmem
      · exact .inr (by simp [hc,hrow])

theorem setColumns_of_not_mem {sets : List (String × Option V)} {column : String} (row : Row V)
    (h : column ∉ sets.map Prod.fst) : setColumns row sets column = row column := by
  induction sets generalizing row with
  | nil => rfl
  | cons c sets ih =>
    rw [List.map_cons,List.mem_cons,not_or] at h
    rw [setColumns,List.foldl_cons]
    exact (ih _ h.2).trans (if_neg h.1)

theorem setColumns_eq {sets : List (String × Option V)} {column : String} {v : Option V}
    (row : Row V) (hall : ∀ c ∈ sets, c.1 = column → c.2 = v)
    (h : row column = v ∨ column ∈ sets.map Prod.fst) : setColumns row sets column = v := by
  induction sets generalizing row with
  | nil => exact h.resolve_right (by simp)
  | cons c sets ih =>
    obtain ⟨hc,hsets⟩ := List.forall_mem_cons.mp hall
    refine ih _ hsets ?_
    by_cases heq : column = c.1
    · exact .inl (by simp [heq,hc heq.symm])
    · rcases h with hrow | hmem
      · exact .inl (by simp [heq,hrow])
      · rw [List.map_cons,List.mem_cons] at hmem
        exact .inr (hmem.resolve_left heq)

def hits (r : Entities T ID V) (schema : Schema V) (e : T) (row : Row V) : Bool :=
  schema.equals (row r.idColumn) (r.idValue (r.getID e))

-- the entity's own ID is what it writes to the id column
theorem hits_setColumns (hkeeps : ∀ c ∈ columns.zip values, c.1 = r.idColumn →
    c.2 = r.idValue (r.getID e)) {row : Row V} (h : hits r schema e row = true) :
    hits r schema e (setColumns row (columns.zip values)) = true := by
  unfold hits at h ⊢
  by_cases hmem : r.idColumn ∈ (columns.zip values).map Prod.fst
  · rw [setColumns_eq row hkeeps (.inr hmem)]
    cases hid : r.idValue (r.getID e) with
    | none => simp [Schema.equals,hid] at h
    | some v => exact schema.eq_refl v
  · rwa [setColumns_of_not_mem row hmem]

variable [DecidableEq V] {d : Dialect} {exec : Exec V (List (Row V))}

theorem exec_listed (hexec : Updates schema d exec) (h : Listed r schema e columns values)
    (rows : List (Row V)) :
    exec rows (updateStatement r e columns values) =
      (.ok (.ok (affected d (hits r schema e) (columns.zip values) rows)),
        rows.map fun row => if hits r schema e row then setColumns row (columns.zip values)
          else row) := by
  have hplace := placeholders_updateStatement (r := r) (e := e) h.each
  have hvals : (updateStatement r e columns values).args.map argValue =
      values ++ [r.idValue (r.getID e)] := by
    simp [updateStatement,argValue,Function.comp_def]
  have hsets : (updateStatement r e columns values).sets.map Prod.fst = columns := by
    simp [updateStatement]
  have hne : (updateStatement r e columns values).sets ≠ [] := by
    simpa [updateStatement] using h.some_column
  have hbound : bindFrom d (updateStatement r e columns values).args 0
      (updateStatement r e columns values).placeholders =
        some (updateStatement r e columns values).args := by
    rw [hplace,bindFrom_range d _ (by simp),List.drop_zero,List.take_length]
  have hid : (values ++ [r.idValue (r.getID e)])[(updateStatement r e columns values).sets.length]?
      = some (r.idValue (r.getID e)) := by
    simp [updateStatement,h.each]
  have hassign : assignments (updateStatement r e columns values)
      (updateStatement r e columns values).args = columns.zip values := by
    calc assignments (updateStatement r e columns values) (updateStatement r e columns values).args
        = (columns ++ []).zip (values ++ [r.idValue (r.getID e)]) := by
          rw [assignments,hsets,hvals,List.append_nil]
      _ = columns.zip values := by rw [List.zip_append h.each,List.zip_nil_left,List.append_nil]
  have htargets : targets schema (updateStatement r e columns values)
      (updateStatement r e columns values).args = hits r schema e := by
    funext row
    rw [targets,hvals,hid,Option.join_some]
    rfl
  rw [hexec rows _ _ (by rw [hplace,List.length_range']) hne (hsets.symm ▸ h.once)
    (hsets.symm ▸ h.known) hbound,hassign,htargets]

theorem changes_setColumns (sets : List (String × Option V)) (row : Row V) :
    changes sets (setColumns row sets) = false := by
  rw [changes,List.any_eq_false]
  intro c hc
  rw [setColumns_congr _ row (.inl (List.mem_map_of_mem hc))]
  simp

theorem update_listed (hexec : Updates schema d exec) (h : Listed r schema e columns values)
    (rows : List (Row V)) :
    update r exec rows e =
      (if affected d (hits r schema e) (columns.zip values) rows = 0 then some errNoRows else none,
        rows.map fun row => if hits r schema e row then setColumns row (columns.zip values)
          else row) := by
  rw [update,h.row]
  simp only [exec_listed hexec h rows]

theorem affected_eq_zero_iff {hit : Row V → Bool} {sets : List (String × Option V)}
    {rows : List (Row V)} : affected d hit sets rows = 0 ↔
      ∀ row ∈ rows, hit row = true → d = .mysql ∧ changes sets row = false := by
  cases d with
  | postgres =>
    rw [affected,List.countP_eq_zero]
    exact ⟨fun h row hrow hhit => absurd hhit (h row hrow),fun h row hrow hhit => by
      cases (h row hrow hhit).1⟩
  | mysql =>
    rw [affected,List.countP_eq_zero]
    simp

theorem second_update_eq_none_iff (hexec : Updates schema d exec)
    (h : Listed r schema e columns values) {rows : List (Row V)} (hkeeps : ∀ c ∈ columns.zip values, c.1 = r.idColumn →
      c.2 = r.idValue (r.getID e)) (hexists : ∃ row ∈ rows, hits r schema e row = true) :
    (update r exec (update r exec rows e).2 e).1 = none ↔
      d = .postgres := by
  obtain ⟨row,hrow,hhit⟩ := hexists
  rw [update_listed hexec h,update_listed hexec h]
  simp only [ite_eq_right_iff,reduceCtorEq,imp_false,affected_eq_zero_iff]
  have hstill := hits_setColumns hkeeps hhit
  have hmem : setColumns row (columns.zip values) ∈
      rows.map fun row => if hits r schema e row then setColumns row (columns.zip values)
        else row := List.mem_map.mpr ⟨row,hrow,if_pos hhit⟩
  cases d with
  | postgres =>
    refine iff_of_true (fun hzero => ?_) rfl
    cases (hzero _ hmem hstill).1
  | mysql =>
    refine iff_of_false (not_not.mpr fun row' hrow' hhit' => ⟨rfl,?_⟩) (by simp)
    obtain ⟨old,-,rfl⟩ := List.mem_map.mp hrow'
    split_ifs at hhit' ⊢ with hold
    · exact changes_setColumns _ old
    · exact absurd hhit' hold

theorem update_reports_missing_iff (hexec : Updates schema r.dialect exec)
    (h : Listed r schema e columns values) (rows : List (Row V)) :
    (((update r exec rows e).1 = some errNoRows ↔
        ¬ ∃ row ∈ rows, hits r schema e row = true) ↔
      r.dialect = .postgres ∨ (¬ ∃ row ∈ rows, hits r schema e row = true) ∨
        ∃ row ∈ rows, hits r schema e row = true ∧ changes (columns.zip values) row = true) ∧
    ((∀ c ∈ columns.zip values, c.1 = r.idColumn → c.2 = r.idValue (r.getID e)) →
      (∃ row ∈ rows, hits r schema e row = true) →
      ((update r exec rows e).1 = none ∧ (update r exec (update r exec rows e).2 e).1 = none ↔
          r.dialect = .postgres)) := by
  constructor
  · rw [update_listed hexec h]
    simp only [ite_eq_left_iff,reduceCtorEq,imp_false,not_not,affected_eq_zero_iff]
    cases hdialect : r.dialect with
    | postgres =>
      refine iff_of_true ⟨fun hzero hsome => ?_,fun hnone row hrow hhit => ?_⟩ (.inl rfl)
      · obtain ⟨row,hrow,hhit⟩ := hsome
        cases (hzero row hrow hhit).1
      · exact absurd ⟨row,hrow,hhit⟩ hnone
    | mysql =>
      by_cases hsome : ∃ row ∈ rows, hits r schema e row = true
      · constructor
        · intro hiff
          refine .inr (.inr ?_)
          by_contra hsame
          refine (hiff.mp fun row hrow hhit => ⟨rfl,?_⟩) hsome
          exact Bool.eq_false_iff.mpr fun hchanges => hsame ⟨row,hrow,hhit,hchanges⟩
        · rintro (heq | hnone | ⟨row,hrow,hhit,hchanges⟩)
          · cases heq
          · exact absurd hsome hnone
          · refine iff_of_false (fun hzero => ?_) (not_not.mpr hsome)
            rw [(hzero row hrow hhit).2] at hchanges
            cases hchanges
      · exact iff_of_true (iff_of_true (fun row hrow hhit => absurd ⟨row,hrow,hhit⟩ hsome) hsome)
          (.inr (.inl hsome))
  · intro hkeeps hexists
    rw [second_update_eq_none_iff hexec h hkeeps hexists]
    refine ⟨And.right,fun hdialect => ⟨?_,hdialect⟩⟩
    rw [update_listed hexec h]
    simp only [ite_eq_right_iff,reduceCtorEq,imp_false,affected_eq_zero_iff]
    intro hzero
    obtain ⟨row,hrow,hhit⟩ := hexists
    rw [hdialect] at hzero
    cases (hzero row hrow hhit).1

end Effect

section Example

-- an ID and a name
def contacts (d : Dialect) : Entities (ℕ × ℕ) ℕ ℕ where
  tableName := "contacts"
  idColumn := "id"
  dialect := d
  getID := Prod.fst
  toRow := fun e => .ok (["id","name"],[some e.1,some e.2])
  idValue := some

def contactSchema : Schema ℕ := ⟨["id","name"],fun a b => a = b,by simp⟩

def contact (id name : ℕ) : Row ℕ := fun column =>
  if column = "id" then some id else if column = "name" then some name else none

theorem contacts_listed (d : Dialect) (e : ℕ × ℕ) :
    Listed (contacts d) contactSchema e ["id","name"] [some e.1,some e.2] where
  row := rfl
  some_column := by simp
  each := rfl
  once := by decide
  known := by simp [contacts,contactSchema]

theorem rename_on_postgres :
    (update (contacts .postgres) (runUpdate contactSchema .postgres) [contact 7 1] (7,2)).1 = none ∧
    (update (contacts .postgres) (runUpdate contactSchema .postgres)
      (update (contacts .postgres) (runUpdate contactSchema .postgres) [contact 7 1] (7,2)).2
        (7,2)).1 = none :=
  ((update_reports_missing_iff (updates_runUpdate contactSchema .postgres)
    (contacts_listed .postgres (7,2)) [contact 7 1]).2
    (by simp [contacts]) ⟨contact 7 1,by simp,by decide⟩).mpr rfl

-- a row that has these values already is not counted
theorem same_values_reported_missing :
    ¬ ((update (contacts .mysql) (runUpdate contactSchema .mysql) [contact 7 1] (7,1)).1 =
        some errNoRows ↔
      ¬ ∃ row ∈ [contact 7 1], hits (contacts .mysql) contactSchema (7,1) row = true) := by
  have hhit : hits (contacts .mysql) contactSchema (7,1) (contact 7 1) = true := by decide
  have hnone : (update (contacts .mysql) (runUpdate contactSchema .mysql) [contact 7 1] (7,1)).1 =
      some errNoRows := by
    have hzero : affected .mysql (hits (contacts .mysql) contactSchema (7,1))
        (["id","name"].zip [some 7,some 1]) [contact 7 1] = 0 := by decide
    rw [update_listed (updates_runUpdate contactSchema .mysql) (contacts_listed .mysql (7,1))]
    simp only [hzero,if_true]
  intro h
  exact h.mp hnone ⟨contact 7 1,by simp,hhit⟩

end Example

end Nimburion.Persistence.Query
