import Nimburion.Errors
import Nimburion.Lib.GoText
import Nimburion.Lib.Interaction
import Mathlib.Data.List.Sort

namespace Nimburion.Persistence.Migrate
open Interaction GoText

structure Migration where
  version : Int64
  name : String
  upSQL : String
  downSQL : String
  deriving DecidableEq, Repr

-- loadMigrations lists the versions it found once each, in increasing order
structure SQLManager where
  migrations : List Migration
  sorted : migrations.Pairwise fun a b => a.version < b.version

inductive Direction where
  | up
  | down
  deriving DecidableEq, Repr

inductive Stmt where
  | script (d : Direction) (m : Migration)
  | insert (version : Int64)
  | delete (version : Int64)
  deriving DecidableEq, Repr

inductive Op where
  | createTable
  | select (desc : Bool)
  | begin
  | exec (tx : ℕ) (stmt : Stmt)
  | commit (tx : ℕ)
  | rollback (tx : ℕ)
  deriving DecidableEq, Repr

-- where reading the versions can fail
inductive Stage where
  | load
  | scan
  | iterate
  deriving DecidableEq, Repr

-- a statement answers the number of rows it affected
abbrev Ans : Op → Type
  | .createTable => Option GoError
  | .select _ => Except (Stage × GoError) (List Int64)
  | .begin => Except GoError ℕ
  | .exec _ _ => Except GoError ℕ
  | .commit _ => Option GoError
  | .rollback _ => Option GoError

abbrev M := Prog Op Ans Empty

section Programs

def Migration.label (m : Migration) : String := toString m.version ++ "_" ++ m.name

-- the texts of one migration's errors
structure Texts where
  begin : String
  script : String
  scriptRollback : String
  record : String
  recordRollback : String
  commit : String

def upTexts (m : Migration) : Texts where
  begin := "begin migration transaction " ++ toString m.version ++ ": "
  script := "apply migration " ++ m.label ++ ": "
  scriptRollback := "rollback migration " ++ m.label ++ ": "
  record := "record migration " ++ toString m.version ++ ": "
  recordRollback := "rollback migration " ++ m.label ++ " after record failure: "
  commit := "commit migration " ++ toString m.version ++ ": "

def downTexts (m : Migration) : Texts where
  begin := "begin rollback transaction " ++ toString m.version ++ ": "
  script := "rollback migration " ++ m.label ++ ": "
  scriptRollback := "rollback transaction for migration " ++ m.label ++ ": "
  record := "delete migration record " ++ toString m.version ++ ": "
  recordRollback := "rollback delete migration record " ++ toString m.version ++ ": "
  commit := "commit rollback " ++ toString m.version ++ ": "

def abandon (tx : ℕ) (err : GoError) (note : String) : M (Option GoError) := do
  match ← Prog.perform (Op.rollback tx) with
  | some rollbackErr => pure (some (.join err (.wrapped note rollbackErr)))
  | none => pure (some err)

def migrate (tx : ℕ) (texts : Texts) (script record : Stmt) : M (Option GoError) := do
  match ← Prog.perform (Op.exec tx script) with
  | .error err => abandon tx (.wrapped texts.script err) texts.scriptRollback
  | .ok _ =>
      match ← Prog.perform (Op.exec tx record) with
      | .error err => abandon tx (.wrapped texts.record err) texts.recordRollback
      | .ok _ =>
          let err ← Prog.perform (Op.commit tx)
          pure (err.map (.wrapped texts.commit))

def applyUp (m : Migration) : M (Option GoError) := do
  match ← Prog.perform Op.begin with
  | .error err => pure (some (.wrapped (upTexts m).begin err))
  | .ok tx => migrate tx (upTexts m) (.script .up m) (.insert m.version)

def applyDown (m : Migration) : M (Option GoError) := do
  match ← Prog.perform Op.begin with
  | .error err => pure (some (.wrapped (downTexts m).begin err))
  | .ok tx =>
      if trimSpace m.downSQL = "" then
        abandon tx (.text ("down migration missing for version " ++ toString m.version))
          ("rollback empty down migration " ++ toString m.version ++ ": ")
      else migrate tx (downTexts m) (.script .down m) (.delete m.version)

def upLoop (applied : List Int64) : List Migration → ℕ → M (ℕ × Option GoError)
  | [],n => pure (n,none)
  | m :: migrations,n =>
      if m.version ∈ applied then upLoop applied migrations n
      else do
        match ← applyUp m with
        | some err => pure (n,some err)
        | none => upLoop applied migrations (n+1)

def SQLManager.migrationByVersion (mgr : SQLManager) (version : Int64) : Option Migration :=
  mgr.migrations.find? fun m => m.version = version

def downLoop (mgr : SQLManager) : List Int64 → ℕ → M (ℕ × Option GoError)
  | [],n => pure (n,none)
  | version :: versions,n =>
      match mgr.migrationByVersion version with
      | none => pure (n,some (.text ("migration definition not found for applied version " ++
          toString version)))
      | some m => do
          match ← applyDown m with
          | some err => pure (n,some err)
          | none => downLoop mgr versions (n+1)

def Stage.text (desc : Bool) : Stage → String
  | .load => if desc then "load applied migrations descending: " else "load applied migrations: "
  | .scan => "scan applied migration version: "
  | .iterate =>
      if desc then "iterate applied migrations descending: " else "iterate applied migrations: "

def ensured (desc : Bool) (next : List Int64 → M (ℕ × Option GoError)) :
    M (ℕ × Option GoError) := do
  match ← Prog.perform Op.createTable with
  | some err => pure (0,some (.wrapped "ensure schema_migrations table: " err))
  | none =>
      match ← Prog.perform (Op.select desc) with
      | .error (stage,err) => pure (0,some (.wrapped (stage.text desc) err))
      | .ok applied => next applied

def up (mgr : SQLManager) : M (ℕ × Option GoError) :=
  ensured false fun applied => upLoop applied mgr.migrations 0

def down (mgr : SQLManager) (steps : Int) : M (ℕ × Option GoError) :=
  let steps := if steps ≤ 0 then 1 else steps
  ensured true fun applied =>
    if applied = [] then pure (0,none)
    else downLoop mgr (applied.take (min steps.toNat applied.length)) 0

end Programs

section Database

inductive Change where
  | ran (d : Direction) (version : Int64)
  | insert (version : Int64)
  | delete (version : Int64)
  deriving DecidableEq, Repr

structure TxRecord where
  active : Bool
  changes : List Change
  deriving DecidableEq, Repr

-- the committed rows of schema_migrations, the scripts that have taken effect in their order, each
-- with its transaction, and the transactions begun
structure DB where
  table : Option (List Int64)
  log : List (ℕ × Change)
  txs : List TxRecord
  deriving DecidableEq, Repr

def DB.versions (db : DB) : List Int64 := db.table.getD []

def DB.close (db : DB) (tx : ℕ) (r : TxRecord) : DB :=
  { db with txs := db.txs.set tx { r with active := false } }

def DB.write (db : DB) (tx : ℕ) (r : TxRecord) (change : Change) : DB :=
  { db with txs := db.txs.set tx { r with changes := r.changes ++ [change] } }

def DB.put (tx : ℕ) (db : DB) : Change → DB
  | .ran d version => { db with log := db.log ++ [(tx,.ran d version)] }
  | .insert version => { db with table := db.table.map (· ++ [version]) }
  | .delete version => { db with table := db.table.map (·.filter (· ≠ version)) }

-- another open transaction has made this change
def DB.held (db : DB) (tx : ℕ) (change : Change) : Bool :=
  (List.range db.txs.length).any fun i =>
    i ≠ tx && db.txs[i]?.any fun r => r.active && r.changes.contains change

def errTxDone : GoError := .text "sql: transaction has already been committed or rolled back"

def undefinedTable : GoError := .text "relation \"schema_migrations\" does not exist"

def uniqueViolation : GoError := .text "duplicate key value violates unique constraint"

-- a statement on a row another open transaction has inserted or deleted waits
def DB.execStmt (db : DB) (tx : ℕ) (r : TxRecord) :
    Stmt → Option (Except GoError ℕ × DB)
  | .script d m => some (.ok 0,db.write tx r (.ran d m.version))
  | .insert version => match db.table with
      | none => some (.error undefinedTable,db)
      | some versions =>
          if version ∈ versions ∨ .insert version ∈ r.changes then some (.error uniqueViolation,db)
          else if db.held tx (.insert version) then none
          else some (.ok 1,db.write tx r (.insert version))
  | .delete version => match db.table with
      | none => some (.error undefinedTable,db)
      | some versions =>
          if version ∉ versions then some (.ok 0,db)
          else if db.held tx (.delete version) then none
          else some (.ok 1,db.write tx r (.delete version))

def DB.openTx (db : DB) (tx : ℕ) : Option TxRecord := db.txs[tx]?.filter (·.active)

def exec (db : DB) (op : Op) (fault : Option (Stage × GoError)) : Option (Ans op × DB) :=
  match op with
  | .createTable => match fault with
      | some (_,err) => some (some err,db)
      | none => some (none,{ db with table := some db.versions })
  | .select desc => match fault with
      | some err => some (.error err,db)
      | none => match db.table with
          | none => some (.error (.load,undefinedTable),db)
          | some versions =>
              some (.ok (if desc then versions.insertionSort (· ≥ ·) else versions),db)
  | .begin => match fault with
      | some (_,err) => some (.error err,db)
      | none => some (.ok db.txs.length,{ db with txs := db.txs ++ [⟨true,[]⟩] })
  | .exec tx stmt => match db.openTx tx with
      | none => some (.error errTxDone,db)
      | some r => match fault with
          | some (_,err) => some (.error err,db)
          | none => db.execStmt tx r stmt
  | .commit tx => match db.openTx tx with
      | none => some (some errTxDone,db)
      | some r => match fault with
          | some (_,err) => some (some err,db.close tx r)
          | none => some (none,r.changes.foldl (DB.put tx) (db.close tx r))
  | .rollback tx => match db.openTx tx with
      | none => some (some errTxDone,db)
      | some r => some (fault.map (·.2),db.close tx r)

inductive Call where
  | up
  | down (steps : Int)
  deriving DecidableEq, Repr

-- the environment aborts a transaction, as when its connection is lost
def abort (db : DB) (tx : ℕ) : DB :=
  match db.openTx tx with
  | none => db
  | some r => db.close tx r

def manager (mgr : SQLManager) :
    Machine Ans Empty DB Call (ℕ × Option GoError) (Option (Stage × GoError)) ℕ where
  program := fun call => match call with
    | .up => up mgr
    | .down steps => down mgr steps
  exec := exec
  env := abort

end Database

end Nimburion.Persistence.Migrate
