import Nimburion.Errors
import Nimburion.Lib.GoTime

namespace Nimburion.Persistence
open GoTime

inductive Driver where
  | postgres
  | mysql
  deriving DecidableEq, Repr

structure Adapter where
  driver : Driver
  queryTimeout : Duration

def Driver.txContextKey : Driver → String
  | .postgres => "tx"
  | .mysql => "mysql_tx"

abbrev Tx := ℕ

-- the values, the deadline and the moment of cancellation a context has
structure Ctx where
  values : List (String × Tx)
  deadline : Option Time
  cancelled : Option Time
  deriving Repr

def Ctx.withValue (ctx : Ctx) (key : String) (tx : Tx) : Ctx :=
  { ctx with values := (key,tx) :: ctx.values }

def Adapter.getTx (a : Adapter) (ctx : Ctx) : Option Tx := ctx.values.lookup a.driver.txContextKey

section Transactions

inductive TxStatus where
  | active
  | committed
  | rolledBack
  deriving DecidableEq, Repr

inductive Statement where
  | failed
  | direct
  | inTx (tx : Tx)
  deriving DecidableEq, Repr

-- the transactions begun and the statements executed so far, each known by its number
structure DB where
  txs : List TxStatus
  statements : List Statement
  deriving DecidableEq, Repr

def Statement.lasting (txs : List TxStatus) : Statement → Bool
  | .failed => false
  | .direct => true
  | .inTx tx => txs[tx]? = some .committed

def DB.lasting (db : DB) (number : ℕ) : Bool := db.statements[number]?.any (·.lasting db.txs)

def errTxDone : GoError := .text "sql: transaction has already been committed or rolled back"

def DB.beginTx (fault : Option GoError) (db : DB) : Except GoError (Tx × DB) :=
  match fault with
  | some err => .error err
  | none => .ok (db.txs.length,{ db with txs := db.txs ++ [.active] })

-- a transaction whose commit or rollback fails leaves nothing behind
def DB.endTx (status : TxStatus) (tx : Tx) (fault : Option GoError) (db : DB) :
    Option GoError × DB :=
  if db.txs[tx]? = some .active then
    match fault with
    | some err => (some err,{ db with txs := db.txs.set tx .rolledBack })
    | none => (none,{ db with txs := db.txs.set tx status })
  else (some errTxDone,db)

def DB.commit (tx : Tx) (fault : Option GoError) (db : DB) : Option GoError × DB :=
  db.endTx .committed tx fault

def DB.rollback (tx : Tx) (fault : Option GoError) (db : DB) : Option GoError × DB :=
  db.endTx .rolledBack tx fault

def DB.record (db : DB) (s : Statement) : DB := { db with statements := db.statements ++ [s] }

def DB.txExec (tx : Tx) (fault : Option GoError) (db : DB) : Option GoError × DB :=
  if db.txs[tx]? = some .active then
    match fault with
    | some err => (some err,db.record .failed)
    | none => (none,db.record (.inTx tx))
  else (some errTxDone,db.record .failed)

def DB.exec (fault : Option GoError) (db : DB) : Option GoError × DB :=
  match fault with
  | some err => (some err,db.record .failed)
  | none => (none,db.record .direct)

def execContext (a : Adapter) (ctx : Ctx) (fault : Option GoError) (db : DB) :
    Option GoError × DB :=
  match a.getTx ctx with
  | some tx => db.txExec tx fault
  | none => db.exec fault

inductive Outcome where
  | nil
  | err (err : GoError)
  | panic (p : GoError)
  deriving DecidableEq, Repr

-- what BeginTx, Commit and Rollback answer in one call
structure Faults where
  begin : Option GoError
  commit : Option GoError
  rollback : Option GoError
  deriving DecidableEq, Repr

def withTransaction (a : Adapter) (ctx : Ctx) (fn : Ctx → DB → Outcome × DB) (faults : Faults)
    (db : DB) : Outcome × DB :=
  match db.beginTx faults.begin with
  | .error err => (.err (.wrapped "failed to begin transaction: " err),db)
  | .ok (tx,db) =>
      match fn (ctx.withValue a.driver.txContextKey tx) db with
      | (.panic p,db) => (.panic p,(db.rollback tx faults.rollback).2)
      | (.err err,db) =>
          match db.rollback tx faults.rollback with
          | (some rbErr,db) =>
              (.err (.join err (.wrapped "failed to rollback transaction: " rbErr)),db)
          | (none,db) => (.err err,db)
      | (.nil,db) =>
          match db.commit tx faults.commit with
          | (some err,db) => (.err (.wrapped "failed to commit transaction: " err),db)
          | (none,db) => (.nil,db)

-- a function given to WithTransaction: its ExecContext and WithTransaction calls with the context
-- it was given, in the order it makes them, and how it ends; it may ignore an error and recover
-- from a panic
inductive Fn where
  | ret (outcome : Outcome)
  | exec (fault : Option GoError) (rest : Fn)
  | nested (faults : Faults) (fn : Fn) (rest : Fn)
  deriving DecidableEq, Repr

def Fn.run (a : Adapter) : Fn → Ctx → DB → Outcome × DB
  | .ret outcome,_,db => (outcome,db)
  | .exec fault rest,ctx,db => rest.run a ctx (execContext a ctx fault db).2
  | .nested faults fn rest,ctx,db =>
      rest.run a ctx (withTransaction a ctx (fn.run a) faults db).2

end Transactions

namespace Fn

def outcome : Fn → Outcome
  | .ret outcome => outcome
  | .exec _ rest => rest.outcome
  | .nested _ _ rest => rest.outcome

-- for each statement executed in it, whether it succeeded and every function between it and this
-- one returned nil
def settled : Fn → List Bool
  | .ret _ => []
  | .exec fault rest => fault.isNone :: rest.settled
  | .nested faults fn rest =>
      (if faults.begin.isSome then [] else if fn.outcome = .nil then fn.settled
        else fn.settled.map fun _ => false) ++ rest.settled

def writes : Fn → Bool
  | .ret _ => false
  | .exec fault rest => fault.isNone || rest.writes
  | .nested _ _ rest => rest.writes

-- some nested call with a statement of its own commits
def leaks : Fn → Bool
  | .ret _ => false
  | .exec _ rest => rest.leaks
  | .nested faults fn rest =>
      (faults.begin.isNone &&
        (fn.outcome = .nil && faults.commit.isNone && fn.writes || fn.leaks)) || rest.leaks

-- some nested call with a statement of its own fails to commit, though its function and those
-- around it returned nil
def loses : Fn → Bool
  | .ret _ => false
  | .exec _ rest => rest.loses
  | .nested faults fn rest =>
      (faults.begin.isNone && fn.outcome = .nil &&
        (faults.commit.isSome && fn.writes || fn.loses)) || rest.loses

end Fn

section Effects

-- the transactions a function begins and what becomes of them
def ended (faults : Faults) (outcome : Outcome) : TxStatus :=
  if outcome = .nil ∧ faults.commit = none then .committed else .rolledBack

def Fn.statuses : Fn → List TxStatus
  | .ret _ => []
  | .exec _ rest => rest.statuses
  | .nested faults fn rest =>
      (if faults.begin.isSome then [] else ended faults fn.outcome :: fn.statuses) ++ rest.statuses

def Fn.statements (tx next : Tx) : Fn → List Statement
  | .ret _ => []
  | .exec fault rest => (if fault.isNone then .inTx tx else .failed) :: rest.statements tx next
  | .nested faults fn rest =>
      if faults.begin.isSome then rest.statements tx next
      else fn.statements next (next+1) ++ rest.statements tx (next+1+fn.statuses.length)

theorem getTx_withValue (a : Adapter) (ctx : Ctx) (tx : Tx) :
    a.getTx (ctx.withValue a.driver.txContextKey tx) = some tx := by
  simp [Adapter.getTx,Ctx.withValue]

variable {a : Adapter}

theorem endTx_last {status : TxStatus} {fault : Option GoError} {txs more : List TxStatus}
    {statements : List Statement} :
    (DB.mk (txs ++ .active :: more) statements).endTx status txs.length fault =
      (fault,⟨txs ++ (if fault = none then status else .rolledBack) :: more,statements⟩) := by
  cases fault with
  | none => simp [DB.endTx]
  | some err => simp [DB.endTx]

def answered (faults : Faults) : Outcome → Outcome
  | .panic p => .panic p
  | .err err => match faults.rollback with
      | some rbErr => .err (.join err (.wrapped "failed to rollback transaction: " rbErr))
      | none => .err err
  | .nil => match faults.commit with
      | some err => .err (.wrapped "failed to commit transaction: " err)
      | none => .nil

-- what running a function does to the database it finds its transaction active in
def Fn.Runs (a : Adapter) (fn : Fn) : Prop :=
  ∀ ctx tx txs statements, a.getTx ctx = some tx → txs[tx]? = some .active →
    fn.run a ctx ⟨txs,statements⟩ =
      (fn.outcome,⟨txs ++ fn.statuses,statements ++ fn.statements tx txs.length⟩)

-- an inner call works in a transaction of its own, whatever its context carries
theorem withTransaction_run {fn : Fn} {faults : Faults} (hbegin : faults.begin = none)
    (hfn : fn.Runs a) (ctx : Ctx) (db : DB) :
    withTransaction a ctx (fn.run a) faults db = (answered faults fn.outcome,
      ⟨db.txs ++ ended faults fn.outcome :: fn.statuses,
        db.statements ++ fn.statements db.txs.length (db.txs.length+1)⟩) := by
  have hrun := hfn (ctx.withValue a.driver.txContextKey db.txs.length) db.txs.length
    (db.txs ++ [TxStatus.active]) db.statements (getTx_withValue a ctx _) (by simp)
  rw [List.append_assoc,List.singleton_append,List.length_append,List.length_singleton] at hrun
  rw [withTransaction,hbegin]
  simp only [DB.beginTx,hrun]
  cases houtcome : fn.outcome with
  | nil =>
    cases hcommit : faults.commit with
    | none => simp [DB.commit,endTx_last,answered,ended,hcommit]
    | some err => simp [DB.commit,endTx_last,answered,ended,hcommit]
  | err err =>
    cases hrollback : faults.rollback with
    | none => simp [DB.rollback,endTx_last,answered,ended,hrollback]
    | some rbErr => simp [DB.rollback,endTx_last,answered,ended,hrollback]
  | panic p => simp [DB.rollback,endTx_last,answered,ended]

theorem withTransaction_unbegun {fn : Fn} {faults : Faults} {err : GoError}
    (hbegin : faults.begin = some err) (ctx : Ctx) (db : DB) :
    withTransaction a ctx (fn.run a) faults db =
      (.err (.wrapped "failed to begin transaction: " err),db) := by
  rw [withTransaction,hbegin]
  rfl

theorem fn_runs (fn : Fn) : fn.Runs a := by
  induction fn with
  | ret outcome =>
    intro ctx tx txs statements hctx htx
    simp [Fn.run,Fn.outcome,Fn.statuses,Fn.statements]
  | exec fault rest ih =>
    intro ctx tx txs statements hctx htx
    have hexec : (execContext a ctx fault ⟨txs,statements⟩).2 =
        ⟨txs,statements ++ [if fault.isNone then Statement.inTx tx else Statement.failed]⟩ := by
      simp only [execContext,hctx,DB.txExec,htx,if_true]
      cases fault with
      | none => rfl
      | some err => rfl
    rw [Fn.run,hexec,ih ctx tx txs _ hctx htx,List.append_assoc]
    rfl
  | nested faults fn rest ihfn ih =>
    intro ctx tx txs statements hctx htx
    rw [Fn.run]
    cases hbegin : faults.begin with
    | some err =>
      rw [withTransaction_unbegun hbegin,ih ctx tx txs _ hctx htx]
      simp [Fn.outcome,Fn.statuses,Fn.statements,hbegin]
    | none =>
      have hactive : (txs ++ ended faults fn.outcome :: fn.statuses)[tx]? = some .active := by
        rw [List.getElem?_append_left (List.getElem?_eq_some_iff.mp htx).1,htx]
      rw [withTransaction_run hbegin ihfn,ih ctx tx _ _ hctx hactive]
      simp [Fn.outcome,Fn.statuses,Fn.statements,hbegin,Nat.add_comm 1,Nat.add_assoc]

end Effects

section Atomicity

-- nothing of a call that fails lasts, everything settled of one that returns nil does
def Atomic (a : Adapter) (ctx : Ctx) (faults : Faults) (fn : Fn) (db : DB) : Prop :=
  let r := withTransaction a ctx (fn.run a) faults db
  (r.1 ≠ .nil → ∀ number, db.statements.length ≤ number → r.2.lasting number = false) ∧
  (r.1 = .nil → ∀ i : ℕ, fn.settled[i]? = some true →
    r.2.lasting (db.statements.length+i) = true)

variable {txs : List TxStatus}

theorem length_settled (fn : Fn) (tx next : Tx) :
    fn.settled.length = (fn.statements tx next).length := by
  induction fn generalizing tx next with
  | ret outcome => rfl
  | exec fault rest ih => simp [Fn.settled,Fn.statements,ih tx next]
  | nested faults fn rest ihfn ih =>
    rw [Fn.settled,Fn.statements]
    cases faults.begin with
    | some err => simpa using ih tx next
    | none =>
      have hinner := ihfn next (next+1)
      have hrest := ih tx (next+1+fn.statuses.length)
      split_ifs <;> simp_all

-- the transactions from `next` on are those the function begins
def Follows (txs : List TxStatus) (next : Tx) (statuses : List TxStatus) : Prop :=
  ∀ i : ℕ, i < statuses.length → txs[next+i]? = statuses[i]?

theorem Follows.head {next : Tx} {status : TxStatus} {statuses : List TxStatus}
    (h : Follows txs next (status :: statuses)) : txs[next]? = some status := by
  simpa using h 0 (by simp)

theorem Follows.tail {next : Tx} {status : TxStatus} {statuses : List TxStatus}
    (h : Follows txs next (status :: statuses)) : Follows txs (next+1) statuses := by
  intro i hi
  have := h (i+1) (by simpa using hi)
  rwa [List.getElem?_cons_succ,← Nat.add_assoc,Nat.add_right_comm] at this

theorem Follows.left {next : Tx} {first second : List TxStatus}
    (h : Follows txs next (first ++ second)) : Follows txs next first := by
  intro i hi
  have := h i (by simp; omega)
  rwa [List.getElem?_append_left hi] at this

theorem Follows.right {next : Tx} {first second : List TxStatus}
    (h : Follows txs next (first ++ second)) : Follows txs (next+first.length) second := by
  intro i hi
  have := h (first.length+i) (by simp; omega)
  rwa [List.getElem?_append_right (by omega),Nat.add_sub_cancel_left,← Nat.add_assoc] at this

theorem ended_eq_committed {faults : Faults} {outcome : Outcome} :
    ended faults outcome = .committed ↔ outcome = .nil ∧ faults.commit = none := by
  unfold ended
  split_ifs with h <;> simp [h]

theorem some_lasting_iff (fn : Fn) (tx : Tx) {next : Tx} (h : Follows txs next fn.statuses) :
    (fn.statements tx next).any (·.lasting txs) = true ↔
      (txs[tx]? = some .committed ∧ fn.writes = true) ∨ fn.leaks = true := by
  induction fn generalizing tx next with
  | ret outcome => simp [Fn.statements,Fn.writes,Fn.leaks]
  | exec fault rest ih =>
    rw [Fn.statements,List.any_cons,Bool.or_eq_true,ih tx h,Fn.writes,Fn.leaks]
    cases fault with
    | none => simp [Statement.lasting]; tauto
    | some err => simp [Statement.lasting]
  | nested faults fn rest ihfn ih =>
    rw [Fn.statements,Fn.writes,Fn.leaks]
    cases hbegin : faults.begin with
    | some err =>
      simp only [Fn.statuses,hbegin,Option.isSome_some,if_true,List.nil_append] at h
      simpa using ih tx h
    | none =>
      simp only [Fn.statuses,hbegin,Option.isSome_none,Bool.false_eq_true,if_false] at h
      have hinner := ihfn next h.left.tail
      have hrest := ih tx h.right
      rw [List.length_cons,Nat.add_comm fn.statuses.length 1,← Nat.add_assoc] at hrest
      simp only [Option.isSome_none,Bool.false_eq_true,if_false,List.any_append,Bool.or_eq_true,
        hinner,hrest,h.left.head,Option.some.injEq,ended_eq_committed,Option.isNone_none,
        Bool.and_eq_true,decide_eq_true_eq,Option.isNone_iff_eq_none,true_and]
      exact or_left_comm

theorem settled_lasting_iff (fn : Fn) (tx : Tx) {next : Tx} (h : Follows txs next fn.statuses) :
    (∀ p ∈ fn.settled.zip (fn.statements tx next), p.1 = true → p.2.lasting txs = true) ↔
      (fn.writes = true → txs[tx]? = some .committed) ∧ fn.loses = false := by
  induction fn generalizing tx next with
  | ret outcome => simp [Fn.settled,Fn.writes,Fn.loses]
  | exec fault rest ih =>
    rw [Fn.settled,Fn.statements,List.zip_cons_cons,List.forall_mem_cons,ih tx h,Fn.writes,Fn.loses]
    cases fault with
    | none => simp [Statement.lasting]; tauto
    | some err => simp [Statement.lasting]
  | nested faults fn rest ihfn ih =>
    rw [Fn.settled,Fn.statements,Fn.writes,Fn.loses]
    cases hbegin : faults.begin with
    | some err =>
      simp only [Fn.statuses,hbegin,Option.isSome_some,if_true,List.nil_append] at h
      simpa using ih tx h
    | none =>
      simp only [Fn.statuses,hbegin,Option.isSome_none,Bool.false_eq_true,if_false] at h
      have hinner := ihfn next h.left.tail
      have hrest := ih tx h.right
      rw [List.length_cons,Nat.add_comm fn.statuses.length 1,← Nat.add_assoc] at hrest
      simp only [Option.isSome_none,Bool.false_eq_true,if_false]
      by_cases houtcome : fn.outcome = .nil
      · rw [if_pos houtcome,List.zip_append (length_settled fn _ _),List.forall_mem_append,hinner,
          hrest,h.left.head]
        cases hcommit : faults.commit with
        | none => simpa [ended,houtcome,hcommit] using and_left_comm
        | some err => simpa [ended,houtcome,hcommit] using and_left_comm
      · have hnone : ∀ p ∈ (fn.settled.map fun _ => false).zip (fn.statements next (next+1)),
            p.1 = true → p.2.lasting txs = true := by
          intro p hp htrue
          have hmem := (List.of_mem_zip hp).1
          simp only [List.mem_map] at hmem
          obtain ⟨_,_,hfalse⟩ := hmem
          rw [← hfalse] at htrue
          cases htrue
        rw [if_neg houtcome,List.zip_append (by simp [length_settled fn next (next+1)]),
          List.forall_mem_append,and_iff_right hnone,hrest]
        simp [houtcome]

theorem lasting_new {old new : List Statement} (i : ℕ) :
    (DB.mk txs (old ++ new)).lasting (old.length+i) = new[i]?.any (·.lasting txs) := by
  rw [DB.lasting,List.getElem?_append_right (by omega),Nat.add_sub_cancel_left]

theorem none_lasting_iff {old new : List Statement} :
    (∀ number, old.length ≤ number → (DB.mk txs (old ++ new)).lasting number = false) ↔
      new.any (·.lasting txs) = false := by
  rw [List.any_eq_false]
  constructor
  · intro h s hs
    obtain ⟨i,hi⟩ := List.mem_iff_getElem?.mp hs
    have hnot := h (old.length+i) (by omega)
    rw [lasting_new,hi,Option.any_some] at hnot
    simp [hnot]
  · intro h number hnumber
    obtain ⟨i,rfl⟩ := Nat.exists_eq_add_of_le hnumber
    rw [lasting_new]
    cases hi : new[i]? with
    | none => rfl
    | some s => simpa using h s (List.mem_of_getElem? hi)

theorem all_lasting_iff {old new : List Statement} {settled : List Bool}
    (hlen : settled.length = new.length) :
    (∀ i : ℕ, settled[i]? = some true →
      (DB.mk txs (old ++ new)).lasting (old.length+i) = true) ↔
      ∀ p ∈ settled.zip new, p.1 = true → p.2.lasting txs = true := by
  constructor
  · intro h p hp htrue
    obtain ⟨i,hi⟩ := List.mem_iff_getElem?.mp hp
    rw [List.getElem?_zip_eq_some] at hi
    have hlast := h i (by rw [hi.1,htrue])
    rwa [lasting_new,hi.2,Option.any_some] at hlast
  · intro h i hi
    have hlt : i < new.length := hlen ▸ (List.getElem?_eq_some_iff.mp hi).1
    have hnew : new[i]? = some new[i] := List.getElem?_eq_getElem hlt
    rw [lasting_new,hnew,Option.any_some]
    exact h (true,new[i]) (List.mem_iff_getElem?.mpr ⟨i,List.getElem?_zip_eq_some.mpr ⟨hi,hnew⟩⟩) rfl

theorem answered_eq_nil {faults : Faults} {outcome : Outcome} :
    answered faults outcome = .nil ↔ outcome = .nil ∧ faults.commit = none := by
  cases outcome with
  | nil => cases hcommit : faults.commit <;> simp [answered,hcommit]
  | err err => cases hrollback : faults.rollback <;> simp [answered,hrollback]
  | panic p => simp [answered]

theorem nested_transactions_atomic_iff (a : Adapter) (ctx : Ctx) (faults : Faults) (fn : Fn)
    (db : DB) : Atomic a ctx faults fn db ↔
      (faults.begin = none →
        (fn.outcome = .nil ∧ faults.commit = none → fn.loses = false) ∧
        (¬(fn.outcome = .nil ∧ faults.commit = none) → fn.leaks = false)) := by
  cases hbegin : faults.begin with
  | some err =>
    have hlast : ∀ number, db.statements.length ≤ number → db.lasting number = false := by
      intro number hnumber
      rw [DB.lasting,List.getElem?_eq_none hnumber,Option.any_none]
    simpa [Atomic,withTransaction_unbegun hbegin] using hlast
  | none =>
    have hfollows : Follows (db.txs ++ ended faults fn.outcome :: fn.statuses) (db.txs.length+1)
        fn.statuses := by
      intro i _
      rw [List.getElem?_append_right (by omega),Nat.add_assoc,Nat.add_sub_cancel_left,Nat.add_comm 1 i,
        List.getElem?_cons_succ]
    have hown : (db.txs ++ ended faults fn.outcome :: fn.statuses)[db.txs.length]? =
        some (ended faults fn.outcome) := by simp
    rw [Atomic,withTransaction_run hbegin (fn_runs fn)]
    dsimp only
    rw [none_lasting_iff,all_lasting_iff (length_settled fn _ _),settled_lasting_iff fn _ hfollows,
      ← Bool.not_eq_true,some_lasting_iff fn _ hfollows,hown,Ne,answered_eq_nil]
    by_cases hnil : fn.outcome = .nil ∧ faults.commit = none
    · simp [ended,hnil]
    · simp [ended,hnil]

-- an outer function that fails after its nested call has committed
def paid : Fn :=
  .exec none (.nested ⟨none,none,none⟩ (.exec none (.ret .nil)) (.ret (.err (.text "declined"))))

theorem nested_commit_survives_rollback :
    ¬ Atomic ⟨.postgres,0⟩ ⟨[],none,none⟩ ⟨none,none,none⟩ paid ⟨[],[]⟩ := by
  intro h
  have hnot := h.1 (by decide) 1 (by decide)
  revert hnot
  decide

end Atomicity

end Nimburion.Persistence
