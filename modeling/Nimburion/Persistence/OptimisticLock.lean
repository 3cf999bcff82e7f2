import Nimburion.Errors
import Nimburion.Lib.InteractionTrace
import Mathlib.Algebra.Group.Int.Defs

namespace Nimburion.Persistence
open Interaction

inductive Value where
  | null
  | int (n : Int64)
  | text (s : String)
  deriving DecidableEq, Repr

abbrev Row := String → Value

-- an entity type that implements Versioned, its mapper and the table it is kept in; `numbered` is
-- whether the executor's placeholders are $1, $2, … or all ?
structure Repository (T ID : Type) where
  idColumn : String
  numbered : Bool
  getID : T → ID
  toRow : T → Except GoError (List String × List Value)
  idValue : ID → Value
  formatID : ID → String
  getVersion : T → Int64
  setVersion : T → Int64 → T
  version_listed : ∀ e columns values, toRow e = .ok (columns,values) → columns.count "version" = 1
  getVersion_setVersion : ∀ e v, getVersion (setVersion e v) = v

-- UPDATE … SET column = placeholder, … WHERE id = placeholder AND version = placeholder
structure UpdateStmt where
  sets : List (String × ℕ)
  idArg : ℕ
  versionArg : ℕ
  args : List Value
  deriving DecidableEq, Repr

inductive Op where
  | update (stmt : UpdateStmt)
  | selectVersion (id : Value)
  deriving DecidableEq, Repr

-- the number of rows affected; a version as Scan reads it, or no error for sql.ErrNoRows
abbrev Ans : Op → Type
  | .update _ => Except GoError ℕ
  | .selectVersion _ => Except (Option GoError) Int64

-- the failure of a program is a panic
abbrev M := Prog Op Ans GoError

inductive UpdateError where
  | go (err : GoError)
  | noRows
  | optimisticLock (entityID : String) (expected actual : Int64)
  deriving DecidableEq, Repr

section Update

variable {T ID : Type} (r : Repository T ID)

-- values[i] = newVersion for each column "version"
def patch (newVersion : Int64) : List String → List Value → Option (List Value)
  | [], values => some values
  | c :: columns, [] => if c = "version" then none else patch newVersion columns []
  | c :: columns, v :: values =>
      (patch newVersion columns values).map ((if c = "version" then .int newVersion else v) :: ·)

def updateStmt (id : Value) (currentVersion : Int64) (columns : List String)
    (values : List Value) : UpdateStmt :=
  ⟨columns.zipIdx 1,values.length+1,values.length+2,values ++ [id,.int currentVersion]⟩

def checkVersion (e : T) : M (Option UpdateError × T) := do
  let actual ← Prog.perform (Op.selectVersion (r.idValue (r.getID e)))
  match actual with
  | .error none => pure (some .noRows,e)
  | .error (some err) => pure (some (.go (.wrapped "failed to check entity version: " err)),e)
  | .ok actual => pure (some (.optimisticLock (r.formatID (r.getID e)) (r.getVersion e) actual),e)

def updateWithOptimisticLock (e : T) (columns : List String) (values : List Value) :
    M (Option UpdateError × T) :=
  match patch (r.getVersion e+1) columns values with
  | none => Prog.fail (.text "index out of range")
  | some values => do
      let result ← Prog.perform
        (Op.update (updateStmt (r.idValue (r.getID e)) (r.getVersion e) columns values))
      match result with
      | .error err => pure (some (.go (.wrapped "failed to update entity: " err)),e)
      | .ok 0 => checkVersion r e
      | .ok (_+1) => pure (none,r.setVersion e (r.getVersion e+1))

def update (e : T) : M (Option UpdateError × T) :=
  match r.toRow e with
  | .error err => pure (some (.go (.wrapped "failed to map entity to row: " err)),e)
  | .ok (columns,values) => updateWithOptimisticLock r e columns values

end Update

section Database

def arg (args : List Value) (placeholder : ℕ) : Option Value := args[placeholder-1]?

def bindSets (args : List Value) : List (String × ℕ) → Option (List (String × Value))
  | [] => some []
  | (c,k) :: sets => (arg args k).bind fun v => (bindSets args sets).map ((c,v) :: ·)

def assign (row : Row) (sets : List (String × Value)) : Row :=
  sets.foldl (fun row p => fun c => if c = p.1 then p.2 else row c) row

-- SQL's equality is never true of NULL
def sqlEq (a b : Value) : Bool := a ≠ .null && a = b

def bindError : GoError := .text "wrong number of parameters"

-- the row of the one ID the updates are about
def runUpdate (numbered : Bool) (idColumn : String) (row : Option Row) (stmt : UpdateStmt) :
    Except GoError ℕ × Option Row :=
  if numbered = false ∧ stmt.args.length ≠ stmt.sets.length+2 then (.error bindError,row)
  else match bindSets stmt.args stmt.sets,arg stmt.args stmt.idArg,arg stmt.args stmt.versionArg with
    | some sets,some id,some version => match row with
        | some old =>
            if sqlEq (old idColumn) id && sqlEq (old "version") version then
              (.ok 1,some (assign old sets))
            else (.ok 0,row)
        | none => (.ok 0,row)
    | _,_,_ => (.error bindError,row)

def runSelect (idColumn : String) (row : Option Row) (id : Value) :
    Except (Option GoError) Int64 :=
  match row with
  | some old =>
      if sqlEq (old idColumn) id then
        match old "version" with
        | .int n => .ok n
        | _ => .error (some (.text "sql: Scan error on column index 0, name \"version\""))
      else .error none
  | none => .error none

-- a failed statement has no effect
def exec (numbered : Bool) (idColumn : String) (row : Option Row) (op : Op) (fault : Option GoError) :
    Option (Ans op × Option Row) :=
  match op with
  | .update stmt => match fault with
      | some err => some (.error err,row)
      | none => some (runUpdate numbered idColumn row stmt)
  | .selectVersion id => match fault with
      | some err => some (.error (some err),row)
      | none => some (runSelect idColumn row id,row)

-- concurrent Update calls on entities with one ID
def updates {T ID : Type} (r : Repository T ID) (id : ID) :
    Machine Ans GoError (Option Row) { e : T // r.getID e = id } (Option UpdateError × T)
      (Option GoError) Empty where
  program := fun e => update r e.val
  exec := exec r.numbered r.idColumn
  env := fun _ e => e.elim

end Database

section Effects

theorem patch_spec {newVersion : Int64} {columns : List String} {values vals : List Value}
    (h : patch newVersion columns values = some vals) : vals.length = values.length ∧
      ∀ k : ℕ, columns[k]? = some "version" → vals[k]? = some (Value.int newVersion) := by
  induction columns generalizing values vals with
  | nil =>
    simp only [patch,Option.some.injEq] at h
    exact ⟨by rw [h],by simp⟩
  | cons c columns ih =>
    cases values with
    | nil =>
      simp only [patch] at h
      split_ifs at h with hc
      obtain ⟨hlen,hall⟩ := ih h
      refine ⟨hlen,fun k hk => ?_⟩
      cases k with
      | zero => exact absurd (by simpa using hk) hc
      | succ k =>
        have hnil : vals = [] := List.length_eq_zero_iff.mp hlen
        have hsome := hall k (by simpa using hk)
        simp [hnil] at hsome
    | cons v values =>
      simp only [patch,Option.map_eq_some_iff] at h
      obtain ⟨vals',hvals',rfl⟩ := h
      obtain ⟨hlen,hall⟩ := ih hvals'
      refine ⟨by simp [hlen],fun k hk => ?_⟩
      cases k with
      | zero =>
        have hc : c = "version" := by simpa using hk
        simp [hc]
      | succ k => simpa using hall k (by simpa using hk)

theorem bindSets_spec {args : List Value} {columns : List String} {n : ℕ}
    {sets : List (String × Value)} (h : bindSets args (columns.zipIdx (n+1)) = some sets) :
    (∀ p ∈ sets, ∃ k, columns[k]? = some p.1 ∧ args[n+k]? = some p.2) ∧
      ∀ c ∈ columns, ∃ p ∈ sets, p.1 = c := by
  induction columns generalizing n sets with
  | nil =>
    simp only [List.zipIdx_nil,bindSets,Option.some.injEq] at h
    subst h
    simp
  | cons c columns ih =>
    simp only [List.zipIdx_cons,bindSets,Option.bind_eq_some_iff,Option.map_eq_some_iff] at h
    obtain ⟨v,hv,sets,hsets,rfl⟩ := h
    obtain ⟨hall,hex⟩ := ih hsets
    refine ⟨?_,?_⟩
    · intro p hp
      rcases List.mem_cons.mp hp with rfl | hp
      · exact ⟨0,rfl,hv⟩
      · obtain ⟨k,hk,harg⟩ := hall p hp
        exact ⟨k+1,hk,by rwa [← Nat.add_assoc,Nat.add_right_comm]⟩
    · intro d hd
      rcases List.mem_cons.mp hd with rfl | hd
      · exact ⟨(d,v),List.mem_cons_self,rfl⟩
      · obtain ⟨p,hp,hpd⟩ := hex d hd
        exact ⟨p,List.mem_cons_of_mem _ hp,hpd⟩

theorem assign_eq {sets : List (String × Value)} {c : String} {v : Value} (row : Row)
    (hall : ∀ p ∈ sets, p.1 = c → p.2 = v) (hex : row c = v ∨ ∃ p ∈ sets, p.1 = c) :
    assign row sets c = v := by
  induction sets generalizing row with
  | nil => simpa [assign] using hex
  | cons p sets ih =>
    obtain ⟨hp,hsets⟩ := List.forall_mem_cons.mp hall
    refine ih _ hsets ?_
    by_cases hpc : p.1 = c
    · exact .inl (by simp [hpc,hp hpc])
    · rcases hex with hrow | ⟨q,hq,hqc⟩
      · exact .inl (by simp [Ne.symm hpc,hrow])
      · rcases List.mem_cons.mp hq with rfl | hq
        · exact absurd hqc hpc
        · exact .inr ⟨q,hq,hqc⟩

theorem sqlEq_int {a : Value} {n : Int64} : sqlEq a (.int n) = true ↔ a = .int n := by
  simp only [sqlEq,Bool.and_eq_true,decide_eq_true_eq]
  exact ⟨fun h => h.2,fun h => ⟨by simp [h],h⟩⟩

def storedVersion (row : Option Row) : Option Int64 :=
  row.bind fun old => match old "version" with
    | .int n => some n
    | _ => none

theorem storedVersion_eq_some {row : Option Row} {n : Int64} :
    storedVersion row = some n ↔ ∃ old, row = some old ∧ old "version" = .int n := by
  unfold storedVersion
  rw [Option.bind_eq_some_iff]
  refine exists_congr fun old => and_congr_right fun _ => ?_
  split <;> simp_all

-- the row of this ID is in the table
def present (idColumn : String) (row : Option Row) (id : Value) : Bool :=
  row.any fun old => sqlEq (old idColumn) id

variable {numbered : Bool} {idColumn : String} {row row' : Option Row} {id : Value}
  {current : Int64} {columns : List String} {values vals : List Value} {n : ℕ}

theorem runUpdate_error {stmt : UpdateStmt} {err : GoError}
    (h : runUpdate numbered idColumn row stmt = (.error err,row')) : row' = row := by
  unfold runUpdate at h
  split_ifs at h
  · exact (Prod.mk.inj h).2.symm
  · split at h
    · split at h
      · split_ifs at h <;> cases h
      · cases h
    · exact (Prod.mk.inj h).2.symm

theorem runUpdate_cases (hpatch : patch (current+1) columns values = some vals)
    (hlisted : columns.count "version" = 1)
    (h : runUpdate numbered idColumn row (updateStmt id current columns vals) = (.ok n,row')) :
    (n ≠ 0 ∧ storedVersion row = some current ∧ storedVersion row' = some (current+1) ∧
      present idColumn row id = true) ∨
    (n = 0 ∧ row' = row ∧
      (present idColumn row id = true → storedVersion row ≠ some current)) := by
  obtain ⟨hlen,hversion⟩ := patch_spec hpatch
  have hid : arg (vals ++ [id,.int current]) (vals.length+1) = some id := by simp [arg]
  have hcur : arg (vals ++ [id,.int current]) (vals.length+2) = some (.int current) := by simp [arg]
  unfold runUpdate updateStmt at h
  dsimp only at h
  split_ifs at h
  · simp at h
  rw [hid,hcur] at h
  cases hsets : bindSets (vals ++ [id,.int current]) (columns.zipIdx 1) with
  | none => simp [hsets] at h
  | some sets =>
    rw [hsets] at h
    cases row with
    | none =>
      simp only [Prod.mk.injEq,Except.ok.injEq] at h
      exact .inr ⟨h.1.symm,h.2.symm,by simp [present]⟩
    | some old =>
      dsimp only at h
      split_ifs at h with hmatch
      · simp only [Prod.mk.injEq,Except.ok.injEq] at h
        rw [Bool.and_eq_true,sqlEq_int] at hmatch
        obtain ⟨hall,hex⟩ := bindSets_spec (n := 0) hsets
        have hmem : "version" ∈ columns := List.count_pos_iff.mp (by omega)
        have hnew : assign old sets "version" = .int (current+1) := by
          refine assign_eq old (fun p hp hpc => ?_) (.inr (hex _ hmem))
          obtain ⟨k,hk,harg⟩ := hall p hp
          have hval := hversion k (hpc ▸ hk)
          rw [Nat.zero_add,List.getElem?_append_left (List.getElem?_eq_some_iff.mp hval).1,hval,
            Option.some.injEq] at harg
          exact harg.symm
        refine .inl ⟨by omega,storedVersion_eq_some.mpr ⟨old,rfl,hmatch.2⟩,?_,?_⟩
        · rw [← h.2]
          exact storedVersion_eq_some.mpr ⟨_,rfl,hnew⟩
        · simpa [present] using hmatch.1
      · simp only [Prod.mk.injEq,Except.ok.injEq] at h
        refine .inr ⟨h.1.symm,h.2.symm,fun hpresent hstored => hmatch ?_⟩
        obtain ⟨_,hrow,hcurrent⟩ := storedVersion_eq_some.mp hstored
        cases hrow
        rw [Bool.and_eq_true,sqlEq_int]
        exact ⟨by simpa [present] using hpresent,hcurrent⟩

end Effects

section Programs

variable {T ID : Type} (r : Repository T ID)

def Writes (e : T) (stmt : UpdateStmt) : Prop :=
  ∃ columns values vals, r.toRow e = .ok (columns,values) ∧
    patch (r.getVersion e+1) columns values = some vals ∧
    stmt = updateStmt (r.idValue (r.getID e)) (r.getVersion e) columns vals

def affected : List (Event Ans) → Bool
  | [⟨.update _,.ok (_+1)⟩] => true
  | _ => false

-- the UPDATE comes first, the check of the version after an UPDATE that affected no row
def ordered (e : T) : Spec Ans where
  pre tr op := match op with
    | .update stmt => tr = [] ∧ Writes r e stmt
    | .selectVersion id => id = r.idValue (r.getID e) ∧
        ∃ stmt, Writes r e stmt ∧ tr = [⟨.update stmt,.ok 0⟩]
  ans _ _ := True

def Concludes (e : T) (tr : List (Event Ans)) : Except GoError (Option UpdateError × T) → Prop
  | .ok (none,e') => e' = r.setVersion e (r.getVersion e+1) ∧
      ∃ stmt n, Writes r e stmt ∧ tr = [⟨.update stmt,.ok (n+1)⟩]
  | .ok (some err,e') => e' = e ∧ affected tr = false ∧ ∀ entityID expected actual,
      err = .optimisticLock entityID expected actual → expected = r.getVersion e ∧
        ∃ stmt, Writes r e stmt ∧
          tr = [⟨.selectVersion (r.idValue (r.getID e)),.ok actual⟩,⟨.update stmt,.ok 0⟩]
  | .error _ => affected tr = false

theorem meets_checkVersion {e : T} {stmt : UpdateStmt} (hstmt : Writes r e stmt) :
    Prog.Meets (ordered r e) (Concludes r e) [⟨.update stmt,.ok 0⟩] (checkVersion r e) := by
  rw [checkVersion,Prog.meets_bind,Prog.meets_perform]
  refine ⟨⟨rfl,stmt,hstmt,rfl⟩,fun actual _ => ?_⟩
  rcases actual with (_ | err) | actual
  · exact ⟨rfl,rfl,by simp⟩
  · exact ⟨rfl,rfl,by simp⟩
  · refine ⟨rfl,rfl,fun entityID expected actual' heq => ?_⟩
    cases heq
    exact ⟨rfl,stmt,hstmt,rfl⟩

theorem meets_update (e : T) : Prog.Meets (ordered r e) (Concludes r e) [] (update r e) := by
  unfold update
  cases hrow : r.toRow e with
  | error err => exact ⟨rfl,rfl,by simp⟩
  | ok listed =>
    obtain ⟨columns,values⟩ := listed
    dsimp only
    unfold updateWithOptimisticLock
    cases hpatch : patch (r.getVersion e+1) columns values with
    | none => exact rfl
    | some vals =>
      have hstmt : Writes r e (updateStmt (r.idValue (r.getID e)) (r.getVersion e) columns vals) :=
        ⟨columns,values,vals,hrow,hpatch,rfl⟩
      dsimp only
      rw [Prog.meets_bind,Prog.meets_perform]
      refine ⟨⟨rfl,hstmt⟩,fun result _ => ?_⟩
      rcases result with err | _ | n
      · exact ⟨rfl,rfl,by simp⟩
      · exact meets_checkVersion r hstmt
      · exact ⟨rfl,_,n,hstmt,rfl⟩

end Programs

section Runs

variable {T ID : Type} {r : Repository T ID} {id : ID}

abbrev Calls (r : Repository T ID) (id : ID) :=
  Config Ans GoError (Option Row) { e : T // r.getID e = id } (Option UpdateError × T)

abbrev Updating (r : Repository T ID) (id : ID) :=
  Thread Ans GoError { e : T // r.getID e = id } (Option UpdateError × T)

def returnedNil (t : Updating r id) : Bool :=
  match t.rest with
  | .ret (none,_) => true
  | _ => false

def Meeting (c : Calls r id) : Prop :=
  Machine.ThreadsMeet (fun e => ordered r e.val) (fun e => Concludes r e.val) c

theorem affected_eq_returnedNil {t : Updating r id}
    (h : Prog.Meets (ordered r t.call.val) (Concludes r t.call.val) t.trace t.rest) :
    affected t.trace = returnedNil t := by
  unfold returnedNil
  cases hrest : t.rest with
  | ret a =>
    rw [hrest] at h
    obtain ⟨_ | err,e'⟩ := a
    · obtain ⟨_,stmt,n,_,htrace⟩ := h
      rw [htrace]
      rfl
    · exact h.2.1
  | fail err =>
    rw [hrest] at h
    exact h
  | call op k =>
    rw [hrest] at h
    cases op with
    | update stmt =>
      rw [h.1.1]
      rfl
    | selectVersion v =>
      obtain ⟨_,stmt,_,htrace⟩ := h.1
      rw [htrace]
      rfl

-- what a statement of a call does to the row
theorem exec_cases {e : T} {tr : List (Event Ans)} {op : Op} {x : Option GoError}
    {row row' : Option Row} {ans : Ans op} (hpre : (ordered r e).pre tr op)
    (hx : exec r.numbered r.idColumn row op x = some (ans,row')) :
    (affected (⟨op,ans⟩ :: tr) = true ∧ storedVersion row = some (r.getVersion e) ∧
      storedVersion row' = some (r.getVersion e+1) ∧
      present r.idColumn row (r.idValue (r.getID e)) = true) ∨
    (affected (⟨op,ans⟩ :: tr) = false ∧ row' = row ∧
      ∀ stmt, (⟨op,ans⟩ : Event Ans) = ⟨.update stmt,.ok 0⟩ →
        present r.idColumn row (r.idValue (r.getID e)) = true →
        storedVersion row ≠ some (r.getVersion e)) := by
  cases op with
  | update stmt =>
    obtain ⟨rfl,columns,values,vals,hrow,hpatch,rfl⟩ := hpre
    cases x with
    | some err =>
      simp only [exec,Option.some.injEq,Prod.mk.injEq] at hx
      obtain ⟨rfl,rfl⟩ := hx
      exact .inr ⟨rfl,rfl,by simp⟩
    | none =>
      simp only [exec,Option.some.injEq] at hx
      rcases ans with err | n
      · exact .inr ⟨rfl,runUpdate_error hx,by simp⟩
      · rcases runUpdate_cases hpatch (r.version_listed e columns values hrow) hx with
          ⟨hn,hstored,hstored',hpresent⟩ | ⟨rfl,hrow',hdiff⟩
        · obtain ⟨m,rfl⟩ := Nat.exists_eq_succ_of_ne_zero hn
          exact .inl ⟨rfl,hstored,hstored',hpresent⟩
        · exact .inr ⟨rfl,hrow',fun _ _ => hdiff⟩
  | selectVersion v =>
    obtain ⟨_,stmt,_,rfl⟩ := hpre
    refine .inr ⟨rfl,?_,fun stmt' heq => by cases heq⟩
    cases x with
    | some err =>
      simp only [exec,Option.some.injEq,Prod.mk.injEq] at hx
      exact hx.2.symm
    | none =>
      simp only [exec,Option.some.injEq,Prod.mk.injEq] at hx
      exact hx.2.symm

theorem exec_step {c : Calls r id} {i : ℕ} {t : Updating r id} {op : Op} {x : Option GoError}
    {ans : Ans op} {row' : Option Row} {n : Int64} (ht : c.threads[i]? = some t)
    (hpre : (ordered r t.call.val).pre t.trace op)
    (hx : (updates r id).exec c.shared op x = some (ans,row')) (k : Prog Op Ans GoError _)
    (hcount : storedVersion c.shared =
      some (n+Int64.ofNat (c.threads.countP fun t => affected t.trace))) :
    storedVersion row' = some (n+Int64.ofNat ((c.threads.set i
      { t with rest := k, trace := ⟨op,ans⟩ :: t.trace }).countP fun t => affected t.trace)) := by
  have hold : affected t.trace = false := by
    cases op with
    | update stmt => rw [hpre.1]; rfl
    | selectVersion v =>
      obtain ⟨_,stmt,_,htrace⟩ := hpre
      rw [htrace]
      rfl
  rcases exec_cases hpre hx with ⟨hnew,hstored,hstored',_⟩ | ⟨hnew,hsame,_⟩
  · rw [Machine.countP_set_of_new ht hold hnew]
    rw [hcount,Option.some.injEq] at hstored
    rw [hstored',← hstored,Option.some.injEq,Int64.ofNat_add,Int64.add_assoc]
    rfl
  · have hq : affected (⟨op,ans⟩ :: t.trace) = affected t.trace := hnew.trans hold.symm
    rw [Machine.countP_set_of_same ht hq,hsame]
    exact hcount

theorem stored_version_counts {row : Option Row} {n : Int64} {acts : List _} {c' : Calls r id}
    (hrow : storedVersion row = some n) (hrun : (updates r id).run acts ⟨row,[]⟩ = some c') :
    storedVersion c'.shared =
      some (n+Int64.ofNat (c'.threads.countP fun t => affected t.trace)) := by
  refine (Machine.run_config_invariant (P := fun _ _ => True)
    (J := fun c => storedVersion c.shared =
      some (n+Int64.ofNat (c.threads.countP fun t => affected t.trace)))
    (fun e => meets_update r e.val) ?_ ?_ ?_ ?_ ?_ ?_ ((updates r id).along_true _ _) hrun).1
  · intro c call hcount _
    simpa [List.countP_append,affected] using hcount
  · intro c i x t op k ans s' hcount _ ht _ _ hpre hx
    exact ⟨trivial,exec_step ht hpre hx _ hcount⟩
  · intro c i t hcount _ ht
    have hset : (c.threads.set i { t with alive := false }).countP (fun t => affected t.trace) =
        c.threads.countP fun t => affected t.trace := Machine.countP_set_of_same ht rfl
    simpa [hset] using hcount
  · intro c e
    exact e.elim
  · simpa using hrow
  · simp [Machine.ThreadsMeet]

theorem meeting_run {row : Option Row} {acts : List _} {c' : Calls r id}
    (hrun : (updates r id).run acts ⟨row,[]⟩ = some c') : Meeting c' := by
  refine (updates r id).run_invariant (P := fun _ _ => True) (I := Meeting) ?_ ?_
    ((updates r id).along_true _ _) hrun
  · intro c a c' hmeet _ hs
    exact hmeet.step _ (fun e => meets_update r e.val) (fun _ _ _ _ _ _ _ => trivial) hs
  · simp [Meeting,Machine.ThreadsMeet]

theorem present_of_id {e : T} (he : r.getID e = id) (row : Option Row) :
    present r.idColumn row (r.idValue (r.getID e)) = present r.idColumn row (r.idValue id) := by
  rw [he]

-- an UPDATE of this ID cannot bring back a row that has left it
theorem present_run {acts : List _} {c c' : Calls r id} (hmeet : Meeting c)
    (hrun : (updates r id).run acts c = some c')
    (h : present r.idColumn c'.shared (r.idValue id) = true) :
    present r.idColumn c.shared (r.idValue id) = true := by
  by_contra habsent
  rw [Bool.not_eq_true] at habsent
  have hinv := Machine.run_config_invariant (P := fun _ _ => True)
    (J := fun c : Calls r id => present r.idColumn c.shared (r.idValue id) = false)
    (fun e => meets_update r e.val) (fun _ _ hJ _ => hJ) ?_ (fun _ _ _ hJ _ _ => hJ)
    (fun _ e => e.elim) habsent hmeet ((updates r id).along_true _ _) hrun
  · rw [hinv.1] at h
    cases h
  · intro c i x t op k ans s' hJ _ ht _ _ hpre hx
    refine ⟨trivial,?_⟩
    rcases exec_cases hpre hx with ⟨_,_,_,hpresent⟩ | ⟨_,hsame,_⟩
    · rw [t.call.property,hJ] at hpresent
      cases hpresent
    · rw [hsame]
      exact hJ

theorem selected_present {row row' : Option Row} {v : Value} {x : Option GoError} {actual : Int64}
    (hx : (updates r id).exec row (.selectVersion v) x = some (.ok actual,row')) :
    present r.idColumn row v = true := by
  cases x with
  | some err => simp [updates,exec] at hx
  | none =>
    simp only [updates,exec,Option.some.injEq,Prod.mk.injEq,runSelect] at hx
    cases row with
    | none => simp at hx
    | some old =>
      dsimp only at hx
      split_ifs at hx with hid
      · exact hid
      · simp at hx

end Runs

section Locking

variable {T ID : Type} (r : Repository T ID) (id : ID)

theorem optimistic_locking_loses_no_update (row : Option Row) (acts : List _) (c' : Calls r id)
    (hrun : (updates r id).run acts ⟨row,[]⟩ = some c') :
    (∀ i t e', c'.threads[i]? = some t → t.rest = .ret (none,e') →
      r.getVersion e' = r.getVersion t.call.val+1 ∧
      ∃ stmt n, ∃ h : (updates r id).Happened acts ⟨row,[]⟩ c' i t.call [] ⟨.update stmt,.ok n⟩,
        storedVersion h.source.shared = some (r.getVersion t.call.val) ∧
        storedVersion h.target.shared = some (r.getVersion t.call.val+1)) ∧
    (∀ i t err e', c'.threads[i]? = some t → t.rest = .ret (some err,e') → e' = t.call.val ∧
      ∀ entityID expected actual, err = .optimisticLock entityID expected actual →
        expected = r.getVersion t.call.val ∧
        ∃ stmt, ∃ h : (updates r id).Happened acts ⟨row,[]⟩ c' i t.call [] ⟨.update stmt,.ok 0⟩,
          present r.idColumn h.source.shared (r.idValue id) = true ∧
          storedVersion h.source.shared ≠ some expected) ∧
    (∀ n, storedVersion row = some n → n.toInt+c'.threads.countP returnedNil < 2^63 →
      (storedVersion c'.shared).map Int64.toInt = some (n.toInt+c'.threads.countP returnedNil)) := by
  have hmeet := meeting_run hrun
  refine ⟨?_,?_,?_⟩
  · intro i t e' ht hrest
    have hpost := hmeet t (List.mem_of_getElem? ht)
    rw [hrest] at hpost
    obtain ⟨rfl,stmt,n,hstmt,htrace⟩ := hpost
    refine ⟨r.getVersion_setVersion _ _,stmt,n+1,?_⟩
    obtain ⟨h⟩ := (updates r id).run_event rfl hrun ht [] htrace
    refine ⟨h,?_⟩
    have hpre : (ordered r t.call.val).pre [] (.update stmt) := ⟨rfl,hstmt⟩
    rcases exec_cases hpre h.effect with ⟨_,hstored,hstored',_⟩ | ⟨hnot,_⟩
    · exact ⟨hstored,hstored'⟩
    · cases hnot
  · intro i t err e' ht hrest
    have hpost := hmeet t (List.mem_of_getElem? ht)
    rw [hrest] at hpost
    obtain ⟨rfl,_,hlock⟩ := hpost
    refine ⟨rfl,fun entityID expected actual herr => ?_⟩
    obtain ⟨rfl,stmt,hstmt,htrace⟩ := hlock entityID expected actual herr
    refine ⟨rfl,stmt,?_⟩
    -- the check came after the UPDATE and still saw the row
    obtain ⟨hcheck⟩ := (updates r id).run_event rfl hrun ht [] htrace
    obtain ⟨hupdate⟩ := (updates r id).run_event rfl hcheck.reached hcheck.there []
      hcheck.trace
    have hseen := (present_of_id t.call.property _).symm.trans (selected_present hcheck.effect)
    have hpresent := present_run (meeting_run hupdate.reached) hupdate.run_source hseen
    have hpre : (ordered r t.call.val).pre [] (.update stmt) := ⟨rfl,hstmt⟩
    rcases exec_cases hpre hupdate.effect with ⟨hnot,_⟩ | ⟨_,_,hdiff⟩
    · cases hnot
    · exact ⟨hupdate.extend hcheck.run_source hcheck.split hcheck.called,hpresent,
        hdiff stmt rfl ((present_of_id t.call.property _).trans hpresent)⟩
  · intro n hrow hsmall
    have hsame : c'.threads.countP (fun t => affected t.trace) = c'.threads.countP returnedNil :=
      List.countP_congr fun t ht => by rw [affected_eq_returnedNil (hmeet t ht)]
    rw [stored_version_counts hrow hrun,hsame,Option.map_some]
    congr 1
    have hlow := n.le_toInt
    have hsize : Int64.size = 2^64 := rfl
    rw [Int64.toInt_add,Int64.toInt_ofNat',hsize,Int.add_bmod_bmod,Int.bmod_eq_of_le (by omega) (by omega)]

structure Account where
  id : ℕ
  name : String
  version : Int64
  deriving DecidableEq, Repr

def accounts : Repository Account ℕ where
  idColumn := "id"
  numbered := true
  getID := Account.id
  toRow := fun e => .ok (["id","name","version"],[.int (Int64.ofNat e.id),.text e.name,.int e.version])
  idValue := fun id => .int (Int64.ofNat id)
  formatID := fun id => toString id
  getVersion := Account.version
  setVersion := fun e v => { e with version := v }
  version_listed := by
    intro e columns values h
    cases h
    decide
  getVersion_setVersion := fun _ _ => rfl

def storedAccount : Row := fun c =>
  if c = "id" then .int 7 else if c = "version" then .int 1 else .text "ada"

-- two writers that read version 1
def renames : List (Action { e : Account // accounts.getID e = 7 } (Option GoError) Empty) :=
  [.start ⟨⟨7,"bob",1⟩,rfl⟩,.start ⟨⟨7,"eve",1⟩,rfl⟩,.exec 1 none,.exec 0 none,.exec 0 none]

theorem second_rename_is_refused : ∃ c', (updates accounts 7).run renames ⟨some storedAccount,[]⟩ =
      some c' ∧ c'.threads.countP returnedNil = 1 ∧
    (storedVersion c'.shared).map Int64.toInt = some 2 := by
  obtain ⟨c',hc'⟩ := Option.isSome_iff_exists.mp (by decide +kernel :
    ((updates accounts 7).run renames ⟨some storedAccount,[]⟩).isSome = true)
  have hone : c'.threads.countP returnedNil = 1 := by
    have h : ((updates accounts 7).run renames ⟨some storedAccount,[]⟩).map
        (fun c' => c'.threads.countP returnedNil) = some 1 := by decide +kernel
    rw [hc'] at h
    exact Option.some.inj h
  have hstored : storedVersion (some storedAccount) = some 1 := by decide +kernel
  have hall := optimistic_locking_loses_no_update accounts 7 (some storedAccount) renames c' hc'
  refine ⟨c',hc',hone,?_⟩
  have h := hall.2.2 1 hstored (by rw [hone]; decide)
  rw [h,hone]
  rfl

end Locking

end Nimburion.Persistence
