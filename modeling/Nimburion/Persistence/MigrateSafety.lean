import Nimburion.Persistence.Migrate

namespace Nimburion.Persistence.Migrate
open Interaction

section Log

-- the last script of this version to take effect was its Up
def inPlace (log : List (ℕ × Change)) (version : Int64) : Bool :=
  log.foldl (fun there e => if e.2 = .ran .up version then true
    else if e.2 = .ran .down version then false else there) false

theorem inPlace_append (log : List (ℕ × Change)) (tx : ℕ) (d : Direction) (v w : Int64) :
    inPlace (log ++ [(tx,Change.ran d v)]) w = if v = w then decide (d = .up) else inPlace log w := by
  unfold inPlace
  rw [List.foldl_append,List.foldl_cons,List.foldl_nil]
  by_cases hvw : v = w
  · cases d <;> simp [hvw]
  · simp [hvw]

theorem reverted_since {log pre mid : List (ℕ × Change)} {tx : ℕ} {v : Int64}
    (hlog : log = pre ++ (tx,.ran .up v) :: mid) (h : inPlace log v = false) :
    ∃ tx', (tx',.ran .down v) ∈ mid := by
  induction mid using List.reverseRecOn generalizing log with
  | nil => simp [hlog,inPlace_append] at h
  | append_singleton mid e ih =>
    by_cases he : e.2 = .ran .down v
    · exact ⟨e.1,by simp [← he]⟩
    · have hlast : inPlace (pre ++ (tx,.ran .up v) :: mid) v = false := by
        rw [hlog,← List.cons_append,← List.append_assoc,inPlace,List.foldl_append,List.foldl_cons,
          List.foldl_nil,if_neg he] at h
        split_ifs at h
        exact h
      obtain ⟨tx',htx'⟩ := ih rfl hlast
      exact ⟨tx',List.mem_append_left _ htx'⟩

def NoDoubleUp (log : List (ℕ × Change)) : Prop :=
  ∀ v pre mid post tx tx', log = pre ++ (tx,.ran .up v) :: (mid ++ (tx',.ran .up v) :: post) →
    ∃ tx'', (tx'',.ran .down v) ∈ mid

theorem NoDoubleUp.append {log : List (ℕ × Change)} {e : ℕ × Change} (h : NoDoubleUp log)
    (he : ∀ v, e.2 = .ran .up v → inPlace log v = false) : NoDoubleUp (log ++ [e]) := by
  intro v pre mid post tx tx' hlog
  rcases List.eq_nil_or_concat post with rfl | ⟨post,last,rfl⟩
  · rw [← List.cons_append,← List.append_assoc] at hlog
    obtain ⟨hlog,hlast⟩ := List.append_inj' hlog rfl
    have hup : e.2 = .ran .up v := by simpa using congrArg (fun l => l.map Prod.snd) hlast
    exact reverted_since hlog (he v hup)
  · rw [List.concat_eq_append,← List.cons_append,← List.append_assoc,← List.cons_append,
      ← List.append_assoc] at hlog
    refine h v pre mid post tx tx' ?_
    rw [(List.append_inj' hlog rfl).1,List.append_assoc]
    rfl

end Log

section Coherence

variable {db db' : DB} {tx : ℕ} {r : TxRecord} {x : Option (Stage × GoError)}

theorem openTx_eq_some : db.openTx tx = some r ↔ db.txs[tx]? = some r ∧ r.active = true := by
  unfold DB.openTx
  rw [Option.filter_eq_some_iff]

def Quiet (db db' : DB) : Prop :=
  db'.versions = db.versions ∧ db'.log = db.log ∧ db'.txs = db.txs ∧
    (db.table.isSome = true → db'.table.isSome = true)

theorem Quiet.refl (db : DB) : Quiet db db := ⟨rfl,rfl,rfl,fun h => h⟩

-- an insert needs the table, and the version in no row of it nor in another open transaction
def Free (db : DB) (tx : ℕ) (change : Change) : Prop :=
  ∀ v, change = .insert v → db.table.isSome = true ∧ v ∉ db.versions ∧
    db.held tx (.insert v) = false

def written : Stmt → ℕ → List Change
  | .script d m,_ => [.ran d m.version]
  | .insert version,_ => [.insert version]
  | .delete version,n => if n = 0 then [] else [.delete version]

theorem exec_createTable {ans : Ans .createTable}
    (h : exec db .createTable x = some (ans,db')) : Quiet db db' := by
  cases x with
  | some err =>
    cases h
    exact Quiet.refl db
  | none =>
    cases h
    exact ⟨rfl,rfl,rfl,fun _ => rfl⟩

theorem exec_select {desc : Bool} {ans : Ans (.select desc)}
    (h : exec db (.select desc) x = some (ans,db')) : db' = db := by
  cases x with
  | some err =>
    cases h
    rfl
  | none =>
    cases htable : db.table with
    | none =>
      simp only [exec,htable,Option.some.injEq,Prod.mk.injEq] at h
      exact h.2.symm
    | some versions =>
      simp only [exec,htable,Option.some.injEq,Prod.mk.injEq] at h
      exact h.2.symm

theorem exec_begin {ans : Ans .begin} (h : exec db .begin x = some (ans,db')) :
    ((∃ err, ans = .error err) ∧ db' = db) ∨
      (ans = .ok db.txs.length ∧ db' = { db with txs := db.txs ++ [⟨true,[]⟩] }) := by
  cases x with
  | some err =>
    cases h
    exact .inl ⟨⟨_,rfl⟩,rfl⟩
  | none =>
    cases h
    exact .inr ⟨rfl,rfl⟩

theorem execStmt_cases {stmt : Stmt} {ans : Except GoError ℕ}
    (h : db.execStmt tx r stmt = some (ans,db')) :
    ((∃ err, ans = .error err) ∧ db' = db) ∨ ∃ n, ans = .ok n ∧
      ((∃ change, written stmt n = [change] ∧ Free db tx change ∧ db' = db.write tx r change) ∨
        (∃ v, stmt = .delete v ∧ n = 0 ∧ v ∉ db.versions ∧ db' = db)) := by
  cases stmt with
  | script d m =>
    cases h
    exact .inr ⟨0,rfl,.inl ⟨_,rfl,by simp [Free],rfl⟩⟩
  | insert v =>
    cases htable : db.table with
    | none =>
      simp only [DB.execStmt,htable,Option.some.injEq,Prod.mk.injEq] at h
      exact .inl ⟨⟨_,h.1.symm⟩,h.2.symm⟩
    | some versions =>
      simp only [DB.execStmt,htable] at h
      split_ifs at h with hdup hheld
      · simp only [Option.some.injEq,Prod.mk.injEq] at h
        exact .inl ⟨⟨_,h.1.symm⟩,h.2.symm⟩
      · simp only [Option.some.injEq,Prod.mk.injEq] at h
        refine .inr ⟨1,h.1.symm,.inl ⟨_,rfl,?_,h.2.symm⟩⟩
        intro w hw
        cases hw
        rw [not_or] at hdup
        refine ⟨by rw [htable]; rfl,?_,by simpa using hheld⟩
        rw [DB.versions,htable]
        exact hdup.1
  | delete v =>
    cases htable : db.table with
    | none =>
      simp only [DB.execStmt,htable,Option.some.injEq,Prod.mk.injEq] at h
      exact .inl ⟨⟨_,h.1.symm⟩,h.2.symm⟩
    | some versions =>
      simp only [DB.execStmt,htable] at h
      split_ifs at h with hthere hheld
      · simp only [Option.some.injEq,Prod.mk.injEq] at h
        exact .inr ⟨1,h.1.symm,.inl ⟨_,rfl,by simp [Free],h.2.symm⟩⟩
      · simp only [Option.some.injEq,Prod.mk.injEq] at h
        refine .inr ⟨0,h.1.symm,.inr ⟨v,rfl,rfl,?_,h.2.symm⟩⟩
        rw [DB.versions,htable]
        exact hthere

theorem exec_stmt {stmt : Stmt} {ans : Ans (.exec tx stmt)}
    (h : exec db (.exec tx stmt) x = some (ans,db')) :
    ((∃ err, ans = .error err) ∧ db' = db) ∨ ∃ r n, db.openTx tx = some r ∧ ans = .ok n ∧
      ((∃ change, written stmt n = [change] ∧ Free db tx change ∧ db' = db.write tx r change) ∨
        (∃ v, stmt = .delete v ∧ n = 0 ∧ v ∉ db.versions ∧ db' = db)) := by
  cases hopen : db.openTx tx with
  | none =>
    simp only [exec,hopen,Option.some.injEq,Prod.mk.injEq] at h
    exact .inl ⟨⟨_,h.1.symm⟩,h.2.symm⟩
  | some r =>
    cases x with
    | some err =>
      simp only [exec,hopen,Option.some.injEq,Prod.mk.injEq] at h
      exact .inl ⟨⟨_,h.1.symm⟩,h.2.symm⟩
    | none =>
      simp only [exec,hopen] at h
      rcases execStmt_cases h with herr | ⟨n,hn,hdone⟩
      · exact .inl herr
      · exact .inr ⟨r,n,rfl,hn,hdone⟩

theorem exec_commit {ans : Ans (.commit tx)} (h : exec db (.commit tx) x = some (ans,db')) :
    ((∃ err, ans = some err) ∧ (db' = db ∨ ∃ r, db.openTx tx = some r ∧ db' = db.close tx r)) ∨
      ∃ r, db.openTx tx = some r ∧ ans = none ∧
        db' = r.changes.foldl (DB.put tx) (db.close tx r) := by
  cases hopen : db.openTx tx with
  | none =>
    simp only [exec,hopen,Option.some.injEq,Prod.mk.injEq] at h
    exact .inl ⟨⟨_,h.1.symm⟩,.inl h.2.symm⟩
  | some r =>
    cases x with
    | some err =>
      simp only [exec,hopen,Option.some.injEq,Prod.mk.injEq] at h
      exact .inl ⟨⟨_,h.1.symm⟩,.inr ⟨r,rfl,h.2.symm⟩⟩
    | none =>
      simp only [exec,hopen,Option.some.injEq,Prod.mk.injEq] at h
      exact .inr ⟨r,rfl,h.1.symm,h.2.symm⟩

theorem exec_rollback {ans : Ans (.rollback tx)} (h : exec db (.rollback tx) x = some (ans,db')) :
    db' = db ∨ ∃ r, db.openTx tx = some r ∧ db' = db.close tx r := by
  cases hopen : db.openTx tx with
  | none =>
    simp only [exec,hopen,Option.some.injEq,Prod.mk.injEq] at h
    exact .inl h.2.symm
  | some r =>
    simp only [exec,hopen,Option.some.injEq,Prod.mk.injEq] at h
    exact .inr ⟨r,rfl,h.2.symm⟩

-- schema_migrations and the log of scripts agree, and no version is being inserted that is there
-- or is being inserted by another
structure Coherent (db : DB) : Prop where
  fresh : ∀ tx r v, db.openTx tx = some r → .insert v ∈ r.changes →
    db.table.isSome = true ∧ v ∉ db.versions
  single : ∀ tx tx' r r' v, db.openTx tx = some r → db.openTx tx' = some r' →
    .insert v ∈ r.changes → .insert v ∈ r'.changes → tx = tx'
  ended : ∀ e ∈ db.log, e.1 < db.txs.length ∧ db.openTx e.1 = none
  recorded : ∀ v, v ∈ db.versions ↔ inPlace db.log v = true
  alternating : NoDoubleUp db.log

theorem openTx_set {r' : TxRecord} {i : ℕ} {q : TxRecord}
    (h : ({ db with txs := db.txs.set tx r' } : DB).openTx i = some q) :
    (i = tx ∧ q = r' ∧ r'.active = true) ∨ (i ≠ tx ∧ db.openTx i = some q) := by
  rw [openTx_eq_some] at h
  rcases Machine.of_getElem?_set h.1 with ⟨hi,hq⟩ | ⟨hi,hq⟩
  · exact .inl ⟨hi,hq,hq ▸ h.2⟩
  · exact .inr ⟨hi,openTx_eq_some.mpr ⟨hq,h.2⟩⟩

theorem openTx_close {i : ℕ} {q : TxRecord} (h : (db.close tx r).openTx i = some q) :
    i ≠ tx ∧ db.openTx i = some q := by
  rcases openTx_set h with ⟨_,_,hactive⟩ | hother
  · cases hactive
  · exact hother

theorem openTx_close_none {i : ℕ} (h : i = tx ∨ db.openTx i = none) :
    (db.close tx r).openTx i = none := by
  cases hopen : (db.close tx r).openTx i with
  | none => rfl
  | some q =>
    obtain ⟨hi,hq⟩ := openTx_close hopen
    rcases h with rfl | hnone
    · exact absurd rfl hi
    · rw [hnone] at hq
      cases hq

theorem not_held {v : Int64} (h : db.held tx (.insert v) = false) {i : ℕ} {q : TxRecord}
    (hi : i ≠ tx) (hq : db.openTx i = some q) : .insert v ∉ q.changes := by
  intro hmem
  obtain ⟨hget,hactive⟩ := openTx_eq_some.mp hq
  rw [DB.held,List.any_eq_false] at h
  refine h i (List.mem_range.mpr (List.getElem?_eq_some_iff.mp hget).1) ?_
  simp [hi,hget,hactive,hmem]

namespace Coherent

theorem quiet (h : Coherent db) (hq : Quiet db db') : Coherent db' := by
  obtain ⟨hversions,hlog,htxs,htable⟩ := hq
  have hopen : ∀ i, db'.openTx i = db.openTx i := fun i => by rw [DB.openTx,DB.openTx,htxs]
  refine ⟨?_,?_,?_,?_,by rw [hlog]; exact h.alternating⟩
  · intro tx r v hr hv
    rw [hopen] at hr
    rw [hversions]
    exact ⟨htable (h.fresh tx r v hr hv).1,(h.fresh tx r v hr hv).2⟩
  · intro tx tx' r r' v hr hr'
    rw [hopen] at hr hr'
    exact h.single tx tx' r r' v hr hr'
  · intro e he
    rw [hlog] at he
    rw [htxs,hopen]
    exact h.ended e he
  · intro v
    rw [hversions,hlog]
    exact h.recorded v

theorem openTx_begun {i : ℕ} {q : TxRecord}
    (hq : ({ db with txs := db.txs ++ [⟨true,[]⟩] } : DB).openTx i = some q) :
    db.openTx i = some q ∨ q.changes = [] := by
  obtain ⟨hget,hactive⟩ := openTx_eq_some.mp hq
  by_cases hi : i < db.txs.length
  · rw [List.getElem?_append_left hi] at hget
    exact .inl (openTx_eq_some.mpr ⟨hget,hactive⟩)
  · rw [List.getElem?_append_right (by omega)] at hget
    have hmem := List.mem_of_getElem? hget
    rw [List.mem_singleton] at hmem
    exact .inr (by rw [hmem])

theorem begun (h : Coherent db) : Coherent { db with txs := db.txs ++ [⟨true,[]⟩] } := by
  refine ⟨?_,?_,?_,h.recorded,h.alternating⟩
  · intro tx r v hr hv
    rcases openTx_begun hr with hr | hnil
    · exact h.fresh tx r v hr hv
    · simp [hnil] at hv
  · intro tx tx' r r' v hr hr' hv hv'
    rcases openTx_begun hr with hr | hnil
    · rcases openTx_begun hr' with hr' | hnil'
      · exact h.single tx tx' r r' v hr hr' hv hv'
      · simp [hnil'] at hv'
    · simp [hnil] at hv
  · intro e he
    obtain ⟨hlt,hnone⟩ := h.ended e he
    refine ⟨by simp; omega,?_⟩
    rw [DB.openTx,List.getElem?_append_left hlt]
    exact hnone

theorem wrote {change : Change} (h : Coherent db) (hr : db.openTx tx = some r)
    (hfree : Free db tx change) : Coherent (db.write tx r change) := by
  have hold : ∀ i q v, (db.write tx r change).openTx i = some q → .insert v ∈ q.changes →
      (i = tx ∧ .insert v = change) ∨ ∃ q', db.openTx i = some q' ∧ .insert v ∈ q'.changes := by
    intro i q v hq hv
    rcases openTx_set hq with ⟨rfl,rfl,_⟩ | ⟨_,hq⟩
    · rcases List.mem_append.mp hv with hv | hv
      · exact .inr ⟨r,hr,hv⟩
      · exact .inl ⟨rfl,List.mem_singleton.mp hv⟩
    · exact .inr ⟨q,hq,hv⟩
  have hnew : ∀ i q v, .insert v = change → db.openTx i = some q → .insert v ∈ q.changes → i = tx := by
    intro i q v hv hq hmem
    by_contra hi
    exact not_held (hfree v hv.symm).2.2 hi hq hmem
  refine ⟨?_,?_,?_,h.recorded,h.alternating⟩
  · intro i q v hq hv
    rcases hold i q v hq hv with ⟨_,hchange⟩ | ⟨q',hq',hv'⟩
    · exact ⟨(hfree v hchange.symm).1,(hfree v hchange.symm).2.1⟩
    · exact h.fresh i q' v hq' hv'
  · intro i j q q' v hq hq' hv hv'
    rcases hold i q v hq hv with ⟨rfl,hchange⟩ | ⟨p,hp,hvp⟩
    · rcases hold j q' v hq' hv' with ⟨rfl,_⟩ | ⟨p',hp',hvp'⟩
      · rfl
      · exact (hnew j p' v hchange hp' hvp').symm
    · rcases hold j q' v hq' hv' with ⟨rfl,hchange⟩ | ⟨p',hp',hvp'⟩
      · exact hnew i p v hchange hp hvp
      · exact h.single i j p p' v hp hp' hvp hvp'
  · intro e he
    obtain ⟨hlt,hnone⟩ := h.ended e he
    refine ⟨by simpa [DB.write] using hlt,?_⟩
    cases hopen : (db.write tx r change).openTx e.1 with
    | none => rfl
    | some q =>
      rcases openTx_set hopen with ⟨htx,_,_⟩ | ⟨_,hq⟩
      · rw [htx,hr] at hnone
        cases hnone
      · rw [hnone] at hq
        cases hq

theorem closed (h : Coherent db) : Coherent (db.close tx r) := by
  refine ⟨?_,?_,?_,h.recorded,h.alternating⟩
  · intro i q v hq hv
    exact h.fresh i q v (openTx_close hq).2 hv
  · intro i j q q' v hq hq'
    exact h.single i j q q' v (openTx_close hq).2 (openTx_close hq').2
  · intro e he
    obtain ⟨hlt,hnone⟩ := h.ended e he
    exact ⟨by simpa [DB.close] using hlt,openTx_close_none (.inr hnone)⟩

-- the script of a closed transaction takes effect together with its row
theorem settled (h : Coherent db) (table : Option (List Int64)) {d : Direction} {v : Int64}
    (htx : tx < db.txs.length ∧ db.openTx tx = none)
    (hsome : db.table.isSome = true → table.isSome = true)
    (hrows : ∀ w, w ∈ table.getD [] ↔ if v = w then d = .up else w ∈ db.versions)
    (hup : d = .up → v ∉ db.versions ∧ ∀ i q, db.openTx i = some q → .insert v ∉ q.changes) :
    Coherent { db with table := table, log := db.log ++ [(tx,Change.ran d v)] } := by
  refine ⟨?_,h.single,?_,?_,?_⟩
  · intro i q w hq hw
    obtain ⟨hthere,hnot⟩ := h.fresh i q w hq hw
    refine ⟨hsome hthere,fun hmem => ?_⟩
    have hrow := (hrows w).mp hmem
    split_ifs at hrow with hvw
    · exact (hup hrow).2 i q hq (hvw ▸ hw)
    · exact hnot hrow
  · intro e he
    rcases List.mem_append.mp he with he | he
    · exact h.ended e he
    · rw [List.mem_singleton.mp he]
      exact htx
  · intro w
    have hold := h.recorded w
    rw [inPlace_append]
    refine (hrows w).trans ?_
    by_cases hvw : v = w
    · simp [hvw]
    · simpa [hvw] using hold
  · refine h.alternating.append fun w hw => ?_
    cases hw
    have hnot := (hup rfl).1
    rw [h.recorded,Bool.not_eq_true] at hnot
    exact hnot

end Coherent

end Coherence

section Traces

def record : Direction → Migration → Stmt
  | .up,m => .insert m.version
  | .down,m => .delete m.version

def Change.version : Change → Int64
  | .ran _ version => version
  | .insert version => version
  | .delete version => version

def scripts (changes : List Change) : List Change :=
  changes.filter fun c => match c with
    | .ran _ _ => true
    | _ => false

-- the transaction a call is in and what it has done there
def current : List (Event Ans) → Option (ℕ × List Change)
  | ⟨.begin,.ok tx⟩ :: _ => some (tx,[])
  | ⟨.exec _ stmt,.ok n⟩ :: tr => (current tr).map fun p => (p.1,p.2 ++ written stmt n)
  | ⟨.exec _ _,.error _⟩ :: tr => current tr
  | _ => none

def committed : List (Event Ans) → List ℕ
  | [] => []
  | ⟨.commit tx,none⟩ :: tr => tx :: committed tr
  | _ :: tr => committed tr

def entries : List (Event Ans) → List (ℕ × Change)
  | [] => []
  | ⟨.commit tx,none⟩ :: tr =>
      entries tr ++ (scripts ((current tr).elim [] Prod.snd)).map ((tx,·))
  | _ :: tr => entries tr

def InOrder (d : Direction) (es : List (ℕ × Change)) : Prop :=
  (∀ e ∈ es, ∃ v, e.2 = .ran d v) ∧
    (d = .up → es.Pairwise fun e f => e.2.version < f.2.version)

def discipline (d : Direction) : Spec Ans where
  pre tr op := InOrder d (entries tr) ∧ match op with
    | .createTable => True
    | .select _ => True
    | .begin => True
    | .exec tx stmt => ∃ m, (stmt = .script d m ∧ current tr = some (tx,[])) ∨
        (stmt = record d m ∧ current tr = some (tx,[.ran d m.version]))
    | .commit tx => ∃ m n tr', tr = ⟨.exec tx (record d m),.ok n⟩ :: tr' ∧
        current tr' = some (tx,[.ran d m.version])
    | .rollback tx => ∃ changes, current tr = some (tx,changes)
  ans _ _ := True

def Concludes (d : Direction) (tr : List (Event Ans)) :
    Except Empty (ℕ × Option GoError) → Prop
  | .ok (n,_) => InOrder d (entries tr) ∧ n = (entries tr).length
  | .error _ => False

-- a migration either takes effect or leaves the call as it was
def Migrated (d : Direction) (m : Migration) (tr tr' : List (Event Ans)) :
    Except Empty (Option GoError) → Prop
  | .ok none => ∃ tx, entries tr' = entries tr ++ [(tx,.ran d m.version)]
  | .ok (some _) => entries tr' = entries tr
  | .error _ => False

variable {d : Direction} {m : Migration} {tr : List (Event Ans)} {tx : ℕ}

theorem scripts_written (d : Direction) (m : Migration) (n : ℕ) :
    scripts ([Change.ran d m.version] ++ written (record d m) n) = [.ran d m.version] := by
  cases d with
  | up => rfl
  | down =>
    simp only [record,written]
    split_ifs <;> rfl

theorem meets_abandon {tr₀ : List (Event Ans)} {changes : List Change}
    (hcur : current tr = some (tx,changes)) (horder : InOrder d (entries tr))
    (hsame : entries tr = entries tr₀) (err : GoError) (note : String) :
    Prog.Meets (discipline d) (Migrated d m tr₀) tr (abandon tx err note) := by
  rw [abandon,Prog.meets_bind,Prog.meets_perform]
  refine ⟨⟨horder,changes,hcur⟩,fun ans _ => ?_⟩
  cases ans with
  | none => exact hsame
  | some rollbackErr => exact hsame

theorem meets_migrate {tr₀ : List (Event Ans)} (hcur : current tr = some (tx,[]))
    (horder : InOrder d (entries tr)) (hsame : entries tr = entries tr₀) (texts : Texts) :
    Prog.Meets (discipline d) (Migrated d m tr₀) tr
      (migrate tx texts (.script d m) (record d m)) := by
  rw [migrate,Prog.meets_bind,Prog.meets_perform]
  refine ⟨⟨horder,m,.inl ⟨rfl,hcur⟩⟩,fun ans _ => ?_⟩
  cases ans with
  | error err =>
    dsimp only
    apply meets_abandon
    · exact hcur
    · exact horder
    · exact hsame
  | ok n =>
    have hran : current (⟨.exec tx (.script d m),.ok n⟩ :: tr) = some (tx,[.ran d m.version]) := by
      simp [current,hcur,written]
    dsimp only
    rw [Prog.meets_bind,Prog.meets_perform]
    refine ⟨⟨horder,m,.inr ⟨rfl,hran⟩⟩,fun ans _ => ?_⟩
    cases ans with
    | error err =>
      dsimp only
      apply meets_abandon
      · exact hran
      · exact horder
      · exact hsame
    | ok k =>
      dsimp only
      rw [Prog.meets_bind,Prog.meets_perform]
      refine ⟨⟨horder,m,k,_,rfl,hran⟩,fun ans _ => ?_⟩
      cases ans with
      | some err => exact hsame
      | none =>
        have hboth : current (⟨.exec tx (record d m),.ok k⟩ :: ⟨.exec tx (.script d m),.ok n⟩ :: tr) =
            some (tx,[Change.ran d m.version] ++ written (record d m) k) := by
          rw [current,hran]
          rfl
        refine ⟨tx,?_⟩
        rw [entries,hboth,Option.elim_some,scripts_written,← hsame]
        rfl

theorem meets_applyUp (horder : InOrder .up (entries tr)) (m : Migration) :
    Prog.Meets (discipline .up) (Migrated .up m tr) tr (applyUp m) := by
  rw [applyUp,Prog.meets_bind,Prog.meets_perform]
  refine ⟨⟨horder,trivial⟩,fun ans _ => ?_⟩
  cases ans with
  | error err => exact rfl
  | ok tx =>
    dsimp only
    apply meets_migrate
    · exact rfl
    · exact horder
    · exact rfl

theorem meets_applyDown (horder : InOrder .down (entries tr)) (m : Migration) :
    Prog.Meets (discipline .down) (Migrated .down m tr) tr (applyDown m) := by
  rw [applyDown,Prog.meets_bind,Prog.meets_perform]
  refine ⟨⟨horder,trivial⟩,fun ans _ => ?_⟩
  cases ans with
  | error err => exact rfl
  | ok tx =>
    dsimp only
    rw [Prog.meets_ite]
    refine ⟨fun _ => ?_,fun _ => ?_⟩
    · apply meets_abandon
      · exact rfl
      · exact horder
      · exact rfl
    · apply meets_migrate
      · exact rfl
      · exact horder
      · exact rfl

theorem ran_append {es : List (ℕ × Change)} (h : ∀ e ∈ es, ∃ v, e.2 = .ran d v) (v : Int64) :
    ∀ e ∈ es ++ [(tx,Change.ran d v)], ∃ w, e.2 = Change.ran d w := by
  intro e he
  rcases List.mem_append.mp he with he | he
  · exact h e he
  · exact ⟨v,by rw [List.mem_singleton.mp he]⟩

theorem InOrder.append_up {es : List (ℕ × Change)} {v : Int64} (h : InOrder .up es)
    (hless : ∀ e ∈ es, e.2.version < v) : InOrder .up (es ++ [(tx,Change.ran .up v)]) := by
  refine ⟨ran_append h.1 v,fun _ => ?_⟩
  rw [List.pairwise_append]
  refine ⟨h.2 rfl,List.pairwise_singleton _ _,fun e he f hf => ?_⟩
  rw [List.mem_singleton.mp hf]
  exact hless e he

theorem InOrder.append_down {es : List (ℕ × Change)} {v : Int64} (h : InOrder .down es) :
    InOrder .down (es ++ [(tx,Change.ran .down v)]) :=
  ⟨ran_append h.1 v,fun hdir => by cases hdir⟩

theorem concludes_of_same {tr' : List (Event Ans)} {n : ℕ} {err : Option GoError}
    (hsame : entries tr' = entries tr) (horder : InOrder d (entries tr))
    (hn : n = (entries tr).length) : Concludes d tr' (.ok (n,err)) := by
  refine ⟨?_,?_⟩
  · rw [hsame]
    exact horder
  · rw [hsame]
    exact hn

theorem meets_upLoop (applied : List Int64) {migrations : List Migration} {n : ℕ}
    (hsorted : migrations.Pairwise fun a b => a.version < b.version)
    (horder : InOrder .up (entries tr)) (hn : n = (entries tr).length)
    (hless : ∀ m ∈ migrations, ∀ e ∈ entries tr, e.2.version < m.version) :
    Prog.Meets (discipline .up) (Concludes .up) tr (upLoop applied migrations n) := by
  induction migrations generalizing tr n with
  | nil => exact ⟨horder,hn⟩
  | cons m migrations ih =>
    obtain ⟨hm,hsorted⟩ := List.pairwise_cons.mp hsorted
    obtain ⟨hlessm,hless⟩ := List.forall_mem_cons.mp hless
    rw [upLoop,Prog.meets_ite]
    refine ⟨fun _ => ih hsorted horder hn hless,fun _ => ?_⟩
    rw [Prog.meets_bind]
    refine Prog.meets_mono ?_ (meets_applyUp horder m)
    rintro tr' (e | _ | err) h
    · exact h.elim
    · obtain ⟨tx,htx⟩ := h
      refine ih hsorted ?_ ?_ ?_
      · rw [htx]
        exact horder.append_up hlessm
      · rw [htx,hn]
        simp
      · intro m' hm' e he
        rw [htx] at he
        rcases List.mem_append.mp he with he | he
        · exact hless m' hm' e he
        · rw [List.mem_singleton.mp he]
          exact hm m' hm'
    · exact concludes_of_same h horder hn

theorem meets_downLoop (mgr : SQLManager) {versions : List Int64} {n : ℕ}
    (horder : InOrder .down (entries tr)) (hn : n = (entries tr).length) :
    Prog.Meets (discipline .down) (Concludes .down) tr (downLoop mgr versions n) := by
  induction versions generalizing tr n with
  | nil => exact ⟨horder,hn⟩
  | cons version versions ih =>
    rw [downLoop]
    cases mgr.migrationByVersion version with
    | none => exact ⟨horder,hn⟩
    | some m =>
      dsimp only
      rw [Prog.meets_bind]
      refine Prog.meets_mono ?_ (meets_applyDown horder m)
      rintro tr' (e | _ | err) h
      · exact h.elim
      · obtain ⟨tx,htx⟩ := h
        refine ih ?_ ?_
        · rw [htx]
          exact horder.append_down
        · rw [htx,hn]
          simp
      · exact concludes_of_same h horder hn

theorem InOrder.nil (d : Direction) : InOrder d [] := ⟨by simp,fun _ => .nil⟩

theorem meets_ensured {desc : Bool} {next : List Int64 → M (ℕ × Option GoError)}
    (hnext : ∀ applied tr, entries tr = [] →
      Prog.Meets (discipline d) (Concludes d) tr (next applied)) :
    Prog.Meets (discipline d) (Concludes d) [] (ensured desc next) := by
  rw [ensured,Prog.meets_bind,Prog.meets_perform]
  refine ⟨⟨InOrder.nil d,trivial⟩,fun ans _ => ?_⟩
  cases ans with
  | some err => exact ⟨InOrder.nil d,rfl⟩
  | none =>
    dsimp only
    rw [Prog.meets_bind,Prog.meets_perform]
    refine ⟨⟨InOrder.nil d,trivial⟩,fun ans _ => ?_⟩
    cases ans with
    | error err => exact ⟨InOrder.nil d,rfl⟩
    | ok applied => exact hnext applied _ rfl

def Call.direction : Call → Direction
  | .up => .up
  | .down _ => .down

theorem meets_program (mgr : SQLManager) (call : Call) :
    Prog.Meets (discipline call.direction) (Concludes call.direction) []
      ((manager mgr).program call) := by
  cases call with
  | up =>
    refine meets_ensured fun applied tr hnil => meets_upLoop applied mgr.sorted ?_ ?_ ?_
    · rw [hnil]
      exact InOrder.nil .up
    · rw [hnil]
      rfl
    · simp [hnil]
  | down steps =>
    refine meets_ensured fun applied tr hnil => ?_
    have horder : InOrder .down (entries tr) := by
      rw [hnil]
      exact InOrder.nil .down
    have hzero : 0 = (entries tr).length := by rw [hnil]; rfl
    rw [Prog.meets_ite]
    exact ⟨fun _ => ⟨horder,hzero⟩,fun _ => meets_downLoop mgr horder hzero⟩

end Traces

section Runs

abbrev Calls := Config Ans Empty DB Call (ℕ × Option GoError)

abbrev Calling := Thread Ans Empty Call (ℕ × Option GoError)

def inProgress (t : Calling) : Bool :=
  t.alive && match t.rest with
    | .call _ _ => true
    | _ => false

-- while a Down is in progress no other call is
def downAlone (c : Calls) : Bool :=
  !(c.threads.any fun t => t.call.direction = .down && inProgress t) ||
    c.threads.countP inProgress ≤ 1

theorem eq_of_downAlone {c : Calls} {i j : ℕ} {t u : Calling} (h : downAlone c = true)
    (ht : c.threads[i]? = some t) (hu : c.threads[j]? = some u) (hti : inProgress t = true)
    (hui : inProgress u = true) (hdown : u.call.direction = .down) : i = j := by
  rw [downAlone,Bool.or_eq_true] at h
  rcases h with h | h
  · rw [Bool.not_eq_true',List.any_eq_false] at h
    exact absurd (by simp [hdown,hui]) (h u (List.mem_of_getElem? hu))
  · exact Machine.eq_of_countP_le_one (by simpa using h) ht hu hti hui

structure Tracked (c : Calls) : Prop where
  coherent : Coherent c.shared
  owns : ∀ (i : ℕ) (t : Calling) tx changes, c.threads[i]? = some t → current t.trace = some (tx,changes) →
    ∃ r, c.shared.txs[tx]? = some r ∧ r.changes = changes
  apart : ∀ (i j : ℕ) (t u : Calling) tx changes changes', c.threads[i]? = some t → c.threads[j]? = some u →
    current t.trace = some (tx,changes) → current u.trace = some (tx,changes') → i = j
  ended : ∀ (i : ℕ) (t : Calling), c.threads[i]? = some t → ∀ tx ∈ committed t.trace,
    tx < c.shared.txs.length ∧ c.shared.openTx tx = none
  logged : ∀ (i : ℕ) (t : Calling), c.threads[i]? = some t →
    c.shared.log.filter (fun e => e.1 ∈ committed t.trace) = entries t.trace
  gone : ∀ (i : ℕ) (t : Calling), c.threads[i]? = some t → t.call.direction = .down → inProgress t = true →
    ∀ tx v tr, t.trace = ⟨.exec tx (.delete v),.ok 0⟩ :: tr → v ∉ c.shared.versions

-- what a step leaves of the transactions: none disappears or is opened again, and only those of
-- the call that makes it change
structure Keeps (mine : Option (ℕ × List Change)) (db db' : DB) : Prop where
  length : db.txs.length ≤ db'.txs.length
  closed : ∀ tx, tx < db.txs.length → db.openTx tx = none → db'.openTx tx = none
  others : ∀ tx r, db.txs[tx]? = some r → (∀ changes, mine ≠ some (tx,changes)) →
    ∃ r', db'.txs[tx]? = some r' ∧ r'.changes = r.changes

variable {c : Calls} {i : ℕ} {t : Calling} {db' : DB}

theorem Tracked.moved (h : Tracked c) (ht : c.threads[i]? = some t) {rest : M (ℕ × Option GoError)}
    {tr : List (Event Ans)} (halone : downAlone c = true) (hti : inProgress t = true)
    (hcoherent : Coherent db') (hkeeps : Keeps (current t.trace) c.shared db')
    (hown : ∀ tx changes, current tr = some (tx,changes) →
      (∃ r, db'.txs[tx]? = some r ∧ r.changes = changes) ∧
      ∀ (j : ℕ) (u : Calling) changes', j ≠ i → c.threads[j]? = some u → current u.trace ≠ some (tx,changes'))
    (hended : ∀ tx ∈ committed tr, tx < db'.txs.length ∧ db'.openTx tx = none)
    (hlog : db'.log.filter (fun e => e.1 ∈ committed tr) = entries tr)
    (hlogs : ∀ (j : ℕ) (u : Calling), j ≠ i → c.threads[j]? = some u →
      db'.log.filter (fun e => e.1 ∈ committed u.trace) =
        c.shared.log.filter (fun e => e.1 ∈ committed u.trace))
    (hgone : t.call.direction = .down → ∀ tx v tr', tr = ⟨.exec tx (.delete v),.ok 0⟩ :: tr' →
      v ∉ db'.versions) :
    Tracked ⟨db',c.threads.set i { t with rest := rest, trace := tr }⟩ := by
  refine ⟨hcoherent,?_,?_,?_,?_,?_⟩
  · intro j u tx changes hu hcur
    rcases Machine.of_getElem?_set hu with ⟨rfl,rfl⟩ | ⟨hj,hu⟩
    · exact (hown tx changes hcur).1
    · obtain ⟨r,hr,hchanges⟩ := h.owns j u tx changes hu hcur
      obtain ⟨r',hr',hsame⟩ := hkeeps.others tx r hr
        fun changes' hmine => hj (h.apart j i u t tx _ _ hu ht hcur hmine)
      exact ⟨r',hr',hsame.trans hchanges⟩
  · intro j k u w tx changes changes' hu hw hcur hcur'
    rcases Machine.of_getElem?_set hu with ⟨rfl,rfl⟩ | ⟨hj,hu'⟩
    · rcases Machine.of_getElem?_set hw with ⟨rfl,_⟩ | ⟨hk,hw'⟩
      · rfl
      · exact absurd hcur' ((hown tx changes hcur).2 k w changes' hk hw')
    · rcases Machine.of_getElem?_set hw with ⟨rfl,rfl⟩ | ⟨_,hw'⟩
      · exact absurd hcur ((hown tx changes' hcur').2 j u changes hj hu')
      · exact h.apart j k u w tx changes changes' hu' hw' hcur hcur'
  · intro j u hu tx htx
    rcases Machine.of_getElem?_set hu with ⟨rfl,rfl⟩ | ⟨_,hu⟩
    · exact hended tx htx
    · obtain ⟨hlt,hnone⟩ := h.ended j u hu tx htx
      exact ⟨Nat.lt_of_lt_of_le hlt hkeeps.length,hkeeps.closed tx hlt hnone⟩
  · intro j u hu
    rcases Machine.of_getElem?_set hu with ⟨rfl,rfl⟩ | ⟨hj,hu⟩
    · exact hlog
    · exact (hlogs j u hj hu).trans (h.logged j u hu)
  · intro j u hu hdown hui
    rcases Machine.of_getElem?_set hu with ⟨rfl,rfl⟩ | ⟨hj,hu⟩
    · exact hgone hdown
    · exact absurd (eq_of_downAlone halone ht hu hti hui hdown).symm hj

theorem Tracked.unlogged (h : Tracked c) (ht : c.threads[i]? = some t)
    {rest : M (ℕ × Option GoError)} {tr : List (Event Ans)} (halone : downAlone c = true)
    (hti : inProgress t = true) (hcoherent : Coherent db')
    (hkeeps : Keeps (current t.trace) c.shared db')
    (hown : ∀ tx changes, current tr = some (tx,changes) →
      (∃ r, db'.txs[tx]? = some r ∧ r.changes = changes) ∧
      ∀ (j : ℕ) (u : Calling) changes', j ≠ i → c.threads[j]? = some u →
        current u.trace ≠ some (tx,changes'))
    (hcommitted : committed tr = committed t.trace) (hentries : entries tr = entries t.trace)
    (hlog : db'.log = c.shared.log)
    (hgone : t.call.direction = .down → ∀ tx v tr', tr = ⟨.exec tx (.delete v),.ok 0⟩ :: tr' →
      v ∉ db'.versions) :
    Tracked ⟨db',c.threads.set i { t with rest := rest, trace := tr }⟩ := by
  refine h.moved ht halone hti hcoherent hkeeps hown ?_ ?_ ?_ hgone
  · intro tx htx
    rw [hcommitted] at htx
    obtain ⟨hlt,hnone⟩ := h.ended i t ht tx htx
    exact ⟨Nat.lt_of_lt_of_le hlt hkeeps.length,hkeeps.closed tx hlt hnone⟩
  · rw [hlog,hcommitted,hentries]
    exact h.logged i t ht
  · intro j u _ _
    rw [hlog]

section Keeping

variable {mine : Option (ℕ × List Change)} {db : DB} {tx : ℕ} {r : TxRecord}

theorem openTx_congr (h : db'.txs = db.txs) (tx : ℕ) : db'.openTx tx = db.openTx tx := by
  rw [DB.openTx,DB.openTx,h]

theorem Keeps.of_txs {db₁ : DB} (h : Keeps mine db db₁) (htxs : db'.txs = db₁.txs) :
    Keeps mine db db' := by
  refine ⟨by rw [htxs]; exact h.length,?_,by rw [htxs]; exact h.others⟩
  intro tx hlt hnone
  rw [openTx_congr htxs]
  exact h.closed tx hlt hnone

theorem Keeps.refl (mine : Option (ℕ × List Change)) (db : DB) : Keeps mine db db :=
  ⟨Nat.le_refl _,fun _ _ h => h,fun _ r hr _ => ⟨r,hr,rfl⟩⟩

theorem Keeps.begun (mine : Option (ℕ × List Change)) (db : DB) :
    Keeps mine db { db with txs := db.txs ++ [⟨true,[]⟩] } := by
  refine ⟨by simp,?_,?_⟩
  · intro tx hlt hnone
    rw [DB.openTx,List.getElem?_append_left hlt]
    exact hnone
  · intro tx r hr _
    exact ⟨r,by rw [List.getElem?_append_left (List.getElem?_eq_some_iff.mp hr).1,hr],rfl⟩

theorem Keeps.closed_one (hr : db.openTx tx = some r) : Keeps mine db (db.close tx r) := by
  refine ⟨by simp [DB.close],fun tx _ hnone => openTx_close_none (.inr hnone),?_⟩
  intro i q hq _
  by_cases hi : i = tx
  · subst hi
    rw [(openTx_eq_some.mp hr).1,Option.some.injEq] at hq
    subst hq
    exact ⟨_,List.getElem?_set_self (List.getElem?_eq_some_iff.mp (openTx_eq_some.mp hr).1).1,rfl⟩
  · exact ⟨q,by rw [DB.close,List.getElem?_set_ne (Ne.symm hi),hq],rfl⟩

theorem Keeps.wrote {changes : List Change} (hr : db.openTx tx = some r)
    (hmine : mine = some (tx,changes)) (change : Change) : Keeps mine db (db.write tx r change) := by
  refine ⟨by simp [DB.write],?_,?_⟩
  · intro i _ hnone
    cases hopen : (db.write tx r change).openTx i with
    | none => rfl
    | some q =>
      rcases openTx_set hopen with ⟨rfl,_,_⟩ | ⟨_,hq⟩
      · rw [hr] at hnone
        cases hnone
      · rw [hnone] at hq
        cases hq
  · intro i q hq hother
    by_cases hi : i = tx
    · subst hi
      exact absurd hmine (hother changes)
    · exact ⟨q,by rw [DB.write,List.getElem?_set_ne (Ne.symm hi),hq],rfl⟩

theorem foldl_put (tx : ℕ) (changes : List Change) (db : DB) :
    (changes.foldl (DB.put tx) db).log = db.log ++ (scripts changes).map ((tx,·)) ∧
      (changes.foldl (DB.put tx) db).txs = db.txs := by
  induction changes generalizing db with
  | nil => simp [scripts]
  | cons change changes ih =>
    obtain ⟨hlog,htxs⟩ := ih (DB.put tx db change)
    rw [List.foldl_cons,hlog,htxs]
    cases change <;> simp [DB.put,scripts]

theorem Coherent.committed {d : Direction} {m : Migration} {n : ℕ} (h : Coherent db)
    (hr : db.openTx tx = some r)
    (hchanges : r.changes = [Change.ran d m.version] ++ written (record d m) n)
    (hgone : d = .down → n = 0 → m.version ∉ db.versions) :
    Coherent (r.changes.foldl (DB.put tx) (db.close tx r)) := by
  have hlt : tx < db.txs.length := (List.getElem?_eq_some_iff.mp (openTx_eq_some.mp hr).1).1
  have htx : tx < (db.close tx r).txs.length ∧ (db.close tx r).openTx tx = none :=
    ⟨by simpa [DB.close] using hlt,openTx_close_none (.inl rfl)⟩
  cases d with
  | up =>
    have hinsert : .insert m.version ∈ r.changes := by simp [hchanges,record,written]
    obtain ⟨htable,hfresh⟩ := h.fresh tx r m.version hr hinsert
    obtain ⟨versions,hversions⟩ := Option.isSome_iff_exists.mp htable
    rw [hchanges]
    refine h.closed.settled (db.table.map (· ++ [m.version])) htx (by simp [DB.close]) ?_ ?_
    · intro w
      by_cases hw : m.version = w
      · simp [hversions,hw]
      · simp [hversions,hw,Ne.symm hw,DB.close,DB.versions]
    · refine fun _ => ⟨hfresh,fun i q hq hmem => ?_⟩
      obtain ⟨hi,hq⟩ := openTx_close hq
      exact hi (h.single i tx q r m.version hq hr hmem hinsert)
  | down =>
    rw [hchanges]
    by_cases hn : n = 0
    · have hnone : written (record .down m) n = [] := by simp [record,written,hn]
      rw [hnone]
      refine h.closed.settled (d := .down) (v := m.version) db.table htx (by simp [DB.close]) ?_ (fun hdir => nomatch hdir)
      intro w
      by_cases hw : m.version = w
      · subst hw
        simpa [DB.versions] using hgone rfl hn
      · simp [hw,DB.close,DB.versions]
    · have hone : written (record .down m) n = [.delete m.version] := by simp [record,written,hn]
      rw [hone]
      refine h.closed.settled (d := .down) (v := m.version)
        (db.table.map (·.filter (· ≠ m.version))) htx (by simp [DB.close]) ?_ (fun hdir => nomatch hdir)
      intro w
      cases htable : db.table with
      | none => simp [DB.close,DB.versions,htable]
      | some versions =>
        by_cases hw : m.version = w
        · simp [hw]
        · simp [hw,Ne.symm hw,DB.close,DB.versions,htable]

end Keeping

theorem tracked_begin {x : Option (Stage × GoError)} {ans : Ans .begin}
    {k : Ans .begin → M (ℕ × Option GoError)} (h : Tracked c) (ht : c.threads[i]? = some t)
    (halone : downAlone c = true) (hti : inProgress t = true)
    (hx : exec c.shared .begin x = some (ans,db')) :
    Tracked ⟨db',c.threads.set i { t with rest := k ans, trace := ⟨.begin,ans⟩ :: t.trace }⟩ := by
  rcases exec_begin hx with ⟨⟨err,rfl⟩,rfl⟩ | ⟨rfl,rfl⟩
  · exact h.unlogged ht halone hti h.coherent (Keeps.refl _ _) (fun _ _ hcur => nomatch hcur) rfl rfl
      rfl (fun _ _ _ _ htr => nomatch htr)
  · refine h.unlogged ht halone hti h.coherent.begun (Keeps.begun _ _) ?_ rfl rfl rfl
      (fun _ _ _ _ htr => nomatch htr)
    intro tx changes hcur
    cases hcur
    refine ⟨⟨⟨true,[]⟩,by simp,rfl⟩,?_⟩
    intro j u changes' _ hu hcur'
    obtain ⟨r,hr,_⟩ := h.owns j u _ changes' hu hcur'
    exact absurd (List.getElem?_eq_some_iff.mp hr).1 (Nat.lt_irrefl _)

theorem tracked_stmt {tx : ℕ} {stmt : Stmt} {x : Option (Stage × GoError)} {ans : Ans (.exec tx stmt)}
    {k : Ans (.exec tx stmt) → M (ℕ × Option GoError)} {changes : List Change} (h : Tracked c)
    (ht : c.threads[i]? = some t) (halone : downAlone c = true) (hti : inProgress t = true)
    (hmine : current t.trace = some (tx,changes))
    (hx : exec c.shared (.exec tx stmt) x = some (ans,db')) :
    Tracked ⟨db',c.threads.set i
      { t with rest := k ans, trace := ⟨.exec tx stmt,ans⟩ :: t.trace }⟩ := by
  have hothers : ∀ (j : ℕ) (u : Calling) changes', j ≠ i → c.threads[j]? = some u →
      current u.trace ≠ some (tx,changes') :=
    fun j u changes' hj hu hcur => hj (h.apart j i u t tx _ _ hu ht hcur hmine)
  obtain ⟨r₀,hr₀,hchanges⟩ := h.owns i t tx changes ht hmine
  rcases exec_stmt hx with ⟨⟨err,rfl⟩,rfl⟩ | ⟨r,n,hr,rfl,hdone⟩
  · refine h.unlogged ht halone hti h.coherent (Keeps.refl _ _) ?_ rfl rfl rfl
      (fun _ _ _ _ htr => nomatch htr)
    intro tx' changes' hcur
    have hsame : (tx,changes) = (tx',changes') := Option.some.inj (hmine.symm.trans hcur)
    cases hsame
    exact ⟨⟨r₀,hr₀,hchanges⟩,hothers⟩
  · have hr₀' := (openTx_eq_some.mp hr).1
    rw [hr₀,Option.some.injEq] at hr₀'
    subst hr₀'
    have hcur : current (⟨.exec tx stmt,.ok n⟩ :: t.trace) =
        some (tx,changes ++ written stmt n) := by
      rw [current,hmine]
      rfl
    rcases hdone with ⟨change,hwritten,hfree,rfl⟩ | ⟨v,rfl,rfl,habsent,rfl⟩
    · refine h.unlogged ht halone hti (h.coherent.wrote hr hfree) (Keeps.wrote hr hmine change) ?_ rfl
        rfl rfl ?_
      · intro tx' changes' hcur'
        rw [hcur,Option.some.injEq,Prod.mk.injEq] at hcur'
        obtain ⟨rfl,rfl⟩ := hcur'
        refine ⟨⟨_,List.getElem?_set_self (List.getElem?_eq_some_iff.mp hr₀).1,?_⟩,hothers⟩
        rw [hwritten,hchanges]
      · intro _ tx' v tr' htr
        cases htr
        simp [written] at hwritten
    · refine h.unlogged ht halone hti h.coherent (Keeps.refl _ _) ?_ rfl rfl rfl ?_
      · intro tx' changes' hcur'
        rw [hcur,Option.some.injEq,Prod.mk.injEq] at hcur'
        obtain ⟨rfl,rfl⟩ := hcur'
        exact ⟨⟨r₀,hr₀,by simp [hchanges,written]⟩,hothers⟩
      · intro _ tx' v' tr' htr
        cases htr
        exact habsent

theorem tracked_ended {op : Op} {ans : Ans op} {rest : M (ℕ × Option GoError)} (h : Tracked c)
    (ht : c.threads[i]? = some t) (halone : downAlone c = true) (hti : inProgress t = true)
    (hnone : current (⟨op,ans⟩ :: t.trace) = none)
    (hcommitted : committed (⟨op,ans⟩ :: t.trace) = committed t.trace)
    (hentries : entries (⟨op,ans⟩ :: t.trace) = entries t.trace)
    (hdb : db' = c.shared ∨ ∃ tx r, c.shared.openTx tx = some r ∧ db' = c.shared.close tx r)
    (hnot : ∀ tx v tr', ⟨op,ans⟩ :: t.trace ≠ ⟨.exec tx (.delete v),.ok 0⟩ :: tr') :
    Tracked ⟨db',c.threads.set i { t with rest := rest, trace := ⟨op,ans⟩ :: t.trace }⟩ := by
  have hown : ∀ tx changes, current (⟨op,ans⟩ :: t.trace) = some (tx,changes) →
      (∃ r, db'.txs[tx]? = some r ∧ r.changes = changes) ∧
      ∀ (j : ℕ) (u : Calling) changes', j ≠ i → c.threads[j]? = some u →
        current u.trace ≠ some (tx,changes') := by
    intro tx changes hcur
    rw [hnone] at hcur
    cases hcur
  have hgone : t.call.direction = .down → ∀ tx v tr',
      ⟨op,ans⟩ :: t.trace = ⟨.exec tx (.delete v),.ok 0⟩ :: tr' → v ∉ db'.versions :=
    fun _ tx v tr' htr => absurd htr (hnot tx v tr')
  rcases hdb with rfl | ⟨tx,r,hr,rfl⟩
  · exact h.unlogged ht halone hti h.coherent (Keeps.refl _ _) hown hcommitted hentries rfl hgone
  · exact h.unlogged ht halone hti h.coherent.closed (Keeps.closed_one hr) hown hcommitted hentries rfl
      hgone

theorem filter_log_commit {log : List (ℕ × Change)} {tx : ℕ} {change : Change} {ids : List ℕ}
    (hfirst : ∀ e ∈ log, e.1 ≠ tx) :
    (log ++ [(tx,change)]).filter (fun e => e.1 ∈ tx :: ids) =
      log.filter (fun e => e.1 ∈ ids) ++ [(tx,change)] := by
  have hold : log.filter (fun e => e.1 ∈ tx :: ids) = log.filter (fun e => e.1 ∈ ids) :=
    List.filter_congr fun e he => by simp [hfirst e he]
  rw [List.filter_append,hold]
  simp

theorem tracked_commit {tx : ℕ} {m : Migration} {n : ℕ} {tr : List (Event Ans)}
    {x : Option (Stage × GoError)} {ans : Ans (.commit tx)}
    {k : Ans (.commit tx) → M (ℕ × Option GoError)} (h : Tracked c)
    (ht : c.threads[i]? = some t) (halone : downAlone c = true) (hti : inProgress t = true)
    (htrace : t.trace = ⟨.exec tx (record t.call.direction m),.ok n⟩ :: tr)
    (hran : current tr = some (tx,[.ran t.call.direction m.version]))
    (hx : exec c.shared (.commit tx) x = some (ans,db')) :
    Tracked ⟨db',c.threads.set i { t with rest := k ans, trace := ⟨.commit tx,ans⟩ :: t.trace }⟩ := by
  rcases exec_commit hx with ⟨⟨err,rfl⟩,hdb⟩ | ⟨r,hr,rfl,rfl⟩
  · refine tracked_ended h ht halone hti rfl rfl rfl ?_ (fun _ _ _ htr => nomatch htr)
    rcases hdb with hdb | ⟨r,hr,hdb⟩
    · exact .inl hdb
    · exact .inr ⟨tx,r,hr,hdb⟩
  · have hmine : current t.trace = some (tx,[Change.ran t.call.direction m.version] ++
        written (record t.call.direction m) n) := by
      rw [htrace,current,hran]
      rfl
    obtain ⟨hget,hactive⟩ := openTx_eq_some.mp hr
    obtain ⟨r₀,hr₀,hchanges⟩ := h.owns i t tx _ ht hmine
    rw [hget,Option.some.injEq] at hr₀
    subst hr₀
    have hgone : t.call.direction = .down → n = 0 → m.version ∉ c.shared.versions := by
      intro hdown hn
      rw [hdown,hn] at htrace
      exact h.gone i t ht hdown hti tx m.version tr htrace
    have hopen : ∀ (j : ℕ) (u : Calling), c.threads[j]? = some u → tx ∉ committed u.trace := by
      intro j u hu hmem
      rw [(h.ended j u hu tx hmem).2] at hr
      cases hr
    obtain ⟨hlog,htxs⟩ := foldl_put tx r.changes (c.shared.close tx r)
    have hnew : (r.changes.foldl (DB.put tx) (c.shared.close tx r)).log =
        c.shared.log ++ [(tx,Change.ran t.call.direction m.version)] := by
      rw [hlog,hchanges,scripts_written]
      rfl
    have hkeeps : Keeps (current t.trace) c.shared
        (r.changes.foldl (DB.put tx) (c.shared.close tx r)) := (Keeps.closed_one hr).of_txs htxs
    refine h.moved ht halone hti (h.coherent.committed hr hchanges hgone) hkeeps
      (fun _ _ hcur => nomatch hcur) ?_ ?_ ?_ (fun _ _ _ _ htr => nomatch htr)
    · intro tx' htx'
      rw [committed] at htx'
      rw [htxs,openTx_congr htxs]
      rcases List.mem_cons.mp htx' with rfl | htx'
      · exact ⟨by simpa [DB.close] using (List.getElem?_eq_some_iff.mp hget).1,
          openTx_close_none (.inl rfl)⟩
      · obtain ⟨hlt,hnone⟩ := h.ended i t ht tx' htx'
        exact ⟨by simpa [DB.close] using hlt,openTx_close_none (.inr hnone)⟩
    · have hfirst : ∀ e ∈ c.shared.log, e.1 ≠ tx := by
        rintro e he rfl
        rw [(h.coherent.ended e he).2] at hr
        cases hr
      rw [committed,entries,hnew,filter_log_commit hfirst,h.logged i t ht,hmine,Option.elim_some,
        scripts_written]
      rfl
    · intro j u _ hu
      rw [hnew,List.filter_append]
      simp [hopen j u hu]

theorem tracked_exec {op : Op} {k : Ans op → M (ℕ × Option GoError)} {ans : Ans op}
    {x : Option (Stage × GoError)} (h : Tracked c) (halone : downAlone c = true)
    (ht : c.threads[i]? = some t) (halive : t.alive = true) (hrest : t.rest = .call op k)
    (hpre : (discipline t.call.direction).pre t.trace op)
    (hx : exec c.shared op x = some (ans,db')) :
    Tracked ⟨db',c.threads.set i { t with rest := k ans, trace := ⟨op,ans⟩ :: t.trace }⟩ := by
  have hti : inProgress t = true := by
    rw [inProgress,halive,hrest]
    rfl
  cases op with
  | createTable =>
    have hquiet := exec_createTable hx
    refine h.unlogged ht halone hti (h.coherent.quiet hquiet)
      ((Keeps.refl _ _).of_txs hquiet.2.2.1) (fun _ _ hcur => nomatch hcur) rfl rfl hquiet.2.1
      (fun _ _ _ _ htr => nomatch htr)
  | select desc =>
    exact tracked_ended h ht halone hti rfl rfl rfl (.inl (exec_select hx))
      (fun _ _ _ htr => nomatch htr)
  | begin => exact tracked_begin h ht halone hti hx
  | exec tx stmt =>
    obtain ⟨_,m,⟨_,hmine⟩ | ⟨_,hmine⟩⟩ := hpre
    · exact tracked_stmt h ht halone hti hmine hx
    · exact tracked_stmt h ht halone hti hmine hx
  | commit tx =>
    obtain ⟨_,m,n,tr,htrace,hran⟩ := hpre
    exact tracked_commit h ht halone hti htrace hran hx
  | rollback tx =>
    refine tracked_ended h ht halone hti rfl rfl rfl ?_ (fun _ _ _ htr => nomatch htr)
    rcases exec_rollback hx with hdb | ⟨r,hr,hdb⟩
    · exact .inl hdb
    · exact .inr ⟨tx,r,hr,hdb⟩

theorem Tracked.weaken (h : Tracked c) {ts : List Calling} (hcoherent : Coherent db')
    (hkeeps : Keeps none c.shared db') (hlog : db'.log = c.shared.log)
    (hversions : db'.versions = c.shared.versions)
    (hts : ∀ (j : ℕ) (u : Calling), ts[j]? = some u → u.trace = [] ∨ ∃ t, c.threads[j]? = some t ∧
      u.call = t.call ∧ u.trace = t.trace ∧ (inProgress u = true → inProgress t = true)) :
    Tracked ⟨db',ts⟩ := by
  refine ⟨hcoherent,?_,?_,?_,?_,?_⟩
  · intro j u tx changes hu hcur
    rcases hts j u hu with hnil | ⟨t,ht,_,htrace,_⟩
    · rw [hnil] at hcur
      cases hcur
    · rw [htrace] at hcur
      obtain ⟨r,hr,hchanges⟩ := h.owns j t tx changes ht hcur
      obtain ⟨r',hr',hsame⟩ := hkeeps.others tx r hr fun _ hmine => nomatch hmine
      exact ⟨r',hr',hsame.trans hchanges⟩
  · intro j k u w tx changes changes' hu hw hcur hcur'
    rcases hts j u hu with hnil | ⟨t,ht,_,htrace,_⟩
    · rw [hnil] at hcur
      cases hcur
    · rcases hts k w hw with hnil | ⟨t',ht',_,htrace',_⟩
      · rw [hnil] at hcur'
        cases hcur'
      · rw [htrace] at hcur
        rw [htrace'] at hcur'
        exact h.apart j k t t' tx changes changes' ht ht' hcur hcur'
  · intro j u hu tx htx
    rcases hts j u hu with hnil | ⟨t,ht,_,htrace,_⟩
    · rw [hnil] at htx
      cases htx
    · rw [htrace] at htx
      obtain ⟨hlt,hnone⟩ := h.ended j t ht tx htx
      exact ⟨Nat.lt_of_lt_of_le hlt hkeeps.length,hkeeps.closed tx hlt hnone⟩
  · intro j u hu
    rcases hts j u hu with hnil | ⟨t,ht,_,htrace,_⟩
    · simp [hnil,committed,entries]
    · rw [htrace]
      exact (congrArg _ hlog).trans (h.logged j t ht)
  · intro j u hu hdown hui tx v tr htr
    rcases hts j u hu with hnil | ⟨t,ht,hcall,htrace,hprogress⟩
    · rw [hnil] at htr
      cases htr
    · rw [htrace] at htr
      have hgone := h.gone j t ht (hcall ▸ hdown) (hprogress hui) tx v tr htr
      rw [hversions]
      exact hgone

theorem tracked_abort (h : Tracked c) (tx : ℕ) : Tracked { c with shared := abort c.shared tx } := by
  have hts : ∀ (j : ℕ) (u : Calling), c.threads[j]? = some u → u.trace = [] ∨
      ∃ t, c.threads[j]? = some t ∧ u.call = t.call ∧ u.trace = t.trace ∧
        (inProgress u = true → inProgress t = true) :=
    fun j u hu => .inr ⟨u,hu,rfl,rfl,fun hui => hui⟩
  unfold abort
  cases hr : c.shared.openTx tx with
  | none => exact h
  | some r => exact h.weaken h.coherent.closed (Keeps.closed_one hr) rfl rfl hts

theorem tracked_run {mgr : SQLManager} {acts : List _} {c c' : Calls} (h : Tracked c)
    (hmeet : Machine.ThreadsMeet (fun call => discipline call.direction)
      (fun call => Concludes call.direction) c)
    (halone : (manager mgr).Along (fun c _ => downAlone c = true) acts c)
    (hrun : (manager mgr).run acts c = some c') : Tracked c' ∧
      Machine.ThreadsMeet (fun call => discipline call.direction)
        (fun call => Concludes call.direction) c' := by
  refine Machine.run_config_invariant (J := Tracked) (meets_program mgr) ?_ ?_ ?_ ?_ h hmeet halone
    hrun
  · intro c call h _
    refine h.weaken h.coherent (Keeps.refl _ _) rfl rfl fun j u hu => ?_
    rw [List.getElem?_append] at hu
    split_ifs at hu
    · exact .inr ⟨u,hu,rfl,rfl,fun hui => hui⟩
    · have hmem := List.mem_of_getElem? hu
      rw [List.mem_singleton] at hmem
      exact .inl (by rw [hmem])
  · intro c i x t op k ans s' h halone ht halive hrest hpre hx
    exact ⟨trivial,tracked_exec h halone ht halive hrest hpre hx⟩
  · intro c i t h _ ht
    refine h.weaken h.coherent (Keeps.refl _ _) rfl rfl fun j u hu => ?_
    rcases Machine.of_getElem?_set hu with ⟨rfl,rfl⟩ | ⟨_,hu⟩
    · exact .inr ⟨t,ht,rfl,rfl,fun hui => nomatch hui⟩
    · exact .inr ⟨u,hu,rfl,rfl,fun hui => hui⟩
  · intro c tx h _
    exact tracked_abort h tx

def emptyDB : DB := ⟨none,[],[]⟩

-- the scripts of a call's own transactions that have taken effect
def effects (c : Calls) (t : Calling) : List Change :=
  (c.shared.log.filter fun e => e.1 ∈ committed t.trace).map Prod.snd

theorem coherent_empty : Coherent emptyDB := by
  refine ⟨?_,?_,by simp [emptyDB],by simp [emptyDB,DB.versions,inPlace],?_⟩
  · intro tx r v hr
    simp [emptyDB,DB.openTx] at hr
  · intro tx tx' r r' v hr
    simp [emptyDB,DB.openTx] at hr
  · intro v pre mid post tx tx' hlog
    simp [emptyDB] at hlog

theorem tracked_start : Tracked ⟨emptyDB,[]⟩ :=
  ⟨coherent_empty,by simp,by simp,by simp,by simp,by simp⟩

theorem inOrder_of_meets {d : Direction} {rest : M (ℕ × Option GoError)} {tr : List (Event Ans)}
    (h : Prog.Meets (discipline d) (Concludes d) tr rest) : InOrder d (entries tr) := by
  cases rest with
  | ret a => exact h.1
  | fail e => exact e.elim
  | call op k => exact h.1.1

theorem migration_bookkeeping_matches_schema (mgr : SQLManager) (acts : List _) (c' : Calls)
    (halone : (manager mgr).Along (fun c _ => downAlone c = true) acts ⟨emptyDB,[]⟩)
    (hrun : (manager mgr).run acts ⟨emptyDB,[]⟩ = some c') :
    (∀ v, v ∈ c'.shared.versions ↔ inPlace c'.shared.log v = true) ∧
    NoDoubleUp c'.shared.log ∧
    (∀ t ∈ c'.threads, t.call = .up → (effects c' t).Pairwise fun a b => a.version < b.version) ∧
    (∀ t ∈ c'.threads, ∀ a ∈ effects c' t, ∃ v, a = .ran t.call.direction v) ∧
    (∀ t ∈ c'.threads, ∀ n err, t.rest = .ret (n,err) → n = (effects c' t).length) := by
  obtain ⟨htracked,hmeet⟩ := tracked_run tracked_start (by simp [Machine.ThreadsMeet]) halone hrun
  have heffects : ∀ t ∈ c'.threads, effects c' t = (entries t.trace).map Prod.snd := by
    intro t ht
    obtain ⟨i,hi⟩ := List.getElem?_of_mem ht
    rw [effects,htracked.logged i t hi]
  refine ⟨htracked.coherent.recorded,htracked.coherent.alternating,?_,?_,?_⟩
  · intro t ht hup
    rw [heffects t ht,List.pairwise_map]
    exact (inOrder_of_meets (hmeet t ht)).2 (by rw [hup]; rfl)
  · intro t ht a ha
    rw [heffects t ht] at ha
    obtain ⟨e,he,rfl⟩ := List.mem_map.mp ha
    exact (inOrder_of_meets (hmeet t ht)).1 e he
  · intro t ht n err hrest
    have hpost := hmeet t ht
    rw [hrest] at hpost
    rw [heffects t ht,List.length_map]
    exact hpost.2

def shop : SQLManager where
  migrations := [⟨1,"users","CREATE TABLE users","DROP TABLE users"⟩,
    ⟨2,"orders","CREATE TABLE orders","DROP TABLE orders"⟩]
  sorted := by decide

-- two Ups that race for version 1, then a Down
def rollout : List (Action Call (Option (Stage × GoError)) ℕ) :=
  ([.start .up,.start .up] : List (Action Call (Option (Stage × GoError)) ℕ)) ++
    ([0,1,0,1,0,0,0,1,1,0,1,1,0,0,0,0] : List ℕ).map (Action.exec · none) ++
    ([.start (.down 1)] : List (Action Call (Option (Stage × GoError)) ℕ)) ++
    ([2,2,2,2,2,2] : List ℕ).map (Action.exec · none)

theorem shop_rollout : ∃ c', (manager shop).run rollout ⟨emptyDB,[]⟩ = some c' ∧
    c'.shared.versions = [1] ∧
    (∀ v, v ∈ c'.shared.versions ↔ inPlace c'.shared.log v = true) := by
  obtain ⟨c',hc'⟩ := Option.isSome_iff_exists.mp (by decide +kernel :
    ((manager shop).run rollout ⟨emptyDB,[]⟩).isSome = true)
  have halone : (manager shop).Along (fun c _ => downAlone c = true) rollout ⟨emptyDB,[]⟩ := by
    decide +kernel
  have hversions : c'.shared.versions = [1] := by
    have h : ((manager shop).run rollout ⟨emptyDB,[]⟩).map (fun c' => c'.shared.versions) =
        some [1] := by decide +kernel
    rw [hc'] at h
    exact Option.some.inj h
  exact ⟨c',hc',hversions,(migration_bookkeeping_matches_schema shop rollout c' halone hc').1⟩

end Runs

end Nimburion.Persistence.Migrate
