import Mathlib.Data.List.Count
import Mathlib.Tactic.Common

namespace Nimburion.Transaction

-- one invocation of a callback, or one whole call: its error, the captured flag it leaves, whether
-- the guarded action ran in it, and the database it works on
structure Ended (δ ε : Type) where
  err : Option ε
  flag : Bool
  ran : Bool
  db : δ

-- what a serializable executor does with a callback: invocations on some snapshot that it rolls
-- back, then one that it tries to commit on the current database, or an error of its own
structure Execution (δ φ ε : Type) where
  aborted : List (δ × φ)
  ending : φ ⊕ ε

variable {δ φ ε κ K : Type}

def withTransaction (callback : φ → Bool → δ → Ended δ ε) (x : Execution δ φ ε) (flag : Bool)
    (db : δ) : Ended δ ε :=
  let flag := x.aborted.foldl (fun flag a => (callback a.2 flag a.1).flag) flag
  match x.ending with
  | .inl fault =>
      let r := callback fault flag db
      match r.err with
      | none => r
      | some _ => { r with db := db }
  | .inr e => ⟨some e,flag,false,db⟩

theorem withTransaction_committed {callback : φ → Bool → δ → Ended δ ε} {x : Execution δ φ ε}
    {flag : Bool} {db : δ} (h : (withTransaction callback x flag db).err = none) :
    ∃ fault flag', (callback fault flag' db).err = none ∧
      withTransaction callback x flag db = callback fault flag' db := by
  unfold withTransaction at h ⊢
  cases hend : x.ending with
  | inr e => simp [hend] at h
  | inl fault =>
    simp only [hend] at h ⊢
    generalize x.aborted.foldl (fun flag a => (callback a.2 flag a.1).flag) flag = flag' at h ⊢
    cases herr : (callback fault flag' db).err with
    | none => exact ⟨fault,flag',herr,rfl⟩
    | some e => simp [herr] at h

theorem withTransaction_rolledBack {callback : φ → Bool → δ → Ended δ ε} {x : Execution δ φ ε}
    {flag : Bool} {db : δ} (h : (withTransaction callback x flag db).err ≠ none) :
    (withTransaction callback x flag db).db = db := by
  unfold withTransaction at h ⊢
  cases hend : x.ending with
  | inr e => rfl
  | inl fault =>
    simp only [hend] at h ⊢
    generalize x.aborted.foldl (fun flag a => (callback a.2 flag a.1).flag) flag = flag' at h ⊢
    cases herr : (callback fault flag' db).err with
    | none => simp [herr] at h
    | some e => rfl

structure Entry (κ δ ε : Type) where
  call : κ
  before : δ
  ended : Ended δ ε

section Serial

variable (call : κ → Execution δ φ ε → δ → Ended δ ε)

def serial : List (κ × Execution δ φ ε) → δ → List (Entry κ δ ε)
  | [], _ => []
  | (k,x) :: calls, db => ⟨k,db,call k x db⟩ :: serial calls (call k x db).db

def final : List (κ × Execution δ φ ε) → δ → δ
  | [], db => db
  | (k,x) :: calls, db => final calls (call k x db).db

structure Guarded (key : κ → K) (done : K → δ → Bool) (effects : δ → List K) : Prop where
  failed : ∀ k x db, (call k x db).err ≠ none →
    (call k x db).flag = false ∧ (call k x db).db = db
  flagged : ∀ k x db, (call k x db).err = none → (call k x db).flag = (call k x db).ran
  skipped : ∀ k x db, (call k x db).err = none → (call k x db).flag = false →
    (call k x db).db = db
  executed : ∀ k x db, (call k x db).flag = true →
    done (key k) db = false ∧ effects (call k x db).db = key k :: effects db ∧
    done (key k) (call k x db).db = true ∧
    ∀ k', done k' db = true → done k' (call k x db).db = true

variable {call} {key : κ → K} {done : K → δ → Bool} {effects : δ → List K}

theorem Guarded.entry (h : Guarded call key done effects) {calls : List (κ × Execution δ φ ε)}
    {db : δ} : ∀ e ∈ serial call calls db,
      (e.ended.flag = true ↔ e.ended.err = none ∧ e.ended.ran = true) ∧
      (e.ended.err ≠ none → e.ended.db = e.before) := by
  induction calls generalizing db with
  | nil => simp [serial]
  | cons c calls ih =>
    intro e he
    rcases List.mem_cons.mp he with rfl | he
    · refine ⟨?_,fun herr => (h.failed c.1 c.2 db herr).2⟩
      cases herr : (call c.1 c.2 db).err with
      | none => simp [h.flagged c.1 c.2 db herr]
      | some err => simp [(h.failed c.1 c.2 db (by simp [herr])).1]
    · exact ih e he

theorem Guarded.unchanged (h : Guarded call key done effects) {c : κ} {x : Execution δ φ ε} {db : δ}
    (hflag : (call c x db).flag = false) : (call c x db).db = db := by
  cases herr : (call c x db).err with
  | none => exact h.skipped c x db herr hflag
  | some err => exact (h.failed c x db (by simp [herr])).2

variable [DecidableEq K]

def returnedTrue (key : κ → K) (k : K) (e : Entry κ δ ε) : Bool :=
  decide (key e.call = k) && e.ended.flag

theorem Guarded.none_after (h : Guarded call key done effects) {calls : List (κ × Execution δ φ ε)}
    {db : δ} {k : K} (hdone : done k db = true) :
    (serial call calls db).countP (returnedTrue key k) = 0 := by
  induction calls generalizing db with
  | nil => rfl
  | cons c calls ih =>
    rw [serial,List.countP_cons]
    cases hflag : (call c.1 c.2 db).flag with
    | false => simp [returnedTrue,hflag,h.unchanged hflag,ih hdone]
    | true =>
      obtain ⟨hfresh,_,_,hkept⟩ := h.executed c.1 c.2 db hflag
      have hne : key c.1 ≠ k := by
        rintro rfl
        simp [hdone] at hfresh
      simp [returnedTrue,hne,ih (hkept k hdone)]

theorem Guarded.once (h : Guarded call key done effects) (calls : List (κ × Execution δ φ ε))
    (db : δ) (k : K) : (serial call calls db).countP (returnedTrue key k) ≤ 1 := by
  induction calls generalizing db with
  | nil => exact Nat.zero_le _
  | cons c calls ih =>
    rw [serial,List.countP_cons]
    have hrest := ih (call c.1 c.2 db).db
    by_cases hret : returnedTrue key k ⟨c.1,db,call c.1 c.2 db⟩ = true
    · have hboth : key c.1 = k ∧ (call c.1 c.2 db).flag = true := by
        simpa [returnedTrue] using hret
      obtain ⟨hkey,hflag⟩ := hboth
      obtain ⟨_,_,hdone,_⟩ := h.executed c.1 c.2 db hflag
      rw [hkey] at hdone
      simp [h.none_after hdone,hret]
    · simp only [hret]
      simpa using hrest

theorem Guarded.effects_count (h : Guarded call key done effects)
    (calls : List (κ × Execution δ φ ε)) (db : δ) (k : K) :
    (effects (final call calls db)).countP (· = k) =
      (effects db).countP (· = k) + (serial call calls db).countP (returnedTrue key k) := by
  induction calls generalizing db with
  | nil => rfl
  | cons c calls ih =>
    rw [serial,final,List.countP_cons,ih]
    cases hflag : (call c.1 c.2 db).flag with
    | false => simp [returnedTrue,hflag,h.unchanged hflag]
    | true =>
      obtain ⟨_,heffects,_,_⟩ := h.executed c.1 c.2 db hflag
      rw [heffects,List.countP_cons]
      by_cases hkey : key c.1 = k
      · simp [returnedTrue,hkey,hflag]
        omega
      · simp [returnedTrue,hkey]

end Serial

-- a caller that drops the captured flag when the executor reports an error
def run (callback : φ → Bool → δ → Ended δ ε) (x : Execution δ φ ε) (db : δ) : Ended δ ε :=
  let r := withTransaction callback x false db
  match r.err with
  | some _ => { r with flag := false }
  | none => r

section Callback

variable {call : κ → Execution δ φ ε → δ → Ended δ ε} {callback : κ → φ → Bool → δ → Ended δ ε}
  {key : κ → K} {done : K → δ → Bool} {effects : δ → List K}

structure Marks (key : κ → K) (done : K → δ → Bool) (effects : δ → List K) (k : κ) (db db' : δ) :
    Prop where
  fresh : done (key k) db = false
  effect : effects db' = key k :: effects db
  marked : done (key k) db' = true
  kept : ∀ k', done k' db = true → done k' db' = true

def CommitsOnce (callback : κ → φ → Bool → δ → Ended δ ε) (key : κ → K) (done : K → δ → Bool)
    (effects : δ → List K) : Prop :=
  ∀ k fault flag db, (callback k fault flag db).err = none →
    callback k fault flag db = ⟨none,false,false,db⟩ ∨
    ∃ db', callback k fault flag db = ⟨none,true,true,db'⟩ ∧ Marks key done effects k db db'

theorem run_cases (hcommit : CommitsOnce callback key done effects) (k : κ)
    (x : Execution δ φ ε) (db : δ) :
    ((run (callback k) x db).err ≠ none ∧ (run (callback k) x db).flag = false ∧
      (run (callback k) x db).db = db) ∨
    run (callback k) x db = ⟨none,false,false,db⟩ ∨
    ∃ db', run (callback k) x db = ⟨none,true,true,db'⟩ ∧ Marks key done effects k db db' := by
  simp only [run]
  cases herr : (withTransaction (callback k) x false db).err with
  | some e =>
    refine .inl ⟨by simp,rfl,?_⟩
    exact withTransaction_rolledBack (by simp [herr])
  | none =>
    obtain ⟨fault,flag,hcommitted,heq⟩ := withTransaction_committed herr
    simp only [heq]
    exact .inr (hcommit k fault flag db hcommitted)

theorem guarded_of_commitsOnce (hcommit : CommitsOnce callback key done effects)
    (hcall : ∀ k x db, (∃ e, call k x db = ⟨some e,false,false,db⟩) ∨
      call k x db = run (callback k) x db) : Guarded call key done effects := by
  have hcases : ∀ k x db,
      ((call k x db).err ≠ none ∧ (call k x db).flag = false ∧ (call k x db).db = db) ∨
      call k x db = ⟨none,false,false,db⟩ ∨
      ∃ db', call k x db = ⟨none,true,true,db'⟩ ∧ Marks key done effects k db db' := by
    intro k x db
    rcases hcall k x db with ⟨e,heq⟩ | heq
    · exact .inl (by simp [heq])
    · rw [heq]
      exact run_cases hcommit k x db
  constructor
  · intro k x db herr
    rcases hcases k x db with ⟨_,hflag,hdb⟩ | heq | ⟨_,heq,_⟩
    · exact ⟨hflag,hdb⟩
    · simp [heq] at herr
    · simp [heq] at herr
  · intro k x db herr
    rcases hcases k x db with ⟨hne,_,_⟩ | heq | ⟨_,heq,_⟩
    · exact absurd herr hne
    · rw [heq]
    · rw [heq]
  · intro k x db herr hflag
    rcases hcases k x db with ⟨hne,_,_⟩ | heq | ⟨_,heq,_⟩
    · exact absurd herr hne
    · rw [heq]
    · simp [heq] at hflag
  · intro k x db hflag
    rcases hcases k x db with ⟨_,hno,_⟩ | heq | ⟨db',heq,hmarks⟩
    · simp [hno] at hflag
    · simp [heq] at hflag
    · rw [heq]
      exact ⟨hmarks.fresh,hmarks.effect,hmarks.marked,hmarks.kept⟩

end Callback

end Nimburion.Transaction
