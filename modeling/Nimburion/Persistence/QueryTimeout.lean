import Nimburion.Persistence.Adapter

namespace Nimburion.Persistence
open GoTime

section Contexts

def Ctx.err (ctx : Ctx) (now : Time) : Option GoError :=
  match ctx.cancelled.filter (· ≤ now),ctx.deadline.filter (· ≤ now) with
  | some c,some d => some (if c < d then .contextCanceled else .deadlineExceeded)
  | some _,none => some .contextCanceled
  | none,some _ => some .deadlineExceeded
  | none,none => none

def earlier (moment : Option Time) (t : Time) : Time :=
  match moment with
  | some m => min m t
  | none => t

def Ctx.withTimeout (ctx : Ctx) (now : Time) (timeout : Duration) : Ctx :=
  { ctx with deadline := some (earlier ctx.deadline (now+timeout)) }

def Ctx.cancel (ctx : Ctx) (now : Time) : Ctx :=
  { ctx with cancelled := some (earlier ctx.cancelled now) }

-- the context and what its cancel function does at a later time
def Adapter.withQueryTimeout (a : Adapter) (ctx : Ctx) (now : Time) : Ctx × (Time → Ctx → Ctx) :=
  if a.queryTimeout ≤ 0 then (ctx,fun _ ctx => ctx)
  else if ctx.deadline.isSome then (ctx,fun _ ctx => ctx)
  else (ctx.withTimeout now a.queryTimeout,fun later ctx => ctx.cancel later)

end Contexts

section Rows

variable {R T : Type}

-- the rows still to be read, the error the database ends them with and the context they live in
structure Rows (R : Type) where
  items : List R
  err : Option GoError
  ctx : Ctx

def query (ctx : Ctx) (finish : Time) (answer : Except GoError (List R × Option GoError)) :
    Except GoError (Rows R) :=
  match ctx.err finish with
  | some err => .error err
  | none => answer.map fun p => ⟨p.1,p.2,ctx⟩

-- the context of a transaction ends no earlier than the contexts made from it, so its queries are
-- those of the connection; the deferred cancel runs when the call returns
def Adapter.queryContext (a : Adapter) (ctx : Ctx) (start finish : Time)
    (answer : Except GoError (List R × Option GoError)) : Except GoError (Rows R) :=
  let q := a.withQueryTimeout ctx start
  (query q.1 finish answer).map fun rows => { rows with ctx := q.2 finish rows.ctx }

inductive ReadError where
  | scan (err : GoError)
  | iterate (err : GoError)
  deriving DecidableEq, Repr

-- for rows.Next() { FromRow(rows) }, then rows.Err(): rows are closed once their context is done
def readAll (ctx : Ctx) (ending : Option GoError) (fromRow : R → Except GoError T)
    (clock : ℕ → Time) : List R → ℕ → Except ReadError (List T)
  | [],i => match ctx.err (clock i) with
      | some err => .error (.iterate err)
      | none => match ending with
          | some err => .error (.iterate err)
          | none => .ok []
  | r :: items,i => match ctx.err (clock i) with
      | some err => .error (.iterate err)
      | none => match ctx.err (clock (i+1)) with
          | some err => .error (.scan err)
          | none => match fromRow r with
              | .error err => .error (.scan err)
              | .ok entity => (readAll ctx ending fromRow clock items (i+2)).map (entity :: ·)

-- FindAll from the query it has built on
def findAll (a : Adapter) (ctx : Ctx) (start finish : Time) (clock : ℕ → Time)
    (fromRow : R → Except GoError T) (answer : Except GoError (List R × Option GoError)) :
    Except GoError (List T) :=
  match a.queryContext ctx start finish answer with
  | .error err => .error (.wrapped "failed to query entities: " err)
  | .ok rows => match readAll rows.ctx rows.err fromRow clock rows.items 0 with
      | .error (.scan err) => .error (.wrapped "failed to scan entity: " err)
      | .error (.iterate err) => .error (.wrapped "error iterating rows: " err)
      | .ok entities => .ok entities

end Rows

section Reading

variable {R T : Type}

-- when the query returns and when each Next and Scan happens
structure Timing (start : Time) where
  finish : Time
  clock : ℕ → Time
  called : start ≤ finish
  returned : finish ≤ clock 0
  later : ∀ i, clock i ≤ clock (i+1)

-- the caller's context ends or the timeout elapses before the reading of n rows does
def Late (a : Adapter) (ctx : Ctx) {start : Time} (t : Timing start) (n : ℕ) : Prop :=
  ∃ i ≤ 2*n, ctx.err (t.clock i) ≠ none ∨
    (0 < a.queryTimeout ∧ start+a.queryTimeout ≤ t.clock i)

def DatabaseFails (fromRow : R → Except GoError T) :
    Except GoError (List R × Option GoError) → Prop
  | .error _ => True
  | .ok (items,err) => err ≠ none ∨ ∃ r ∈ items, ∃ err, fromRow r = .error err

def rowCount : Except GoError (List R × Option GoError) → ℕ
  | .error _ => 0
  | .ok (items,_) => items.length

def RowsReadable (a : Adapter) (ctx : Ctx) {start : Time} (t : Timing start)
    (answer : Except GoError (List R × Option GoError)) : Prop :=
  ∀ rows, a.queryContext ctx start t.finish answer = .ok rows → ¬ Late a ctx t (rowCount answer) →
    answer = .ok (rows.items,rows.err) ∧
    readAll rows.ctx rows.err Except.ok t.clock rows.items 0 = match rows.err with
      | some err => .error (.iterate err)
      | none => .ok rows.items

def FindAllComplete (a : Adapter) (ctx : Ctx) {start : Time} (t : Timing start)
    (fromRow : R → Except GoError T) (answer : Except GoError (List R × Option GoError)) : Prop :=
  (∃ items entities, answer = .ok (items,none) ∧ items.mapM fromRow = .ok entities ∧
    findAll a ctx start t.finish t.clock fromRow answer = .ok entities) ∨
  ∃ err, findAll a ctx start t.finish t.clock fromRow answer = .error err ∧
    (DatabaseFails fromRow answer ∨ Late a ctx t (rowCount answer))

def StaysReadable (a : Adapter) (ctx : Ctx) (start : Time) : Prop :=
  ∀ (R T : Type) (t : Timing start) (answer : Except GoError (List R × Option GoError)),
    RowsReadable a ctx t answer ∧ ∀ fromRow : R → Except GoError T,
      FindAllComplete a ctx t fromRow answer

end Reading

section Lifetime

variable {R T : Type} {ctx : Ctx} {ending : Option GoError} {fromRow : R → Except GoError T}
  {clock : ℕ → Time}

theorem filter_passed {moment : Option Time} {now : Time} :
    moment.filter (· ≤ now) = none ↔ ∀ m, moment = some m → now < m := by
  rw [Option.filter_eq_none_iff]
  simp

theorem Ctx.err_eq_none {now : Time} : ctx.err now = none ↔
    (∀ c, ctx.cancelled = some c → now < c) ∧ ∀ d, ctx.deadline = some d → now < d := by
  rw [← filter_passed,← filter_passed,Ctx.err]
  cases ctx.cancelled.filter (· ≤ now) with
  | none => cases ctx.deadline.filter (· ≤ now) <;> simp
  | some c => cases ctx.deadline.filter (· ≤ now) <;> simp

theorem Ctx.err_mono {now now' : Time} (h : now ≤ now') (hnone : ctx.err now' = none) :
    ctx.err now = none := by
  rw [Ctx.err_eq_none] at hnone ⊢
  exact ⟨fun c hc => Int.lt_of_le_of_lt h (hnone.1 c hc),
    fun d hd => Int.lt_of_le_of_lt h (hnone.2 d hd)⟩

theorem readAll_alive {items : List R} {i : ℕ}
    (halive : ∀ j ≤ 2*items.length, ctx.err (clock (i+j)) = none) :
    readAll ctx ending fromRow clock items i = match items.mapM fromRow with
      | .error err => .error (.scan err)
      | .ok entities => match ending with
          | some err => .error (.iterate err)
          | none => .ok entities := by
  induction items generalizing i with
  | nil => simp [readAll,show ctx.err (clock i) = none from halive 0 (by omega)]; rfl
  | cons r items ih =>
    have hnext := halive 0 (by omega)
    have hscan := halive 1 (by simp; omega)
    have hrest := ih (i := i+2) fun j hj => by
      have := halive (j+2) (by simp; omega)
      rwa [Nat.add_comm j 2,← Nat.add_assoc] at this
    simp only [Nat.add_zero] at hnext
    rw [readAll,hnext,hscan,List.mapM_cons]
    cases hrow : fromRow r with
    | error err => rfl
    | ok entity =>
      dsimp only
      rw [hrest]
      cases items.mapM fromRow with
      | error err => rfl
      | ok entities => cases ending <;> rfl

theorem readAll_ok {items : List R} {i : ℕ} {entities : List T}
    (h : readAll ctx ending fromRow clock items i = .ok entities) :
    ending = none ∧ items.mapM fromRow = .ok entities := by
  induction items generalizing i entities with
  | nil =>
    cases herr : ctx.err (clock i) with
    | some err => simp [readAll,herr] at h
    | none =>
      cases ending with
      | some err => simp [readAll,herr] at h
      | none =>
        simp only [readAll,herr,Except.ok.injEq] at h
        rw [← h]
        exact ⟨rfl,rfl⟩
  | cons r items ih =>
    rw [readAll] at h
    cases hnext : ctx.err (clock i) with
    | some err => simp [hnext] at h
    | none =>
      cases hscan : ctx.err (clock (i+1)) with
      | some err => simp [hnext,hscan] at h
      | none =>
        cases hrow : fromRow r with
        | error err => simp [hnext,hscan,hrow] at h
        | ok entity =>
          simp only [hnext,hscan,hrow] at h
          cases hrest : readAll ctx ending fromRow clock items (i+2) with
          | error err => simp [hrest,Except.map] at h
          | ok rest =>
            simp only [hrest,Except.map,Except.ok.injEq] at h
            obtain ⟨hend,hmap⟩ := ih hrest
            refine ⟨hend,?_⟩
            rw [List.mapM_cons,hrow,hmap,← h]
            rfl

theorem mapM_ok {items : List R} (h : ∀ r ∈ items, ∀ err, fromRow r ≠ .error err) :
    ∃ entities, items.mapM fromRow = .ok entities := by
  induction items with
  | nil => exact ⟨[],rfl⟩
  | cons r items ih =>
    obtain ⟨hr,hitems⟩ := List.forall_mem_cons.mp h
    obtain ⟨entities,hentities⟩ := ih hitems
    cases hrow : fromRow r with
    | error err => exact absurd hrow (hr err)
    | ok entity =>
      refine ⟨entity :: entities,?_⟩
      rw [List.mapM_cons,hrow,hentities]
      rfl

theorem mapM_self (items : List R) : items.mapM (Except.ok : R → Except GoError R) = .ok items := by
  induction items with
  | nil => rfl
  | cons r items ih =>
    rw [List.mapM_cons,ih]
    rfl

variable {a : Adapter} {start : Time} {t : Timing start}
  {answer : Except GoError (List R × Option GoError)}

theorem Timing.start_le (t : Timing start) (i : ℕ) : start ≤ t.clock i := by
  induction i with
  | zero => exact Int.le_trans t.called t.returned
  | succ i ih => exact Int.le_trans ih (t.later i)

theorem Timing.finish_le (t : Timing start) (i : ℕ) : t.finish ≤ t.clock i := by
  induction i with
  | zero => exact t.returned
  | succ i ih => exact Int.le_trans ih (t.later i)

theorem queryContext_of_own (h : a.queryTimeout ≤ 0 ∨ ctx.deadline.isSome = true)
    (finish : Time) : a.queryContext ctx start finish answer = query ctx finish answer := by
  have hown : a.withQueryTimeout ctx start = (ctx,fun _ ctx => ctx) := by
    unfold Adapter.withQueryTimeout
    split_ifs <;> simp_all
  rw [Adapter.queryContext,hown]
  cases query ctx finish answer with
  | error err => rfl
  | ok rows => rfl

theorem not_late {n : ℕ} (h : ¬ Late a ctx t n) :
    ctx.err t.finish = none ∧ ∀ i ≤ 2*n, ctx.err (t.clock i) = none := by
  have hall : ∀ i ≤ 2*n, ctx.err (t.clock i) = none := by
    intro i hi
    by_contra hne
    exact h ⟨i,hi,.inl hne⟩
  exact ⟨Ctx.err_mono (t.finish_le 0) (hall 0 (by omega)),hall⟩

theorem rowsReadable_of_own (h : a.queryTimeout ≤ 0 ∨ ctx.deadline.isSome = true) :
    RowsReadable a ctx t answer := by
  intro rows hrows hlate
  obtain ⟨hfinish,halive⟩ := not_late hlate
  rw [queryContext_of_own h,query,hfinish] at hrows
  cases answer with
  | error err => simp [Except.map] at hrows
  | ok p =>
    simp only [Except.map,Except.ok.injEq] at hrows
    subst hrows
    refine ⟨rfl,?_⟩
    rw [readAll_alive (i := 0) (by simpa [rowCount] using halive),mapM_self]

theorem queryContext_ok {finish : Time} {rows : Rows R}
    (h : a.queryContext ctx start finish answer = .ok rows) : answer = .ok (rows.items,rows.err) := by
  rw [Adapter.queryContext,query] at h
  cases hdone : (a.withQueryTimeout ctx start).1.err finish with
  | some err => simp [hdone,Except.map] at h
  | none =>
    cases answer with
    | error err => simp [hdone,Except.map] at h
    | ok p =>
      simp only [hdone,Except.map,Except.ok.injEq] at h
      rw [← h]

theorem findAll_ok {entities : List T} {finish : Time}
    (h : findAll a ctx start finish clock fromRow answer = .ok entities) :
    ∃ items, answer = .ok (items,none) ∧ items.mapM fromRow = .ok entities := by
  unfold findAll at h
  cases hquery : a.queryContext ctx start finish answer with
  | error err => simp [hquery] at h
  | ok rows =>
    rw [hquery] at h
    dsimp only at h
    split at h
    · cases h
    · cases h
    · rename_i read hread
      cases h
      obtain ⟨hend,hmap⟩ := readAll_ok hread
      exact ⟨rows.items,by rw [queryContext_ok hquery,hend],hmap⟩

theorem findAll_of_own (h : a.queryTimeout ≤ 0 ∨ ctx.deadline.isSome = true)
    (hdb : ¬ DatabaseFails fromRow answer) (hlate : ¬ Late a ctx t (rowCount answer)) :
    ∃ entities, findAll a ctx start t.finish t.clock fromRow answer = .ok entities := by
  obtain ⟨hfinish,halive⟩ := not_late hlate
  cases answer with
  | error err => exact absurd trivial hdb
  | ok p =>
    obtain ⟨items,err⟩ := p
    simp only [DatabaseFails,not_or,not_exists,not_and,not_not] at hdb
    obtain ⟨entities,hentities⟩ := mapM_ok hdb.2
    refine ⟨entities,?_⟩
    rw [findAll,queryContext_of_own h,query,hfinish]
    simp only [Except.map]
    rw [readAll_alive (i := 0) (by simpa [rowCount] using halive),hentities,hdb.1]

-- a failing FindAll has a cause as soon as a FindAll without one succeeds
theorem findAllComplete_of (h : ¬ DatabaseFails fromRow answer →
      ¬ Late a ctx t (rowCount answer) →
      ∃ entities, findAll a ctx start t.finish t.clock fromRow answer = .ok entities) :
    FindAllComplete a ctx t fromRow answer := by
  cases hfind : findAll a ctx start t.finish t.clock fromRow answer with
  | ok entities =>
    obtain ⟨items,hanswer,hmap⟩ := findAll_ok hfind
    exact .inl ⟨items,entities,hanswer,hmap,hfind⟩
  | error err =>
    refine .inr ⟨err,hfind,?_⟩
    by_contra hcause
    rw [not_or] at hcause
    obtain ⟨entities,hok⟩ := h hcause.1 hcause.2
    rw [hfind] at hok
    cases hok

theorem late_of_done (h : ctx.err start ≠ none) (n : ℕ) : Late a ctx t n :=
  ⟨0,by omega,.inl fun hnone => h (Ctx.err_mono (t.start_le 0) hnone)⟩

theorem earlier_le (moment : Option Time) (t : Time) : earlier moment t ≤ t := by
  cases moment with
  | none => exact Int.le_refl t
  | some m => exact Int.min_le_right m t

-- the rows of a derived context are closed by the time the caller gets them
theorem closed_on_return {rows : Rows R} (htimeout : 0 < a.queryTimeout)
    (hdeadline : ctx.deadline = none)
    (h : a.queryContext ctx start start answer = .ok rows) : rows.ctx.err start ≠ none := by
  have hown : a.withQueryTimeout ctx start =
      (ctx.withTimeout start a.queryTimeout,fun later ctx => ctx.cancel later) := by
    rw [Adapter.withQueryTimeout,if_neg (Int.not_le.mpr htimeout)]
    simp [hdeadline]
  rw [Adapter.queryContext,hown,query] at h
  cases hdone : (ctx.withTimeout start a.queryTimeout).err start with
  | some err => simp [hdone,Except.map] at h
  | none =>
    cases answer with
    | error err => simp [hdone,Except.map] at h
    | ok p =>
      simp only [hdone,Except.map,Except.ok.injEq] at h
      intro halive
      rw [← h,Ctx.err_eq_none] at halive
      exact absurd (halive.1 _ rfl) (Int.not_lt.mpr (earlier_le _ _))

theorem readAll_closed {items : List R} {i : ℕ} {err : GoError}
    (h : ctx.err (clock i) = some err) :
    readAll ctx ending fromRow clock items i = .error (.iterate err) := by
  cases items with
  | nil => simp [readAll,h]
  | cons r items => simp [readAll,h]

theorem rows_stay_readable_iff (a : Adapter) (ctx : Ctx) (start : Time) :
    StaysReadable a ctx start ↔
      a.queryTimeout ≤ 0 ∨ ctx.deadline.isSome = true ∨ ctx.err start ≠ none := by
  constructor
  · intro h
    by_contra hcond
    simp only [not_or,Int.not_le,Bool.not_eq_true,Option.isSome_eq_false_iff,Option.isNone_iff_eq_none,
      ne_eq,not_not] at hcond
    obtain ⟨htimeout,hdeadline,halive⟩ := hcond
    have hopen : (ctx.withTimeout start a.queryTimeout).err start = none := by
      rw [Ctx.err_eq_none] at halive ⊢
      refine ⟨halive.1,fun d hd => ?_⟩
      simp only [Ctx.withTimeout,earlier,hdeadline,Option.some.injEq] at hd
      rw [← hd]
      exact Int.lt_add_of_pos_right start htimeout
    let t : Timing start := ⟨start,fun _ => start,Int.le_refl _,Int.le_refl _,fun _ => Int.le_refl _⟩
    have hlate : ¬ Late a ctx t 0 := by
      rintro ⟨i,_,hdone | ⟨_,helapsed⟩⟩
      · exact hdone halive
      · exact absurd helapsed (Int.not_le.mpr (Int.lt_add_of_pos_right start htimeout))
    have hquery : ∃ rows : Rows Unit, a.queryContext ctx start start (.ok ([],none)) = .ok rows := by
      rw [Adapter.queryContext,Adapter.withQueryTimeout,if_neg (Int.not_le.mpr htimeout)]
      simp only [hdeadline,Option.isSome_none,Bool.false_eq_true,if_false,query,hopen]
      exact ⟨_,rfl⟩
    obtain ⟨rows,hrows⟩ := hquery
    obtain ⟨err,herr⟩ := Option.ne_none_iff_exists'.mp (closed_on_return htimeout hdeadline hrows)
    obtain ⟨hanswer,hread⟩ := (h Unit Unit t (.ok ([],none))).1 rows hrows hlate
    simp only [Except.ok.injEq,Prod.mk.injEq] at hanswer
    rw [readAll_closed (i := 0) herr,← hanswer.2] at hread
    cases hread
  · rintro (htimeout | hdeadline | hdone) R T t answer
    · exact ⟨rowsReadable_of_own (.inl htimeout),
        fun _ => findAllComplete_of (findAll_of_own (.inl htimeout))⟩
    · exact ⟨rowsReadable_of_own (.inr hdeadline),
        fun _ => findAllComplete_of (findAll_of_own (.inr hdeadline))⟩
    · exact ⟨fun _ _ hlate => absurd (late_of_done hdone _) hlate,
        fun _ => findAllComplete_of fun _ hlate => absurd (late_of_done hdone _) hlate⟩

def tenSecondQueries : Adapter := ⟨.postgres,10*second⟩

theorem rows_closed_before_first_read : ¬ StaysReadable tenSecondQueries ⟨[],none,none⟩ 0 := by
  intro h
  let t : Timing 0 := ⟨0,fun _ => 0,Int.le_refl 0,Int.le_refl 0,fun _ => Int.le_refl 0⟩
  have hlate : ¬ Late tenSecondQueries ⟨[],none,none⟩ t 1 := by
    rintro ⟨i,_,hdone | ⟨_,helapsed⟩⟩
    · exact hdone rfl
    · exact absurd helapsed (show ¬ (0+10*second ≤ 0) by decide)
  have hread := ((h String String t (.ok (["ada"],none))).1 _ rfl hlate).2
  revert hread
  decide

end Lifetime

end Nimburion.Persistence
