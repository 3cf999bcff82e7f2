import Mathlib.Algebra.Order.Floor.Div
import Mathlib.Data.List.Pairwise
import Nimburion.Persistence.Query

namespace Nimburion.Persistence.Query
open GoText

-- `eq` is the database's comparison of two values that are not NULL and `le` the order of ORDER BY;
-- COUNT(*) is a 64-bit number
structure Table (V : Type) where
  columns : List String
  rows : List (Row V)
  eq : V → V → Bool
  le : Option V → Option V → Bool
  le_trans : ∀ a b c, le a b = true → le b c = true → le a c = true
  le_total : ∀ a b, (le a b || le b a) = true
  counted : rows.length < 2^63

-- $k is the k-th argument, and the i-th ? the i-th
def Dialect.arg {V : Type} (args : List (Arg V)) (i k : ℕ) : Dialect → Option (Arg V)
  | .postgres => args[k-1]?
  | .mysql => args[i]?

def bindFrom {V : Type} (d : Dialect) (args : List (Arg V)) : ℕ → List ℕ → Option (List (Arg V))
  | _, [] => some []
  | i, k :: ks => (d.arg args i k).bind fun a => (bindFrom d args (i+1) ks).map (a :: ·)

def Statement.bound {V : Type} (d : Dialect) (stmt : Statement V) : Option (List (Arg V)) :=
  if stmt.select.placeholders.length = stmt.args.length then
    bindFrom d stmt.args 0 stmt.select.placeholders
  else none

namespace Table

variable {V : Type} (t : Table V)

def holds (row : Row V) : String × Arg V → Bool
  | (column,.value (some v)) => (row column).any fun x => t.eq x v
  | _ => false

def before (column : String) (desc : Bool) (a b : Row V) : Bool :=
  if desc then t.le (b column) (a column) else t.le (a column) (b column)

-- rows that ORDER BY does not tell apart come in any order
def Answers (d : Dialect) (stmt : Statement V) (ans : Except GoError (List (Row V))) : Prop :=
  match stmt.bound d with
  | none => ∃ err, ans = .error err
  | some vals =>
      if stmt.select.columns.all (· ∈ t.columns) then
        ∃ l : List (Row V), l.Perm (t.rows.filter fun row =>
            ((stmt.select.wheres.map Prod.fst).zip vals).all (t.holds row)) ∧
          (∀ o ∈ stmt.select.orderBy, l.Pairwise fun a b => t.before o.1 o.2 a b = true) ∧
          match stmt.select.page,vals.drop stmt.select.wheres.length with
          | none, _ => ans = .ok l
          | some _, [.int limit,.int offset] =>
              if 0 ≤ limit.toInt ∧ 0 ≤ offset.toInt then
                ans = .ok ((l.drop offset.toInt.toNat).take limit.toInt.toNat)
              else ∃ err, ans = .error err
          | some _, _ => ∃ err, ans = .error err
      else ∃ err, ans = .error err

def Counts (d : Dialect) (stmt : Statement V) (ans : Except GoError Int64) : Prop :=
  match stmt.bound d with
  | none => ∃ err, ans = .error err
  | some vals =>
      if stmt.select.columns.all (· ∈ t.columns) then
        ans = .ok (Int64.ofNat (t.rows.filter fun row =>
          ((stmt.select.wheres.map Prod.fst).zip vals).all (t.holds row)).length)
      else ∃ err, ans = .error err

-- a database that holds the table and does not fail
structure Serves (d : Dialect) (db : Executor V) : Prop where
  query : ∀ stmt, t.Answers d stmt (db.query stmt)
  queryRow : ∀ stmt, t.Counts d stmt (db.queryRow stmt)

-- the rows that a filter asks for, and the same in the order of a sort
def found (filter : Filter V) : List (Row V) :=
  t.rows.filter fun row => filter.entries.all fun e => t.holds row (e.1,.value e.2)

def sorted (filter : Filter V) (sort : Sorting) : List (Row V) :=
  (t.found filter).mergeSort (t.before sort.field (sort.order = "desc"))

def Distinct (column : String) : Prop :=
  t.rows.Pairwise fun a b =>
    ¬ (t.le (a column) (b column) = true ∧ t.le (b column) (a column) = true)

end Table

-- the elements at the positions (p-1)*s to p*s-1
def slice {α : Type} (l : List α) (p s : ℕ) : List α := (l.drop ((p-1)*s)).take s

section Placeholders

variable {T V : Type}

def Numbered (stmt : Statement V) : Prop :=
  stmt.select.placeholders = List.range' 1 stmt.args.length

theorem bindFrom_range (d : Dialect) (args : List (Arg V)) {i m : ℕ} (h : i+m ≤ args.length) :
    bindFrom d args i (List.range' (i+1) m) = some ((args.drop i).take m) := by
  induction m generalizing i with
  | zero => simp [bindFrom]
  | succ m ih =>
    have hi : i < args.length := by omega
    have harg : d.arg args i (i+1) = some args[i] := by cases d <;> simp [Dialect.arg,hi]
    rw [List.range'_succ,bindFrom,harg,ih (by omega),List.drop_eq_getElem_cons hi,List.take_succ_cons]
    rfl

theorem bound_of_numbered {stmt : Statement V} (h : Numbered stmt) (d : Dialect) :
    stmt.bound d = some stmt.args := by
  rw [Statement.bound,h,List.length_range',if_pos rfl,bindFrom_range d stmt.args (by simp)]
  simp

theorem numbered_filterStatement (r : Repository T V) (what : String) (filter : Filter V)
    (orderBy : Option (String × Bool)) : Numbered (filterStatement r what filter orderBy) := by
  rw [Numbered,placeholders_eq,filterStatement]
  simp

theorem numbered_pageOf {stmt : Statement V} (p : Pagination) (h : Numbered stmt)
    (hpage : stmt.select.page = none) (hlen : stmt.select.wheres.length = stmt.args.length) :
    Numbered (pageOf p stmt) := by
  unfold pageOf
  split_ifs
  · rw [Numbered,placeholders_eq,hpage] at h
    simp only [Option.toList_none,List.flatMap_nil,List.append_nil] at h
    rw [Numbered,placeholders_eq]
    simp only [Option.toList_some,List.flatMap_cons,List.flatMap_nil,h,hlen,List.length_append,
      List.length_cons,List.length_nil,Nat.zero_add,List.append_nil]
    rw [List.range'_concat,List.range'_concat,List.append_assoc,Nat.one_mul,Nat.one_mul,
      Nat.add_comm 1,Nat.add_comm 1]
    rfl
  · exact h

end Placeholders

section Selection

variable {T V : Type} {t : Table V}

theorem get_of_mem (filter : Filter V) {e : String × Option V} (h : e ∈ filter.entries) :
    filter.get e.1 = e.2 := by
  obtain ⟨entries,hnodup⟩ := filter
  unfold Filter.get
  dsimp only at h ⊢
  induction entries with
  | nil => cases h
  | cons a entries ih =>
    rw [List.map_cons,List.nodup_cons] at hnodup
    rcases List.mem_cons.mp h with rfl | hmem
    · rw [List.lookup_cons_self]
      rfl
    · have hne : e.1 ≠ a.1 := fun heq => hnodup.1 (heq ▸ List.mem_map_of_mem hmem)
      rw [List.lookup_cons,beq_eq_false_iff_ne.mpr hne]
      exact ih hnodup.2 hmem

theorem zip_map_append {α β : Type} (g : α → β) (l : List α) (rest : List β) :
    l.zip (l.map g ++ rest) = l.map fun a => (a,g a) := by
  induction l with
  | nil => rfl
  | cons a l ih => rw [List.map_cons,List.cons_append,List.zip_cons_cons,ih,List.map_cons]

theorem all_sortedFields (t : Table V) (filter : Filter V) (row : Row V) (rest : List (Arg V)) :
    ((sortedFilterFields filter).zip
      ((sortedFilterFields filter).map (fun f => Arg.value (filter.get f)) ++ rest)).all
        (t.holds row) = filter.entries.all fun e => t.holds row (e.1,.value e.2) := by
  have hperm : (sortedFilterFields filter).Perm filter.fields := List.mergeSort_perm _ _
  rw [zip_map_append,List.all_map,Bool.eq_iff_iff,List.all_eq_true,List.all_eq_true]
  constructor
  · intro h e he
    have hmem : e.1 ∈ sortedFilterFields filter := hperm.mem_iff.mpr (List.mem_map_of_mem he)
    have hholds := h e.1 hmem
    rwa [Function.comp_apply,get_of_mem filter he] at hholds
  · intro h f hf
    obtain ⟨e,he,rfl⟩ := List.mem_map.mp (hperm.mem_iff.mp hf)
    rw [Function.comp_apply,get_of_mem filter he]
    exact h e he

theorem before_trans (column : String) (desc : Bool) (a b c : Row V)
    (hab : t.before column desc a b = true) (hbc : t.before column desc b c = true) :
    t.before column desc a c = true := by
  unfold Table.before at *
  split_ifs at *
  · exact t.le_trans _ _ _ hbc hab
  · exact t.le_trans _ _ _ hab hbc

theorem before_total (column : String) (desc : Bool) (a b : Row V) :
    (t.before column desc a b || t.before column desc b a) = true := by
  unfold Table.before
  split_ifs
  · exact t.le_total _ _
  · exact t.le_total _ _

-- with no two values alike there is one order
theorem eq_sorted {filter : Filter V} {sort : Sorting} (hdistinct : t.Distinct sort.field)
    {l : List (Row V)} (hperm : l.Perm (t.found filter))
    (hl : l.Pairwise fun a b => t.before sort.field (sort.order = "desc") a b = true) :
    l = t.sorted filter sort := by
  have hsorted := List.pairwise_mergeSort (before_trans (t := t) sort.field (sort.order = "desc"))
    (before_total sort.field (sort.order = "desc")) (t.found filter)
  refine List.Perm.eq_of_pairwise ?_ hl hsorted (hperm.trans (List.mergeSort_perm _ _).symm)
  intro a b ha hb hab hba
  have hrows : ∀ x ∈ t.found filter, x ∈ t.rows := fun x hx => (List.mem_filter.mp hx).1
  have ha' := hrows a (hperm.mem_iff.mp ha)
  have hb' := hrows b ((List.mergeSort_perm _ _).mem_iff.mp hb)
  by_contra hne
  have hsymm : Std.Symm fun a b : Row V => ¬ (t.le (a sort.field) (b sort.field) = true ∧
      t.le (b sort.field) (a sort.field) = true) := ⟨fun _ _ h h' => h h'.symm⟩
  refine hdistinct.forall ha' hb' hne ?_
  unfold Table.before at hab hba
  split_ifs at hab hba
  · exact ⟨hba,hab⟩
  · exact ⟨hab,hba⟩

theorem sorted_perm (filter : Filter V) (sort : Sorting) :
    (t.sorted filter sort).Perm (t.found filter) := List.mergeSort_perm _ _

theorem length_found_lt (filter : Filter V) : (t.found filter).length < 2^63 :=
  Nat.lt_of_le_of_lt (List.length_filter_le _ _) t.counted

theorem nodup_sorted (filter : Filter V) {sort : Sorting} (hdistinct : t.Distinct sort.field) :
    (t.sorted filter sort).Nodup := by
  have hrows : t.rows.Nodup := by
    refine hdistinct.imp fun {a b} h heq => h ?_
    have hrefl := t.le_total (a sort.field) (a sort.field)
    rw [Bool.or_self] at hrefl
    rw [← heq]
    exact ⟨hrefl,hrefl⟩
  exact (sorted_perm filter sort).nodup_iff.mpr (hrows.filter _)

end Selection

section Pages

variable {T V : Type} {r : Repository T V} {t : Table V} {db : Executor V}
  {filter : Filter V} {sort : Sorting}

theorem scanRows_ok (rows : List (Row V)) (h : ∀ row ∈ rows, ∃ e, r.fromRow row = .ok e) :
    ∃ es, scanRows r rows = .ok es ∧ es.length = rows.length := by
  induction rows with
  | nil => exact ⟨[],rfl,rfl⟩
  | cons row rows ih =>
    obtain ⟨hrow,hrows⟩ := List.forall_mem_cons.mp h
    obtain ⟨e,he⟩ := hrow
    obtain ⟨es,hes,hlen⟩ := ih hrows
    refine ⟨e :: es,?_,by simp [hlen]⟩
    rw [scanRows,he,hes]
    rfl

-- what a page asks for
def pageStatement (r : Repository T V) (filter : Filter V) (sort : Sorting) (p : Pagination) :
    Statement V := pageOf p (filterStatement r "*" filter (orderOf sort))

theorem numbered_pageStatement (filter : Filter V) (sort : Sorting) (p : Pagination) :
    Numbered (pageStatement r filter sort p) :=
  numbered_pageOf p (numbered_filterStatement r "*" filter (orderOf sort)) rfl
    (by simp [filterStatement])

structure Asks (r : Repository T V) (t : Table V) (filter : Filter V) (sort : Sorting) : Prop where
  sorts : sort.field ≠ ""
  known : ∀ f ∈ sort.field :: filter.fields, f ∈ t.columns
  allowed : ∀ f ∈ sort.field :: filter.fields, validateColumnAllowed r f = none

theorem Asks.of_columns (h : Asks r t filter sort) {P : String → Prop}
    (hP : ∀ f ∈ sort.field :: filter.fields, P f) (p : Pagination) :
    ∀ c ∈ (⟨filter,sort,p⟩ : QueryOptions V).columns, P c := by
  obtain ⟨hfield,hfields⟩ := List.forall_mem_cons.mp hP
  have hperm : (sortedFilterFields filter).Perm filter.fields := List.mergeSort_perm _ _
  rw [QueryOptions.columns,List.forall_mem_append,if_pos h.sorts]
  exact ⟨fun c hc => hfields c (hperm.mem_iff.mp hc),by simpa using hfield⟩

theorem columns_pageStatement (h : Asks r t filter sort) (p : Pagination) :
    (pageStatement r filter sort p).select.columns.all (· ∈ t.columns) = true := by
  rw [List.all_eq_true,pageStatement,columns_pageOf,columns_filterStatement,columns_orderOf]
  intro c hc
  exact decide_eq_true (h.of_columns h.known p c hc)

theorem pageStatement_eq (filter : Filter V) (sort : Sorting) {p : Pagination}
    (hsize : 0 < p.pageSize) : pageStatement r filter sort p =
      ⟨⟨"*",r.tableName,(sortedFilterFields filter).zipIdx 1,orderOf sort,
          some (((sortedFilterFields filter).zipIdx 1).length+1,
            ((sortedFilterFields filter).zipIdx 1).length+2)⟩,
        (sortedFilterFields filter).map (fun f => Arg.value (filter.get f)) ++
          [Arg.int p.limit,Arg.int p.offset]⟩ := if_pos hsize

theorem query_page (hdb : t.Serves r.dialect db) (h : Asks r t filter sort)
    (hdistinct : t.Distinct sort.field) {p : Pagination} (hsize : 0 < p.pageSize) :
    if 0 ≤ p.offset.toInt then db.query (pageStatement r filter sort p) =
      .ok (((t.sorted filter sort).drop p.offset.toInt.toNat).take p.pageSize.toInt.toNat)
    else ∃ err, db.query (pageStatement r filter sort p) = .error err := by
  have hans := hdb.query (pageStatement r filter sort p)
  rw [Table.Answers,bound_of_numbered (numbered_pageStatement filter sort p)] at hans
  simp only [columns_pageStatement h p,if_true] at hans
  obtain ⟨l,hperm,hl,hans⟩ := hans
  have hlimit : 0 ≤ p.limit.toInt := Int.le_of_lt (Int64.lt_iff_toInt_lt.mp hsize)
  rw [pageStatement_eq filter sort hsize] at hperm hl hans ⊢
  simp only [List.zipIdx_map_fst,all_sortedFields] at hperm
  have hsorted : l = t.sorted filter sort :=
    eq_sorted hdistinct hperm (hl (sort.field,sort.order = "desc") (by simp [orderOf,h.sorts]))
  have hrest : ((sortedFilterFields filter).map (fun f => Arg.value (filter.get f)) ++
      [Arg.int p.limit,Arg.int p.offset]).drop ((sortedFilterFields filter).zipIdx 1).length =
        [.int p.limit,.int p.offset] := by
    rw [List.drop_append_of_le_length (by simp)]
    simp
  simp only [hrest,hlimit,true_and,hsorted] at hans
  exact hans

theorem findAll_page (hdb : t.Serves r.dialect db) (h : Asks r t filter sort)
    (hdistinct : t.Distinct sort.field) {p : Pagination} (hsize : 0 < p.pageSize) :
    if 0 ≤ p.offset.toInt then (findAll r db ⟨filter,sort,p⟩).2 = scanRows r
      (((t.sorted filter sort).drop p.offset.toInt.toNat).take p.pageSize.toInt.toNat)
    else ∃ err, (findAll r db ⟨filter,sort,p⟩).2 = .error err := by
  have hquery := query_page hdb h hdistinct hsize
  have hstmt : findAllStatement r ⟨filter,sort,p⟩ = .ok (pageStatement r filter sort p) :=
    findAllStatement_ok (h.of_columns h.allowed p)
  rw [findAll,hstmt]
  dsimp only
  split_ifs at hquery ⊢
  · rw [hquery]
  · obtain ⟨err,herr⟩ := hquery
    exact ⟨_,by rw [herr]⟩

theorem offset_toInt {page pageSize : Int64} (hpage : 1 ≤ page) :
    (Pagination.offset ⟨page,pageSize⟩).toInt =
      ((page.toInt-1)*pageSize.toInt).bmod (2^64) := by
  have hone : (1 : Int64).toInt = 1 := by decide
  have hpos : 1 ≤ page.toInt := hone ▸ Int64.le_iff_toInt_le.mp hpage
  have hnot : ¬ page ≤ 0 := by
    rw [Int64.le_iff_toInt_le]
    simpa using by omega
  have hlt := page.toInt_lt
  have hsub : (page-1).toInt = page.toInt-1 := by
    rw [Int64.toInt_sub,hone]
    exact Int.bmod_eq_of_le (by omega) (by omega)
  rw [Pagination.offset,if_neg hnot,Int64.toInt_mul,hsub]

-- the offset is the one that was meant, or the page is behind the last row either way
def Reaches (n page pageSize : Int) : Prop :=
  (page-1)*pageSize < 2^63 ∨
    0 ≤ ((page-1)*pageSize).bmod (2^64) ∧ n ≤ ((page-1)*pageSize).bmod (2^64)

theorem slice_eq_drop {α : Type} (l : List α) {page pageSize : Int} (hp : 1 ≤ page)
    (hs : 1 ≤ pageSize) : slice l page.toNat pageSize.toNat =
      (l.drop ((page-1)*pageSize).toNat).take pageSize.toNat := by
  have hprod : ((page-1)*pageSize).toNat = (page.toNat-1)*pageSize.toNat := by
    have hpred : (page-1).toNat = page.toNat-1 := by omega
    rw [← hpred,Int.toNat_mul (by omega) (by omega)]
  rw [slice,hprod]

-- every row that is shown is one of the table
theorem scanRows_shown (hread : ∀ row ∈ t.rows, ∃ e, r.fromRow row = .ok e) (filter : Filter V)
    (sort : Sorting) (k m : ℕ) :
    ∃ es, scanRows r (((t.sorted filter sort).drop k).take m) = .ok es ∧
      es.length = min m ((t.found filter).length-k) := by
  obtain ⟨es,hes,hlen⟩ := scanRows_ok (((t.sorted filter sort).drop k).take m)
    fun row hrow => hread row (List.mem_of_mem_filter ((sorted_perm filter sort).mem_iff.mp
      (List.mem_of_mem_drop (List.mem_of_mem_take hrow))))
  refine ⟨es,hes,?_⟩
  rw [hlen,List.length_take,List.length_drop,(sorted_perm filter sort).length_eq]

theorem findAll_page_iff (hdb : t.Serves r.dialect db) (h : Asks r t filter sort)
    (hdistinct : t.Distinct sort.field) (hread : ∀ row ∈ t.rows, ∃ e, r.fromRow row = .ok e)
    {page pageSize : Int64} (hpage : 1 ≤ page) (hsize : 1 ≤ pageSize) :
    (findAll r db ⟨filter,sort,⟨page,pageSize⟩⟩).2 =
        scanRows r (slice (t.sorted filter sort) page.toInt.toNat pageSize.toInt.toNat) ↔
      Reaches (t.found filter).length page.toInt pageSize.toInt := by
  have hone : (1 : Int64).toInt = 1 := by decide
  have hp : 1 ≤ page.toInt := hone ▸ Int64.le_iff_toInt_le.mp hpage
  have hs : 1 ≤ pageSize.toInt := hone ▸ Int64.le_iff_toInt_le.mp hsize
  have hpos : 0 < pageSize := Int64.lt_iff_toInt_lt.mpr (by simpa using by omega)
  have hfind := findAll_page hdb h hdistinct (p := ⟨page,pageSize⟩) hpos
  rw [offset_toInt hpage] at hfind
  rw [slice_eq_drop _ hp hs,Reaches]
  have hn := length_found_lt (t := t) filter
  have hx : 0 ≤ (page.toInt-1)*pageSize.toInt := Int.mul_nonneg (by omega) (by omega)
  generalize (page.toInt-1)*pageSize.toInt = x at hfind hx ⊢
  by_cases hfits : x < 2^63
  · have hsame : x.bmod (2^64) = x := Int.bmod_eq_of_le (by omega) (by omega)
    rw [hsame,if_pos hx] at hfind
    exact ⟨fun _ => .inl hfits,fun _ => hfind⟩
  · -- the page lies behind the last row
    obtain ⟨es,hes,hlen⟩ := scanRows_shown hread filter sort x.toNat pageSize.toInt.toNat
    have hnil : es = [] := List.length_eq_zero_iff.mp (by omega)
    rw [hes,hnil]
    split_ifs at hfind with ho
    · obtain ⟨es',hes',hlen'⟩ := scanRows_shown hread filter sort (x.bmod (2^64)).toNat
        pageSize.toInt.toNat
      rw [hfind,hes',Except.ok.injEq,← List.length_eq_zero_iff,hlen']
      omega
    · obtain ⟨err,herr⟩ := hfind
      rw [herr]
      constructor
      · intro heq
        cases heq
      · omega

end Pages

section Cover

variable {α : Type}

theorem flatMap_slice_take (l : List α) (s m : ℕ) :
    (List.range m).flatMap (fun k => slice l (k+1) s) = l.take (m*s) := by
  induction m with
  | zero => simp
  | succ m ih =>
    rw [List.range_succ,List.flatMap_append,ih,List.flatMap_singleton,slice,Nat.add_sub_cancel,
      Nat.succ_mul,List.take_add]

-- consecutive slices put a list together again
theorem flatMap_slice (l : List α) {s : ℕ} (hs : 0 < s) :
    (List.range (l.length ⌈/⌉ s)).flatMap (fun k => slice l (k+1) s) = l := by
  rw [flatMap_slice_take]
  have hcover : l.length ≤ s • (l.length ⌈/⌉ s) := le_smul_ceilDiv hs
  rw [smul_eq_mul,Nat.mul_comm] at hcover
  exact List.take_of_length_le hcover

theorem slice_ne_nil_iff (l : List α) {s k : ℕ} (hs : 0 < s) :
    slice l (k+1) s ≠ [] ↔ k < l.length ⌈/⌉ s := by
  have hceil : l.length ⌈/⌉ s ≤ k ↔ l.length ≤ s*k := ceilDiv_le_iff_le_mul hs
  have hlen : slice l (k+1) s = [] ↔ l.length ≤ s*k := by
    rw [slice,← List.length_eq_zero_iff,List.length_take,List.length_drop,Nat.add_sub_cancel,
      Nat.mul_comm k s]
    omega
  rw [ne_eq,hlen,← hceil]
  exact Nat.not_le

end Cover

section Results

variable {T V : Type}

theorem count_found {r : Repository T V} {t : Table V} {db : Executor V} {filter : Filter V}
    (hdb : t.Serves r.dialect db) (hknown : ∀ f ∈ filter.fields, f ∈ t.columns)
    (hallowed : ∀ f ∈ filter.fields, validateColumnAllowed r f = none) :
    (count r db filter).2 = .ok (Int64.ofNat (t.found filter).length) := by
  have hperm : (sortedFilterFields filter).Perm filter.fields := List.mergeSort_perm _ _
  have hstmt : countStatement r filter = .ok (filterStatement r "COUNT(*)" filter none) :=
    countStatement_ok fun c hc => hallowed c (hperm.mem_iff.mp hc)
  have hans := hdb.queryRow (filterStatement r "COUNT(*)" filter none)
  have hcolumns : (filterStatement r "COUNT(*)" filter none).select.columns.all
      (· ∈ t.columns) = true := by
    rw [List.all_eq_true,columns_filterStatement]
    intro c hc
    simp only [Option.map_none,Option.toList_none,List.append_nil] at hc
    exact decide_eq_true (hknown c (hperm.mem_iff.mp hc))
  rw [Table.Counts,bound_of_numbered (numbered_filterStatement r "COUNT(*)" filter none)] at hans
  simp only [hcolumns,if_true] at hans
  have hfound : (t.rows.filter fun row => (((filterStatement r "COUNT(*)" filter none).select.wheres.map
      Prod.fst).zip (filterStatement r "COUNT(*)" filter none).args).all (t.holds row)) =
        t.found filter := by
    refine List.filter_congr fun row _ => ?_
    rw [← all_sortedFields t filter row [],filterStatement,List.zipIdx_map_fst,List.append_nil]
  rw [count,hstmt]
  dsimp only
  rw [hans,hfound]

theorem numbered_findAll (r : Repository T V) (db : Executor V) (opts : QueryOptions V) :
    ∀ stmt ∈ (findAll r db opts).1, Numbered stmt := by
  by_cases h : ∀ c ∈ opts.columns, validateColumnAllowed r c = none
  · rw [findAll,findAllStatement_ok h]
    simpa [pageStatement] using numbered_pageStatement (r := r) opts.filter opts.sort opts.pagination
  · obtain ⟨err,herr,-⟩ := findAllStatement_error (by simpa using h)
    simp [findAll,herr]

theorem numbered_count (r : Repository T V) (db : Executor V) (filter : Filter V) :
    ∀ stmt ∈ (count r db filter).1, Numbered stmt := by
  by_cases h : ∀ c ∈ sortedFilterFields filter, validateColumnAllowed r c = none
  · rw [count,countStatement_ok h]
    simpa using numbered_filterStatement r "COUNT(*)" filter none
  · obtain ⟨err,herr,-⟩ := countStatement_error (by simpa using h)
    simp [count,herr]

theorem ofNat_toInt {n : ℕ} (h : n < 2^63) : (Int64.ofNat n).toInt = n := by
  have hsize : Int64.size = 2^64 := rfl
  rw [Int64.toInt_ofNat',hsize]
  exact Int.bmod_eq_of_le (by omega) (by omega)

theorem reaches_of_row {n k s : ℕ} (hn : n < 2^63) (h : k*s < n) :
    Reaches n ((k+1 : ℕ) : Int) s := by
  refine .inl ?_
  have hprod : (((k+1 : ℕ) : Int)-1)*(s : Int) = ((k*s : ℕ) : Int) := by
    rw [Nat.cast_add,Nat.cast_one,Int.add_sub_cancel,Nat.cast_mul]
  rw [hprod]
  omega

theorem findAll_existing_page {r : Repository T V} {t : Table V} {db : Executor V}
    {filter : Filter V} {sort : Sorting} (hdb : t.Serves r.dialect db) (h : Asks r t filter sort)
    (hdistinct : t.Distinct sort.field) (hread : ∀ row ∈ t.rows, ∃ e, r.fromRow row = .ok e)
    {pageSize : Int64} (hsize : 1 ≤ pageSize) {k : ℕ}
    (hk : k < (t.found filter).length ⌈/⌉ pageSize.toInt.toNat) :
    (findAll r db ⟨filter,sort,⟨Int64.ofNat (k+1),pageSize⟩⟩).2 =
      scanRows r (slice (t.sorted filter sort) (k+1) pageSize.toInt.toNat) := by
  have hone : (1 : Int64).toInt = 1 := by decide
  have hs : 1 ≤ pageSize.toInt := hone ▸ Int64.le_iff_toInt_le.mp hsize
  have hn := length_found_lt (t := t) filter
  have hrow : k*pageSize.toInt.toNat < (t.found filter).length := by
    rw [Nat.mul_comm]
    exact Nat.lt_of_not_le fun hle => absurd hk
      (Nat.not_lt.mpr ((ceilDiv_le_iff_le_mul (by omega)).mpr hle))
  have hle : k ≤ k*pageSize.toInt.toNat := Nat.le_mul_of_pos_right k (by omega)
  have hpage : (Int64.ofNat (k+1)).toInt = ((k+1 : ℕ) : Int) := ofNat_toInt (by omega)
  have hfirst : 1 ≤ Int64.ofNat (k+1) := by
    rw [Int64.le_iff_toInt_le,hpage,hone]
    omega
  have hreaches := reaches_of_row hn hrow
  have hcast : (pageSize.toInt.toNat : Int) = pageSize.toInt := Int.toNat_of_nonneg (by omega)
  rw [hcast,← hpage] at hreaches
  have hfind := (findAll_page_iff hdb h hdistinct hread hfirst hsize).mpr hreaches
  rwa [hpage,Int.toNat_natCast] at hfind

theorem pages_partition_iff (r : Repository T V) (t : Table V) (db : Executor V)
    (hdb : t.Serves r.dialect db) (filter : Filter V) (sort : Sorting) (h : Asks r t filter sort)
    (hdistinct : t.Distinct sort.field) (hread : ∀ row ∈ t.rows, ∃ e, r.fromRow row = .ok e) :
    (∀ page pageSize : Int64, 1 ≤ page → 1 ≤ pageSize →
      ((findAll r db ⟨filter,sort,⟨page,pageSize⟩⟩).2 =
          scanRows r (slice (t.sorted filter sort) page.toInt.toNat pageSize.toInt.toNat) ↔
        Reaches (t.found filter).length page.toInt pageSize.toInt)) ∧
    (∃ n : ℕ, (count r db filter).2 = .ok (Int64.ofNat n) ∧ n < 2^63 ∧
      ∀ pageSize : Int64, 1 ≤ pageSize →
        (∀ k < n ⌈/⌉ pageSize.toInt.toNat,
          (findAll r db ⟨filter,sort,⟨Int64.ofNat (k+1),pageSize⟩⟩).2 =
            scanRows r (slice (t.sorted filter sort) (k+1) pageSize.toInt.toNat)) ∧
        (∀ k, slice (t.sorted filter sort) (k+1) pageSize.toInt.toNat ≠ [] ↔
          k < n ⌈/⌉ pageSize.toInt.toNat) ∧
        (List.range (n ⌈/⌉ pageSize.toInt.toNat)).flatMap
          (fun k => slice (t.sorted filter sort) (k+1) pageSize.toInt.toNat) =
            t.sorted filter sort ∧ (t.sorted filter sort).Nodup) ∧
    (∀ opts : QueryOptions V, ∀ stmt ∈ (findAll r db opts).1,
      Numbered stmt ∧ ∀ d, stmt.bound d = some stmt.args) ∧
    ∀ f : Filter V, ∀ stmt ∈ (count r db f).1,
      Numbered stmt ∧ ∀ d, stmt.bound d = some stmt.args := by
  have hone : (1 : Int64).toInt = 1 := by decide
  obtain ⟨-,hknown⟩ := List.forall_mem_cons.mp h.known
  obtain ⟨-,hallowed⟩ := List.forall_mem_cons.mp h.allowed
  have hlen : (t.sorted filter sort).length = (t.found filter).length :=
    (sorted_perm filter sort).length_eq
  refine ⟨fun page pageSize hp hs => findAll_page_iff hdb h hdistinct hread hp hs,
    ⟨(t.found filter).length,count_found hdb hknown hallowed,length_found_lt filter,?_⟩,?_,?_⟩
  · intro pageSize hs
    have hpos : 0 < pageSize.toInt.toNat := by
      have hle : 1 ≤ pageSize.toInt := hone ▸ Int64.le_iff_toInt_le.mp hs
      omega
    rw [← hlen]
    refine ⟨fun k hk => ?_,fun k => slice_ne_nil_iff _ hpos,flatMap_slice _ hpos,
      nodup_sorted filter hdistinct⟩
    exact findAll_existing_page hdb h hdistinct hread hs (hlen ▸ hk)
  · intro opts stmt hstmt
    have hnum := numbered_findAll r db opts stmt hstmt
    exact ⟨hnum,bound_of_numbered hnum⟩
  · intro f stmt hstmt
    have hnum := numbered_count r db f stmt hstmt
    exact ⟨hnum,bound_of_numbered hnum⟩

end Results

section Example

variable {V : Type} (t : Table V)

def databaseError : GoError := .text "invalid statement"

namespace Table

-- ties are broken by the order of the table
def arranged (stmt : Statement V) (vals : List (Arg V)) : List (Row V) :=
  let l := t.rows.filter fun row => ((stmt.select.wheres.map Prod.fst).zip vals).all (t.holds row)
  match stmt.select.orderBy with
  | none => l
  | some o => l.mergeSort (t.before o.1 o.2)

def executor (d : Dialect) : Executor V where
  query stmt := match stmt.bound d with
    | none => .error databaseError
    | some vals =>
        if stmt.select.columns.all (· ∈ t.columns) then
          match stmt.select.page,vals.drop stmt.select.wheres.length with
          | none, _ => .ok (t.arranged stmt vals)
          | some _, [.int limit,.int offset] =>
              if 0 ≤ limit.toInt ∧ 0 ≤ offset.toInt then
                .ok (((t.arranged stmt vals).drop offset.toInt.toNat).take limit.toInt.toNat)
              else .error databaseError
          | some _, _ => .error databaseError
        else .error databaseError
  queryRow stmt := match stmt.bound d with
    | none => .error databaseError
    | some vals =>
        if stmt.select.columns.all (· ∈ t.columns) then
          .ok (Int64.ofNat (t.rows.filter fun row =>
            ((stmt.select.wheres.map Prod.fst).zip vals).all (t.holds row)).length)
        else .error databaseError

end Table

theorem arranged_perm (stmt : Statement V) (vals : List (Arg V)) :
    (t.arranged stmt vals).Perm (t.rows.filter fun row =>
      ((stmt.select.wheres.map Prod.fst).zip vals).all (t.holds row)) := by
  unfold Table.arranged
  split
  · exact .refl _
  · exact List.mergeSort_perm _ _

theorem arranged_pairwise (stmt : Statement V) (vals : List (Arg V)) :
    ∀ o ∈ stmt.select.orderBy,
      (t.arranged stmt vals).Pairwise fun a b => t.before o.1 o.2 a b = true := by
  intro o ho
  unfold Table.arranged
  rw [Option.mem_def.mp ho]
  exact List.pairwise_mergeSort (before_trans o.1 o.2) (before_total o.1 o.2) _

theorem serves_executor (d : Dialect) : t.Serves d (t.executor d) := by
  refine ⟨fun stmt => ?_,fun stmt => ?_⟩
  · unfold Table.Answers Table.executor
    cases hbound : stmt.bound d with
    | none => exact ⟨databaseError,by simp only [hbound]⟩
    | some vals =>
      simp only [hbound]
      split_ifs
      · refine ⟨t.arranged stmt vals,arranged_perm t stmt vals,arranged_pairwise t stmt vals,?_⟩
        split
        · rfl
        · split_ifs with hsigns
          · exact if_pos hsigns
          · exact ⟨databaseError,if_neg hsigns⟩
        · rename_i page hpage hrest
          refine ⟨databaseError,?_⟩
          split
          · rename_i heq
            cases heq
          · rename_i limit offset _ heq
            exact absurd heq (hrest limit offset)
          · rfl
      · exact ⟨_,rfl⟩
  · unfold Table.Counts Table.executor
    cases hbound : stmt.bound d with
    | none => exact ⟨databaseError,by simp only [hbound]⟩
    | some vals =>
      simp only [hbound]
      split_ifs
      · rfl
      · exact ⟨_,rfl⟩

def idRow (n : ℕ) : Row ℕ := fun column => if column = "id" then some n else none

def orders : Table ℕ where
  columns := ["id"]
  rows := [idRow 2,idRow 1]
  eq := fun a b => a = b
  le := fun a b => a.getD 0 ≤ b.getD 0
  le_trans := by
    intro a b c hab hbc
    simp only [decide_eq_true_eq] at *
    omega
  le_total := by
    intro a b
    simp only [Bool.or_eq_true,decide_eq_true_eq]
    omega
  counted := by decide

def orderRepository : Repository (Row ℕ) ℕ := ⟨"orders",.postgres,Except.ok,[]⟩

def noFilter : Filter ℕ := ⟨[],by simp⟩

def byId : Sorting := ⟨"id","asc"⟩

theorem orders_asks : Asks orderRepository orders noFilter byId where
  sorts := by decide
  known := by simp [noFilter,Filter.fields,byId,orders]
  allowed := by simp [noFilter,Filter.fields,byId,orderRepository,validateColumnAllowed]

theorem orders_distinct : orders.Distinct "id" := by
  simp [Table.Distinct,orders,idRow]

theorem found_orders : (orders.found noFilter).length = 2 := rfl

theorem second_order_page :
    (findAll orderRepository (orders.executor .postgres) ⟨noFilter,byId,⟨2,1⟩⟩).2 =
      scanRows orderRepository (slice (orders.sorted noFilter byId) 2 1) :=
  ((pages_partition_iff orderRepository orders (orders.executor .postgres)
    (serves_executor orders .postgres) noFilter byId orders_asks orders_distinct
    (fun row _ => ⟨row,rfl⟩)).1 2 1 (by decide) (by decide)).mpr (.inl (by decide))

-- the offset of this page is 2^64
theorem wrapped_page_shows_first_rows :
    ¬ ∀ (t : Table ℕ) (r : Repository (Row ℕ) ℕ) (db : Executor ℕ), t.Serves r.dialect db →
      ∀ (filter : Filter ℕ) (sort : Sorting), Asks r t filter sort → t.Distinct sort.field →
      (∀ row ∈ t.rows, ∃ e, r.fromRow row = .ok e) → ∀ page pageSize : Int64, 1 ≤ page →
      1 ≤ pageSize → (findAll r db ⟨filter,sort,⟨page,pageSize⟩⟩).2 =
        scanRows r (slice (t.sorted filter sort) page.toInt.toNat pageSize.toInt.toNat) := by
  intro h
  have hpage := h orders orderRepository (orders.executor .postgres)
    (serves_executor orders .postgres) noFilter byId orders_asks orders_distinct
    (fun row _ => ⟨row,rfl⟩) 4611686018427387905 4 (by decide) (by decide)
  rw [findAll_page_iff (serves_executor orders .postgres) orders_asks orders_distinct
    (fun row _ => ⟨row,rfl⟩) (by decide) (by decide),found_orders] at hpage
  revert hpage
  unfold Reaches
  decide

end Example

end Nimburion.Persistence.Query
