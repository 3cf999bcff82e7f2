import Mathlib.Data.String.Basic
import Mathlib.Data.List.Infix
import Mathlib.Data.List.Perm.Basic
import Mathlib.Tactic.Common

namespace Nimburion.Health

-- a string type in the source: a checker may answer with any other text
inductive Status where
  | healthy
  | unhealthy
  | degraded
  | other (text : String)
  deriving DecidableEq, Repr

structure CheckResult where
  name : String
  status : Status
  message : String
  error : String
  deriving DecidableEq, Repr

-- a checker that is no composite is what it answers
inductive Checker where
  | probe (result : CheckResult)
  | composite (name : String) (checkers : List Checker)

-- the two loops over results keep the overall status the same way
def combine (overall status : Status) : Status :=
  if status = .unhealthy then .unhealthy
  else if status = .degraded ∧ overall = .healthy then .degraded
  else overall

def overall (results : List CheckResult) : Status :=
  results.foldl (fun status result => combine status result.status) .healthy

def failures (results : List CheckResult) : List String :=
  results.filterMap fun result =>
    if result.status = .unhealthy ∧ result.error ≠ "" then some (result.name ++ ": " ++ result.error)
    else none

def compositeResult (name : String) (results : List CheckResult) : CheckResult where
  name := name
  status := overall results
  message := if failures results = [] ∧ overall results = .healthy then "All sub-checks passed" else ""
  error := if failures results ≠ [] then
    "sub-checks failed: [" ++ " ".intercalate (failures results) ++ "]" else ""

mutual

def Checker.check : Checker → CheckResult
  | .probe result => result
  | .composite name checkers => compositeResult name (checkAll checkers)

def checkAll : List Checker → List CheckResult
  | [] => []
  | c :: checkers => c.check :: checkAll checkers

end

structure Registry where
  checkers : List (String × Checker)

namespace Registry

def register (r : Registry) (name : String) (checker : Checker) : Registry where
  checkers := (name,checker) :: r.checkers.filter fun c => c.1 ≠ name

def unregister (r : Registry) (name : String) : Registry where
  checkers := r.checkers.filter fun c => c.1 ≠ name

def results (r : Registry) : List CheckResult := r.checkers.map fun c => c.2.check

end Registry

structure AggregatedResult where
  status : Status
  checks : List CheckResult

namespace AggregatedResult

def isHealthy (r : AggregatedResult) : Bool := r.status = .healthy

def isReady (r : AggregatedResult) : Bool := r.status ≠ .unhealthy

end AggregatedResult

-- the results come in from their goroutines in any order
def aggregate (arrival : List CheckResult) : AggregatedResult := ⟨overall arrival,arrival⟩

mutual

def Checker.leaves : Checker → List CheckResult
  | .probe result => [result]
  | .composite _ checkers => leavesAll checkers

def leavesAll : List Checker → List CheckResult
  | [] => []
  | c :: checkers => c.leaves ++ leavesAll checkers

end

def Registry.leaves (r : Registry) : List CheckResult := r.checkers.flatMap fun c => c.2.leaves

section Severity

def severity : Status → ℕ
  | .unhealthy => 2
  | .degraded => 1
  | _ => 0

def worst (results : List CheckResult) : ℕ :=
  (results.map fun result => severity result.status).foldr max 0

@[simp]
theorem worst_nil : worst [] = 0 := rfl

@[simp]
theorem worst_cons (result : CheckResult) (results : List CheckResult) :
    worst (result :: results) = max (severity result.status) (worst results) := rfl

theorem worst_append (xs ys : List CheckResult) : worst (xs ++ ys) = max (worst xs) (worst ys) := by
  induction xs with
  | nil => simp
  | cons x xs ih => rw [List.cons_append,worst_cons,worst_cons,ih,Nat.max_assoc]

theorem worst_perm {xs ys : List CheckResult} (h : xs.Perm ys) : worst xs = worst ys := by
  induction h with
  | nil => rfl
  | cons x _ ih => rw [worst_cons,worst_cons,ih]
  | swap x y l => rw [worst_cons,worst_cons,worst_cons,worst_cons,Nat.max_left_comm]
  | trans _ _ ih₁ ih₂ => exact ih₁.trans ih₂

theorem worst_lt_iff (results : List CheckResult) {n : ℕ} (hn : 0 < n) :
    worst results < n ↔ ∀ result ∈ results, severity result.status < n := by
  induction results with
  | nil => simpa using hn
  | cons result results ih => rw [worst_cons,Nat.max_lt,ih,List.forall_mem_cons]

-- the statuses that the loops themselves put in
def Plain (status : Status) : Prop := ∀ text, status ≠ .other text

theorem combine_plain {status : Status} (h : Plain status) (other : Status) :
    Plain (combine status other) ∧
      severity (combine status other) = max (severity status) (severity other) := by
  unfold combine
  split_ifs with hu hd
  · subst hu
    refine ⟨nofun,?_⟩
    cases status <;> simp [severity]
  · obtain ⟨rfl,rfl⟩ := hd
    exact ⟨nofun,rfl⟩
  · refine ⟨h,?_⟩
    cases status with
    | other text => exact absurd rfl (h text)
    | healthy | degraded | unhealthy => cases other <;> simp_all [severity]

theorem overall_spec (results : List CheckResult) :
    Plain (overall results) ∧ severity (overall results) = worst results := by
  have hfold : ∀ status, Plain status →
      Plain (results.foldl (fun s r => combine s r.status) status) ∧
        severity (results.foldl (fun s r => combine s r.status) status) =
          max (severity status) (worst results) := by
    induction results with
    | nil => exact fun status h => ⟨h,by simp⟩
    | cons result results ih =>
      intro status h
      obtain ⟨hplain,hmax⟩ := combine_plain h result.status
      rw [List.foldl_cons,worst_cons,← Nat.max_assoc,← hmax]
      exact ih _ hplain
  obtain ⟨hplain,hmax⟩ := hfold .healthy nofun
  exact ⟨hplain,hmax.trans (Nat.zero_max _)⟩

theorem unhealthy_iff {status : Status} : severity status < 2 ↔ status ≠ .unhealthy := by
  cases status <;> simp [severity]

theorem sound_iff {status : Status} :
    severity status < 1 ↔ status ≠ .unhealthy ∧ status ≠ .degraded := by
  cases status <;> simp [severity]

end Severity

mutual

theorem severity_check : (c : Checker) → severity c.check.status = worst c.leaves
  | .probe result => by simp [Checker.check,Checker.leaves]
  | .composite name checkers => by
    have hspec : severity (compositeResult name (checkAll checkers)).status = _ :=
      (overall_spec (checkAll checkers)).2
    rw [Checker.check,hspec,Checker.leaves,worst_checkAll checkers]

theorem worst_checkAll : (checkers : List Checker) → worst (checkAll checkers) = worst (leavesAll checkers)
  | [] => rfl
  | c :: checkers => by
    rw [checkAll,leavesAll,worst_cons,worst_append,severity_check c,worst_checkAll checkers]

end

section Reports

theorem infix_intercalate {text : String} {texts : List String} (h : text ∈ texts) :
    text.toList <:+: (" ".intercalate texts).toList := by
  induction texts with
  | nil => exact nomatch h
  | cons first texts ih =>
    cases texts with
    | nil => rw [List.mem_singleton.mp h,String.intercalate_singleton]
    | cons second texts =>
      rw [String.intercalate_cons_cons,String.toList_append,String.toList_append]
      rcases List.mem_cons.mp h with rfl | hrest
      · exact List.infix_append_of_infix_left List.infix_append_left
      · exact List.infix_append_of_infix_right (ih hrest)

-- a check that fails with an error has the error of a failed sub-check in its own
structure Reports (result leaf : CheckResult) : Prop where
  status : result.status = .unhealthy
  error : leaf.error.toList <:+: result.error.toList

theorem error_ne_empty {result leaf : CheckResult} (h : Reports result leaf) (hleaf : leaf.error ≠ "") :
    result.error ≠ "" := by
  intro hempty
  have hpart := h.error
  rw [hempty] at hpart
  exact hleaf (String.toList_eq_nil_iff.mp (List.infix_nil.mp hpart))

theorem overall_unhealthy {results : List CheckResult} {result : CheckResult} (h : result ∈ results)
    (hstatus : result.status = .unhealthy) : overall results = .unhealthy := by
  by_contra hne
  have hlt := unhealthy_iff.mpr hne
  rw [(overall_spec results).2,worst_lt_iff results (by decide)] at hlt
  exact unhealthy_iff.mp (hlt result h) hstatus

theorem reports_composite {name : String} {results : List CheckResult} {result leaf : CheckResult}
    (hmem : result ∈ results) (h : Reports result leaf) (hleaf : leaf.error ≠ "") :
    Reports (compositeResult name results) leaf := by
  have hfailure : result.name ++ ": " ++ result.error ∈ failures results := by
    refine List.mem_filterMap.mpr ⟨result,hmem,?_⟩
    rw [if_pos ⟨h.status,error_ne_empty h hleaf⟩]
  refine ⟨overall_unhealthy hmem h.status,?_⟩
  have hne : failures results ≠ [] := List.ne_nil_of_mem hfailure
  have hpart : leaf.error.toList <:+: (result.name ++ ": " ++ result.error).toList := by
    rw [String.toList_append]
    exact List.infix_append_of_infix_right h.error
  simp only [compositeResult,hne,ne_eq,not_false_eq_true,↓reduceIte,String.toList_append]
  exact List.infix_append_of_infix_left (List.infix_append_of_infix_right
    (hpart.trans (infix_intercalate hfailure)))

end Reports

mutual

theorem reports_check : (c : Checker) → ∀ leaf ∈ c.leaves, leaf.status = .unhealthy →
    leaf.error ≠ "" → Reports c.check leaf
  | .probe result, leaf, hmem, hstatus, _ => by
    rw [Checker.leaves,List.mem_singleton] at hmem
    subst hmem
    rw [Checker.check]
    exact ⟨hstatus,List.infix_rfl⟩
  | .composite name checkers, leaf, hmem, hstatus, hleaf => by
    rw [Checker.leaves] at hmem
    obtain ⟨result,hresult,hreports⟩ := reports_checkAll checkers leaf hmem hstatus hleaf
    rw [Checker.check]
    exact reports_composite hresult hreports hleaf

theorem reports_checkAll : (checkers : List Checker) → ∀ leaf ∈ leavesAll checkers,
    leaf.status = .unhealthy → leaf.error ≠ "" → ∃ result ∈ checkAll checkers, Reports result leaf
  | [], leaf, hmem, _, _ => nomatch hmem
  | c :: checkers, leaf, hmem, hstatus, hleaf => by
    rw [leavesAll] at hmem
    rw [checkAll]
    rcases List.mem_append.mp hmem with hc | hrest
    · exact ⟨c.check,List.mem_cons_self,reports_check c leaf hc hstatus hleaf⟩
    · obtain ⟨result,hresult,hreports⟩ := reports_checkAll checkers leaf hrest hstatus hleaf
      exact ⟨result,List.mem_cons_of_mem _ hresult,hreports⟩

end

theorem worst_results (r : Registry) : worst r.results = worst r.leaves := by
  obtain ⟨checkers⟩ := r
  simp only [Registry.results,Registry.leaves]
  induction checkers with
  | nil => rfl
  | cons c checkers ih =>
    rw [List.map_cons,List.flatMap_cons,worst_cons,worst_append,severity_check,ih]

theorem aggregate_severity (r : Registry) {arrival : List CheckResult} (h : arrival.Perm r.results) :
    severity (aggregate arrival).status = worst r.leaves :=
  (overall_spec arrival).2.trans ((worst_perm h).trans (worst_results r))

theorem aggregate_isReady_iff (r : Registry) {arrival : List CheckResult} (h : arrival.Perm r.results) :
    (aggregate arrival).isReady = true ↔ ∀ leaf ∈ r.leaves, leaf.status ≠ .unhealthy := by
  rw [AggregatedResult.isReady,decide_eq_true_iff,← unhealthy_iff,aggregate_severity r h,
    worst_lt_iff _ (by decide)]
  exact forall₂_congr fun _ _ => unhealthy_iff

theorem aggregate_isHealthy_iff (r : Registry) {arrival : List CheckResult} (h : arrival.Perm r.results) :
    (aggregate arrival).isHealthy = true ↔
      ∀ leaf ∈ r.leaves, leaf.status ≠ .unhealthy ∧ leaf.status ≠ .degraded := by
  have hplain := (overall_spec arrival).1
  have hiff : (aggregate arrival).status = .healthy ↔ severity (aggregate arrival).status < 1 := by
    change overall arrival = _ ↔ severity (overall arrival) < 1
    cases hs : overall arrival with
    | other text => exact absurd hs (hplain text)
    | healthy | degraded | unhealthy => simp [severity]
  rw [AggregatedResult.isHealthy,decide_eq_true_iff,hiff,aggregate_severity r h,
    worst_lt_iff _ (by decide)]
  exact forall₂_congr fun _ _ => sound_iff

theorem health_reports_every_failure (r : Registry) (arrival : List CheckResult)
    (harrival : arrival.Perm r.results) :
    ((aggregate arrival).isReady = true ↔ ∀ leaf ∈ r.leaves, leaf.status ≠ .unhealthy) ∧
      ((aggregate arrival).isHealthy = true ↔
        ∀ leaf ∈ r.leaves, leaf.status ≠ .unhealthy ∧ leaf.status ≠ .degraded) ∧
      ∀ leaf ∈ r.leaves, leaf.status = .unhealthy → leaf.error ≠ "" →
        ∃ result ∈ (aggregate arrival).checks, result.status = .unhealthy ∧
          leaf.error.toList <:+: result.error.toList := by
  refine ⟨aggregate_isReady_iff r harrival,aggregate_isHealthy_iff r harrival,
    fun leaf hmem hstatus hleaf => ?_⟩
  obtain ⟨⟨name,c⟩,hc,hleaves⟩ := List.mem_flatMap.mp hmem
  have hreports := reports_check c leaf hleaves hstatus hleaf
  exact ⟨c.check,harrival.mem_iff.mpr (List.mem_map.mpr ⟨(name,c),hc,rfl⟩),hreports.status,hreports.error⟩

def brokenDatabase : CheckResult := ⟨"postgres",.unhealthy,"","connection refused"⟩

def nested : Registry :=
  ⟨[("storage",.composite "storage" [.composite "sql" [.probe brokenDatabase]]),
    ("ping",.probe ⟨"ping",.healthy,"Service is alive",""⟩)]⟩

theorem health_reports_nested_failure :
    nested.results.reverse.Perm nested.results ∧ (aggregate nested.results.reverse).isReady = false ∧
      ∃ result ∈ nested.results.reverse, result.status = .unhealthy ∧
        brokenDatabase.error.toList <:+: result.error.toList :=
  ⟨List.reverse_perm _,by decide,
    (health_reports_every_failure nested _ (List.reverse_perm _)).2.2 brokenDatabase
      (by decide) rfl (by decide)⟩

end Nimburion.Health
