import Nimburion.Lib.GoText
import Nimburion.Lib.Transition
import Mathlib.Data.String.Basic

namespace Nimburion.FeatureFlag
open Transition GoText

inductive Kind where
  | bool
  | string
  | int
  deriving DecidableEq, Repr

def Kind.text : Kind → String
  | .bool => "bool"
  | .string => "string"
  | .int => "int"

inductive Source where
  | default
  | provider
  | safeDefault
  deriving DecidableEq, Repr

structure TargetContext where
  appName : String
  environment : String
  userID : String
  tenantID : String
  attributes : List (String × String)
  deriving DecidableEq, Repr

structure Event where
  key : String
  kind : Kind
  source : Source
  outcome : String
  error : String
  target : TargetContext
  deriving DecidableEq, Repr

inductive Float64 where
  | nan
  | inf (negative : Bool)
  | finite (q : Rat)
  deriving DecidableEq, Repr

-- what a provider answers; `other` is a value of any type without a case, such as uint8(7) or
-- time.Duration(7), under the name that %T prints and with the whole number it is, if it is one
inductive Raw where
  | bool (b : Bool)
  | string (s : String)
  | int (n : Int64)
  | int32 (n : Int32)
  | int64 (n : Int64)
  | float64 (x : Float64)
  | other (type : String) (number : Option ℤ)
  deriving DecidableEq, Repr

def Raw.type : Raw → String
  | .bool _ => "bool"
  | .string _ => "string"
  | .int _ => "int"
  | .int32 _ => "int32"
  | .int64 _ => "int64"
  | .float64 _ => "float64"
  | .other type _ => type

abbrev Provider := String → TargetContext → Except String (Option Raw)

structure Definition (α : Type) where
  key : String
  default : α
  description : String
  deriving DecidableEq, Repr

structure Evaluation (α : Type) where
  key : String
  kind : Kind
  value : α
  default : α
  source : Source
  description : String
  target : TargetContext
  error : String
  deriving DecidableEq, Repr

structure Registry where
  provider : Option Provider
  boolDefinitions : String → Option (Definition Bool)
  stringDefinitions : String → Option (Definition String)
  intDefinitions : String → Option (Definition Int64)

def newRegistry : Registry := ⟨none,fun _ => none,fun _ => none,fun _ => none⟩

section Casts

-- float64(math.MaxInt) is the next number above math.MaxInt
def maxIntFloat : ℤ := 9223372036854775808

def minIntFloat : ℤ := -9223372036854775808

-- the language leaves open what int(value) is for the one value above the range that passes the test
variable (above : Int64)

def castFloat64 : Float64 → Except String Int64
  | .nan => .error "expected int value, got non-integer float64"
  | .inf _ => .error "expected int value, got out-of-range float64"
  | .finite q =>
      if q.den ≠ 1 then .error "expected int value, got non-integer float64"
      else if q.num > maxIntFloat ∨ q.num < minIntFloat then
        .error "expected int value, got out-of-range float64"
      else if q.num = maxIntFloat then .ok above
      else .ok (Int64.ofInt q.num)

def castInt : Raw → Except String Int64
  | .int n => .ok n
  | .int32 n => .ok n.toInt64
  | .int64 n => .ok n
  | .float64 x => castFloat64 above x
  | raw => .error ("expected int value, got " ++ raw.type)

end Casts

-- the three Eval functions, apart from the definitions they read and the cast
def evaluate {α : Type} (kind : Kind) (zero : α) (cast : Raw → Except String α)
    (definitions : String → Option (Definition α)) (provider : Option Provider) (key : String)
    (target : TargetContext) : Evaluation α × Event :=
  let answer (d : Definition α) (value : α) (source : Source) (outcome error : String) :=
    ((⟨key,kind,value,d.default,source,d.description,target,error⟩ : Evaluation α),
      (⟨key,kind,source,outcome,error,target⟩ : Event))
  match definitions key with
  | none =>
      let error := "feature flag " ++ quote key ++ " is not registered"
      (⟨key,kind,zero,zero,.default,"",target,error⟩,
        ⟨key,kind,.safeDefault,"unregistered",error,target⟩)
  | some d => match provider with
    | none => answer d d.default .default "default_used" ""
    | some lookup => match lookup key target with
      | .error err => answer d d.default .safeDefault "provider_error" err
      | .ok none => answer d d.default .default "not_found" ""
      | .ok (some raw) => match cast raw with
        | .error err =>
            answer d d.default .safeDefault "type_mismatch" ("feature flag " ++ quote key ++ " " ++ err)
        | .ok value => answer d value .provider "provider_value" ""

namespace Registry

variable (r : Registry)

def evalInt (above : Int64) (key : String) (target : TargetContext) : Evaluation Int64 × Event :=
  evaluate .int 0 (castInt above) r.intDefinitions r.provider key target

def already (key : String) (kind : Kind) : String :=
  "feature flag " ++ quote key ++ " already registered as " ++ kind.text

def validateRegistration (key : String) (kind : Kind) : Option String :=
  if key = "" then some "feature flag key is required"
  else if kind ≠ .bool ∧ (r.boolDefinitions key).isSome then some (already key .bool)
  else if kind ≠ .string ∧ (r.stringDefinitions key).isSome then some (already key .string)
  else if kind ≠ .int ∧ (r.intDefinitions key).isSome then some (already key .int)
  else none

end Registry

def put {α : Type} (definitions : String → Option (Definition α)) (d : Definition α) :
    String → Option (Definition α) :=
  fun key => if key = d.key then some d else definitions key

inductive Op where
  | setProvider (provider : Option Provider)
  | registerBool (d : Definition Bool)
  | registerString (d : Definition String)
  | registerInt (d : Definition Int64)

-- the sections under the lock that write; a registration that is refused writes nothing
def Registry.apply (r : Registry) : Op → Registry
  | .setProvider provider => { r with provider := provider }
  | .registerBool d =>
      if (r.validateRegistration d.key .bool).isSome then r
      else { r with boolDefinitions := put r.boolDefinitions d }
  | .registerString d =>
      if (r.validateRegistration d.key .string).isSome then r
      else { r with stringDefinitions := put r.stringDefinitions d }
  | .registerInt d =>
      if (r.validateRegistration d.key .int).isSome then r
      else { r with intDefinitions := put r.intDefinitions d }

def Registry.step (r : Registry) (op : Op) : Option Registry := some (r.apply op)

inductive Described where
  | bool (default : Bool) (description : String)
  | string (default : String) (description : String)
  | int (default : Int64) (description : String)
  deriving DecidableEq, Repr

def Described.kind : Described → Kind
  | .bool _ _ => .bool
  | .string _ _ => .string
  | .int _ _ => .int

-- the three loops write into one map, the later over the earlier
def Registry.snapshot (r : Registry) (key : String) : Option Described :=
  match r.intDefinitions key with
  | some d => some (.int d.default d.description)
  | none => match r.stringDefinitions key with
    | some d => some (.string d.default d.description)
    | none => (r.boolDefinitions key).map fun d => .bool d.default d.description

section Kinds

-- what a registration says under a key; without a key it is refused
def Op.about (key : String) : Op → Option Described
  | .setProvider _ => none
  | .registerBool d => if d.key = key ∧ key ≠ "" then some (.bool d.default d.description) else none
  | .registerString d => if d.key = key ∧ key ≠ "" then some (.string d.default d.description) else none
  | .registerInt d => if d.key = key ∧ key ≠ "" then some (.int d.default d.description) else none

-- the kind that came first stays, and of the registrations of that kind the last counts
def registered (ops : List Op) (key : String) : Option Described :=
  let named := ops.filterMap (Op.about key)
  named.head?.bind fun first => (named.filter fun x => x.kind = first.kind).getLast?

def write (x : Option Described) : Option Described → Option Described
  | none => x
  | some new => match x with
    | none => some new
    | some old => if new.kind = old.kind then some new else some old

-- the three maps are what one table has under the key
def Described.bool? (key : String) : Described → Option (Definition Bool)
  | .bool default description => some ⟨key,default,description⟩
  | _ => none

def Described.string? (key : String) : Described → Option (Definition String)
  | .string default description => some ⟨key,default,description⟩
  | _ => none

def Described.int? (key : String) : Described → Option (Definition Int64)
  | .int default description => some ⟨key,default,description⟩
  | _ => none

structure Tabled (r : Registry) (key : String) (x : Option Described) : Prop where
  bool : r.boolDefinitions key = x.bind (Described.bool? key)
  string : r.stringDefinitions key = x.bind (Described.string? key)
  int : r.intDefinitions key = x.bind (Described.int? key)

variable {r r' : Registry} {key : String} {kind : Kind} {op : Op} {x : Option Described}

theorem Tabled.snapshot (h : Tabled r key x) : r.snapshot key = x := by
  rw [Registry.snapshot,h.bool,h.string,h.int]
  cases x with
  | none => rfl
  | some y => cases y <;> rfl

theorem Tabled.validateRegistration (h : Tabled r key x) (hkey : key ≠ "") :
    (r.validateRegistration key kind).isSome = x.any fun y => y.kind ≠ kind := by
  simp only [Registry.validateRegistration,h.bool,h.string,h.int,hkey,if_false]
  cases x with
  | none => simp
  | some y => cases y <;> cases kind <;> rfl

theorem validateRegistration_empty (r : Registry) (kind : Kind) :
    (r.validateRegistration "" kind).isSome = true := rfl

theorem put_self {α : Type} (definitions : String → Option (Definition α)) (d : Definition α) :
    put definitions d d.key = some d := by
  simp [put]

theorem put_other {α : Type} (definitions : String → Option (Definition α)) {d : Definition α}
    (h : d.key ≠ key) : put definitions d key = definitions key := by
  simp [put,h.symm]

theorem ne_of_about_eq_none {k : String} (hv : ¬ (r.validateRegistration k kind).isSome)
    (habout : ¬ (k = key ∧ key ≠ "")) : k ≠ key := by
  rintro rfl
  have hempty : k = "" := by simpa using habout
  subst hempty
  exact hv (validateRegistration_empty r kind)

theorem Tabled.other (h : Tabled r key x) (hop : op.about key = none) : Tabled (r.apply op) key x := by
  cases op with
  | setProvider provider => exact ⟨h.bool,h.string,h.int⟩
  | registerBool d =>
    simp only [Op.about,ite_eq_right_iff,reduceCtorEq,imp_false] at hop
    simp only [Registry.apply]
    split_ifs with hv
    · exact h
    · exact ⟨(put_other _ (ne_of_about_eq_none hv hop)).trans h.bool,h.string,h.int⟩
  | registerString d =>
    simp only [Op.about,ite_eq_right_iff,reduceCtorEq,imp_false] at hop
    simp only [Registry.apply]
    split_ifs with hv
    · exact h
    · exact ⟨h.bool,(put_other _ (ne_of_about_eq_none hv hop)).trans h.string,h.int⟩
  | registerInt d =>
    simp only [Op.about,ite_eq_right_iff,reduceCtorEq,imp_false] at hop
    simp only [Registry.apply]
    split_ifs with hv
    · exact h
    · exact ⟨h.bool,h.string,(put_other _ (ne_of_about_eq_none hv hop)).trans h.int⟩

theorem Tabled.registerBool {d : Definition Bool} (h : Tabled r d.key x) (hkey : d.key ≠ "") :
    Tabled (r.apply (.registerBool d)) d.key (write x (some (.bool d.default d.description))) := by
  simp only [Registry.apply,h.validateRegistration hkey]
  rcases x with _ | (⟨default,description⟩ | ⟨default,description⟩ | ⟨default,description⟩)
  · exact ⟨put_self _ d,h.string,h.int⟩
  · exact ⟨put_self _ d,h.string,h.int⟩
  · exact h
  · exact h

theorem Tabled.registerString {d : Definition String} (h : Tabled r d.key x) (hkey : d.key ≠ "") :
    Tabled (r.apply (.registerString d)) d.key
      (write x (some (.string d.default d.description))) := by
  simp only [Registry.apply,h.validateRegistration hkey]
  rcases x with _ | (⟨default,description⟩ | ⟨default,description⟩ | ⟨default,description⟩)
  · exact ⟨h.bool,put_self _ d,h.int⟩
  · exact h
  · exact ⟨h.bool,put_self _ d,h.int⟩
  · exact h

theorem Tabled.registerInt {d : Definition Int64} (h : Tabled r d.key x) (hkey : d.key ≠ "") :
    Tabled (r.apply (.registerInt d)) d.key (write x (some (.int d.default d.description))) := by
  simp only [Registry.apply,h.validateRegistration hkey]
  rcases x with _ | (⟨default,description⟩ | ⟨default,description⟩ | ⟨default,description⟩)
  · exact ⟨h.bool,h.string,put_self _ d⟩
  · exact h
  · exact h
  · exact ⟨h.bool,h.string,put_self _ d⟩

theorem Tabled.apply (h : Tabled r key x) (op : Op) :
    Tabled (r.apply op) key (write x (op.about key)) := by
  cases habout : op.about key with
  | none => exact h.other habout
  | some y =>
    cases op with
    | setProvider provider => cases habout
    | registerBool d =>
      simp only [Op.about,Option.ite_none_right_eq_some,Option.some.injEq] at habout
      obtain ⟨⟨rfl,hkey⟩,rfl⟩ := habout
      exact h.registerBool hkey
    | registerString d =>
      simp only [Op.about,Option.ite_none_right_eq_some,Option.some.injEq] at habout
      obtain ⟨⟨rfl,hkey⟩,rfl⟩ := habout
      exact h.registerString hkey
    | registerInt d =>
      simp only [Op.about,Option.ite_none_right_eq_some,Option.some.injEq] at habout
      obtain ⟨⟨rfl,hkey⟩,rfl⟩ := habout
      exact h.registerInt hkey

theorem Tabled.run {ops : List Op} (h : Tabled r key x)
    (hrun : run Registry.step ops r = some r') :
    Tabled r' key (ops.foldl (fun x op => write x (op.about key)) x) := by
  induction ops generalizing r x with
  | nil =>
    rw [Transition.run,Option.some.injEq] at hrun
    exact hrun ▸ h
  | cons op ops ih => exact ih (h.apply op) hrun

end Kinds

-- the whole number that a value stands for
def Raw.integer : Raw → Option ℤ
  | .int n => some n.toInt
  | .int32 n => some n.toInt
  | .int64 n => some n.toInt
  | .float64 (.finite q) => if q.den = 1 then some q.num else none
  | .other _ number => number
  | _ => none

-- either the number the provider has, or the default beside an error
def Faithful (d : Definition Int64) (raw : Raw) (e : Evaluation Int64) : Prop :=
  (e.source = .provider ∧ e.error = "" ∧ raw.integer = some e.value.toInt) ∨
    (e.source = .safeDefault ∧ e.error ≠ "" ∧ e.value = d.default ∧
      ∀ z, raw.integer = some z → ¬ (minIntFloat ≤ z ∧ z < maxIntFloat))

-- neither the float64 2^63 nor a number that fits but is of a type the conversion has no case for
def Converts : Raw → Prop
  | .float64 x => x ≠ .finite maxIntFloat
  | .other _ (some z) => ¬ (minIntFloat ≤ z ∧ z < maxIntFloat)
  | _ => True

section Integers

variable (above : Int64) (raw : Raw)

theorem castInt_finite {q : Rat} (hq : q ≠ maxIntFloat) :
    (∀ n, castInt above (.float64 (.finite q)) = .ok n →
      (Raw.float64 (.finite q)).integer = some n.toInt) ∧
    (∀ err z, castInt above (.float64 (.finite q)) = .error err →
      (Raw.float64 (.finite q)).integer = some z → ¬ (minIntFloat ≤ z ∧ z < maxIntFloat)) := by
  simp only [castInt,castFloat64,Raw.integer]
  by_cases hden : q.den = 1
  · have hnum : q.num ≠ maxIntFloat := by
      intro hnum
      apply hq
      rw [← Rat.num_divInt_den q,hden,hnum]
      rfl
    simp only [hden,ne_eq,not_true,↓reduceIte,hnum,Option.some.injEq]
    by_cases hrange : q.num > maxIntFloat ∨ q.num < minIntFloat
    · simp only [hrange,↓reduceIte]
      refine ⟨nofun,fun err z _ hz => ?_⟩
      omega
    · simp only [hrange,↓reduceIte,Except.ok.injEq]
      refine ⟨fun n hn => ?_,nofun⟩
      obtain ⟨hlow,hhigh⟩ := not_or.mp hrange
      unfold maxIntFloat at hlow hnum
      unfold minIntFloat at hhigh
      rw [← hn,Int64.toInt_ofInt_of_le (by omega) (by omega)]
  · simp [hden]

theorem castInt_spec (h : Converts raw) :
    (∀ n, castInt above raw = .ok n → raw.integer = some n.toInt) ∧
    (∀ err z, castInt above raw = .error err → raw.integer = some z → ¬ (minIntFloat ≤ z ∧ z < maxIntFloat)) := by
  cases raw with
  | float64 x =>
    cases x with
    | finite q => exact castInt_finite above fun hq => h (hq ▸ rfl)
    | nan | inf => exact ⟨nofun,nofun⟩
  | int n | int32 n | int64 n => simp [castInt,Raw.integer]
  | bool | string => exact ⟨nofun,nofun⟩
  | other type number =>
    refine ⟨nofun,fun err z _ hz => ?_⟩
    cases (hz : number = some z)
    exact h

end Integers

theorem int_flags_faithful_iff (r : Registry) (key : String) (target : TargetContext) (above : Int64)
    (d : Definition Int64) (lookup : Provider) (raw : Raw) (hflag : r.intDefinitions key = some d)
    (hprovider : r.provider = some lookup) (hfound : lookup key target = .ok (some raw)) :
    Faithful d raw (r.evalInt above key target).1 ↔ Converts raw := by
  simp only [Registry.evalInt,evaluate,hflag,hprovider,hfound]
  constructor
  · intro h
    cases raw with
    | bool | string | int | int32 | int64 => trivial
    | float64 x =>
      rintro rfl
      have hcast : castInt above (.float64 (.finite maxIntFloat)) = .ok above := rfl
      simp only [hcast] at h
      rcases h with ⟨-,-,hvalue⟩ | ⟨hsource,-⟩
      · have hinteger : (Raw.float64 (.finite maxIntFloat)).integer = some maxIntFloat := rfl
        have hsame : maxIntFloat = above.toInt := Option.some.inj (hinteger.symm.trans hvalue)
        have hlt := above.toInt_lt
        unfold maxIntFloat at hsame
        omega
      · exact nomatch hsource
    | other type number =>
      cases number with
      | none => trivial
      | some z =>
        rcases h with ⟨hsource,-⟩ | ⟨-,-,-,hfits⟩
        · exact nomatch hsource
        · exact hfits z rfl
  · intro h
    obtain ⟨hok,herr⟩ := castInt_spec above raw h
    cases hcast : castInt above raw with
    | ok n => exact .inl ⟨rfl,rfl,hok n hcast⟩
    | error err =>
      refine .inr ⟨rfl,?_,rfl,fun z => herr err z hcast⟩
      simp

def limits : Registry :=
  (newRegistry.apply (.registerInt ⟨"limit",10,""⟩)).apply
    (.setProvider (some fun _ _ => .ok (some (.float64 (.finite 25)))))

def bytes : Registry :=
  limits.apply (.setProvider (some fun _ _ => .ok (some (.other "uint8" (some 7)))))

-- 25 as a float64 is served, 7 as a uint8 is not
theorem limit_flag_faithful : Faithful ⟨"limit",10,""⟩ (.float64 (.finite 25))
      (limits.evalInt 0 "limit" ⟨"","","","",[]⟩).1 ∧
    ¬ Faithful ⟨"limit",10,""⟩ (.other "uint8" (some 7)) (bytes.evalInt 0 "limit" ⟨"","","","",[]⟩).1 := by
  refine ⟨(int_flags_faithful_iff limits "limit" ⟨"","","","",[]⟩ 0 ⟨"limit",10,""⟩ _ _ rfl rfl rfl).mpr
    (by simp only [Converts,ne_eq]; decide),fun h => ?_⟩
  have hfits := (int_flags_faithful_iff bytes "limit" ⟨"","","","",[]⟩ 0 ⟨"limit",10,""⟩ _ _ rfl rfl
    rfl).mp h
  simp [Converts,minIntFloat,maxIntFloat] at hfits

end Nimburion.FeatureFlag
