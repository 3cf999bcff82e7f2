import Nimburion.Auth.JwtAcceptance
import Nimburion.HTTP.Identity
import Nimburion.Lib.MapOrder

namespace Nimburion.HTTP.Authorization
open GoText Auth Identity MapOrder
open HTTP.Cache (Header)

variable (lib : Library) (matchString : String → String → Except GoError Bool)

section Policy

abbrev Attrs := String → Option String

structure Subject where
  id : String
  tenantID : String
  scopes : List String
  roles : List String
  attrs : Attrs

inductive ScopeLogic where
  | and
  | or
  deriving DecidableEq, Repr

def normalizeFrom (seen : List String) : List String → List String
  | [] => []
  | value :: values =>
      if trimSpace value = "" ∨ trimSpace value ∈ seen then normalizeFrom seen values
      else trimSpace value :: normalizeFrom (trimSpace value :: seen) values

def normalizeStrings (values : List String) : List String := normalizeFrom [] values

def evaluateScopes (subject : Subject) (scopes : List String) (logic : ScopeLogic) : Bool :=
  let requiredScopes := normalizeStrings scopes
  if requiredScopes = [] then true
  else match logic with
    | .or => requiredScopes.any (normalizeStrings subject.scopes).contains
    | .and => requiredScopes.all (normalizeStrings subject.scopes).contains

structure ClaimRule where
  claim : String
  aliases : List String
  source : String
  key : String
  operator : String
  values : List String
  optional : Bool
  deriving DecidableEq, Repr

-- only the log shows which
inductive RuleError where
  | keyRequired
  | unsupportedSource (source : String)
  | patternRequired
  | pattern (err : GoError)
  | unsupportedOperator
  deriving DecidableEq, Repr

def unlessEmpty (value : String) : Option String := if value = "" then none else some value

def subjectAttribute (subject : Subject) (candidate : String) : Option String :=
  match lib.toLower (trimSpace candidate) with
  | "tenant_id" => unlessEmpty subject.tenantID
  | "subject" => unlessEmpty subject.id
  | "roles" => joined "," subject.roles
  | "scopes" => joined " " subject.scopes
  | _ => unlessEmpty (trimSpace ((subject.attrs (trimSpace candidate)).getD ""))

def resolveSubjectValue (subject : Subject) (name : String) (aliases : List String) : String :=
  ((name :: aliases).findSome? (subjectAttribute lib subject)).getD ""

inductive Operator where
  | required
  | equals
  | oneOf
  | regex
  | unsupported (name : String)
  deriving DecidableEq, Repr

def operatorName (rule : ClaimRule) : String :=
  let operator := lib.toLower (trimSpace rule.operator)
  if operator = "" then "required" else operator

def ruleOperator (rule : ClaimRule) : Operator :=
  match operatorName lib rule with
  | "required" => .required
  | "equals" => .equals
  | "one_of" => .oneOf
  | "regex" => .regex
  | name => .unsupported name

def evaluateClaimRule (subject : Subject) (resolver : String → String → Except RuleError String)
    (rule : ClaimRule) : Except RuleError Bool :=
  let claimValue := resolveSubjectValue lib subject rule.claim rule.aliases
  match ruleOperator lib rule with
  | .required => .ok (claimValue ≠ "")
  | .equals => match resolver rule.source rule.key with
    | .error err => .error err
    | .ok expected => .ok (claimValue ≠ "" && claimValue = expected)
  | .oneOf =>
      if claimValue = "" then .ok false
      else .ok (rule.values.any fun candidate => claimValue = trimSpace candidate)
  | .regex =>
      if claimValue = "" then .ok false
      else match rule.values with
        | [] => .error .patternRequired
        | pattern :: _ =>
            if trimSpace pattern = "" then .error .patternRequired
            else match matchString (trimSpace pattern) claimValue with
              | .error err => .error (.pattern err)
              | .ok matched => .ok matched
  | .unsupported _ => .error .unsupportedOperator

end Policy

section Subject

def claimToString : Value → Option String
  | .string s => nonblank s
  | .number text => some text
  | .bool b => some (toString b)
  | _ => none

structure MappingTable where
  entries : Mappings
  nodup : (entries.map Prod.fst).Nodup

-- the orders of the two loops that build one subject
structure SubjectOrder (a : Authenticated) (mappings : MappingTable) where
  custom : Order a.custom
  visited : Mappings
  perm : visited.Perm mappings.entries

def customValue (entry : String × Value) (_ : Attrs) : Option String := claimToString entry.2

def mappedValue (entry : String × List String) (attrs : Attrs) : Option String :=
  entry.2.findSome? fun name => (attrs name).bind unlessEmpty

def subjectFromClaimsWithMappings (a : Authenticated) (mappings : MappingTable)
    (order : SubjectOrder a mappings) : Subject where
  id := trimSpace a.claims.subject
  tenantID := trimSpace a.claims.tenantID
  scopes := a.claims.scopes
  roles := a.claims.roles
  attrs := order.visited.foldl (write Prod.fst mappedValue)
    (order.custom.entries.foldl (write Prod.fst customValue) fun _ => none)

-- what the two loops are for: each mapped claim has the value of its first alias in the token
def canonicalSubject (a : Authenticated) (mappings : MappingTable) : Subject where
  id := trimSpace a.claims.subject
  tenantID := trimSpace a.claims.tenantID
  scopes := a.claims.scopes
  roles := a.claims.roles
  attrs name := (mappings.entries.findSome? fun entry => if entry.1 = name then
      mappedValue entry fun name => (a.custom.get name).bind claimToString else none).or
    ((a.custom.get name).bind claimToString)

-- no canonical name is an alias in the list of another one
def MappingTable.Separate (mappings : MappingTable) : Prop :=
  ∀ entry ∈ mappings.entries, ∀ other ∈ mappings.entries, entry.1 ∈ other.2 → entry.1 = other.1

theorem customAttrs_eq (a : Authenticated) (order : Order a.custom) :
    order.entries.foldl (write Prod.fst customValue) (fun _ => none) =
      fun name => (a.custom.get name).bind claimToString := by
  funext name
  have happart : Apart Prod.fst customValue a.custom.entries := fun _ _ _ _ _ => rfl
  rw [foldl_write_perm a.nodup happart (fun _ _ => rfl) order.perm name,Option.or_none]
  exact findSome?_key_eq_lookup a.nodup claimToString name

theorem apart_of_separate {mappings : MappingTable} (hsep : mappings.Separate) :
    Apart Prod.fst mappedValue mappings.entries := by
  intro entry hentry s s' hsame
  refine findSome?_congr fun name hname => ?_
  have hread : s name = s' name := hsame name fun other hother hkey =>
    (hsep other hother entry hentry (hkey ▸ hname)).symm.trans hkey
  rw [hread]

theorem subject_eq_canonical {a : Authenticated} {mappings : MappingTable} (hsep : mappings.Separate)
    (order : SubjectOrder a mappings) :
    subjectFromClaimsWithMappings a mappings order = canonicalSubject a mappings := by
  have hattrs : (subjectFromClaimsWithMappings a mappings order).attrs =
      (canonicalSubject a mappings).attrs := by
    funext name
    simp only [subjectFromClaimsWithMappings,canonicalSubject,customAttrs_eq]
    exact foldl_write_perm mappings.nodup (apart_of_separate hsep) (fun _ _ => rfl) order.perm name
  simp only [subjectFromClaimsWithMappings,canonicalSubject] at hattrs ⊢
  rw [hattrs]

end Subject

section Guard

def valueFromSource (r : Request) (source key : String) : Except RuleError String :=
  if trimSpace key = "" then .error .keyRequired
  else match lib.toLower (trimSpace source) with
    | "route" => .ok (trimSpace (r.param (trimSpace key)))
    | "header" => .ok (trimSpace (r.header.get (canonicalMIMEHeaderKey (trimSpace key))))
    | "query" => .ok (trimSpace (r.query (trimSpace key)))
    | _ => .error (.unsupportedSource source)

-- every rule builds the subject again, in an order of its own
def guardRules (r : Request) (subject : ℕ → Subject) : ℕ → List ClaimRule → Except Answer Request
  | _, [] => .ok r
  | k, rule :: rules =>
      if trimSpace rule.claim = "" then guardRules r subject (k+1) rules
      else match evaluateClaimRule lib matchString (subject k) (valueFromSource lib r) rule with
        | .error _ => .error (.error 403 "claim evaluation failed")
        | .ok ok =>
            if ok || rule.optional then guardRules r subject (k+1) rules
            else .error (.error 403 ("claim guard failed for " ++ trimSpace rule.claim ++
              " with operator " ++ trimSpace rule.operator))

def claimsGuard (mappings : MappingTable) (rules : List ClaimRule)
    (orders : ℕ → (a : Authenticated) → SubjectOrder a mappings) : Middleware := fun r =>
  match r.claims with
  | none => .error (.error 401 "missing authentication")
  | some a => guardRules lib matchString r
      (fun k => subjectFromClaimsWithMappings a mappings (orders k a)) 0 rules

structure ClaimsConfig where
  rules : List ClaimRule
  mappings : MappingTable

def claimRulesFromConfig (cfg : ClaimsConfig) : List ClaimRule :=
  cfg.rules.filterMap fun rule =>
    if trimSpace rule.claim = "" then none
    else some { rule with
      claim := trimSpace rule.claim
      operator := operatorName lib rule
      source := lib.toLower (trimSpace rule.source) }

-- the meaning of a rule for the value its claim has
def Passes (r : Request) (value : String) (rule : ClaimRule) : Prop :=
  match ruleOperator lib rule with
  | .required => value ≠ "" ∨ rule.optional = true
  | .equals => ∃ expected, valueFromSource lib r rule.source rule.key = .ok expected ∧
      (value ≠ "" ∧ value = expected ∨ rule.optional = true)
  | .oneOf => value ≠ "" ∧ (∃ candidate ∈ rule.values, value = trimSpace candidate) ∨
      rule.optional = true
  | .regex => value = "" ∧ rule.optional = true ∨ value ≠ "" ∧
      ∃ pattern rest matched, rule.values = pattern :: rest ∧ trimSpace pattern ≠ "" ∧
        matchString (trimSpace pattern) value = .ok matched ∧ (matched || rule.optional) = true
  | .unsupported _ => False

theorem evaluate_passes_iff (r : Request) (subject : Subject) (rule : ClaimRule) :
    (∃ ok, evaluateClaimRule lib matchString subject (valueFromSource lib r) rule = .ok ok ∧
      (ok || rule.optional) = true) ↔
    Passes lib matchString r (resolveSubjectValue lib subject rule.claim rule.aliases) rule := by
  unfold evaluateClaimRule Passes
  generalize resolveSubjectValue lib subject rule.claim rule.aliases = value
  cases ruleOperator lib rule with
  | required =>
    by_cases hempty : value = ""
    · simp [hempty]
    · simp [hempty]
  | equals =>
    cases valueFromSource lib r rule.source rule.key with
    | error err => simp
    | ok expected => simp
  | oneOf =>
    by_cases hempty : value = ""
    · simp [hempty]
    · simp [hempty]
  | regex =>
    by_cases hempty : value = ""
    · simp [hempty]
    · simp only [hempty,↓reduceIte]
      cases rule.values with
      | nil => simp
      | cons pattern rest =>
        by_cases hblank : trimSpace pattern = ""
        · simp [hblank]
        · cases hmatch : matchString (trimSpace pattern) value with
          | error err => simp [hempty,hblank,hmatch]
          | ok matched => cases matched <;> simp [hempty,hblank,hmatch]
  | unsupported name => simp

theorem guardRules_cons_eq_ok_iff (r : Request) (subject : ℕ → Subject) (rule : ClaimRule)
    (rules : List ClaimRule) (k : ℕ) (r' : Request) :
    guardRules lib matchString r subject k (rule :: rules) = .ok r' ↔
      (trimSpace rule.claim ≠ "" → Passes lib matchString r
        (resolveSubjectValue lib (subject k) rule.claim rule.aliases) rule) ∧
      guardRules lib matchString r subject (k+1) rules = .ok r' := by
  rw [← evaluate_passes_iff lib matchString r (subject k) rule,guardRules]
  by_cases hblank : trimSpace rule.claim = ""
  · simp [hblank]
  · rw [if_neg hblank]
    cases evaluateClaimRule lib matchString (subject k) (valueFromSource lib r) rule with
    | error err => simp [hblank]
    | ok ok =>
      have hpasses : (∃ o, (.ok ok : Except RuleError Bool) = .ok o ∧ (o || rule.optional) = true) ↔
          (ok || rule.optional) = true := by simp
      dsimp only
      by_cases hok : (ok || rule.optional) = true
      · rw [if_pos hok]
        exact ⟨fun h => ⟨fun _ => hpasses.mpr hok,h⟩,fun h => h.2⟩
      · rw [if_neg hok]
        exact ⟨nofun,fun h => absurd (hpasses.mp (h.1 hblank)) hok⟩

theorem guardRules_eq_ok_iff (r : Request) (subject : ℕ → Subject) {fixed : Subject}
    (hfixed : ∀ k, subject k = fixed) (rules : List ClaimRule) (k : ℕ) (r' : Request) :
    guardRules lib matchString r subject k rules = .ok r' ↔ r' = r ∧
      ∀ rule ∈ rules, trimSpace rule.claim ≠ "" →
        Passes lib matchString r (resolveSubjectValue lib fixed rule.claim rule.aliases) rule := by
  induction rules generalizing k with
  | nil =>
    rw [guardRules,Except.ok.injEq]
    exact ⟨fun h => ⟨h.symm,nofun⟩,fun h => h.1.symm⟩
  | cons rule rules ih =>
    rw [guardRules_cons_eq_ok_iff,ih (k+1),hfixed k,List.forall_mem_cons]
    tauto

end Guard

theorem claims_guard_passes_iff (mappings : MappingTable) (hsep : mappings.Separate)
    (rules : List ClaimRule) (orders orders' : ℕ → (a : Authenticated) → SubjectOrder a mappings)
    (r r' : Request) :
    claimsGuard lib matchString mappings rules orders r =
      claimsGuard lib matchString mappings rules orders' r ∧
    (claimsGuard lib matchString mappings rules orders r = .ok r' ↔
      r' = r ∧ ∃ a, r.claims = some a ∧ ∀ rule ∈ rules, trimSpace rule.claim ≠ "" →
        Passes lib matchString r (resolveSubjectValue lib (canonicalSubject a mappings)
          rule.claim rule.aliases) rule) := by
  unfold claimsGuard
  cases r.claims with
  | none => simp
  | some a =>
    have hfixed : ∀ (orders : ℕ → (a : Authenticated) → SubjectOrder a mappings) (k : ℕ),
        subjectFromClaimsWithMappings a mappings (orders k a) = canonicalSubject a mappings :=
      fun orders k => subject_eq_canonical hsep (orders k a)
    constructor
    · simp only [hfixed]
    · simp only [guardRules_eq_ok_iff lib matchString r _ (hfixed orders),Option.some.injEq,
        exists_eq_left']

def tenantTable : MappingTable := ⟨[("tenant",["org","tenant"])],List.nodup_singleton _⟩

def listed (mappings : MappingTable) : ℕ → (a : Authenticated) → SubjectOrder a mappings :=
  fun _ a => ⟨⟨a.custom.entries,.refl _⟩,mappings.entries,.refl _⟩

def member : Authenticated :=
  ⟨⟨"u1","",[],[],"",[],[("org",.string "acme")]⟩,List.nodup_singleton _⟩

def memberRequest : Request := ⟨[("X-Org",["acme"])],fun _ => "",fun _ => "",some member,none⟩

def tenantRules : List ClaimRule :=
  claimRulesFromConfig asciiLibrary ⟨[⟨"tenant",[],"Header","x-org","Equals",[],false⟩],tenantTable⟩

theorem member_passes_tenant_guard :
    tenantTable.Separate ∧ claimsGuard asciiLibrary (fun _ _ => .ok false) tenantTable tenantRules
      (listed tenantTable) memberRequest = .ok memberRequest := by
  have hsep : tenantTable.Separate := by
    intro entry hentry other hother _
    rw [List.mem_singleton.mp hentry,List.mem_singleton.mp hother]
  have hrules : tenantRules = [⟨"tenant",[],"header","x-org","equals",[],false⟩] := by decide +kernel
  refine ⟨hsep,(claims_guard_passes_iff asciiLibrary _ tenantTable hsep tenantRules (listed tenantTable)
    (listed tenantTable) memberRequest memberRequest).2.mpr ⟨rfl,member,rfl,fun rule hrule _ => ?_⟩⟩
  rw [hrules] at hrule
  obtain rfl := List.mem_singleton.mp hrule
  have hoperator : ruleOperator asciiLibrary ⟨"tenant",[],"header","x-org","equals",[],false⟩ = .equals := by
    decide +kernel
  rw [Passes,hoperator]
  exact ⟨"acme",by decide +kernel,.inl ⟨by decide +kernel,by decide +kernel⟩⟩

section Scopes

variable (validate : String → Except GoError Authenticated)

def noMappings : MappingTable := ⟨[],List.nodup_nil⟩

def requireScopesWithLogic (logic : ScopeLogic) (requiredScopes : List String)
    (orders : (a : Authenticated) → SubjectOrder a noMappings) : Middleware := fun r =>
  match r.claims with
  | none => .error (.error 401 "missing authentication")
  | some a =>
      if evaluateScopes (subjectFromClaimsWithMappings a noMappings (orders a)) requiredScopes logic then
        .ok r
      else .error (.insufficient requiredScopes (if logic = .or then "any" else "all"))

def Holds (scopes : List String) (required : String) : Prop :=
  ∃ scope ∈ scopes, trimSpace scope = trimSpace required

-- blank scopes are not asked for
def Granted (logic : ScopeLogic) (requiredScopes scopes : List String) : Prop :=
  match logic with
  | .and => ∀ required ∈ requiredScopes, trimSpace required ≠ "" → Holds scopes required
  | .or => (∀ required ∈ requiredScopes, trimSpace required = "") ∨
      ∃ required ∈ requiredScopes, trimSpace required ≠ "" ∧ Holds scopes required

theorem mem_normalizeFrom_iff {seen values : List String} {x : String} :
    x ∈ normalizeFrom seen values ↔ x ≠ "" ∧ x ∉ seen ∧ ∃ value ∈ values, trimSpace value = x := by
  induction values generalizing seen with
  | nil => simp [normalizeFrom]
  | cons value values ih =>
    rw [normalizeFrom]
    split
    · next hskip =>
      rw [ih]
      constructor
      · rintro ⟨hne,hseen,other,hother,hx⟩
        exact ⟨hne,hseen,other,List.mem_cons_of_mem _ hother,hx⟩
      · rintro ⟨hne,hseen,other,hother,hx⟩
        rcases List.mem_cons.mp hother with rfl | hother
        · rw [hx] at hskip
          exact absurd hskip (not_or.mpr ⟨hne,hseen⟩)
        · exact ⟨hne,hseen,other,hother,hx⟩
    · next hkeep =>
      obtain ⟨hblank,hfresh⟩ := not_or.mp hkeep
      rw [List.mem_cons,ih]
      constructor
      · rintro (rfl | ⟨hne,hseen,other,hother,hx⟩)
        · exact ⟨hblank,hfresh,value,List.mem_cons_self,rfl⟩
        · exact ⟨hne,fun hmem => hseen (List.mem_cons_of_mem _ hmem),other,
            List.mem_cons_of_mem _ hother,hx⟩
      · rintro ⟨hne,hseen,other,hother,hx⟩
        by_cases hfirst : x = trimSpace value
        · exact .inl hfirst
        · rcases List.mem_cons.mp hother with rfl | hother
          · exact absurd hx.symm hfirst
          · refine .inr ⟨hne,fun hmem => ?_,other,hother,hx⟩
            rcases List.mem_cons.mp hmem with heq | hmem
            · exact hfirst heq
            · exact hseen hmem

theorem mem_normalizeStrings_iff {values : List String} {x : String} :
    x ∈ normalizeStrings values ↔ x ≠ "" ∧ ∃ value ∈ values, trimSpace value = x := by
  rw [normalizeStrings,mem_normalizeFrom_iff]
  simp

theorem holds_iff {scopes : List String} {required : String} (h : trimSpace required ≠ "") :
    trimSpace required ∈ normalizeStrings scopes ↔ Holds scopes required := by
  rw [mem_normalizeStrings_iff,Holds,and_iff_right h]

theorem evaluateScopes_iff (subject : Subject) (requiredScopes : List String) (logic : ScopeLogic) :
    evaluateScopes subject requiredScopes logic = true ↔
      Granted logic requiredScopes subject.scopes := by
  have hall : (∀ x ∈ normalizeStrings requiredScopes, x ∈ normalizeStrings subject.scopes) ↔
      ∀ required ∈ requiredScopes, trimSpace required ≠ "" → Holds subject.scopes required := by
    constructor
    · intro h required hmem hne
      exact (holds_iff hne).mp (h _ (mem_normalizeStrings_iff.mpr ⟨hne,required,hmem,rfl⟩))
    · intro h x hx
      obtain ⟨hne,required,hmem,rfl⟩ := mem_normalizeStrings_iff.mp hx
      exact (holds_iff hne).mpr (h required hmem hne)
  have hany : (∃ x ∈ normalizeStrings requiredScopes, x ∈ normalizeStrings subject.scopes) ↔
      ∃ required ∈ requiredScopes, trimSpace required ≠ "" ∧ Holds subject.scopes required := by
    constructor
    · rintro ⟨x,hx,hheld⟩
      obtain ⟨hne,required,hmem,rfl⟩ := mem_normalizeStrings_iff.mp hx
      exact ⟨required,hmem,hne,(holds_iff hne).mp hheld⟩
    · rintro ⟨required,hmem,hne,hheld⟩
      exact ⟨_,mem_normalizeStrings_iff.mpr ⟨hne,required,hmem,rfl⟩,(holds_iff hne).mpr hheld⟩
  have hnil : normalizeStrings requiredScopes = [] ↔
      ∀ required ∈ requiredScopes, trimSpace required = "" := by
    rw [List.eq_nil_iff_forall_not_mem]
    constructor
    · intro h required hmem
      by_contra hne
      exact h _ (mem_normalizeStrings_iff.mpr ⟨hne,required,hmem,rfl⟩)
    · intro h x hx
      obtain ⟨hne,required,hmem,rfl⟩ := mem_normalizeStrings_iff.mp hx
      exact hne (h required hmem)
  unfold evaluateScopes
  by_cases hempty : normalizeStrings requiredScopes = []
  · cases logic with
    | and => simp [hempty,Granted,← hall]
    | or => simp [hempty,Granted,← hnil]
  · cases logic with
    | and => simpa [hempty,Granted] using hall
    | or => simpa [hempty,Granted,← hnil] using hany

theorem protected_reached_iff (logic : ScopeLogic) (requiredScopes : List String)
    (orders : (a : Authenticated) → SubjectOrder a noMappings) (r r' : Request) :
    (authenticate validate r >>= requireScopesWithLogic logic requiredScopes orders) = .ok r' ↔
      ∃ token a, ' ' ∉ token.toList ∧ r.header.get "Authorization" = "Bearer " ++ token ∧
        validate token = .ok a ∧ r' = setClaims a r ∧
        Granted logic requiredScopes a.claims.scopes := by
  constructor
  · intro h
    cases hauth : authenticate validate r with
    | error answer =>
      rw [hauth] at h
      cases h
    | ok r₁ =>
      obtain ⟨token,a,hspace,hheader,hvalid,rfl⟩ := (authenticate_eq_ok_iff validate).mp hauth
      rw [hauth] at h
      by_cases hscopes : evaluateScopes (subjectFromClaimsWithMappings a noMappings (orders a))
          requiredScopes logic = true
      · simp only [bind,Except.bind,requireScopesWithLogic,setClaims,hscopes,↓reduceIte,
          Except.ok.injEq] at h
        exact ⟨token,a,hspace,hheader,hvalid,h.symm,(evaluateScopes_iff _ _ _).mp hscopes⟩
      · simp [bind,Except.bind,requireScopesWithLogic,setClaims,hscopes] at h
  · rintro ⟨token,a,hspace,hheader,hvalid,rfl,hgranted⟩
    have hauth := (authenticate_eq_ok_iff validate).mpr ⟨token,a,hspace,hheader,hvalid,rfl⟩
    have hscopes : evaluateScopes (subjectFromClaimsWithMappings a noMappings (orders a))
        requiredScopes logic = true := (evaluateScopes_iff _ _ _).mpr hgranted
    rw [hauth]
    simp [bind,Except.bind,requireScopesWithLogic,setClaims,hscopes]

end Scopes

end Nimburion.HTTP.Authorization
