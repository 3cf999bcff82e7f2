import Nimburion.HTTP.CacheKey

namespace Nimburion.HTTP.Cache
open GoTime GoText QueryEscape

def Request.tenantID (r : Request) : String :=
  (r.claims.map fun claims => trimSpace claims.tenantID).getD ""

def Request.subject (r : Request) : String :=
  (r.claims.map fun claims => trimSpace claims.subject).getD ""

section Dimensions

variable (lib : Library)

def accepted (r : Request) (rules : List KeyRule) : Bool :=
  rules.all fun rule => (resolveRuleValue lib r rule).isSome || rule.optional

end Dimensions

section Text

end Text

section Keys

variable {lib : Library} {cfg : Config} {r r₁ r₂ : Request} {rules : List KeyRule} {key : String}

theorem toList_intercalate (a : String) (parts : List String) :
    (":".intercalate (a :: parts)).toList = a.toList ++ parts.flatMap fun p => ':' :: p.toList := by
  induction parts generalizing a with
  | nil => simp
  | cons p parts ih =>
    rw [String.intercalate_cons_cons,String.toList_append,String.toList_append,ih]
    simp

end Keys

section Separation

variable {lib : Library} {cfg : Config} {r r₁ r₂ : Request} {rules : List KeyRule}
  {reads : KeyRule → Bool} {val : Request → String}

end Separation

end Nimburion.HTTP.Cache
