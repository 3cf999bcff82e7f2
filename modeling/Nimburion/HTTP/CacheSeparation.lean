import Nimburion.HTTP.CacheDimensions

namespace Nimburion.HTTP.Cache
open GoTime GoText QueryEscape

def noClaims : Claims := ⟨"","","",[],[],fun _ => none⟩

-- the same request from another caller
def Request.by (r : Request) (subject tenantID : String) : Request :=
  { r with claims := some { r.claims.getD noClaims with subject, tenantID } }

def Request.scopeHash (lib : Library) (r : Request) : String :=
  Cache.scopeHash lib (r.claims.getD noClaims).scopes

section Callers

variable {lib : Library} {r : Request} {rule : KeyRule} {s t : String}

end Callers

section Collisions

variable {lib : Library} {cfg : Config} {r r₁ r₂ : Request} {rules : List KeyRule}
  {reads : KeyRule → Bool} {val : Request → String}

end Collisions

section Examples

end Examples

end Nimburion.HTTP.Cache
