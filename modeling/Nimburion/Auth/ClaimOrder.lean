import Nimburion.Auth.JwtAcceptance
import Nimburion.Lib.MapOrder

namespace Nimburion.Auth
open GoText MapOrder

section Spellings

variable (lib : Library)

-- the first value that is this text in lower case
def spelling (k : String) (values : List String) : Option String :=
  values.findSome? fun v =>
    if trimSpace v ≠ "" ∧ lib.toLower (trimSpace v) = k then some (trimSpace v) else none

theorem spelling_append (k : String) (values more : List String) :
    spelling lib k (values ++ more) = (spelling lib k values).or (spelling lib k more) :=
  List.findSome?_append

theorem spelling_flatMap {α : Type} (k : String) (l : List α) (f : α → List String) :
    spelling lib k (l.flatMap f) = l.findSome? fun a => spelling lib k (f a) := by
  induction l with
  | nil => rfl
  | cons a l ih =>
    rw [List.flatMap_cons,spelling_append,ih,List.findSome?_cons]
    cases spelling lib k (f a) <;> rfl

variable {lib}

theorem lower_of_spelling {k x : String} {values : List String}
    (h : spelling lib k values = some x) : lib.toLower x = k := by
  obtain ⟨v,_,hv⟩ := List.exists_of_findSome?_eq_some h
  split_ifs at hv with hcond
  cases hv
  exact hcond.2

theorem spelling_cons_same {k v : String} (values : List String)
    (h : trimSpace v ≠ "" ∧ lib.toLower (trimSpace v) = k) :
    spelling lib k (v :: values) = some (trimSpace v) := by
  rw [spelling,List.findSome?_cons,if_pos h]

theorem spelling_cons_other {k v : String} (values : List String)
    (h : ¬(trimSpace v ≠ "" ∧ lib.toLower (trimSpace v) = k)) :
    spelling lib k (v :: values) = spelling lib k values := by
  rw [spelling,List.findSome?_cons,if_neg h]
  rfl

theorem mem_dedupeFrom_iff {seen values : List String} {x : String} :
    x ∈ dedupeFrom lib seen values ↔
      lib.toLower x ∉ seen ∧ spelling lib (lib.toLower x) values = some x := by
  induction values generalizing seen with
  | nil => simp [dedupeFrom,spelling]
  | cons v values ih =>
    simp only [dedupeFrom]
    by_cases hblank : trimSpace v = ""
    · rw [if_pos hblank,ih,spelling_cons_other values (by simp [hblank])]
    rw [if_neg hblank]
    by_cases hkey : lib.toLower (trimSpace v) = lib.toLower x
    · rw [spelling_cons_same values ⟨hblank,hkey⟩,hkey]
      split_ifs with hseen
      · simp [ih,hseen]
      · simp only [List.mem_cons,ih,hseen,not_true_eq_false,false_and,or_false,
          not_false_eq_true,true_and,Option.some.injEq]
        exact eq_comm
    · have hne : x ≠ trimSpace v := fun heq => hkey (by rw [heq])
      rw [spelling_cons_other values (fun h => hkey h.2)]
      split_ifs with hseen
      · exact ih
      · simp [ih,hne,Ne.symm hkey]

theorem mem_dedupeStrings_iff {values : List String} {x : String} :
    x ∈ dedupeStrings lib values ↔ spelling lib (lib.toLower x) values = some x := by
  rw [dedupeStrings,mem_dedupeFrom_iff]
  simp

end Spellings

section Conditions

variable (lib : Library) (mappings : Mappings) (m : MapClaims)

def suffixesOf (claim : String) : List String := claimSuffixes lib claim (mappings.get claim)

-- what a namespaced key offers for a claim with one value
def namespacedValue (claim : String) (p : String × Value) : Option String :=
  if matchesSuffix lib (suffixesOf lib mappings claim) p.1 then usable (some p.2) else none

-- without a usable candidate, the namespaced keys name one value
def OneValue (claim : String) : Prop :=
  fromCandidates m (claim :: mappings.get claim) = none →
    Agree (namespacedValue lib mappings claim) m.entries

def candidateValues (claim : String) (splitOnSpaces : Bool) : List String :=
  candidateTexts m splitOnSpaces (claimCandidates lib claim (mappings.get claim))

def namespacedValues (claim : String) (splitOnSpaces : Bool) : String × Value → List String :=
  namespacedTexts lib (suffixesOf lib mappings claim) splitOnSpaces

-- a text that no candidate has is spelled alike by every namespaced key that has it
def OneSpelling (claim : String) (splitOnSpaces : Bool) : Prop :=
  ∀ k, spelling lib k (candidateValues lib mappings m claim splitOnSpaces) = none →
    Agree (fun p => spelling lib k (namespacedValues lib mappings claim splitOnSpaces p)) m.entries

def permissionTexts : List String :=
  plainPermissions m ++ m.entries.flatMap (namespacedPermissions lib)

def IsPermission (x : String) : Prop := ∃ v ∈ permissionTexts lib m, nonblank v = some x

-- or both spellings are permissions
def OneScopeSpelling : Prop :=
  ∀ k, spelling lib k (candidateValues lib mappings m "scopes" true) = none →
    ∀ p ∈ m.entries, ∀ q ∈ m.entries, ∀ x y,
      spelling lib k (namespacedValues lib mappings "scopes" true p) = some x →
      spelling lib k (namespacedValues lib mappings "scopes" true q) = some y →
      x = y ∨ IsPermission lib m x ∧ IsPermission lib m y

end Conditions

def SameIdentity (a b : Claims) : Prop :=
  a.subject = b.subject ∧ a.issuer = b.issuer ∧ a.tenantID = b.tenantID ∧
    (∀ x, x ∈ a.audience ↔ x ∈ b.audience) ∧ (∀ x, x ∈ a.scopes ↔ x ∈ b.scopes) ∧
    ∀ x, x ∈ a.roles ↔ x ∈ b.roles

section Fields

variable (lib : Library) (mappings : Mappings) (m : MapClaims)

theorem extractClaimByMapping_eq {claim : String} (hclaim : lib.toLower (trimSpace claim) = claim)
    (hne : claim ≠ "") (order : Order m) : extractClaimByMapping lib m order claim mappings =
      match fromCandidates m (claim :: mappings.get claim) with
      | some value => value
      | none => (order.entries.findSome? (namespacedValue lib mappings claim)).getD "" := by
  simp only [extractClaimByMapping,hclaim,hne,if_false]
  cases fromCandidates m (claim :: mappings.get claim) with
  | some value => rfl
  | none =>
    dsimp only
    split_ifs with hnil
    · have hnone : order.entries.findSome? (namespacedValue lib mappings claim) = none := by
        rw [List.findSome?_eq_none_iff]
        intro p _
        simp [namespacedValue,suffixesOf,hnil,matchesSuffix]
      rw [hnone]
      rfl
    · rfl

theorem namespacedValue_ne_empty {claim : String} {p : String × Value} {x : String}
    (h : namespacedValue lib mappings claim p = some x) : x ≠ "" := by
  rw [namespacedValue] at h
  split_ifs at h
  obtain ⟨s,_,hs⟩ := Option.bind_eq_some_iff.mp h
  exact (nonblank_eq_some.mp hs).2

theorem one_value_iff {claim : String} (hclaim : lib.toLower (trimSpace claim) = claim)
    (hne : claim ≠ "") :
    (∀ o o' : Order m, extractClaimByMapping lib m o claim mappings =
      extractClaimByMapping lib m o' claim mappings) ↔ OneValue lib mappings m claim := by
  simp only [extractClaimByMapping_eq lib mappings m hclaim hne,OneValue]
  cases fromCandidates m (claim :: mappings.get claim) with
  | some value => simp
  | none =>
    rw [agree_iff]
    simp only [forall_const]
    have hinj : ∀ o o' : Order m,
        (o.entries.findSome? (namespacedValue lib mappings claim)).getD "" =
          (o'.entries.findSome? (namespacedValue lib mappings claim)).getD "" →
        o.entries.findSome? (namespacedValue lib mappings claim) =
          o'.entries.findSome? (namespacedValue lib mappings claim) := by
      intro o o' heq
      have hsome : ∀ (l : List (String × Value)) x,
          l.findSome? (namespacedValue lib mappings claim) = some x → x ≠ "" := by
        intro l x hx
        obtain ⟨p,_,hp⟩ := List.exists_of_findSome?_eq_some hx
        exact namespacedValue_ne_empty lib mappings hp
      cases hx : o.entries.findSome? (namespacedValue lib mappings claim) with
      | none =>
        cases hy : o'.entries.findSome? (namespacedValue lib mappings claim) with
        | none => rfl
        | some y =>
          rw [hx,hy] at heq
          exact absurd heq.symm (hsome _ y hy)
      | some x =>
        cases hy : o'.entries.findSome? (namespacedValue lib mappings claim) with
        | none =>
          rw [hx,hy] at heq
          exact absurd heq (hsome _ x hx)
        | some y =>
          rw [hx,hy] at heq
          exact congrArg some heq
    exact ⟨fun h l₁ l₂ h₁ h₂ => hinj ⟨l₁,h₁⟩ ⟨l₂,h₂⟩ (h ⟨l₁,h₁⟩ ⟨l₂,h₂⟩),
      fun h o o' => by rw [h o.entries o'.entries o.perm o'.perm]⟩

theorem mem_extracted_iff {claim : String} {splitOnSpaces : Bool}
    (hclaim : lib.toLower (trimSpace claim) = claim) (hne : claim ≠ "") (order : Order m) (x : String) :
    x ∈ extractStringSliceByMapping lib m order claim mappings splitOnSpaces ↔
      Chosen lib.toLower
        (fun k => spelling lib k (candidateValues lib mappings m claim splitOnSpaces))
        (fun k p => spelling lib k (namespacedValues lib mappings claim splitOnSpaces p))
        order.entries x := by
  simp only [extractStringSliceByMapping,hclaim,hne,if_false]
  rw [mem_dedupeStrings_iff,spelling_append,spelling_flatMap]
  rfl

theorem one_spelling_iff {claim : String} {splitOnSpaces : Bool}
    (hclaim : lib.toLower (trimSpace claim) = claim) (hne : claim ≠ "") :
    (∀ o o' : Order m, ∀ x, x ∈ extractStringSliceByMapping lib m o claim mappings splitOnSpaces ↔
      x ∈ extractStringSliceByMapping lib m o' claim mappings splitOnSpaces) ↔
      OneSpelling lib mappings m claim splitOnSpaces := by
  have h := chosen_iff lib.toLower
    (fun k => spelling lib k (candidateValues lib mappings m claim splitOnSpaces))
    (fun k p => spelling lib k (namespacedValues lib mappings claim splitOnSpaces p))
    (fun _ => False) m.entries fun _ _ _ => lower_of_spelling
  simp only [or_false,and_false] at h
  rw [OneSpelling]
  simp only [Agree]
  rw [← h]
  simp only [mem_extracted_iff lib mappings m hclaim hne]
  exact ⟨fun h l₁ l₂ h₁ h₂ => h ⟨l₁,h₁⟩ ⟨l₂,h₂⟩,fun h o o' => h o.entries o'.entries o.perm o'.perm⟩

theorem mem_foldl_addScope {values scopes : List String} {x : String} :
    x ∈ values.foldl addScope scopes ↔ x ∈ scopes ∨ ∃ v ∈ values, nonblank v = some x := by
  induction values generalizing scopes with
  | nil => simp
  | cons v values ih =>
    have hone : x ∈ addScope scopes v ↔ x ∈ scopes ∨ nonblank v = some x := by
      rw [addScope,nonblank_eq_some]
      split_ifs with h
      · refine ⟨Or.inl,?_⟩
        rintro (hx | ⟨hx,hne⟩)
        · exact hx
        · rcases h with hblank | hmem
          · exact absurd (hx.symm.trans hblank) hne
          · exact hx ▸ hmem
      · rw [not_or] at h
        rw [List.mem_append,List.mem_singleton]
        refine or_congr_right ⟨?_,?_⟩
        · rintro rfl
          exact ⟨rfl,h.1⟩
        · exact fun hx => hx.1.symm
    rw [List.foldl_cons,ih,hone]
    simp [or_assoc]

theorem mem_appendPermissions_iff {scopes : List String} (order : Order m) {x : String} :
    x ∈ appendPermissionsAsScopes lib scopes m order ↔ x ∈ scopes ∨ IsPermission lib m x := by
  have hperm : ∀ v, v ∈ order.entries.flatMap (namespacedPermissions lib) ↔
      v ∈ m.entries.flatMap (namespacedPermissions lib) := by
    intro v
    rw [List.mem_flatMap,List.mem_flatMap]
    exact exists_congr fun p => and_congr_left' order.perm.mem_iff
  rw [appendPermissionsAsScopes,mem_foldl_addScope,IsPermission,permissionTexts]
  simp only [List.mem_append,hperm]

theorem one_scope_spelling_iff (hclaim : lib.toLower (trimSpace "scopes") = "scopes") :
    (∀ o o' p p' : Order m, ∀ x,
      x ∈ appendPermissionsAsScopes lib
        (extractStringSliceByMapping lib m o "scopes" mappings true) m p ↔
      x ∈ appendPermissionsAsScopes lib
        (extractStringSliceByMapping lib m o' "scopes" mappings true) m p') ↔
      OneScopeSpelling lib mappings m := by
  have h := chosen_iff lib.toLower
    (fun k => spelling lib k (candidateValues lib mappings m "scopes" true))
    (fun k p => spelling lib k (namespacedValues lib mappings "scopes" true p))
    (IsPermission lib m) m.entries fun _ _ _ => lower_of_spelling
  rw [OneScopeSpelling,← h]
  simp only [mem_appendPermissions_iff,mem_extracted_iff lib mappings m hclaim (by decide)]
  refine ⟨fun h l₁ l₂ h₁ h₂ => ?_,fun h o o' _ _ => h o.entries o'.entries o.perm o'.perm⟩
  exact h ⟨l₁,h₁⟩ ⟨l₂,h₂⟩ ⟨l₁,h₁⟩ ⟨l₂,h₂⟩

end Fields

section Identity

variable (lib : Library)

theorem normalized_names {claim : String}
    (h : claim ∈ ["subject","issuer","audience","scopes","tenant_id","roles"]) :
    lib.toLower (trimSpace claim) = claim ∧ claim ≠ "" := by
  have hplain : PlainName claim := by
    apply plainName_of_mem
    simp only [List.mem_cons,List.not_mem_nil,or_false] at h ⊢
    tauto
  exact ⟨hplain.normalized_eq lib,hplain.ne⟩

def OrderIndependent (mappings : Mappings) (m : MapClaims) : Prop :=
  ∀ o o' : Orders m, SameIdentity (extractClaims lib mappings m o) (extractClaims lib mappings m o')

theorem identity_independent_of_map_order_iff (mappings : Mappings) (m : MapClaims) :
    OrderIndependent lib mappings m ↔
      (∀ claim ∈ ["subject","issuer","tenant_id"], OneValue lib mappings m claim) ∧
      OneSpelling lib mappings m "audience" false ∧ OneSpelling lib mappings m "roles" true ∧
      OneScopeSpelling lib mappings m := by
  obtain ⟨hsub,hsub'⟩ := normalized_names lib (show "subject" ∈ _ by decide)
  obtain ⟨hiss,hiss'⟩ := normalized_names lib (show "issuer" ∈ _ by decide)
  obtain ⟨haud,haud'⟩ := normalized_names lib (show "audience" ∈ _ by decide)
  obtain ⟨hscope,_⟩ := normalized_names lib (show "scopes" ∈ _ by decide)
  obtain ⟨hten,hten'⟩ := normalized_names lib (show "tenant_id" ∈ _ by decide)
  obtain ⟨hrole,hrole'⟩ := normalized_names lib (show "roles" ∈ _ by decide)
  simp only [List.mem_cons,List.not_mem_nil,or_false,forall_eq_or_imp,forall_eq,
    ← one_value_iff lib mappings m hsub hsub',← one_value_iff lib mappings m hiss hiss',
    ← one_value_iff lib mappings m hten hten',← one_spelling_iff lib mappings m haud haud',
    ← one_spelling_iff lib mappings m hrole hrole',← one_scope_spelling_iff lib mappings m hscope]
  constructor
  · intro h
    refine ⟨⟨?_,?_,?_⟩,?_,?_,?_⟩
    · exact fun a b => (h (.all a) (.all b)).1
    · exact fun a b => (h (.all a) (.all b)).2.1
    · exact fun a b => (h (.all a) (.all b)).2.2.1
    · exact fun a b => (h (.all a) (.all b)).2.2.2.1
    · exact fun a b => (h (.all a) (.all b)).2.2.2.2.2
    · exact fun a b p q =>
        (h { Orders.all a with permissions := p } { Orders.all b with permissions := q }).2.2.2.2.1
  · rintro ⟨⟨hsubject,hissuer,htenant⟩,haudience,hroles,hscopes⟩ o o'
    exact ⟨hsubject _ _,hissuer _ _,htenant _ _,haudience _ _,hscopes _ _ _ _,hroles _ _⟩

-- two issuers under two namespaces
def twoIssuers : MapClaims where
  entries := [("https://a.example/iss",.string "https://a.example"),
    ("https://b.example/iss",.string "https://b.example")]
  nodup := by decide

theorem issuer_depends_on_map_order : ¬ OrderIndependent asciiLibrary defaultMappings twoIssuers := by
  intro h
  have hissuer := (h (.all ⟨twoIssuers.entries,List.Perm.refl _⟩)
    (.all ⟨twoIssuers.entries.reverse,List.reverse_perm _⟩)).2.1
  revert hissuer
  decide +kernel

end Identity

end Nimburion.Auth
