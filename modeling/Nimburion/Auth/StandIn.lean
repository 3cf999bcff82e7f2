import Nimburion.Auth.ClaimOrder

namespace Nimburion.Auth
open GoText MapOrder

section StandIn

variable (lib : Library) (m : MapClaims)

def IssNames (issuer : String) : Prop :=
  ∃ s, m.get "iss" = some (.string s) ∧ trimSpace s = issuer

def AudNames (audience : String) : Prop :=
  ∃ value, m.get "aud" = some value ∧ audience ∈ value.texts false

-- under issuer, which is asked before iss, or without both under a namespaced key; no issuer at all
-- passes for the empty one
def IssuerElsewhere (issuer : String) : Prop :=
  match usable (m.get "issuer"),usable (m.get "iss") with
  | some value,own => value = issuer ∧ own ≠ some issuer
  | none,some _ => False
  | none,none =>
      (∃ p ∈ m.entries, matchesSuffix lib ["/iss","/issuer"] p.1 = true ∧
        usable (some p.2) = some issuer) ∨
      (issuer = "" ∧ ¬ IssNames m "" ∧ ∀ p ∈ m.entries,
        matchesSuffix lib ["/iss","/issuer"] p.1 = true → usable (some p.2) = none)

-- the list keeps the first spelling of each audience, that of audience and aud before the others
def Reaches (audience : String) : Prop :=
  match spelling lib (lib.toLower audience) (candidateTexts m false ["audience","aud"]) with
  | some first => first = audience
  | none => ∃ p ∈ m.entries, spelling lib (lib.toLower audience)
      (namespacedTexts lib ["/aud","/audience"] false p) = some audience

def AudienceElsewhere (audience : String) : Prop := Reaches lib m audience ∧ ¬ AudNames m audience

variable {lib m} {issuer audience : String}

theorem usable_eq_some_iff (hne : issuer ≠ "") :
    usable (m.get "iss") = some issuer ↔ IssNames m issuer := by
  unfold usable IssNames
  cases m.get "iss" with
  | none => simp
  | some value => cases value <;> simp [Value.asString,nonblank_eq_some,hne]

theorem ne_empty_of_usable {value : Option Value} {s : String} (h : usable value = some s) : s ≠ "" := by
  obtain ⟨t,_,ht⟩ := Option.bind_eq_some_iff.mp h
  exact (nonblank_eq_some.mp ht).2

theorem issuerElsewhere_iff :
    IssuerElsewhere lib m issuer ↔ IssuedBy lib m issuer ∧ ¬ IssNames m issuer := by
  unfold IssuerElsewhere IssuedBy
  cases hissuer : usable (m.get "issuer") with
  | some value =>
    refine and_congr_right fun heq => not_congr ?_
    exact usable_eq_some_iff (heq ▸ ne_empty_of_usable hissuer)
  | none =>
    cases hiss : usable (m.get "iss") with
    | some value =>
      simp only [false_iff,not_and,not_not]
      rintro rfl
      exact (usable_eq_some_iff (ne_empty_of_usable hiss)).mp hiss
    | none =>
      have hother : ∀ s, s ≠ "" → ¬ IssNames m s := by
        intro s hne hnames
        rw [← usable_eq_some_iff hne,hiss] at hnames
        cases hnames
      constructor
      · rintro (⟨p,hp,hmatch,hvalue⟩ | ⟨rfl,hblank,hnone⟩)
        · exact ⟨.inl ⟨p,hp,hmatch,hvalue⟩,hother _ (ne_empty_of_usable hvalue)⟩
        · exact ⟨.inr ⟨rfl,hnone⟩,hblank⟩
      · rintro ⟨hfound | ⟨rfl,hnone⟩,hnames⟩
        · exact .inl hfound
        · exact .inr ⟨rfl,hnames,hnone⟩

end StandIn

section Orders

variable (lib : Library) (m : MapClaims) (issuer audience : String)

theorem exists_order_issuer (h : IssuedBy lib m issuer) :
    ∃ order : Order m, extractClaimByMapping lib m order "issuer" defaultMappings = issuer := by
  obtain ⟨hname,hne⟩ := normalized_names lib (show "issuer" ∈ _ by decide)
  have haliases : Mappings.get defaultMappings "issuer" = ["iss"] := by
    simp [Mappings.get,defaultMappings,List.lookup_cons]
  simp only [extractClaimByMapping_eq lib defaultMappings m hname hne,haliases,fromCandidates_issuer]
  have hvalue : ∀ p : String × Value, namespacedValue lib defaultMappings "issuer" p =
      if matchesSuffix lib ["/iss","/issuer"] p.1 then usable (some p.2) else none := by
    intro p
    rw [namespacedValue,suffixesOf,haliases,suffixes_issuer]
  unfold IssuedBy at h
  cases hissuer : usable (m.get "issuer") with
  | some value =>
    rw [hissuer] at h
    exact ⟨⟨m.entries,List.Perm.refl _⟩,h⟩
  | none =>
    cases hiss : usable (m.get "iss") with
    | some value =>
      rw [hissuer,hiss] at h
      exact ⟨⟨m.entries,List.Perm.refl _⟩,h⟩
    | none =>
      rw [hissuer,hiss] at h
      rcases h with ⟨p,hp,hmatch,hfound⟩ | ⟨rfl,hnone⟩
      · obtain ⟨r,hr⟩ := exists_perm_head hp
        have hhead : namespacedValue lib defaultMappings "issuer" p = some issuer := by
          rw [hvalue,if_pos hmatch,hfound]
        refine ⟨⟨p :: r,hr⟩,?_⟩
        simp only [Option.none_or,findSome?_eq_of_head hhead,Option.getD_some]
      · refine ⟨⟨m.entries,List.Perm.refl _⟩,?_⟩
        have hempty : m.entries.findSome? (namespacedValue lib defaultMappings "issuer") = none := by
          rw [List.findSome?_eq_none_iff]
          intro p hp
          rw [hvalue]
          split_ifs with hmatch
          · exact hnone p hp hmatch
          · rfl
        simp only [Option.none_or,hempty,Option.getD_none]

theorem reaches_iff : Reaches lib m audience ↔ ∃ order : Order m,
    audience ∈ extractStringSliceByMapping lib m order "audience" defaultMappings false := by
  obtain ⟨hname,hne⟩ := normalized_names lib (show "audience" ∈ _ by decide)
  have haliases : Mappings.get defaultMappings "audience" = ["aud"] := by
    simp [Mappings.get,defaultMappings,List.lookup_cons]
  simp only [mem_extracted_iff lib defaultMappings m hname hne,Chosen,candidateValues,
    namespacedValues,suffixesOf,haliases,candidates_audience,suffixes_audience]
  unfold Reaches
  cases spelling lib (lib.toLower audience) (candidateTexts m false ["audience","aud"]) with
  | some first =>
    simp only [Option.some_or,Option.some.injEq]
    constructor
    · intro h
      exact ⟨⟨m.entries,List.Perm.refl _⟩,h⟩
    · rintro ⟨_,h⟩
      exact h
  | none =>
    simp only [Option.none_or]
    constructor
    · rintro ⟨p,hp,hfound⟩
      obtain ⟨r,hr⟩ := exists_perm_head hp
      exact ⟨⟨p :: r,hr⟩,findSome?_eq_of_head hfound⟩
    · rintro ⟨order,hfound⟩
      obtain ⟨p,hp,hvalue⟩ := List.exists_of_findSome?_eq_some hfound
      exact ⟨p,order.perm.mem_iff.mp hp,hvalue⟩

theorem accepted_iff (orders : (m : MapClaims) → Orders m) :
    (∃ claims, validate lib (newJWKSValidator lib issuer audience []) (.ok (true,m)) orders =
      .ok claims) ↔
    extractClaimByMapping lib m (orders m).issuer "issuer" defaultMappings = issuer ∧
      audience ∈ extractStringSliceByMapping lib m (orders m).audience "audience" defaultMappings
        false := by
  simp only [validate,Bool.true_eq_false,if_false]
  change (∃ claims, (if (extractClaims lib defaultMappings m (orders m)).issuer ≠ issuer then _ else
    if audience ∉ (extractClaims lib defaultMappings m (orders m)).audience then _ else _) = _) ↔
    (extractClaims lib defaultMappings m (orders m)).issuer = issuer ∧
      audience ∈ (extractClaims lib defaultMappings m (orders m)).audience
  split_ifs with hissuer haudience
  · simp [hissuer]
  · simp [haudience,not_not.mp hissuer]
  · simp [haudience]

-- some orders of the range loops let the token pass
theorem exists_accepting (hissued : IssuedBy lib m issuer) (hreached : Reaches lib m audience) :
    ∃ orders claims, validate lib (newJWKSValidator lib issuer audience []) (.ok (true,m)) orders =
      .ok claims := by
  classical
  obtain ⟨o,ho⟩ := exists_order_issuer lib m issuer hissued
  obtain ⟨o',ho'⟩ := (reaches_iff lib m audience).mp hreached
  refine ⟨Function.update MapClaims.inOrder m { MapClaims.inOrder m with issuer := o, audience := o' },?_⟩
  rw [accepted_iff,Function.update_self]
  exact ⟨ho,ho'⟩

end Orders

theorem accepted_only_for_issuer_and_audience_iff (lib : Library) (m : MapClaims)
    (issuer audience : String) :
    (∀ orders claims, validate lib (newJWKSValidator lib issuer audience []) (.ok (true,m)) orders =
      .ok claims → IssNames m issuer ∧ AudNames m audience) ↔
    (IssuerElsewhere lib m issuer → ¬ Reaches lib m audience) ∧
      (AudienceElsewhere lib m audience → ¬ IssuedBy lib m issuer) := by
  rw [issuerElsewhere_iff,AudienceElsewhere]
  constructor
  · intro h
    refine ⟨fun helsewhere hreached => helsewhere.2 ?_,fun helsewhere hissued => helsewhere.2 ?_⟩
    · obtain ⟨orders,claims,hok⟩ := exists_accepting lib m issuer audience helsewhere.1 hreached
      exact (h orders claims hok).1
    · obtain ⟨orders,claims,hok⟩ := exists_accepting lib m issuer audience hissued helsewhere.1
      exact (h orders claims hok).2
  · rintro ⟨hissuer,haudience⟩ orders claims hok
    obtain ⟨hfound,hmember⟩ := (accepted_iff lib m issuer audience orders).mp ⟨claims,hok⟩
    have hissued : IssuedBy lib m issuer := hfound ▸ issuedBy_extracted lib m (orders m).issuer
    have hreached : Reaches lib m audience := (reaches_iff lib m audience).mpr ⟨_,hmember⟩
    constructor
    · by_contra hnames
      exact hissuer ⟨hissued,hnames⟩ hreached
    · by_contra hnames
      exact haudience ⟨hreached,hnames⟩ hissued

end Nimburion.Auth
