import Nimburion.Auth.Jwt
import Mathlib.Data.List.Dedup

namespace Nimburion.Auth
open GoText

section Names

variable (lib : Library)

def asciiLibrary : Library := ⟨String.toLower,fun _ _ => rfl⟩

-- lower-case ASCII, no blank and no slash
def plainChar (c : Char) : Bool :=
  c.toNat < 128 && !isSpace c && c.toLower == c && c != '/'

structure PlainName (name : String) : Prop where
  ne : name ≠ ""
  chars : name.toList.all plainChar = true

theorem plainName_of_mem {name : String}
    (h : name ∈ ["subject","issuer","iss","audience","aud","scopes","tenant_id","roles"]) :
    PlainName name := by
  simp only [List.mem_cons,List.not_mem_nil,or_false] at h
  rcases h with rfl | rfl | rfl | rfl | rfl | rfl | rfl | rfl <;>
    refine ⟨by simp,?_⟩ <;>
    simp only [String.reduceToList] <;>
    rfl

namespace PlainName

variable {name : String}

theorem of_mem (h : PlainName name) {c : Char} (hc : c ∈ name.toList) :
    c.toNat < 128 ∧ isSpace c = false ∧ c.toLower = c ∧ c ≠ '/' := by
  have hplain := List.all_eq_true.mp h.chars c hc
  simpa [plainChar,and_assoc] using hplain

theorem trimSpace_eq (h : PlainName name) : trimSpace name = name :=
  trimSpace_of_no_space fun _ hc => (h.of_mem hc).2.1

theorem toLower_eq (h : PlainName name) : lib.toLower name = name := by
  rw [lib.toLower_ascii name fun _ hc => (h.of_mem hc).1]
  apply String.toList_inj.mp
  apply String.toList_map.trans
  exact (List.map_congr_left fun _ hc => (h.of_mem hc).2.2.1).trans (List.map_id' _)

theorem nonblank_eq (h : PlainName name) : nonblank name = some name := by
  rw [nonblank,h.trimSpace_eq,if_pos h.ne]

theorem normalized_eq (h : PlainName name) : lib.toLower (trimSpace name) = name := by
  rw [h.trimSpace_eq,h.toLower_eq]

theorem suffixOf_eq (h : PlainName name) : suffixOf lib name = some ("/" ++ name) := by
  have hslash : ¬('/' ∈ name.toList ∧ name.toList.getLast? ≠ some '/') :=
    fun hmem => (h.of_mem hmem.1).2.2.2 rfl
  have hsegment : lastSegment name = name := by rw [lastSegment,if_neg hslash]
  simp only [suffixOf,h.trimSpace_eq,h.toLower_eq lib,hsegment,h.ne,if_false]

end PlainName

theorem claimSuffixes_plain {claim second : String} (hclaim : PlainName claim)
    (hsecond : PlainName second) (hlt : "/" ++ second < "/" ++ claim) :
    claimSuffixes lib claim [second] = ["/" ++ second,"/" ++ claim] := by
  have hnodup : ["/" ++ claim,"/" ++ second].Nodup := by
    simpa [String.append_right_inj] using (String.ne_of_lt hlt).symm
  simp only [claimSuffixes,List.filterMap_cons,List.filterMap_nil,hclaim.suffixOf_eq lib,
    hsecond.suffixOf_eq lib,hnodup.dedup]
  simp only [List.insertionSort_cons,List.insertionSort_nil,List.orderedInsert_nil,
    List.orderedInsert_cons,if_neg (String.not_le.mpr hlt)]

theorem suffixes_issuer : claimSuffixes lib "issuer" ["iss"] = ["/iss","/issuer"] :=
  claimSuffixes_plain lib (plainName_of_mem (by simp)) (plainName_of_mem (by simp))
    (String.lt_iff_toList_lt.mpr (by simp))

theorem suffixes_audience : claimSuffixes lib "audience" ["aud"] = ["/aud","/audience"] :=
  claimSuffixes_plain lib (plainName_of_mem (by simp)) (plainName_of_mem (by simp))
    (String.lt_iff_toList_lt.mpr (by simp))

theorem candidates_audience : claimCandidates lib "audience" ["aud"] = ["audience","aud"] := by
  have haudience : PlainName "audience" := plainName_of_mem (by simp)
  have haud : PlainName "aud" := plainName_of_mem (by simp)
  simp [claimCandidates,dedupeStrings,dedupeFrom,haud.nonblank_eq,haudience.trimSpace_eq,
    haudience.toLower_eq lib,haud.trimSpace_eq,haud.toLower_eq lib]

end Names

section Values

variable {lib : Library}

theorem nonblank_eq_some {s t : String} : nonblank s = some t ↔ trimSpace s = t ∧ t ≠ "" := by
  unfold nonblank
  split_ifs with h
  · simp only [Option.some.injEq]
    exact ⟨fun heq => ⟨heq,heq ▸ h⟩,fun heq => heq.1⟩
  · refine ⟨(fun heq => nomatch heq),fun heq => absurd ?_ heq.2⟩
    rw [← heq.1]
    exact not_not.mp h

theorem mem_dedupeFrom {seen values : List String} {x : String}
    (h : x ∈ dedupeFrom lib seen values) : ∃ v ∈ values, nonblank v = some x := by
  induction values generalizing seen with
  | nil => cases h
  | cons v values ih =>
    simp only [dedupeFrom] at h
    split_ifs at h with hblank hseen
    · obtain ⟨w,hw,hx⟩ := ih h
      exact ⟨w,List.mem_cons_of_mem _ hw,hx⟩
    · obtain ⟨w,hw,hx⟩ := ih h
      exact ⟨w,List.mem_cons_of_mem _ hw,hx⟩
    · rcases List.mem_cons.mp h with rfl | h
      · exact ⟨v,List.mem_cons_self,nonblank_eq_some.mpr ⟨rfl,hblank⟩⟩
      · obtain ⟨w,hw,hx⟩ := ih h
        exact ⟨w,List.mem_cons_of_mem _ hw,hx⟩

-- the texts of an unsplit value are trimmed already
theorem trimmed_of_mem_texts {value : Value} {v : String} (h : v ∈ value.texts false) :
    trimSpace v = v := by
  have htrim : ∀ s : String, nonblank s = some v → trimSpace v = v := by
    intro s hs
    rw [← (nonblank_eq_some.mp hs).1,trimSpace_trimSpace]
  cases value with
  | string s =>
    simp only [Value.texts,Bool.false_eq_true,if_false,Option.mem_toList] at h
    exact htrim s h
  | strings items =>
    obtain ⟨s,_,hs⟩ := List.mem_filterMap.mp h
    exact htrim s hs
  | array items =>
    obtain ⟨item,_,hitem⟩ := List.mem_filterMap.mp h
    obtain ⟨s,_,hs⟩ := Option.bind_eq_some_iff.mp hitem
    exact htrim s hs
  | null => cases h
  | bool b => cases h
  | number text => cases h
  | object fields => cases h

theorem mem_of_get {m : MapClaims} {key : String} {value : Value} (h : m.get key = some value) :
    (key,value) ∈ m.entries := by
  rw [MapClaims.get] at h
  obtain ⟨l,r,hl,_⟩ := List.lookup_eq_some_iff.mp h
  rw [hl]
  simp

end Values

section Acceptance

variable (lib : Library)

-- the issuer is looked up under issuer, iss and the namespaced keys, in this order
def IssuedBy (m : MapClaims) (issuer : String) : Prop :=
  match usable (m.get "issuer"),usable (m.get "iss") with
  | some value,_ => value = issuer
  | none,some value => value = issuer
  | none,none =>
      (∃ p ∈ m.entries, matchesSuffix lib ["/iss","/issuer"] p.1 = true ∧
        usable (some p.2) = some issuer) ∨
      (issuer = "" ∧ ∀ p ∈ m.entries, matchesSuffix lib ["/iss","/issuer"] p.1 = true →
        usable (some p.2) = none)

def IntendedFor (m : MapClaims) (audience : String) : Prop :=
  ∃ p ∈ m.entries, (p.1 = "audience" ∨ p.1 = "aud" ∨
    matchesSuffix lib ["/aud","/audience"] p.1 = true) ∧ audience ∈ p.2.texts false

theorem fromCandidates_issuer (m : MapClaims) : fromCandidates m ["issuer","iss"] =
    (usable (m.get "issuer")).or (usable (m.get "iss")) := by
  have hissuer : PlainName "issuer" := plainName_of_mem (by simp)
  have hiss : PlainName "iss" := plainName_of_mem (by simp)
  simp only [fromCandidates,List.findSome?_cons,List.findSome?_nil,hissuer.trimSpace_eq,
    hissuer.ne,hiss.trimSpace_eq,hiss.ne,if_false]
  cases usable (m.get "issuer") with
  | some value => rfl
  | none => cases usable (m.get "iss") <;> rfl

theorem issuedBy_extracted (m : MapClaims) (order : Order m) :
    IssuedBy lib m (extractClaimByMapping lib m order "issuer" defaultMappings) := by
  have hname : lib.toLower (trimSpace "issuer") = "issuer" :=
    (plainName_of_mem (by simp)).normalized_eq lib
  have haliases : Mappings.get defaultMappings "issuer" = ["iss"] := by
    simp [Mappings.get,defaultMappings,List.lookup_cons]
  simp only [extractClaimByMapping,hname,haliases,suffixes_issuer,fromCandidates_issuer]
  unfold IssuedBy
  cases hissuer : usable (m.get "issuer") with
  | some value => simp
  | none =>
    cases hiss : usable (m.get "iss") with
    | some value => simp
    | none =>
      simp only [Option.none_or,reduceCtorEq,if_false,String.reduceEq]
      cases hfound : order.entries.findSome? fun p =>
          if matchesSuffix lib ["/iss","/issuer"] p.1 then usable (some p.2) else none with
      | some value =>
        obtain ⟨p,hp,hvalue⟩ := List.exists_of_findSome?_eq_some hfound
        split_ifs at hvalue with hmatch
        exact .inl ⟨p,order.perm.mem_iff.mp hp,hmatch,hvalue⟩
      | none =>
        rw [List.findSome?_eq_none_iff] at hfound
        refine .inr ⟨rfl,fun p hp hmatch => ?_⟩
        have hnone := hfound p (order.perm.mem_iff.mpr hp)
        rwa [if_pos hmatch] at hnone

theorem intendedFor_extracted {m : MapClaims} {order : Order m} {audience : String}
    (h : audience ∈ extractStringSliceByMapping lib m order "audience" defaultMappings false) :
    IntendedFor lib m audience := by
  have hname : lib.toLower (trimSpace "audience") = "audience" :=
    (plainName_of_mem (by simp)).normalized_eq lib
  have haliases : Mappings.get defaultMappings "audience" = ["aud"] := by
    simp [Mappings.get,defaultMappings,List.lookup_cons]
  simp only [extractStringSliceByMapping,hname,haliases,suffixes_audience,candidates_audience,
    String.reduceEq,if_false] at h
  obtain ⟨v,hv,hnonblank⟩ := mem_dedupeFrom h
  have hcase : ∃ p ∈ m.entries, (p.1 = "audience" ∨ p.1 = "aud" ∨
      matchesSuffix lib ["/aud","/audience"] p.1 = true) ∧ v ∈ p.2.texts false := by
    rcases List.mem_append.mp hv with hv | hv
    · obtain ⟨candidate,hcandidate,hv⟩ := List.mem_flatMap.mp hv
      cases hget : m.get candidate with
      | none => simp [hget] at hv
      | some value =>
        rw [hget] at hv
        refine ⟨(candidate,value),mem_of_get hget,?_,hv⟩
        simp only [List.mem_cons,List.not_mem_nil,or_false] at hcandidate
        rcases hcandidate with rfl | rfl
        · exact .inl rfl
        · exact .inr (.inl rfl)
    · obtain ⟨p,hp,hv⟩ := List.mem_flatMap.mp hv
      rw [namespacedTexts] at hv
      split_ifs at hv with hmatch
      · exact ⟨p,order.perm.mem_iff.mp hp,.inr (.inr hmatch),hv⟩
      · cases hv
  obtain ⟨p,hp,hkey,hmem⟩ := hcase
  have htrim := (nonblank_eq_some.mp hnonblank).1
  rw [trimmed_of_mem_texts hmem] at htrim
  exact ⟨p,hp,hkey,htrim ▸ hmem⟩

theorem accepted_tokens_name_issuer_and_audience (issuer audience : String)
    (parsed : Except GoError (Bool × MapClaims)) (orders : (m : MapClaims) → Orders m)
    (claims : Claims)
    (h : validate lib (newJWKSValidator lib issuer audience []) parsed orders = .ok claims) :
    ∃ m, parsed = .ok (true,m) ∧ IssuedBy lib m issuer ∧ IntendedFor lib m audience := by
  unfold validate at h
  cases parsed with
  | error err => cases h
  | ok p =>
    obtain ⟨valid,m⟩ := p
    dsimp only at h
    split_ifs at h with hvalid hissuer haudience
    rw [Bool.not_eq_false] at hvalid
    rw [not_not] at hissuer
    refine ⟨m,by rw [hvalid],?_,intendedFor_extracted lib haudience⟩
    have hissued := issuedBy_extracted lib m (orders m).issuer
    have heq : extractClaimByMapping lib m (orders m).issuer "issuer" defaultMappings = issuer :=
      hissuer
    rwa [heq] at hissued

def MapClaims.inOrder (m : MapClaims) : Orders m := .all ⟨m.entries,List.Perm.refl _⟩

def gateway : JWKSValidator := newJWKSValidator asciiLibrary "https://issuer.example.com" "api" []

def signedFor (issuer : String) : MapClaims where
  entries := [("sub",.string "u-1"),("iss",.string issuer),("aud",.string "api")]
  nodup := by simp

example : ∃ claims, validate asciiLibrary gateway
      (.ok (true,signedFor "https://issuer.example.com")) MapClaims.inOrder = .ok claims ∧
    ∃ m, Except.ok (true,signedFor "https://issuer.example.com") = (.ok (true,m) : Except GoError _) ∧
      IssuedBy asciiLibrary m "https://issuer.example.com" ∧ IntendedFor asciiLibrary m "api" := by
  have hok : (validate asciiLibrary gateway (.ok (true,signedFor "https://issuer.example.com"))
      MapClaims.inOrder).toBool = true := by decide +kernel
  cases hclaims : validate asciiLibrary gateway
      (.ok (true,signedFor "https://issuer.example.com")) MapClaims.inOrder with
  | error err =>
    rw [hclaims] at hok
    cases hok
  | ok claims =>
    exact ⟨claims,rfl,accepted_tokens_name_issuer_and_audience asciiLibrary _ _ _ _ _ hclaims⟩

-- a claim named issuer stands in for another iss
def aliased : MapClaims where
  entries := [("issuer",.string "https://issuer.example.com"),
    ("iss",.string "https://other.example.com"),("aud",.string "api")]
  nodup := by decide

theorem other_iss_is_accepted : (validate asciiLibrary gateway (.ok (true,aliased))
      MapClaims.inOrder).toBool = true ∧
    usable (aliased.get "iss") ≠ some "https://issuer.example.com" := by
  decide +kernel

end Acceptance

end Nimburion.Auth
