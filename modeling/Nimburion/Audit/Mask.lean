import Mathlib.Data.String.Basic
import Mathlib.Data.List.Sort
import Nimburion.Lib.GoText

namespace Nimburion.Audit.Mask
open GoText

inductive IntType where
  | int | int8 | int16 | int32 | int64 | uint | uint8 | uint16 | uint32 | uint64
  deriving DecidableEq, Repr

-- what an interface value can be; `other` stands for the types without a case of their own, and an
-- empty slice is also the nil one
inductive Value (O : Type) where
  | null
  | str (s : String)
  | bool (b : Bool)
  | int (type : IntType) (n : ℤ)
  | float32 (bits : UInt32)
  | float64 (bits : UInt64)
  | list (items : List (Value O))
  | nilMap
  | map (entries : List (String × Value O))
  | other (o : O)

namespace Value

variable {O : Type}

-- the type assertion to map[string]interface{}
def asMap : Value O → Option (List (String × Value O))
  | map entries => some entries
  | nilMap => some []
  | _ => none

def isMap (v : Value O) : Bool := v.asMap.isSome

end Value

section Redaction

variable {O : Type} (isZero : O → Bool)

def maskedValue : Value O := Value.str "***"

def shouldRedact : Value O → Bool
  | .null => false
  | .str s => trimSpace s ≠ ""
  | .bool b => b
  | .int _ n => n ≠ 0
  | .float32 bits => bits.toNat % 2^31 ≠ 0
  | .float64 bits => bits.toNat % 2^63 ≠ 0
  | .list items => items.length > 0
  | .nilMap => false
  | .map entries => entries.length > 0
  | .other o => !isZero o

mutual

def redactValue : Value O → Value O → Value O
  | .map entries, mask =>
      match mask.asMap with
      | some maskMap => .map (redactEntries entries maskMap)
      | none => if shouldRedact isZero mask then maskedValue else .map entries
  | .nilMap, mask =>
      match mask.asMap with
      | some _ => .map []
      | none => if shouldRedact isZero mask then maskedValue else .nilMap
  | value, mask => if shouldRedact isZero mask then maskedValue else value

-- the loop over the entries, the same in both functions
def redactEntries : List (String × Value O) → List (String × Value O) → List (String × Value O)
  | [], _ => []
  | (key,value) :: entries, mask =>
      (key,match mask.lookup key with
        | some childMask => redactValue value childMask
        | none => value) :: redactEntries entries mask

end

def redactSettings (settings mask : List (String × Value O)) : List (String × Value O) :=
  if settings.length = 0 ∨ mask.length = 0 then settings else redactEntries isZero settings mask

end Redaction

-- a map has each key once, listed in order, so that equal maps are equal lists
inductive Canonical {O : Type} : Value O → Prop where
  | leaf {v : Value O} (h : v.isMap = false) (hlist : ∀ items, v ≠ .list items) : Canonical v
  | list {items : List (Value O)} (h : ∀ v ∈ items, Canonical v) : Canonical (.list items)
  | nilMap : Canonical .nilMap
  | map {entries : List (String × Value O)} (hkeys : (entries.map Prod.fst).Pairwise (· < ·))
      (h : ∀ e ∈ entries, Canonical e.2) : Canonical (.map entries)

structure Settings (O : Type) where
  entries : List (String × Value O)
  canonical : Canonical (.map entries)

namespace Value

variable {O : Type}

-- the setting, or the mask node, that a path of keys leads to
def at? : Value O → List String → Option (Value O)
  | v, [] => some v
  | v, key :: path => (v.asMap.bind (·.lookup key)).bind fun child => child.at? path

-- what stands at a position itself, without what is below it
def node : Value O → Value O
  | .map _ => .map []
  | v => v

-- a map on the way has no entry for the next key
def lacks : Value O → List String → Bool
  | _, [] => false
  | v, key :: path =>
      match v.asMap with
      | none => false
      | some entries =>
        match entries.lookup key with
        | none => true
        | some child => child.lacks path

end Value

section Relation

variable {O : Type} (isZero : O → Bool)

def Hidden (mask a b : Value O) (path : List String) : Prop :=
  ∃ m x y, mask.at? path = some m ∧ a.at? path = some x ∧ b.at? path = some y ∧
    shouldRedact isZero m = true ∧
    (m.isMap = false ∨ m.isMap = true ∧ x.isMap = false ∧ y.isMap = false)

def EqualOutside (mask a b : Value O) : Prop :=
  ∀ path, (∀ pre, pre <+: path → ¬ Hidden isZero mask a b pre) →
    (a.at? path).map Value.node = (b.at? path).map Value.node

end Relation

section Entries

variable {α : Type}

theorem mem_iff_lookup {es : List (String × α)} (h : (es.map Prod.fst).Pairwise (· < ·))
    (key : String) (v : α) : (key,v) ∈ es ↔ es.lookup key = some v := by
  induction es with
  | nil => simp
  | cons e es ih =>
    obtain ⟨k,w⟩ := e
    rw [List.map_cons,List.pairwise_cons] at h
    rw [List.mem_cons,List.lookup_cons,ih h.2]
    by_cases hk : key = k
    · subst hk
      have hnot : es.lookup key ≠ some v := by
        intro hsome
        have hmem := (ih h.2).mpr hsome
        exact lt_irrefl key (h.1 key (List.mem_map_of_mem (f := Prod.fst) hmem))
      simp [hnot,eq_comm]
    · rw [beq_eq_false_iff_ne.mpr hk]
      simp [hk]

theorem entries_ext {es fs : List (String × α)} (hes : (es.map Prod.fst).Pairwise (· < ·))
    (hfs : (fs.map Prod.fst).Pairwise (· < ·)) (h : ∀ key, es.lookup key = fs.lookup key) :
    es = fs := by
  have hes' := List.pairwise_map.mp hes
  have hfs' := List.pairwise_map.mp hfs
  have hirrefl : Std.Irrefl fun e f : String × α => e.1 < f.1 := ⟨fun _ => lt_irrefl _⟩
  have hanti : Std.Antisymm fun e f : String × α => e.1 < f.1 :=
    ⟨fun _ _ hlt hgt => absurd hgt (lt_asymm hlt)⟩
  apply hes'.eq_of_mem_iff hfs'
  rintro ⟨key,v⟩
  rw [mem_iff_lookup hes,mem_iff_lookup hfs,h]

theorem lookup_map_entries (f : String → α → α) (es : List (String × α)) (key : String) :
    (es.map fun e => (e.1,f e.1 e.2)).lookup key = (es.lookup key).map (f key) := by
  induction es with
  | nil => rfl
  | cons e es ih =>
    rw [List.map_cons,List.lookup_cons,List.lookup_cons,ih]
    by_cases hk : key = e.1
    · subst hk
      simp
    · rw [beq_eq_false_iff_ne.mpr hk]

end Entries

section Steps

variable {O : Type} {isZero : O → Bool}

def redactChild (isZero : O → Bool) (mask : List (String × Value O)) (key : String)
    (value : Value O) : Value O :=
  match mask.lookup key with
  | some childMask => redactValue isZero value childMask
  | none => value

theorem redactEntries_eq (es mask : List (String × Value O)) :
    redactEntries isZero es mask = es.map fun e => (e.1,redactChild isZero mask e.1 e.2) := by
  induction es with
  | nil => rw [redactEntries,List.map_nil]
  | cons e es ih =>
    rw [redactEntries,ih,List.map_cons]
    rfl

theorem lookup_redactEntries (es mask : List (String × Value O)) (key : String) :
    (redactEntries isZero es mask).lookup key = (es.lookup key).map (redactChild isZero mask key) := by
  rw [redactEntries_eq,lookup_map_entries]

theorem keys_redactEntries (es mask : List (String × Value O)) :
    (redactEntries isZero es mask).map Prod.fst = es.map Prod.fst := by
  rw [redactEntries_eq,List.map_map]
  rfl

-- the early returns copy what the loop would
theorem redactSettings_eq (settings mask : List (String × Value O)) :
    redactSettings isZero settings mask = redactEntries isZero settings mask := by
  unfold redactSettings
  split_ifs with hempty
  · rw [redactEntries_eq]
    rcases hempty with hsettings | hmask
    · rw [List.length_eq_zero_iff.mp hsettings,List.map_nil]
    · rw [List.length_eq_zero_iff.mp hmask]
      exact (List.map_id settings).symm
  · rfl

theorem redactValue_of_no_map {v mask : Value O} (h : v.asMap = none ∨ mask.asMap = none) :
    redactValue isZero v mask = if shouldRedact isZero mask then maskedValue else v := by
  cases v with
  | map es =>
    have hmask : mask.asMap = none := h.resolve_left (by simp [Value.asMap])
    rw [redactValue,hmask]
  | nilMap =>
    have hmask : mask.asMap = none := h.resolve_left (by simp [Value.asMap])
    rw [redactValue,hmask]
  | _ => rw [redactValue] <;> simp

theorem asMap_redactValue {v mask : Value O} {ms : List (String × Value O)}
    (h : mask.asMap = some ms) :
    (redactValue isZero v mask).asMap = v.asMap.map (redactEntries isZero · ms) := by
  cases v with
  | map es => rw [redactValue,h]; rfl
  | nilMap => rw [redactValue,h]; rfl
  | _ =>
    rw [redactValue_of_no_map (.inl rfl)]
    split_ifs <;> rfl

theorem redactValue_map {es ms : List (String × Value O)} {mask : Value O}
    (h : mask.asMap = some ms) :
    redactValue isZero (.map es) mask = .map (redactEntries isZero es ms) := by
  rw [redactValue,h]

end Steps

section Invariant

variable {O : Type} {isZero : O → Bool}

theorem asMap_eq_none_iff {v : Value O} : v.asMap = none ↔ v.isMap = false := by
  rw [Value.isMap,Option.isSome_eq_false_iff,Option.isNone_iff_eq_none]

theorem canonical_map_iff {es : List (String × Value O)} :
    Canonical (.map es) ↔ (es.map Prod.fst).Pairwise (· < ·) ∧ ∀ e ∈ es, Canonical e.2 := by
  constructor
  · intro h
    cases h with
    | leaf hleaf _ => exact absurd hleaf (by simp [Value.isMap,Value.asMap])
    | map hkeys hvalues => exact ⟨hkeys,hvalues⟩
  · exact fun h => .map h.1 h.2

theorem Canonical.lookup {es : List (String × Value O)} {key : String} {v : Value O}
    (h : Canonical (.map es)) (hv : es.lookup key = some v) : Canonical v := by
  obtain ⟨hkeys,hvalues⟩ := canonical_map_iff.mp h
  exact hvalues _ ((mem_iff_lookup hkeys key v).mpr hv)

theorem canonical_maskedValue : Canonical (maskedValue : Value O) :=
  .leaf rfl (by simp [maskedValue])

theorem canonical_redactEntries {es mask : List (String × Value O)} (h : Canonical (.map es))
    (hvalue : ∀ e ∈ es, ∀ m, Canonical (redactValue isZero e.2 m)) :
    Canonical (.map (redactEntries isZero es mask)) := by
  obtain ⟨hkeys,hvalues⟩ := canonical_map_iff.mp h
  refine canonical_map_iff.mpr ⟨by rwa [keys_redactEntries],fun e he => ?_⟩
  rw [redactEntries_eq,List.mem_map] at he
  obtain ⟨e,he,rfl⟩ := he
  unfold redactChild
  split
  · exact hvalue e he _
  · exact hvalues e he

theorem canonical_redactValue {v : Value O} (h : Canonical v) (mask : Value O) :
    Canonical (redactValue isZero v mask) := by
  induction h generalizing mask with
  | leaf hleaf hlist =>
    rw [redactValue_of_no_map (.inl (asMap_eq_none_iff.mpr hleaf))]
    split_ifs
    · exact canonical_maskedValue
    · exact .leaf hleaf hlist
  | list hitems =>
    rw [redactValue_of_no_map (.inl rfl)]
    split_ifs
    · exact canonical_maskedValue
    · exact .list hitems
  | nilMap =>
    rw [redactValue]
    split
    · exact .map List.Pairwise.nil (by simp)
    · split_ifs
      · exact canonical_maskedValue
      · exact .nilMap
  | @map es hkeys hvalues ih =>
    have hes := canonical_map_iff.mpr ⟨hkeys,hvalues⟩
    cases hmask : mask.asMap with
    | none =>
      rw [redactValue_of_no_map (.inr hmask)]
      split_ifs
      · exact canonical_maskedValue
      · exact hes
    | some ms =>
      rw [redactValue_map hmask]
      exact canonical_redactEntries hes ih

-- RedactSettings on maps
def Settings.redact (isZero : O → Bool) (settings mask : Settings O) : Settings O where
  entries := redactSettings isZero settings.entries mask.entries
  canonical := by
    rw [redactSettings_eq]
    exact canonical_redactEntries settings.canonical fun e he =>
      canonical_redactValue ((canonical_map_iff.mp settings.canonical).2 e he)

end Invariant

section Positions

variable {O : Type} {isZero : O → Bool} {a b mask v : Value O} {key : String} {path : List String}

theorem at?_map (es : List (String × Value O)) (key : String) (path : List String) :
    (Value.map es).at? (key :: path) = (es.lookup key).bind fun child => child.at? path := rfl

theorem at?_cons {es : List (String × Value O)} (h : v.asMap = some es) :
    v.at? (key :: path) = (es.lookup key).bind fun child => child.at? path := by
  rw [Value.at?,h]
  rfl

theorem at?_cons_none (h : v.asMap = none) : v.at? (key :: path) = none := by
  rw [Value.at?,h]
  rfl

theorem node_eq_map {es : List (String × Value O)} (h : (Value.map es).node = b.node) :
    ∃ fs, b = .map fs := by
  cases b with
  | map fs => exact ⟨fs,rfl⟩
  | _ => simp [Value.node] at h

theorem node_eq_self (ha : ∀ es, a ≠ .map es) (h : a.node = b.node) : a = b := by
  have hnode : a.node = a := by
    cases a with
    | map es => exact absurd rfl (ha es)
    | _ => rfl
  rw [hnode] at h
  cases b with
  | map fs => exact absurd h (ha [])
  | _ => exact h

theorem eq_of_child_nodes {ox oy : Option (Value O)}
    (hinj : ∀ x y, ox = some x → oy = some y →
      (∀ path, (x.at? path).map Value.node = (y.at? path).map Value.node) → x = y)
    (h : ∀ path, (ox.bind fun x => x.at? path).map Value.node =
      (oy.bind fun y => y.at? path).map Value.node) : ox = oy := by
  cases ox with
  | none =>
    cases oy with
    | none => rfl
    | some y => simpa [Value.at?] using h []
  | some x =>
    cases oy with
    | none => simpa [Value.at?] using h []
    | some y => exact congrArg some (hinj x y rfl rfl h)

-- trees with the same nodes everywhere are the same
theorem eq_of_nodes (ha : Canonical a) (hb : Canonical b)
    (h : ∀ path, (a.at? path).map Value.node = (b.at? path).map Value.node) : a = b := by
  have hroot : a.node = b.node := by simpa [Value.at?] using h []
  induction ha generalizing b with
  | leaf hleaf _ =>
    refine node_eq_self (fun es heq => ?_) hroot
    rw [heq] at hleaf
    exact absurd hleaf (by simp [Value.isMap,Value.asMap])
  | list _ => exact node_eq_self (by simp) hroot
  | nilMap => exact node_eq_self (by simp) hroot
  | @map es hkeys hvalues ih =>
    obtain ⟨fs,rfl⟩ := node_eq_map hroot
    refine congrArg Value.map (entries_ext hkeys (canonical_map_iff.mp hb).1 fun key => ?_)
    refine eq_of_child_nodes (fun x y hx hy hnodes => ?_) fun path => h (key :: path)
    have hmem := (mem_iff_lookup hkeys key x).mpr hx
    exact ih _ hmem (hb.lookup hy) hnodes (by simpa [Value.at?] using hnodes [])

end Positions

section Noninterference

variable {O : Type} {isZero : O → Bool} {a b mask m x y : Value O} {key : String}
  {path : List String} {es fs ms : List (String × Value O)}

theorem hidden_cons_iff (ha : es.lookup key = some x) (hb : fs.lookup key = some y)
    (hmask : mask.asMap = some ms) (hm : ms.lookup key = some m) :
    Hidden isZero mask (.map es) (.map fs) (key :: path) ↔ Hidden isZero m x y path := by
  unfold Hidden
  rw [at?_cons hmask,at?_map,at?_map,ha,hb,hm]
  rfl

theorem not_hidden_of_mask (h : mask.at? path = none) : ¬ Hidden isZero mask a b path := by
  rintro ⟨m,x,y,hm,-⟩
  rw [h] at hm
  cases hm

theorem not_hidden_left (h : a.at? path = none) : ¬ Hidden isZero mask a b path := by
  rintro ⟨m,x,y,-,hx,-⟩
  rw [h] at hx
  cases hx

theorem not_hidden_right (h : b.at? path = none) : ¬ Hidden isZero mask a b path := by
  rintro ⟨m,x,y,-,-,hy,-⟩
  rw [h] at hy
  cases hy

theorem EqualOutside.below (h : EqualOutside isZero mask a b) (hroot : ¬ Hidden isZero mask a b [])
    (hpath : ∀ pre, pre <+: path → ¬ Hidden isZero mask a b (key :: pre)) :
    (a.at? (key :: path)).map Value.node = (b.at? (key :: path)).map Value.node := by
  refine h (key :: path) fun pre hpre => ?_
  rcases List.prefix_cons_iff.mp hpre with rfl | ⟨rest,rfl,hrest⟩
  · exact hroot
  · exact hpath rest hrest

theorem EqualOutside.root (h : EqualOutside isZero mask a b)
    (hroot : ¬ Hidden isZero mask a b []) : a.node = b.node := by
  have hnodes := h [] fun pre hpre => by rwa [List.prefix_nil.mp hpre]
  simpa [Value.at?] using hnodes

theorem hidden_root_iff : Hidden isZero mask a b [] ↔ shouldRedact isZero mask = true ∧
    (mask.isMap = false ∨ mask.isMap = true ∧ a.isMap = false ∧ b.isMap = false) := by
  simp [Hidden,Value.at?]

theorem redactValue_hidden (h : Hidden isZero mask a b []) :
    redactValue isZero a mask = maskedValue ∧ redactValue isZero b mask = maskedValue := by
  obtain ⟨hred,hshape⟩ := hidden_root_iff.mp h
  rw [← asMap_eq_none_iff,← asMap_eq_none_iff,← asMap_eq_none_iff] at hshape
  have ha : a.asMap = none ∨ mask.asMap = none := hshape.elim .inr fun hmap => .inl hmap.2.1
  have hb : b.asMap = none ∨ mask.asMap = none := hshape.elim .inr fun hmap => .inl hmap.2.2
  rw [redactValue_of_no_map ha,redactValue_of_no_map hb,hred]
  exact ⟨rfl,rfl⟩

-- the entries of two maps under one key, redacted
theorem redactChild_eq (h : EqualOutside isZero mask (.map es) (.map fs))
    (hroot : ¬ Hidden isZero mask (.map es) (.map fs) []) (hmask : mask.asMap = some ms)
    (hes : Canonical (.map es)) (hfs : Canonical (.map fs))
    (ih : ∀ x y m, es.lookup key = some x → Canonical y → EqualOutside isZero m x y →
      redactValue isZero x m = redactValue isZero y m) :
    (es.lookup key).map (redactChild isZero ms key) =
      (fs.lookup key).map (redactChild isZero ms key) := by
  cases hm : ms.lookup key with
  | none =>
    have hmissing : ∀ pre, mask.at? (key :: pre) = none := by
      intro pre
      rw [at?_cons hmask,hm]
      rfl
    have hsame : es.lookup key = fs.lookup key :=
      eq_of_child_nodes (fun x y hx hy => eq_of_nodes (hes.lookup hx) (hfs.lookup hy))
        fun path => h.below hroot fun pre _ => not_hidden_of_mask (hmissing pre)
    rw [hsame]
  | some m =>
    have hpresent : ¬ Hidden isZero mask (.map es) (.map fs) [key] →
        ((es.lookup key).map Value.node) = (fs.lookup key).map Value.node := by
      intro hnot
      have hnodes : ((Value.map es).at? [key]).map Value.node =
          ((Value.map fs).at? [key]).map Value.node :=
        h.below hroot fun pre hpre => by rwa [List.prefix_nil.mp hpre]
      rw [at?_map,at?_map] at hnodes
      simpa [Value.at?] using hnodes
    cases hx : es.lookup key with
    | none =>
      have hnone := hpresent (not_hidden_left (by simp [at?_map,hx]))
      rw [hx] at hnone
      rw [Option.map_eq_none_iff.mp hnone.symm]
    | some x =>
      cases hy : fs.lookup key with
      | none =>
        have hnone := hpresent (not_hidden_right (by simp [at?_map,hy]))
        rw [hx,hy] at hnone
        cases hnone
      | some y =>
        have hchild : EqualOutside isZero m x y := by
          intro path hpath
          have hnodes := h.below hroot fun pre hpre hhid =>
            hpath pre hpre ((hidden_cons_iff hx hy hmask hm).mp hhid)
          rwa [at?_map,at?_map,hx,hy] at hnodes
        simp only [Option.map_some,redactChild,hm]
        rw [ih x y m hx (hfs.lookup hy) hchild]

theorem redactValue_eq_of_node (ha : ∀ es, a ≠ .map es) (h : EqualOutside isZero mask a b) :
    redactValue isZero a mask = redactValue isZero b mask := by
  by_cases hroot : Hidden isZero mask a b []
  · obtain ⟨hleft,hright⟩ := redactValue_hidden hroot
    rw [hleft,hright]
  · rw [node_eq_self ha (h.root hroot)]

theorem redactValue_eq (ha : Canonical a) (hb : Canonical b) (h : EqualOutside isZero mask a b) :
    redactValue isZero a mask = redactValue isZero b mask := by
  induction ha generalizing b mask with
  | leaf hleaf _ =>
    refine redactValue_eq_of_node (fun es heq => ?_) h
    rw [heq] at hleaf
    exact absurd hleaf (by simp [Value.isMap,Value.asMap])
  | list _ => exact redactValue_eq_of_node (by simp) h
  | nilMap => exact redactValue_eq_of_node (by simp) h
  | @map es hkeys hvalues ih =>
    by_cases hroot : Hidden isZero mask (.map es) b []
    · obtain ⟨hleft,hright⟩ := redactValue_hidden hroot
      rw [hleft,hright]
    · obtain ⟨fs,rfl⟩ := node_eq_map (h.root hroot)
      have hes := canonical_map_iff.mpr ⟨hkeys,hvalues⟩
      cases hmask : mask.asMap with
      | none =>
        -- the mask marks nothing here, so the two maps are the same
        have hclear : ∀ pre, ¬ Hidden isZero mask (.map es) (.map fs) pre := by
          intro pre
          cases pre with
          | nil => exact hroot
          | cons key pre => exact not_hidden_of_mask (at?_cons_none hmask)
        rw [eq_of_nodes hes hb fun path => h path fun pre _ => hclear pre]
      | some ms =>
        rw [redactValue_map hmask,redactValue_map hmask]
        have hkeysL : ((redactEntries isZero es ms).map Prod.fst).Pairwise (· < ·) := by
          rwa [keys_redactEntries]
        have hkeysR : ((redactEntries isZero fs ms).map Prod.fst).Pairwise (· < ·) := by
          rw [keys_redactEntries]
          exact (canonical_map_iff.mp hb).1
        refine congrArg Value.map (entries_ext hkeysL hkeysR fun key => ?_)
        rw [lookup_redactEntries,lookup_redactEntries]
        refine redactChild_eq h hroot hmask hes hb fun x y m hx hy hxy => ?_
        exact ih _ ((mem_iff_lookup hkeys key x).mpr hx) hy hxy

-- below a key that the mask does not have nothing is touched
theorem at?_redactValue {v : Value O} (h : mask.lacks path = true) :
    (redactValue isZero v mask).at? path = v.at? path := by
  induction path generalizing v mask with
  | nil => cases h
  | cons key path ih =>
    cases hmask : mask.asMap with
    | none => simp [Value.lacks,hmask] at h
    | some ms =>
      simp only [Value.lacks,hmask] at h
      rw [Value.at?,Value.at?,asMap_redactValue hmask]
      cases hv : v.asMap with
      | none => rfl
      | some es =>
        simp only [Option.map_some,Option.bind_some,lookup_redactEntries]
        cases hx : es.lookup key with
        | none => rfl
        | some x =>
          simp only [Option.map_some,Option.bind_some,redactChild]
          cases hm : ms.lookup key with
          | none => rfl
          | some m =>
            rw [hm] at h
            exact ih h

theorem lacks_of_pre {pre : List String} (hpre : pre <+: path) (h : mask.lacks pre = true) :
    mask.lacks path = true := by
  induction pre generalizing mask path with
  | nil => cases h
  | cons key pre ih =>
    obtain ⟨rest,rfl⟩ := hpre
    rw [List.cons_append]
    unfold Value.lacks at h ⊢
    cases hmask : mask.asMap with
    | none => simp [hmask] at h
    | some ms =>
      simp only [hmask] at h ⊢
      cases hm : ms.lookup key with
      | none => rfl
      | some m =>
        simp only [hm] at h ⊢
        exact ih (List.prefix_append pre rest) h

theorem settings_ext {a b : Settings O} (h : a.entries = b.entries) : a = b := by
  cases a
  cases b
  cases h
  rfl

theorem redactSettings_as_value (settings mask : List (String × Value O)) :
    Value.map (redactSettings isZero settings mask) =
      redactValue isZero (.map settings) (.map mask) := by
  rw [redactSettings_eq,redactValue_map rfl]

end Noninterference

theorem redactSettings_hides_marked {O : Type} (isZero : O → Bool) (mask : Settings O) :
    (∀ a b : Settings O,
      EqualOutside isZero (.map mask.entries) (.map a.entries) (.map b.entries) →
        a.redact isZero mask = b.redact isZero mask) ∧
    ∀ (settings : Settings O) (pre path : List String), pre <+: path →
      (Value.map mask.entries).lacks pre = true →
        (Value.map (settings.redact isZero mask).entries).at? path =
          (Value.map settings.entries).at? path := by
  refine ⟨fun a b h => ?_,fun settings pre path hpre hlacks => ?_⟩
  · apply settings_ext
    apply Value.map.inj
    rw [Settings.redact,Settings.redact,redactSettings_as_value,redactSettings_as_value]
    exact redactValue_eq a.canonical b.canonical h
  · rw [Settings.redact,redactSettings_as_value]
    exact at?_redactValue (lacks_of_pre hpre hlacks)

def one (key : String) (v : Value Unit) (h : Canonical v) : Settings Unit :=
  ⟨[(key,v)],.map (by simp) (by simpa using h)⟩

def password (s : String) : Settings Unit := one "password" (.str s) (.leaf rfl (by simp))

def passwordMask : Settings Unit := one "password" (.bool true) (.leaf rfl (by simp))

theorem redactSettings_hides_password :
    EqualOutside (fun _ => true) (.map passwordMask.entries) (.map (password "hunter2").entries)
      (.map (password "letmein").entries) ∧
    (password "hunter2").redact (fun _ => true) passwordMask =
      (password "letmein").redact (fun _ => true) passwordMask := by
  have hequal : EqualOutside (fun _ => true) (.map passwordMask.entries)
      (.map (password "hunter2").entries) (.map (password "letmein").entries) := by
    intro path hpath
    cases path with
    | nil => rfl
    | cons key rest =>
      by_cases hkey : key = "password"
      · subst hkey
        refine absurd ?_ (hpath ["password"] ⟨rest,rfl⟩)
        exact ⟨.bool true,.str "hunter2",.str "letmein",rfl,rfl,rfl,rfl,.inl rfl⟩
      · have hlookup : ∀ v : Value Unit, [("password",v)].lookup key = none := by
          simp [hkey]
        rw [at?_map,at?_map]
        simp only [password,one,hlookup]
  exact ⟨hequal,(redactSettings_hides_marked (fun _ => true) passwordMask).1 _ _ hequal⟩

end Nimburion.Audit.Mask
