import Nimburion.Lib.GoText
import Nimburion.Lib.QueryEscape
import Mathlib.Data.List.Pairwise

-- the names under which strict validation, viper.Unmarshal and the JSON schema know the fields of an
-- extension struct
namespace Nimburion.Config
open GoText QueryEscape

structure Unicode where
  isUpper : Char → Bool
  isLower : Char → Bool
  toLower : Char → Char

-- Tag.Get gives the empty string for a tag that is not there
structure FieldInfo where
  name : String
  exported : Bool
  embedded : Bool
  mapstructure : String
  yaml : String
  json : String
  deriving DecidableEq, Repr

-- a leaf has no dotted keys below it: a scalar, a time.Duration, a slice of such
mutual

inductive Ty where
  | leaf
  | ptr (t : Ty)
  | struct (fields : Fields)

inductive Fields where
  | nil
  | cons (field : FieldInfo) (type : Ty) (rest : Fields)

end

def Fields.toList : Fields → List (FieldInfo × Ty)
  | .nil => []
  | .cons f t rest => (f,t) :: rest.toList

abbrev Table (α : Type) := String → Option α

def Table.set {α : Type} (m : Table α) (key : String) (a : α) : Table α :=
  fun k => if k = key then some a else m k

def Table.erase {α : Type} (m : Table α) (key : String) : Table α :=
  fun k => if k = key then none else m k

-- strings.Split(s, ",")[0] and the first result of strings.Cut(s, ",")
def firstPart (s : String) : String := ((cut s ',').map Prod.fst).getD s

section Names

variable (u : Unicode)

def toLower (s : String) : String := String.ofList (s.toList.map u.toLower)

def parseMapstructureTag (tag : String) : String × Bool :=
  if trimSpace tag = "" then ("",false)
  else if trimSpace (firstPart (trimSpace tag)) = "-" then ("",true)
  else (trimSpace (firstPart (trimSpace tag)),false)

def runeAt (value : List UInt8) (index : ℕ) : Char := Char.ofNat (value.getD index 0).toNat

-- indexes count bytes, and the neighbours are single bytes
def isWordBoundary (value : List UInt8) (index : ℕ) (r : Char) : Bool :=
  if !u.isUpper r then false
  else if u.isUpper (runeAt value (index-1)) then
    if index+1 < value.length then u.isLower (runeAt value (index+1)) else false
  else true

def snakeFrom (value : List UInt8) (index : ℕ) : List Char → List Char
  | [] => []
  | r :: rest =>
      (if 0 < index && isWordBoundary u value index r then ['_'] else []) ++
        u.toLower r :: snakeFrom value (index+r.utf8Size) rest

def toSnakeCase (input : String) : String := String.ofList (snakeFrom u (utf8 input) 0 input.toList)

-- the key that buildShapeFromType and collectFieldsRecursive give to a field
def strictName (f : FieldInfo) : Option String :=
  if !f.exported then none
  else if (parseMapstructureTag f.mapstructure).2 then none
  else if (parseMapstructureTag f.mapstructure).1 = "" then some (toSnakeCase u f.name)
  else some (parseMapstructureTag f.mapstructure).1

def lowerCamel (name : String) : String := match name.toList with
  | [] => ""
  | r :: rest => String.ofList (u.toLower r :: rest)

def snakeCase (name : String) : String := match name.toList with
  | [] => ""
  | r :: rest => String.ofList ((if u.isUpper r then u.toLower r else r) ::
      rest.flatMap fun r => if u.isUpper r then ['_',u.toLower r] else [r])

def tagName (tag : String) : Option String :=
  if trimSpace tag = "" ∨ trimSpace tag = "-" then none
  else if firstPart (trimSpace tag) = "" then none
  else some (firstPart (trimSpace tag))

def fieldKeyName (f : FieldInfo) : String :=
  ((tagName f.mapstructure).or ((tagName f.yaml).or (tagName f.json))).getD (lowerCamel u f.name)

def uniqueStrings (values : List String) : List String :=
  (values.filter fun value => trimSpace value ≠ "").eraseDups

def schemaSourceFieldNames (f : FieldInfo) : Option (List String) :=
  if trimSpace f.json = "-" then none
  else if firstPart (trimSpace f.json) ≠ "" then
    some (uniqueStrings [firstPart (trimSpace f.json),lowerCamel u f.name,snakeCase u f.name,f.name])
  else some (uniqueStrings [lowerCamel u f.name,snakeCase u f.name,f.name])

end Names

section Strict

variable (u : Unicode)

-- configShape of a type without maps and slices, whose elem is nil
inductive Shape where
  | node (children : String → Option Shape)

def Shape.children : Shape → Table Shape
  | .node children => children

mutual

def buildShapeFromType : Ty → Shape
  | .leaf => .node fun _ => none
  | .ptr t => buildShapeFromType t
  | .struct fields => .node (buildChildren fields fun _ => none)

def buildChildren : Fields → Table Shape → Table Shape
  | .nil, children => children
  | .cons f t rest, children => buildChildren rest (match strictName u f with
      | none => children
      | some mapKey => children.set mapKey (buildShapeFromType t))

end

inductive Setting where
  | scalar
  | map (entries : List (String × Setting))

def joinConfigPath (path key : String) : String := if path = "" then key else path ++ "." ++ key

mutual

-- the errors that are joined; the order of a Go map's keys is not fixed
def validateSettingsAgainstShape : Setting → Shape → String → List String
  | .scalar, _, _ => []
  | .map entries, shape, path => validateEntries entries shape path

def validateEntries : List (String × Setting) → Shape → String → List String
  | [], _, _ => []
  | (key,nested) :: entries, shape, path =>
      (match shape.children key with
        | none => ["unknown config key " ++ quote (joinConfigPath path key)]
        | some child => validateSettingsAgainstShape nested child (joinConfigPath path key)) ++
        validateEntries entries shape path

end

-- the settings with one dotted key
def setting : List String → Setting
  | [] => .scalar
  | key :: path => .map [(key,setting path)]

def Shape.has : Shape → List String → Prop
  | _, [] => True
  | shape, key :: path => ∃ child, shape.children key = some child ∧ child.has path

theorem validate_setting_iff (p : List String) (shape : Shape) (path : String) :
    validateSettingsAgainstShape (setting p) shape path = [] ↔ shape.has p := by
  induction p generalizing shape path with
  | nil => simp [setting,validateSettingsAgainstShape,Shape.has]
  | cons key p ih =>
    rw [setting,validateSettingsAgainstShape,validateEntries,validateEntries,List.append_nil,
      Shape.has]
    cases hchild : shape.children key with
    | none => simp
    | some child => simp [ih]

end Strict

section Store

variable (u : Unicode)

-- mapstructure's name of a field; whether it leaves out a field tagged - depends on its version
def decodeName (f : FieldInfo) : String :=
  if firstPart f.mapstructure = "" then f.name else firstPart f.mapstructure

def storeName (skipsDash : Bool) (f : FieldInfo) : Option String :=
  if !f.exported || (skipsDash && firstPart f.mapstructure == "-") then none
  else some (toLower u (decodeName f))

def squashed (f : FieldInfo) : Bool := ((split f.mapstructure ',').drop 1).contains "squash"

mutual

-- viper.Unmarshal stores the value under a dotted key into a field
def Ty.stores (skipsDash : Bool) : Ty → List String → Bool
  | .leaf, _ => false
  | .ptr t, path => t.stores skipsDash path
  | .struct fields, path => fields.stores skipsDash path

def Fields.stores (skipsDash : Bool) : Fields → List String → Bool
  | .nil, _ => false
  | .cons f t rest, path =>
      (if f.exported && squashed f then t.stores skipsDash path
        else match path with
          | [] => false
          | key :: path => storeName u skipsDash f == some (toLower u key) &&
              (path.isEmpty || t.stores skipsDash path)) ||
        rest.stores skipsDash path

end

-- viper lower-cases the keys and splits them at dots
def viperKey (key : String) : Bool := toLower u key = key && !key.toList.contains '.'

end Store

section Generated

variable (u : Unicode)

inductive Schema where
  | object (properties : String → Option Schema)

def Schema.properties : Schema → Table Schema
  | .object properties => properties

def Schema.hasPath : Schema → List String → Prop
  | _, [] => False
  | schema, [key] => (schema.properties key).isSome
  | schema, key :: path => ∃ prop, schema.properties key = some prop ∧ prop.hasPath path

-- encoding/json's name of a field
def jsonName (f : FieldInfo) : Option String :=
  if !f.exported || f.json == "-" then none
  else if firstPart f.json = "" then some f.name
  else some (firstPart f.json)

def tableOf {α β : Type} (name : FieldInfo → Option String) (value : β → α) :
    List (FieldInfo × β) → Table α → Table α
  | [], table => table
  | (f,b) :: rest, table => tableOf name value rest (match name f with
      | none => table
      | some key => table.set key (value b))

-- jsonschema.ForType with the options of BuildSchemaWithDefaults
structure Generates (forType : Ty → Schema) : Prop where
  leaf : forType .leaf = .object fun _ => none
  ptr : ∀ t, forType (.ptr t) = forType t
  struct : ∀ fields : Fields, (∀ x ∈ fields.toList, x.1.embedded = false) →
    forType (.struct fields) = .object (tableOf jsonName forType fields.toList fun _ => none)

def renameField (f : FieldInfo) (apply : Schema → Schema) (props : Table Schema) : Table Schema :=
  if !f.exported then props
  else match schemaSourceFieldNames u f with
    | none => props
    | some names => match names.find? fun name => (props name).isSome with
        | none => props
        | some name => match props name with
            | none => props
            | some prop => (props.erase name).set (fieldKeyName u f) (apply prop)

mutual

-- on the properties; Required, PropertyOrder and DependentRequired are renamed along with them
def applyFieldNames : Ty → Schema → Schema
  | .leaf, schema => schema
  | .ptr t, schema => applyFieldNames t schema
  | .struct fields, schema => .object (applyNames fields schema.properties)

def applyNames : Fields → Table Schema → Table Schema
  | .nil, props => props
  | .cons f t rest, props => applyNames rest (renameField u f (applyFieldNames t) props)

end

end Generated

section Agreement

variable (u : Unicode) (skipsDash : Bool)

def schemaName (f : FieldInfo) : Option String := (jsonName f).map fun _ => fieldKeyName u f

-- the source names that applyFieldNames tries before the name under which the property stands
def triedNames (f : FieldInfo) : List String :=
  ((schemaSourceFieldNames u f).getD []).takeWhile fun name => some name ≠ jsonName f

def allNames (f : FieldInfo) : List String :=
  (strictName u f).toList ++ (storeName u skipsDash f).toList ++ (schemaName u f).toList

-- a field that stands for itself, and that applyFieldNames finds
def Readable (f : FieldInfo) : Prop :=
  f.embedded = false ∧ (f.exported → squashed f = false ∧
    ((schemaSourceFieldNames u f).isNone ↔ (jsonName f).isNone) ∧
    ∀ name ∈ jsonName f, name ∈ (schemaSourceFieldNames u f).getD [])

-- a field and a later one of the same struct do not take each other's names
def Apart (f g : FieldInfo) : Prop :=
  (∀ name ∈ allNames u skipsDash f, name ∉ allNames u skipsDash g) ∧
  (∀ name ∈ jsonName g, name ∉ jsonName f ∧ name ∉ schemaName u f ∧ name ∉ triedNames u f) ∧
  ∀ name ∈ schemaName u f, name ∉ triedNames u g

-- the three names of a field; a key that viper never passes is no name
def SameName (f : FieldInfo) : Prop :=
  (strictName u f).filter (viperKey u) = schemaName u f ∧
    (storeName u skipsDash f).filter (viperKey u) = schemaName u f

mutual

def Ty.Regular : Ty → Prop
  | .leaf => True
  | .ptr t => t.Regular
  | .struct fields => fields.toList.Pairwise (fun x y => Apart u skipsDash x.1 y.1) ∧ fields.Regular

def Fields.Regular : Fields → Prop
  | .nil => True
  | .cons f t rest => Readable u f ∧ (schemaName u f ≠ none → t.Regular) ∧ rest.Regular

end

mutual

def Ty.Agree : Ty → Prop
  | .leaf => True
  | .ptr t => t.Agree
  | .struct fields => fields.Agree

def Fields.Agree : Fields → Prop
  | .nil => True
  | .cons f t rest => SameName u skipsDash f ∧ (schemaName u f ≠ none → t.Agree) ∧ rest.Agree

end

-- the dotted keys that pass strict validation
def Accepted (t : Ty) (p : List String) : Prop :=
  p ≠ [] ∧ (∀ key ∈ p, viperKey u key = true) ∧
    validateSettingsAgainstShape (setting p) (buildShapeFromType u t) "" = []

def Stored (t : Ty) (p : List String) : Prop :=
  (∀ key ∈ p, viperKey u key = true) ∧ t.stores u skipsDash p = true

def InSchema (forType : Ty → Schema) (t : Ty) (p : List String) : Prop :=
  (applyFieldNames u t (forType t)).hasPath p

def KeysAgree (forType : Ty → Schema) (t : Ty) : Prop :=
  ∀ p, (Accepted u t p ↔ InSchema u forType t p) ∧ (Stored u skipsDash t p ↔ InSchema u forType t p)

end Agreement

section Paths

variable {F : Type}

def Under (name : F → Option String) (sub : F → List String → Prop) (fs : List F) :
    List String → Prop
  | [] => False
  | key :: path => ∃ f ∈ fs, name f = some key ∧ (path = [] ∨ sub f path)

theorem under_step {name name' : F → Option String} {sub sub' : F → List String → Prop} {fs : List F}
    (hsub : ∀ f, ¬ sub f []) (hcross : ∀ f ∈ fs, ∀ g ∈ fs, ∀ key,
      name f = some key → name' g = some key → g = f)
    (h : ∀ p, Under name sub fs p → Under name' sub' fs p) {f : F} (hf : f ∈ fs) {key : String}
    (hkey : name f = some key) : name' f = some key ∧ ∀ p, sub f p → sub' f p := by
  obtain ⟨g,hg,hgkey,-⟩ := h [key] ⟨f,hf,hkey,.inl rfl⟩
  obtain rfl := hcross f hf g hg key hkey hgkey
  refine ⟨hgkey,fun p hp => ?_⟩
  obtain ⟨g',hg',hgkey',hsub'⟩ := h (key :: p) ⟨g,hf,hkey,.inr hp⟩
  obtain rfl := hcross g hf g' hg' key hkey hgkey'
  refine hsub'.resolve_left ?_
  rintro rfl
  exact hsub g' hp

-- two ways to name the same members, whose names do not get mixed up
theorem under_iff (name name' : F → Option String) (sub sub' : F → List String → Prop) (fs : List F)
    (hsub : ∀ f, ¬ sub f []) (hsub' : ∀ f, ¬ sub' f []) (hcross : ∀ f ∈ fs, ∀ g ∈ fs, ∀ key,
      name f = some key → name' g = some key → g = f) :
    (∀ p, Under name sub fs p ↔ Under name' sub' fs p) ↔
      ∀ f ∈ fs, name f = name' f ∧ (name' f ≠ none → ∀ p, sub f p ↔ sub' f p) := by
  constructor
  · intro h f hf
    have hto : ∀ key, name f = some key → name' f = some key ∧ ∀ p, sub f p → sub' f p :=
      fun key hkey => under_step hsub hcross (fun p => (h p).mp) hf hkey
    have hfrom : ∀ key, name' f = some key → name f = some key ∧ ∀ p, sub' f p → sub f p :=
      fun key hkey => under_step hsub' (fun f hf g hg key hf' hg' => (hcross g hg f hf key hg' hf').symm)
        (fun p => (h p).mpr) hf hkey
    refine ⟨Option.ext fun key => ⟨fun hkey => (hto key hkey).1,fun hkey => (hfrom key hkey).1⟩,?_⟩
    intro hne p
    obtain ⟨key,hkey⟩ := Option.ne_none_iff_exists'.mp hne
    exact ⟨(hto key (hfrom key hkey).1).2 p,(hfrom key hkey).2 p⟩
  · intro h p
    cases p with
    | nil => exact Iff.rfl
    | cons key p =>
      constructor
      · rintro ⟨f,hf,hname,hp⟩
        obtain ⟨heq,hiff⟩ := h f hf
        rw [heq] at hname
        exact ⟨f,hf,hname,hp.imp_right (hiff (by simp [hname]) p).mp⟩
      · rintro ⟨f,hf,hname,hp⟩
        obtain ⟨heq,hiff⟩ := h f hf
        exact ⟨f,hf,heq.trans hname,hp.imp_right (hiff (by simp [hname]) p).mpr⟩

end Paths

section Views

variable {u : Unicode} {skipsDash : Bool}

theorem tableOf_eq_some_iff {α β : Type} {name : FieldInfo → Option String} {value : β → α}
    {xs : List (FieldInfo × β)}
    (hpair : xs.Pairwise fun x y => ∀ key, name y.1 = some key → name x.1 ≠ some key)
    (table : Table α) (key : String) (a : α) :
    tableOf name value xs table key = some a ↔
      (∃ x ∈ xs, name x.1 = some key ∧ value x.2 = a) ∨
        (∀ x ∈ xs, name x.1 ≠ some key) ∧ table key = some a := by
  induction xs generalizing table with
  | nil => simp [tableOf]
  | cons x xs ih =>
    obtain ⟨f,b⟩ := x
    obtain ⟨hhead,hrest⟩ := List.pairwise_cons.mp hpair
    rw [tableOf,ih hrest]
    by_cases hf : name f = some key
    · have hnone : ∀ y ∈ xs, name y.1 ≠ some key := fun y hy hykey => hhead y hy key hykey hf
      rw [hf]
      constructor
      · rintro (⟨y,hy,hykey,-⟩ | ⟨-,hvalue⟩)
        · exact absurd hykey (hnone y hy)
        · exact .inl ⟨(f,b),List.mem_cons_self,hf,by simpa [Table.set] using hvalue⟩
      · rintro (⟨y,hy,hykey,hvalue⟩ | ⟨hno,-⟩)
        · rcases List.mem_cons.mp hy with rfl | hy
          · exact .inr ⟨hnone,by simpa [Table.set] using hvalue⟩
          · exact absurd hykey (hnone y hy)
        · exact absurd hf (hno (f,b) List.mem_cons_self)
    · have hsame : (match name f with
          | none => table
          | some k => table.set k (value b)) key = table key := by
        cases hname : name f with
        | none => rfl
        | some k =>
          rw [hname,Option.some.injEq] at hf
          exact if_neg (Ne.symm hf)
      simp only [hsame,List.mem_cons,exists_eq_or_imp,hf,false_and,false_or,forall_eq_or_imp,ne_eq,
        not_false_eq_true,true_and]

theorem tableOf_empty {α β : Type} {name : FieldInfo → Option String} {value : β → α}
    {xs : List (FieldInfo × β)}
    (hpair : xs.Pairwise fun x y => ∀ key, name y.1 = some key → name x.1 ≠ some key)
    (key : String) (a : α) : tableOf name value xs (fun _ => none) key = some a ↔
      ∃ x ∈ xs, name x.1 = some key ∧ value x.2 = a := by
  rw [tableOf_eq_some_iff hpair]
  simp

theorem buildChildren_eq : (fields : Fields) → (children : Table Shape) →
    buildChildren u fields children =
      tableOf (strictName u) (buildShapeFromType u) fields.toList children
  | .nil, _ => rfl
  | .cons f t rest, children => by
    rw [buildChildren,Fields.toList,tableOf]
    exact buildChildren_eq rest _

theorem accepted_iff_has (t : Ty) (p : List String) : Accepted u t p ↔
    p ≠ [] ∧ (∀ key ∈ p, viperKey u key = true) ∧ (buildShapeFromType u t).has p := by
  rw [Accepted,validate_setting_iff]

theorem accepted_struct {fields : Fields}
    (hpair : fields.toList.Pairwise fun x y => ∀ key, strictName u y.1 = some key →
      strictName u x.1 ≠ some key) (p : List String) :
    Accepted u (.struct fields) p ↔ Under (fun x => (strictName u x.1).filter (viperKey u))
      (fun x => Accepted u x.2) fields.toList p := by
  have hchild : ∀ key child, (buildShapeFromType u (.struct fields)).children key = some child ↔
      ∃ x ∈ fields.toList, strictName u x.1 = some key ∧ buildShapeFromType u x.2 = child := by
    intro key child
    rw [buildShapeFromType,Shape.children,buildChildren_eq,tableOf_empty hpair]
  rw [accepted_iff_has]
  cases p with
  | nil => simp [Under]
  | cons key p =>
    have hrest : ∀ t, (p = [] ∨ Accepted u t p) ↔
        (∀ key ∈ p, viperKey u key = true) ∧ (buildShapeFromType u t).has p := by
      intro t
      cases p with
      | nil => simp [Shape.has]
      | cons key' p => simp [accepted_iff_has]
    simp only [ne_eq,List.cons_ne_nil,not_false_eq_true,true_and,List.forall_mem_cons,Shape.has,
      hchild,Under,hrest,Option.filter_eq_some_iff]
    constructor
    · rintro ⟨⟨hkey,hp⟩,_,⟨x,hx,hname,rfl⟩,hhas⟩
      exact ⟨x,hx,⟨hname,hkey⟩,hp,hhas⟩
    · rintro ⟨x,hx,⟨hname,hkey⟩,hp,hhas⟩
      exact ⟨⟨hkey,hp⟩,_,⟨x,hx,hname,rfl⟩,hhas⟩

mutual

theorem Ty.stores_nil : (t : Ty) → t.stores u skipsDash [] = false
  | .leaf => rfl
  | .ptr t => t.stores_nil
  | .struct fields => fields.stores_nil

theorem Fields.stores_nil : (fields : Fields) → fields.stores u skipsDash [] = false
  | .nil => rfl
  | .cons f t rest => by
    rw [Fields.stores,rest.stores_nil,Bool.or_false]
    split_ifs
    · exact t.stores_nil
    · rfl

end

theorem stores_cons_iff {key : String} {path : List String} : (fields : Fields) →
    (∀ x ∈ fields.toList, x.1.exported = true → squashed x.1 = false) →
    (fields.stores u skipsDash (key :: path) = true ↔ ∃ x ∈ fields.toList,
      storeName u skipsDash x.1 = some (toLower u key) ∧
        (path = [] ∨ x.2.stores u skipsDash path = true))
  | .nil, _ => by simp [Fields.stores,Fields.toList]
  | .cons f t rest, h => by
    rw [Fields.toList] at h ⊢
    obtain ⟨hf,hrest⟩ := List.forall_mem_cons.mp h
    have hplain : (f.exported && squashed f) = false := by
      cases hexported : f.exported with
      | false => rfl
      | true => rw [hf hexported,Bool.and_false]
    rw [Fields.stores,hplain]
    simp only [Bool.false_eq_true,if_false,Bool.or_eq_true,Bool.and_eq_true,beq_iff_eq,
      List.isEmpty_iff,stores_cons_iff rest hrest,List.mem_cons,exists_eq_or_imp]

theorem stored_struct {fields : Fields}
    (hplain : ∀ x ∈ fields.toList, x.1.exported = true → squashed x.1 = false) (p : List String) :
    Stored u skipsDash (.struct fields) p ↔
      Under (fun x => (storeName u skipsDash x.1).filter (viperKey u))
        (fun x => Stored u skipsDash x.2) fields.toList p := by
  cases p with
  | nil => simp [Stored,Under,Ty.stores_nil]
  | cons key p =>
    have hrest : ∀ t : Ty, (p = [] ∨ Stored u skipsDash t p) ↔
        (∀ key ∈ p, viperKey u key = true) ∧ (p = [] ∨ t.stores u skipsDash p = true) := by
      intro t
      cases p with
      | nil => simp
      | cons key' p => simp [Stored]
    simp only [Under,hrest,Option.filter_eq_some_iff]
    rw [Stored,Ty.stores,stores_cons_iff fields hplain,List.forall_mem_cons]
    have hlower : viperKey u key = true → toLower u key = key := fun hkey => by
      simp only [viperKey,Bool.and_eq_true,decide_eq_true_eq] at hkey
      exact hkey.1
    constructor
    · rintro ⟨⟨hkey,hp⟩,x,hx,hname,hsub⟩
      exact ⟨x,hx,⟨hlower hkey ▸ hname,hkey⟩,hp,hsub⟩
    · rintro ⟨x,hx,⟨hname,hkey⟩,hp,hsub⟩
      exact ⟨⟨hkey,hp⟩,x,hx,(hlower hkey).symm ▸ hname,hsub⟩

theorem hasPath_cons (schema : Schema) (key : String) (path : List String) :
    schema.hasPath (key :: path) ↔
      ∃ prop, schema.properties key = some prop ∧ (path = [] ∨ prop.hasPath path) := by
  cases path with
  | nil => simp [Schema.hasPath,Option.isSome_iff_exists]
  | cons key' path => simp [Schema.hasPath]

def applyAll (u : Unicode) : List (FieldInfo × Ty) → Table Schema → Table Schema
  | [], props => props
  | (f,t) :: rest, props => applyAll u rest (renameField u f (applyFieldNames u t) props)

theorem applyNames_eq : (fields : Fields) → (props : Table Schema) →
    applyNames u fields props = applyAll u fields.toList props
  | .nil, _ => rfl
  | .cons f t rest, props => by
    rw [applyNames,Fields.toList,applyAll]
    exact applyNames_eq rest _

theorem find?_of_takeWhile {p : String → Bool} {name : String} {names : List String}
    (hmem : name ∈ names) (hname : p name = true)
    (h : ∀ other ∈ names.takeWhile fun other => some other ≠ some name, p other = false) :
    names.find? p = some name := by
  induction names with
  | nil => cases hmem
  | cons other names ih =>
    by_cases heq : other = name
    · rw [heq,List.find?_cons_of_pos hname]
    · rw [List.takeWhile_cons_of_pos (by simpa using heq),List.forall_mem_cons] at h
      rw [List.find?_cons_of_neg (by simp [h.1])]
      exact ih ((List.mem_cons.mp hmem).resolve_left (Ne.symm heq)) h.2

-- what the properties are when the fields in `done` have been renamed and those in `todo` have not
def Renamed (u : Unicode) (forType : Ty → Schema) (done todo : List (FieldInfo × Ty))
    (props : Table Schema) : Prop :=
  ∀ name prop, props name = some prop ↔
    (∃ x ∈ done, schemaName u x.1 = some name ∧ applyFieldNames u x.2 (forType x.2) = prop) ∨
      ∃ x ∈ todo, jsonName x.1 = some name ∧ forType x.2 = prop

theorem exported_of_jsonName {f : FieldInfo} {name : String} (h : jsonName f = some name) :
    f.exported = true := by
  unfold jsonName at h
  split_ifs at h with hcond <;> simp_all

theorem renameField_omitted {f : FieldInfo} (hread : Readable u f) (hjson : jsonName f = none)
    (apply : Schema → Schema) (props : Table Schema) : renameField u f apply props = props := by
  unfold renameField
  split_ifs with hexported
  · rfl
  · have hnone := (hread.2 (by simpa using hexported)).2.1.mpr (by rw [hjson]; rfl)
    rw [Option.isNone_iff_eq_none.mp hnone]

theorem renameField_found {f : FieldInfo} {name : String} {prop : Schema} {props : Table Schema}
    (hread : Readable u f) (hjson : jsonName f = some name) (hprop : props name = some prop)
    (htried : ∀ other ∈ triedNames u f, props other = none) (apply : Schema → Schema) :
    renameField u f apply props = (props.erase name).set (fieldKeyName u f) (apply prop) := by
  have hexported := exported_of_jsonName hjson
  obtain ⟨-,hsource,hmem⟩ := hread.2 hexported
  cases hnames : schemaSourceFieldNames u f with
  | none =>
    have hnone := hsource.mp (by rw [hnames]; rfl)
    rw [hjson] at hnone
    cases hnone
  | some names =>
    rw [triedNames,hnames,hjson,Option.getD_some] at htried
    have hfind : names.find? (fun name => (props name).isSome) = some name := by
      refine find?_of_takeWhile ?_ (by simp [hprop]) fun other hother => by simp [htried other hother]
      simpa [hnames] using hmem name hjson
    rw [renameField,hexported]
    simp [hnames,hfind,hprop]

theorem schemaName_of_json {f : FieldInfo} {name : String} (h : jsonName f = some name) :
    schemaName u f = some (fieldKeyName u f) := by
  rw [schemaName,h,Option.map_some]

theorem mem_allNames_schema {f : FieldInfo} {name : String} (h : schemaName u f = some name) :
    name ∈ allNames u skipsDash f := by
  simp [allNames,h]

section Loop

variable {forType : Ty → Schema} {done rest : List (FieldInfo × Ty)} {x : FieldInfo × Ty}
  {props : Table Schema}

theorem Renamed.tried (h : Renamed u forType done (x :: rest) props)
    (hdone : ∀ y ∈ done, Apart u skipsDash y.1 x.1) (hrest : ∀ y ∈ rest, Apart u skipsDash x.1 y.1)
    {other : String} (hother : other ∈ triedNames u x.1) : props other = none := by
  cases hprop : props other with
  | none => rfl
  | some prop =>
    rcases (h other prop).mp hprop with ⟨y,hy,hname,-⟩ | ⟨y,hy,hname,-⟩
    · exact absurd hother ((hdone y hy).2.2 other hname)
    · rcases List.mem_cons.mp hy with rfl | hy
      · have hne := List.mem_takeWhile_imp hother
        simp only [decide_eq_true_eq] at hne
        exact absurd hname.symm hne
      · exact absurd hother ((hrest y hy).2.1 other hname).2.2

theorem Renamed.step (h : Renamed u forType done (x :: rest) props) (hread : Readable u x.1)
    (hdone : ∀ y ∈ done, Apart u skipsDash y.1 x.1) (hrest : ∀ y ∈ rest, Apart u skipsDash x.1 y.1) :
    Renamed u forType (done ++ [x]) rest (renameField u x.1 (applyFieldNames u x.2) props) := by
  cases hjson : jsonName x.1 with
  | none =>
    have hschema : schemaName u x.1 = none := by rw [schemaName,hjson,Option.map_none]
    rw [renameField_omitted hread hjson]
    intro name prop
    rw [h name prop]
    simp [hjson,hschema]
  | some orig =>
    have hprop : props orig = some (forType x.2) :=
      (h orig _).mpr (.inr ⟨x,List.mem_cons_self,hjson,rfl⟩)
    have hschema := schemaName_of_json (u := u) hjson
    rw [renameField_found hread hjson hprop fun _ hother => h.tried hdone hrest hother]
    intro name prop
    by_cases hdesired : name = fieldKeyName u x.1
    · -- nothing else goes by the new name
      subst hdesired
      have hnotDone : ∀ y ∈ done, schemaName u y.1 ≠ some (fieldKeyName u x.1) := fun y hy hname =>
        (hdone y hy).1 _ (mem_allNames_schema hname) (mem_allNames_schema hschema)
      have hnotRest : ∀ y ∈ rest, jsonName y.1 ≠ some (fieldKeyName u x.1) := fun y hy hname =>
        ((hrest y hy).2.1 _ hname).2.1 hschema
      rw [Table.set,if_pos rfl,Option.some.injEq]
      constructor
      · exact fun heq => .inl ⟨x,by simp,hschema,heq⟩
      · rintro (⟨y,hy,hname,heq⟩ | ⟨y,hy,hname,-⟩)
        · rcases List.mem_append.mp hy with hy | hy
          · exact absurd hname (hnotDone y hy)
          · rw [← List.mem_singleton.mp hy]
            exact heq
        · exact absurd hname (hnotRest y hy)
    · rw [Table.set,if_neg hdesired,Table.erase]
      have hnotx : schemaName u x.1 ≠ some name := by
        rw [hschema,ne_eq,Option.some.injEq]
        exact Ne.symm hdesired
      by_cases horig : name = orig
      · -- the old name is gone
        subst horig
        rw [if_pos rfl]
        refine iff_of_false (by simp) ?_
        rintro (⟨y,hy,hname,-⟩ | ⟨y,hy,hname,-⟩)
        · rcases List.mem_append.mp hy with hy | hy
          · exact ((hdone y hy).2.1 _ hjson).2.1 hname
          · exact hnotx (List.mem_singleton.mp hy ▸ hname)
        · exact ((hrest y hy).2.1 _ hname).1 hjson
      · rw [if_neg horig,h name prop]
        have hnotjson : jsonName x.1 ≠ some name := by
          rw [hjson,ne_eq,Option.some.injEq]
          exact Ne.symm horig
        simp [hnotx,hnotjson]

theorem applyAll_renamed {todo : List (FieldInfo × Ty)} (h : Renamed u forType done todo props)
    (hread : ∀ y ∈ todo, Readable u y.1)
    (hdone : ∀ y ∈ done, ∀ z ∈ todo, Apart u skipsDash y.1 z.1)
    (htodo : todo.Pairwise fun y z => Apart u skipsDash y.1 z.1) :
    Renamed u forType (done ++ todo) [] (applyAll u todo props) := by
  induction todo generalizing done props with
  | nil => simpa [applyAll] using h
  | cons x todo ih =>
    obtain ⟨hx,htodo⟩ := List.pairwise_cons.mp htodo
    obtain ⟨hreadx,hread⟩ := List.forall_mem_cons.mp hread
    have hstep := h.step hreadx (fun y hy => hdone y hy x List.mem_cons_self) hx
    have hall := ih hstep hread (fun y hy z hz => ?_) htodo
    · rwa [List.append_assoc,List.singleton_append] at hall
    · rcases List.mem_append.mp hy with hy | hy
      · exact hdone y hy z (List.mem_cons_of_mem _ hz)
      · rw [List.mem_singleton.mp hy]
        exact hx z hz

end Loop

theorem inSchema_struct {forType : Ty → Schema} (hgen : Generates forType) {fields : Fields}
    (hread : ∀ x ∈ fields.toList, Readable u x.1)
    (hpair : fields.toList.Pairwise fun x y => Apart u skipsDash x.1 y.1) (p : List String) :
    InSchema u forType (.struct fields) p ↔ Under (fun x => schemaName u x.1)
      (fun x => InSchema u forType x.2) fields.toList p := by
  have hstart : Renamed u forType [] fields.toList
      (tableOf jsonName forType fields.toList fun _ => none) := by
    intro name prop
    rw [tableOf_empty (hpair.imp fun h key hkey => (h.2.1 key hkey).1)]
    simp
  have hall := applyAll_renamed hstart hread (fun y hy => absurd hy List.not_mem_nil) hpair
  have hprops : (applyFieldNames u (.struct fields) (forType (.struct fields))).properties =
      applyAll u fields.toList (tableOf jsonName forType fields.toList fun _ => none) := by
    rw [hgen.struct fields fun x hx => (hread x hx).1,applyFieldNames,applyNames_eq]
    rfl
  cases p with
  | nil => exact Iff.rfl
  | cons key p =>
    rw [InSchema,hasPath_cons,hprops]
    constructor
    · rintro ⟨prop,hprop,hpath⟩
      obtain ⟨x,hx,hname,rfl⟩ | ⟨x,hx,-⟩ := (hall key prop).mp hprop
      · exact ⟨x,hx,hname,hpath⟩
      · cases hx
    · rintro ⟨x,hx,hname,hpath⟩
      exact ⟨_,(hall key _).mpr (.inl ⟨x,hx,hname,rfl⟩),hpath⟩

theorem eq_of_shared {fields : List (FieldInfo × Ty)}
    (hpair : fields.Pairwise fun x y => Apart u skipsDash x.1 y.1) {x y : FieldInfo × Ty}
    (hx : x ∈ fields) (hy : y ∈ fields) {key : String} (hxkey : key ∈ allNames u skipsDash x.1)
    (hykey : key ∈ allNames u skipsDash y.1) : y = x := by
  have hdisjoint : fields.Pairwise fun x y => ∀ name,
      ¬ (name ∈ allNames u skipsDash x.1 ∧ name ∈ allNames u skipsDash y.1) :=
    hpair.imp fun h name hboth => h.1 name hboth.1 hboth.2
  have hsymm : Std.Symm fun x y : FieldInfo × Ty => ∀ name,
      ¬ (name ∈ allNames u skipsDash x.1 ∧ name ∈ allNames u skipsDash y.1) :=
    ⟨fun _ _ h name hboth => h name hboth.symm⟩
  by_contra hne
  exact hdisjoint.forall hx hy (Ne.symm hne) key ⟨hxkey,hykey⟩

theorem Fields.readable : (fields : Fields) → fields.Regular u skipsDash →
    ∀ x ∈ fields.toList, Readable u x.1
  | .nil, _ => by simp [Fields.toList]
  | .cons f t rest, h => by
    rw [Fields.toList,List.forall_mem_cons]
    exact ⟨h.1,rest.readable h.2.2⟩

end Views

section Main

variable {u : Unicode} {skipsDash : Bool} {forType : Ty → Schema}

theorem keysAgree_struct (hgen : Generates forType) {fields : Fields}
    (hpair : fields.toList.Pairwise fun x y => Apart u skipsDash x.1 y.1)
    (hread : ∀ x ∈ fields.toList, Readable u x.1) :
    KeysAgree u skipsDash forType (.struct fields) ↔ ∀ x ∈ fields.toList,
      SameName u skipsDash x.1 ∧ (schemaName u x.1 ≠ none → KeysAgree u skipsDash forType x.2) := by
  have hstrict : ∀ {f : FieldInfo} {key : String}, strictName u f = some key →
      key ∈ allNames u skipsDash f := fun h => by simp [allNames,h]
  have hstore : ∀ {f : FieldInfo} {key : String}, storeName u skipsDash f = some key →
      key ∈ allNames u skipsDash f := fun h => by simp [allNames,h]
  have hinNil : ∀ x : FieldInfo × Ty, ¬ InSchema u forType x.2 [] := fun _ h => h
  have hstoredNil : ∀ x : FieldInfo × Ty, ¬ Stored u skipsDash x.2 [] := fun x h => by
    simp [Stored,Ty.stores_nil] at h
  have haccepted : (∀ p, Accepted u (.struct fields) p ↔ InSchema u forType (.struct fields) p) ↔
      ∀ x ∈ fields.toList, (strictName u x.1).filter (viperKey u) = schemaName u x.1 ∧
        (schemaName u x.1 ≠ none → ∀ p, Accepted u x.2 p ↔ InSchema u forType x.2 p) := by
    have hdistinct := hpair.imp fun {x y} h key hy hx => h.1 key (hstrict hx) (hstrict hy)
    simp only [accepted_struct hdistinct,inSchema_struct hgen hread hpair]
    refine under_iff _ _ _ _ _ (fun _ h => h.1 rfl) hinNil fun x hx y hy key hxkey hykey => ?_
    exact eq_of_shared hpair hx hy (hstrict (Option.filter_eq_some_iff.mp hxkey).1)
      (mem_allNames_schema hykey)
  have hstored : (∀ p, Stored u skipsDash (.struct fields) p ↔
        InSchema u forType (.struct fields) p) ↔
      ∀ x ∈ fields.toList, (storeName u skipsDash x.1).filter (viperKey u) = schemaName u x.1 ∧
        (schemaName u x.1 ≠ none → ∀ p, Stored u skipsDash x.2 p ↔ InSchema u forType x.2 p) := by
    simp only [stored_struct fun x hx hexported => ((hread x hx).2 hexported).1,
      inSchema_struct hgen hread hpair]
    refine under_iff _ _ _ _ _ hstoredNil hinNil fun x hx y hy key hxkey hykey => ?_
    exact eq_of_shared hpair hx hy (hstore (Option.filter_eq_some_iff.mp hxkey).1)
      (mem_allNames_schema hykey)
  rw [KeysAgree,forall_and,haccepted,hstored]
  constructor
  · rintro ⟨haccepted,hstored⟩ x hx
    obtain ⟨hname,hsub⟩ := haccepted x hx
    obtain ⟨hname',hsub'⟩ := hstored x hx
    exact ⟨⟨hname,hname'⟩,fun hne p => ⟨hsub hne p,hsub' hne p⟩⟩
  · intro h
    exact ⟨fun x hx => ⟨(h x hx).1.1,fun hne p => ((h x hx).2 hne p).1⟩,
      fun x hx => ⟨(h x hx).1.2,fun hne p => ((h x hx).2 hne p).2⟩⟩

theorem keysAgree_leaf (hgen : Generates forType) : KeysAgree u skipsDash forType .leaf := by
  intro p
  have hin : ¬ InSchema u forType .leaf p := by
    rw [InSchema,hgen.leaf,applyFieldNames]
    cases p with
    | nil => exact id
    | cons key p =>
      rw [hasPath_cons]
      simp [Schema.properties]
  have haccepted : ¬ Accepted u .leaf p := by
    rw [accepted_iff_has]
    rintro ⟨hne,-,hhas⟩
    cases p with
    | nil => exact hne rfl
    | cons key p =>
      obtain ⟨child,hchild,-⟩ := hhas
      cases hchild
  have hstored : ¬ Stored u skipsDash .leaf p := by simp [Stored,Ty.stores]
  exact ⟨iff_of_false haccepted hin,iff_of_false hstored hin⟩

theorem keysAgree_ptr (hgen : Generates forType) (t : Ty) :
    KeysAgree u skipsDash forType (.ptr t) ↔ KeysAgree u skipsDash forType t := by
  simp only [KeysAgree,Accepted,Stored,InSchema,buildShapeFromType,Ty.stores,applyFieldNames,hgen.ptr]

mutual

theorem Ty.keysAgree_iff (hgen : Generates forType) : (t : Ty) → t.Regular u skipsDash →
    (KeysAgree u skipsDash forType t ↔ t.Agree u skipsDash)
  | .leaf, _ => iff_of_true (keysAgree_leaf hgen) trivial
  | .ptr t, h => (keysAgree_ptr hgen t).trans (t.keysAgree_iff hgen h)
  | .struct fields, h => (keysAgree_struct hgen h.1 (fields.readable h.2)).trans
      (fields.agree_iff hgen h.2).symm

theorem Fields.agree_iff (hgen : Generates forType) : (fields : Fields) →
    fields.Regular u skipsDash → (fields.Agree u skipsDash ↔ ∀ x ∈ fields.toList,
      SameName u skipsDash x.1 ∧ (schemaName u x.1 ≠ none → KeysAgree u skipsDash forType x.2))
  | .nil, _ => by simp [Fields.Agree,Fields.toList]
  | .cons f t rest, h => by
    rw [Fields.toList,List.forall_mem_cons,Fields.Agree,rest.agree_iff hgen h.2.2,and_assoc]
    refine and_congr_right fun _ => and_congr_left fun _ => ?_
    exact forall_congr' fun hne => (t.keysAgree_iff hgen (h.2.1 hne)).symm

end

end Main

-- whatever the type is, the condition is enough
theorem keys_agree_of_regular (u : Unicode) (skipsDash : Bool) {forType : Ty → Schema}
    (hgen : Generates forType) (t : Ty)
    (h : t.Regular u skipsDash ∧ t.Agree u skipsDash) : KeysAgree u skipsDash forType t :=
  (t.keysAgree_iff hgen h.1).mpr h.2

section Samples

mutual

def jsonForType : Ty → Schema
  | .leaf => .object fun _ => none
  | .ptr t => jsonForType t
  | .struct fields => .object (jsonProperties fields fun _ => none)

def jsonProperties : Fields → Table Schema → Table Schema
  | .nil, props => props
  | .cons f t rest, props => jsonProperties rest (match jsonName f with
      | none => props
      | some key => props.set key (jsonForType t))

end

def field (name mapstructure : String) : FieldInfo := ⟨name,true,false,mapstructure,"",""⟩

instance (u : Unicode) (f : FieldInfo) : Decidable (Readable u f) :=
  inferInstanceAs (Decidable (_ ∧ (_ → _)))

instance (u : Unicode) (skipsDash : Bool) (f g : FieldInfo) : Decidable (Apart u skipsDash f g) :=
  inferInstanceAs (Decidable (_ ∧ _ ∧ _))

instance (u : Unicode) (skipsDash : Bool) (f : FieldInfo) : Decidable (SameName u skipsDash f) :=
  inferInstanceAs (Decidable (_ ∧ _))

end Samples

end Nimburion.Config
