import Nimburion.Lib.ByteText
import Nimburion.Lib.Replace
import Mathlib.Data.List.Lex
import Mathlib.Data.List.Sort

namespace Nimburion.I18n

open ByteText
open Replace (replaceAll)

-- a map[string]V in the order an iteration visits it
structure Params (V : Type) where
  entries : List (Bytes × V)
  unique : (entries.map Prod.fst).Nodup

namespace Params

variable {V : Type}

def names (params : Params V) : List Bytes := params.entries.map Prod.fst

def get (params : Params V) (key : Bytes) : Option V :=
  (params.entries.find? fun e => e.1 == key).map Prod.snd

def set (params : Params V) (key : Bytes) (value : V) : Params V where
  entries := (params.entries.filter fun e => e.1 != key) ++ [(key,value)]
  unique := by
    have hsub : ((params.entries.filter fun e => e.1 != key).map Prod.fst).Nodup :=
      params.unique.sublist (List.filter_sublist.map _)
    rw [List.map_append,List.nodup_append]
    refine ⟨hsub,by simp,?_⟩
    intro name hname name' hname' heq
    obtain ⟨e,he,rfl⟩ := List.mem_map.mp hname
    have hkey : name' = key := by simpa using hname'
    rw [List.mem_filter,bne_iff_ne] at he
    exact he.2 (heq.trans hkey)

end Params

-- what the code finds out about an interface{} value
structure Dynamic (V : Type) where
  sprint : Option V → Bytes
  asString : V → Option Bytes
  asParams : V → Option (Params V)

structure Catalog where
  defaultLocale : Bytes
  fallbackBase : Bool
  messages : Bytes → Option (Bytes → Option Bytes)

def hyphen : UInt8 := 45

def localeByte (b : UInt8) : Bool :=
  (97 ≤ b && b ≤ 122) || (65 ≤ b && b ≤ 90) || (48 ≤ b && b ≤ 57) || b == hyphen

def lower (b : UInt8) : UInt8 := if 65 ≤ b ∧ b ≤ 90 then b+32 else b

def normalizeLocale (locale : Bytes) : Bytes :=
  ((trimSpace (replaceAll (ascii "_") (ascii "-") locale)).filter localeByte).map lower

def baseLocale (locale : Bytes) : Bytes :=
  let locale := normalizeLocale locale
  let base := locale.takeWhile (· != hyphen)
  if base ≠ [] then base else locale

def addLocale (ordered : List Bytes) (item : Bytes) : List Bytes :=
  let item := normalizeLocale item
  if item = [] ∨ item ∈ ordered then ordered else ordered ++ [item]

def Catalog.fallbackLocales (c : Catalog) (locale : Bytes) : List Bytes :=
  let ordered := addLocale [] locale
  let ordered := if c.fallbackBase then addLocale ordered (baseLocale locale) else ordered
  let ordered := addLocale ordered c.defaultLocale
  if c.fallbackBase then addLocale ordered (baseLocale c.defaultLocale) else ordered

def Catalog.lookup (c : Catalog) (locale key : Bytes) : Bytes :=
  ((c.fallbackLocales locale).findSome? fun candidate =>
    (c.messages candidate).bind fun entries => entries key).getD []

section Templates

variable {V : Type} (dyn : Dynamic V)

def parsePairs : List V → Params V → Params V
  | key :: value :: args,params =>
    match dyn.asString key with
    | none => parsePairs args params
    | some key => parsePairs args (params.set key value)
  | _,params => params

def parseTemplateArgs : List V → Params V
  | [] => ⟨[],List.nodup_nil⟩
  | [arg] =>
    match dyn.asParams arg with
    | some params => params
    | none => parsePairs dyn [arg] ⟨[],List.nodup_nil⟩
  | args => parsePairs dyn args ⟨[],List.nodup_nil⟩

def sortStrings (keys : List Bytes) : List Bytes :=
  keys.insertionSort fun a b => a.map UInt8.toNat ≤ b.map UInt8.toNat

-- "{{key}}" or "{key}"
def spell (key : Bytes) (double : Bool) : Bytes :=
  if double then ascii "\x7b\x7b" ++ key ++ ascii "\x7d\x7d" else ascii "\x7b" ++ key ++ ascii "\x7d"

def printed (params : Params V) (key : Bytes) : Bytes := dyn.sprint (params.get key)

def replaceKey (value : Bytes → Bytes) (out key : Bytes) : Bytes :=
  replaceAll (spell key false) (value key) (replaceAll (spell key true) (value key) out)

def applyTemplateParams (template : Bytes) (params : Params V) : Bytes :=
  if params.entries = [] then template
  else (sortStrings params.names).foldl (replaceKey (printed dyn params)) template

-- localizedTranslator.T
def translate (catalog : Option Catalog) (locale key : Bytes) (args : List V) : Bytes :=
  let key := trimSpace key
  if key = [] then []
  else match catalog with
  | none => key
  | some catalog =>
    let template := catalog.lookup locale key
    if template = [] then key
    else applyTemplateParams dyn template (parseTemplateArgs dyn args)

end Templates

end Nimburion.I18n
