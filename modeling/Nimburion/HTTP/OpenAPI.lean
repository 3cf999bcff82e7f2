import Nimburion.Lib.ByteText
import Nimburion.Lib.Replace
import Mathlib.Data.List.Lex

namespace Nimburion.HTTP.OpenAPI

open ByteText (Bytes ascii trimSpace)
open Replace (replaceAll)

-- the methods BuildSpec supports
inductive Method where
  | get
  | post
  | put
  | delete
  | patch
  deriving DecidableEq, Repr

def Method.name : Method → Bytes
  | .get => ascii "GET"
  | .post => ascii "POST"
  | .put => ascii "PUT"
  | .delete => ascii "DELETE"
  | .patch => ascii "PATCH"

def Method.lowerName : Method → Bytes
  | .get => ascii "get"
  | .post => ascii "post"
  | .put => ascii "put"
  | .delete => ascii "delete"
  | .patch => ascii "patch"

def supportedMethods : List Method := [.get,.post,.put,.delete,.patch]

-- strings.ToUpper and strings.ToLower
structure Library where
  toUpper : Bytes → Bytes
  toLower : Bytes → Bytes
  lower_name : ∀ m : Method, toLower m.name = m.lowerName

structure EndpointAnnotations where
  summary : Bytes
  description : Bytes
  tags : List Bytes
  operationID : Bytes
  deriving DecidableEq

structure Route where
  method : Bytes
  path : Bytes
  annotations : EndpointAnnotations

structure Parameter where
  name : Bytes
  location : Bytes
  required : Bool
  schemaType : Bytes
  deriving DecidableEq

structure Operation where
  operationID : Bytes
  summary : Bytes
  description : Bytes
  tags : List Bytes
  parameters : List Parameter
  responses : List (Bytes × Bytes)
  deriving DecidableEq

-- the operations of a document by path and method
abbrev Paths := Bytes → Method → Option Operation

structure Spec where
  openAPI : Bytes
  title : Bytes
  version : Bytes
  paths : Paths

def normalizeTags (tags : List Bytes) : List Bytes :=
  tags.foldl (fun out tag =>
    let trimmed := trimSpace tag
    if trimmed = [] ∨ trimmed ∈ out then out else out ++ [trimmed]) []

def normalizeAnnotations (annotations : EndpointAnnotations) : EndpointAnnotations where
  summary := trimSpace annotations.summary
  description := trimSpace annotations.description
  tags := normalizeTags annotations.tags
  operationID := trimSpace annotations.operationID

def hasAnnotations (annotations : EndpointAnnotations) : Bool :=
  annotations.summary != [] || annotations.description != [] || annotations.operationID != [] ||
    annotations.tags != []

def applyAnnotations (operation : Operation) (annotations : EndpointAnnotations) : Operation :=
  let annotations := normalizeAnnotations annotations
  {operation with
    summary := if annotations.summary ≠ [] then annotations.summary else operation.summary
    description :=
      if annotations.description ≠ [] then annotations.description else operation.description
    tags := if annotations.tags ≠ [] then annotations.tags else operation.tags
    operationID :=
      if annotations.operationID ≠ [] then annotations.operationID else operation.operationID}

def defaultResponseCode : Method → Bytes
  | .delete => ascii "204"
  | _ => ascii "200"

def defaultResponseDescription : Method → Bytes
  | .delete => ascii "No Content"
  | _ => ascii "OK"

-- strings.Trim(path,"/")
def trimSlashes (path : Bytes) : Bytes := (path.dropWhile (· == 47)).rdropWhile (· == 47)

def hasBraces (part : Bytes) : Bool := part.head? == some 123 && part.getLast? == some 125

-- TrimSuffix(TrimPrefix(part,"{"),"}")
def innerText (part : Bytes) : Bytes := part.tail.dropLast

def buildPathParameter (part : Bytes) : Option Parameter :=
  if hasBraces part ∧ 2 < part.length then
    let name := trimSpace (innerText part)
    if name = [] then none else some ⟨name,ascii "path",true,ascii "string"⟩
  else none

def buildPathParameters (path : Bytes) : List Parameter :=
  ((trimSlashes path).splitOn 47).filterMap buildPathParameter

def buildTags (path : Bytes) : List Bytes :=
  match ((trimSlashes path).splitOn 47).find? fun part => part != [] && part.head? != some 123 with
  | some part => [part]
  | none => [ascii "default"]

section Names

variable (lib : Library)

def wordSeparator (b : UInt8) : Bool := b == 95 || b == 45 || b == 32 || b == 46

def capitalize (word : Bytes) : Bytes :=
  let lower := lib.toLower word
  lib.toUpper (lower.take 1) ++ lower.drop 1

-- strings.FieldsFunc
def fieldsFunc (value : Bytes) : List Bytes := (value.splitOnP wordSeparator).filter (· != [])

def toPascalCase (value : Bytes) : Bytes := (fieldsFunc value).flatMap (capitalize lib)

def operationPart (part : Bytes) : Bytes :=
  let part := trimSpace part
  if part = [] then []
  else
    let part := if hasBraces part then ascii "by_" ++ innerText part else part
    replaceAll (ascii ".") (ascii "_") (replaceAll (ascii "-") (ascii "_") part)

def buildOperationID (method : Method) (path : Bytes) : Bytes :=
  let lower := lib.toLower (trimSpace method.name)
  let base := ((trimSlashes path).splitOn 47).foldl
    (fun base part => base ++ toPascalCase lib (operationPart part)) lower
  if base = lower then base ++ ascii "Root" else base

end Names

def normalizeSegment (part : Bytes) : Bytes :=
  if part.head? = some 58 ∧ 1 < part.length then
    ascii "\x7b" ++ trimSpace part.tail ++ ascii "\x7d"
  else part

def normalizeOpenAPIPath (path : Bytes) : Bytes :=
  let trimmed := trimSpace path
  if trimmed = [] then []
  else
    let trimmed := if trimmed.head? = some 47 then trimmed else 47 :: trimmed
    [47].intercalate ((trimmed.splitOn 47).map normalizeSegment)

section Documents

variable (lib : Library)

structure NormalRoute where
  method : Method
  path : Bytes
  annotations : EndpointAnnotations

def NormalRoute.key (route : NormalRoute) : Bytes := route.method.name ++ ascii " " ++ route.path

def methodOf (route : Route) : Option Method :=
  supportedMethods.find? fun m => m.name == lib.toUpper (trimSpace route.method)

def normalizeRoute (route : Route) : Option NormalRoute :=
  match methodOf lib route with
  | none => none
  | some method =>
    if trimSpace route.path = [] then none
    else some ⟨method,trimSpace route.path,normalizeAnnotations route.annotations⟩

-- a route seen before is dropped, but may bring the annotations
def addRoute (filtered : List NormalRoute) (route : NormalRoute) : List NormalRoute :=
  if filtered.any fun existing => existing.key == route.key then
    filtered.map fun existing =>
      if existing.key = route.key ∧ hasAnnotations existing.annotations = false ∧
          hasAnnotations route.annotations = true then
        {existing with annotations := route.annotations} else existing
  else filtered ++ [route]

def bytesLe (a b : Bytes) : Bool := a.map UInt8.toNat ≤ b.map UInt8.toNat

def routeLe (a b : NormalRoute) : Bool :=
  if a.path = b.path then bytesLe a.method.name b.method.name else bytesLe a.path b.path

def normalizeRoutes (routes : List Route) : List NormalRoute :=
  ((routes.filterMap (normalizeRoute lib)).foldl addRoute []).mergeSort routeLe

def buildOperation (method : Method) (path : Bytes) : Operation where
  operationID := buildOperationID lib method path
  summary := method.name ++ ascii " " ++ path
  description := []
  tags := buildTags path
  parameters := buildPathParameters path
  responses := [(defaultResponseCode method,defaultResponseDescription method)]

def setOperation (paths : Paths) (path : Bytes) (method : Method) (op : Operation) : Paths :=
  fun p m => if p = path ∧ m = method then some op else paths p m

def addOperation (paths : Paths) (route : NormalRoute) : Paths :=
  let path := normalizeOpenAPIPath route.path
  if path = [] then paths
  else setOperation paths path route.method
    (applyAnnotations (buildOperation lib route.method path) route.annotations)

def buildSpec (title version : Bytes) (routes : List Route) : Spec where
  openAPI := ascii "3.0.3"
  title := if trimSpace title = [] then ascii "API" else trimSpace title
  version := if trimSpace version = [] then ascii "0.0.0" else trimSpace version
  paths := (normalizeRoutes lib routes).foldl (addOperation lib) fun _ _ => none

end Documents

end Nimburion.HTTP.OpenAPI
