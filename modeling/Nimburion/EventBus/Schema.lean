import Nimburion.Lib.GoText
import Nimburion.Lib.MapOrder

-- LocalRegistry and the two message validators over it
namespace Nimburion.EventBus.Schema
open GoText

abbrev Bytes := List UInt8

-- `hash` is the hex text of the SHA-256 sum; proto.Unmarshal and protojson.Unmarshal read nothing
-- but the definition and the payload
structure Library (D : Type) where
  toLower : String → String
  hash : String → String
  unmarshal : D → Bytes → Bool
  unmarshalJSON : D → Bytes → Bool
  hash_hex : ∀ s, trimSpace (hash s) = hash s

-- a message descriptor as its file declares it; D is its fields, numbers and types
inductive Declared (D : Type) where
  | message (name : String) (definition : D) (nested : List (Declared D))

structure File (D : Type) where
  package : String
  messages : List (Declared D)

structure MessageDescriptor (D : Type) where
  fullName : String
  name : String
  definition : D
  deriving DecidableEq

structure Descriptor where
  subject : String
  version : String
  schemaID : String
  schemaHash : String
  message : String
  deriving DecidableEq, Repr

structure ValidationError where
  code : String
  subject : String
  version : String
  details : List (String × String)
  deriving DecidableEq, Repr

variable {D : Type}

def qualified (parent name : String) : String := if parent = "" then name else parent ++ "." ++ name

mutual

-- the messages of a file in the order they are registered
def Declared.flatten (parent : String) : Declared D → List (MessageDescriptor D)
  | .message name definition nested =>
      ⟨qualified parent name,name,definition⟩ :: flattenAll (qualified parent name) nested

def flattenAll (parent : String) : List (Declared D) → List (MessageDescriptor D)
  | [] => []
  | m :: list => m.flatten parent ++ flattenAll parent list

end

def File.all (f : File D) : List (MessageDescriptor D) := flattenAll f.package f.messages

def validName (s : String) : Bool :=
  s ≠ "" && s.toList.all fun c => c.isAlphanum || c = '_' || c = '.'

-- what protodesc.NewFiles accepts: full names are made of identifiers and no two are equal
structure DescriptorSet (D : Type) where
  files : List (File D)
  valid : ∀ md ∈ files.flatMap File.all, validName md.fullName = true
  unique : ((files.flatMap File.all).map MessageDescriptor.fullName).Nodup

abbrev Registry (D : Type) := String → Option (MessageDescriptor D)

-- a header that is not set reads as the empty text
abbrev Headers := String → String

section Source

variable (lib : Library D)

def normalizeKey (v : String) : String := lib.toLower (trimSpace v)

def Registry.set (reg : Registry D) (key : String) (md : MessageDescriptor D) : Registry D :=
  fun k => if k = key then some md else reg k

mutual

def registerMessage (parent : String) : Declared D → Registry D → Registry D
  | .message name definition nested, reg =>
      let md : MessageDescriptor D := ⟨qualified parent name,name,definition⟩
      let reg := reg.set (normalizeKey lib md.fullName) md
      let reg := reg.set (normalizeKey lib md.name) md
      registerMessages md.fullName nested reg

def registerMessages (parent : String) : List (Declared D) → Registry D → Registry D
  | [], reg => reg
  | m :: list, reg => registerMessages parent list (registerMessage parent m reg)

end

-- RangeFiles visits the files in an order of its own; a set without messages is refused
def newLocalRegistry (order : List (File D)) : Option (Registry D) :=
  if order.flatMap File.all = [] then none
  else some (order.foldl (fun reg f => registerMessages lib f.package f.messages reg) fun _ => none)

def findCandidate (reg : Registry D) : List String → Option (MessageDescriptor D)
  | [] => none
  | candidate :: candidates => (reg (normalizeKey lib candidate)).or (findCandidate reg candidates)

def describe (subject version messageName : String) : Descriptor :=
  let schemaID := subject ++ ":" ++ version ++ ":" ++ messageName
  ⟨subject,version,schemaID,lib.hash (schemaID ++ "|" ++ messageName),messageName⟩

def resolve (reg : Registry D) (subject version : String) (headers : Headers) :
    Except ValidationError Descriptor :=
  let subject := trimSpace subject
  let version := if trimSpace version = "" then "v1" else trimSpace version
  if subject = "" then .error ⟨"validation.kafka.missing_subject","","",[]⟩
  else
    let messageHeader := trimSpace (headers "schema_message")
    let candidates := (if messageHeader = "" then [] else [messageHeader]) ++ [subject]
    match findCandidate lib reg candidates with
    | none => .error ⟨"validation.kafka.schema_not_found",subject,version,[]⟩
    | some md => .ok (describe lib subject version md.fullName)

-- as protobuf, else as JSON
def decodes (definition : D) (payload : Bytes) : Bool :=
  lib.unmarshal definition payload || lib.unmarshalJSON definition payload

def validatePayload (reg : Registry D) (desc : Descriptor) (payload : Bytes) :
    Option ValidationError :=
  if payload = [] then some ⟨"validation.kafka.payload_empty",desc.subject,desc.version,[]⟩
  else match reg (normalizeKey lib desc.message) with
    | none => some ⟨"validation.kafka.message_not_found",desc.subject,desc.version,
        [("message",desc.message)]⟩
    | some md =>
        if decodes lib md.definition payload then none
        else some ⟨"validation.kafka.payload_invalid",desc.subject,desc.version,
          [("message",desc.message)]⟩

def validateHeaders (desc : Descriptor) (headers : Headers) : Option ValidationError :=
  let schemaID := trimSpace (headers "schema_id")
  let schemaHash := trimSpace (headers "schema_hash")
  if schemaID ≠ "" ∧ schemaID ≠ desc.schemaID then
    some ⟨"validation.kafka.schema_id_mismatch",desc.subject,desc.version,
      [("expected",desc.schemaID),("actual",schemaID)]⟩
  else if schemaHash ≠ "" ∧ schemaHash ≠ desc.schemaHash then
    some ⟨"validation.kafka.schema_hash_mismatch",desc.subject,desc.version,
      [("expected",desc.schemaHash),("actual",schemaHash)]⟩
  else none

inductive Mode where
  | warn
  | enforce
  deriving DecidableEq, Repr

structure Validator where
  mode : Mode
  defaultVersion : String

def Validator.versionOrDefault (v : Validator) : String :=
  if trimSpace v.defaultVersion = "" then "v1" else trimSpace v.defaultVersion

structure Message where
  value : Bytes
  headers : Headers

def Message.set (msg : Message) (name value : String) : Message :=
  { msg with headers := fun h => if h = name then value else msg.headers h }

-- what both validators ask before they accept
def examine (reg : Registry D) (v : Validator) (topic : String) (msg : Message) :
    Except ValidationError Descriptor :=
  let subject := if trimSpace (msg.headers "schema_subject") = "" then trimSpace topic
    else trimSpace (msg.headers "schema_subject")
  let version := if trimSpace (msg.headers "schema_version") = "" then v.versionOrDefault
    else trimSpace (msg.headers "schema_version")
  match resolve lib reg subject version msg.headers with
  | .error e => .error e
  | .ok desc => match validateHeaders desc msg.headers with
      | some e => .error e
      | none => match validatePayload lib reg desc msg.value with
          | some e => .error e
          | none => .ok desc

def handleFailure (v : Validator) (msg : Message) (e : ValidationError) :
    Option ValidationError × Message :=
  match v.mode with
  | .warn => (none,msg.set "schema_validation_warn" e.code)
  | .enforce => (some e,msg)

def stamp (desc : Descriptor) (msg : Message) : Message :=
  ((((msg.set "schema_subject" desc.subject).set "schema_version" desc.version).set "schema_id"
    desc.schemaID).set "schema_hash" desc.schemaHash).set "schema_message" desc.message

def validateBeforePublish (reg : Registry D) (v : Validator) (topic : String) (msg : Message) :
    Option ValidationError × Message :=
  match examine lib reg v topic msg with
  | .error e => handleFailure v msg e
  | .ok desc => (none,stamp desc msg)

def validateAfterConsume (reg : Registry D) (v : Validator) (topic : String) (msg : Message) :
    Option ValidationError × Message :=
  match examine lib reg v topic msg with
  | .error e => handleFailure v msg e
  | .ok _ => (none,msg)

end Source

end Nimburion.EventBus.Schema
