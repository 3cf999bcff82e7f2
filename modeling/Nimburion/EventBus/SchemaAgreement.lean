import Nimburion.EventBus.Schema
import Mathlib.Data.List.Nodup

namespace Nimburion.EventBus.Schema
open GoText MapOrder

variable {D : Type}

section Names

theorem isSpace_nameChar {c : Char} (h : c.isAlphanum ∨ c = '_' ∨ c = '.') : isSpace c = false := by
  rcases h with h | rfl | rfl
  · exact isSpace_of_isAlphanum h
  · decide
  · decide

theorem validName_trimmed {s : String} (h : validName s = true) : s ≠ "" ∧ trimSpace s = s := by
  simp only [validName,Bool.and_eq_true,decide_eq_true_eq,List.all_eq_true,Bool.or_eq_true] at h
  exact ⟨h.1,trimSpace_of_no_space fun c hc => isSpace_nameChar (by
    rcases h.2 c hc with (h | h) | h
    · exact .inl h
    · exact .inr (.inl h)
    · exact .inr (.inr h))⟩

end Names

section Registering

variable (lib : Library D)

def answers (k : String) (md : MessageDescriptor D) : Bool :=
  normalizeKey lib md.fullName = k || normalizeKey lib md.name = k

theorem set_set_lookup (reg : Registry D) (md : MessageDescriptor D) (k : String) :
    ((reg.set (normalizeKey lib md.fullName) md).set (normalizeKey lib md.name) md) k =
      if answers lib k md then some md else reg k := by
  simp only [Registry.set,answers,Bool.or_eq_true,decide_eq_true_eq,eq_comm (a := k)]
  split_ifs with h₁ h₂ h₃ h₄ <;> simp_all

mutual

theorem registerMessage_lookup (k parent : String) : ∀ (m : Declared D) (reg : Registry D),
    registerMessage lib parent m reg k =
      ((m.flatten parent).reverse.find? (answers lib k)).or (reg k)
  | .message name definition nested, reg => by
      have hset := set_set_lookup lib reg ⟨qualified parent name,name,definition⟩ k
      dsimp only at hset
      rw [registerMessage,Declared.flatten]
      dsimp only
      rw [registerMessages_lookup k _ nested,hset,List.reverse_cons,List.find?_append,
        Option.or_assoc]
      congr 1
      split_ifs with h
      · rw [List.find?_cons_of_pos h,Option.some_or]
      · rw [List.find?_cons_of_neg h,List.find?_nil,Option.none_or]

theorem registerMessages_lookup (k parent : String) : ∀ (list : List (Declared D)) (reg : Registry D),
    registerMessages lib parent list reg k =
      ((flattenAll parent list).reverse.find? (answers lib k)).or (reg k)
  | [], reg => by rw [registerMessages,flattenAll,List.reverse_nil,List.find?_nil,Option.none_or]
  | m :: list, reg => by
      rw [registerMessages,registerMessages_lookup k parent list,registerMessage_lookup k parent m,
        flattenAll,findLast_append,Option.or_assoc]

end

variable {lib} {order : List (File D)} {reg : Registry D}

theorem lookup_eq (h : newLocalRegistry lib order = some reg) (k : String) :
    reg k = (order.flatMap File.all).reverse.find? (answers lib k) := by
  rw [newLocalRegistry] at h
  split_ifs at h
  cases h
  have hfold : ∀ (files : List (File D)) (reg : Registry D),
      files.foldl (fun reg f => registerMessages lib f.package f.messages reg) reg k =
        ((files.flatMap File.all).reverse.find? (answers lib k)).or (reg k) := by
    intro files
    induction files with
    | nil => intro reg; simp
    | cons f files ih =>
      intro reg
      rw [List.foldl_cons,ih,registerMessages_lookup,List.flatMap_cons,findLast_append,
        Option.or_assoc]
      rfl
  rw [hfold,Option.or_none]

theorem lookup_mem (h : newLocalRegistry lib order = some reg) {k : String}
    {md : MessageDescriptor D} (hk : reg k = some md) :
    md ∈ order.flatMap File.all ∧ answers lib k md = true := by
  rw [lookup_eq h] at hk
  exact ⟨List.mem_reverse.mp (List.mem_of_find?_eq_some hk),List.find?_some hk⟩

end Registering

section Examining

variable {lib : Library D} {reg : Registry D}

structure Text (s : String) : Prop where
  ne : s ≠ ""
  trimmed : trimSpace s = s

theorem text_or {s t : String} (ht : Text t) :
    Text (if trimSpace s = "" then t else trimSpace s) := by
  split_ifs with h
  · exact ht
  · exact ⟨h,trimSpace_trimSpace s⟩

theorem text_v1 : Text "v1" := ⟨by decide,trimSpace_of_all (by decide)⟩

theorem Validator.text (v : Validator) : Text v.versionOrDefault := text_or text_v1

theorem findCandidate_some {candidates : List String} {md : MessageDescriptor D}
    (h : findCandidate lib reg candidates = some md) : ∃ k, reg k = some md := by
  induction candidates with
  | nil => cases h
  | cons c candidates ih =>
    rw [findCandidate,Option.or_eq_some_iff] at h
    rcases h with h | ⟨_,h⟩
    · exact ⟨_,h⟩
    · exact ih h

theorem resolve_ok {subject version : String} {headers : Headers} {d : Descriptor}
    (h : resolve lib reg subject version headers = .ok d) : ∃ k md subject version,
      reg k = some md ∧ Text subject ∧ Text version ∧
        d = describe lib subject version md.fullName := by
  rw [resolve] at h
  by_cases hsubject : trimSpace subject = ""
  · simp [hsubject] at h
  rw [if_neg hsubject] at h
  dsimp only at h
  split at h
  · cases h
  · rename_i md hfound
    cases h
    obtain ⟨k,hk⟩ := findCandidate_some hfound
    exact ⟨k,md,_,_,hk,⟨hsubject,trimSpace_trimSpace _⟩,text_or text_v1,rfl⟩

theorem validatePayload_none {d : Descriptor} {payload : Bytes} :
    validatePayload lib reg d payload = none ↔ payload ≠ [] ∧
      ∃ md, reg (normalizeKey lib d.message) = some md ∧
        decodes lib md.definition payload = true := by
  rw [validatePayload]
  by_cases hempty : payload = []
  · simp [hempty]
  · rw [if_neg hempty]
    cases hk : reg (normalizeKey lib d.message) with
    | none => simp
    | some md =>
      cases hdecodes : decodes lib md.definition payload with
      | true => simp [hdecodes,hempty]
      | false => simp [hdecodes]

theorem examine_ok {v : Validator} {topic : String} {msg : Message} {d : Descriptor}
    (h : examine lib reg v topic msg = .ok d) :
    (∃ k md subject version, reg k = some md ∧ Text subject ∧ Text version ∧
      d = describe lib subject version md.fullName) ∧
    validatePayload lib reg d msg.value = none := by
  rw [examine] at h
  split at h
  · cases h
  · rename_i desc hresolve
    split at h
    · cases h
    · split at h
      · cases h
      · rename_i hpayload
        cases h
        exact ⟨resolve_ok hresolve,hpayload⟩

theorem schemaID_text {subject version full : String} (hs : Text subject) (hf : Text full) :
    Text (describe lib subject version full).schemaID := by
  have hjoin := trimSpace_joined (":" ++ version ++ ":") hs.trimmed hs.ne hf.trimmed hf.ne
  have hID : (describe lib subject version full).schemaID =
      subject ++ (":" ++ version ++ ":") ++ full := by
    simp only [describe,String.append_assoc]
  rw [hID]
  refine ⟨fun hempty => ?_,hjoin⟩
  have hlist := congrArg String.toList hempty
  simp only [String.toList_append,String.toList_empty,List.append_eq_nil_iff] at hlist
  exact hs.ne (String.toList_inj.mp hlist.1.1)

theorem schemaID_inj {subject version full full' : String}
    (h : (describe lib subject version full).schemaID =
      (describe lib subject version full').schemaID) : full = full' := by
  have hlist := congrArg String.toList h
  simp only [describe,String.toList_append,List.append_cancel_left_eq] at hlist
  exact String.toList_inj.mp hlist

theorem validateHeaders_stamp {subject version full full' : String} (hs : Text subject)
    (hf : Text full) (msg : Message) :
    (validateHeaders (describe lib subject version full')
      (stamp (describe lib subject version full) msg).headers).isNone ↔ full' = full := by
  have hID : Text (describe lib subject version full).schemaID := schemaID_text hs hf
  have hhash := lib.hash_hex ((describe lib subject version full).schemaID ++ "|" ++ full)
  have hstampedID : (stamp (describe lib subject version full) msg).headers "schema_id" =
      (describe lib subject version full).schemaID := by simp [stamp,Message.set]
  have hstampedHash : (stamp (describe lib subject version full) msg).headers "schema_hash" =
      (describe lib subject version full).schemaHash := by simp [stamp,Message.set]
  rw [validateHeaders,hstampedID,hID.trimmed,hstampedHash]
  constructor
  · intro h
    split_ifs at h with hmismatch
    · cases h
    · cases h
    · have heq := not_and_not_right.mp hmismatch hID.ne
      exact (schemaID_inj heq).symm
  · rintro rfl
    have htrim : trimSpace (describe lib subject version full').schemaHash =
        (describe lib subject version full').schemaHash := hhash
    rw [htrim]
    simp

-- a message without headers resolves by its topic
theorem examine_topic {topic : String} {payload : Bytes} {md : MessageDescriptor D} (ht : Text topic)
    (v : Validator) (hk : reg (normalizeKey lib topic) = some md)
    (hfull : reg (normalizeKey lib md.fullName) = some md) (hne : payload ≠ [])
    (hdecodes : decodes lib md.definition payload = true) :
    examine lib reg v topic ⟨payload,fun _ => ""⟩ =
      .ok (describe lib topic v.versionOrDefault md.fullName) := by
  have hempty : trimSpace "" = "" := trimSpace_of_all (by decide)
  have hpayload : validatePayload lib reg (describe lib topic v.versionOrDefault md.fullName)
      payload = none := validatePayload_none.mpr ⟨hne,md,hfull,hdecodes⟩
  simp only [examine,resolve,validateHeaders,hempty,ht.trimmed,ht.ne,v.text.trimmed,v.text.ne,
    if_true,if_false,List.nil_append,findCandidate,hk,Option.some_or,ne_eq,not_true_eq_false,
    false_and,hpayload]

theorem resolve_ok_iff {subject version : String} {headers : Headers} (hs : Text subject)
    (hv : Text version) (hf : Text (headers "schema_message")) (d : Descriptor) :
    resolve lib reg subject version headers = .ok d ↔
      ∃ md, findCandidate lib reg [headers "schema_message",subject] = some md ∧
        d = describe lib subject version md.fullName := by
  simp only [resolve,hs.trimmed,hs.ne,hv.trimmed,hv.ne,hf.trimmed,hf.ne,if_false,
    List.singleton_append]
  cases hfound : findCandidate lib reg [headers "schema_message",subject] with
  | none => simp
  | some md => simp [eq_comm]

theorem examine_ok_iff {v : Validator} {topic : String} {msg : Message}
    (hs : Text (msg.headers "schema_subject")) (hv : Text (msg.headers "schema_version"))
    (d : Descriptor) : examine lib reg v topic msg = .ok d ↔
      resolve lib reg (msg.headers "schema_subject") (msg.headers "schema_version") msg.headers =
          .ok d ∧
        (validateHeaders d msg.headers).isNone ∧ validatePayload lib reg d msg.value = none := by
  simp only [examine,hs.trimmed,hs.ne,hv.trimmed,hv.ne,if_false]
  cases hresolved : resolve lib reg (msg.headers "schema_subject") (msg.headers "schema_version")
      msg.headers with
  | error e => simp
  | ok d' =>
    cases hheaders : validateHeaders d' msg.headers with
    | some e =>
      refine iff_of_false (by simp [hheaders]) ?_
      rintro ⟨⟨⟩,hnone,-⟩
      simp [hheaders] at hnone
    | none =>
      cases hpayload : validatePayload lib reg d' msg.value with
      | some e =>
        refine iff_of_false (by simp [hheaders,hpayload]) ?_
        rintro ⟨⟨⟩,-,hnone⟩
        simp [hpayload] at hnone
      | none =>
        simp only [hheaders,hpayload]
        refine ⟨fun h => ?_,fun h => h.1⟩
        cases h
        exact ⟨rfl,by rw [hheaders]; rfl,hpayload⟩

-- what a validator finds in a message that another one has stamped
theorem examine_stamp {subject version full : String} (hs : Text subject) (hv : Text version)
    (hf : Text full) (v : Validator) (topic : String) (msg : Message) (d : Descriptor) :
    examine lib reg v topic (stamp (describe lib subject version full) msg) = .ok d ↔
      d = describe lib subject version full ∧ msg.value ≠ [] ∧
        ∃ md, reg (normalizeKey lib full) = some md ∧ md.fullName = full ∧
          decodes lib md.definition msg.value = true := by
  have hsubject : (stamp (describe lib subject version full) msg).headers "schema_subject" =
      subject := by simp [stamp,Message.set,describe]
  have hversion : (stamp (describe lib subject version full) msg).headers "schema_version" =
      version := by simp [stamp,Message.set,describe]
  have hmessage : (stamp (describe lib subject version full) msg).headers "schema_message" =
      full := by simp [stamp,Message.set,describe]
  have hvalue : (stamp (describe lib subject version full) msg).value = msg.value := rfl
  rw [examine_ok_iff (hsubject ▸ hs) (hversion ▸ hv),hsubject,hversion,hvalue,
    resolve_ok_iff hs hv (hmessage ▸ hf),hmessage]
  constructor
  · rintro ⟨⟨md,hfound,rfl⟩,hheaders,hpayload⟩
    have hname := (validateHeaders_stamp hs hf msg).mp hheaders
    rw [hname] at hpayload
    obtain ⟨hne,md',hmd',hdecodes⟩ := validatePayload_none.mp hpayload
    have heq : md' = md := by
      rw [findCandidate,show reg (normalizeKey lib full) = some md' from hmd',Option.some_or] at hfound
      exact Option.some.inj hfound
    subst heq
    exact ⟨by rw [hname],hne,md',hmd',hname,hdecodes⟩
  · rintro ⟨rfl,hne,md,hmd,hname,hdecodes⟩
    refine ⟨⟨md,?_,by rw [hname]⟩,(validateHeaders_stamp hs hf msg).mpr rfl,
      validatePayload_none.mpr ⟨hne,md,hmd,hdecodes⟩⟩
    rw [findCandidate,hmd,Option.some_or]

end Examining

section Agreement

variable (lib : Library D) (set : DescriptorSet D)

def DescriptorSet.all : List (MessageDescriptor D) := set.files.flatMap File.all

-- what is published is accepted under the same type, in every order of the files
def Accepts : Prop :=
  ∀ (order order' : List (File D)), order.Perm set.files → order'.Perm set.files →
    ∀ reg reg', newLocalRegistry lib order = some reg → newLocalRegistry lib order' = some reg' →
    ∀ v v' : Validator, v.mode = .enforce → v'.mode = .enforce →
    ∀ (topic : String) (msg msg' : Message),
      validateBeforePublish lib reg v topic msg = (none,msg') →
      (validateAfterConsume lib reg' v' topic msg').1 = none ∧
        ∃ d d', examine lib reg v topic msg = .ok d ∧ examine lib reg' v' topic msg' = .ok d' ∧
          d'.message = d.message

-- full names resolve to their messages
def ResolvesNames : Prop :=
  ∀ order : List (File D), order.Perm set.files →
    ∀ reg, newLocalRegistry lib order = some reg → ∀ md ∈ set.all,
    ∀ (version : String) (headers : Headers), trimSpace (headers "schema_message") = "" →
      ∃ d, resolve lib reg md.fullName version headers = .ok d ∧ d.message = md.fullName

-- no message is registered behind another under the key of the other's full name: neither later in
-- the same file nor in another file
def Unshadowed : Prop :=
  ∀ l f r, set.files = l ++ f :: r → ∀ x md y, f.all = x ++ md :: y →
    ∀ m, m ∈ y ∨ m ∈ (l ++ r).flatMap File.all →
      answers lib (normalizeKey lib md.fullName) m = false

variable {lib set}

theorem DescriptorSet.eq_of_fullName {md md' : MessageDescriptor D} (h : md ∈ set.all)
    (h' : md' ∈ set.all) (heq : md.fullName = md'.fullName) : md = md' :=
  List.inj_on_of_nodup_map set.unique h h' heq

theorem DescriptorSet.text {md : MessageDescriptor D} (h : md ∈ set.all) : Text md.fullName :=
  ⟨(validName_trimmed (set.valid md h)).1,(validName_trimmed (set.valid md h)).2⟩

theorem answers_full (md : MessageDescriptor D) :
    answers lib (normalizeKey lib md.fullName) md = true := by simp [answers]

theorem newLocalRegistry_some {order : List (File D)} {md : MessageDescriptor D}
    (h : md ∈ order.flatMap File.all) : ∃ reg, newLocalRegistry lib order = some reg := by
  rw [newLocalRegistry,if_neg (List.ne_nil_of_mem h)]
  exact ⟨_,rfl⟩

theorem fullNames_kept_iff :
    (∀ order : List (File D), order.Perm set.files → ∀ reg, newLocalRegistry lib order = some reg →
      ∀ md ∈ set.all, reg (normalizeKey lib md.fullName) = some md) ↔ Unshadowed lib set := by
  have hnodup : (set.files.flatMap File.all).Nodup := List.Nodup.of_map _ set.unique
  constructor
  · intro h l f r hfiles x md y hall m hm
    have hmd : md ∈ set.files.flatMap File.all :=
      List.mem_flatMap.mpr ⟨f,by simp [hfiles],by simp [hall]⟩
    have hself : answers lib (normalizeKey lib md.fullName) md = true := answers_full md
    have hlast := (findLast_iff hnodup hmd hself).mp fun order horder => ?_
    · exact hlast l f r hfiles x y hall m hm
    · obtain ⟨reg,hreg⟩ : ∃ reg, newLocalRegistry lib order = some reg :=
        newLocalRegistry_some ((horder.flatMap_right File.all).mem_iff.mpr hmd)
      rw [← lookup_eq hreg]
      exact h order horder reg hreg md hmd
  · intro h order horder reg hreg md hmd
    rw [lookup_eq hreg]
    refine (findLast_iff hnodup hmd (answers_full md)).mpr ?_ order horder
    exact fun l f r hfiles x y hall m hm => h l f r hfiles x md y hall m hm

theorem examine_of_published {reg : Registry D} {v : Validator} (hv : v.mode = .enforce)
    {topic : String} {msg msg' : Message}
    (h : validateBeforePublish lib reg v topic msg = (none,msg')) :
    ∃ d, examine lib reg v topic msg = .ok d ∧ msg' = stamp d msg := by
  rw [validateBeforePublish] at h
  split at h
  · rw [handleFailure,hv] at h
    cases h
  · rename_i d hd
    cases h
    exact ⟨d,hd,rfl⟩

theorem consumed_iff {reg : Registry D} {v : Validator} (hv : v.mode = .enforce) {topic : String}
    {msg : Message} :
    (validateAfterConsume lib reg v topic msg).1 = none ↔ ∃ d, examine lib reg v topic msg = .ok d := by
  rw [validateAfterConsume]
  cases hd : examine lib reg v topic msg with
  | error e => simp [handleFailure,hv]
  | ok d => simp

-- the stamp of a producer names a message of its registry
theorem published_descriptor {order : List (File D)} (horder : order.Perm set.files)
    {reg : Registry D} (hreg : newLocalRegistry lib order = some reg) {v : Validator}
    {topic : String} {msg : Message} {d : Descriptor} (hd : examine lib reg v topic msg = .ok d) :
    ∃ md ∈ set.all, ∃ subject version, Text subject ∧ Text version ∧
      d = describe lib subject version md.fullName ∧ msg.value ≠ [] ∧
      ∃ md', reg (normalizeKey lib md.fullName) = some md' ∧
        decodes lib md'.definition msg.value = true := by
  obtain ⟨⟨k,md,subject,version,hk,hs,hv,rfl⟩,hpayload⟩ := examine_ok hd
  obtain ⟨hne,hdecodes⟩ := validatePayload_none.mp hpayload
  exact ⟨md,(horder.flatMap_right File.all).mem_iff.mp (lookup_mem hreg hk).1,subject,version,hs,hv,
    rfl,hne,hdecodes⟩

variable (lib set) in
theorem schema_sides_agree_iff :
    Accepts lib set ∧ ResolvesNames lib set ↔ Unshadowed lib set := by
  rw [← fullNames_kept_iff]
  constructor
  · intro h order horder reg hreg md hmd
    obtain ⟨d,hd,hname⟩ := h.2 order horder reg hreg md hmd "" (fun _ => "")
      (trimSpace_of_all (by decide))
    have hempty : trimSpace "" = "" := trimSpace_of_all (by decide)
    rw [resolve] at hd
    simp only [(set.text hmd).trimmed,(set.text hmd).ne,hempty,if_true,if_false,List.nil_append,
      findCandidate,Option.or_none] at hd
    cases hfound : reg (normalizeKey lib md.fullName) with
    | none => simp [hfound] at hd
    | some md' =>
      simp only [hfound,Except.ok.injEq] at hd
      rw [← hd] at hname
      have hmem := (horder.flatMap_right File.all).mem_iff.mp (lookup_mem hreg hfound).1
      rw [set.eq_of_fullName hmem hmd hname]
  · intro h
    constructor
    · intro order order' horder horder' reg reg' hreg hreg' v v' hv hv' topic msg msg' hpublished
      obtain ⟨d,hd,rfl⟩ := examine_of_published hv hpublished
      obtain ⟨md,hmd,subject,version,hs,hver,rfl,hne,md',hmd',hdecodes⟩ :=
        published_descriptor horder hreg hd
      rw [h order horder reg hreg md hmd] at hmd'
      cases hmd'
      have hconsumed := (examine_stamp hs hver (set.text hmd) v' topic msg _).mpr
        ⟨rfl,hne,md,h order' horder' reg' hreg' md hmd,rfl,hdecodes⟩
      exact ⟨(consumed_iff hv').mpr ⟨_,hconsumed⟩,_,_,hd,hconsumed,rfl⟩
    · intro order horder reg hreg md hmd version headers hheader
      refine ⟨describe lib md.fullName (if trimSpace version = "" then "v1" else trimSpace version)
        md.fullName,?_,rfl⟩
      rw [resolve]
      simp only [(set.text hmd).trimmed,(set.text hmd).ne,hheader,if_true,if_false,List.nil_append,
        findCandidate,h order horder reg hreg md hmd,Option.some_or]

-- the hash is of names only, so a consumer with another definition turns a message away just when
-- its payload does not decode, or when another message has taken the name's key
theorem drift_rejected_iff (lib : Library D) (set set' : DescriptorSet D) (order order' : List (File D))
    (horder : order.Perm set.files) (horder' : order'.Perm set'.files) (reg reg' : Registry D)
    (hreg : newLocalRegistry lib order = some reg) (hreg' : newLocalRegistry lib order' = some reg')
    (v v' : Validator) (hv : v.mode = .enforce) (hv' : v'.mode = .enforce) (topic topic' : String)
    (msg msg' : Message) (hpublished : validateBeforePublish lib reg v topic msg = (none,msg')) :
    ∃ d, examine lib reg v topic msg = .ok d ∧
      ((validateAfterConsume lib reg' v' topic' msg').1 ≠ none ↔
        ∀ md ∈ set'.all, md.fullName = d.message →
          reg' (normalizeKey lib md.fullName) = some md →
          decodes lib md.definition msg.value = false) := by
  obtain ⟨d,hd,rfl⟩ := examine_of_published hv hpublished
  obtain ⟨md,hmd,subject,version,hs,hver,rfl,hne,_⟩ := published_descriptor horder hreg hd
  refine ⟨_,hd,?_⟩
  rw [ne_eq,consumed_iff hv']
  simp only [examine_stamp hs hver (set.text hmd)]
  have hmessage : (describe lib subject version md.fullName).message = md.fullName := rfl
  rw [hmessage]
  constructor
  · intro h md' _ hname hmd'
    by_contra hdecodes
    rw [hname] at hmd'
    exact h ⟨_,rfl,hne,md',hmd',hname,by simpa using hdecodes⟩
  · rintro h ⟨_,rfl,_,md',hmd',hname,hdecodes⟩
    have hmem := (horder'.flatMap_right File.all).mem_iff.mp (lookup_mem hreg' hmd').1
    rw [h md' hmem hname (hname ▸ hmd')] at hdecodes
    cases hdecodes

-- field 1 as a number in protobuf, and the field id in JSON
def binaryOne : Bytes := [8,1]

def jsonOne : Bytes := [123,34,105,100,34,58,49,125]

def orderHash : String → String
  | "Order:v1:Order|Order" => "ed5de84c26813d8a39d6c7086e4c1b247ac72f27cf64d4ecd059e734acdc863e"
  | "Order:v1:shop.Order|shop.Order" =>
      "6eae29d8ffe910d459f59262fe5184943aff2044e7f3c075d36a66b252b6e2e1"
  | _ => ""

-- a definition is the text of its fields; protobuf keeps fields it does not know, JSON refuses them
def orderLibrary : Library String where
  toLower := fun s => String.ofList (s.toList.map Char.toLower)
  hash := orderHash
  unmarshal := fun _ payload => payload = binaryOne
  unmarshalJSON := fun definition payload => definition = "int64 id = 1;" && payload = jsonOne
  hash_hex := by
    intro s
    apply trimSpace_of_all
    unfold orderHash
    split <;> simp only [String.reduceToList] <;> rfl

def enforcing : Validator := ⟨.enforce,"v1"⟩

def bareOrder : File String := ⟨"",[.message "Order" "int64 id = 1;" []]⟩

def shopOrder (fields : String) : File String := ⟨"shop",[.message "Order" fields []]⟩

def twoOrders : DescriptorSet String where
  files := [bareOrder,shopOrder "int64 id = 1;"]
  valid := by decide +kernel
  unique := by decide +kernel

def oneOrder (fields : String) : DescriptorSet String where
  files := [shopOrder fields]
  valid := by
    have hname : validName "shop.Order" = true := by decide +kernel
    intro md hmd
    rw [List.mem_singleton.mp hmd]
    exact hname
  unique := List.nodup_singleton _

def orderRegistry (order : List (File String)) : Registry String :=
  (newLocalRegistry orderLibrary order).getD fun _ => none

def orderMessage (payload : Bytes) : Message := ⟨payload,fun _ => ""⟩

theorem lookup_shopOrder (fields k : String)
    (hk : answers orderLibrary k ⟨"shop.Order","Order",fields⟩ = true) :
    orderRegistry [shopOrder fields] k = some ⟨"shop.Order","Order",fields⟩ := by
  have hreg : newLocalRegistry orderLibrary [shopOrder fields] =
      some (orderRegistry [shopOrder fields]) := rfl
  have hall : [shopOrder fields].flatMap File.all = [⟨"shop.Order","Order",fields⟩] := rfl
  rw [lookup_eq hreg,hall,List.reverse_singleton,List.find?_cons_of_pos hk]

theorem examine_shopOrder {fields : String} {payload : Bytes} (hne : payload ≠ [])
    (hdecodes : decodes orderLibrary fields payload = true) :
    examine orderLibrary (orderRegistry [shopOrder fields]) enforcing "Order"
      (orderMessage payload) = .ok (describe orderLibrary "Order" "v1" "shop.Order") := by
  have htext : Text "Order" := ⟨by decide,trimSpace_of_all (by decide)⟩
  have hversion : enforcing.versionOrDefault = "v1" := by
    rw [Validator.versionOrDefault]
    simp [enforcing,text_v1.trimmed]
  rw [← hversion]
  exact examine_topic htext enforcing (lookup_shopOrder fields _ (by simp [answers]))
    (lookup_shopOrder fields _ (by simp [answers])) hne hdecodes

theorem publish_shopOrder {fields : String} {payload : Bytes} (hne : payload ≠ [])
    (hdecodes : decodes orderLibrary fields payload = true) :
    validateBeforePublish orderLibrary (orderRegistry [shopOrder fields]) enforcing "Order"
        (orderMessage payload) =
      (none,stamp (describe orderLibrary "Order" "v1" "shop.Order") (orderMessage payload)) := by
  rw [validateBeforePublish,examine_shopOrder hne hdecodes]

-- the producer's process visits the file of the package first, the consumer's last
theorem two_orders_disagree :
    ¬(Accepts orderLibrary twoOrders ∧ ResolvesNames orderLibrary twoOrders) := by
  intro hclaim
  have hresult : (validateBeforePublish orderLibrary
        (orderRegistry [shopOrder "int64 id = 1;",bareOrder]) enforcing "Order"
        (orderMessage binaryOne)).1 = none ∧
      ((validateAfterConsume orderLibrary (orderRegistry [bareOrder,shopOrder "int64 id = 1;"])
        enforcing "Order" (validateBeforePublish orderLibrary
          (orderRegistry [shopOrder "int64 id = 1;",bareOrder]) enforcing "Order"
          (orderMessage binaryOne)).2).1.isSome) = true := by decide +kernel
  obtain ⟨hpublished,hrejected⟩ := hresult
  have haccepted := hclaim.1
    [shopOrder "int64 id = 1;",bareOrder] [bareOrder,shopOrder "int64 id = 1;"]
    (List.Perm.swap _ _ _) (List.Perm.refl _) _ _ rfl rfl enforcing enforcing rfl rfl "Order"
    (orderMessage binaryOne) _ (Prod.ext hpublished rfl)
  exact absurd haccepted.1 (Option.isSome_iff_ne_none.mp hrejected)

theorem renamed_field_rejected_as_json :
    (validateAfterConsume orderLibrary (orderRegistry [shopOrder "int64 total = 1;"]) enforcing
      "Order" (stamp (describe orderLibrary "Order" "v1" "shop.Order") (orderMessage jsonOne))).1 ≠
        none := by
  obtain ⟨d,_,hiff⟩ := drift_rejected_iff orderLibrary (oneOrder "int64 id = 1;")
    (oneOrder "int64 total = 1;") [shopOrder "int64 id = 1;"] [shopOrder "int64 total = 1;"]
    (List.Perm.refl _) (List.Perm.refl _) _ _ rfl rfl enforcing enforcing rfl rfl "Order" "Order"
    (orderMessage jsonOne) _ (publish_shopOrder (by decide) (by decide))
  refine hiff.mpr fun md hmd _ _ => ?_
  rw [List.mem_singleton.mp hmd]
  decide

-- in protobuf the renamed field goes through
theorem renamed_field_accepted_in_binary :
    ¬∀ (D : Type) (lib : Library D) (set set' : DescriptorSet D) (order order' : List (File D)),
      order.Perm set.files → order'.Perm set'.files → ∀ reg reg',
      newLocalRegistry lib order = some reg → newLocalRegistry lib order' = some reg' →
      ∀ v v' : Validator, v.mode = .enforce → v'.mode = .enforce →
      ∀ (topic : String) (msg msg' : Message) (d : Descriptor),
        validateBeforePublish lib reg v topic msg = (none,msg') →
        examine lib reg v topic msg = .ok d → ∀ md ∈ set.all, ∀ md' ∈ set'.all,
          md.fullName = d.message → md'.fullName = d.message → md.definition ≠ md'.definition →
          (validateAfterConsume lib reg' v' topic msg').1 ≠ none := by
  intro hclaim
  have htext : ∀ s ∈ ["Order","shop.Order"], Text s := by
    intro s hs
    simp only [List.mem_cons,List.not_mem_nil,or_false] at hs
    rcases hs with rfl | rfl
    · exact ⟨by decide,trimSpace_of_all (by decide)⟩
    · exact ⟨by decide,trimSpace_of_all (by decide)⟩
  simp only [List.forall_mem_cons] at htext
  have haccepted : (validateAfterConsume orderLibrary (orderRegistry [shopOrder "int64 total = 1;"])
      enforcing "Order"
      (stamp (describe orderLibrary "Order" "v1" "shop.Order") (orderMessage binaryOne))).1 = none :=
    (consumed_iff rfl).mpr ⟨_,(examine_stamp htext.1 text_v1 htext.2.1 _ _ _ _).mpr ⟨rfl,by decide,
      _,lookup_shopOrder "int64 total = 1;" _ (by simp [answers]),rfl,by decide⟩⟩
  exact hclaim String orderLibrary (oneOrder "int64 id = 1;") (oneOrder "int64 total = 1;")
    [shopOrder "int64 id = 1;"] [shopOrder "int64 total = 1;"] (List.Perm.refl _)
    (List.Perm.refl _) _ _ rfl rfl enforcing enforcing rfl rfl "Order" (orderMessage binaryOne) _ _
    (publish_shopOrder (by decide) (by decide)) (examine_shopOrder (by decide) (by decide))
    ⟨"shop.Order","Order","int64 id = 1;"⟩ List.mem_cons_self
    ⟨"shop.Order","Order","int64 total = 1;"⟩ List.mem_cons_self rfl rfl (by decide) haccepted

end Agreement

end Nimburion.EventBus.Schema
