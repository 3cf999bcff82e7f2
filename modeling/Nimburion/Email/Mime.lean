import Nimburion.Lib.MailFormat
import Nimburion.Lib.Replace

namespace Nimburion.Email

open ByteText (Bytes ascii asciiSpace trimSpace fields mem_fields trimSpace_head head_intercalate)
open MailFormat
open Replace (replaceAll)

-- the parts of email.Message that BuildMIMEMessage reads; the map of headers is in the order
-- its iteration visits it
structure Message where
  fromAddress : Bytes
  toAddresses : List Bytes
  cc : List Bytes
  replyTo : Bytes
  subject : Bytes
  textBody : Bytes
  htmlBody : Bytes
  headers : List (Bytes × Bytes)

def sanitizeHeaderName (value : Bytes) : Bytes :=
  let name := trimSpace value
  if name = [] ∨ (13 : UInt8) ∈ name ∨ (10 : UInt8) ∈ name ∨ (58 : UInt8) ∈ name then [] else name

def sanitizeHeaderValue (value : Bytes) : Bytes :=
  let trimmed := trimSpace value
  if trimmed = [] then []
  else
    let trimmed := replaceAll (ascii "\r") (ascii " ") trimmed
    let trimmed := replaceAll (ascii "\n") (ascii " ") trimmed
    (ascii " ").intercalate (fields trimmed)

def sanitizeAddressList (values : List Bytes) : List Bytes :=
  (values.map sanitizeHeaderValue).filter (· != [])

def headerLine (name value : Bytes) : Bytes := name ++ ascii ": " ++ value ++ ascii "\r\n"

def writeAddresses (name : String) (values : List Bytes) : Bytes :=
  if sanitizeAddressList values ≠ [] then
    headerLine (ascii name) ((ascii ", ").intercalate (sanitizeAddressList values))
  else []

def writeHeader (header : Bytes × Bytes) : Bytes :=
  let key := sanitizeHeaderName header.1
  let value := sanitizeHeaderValue header.2
  if key = [] ∨ value = [] then [] else headerLine key value

def boundary : Bytes := ascii "nimburion-alt-boundary"

def textType : Bytes := ascii "text/plain; charset=UTF-8"

def htmlType : Bytes := ascii "text/html; charset=UTF-8"

def multipartType : Bytes := ascii "multipart/alternative; boundary=" ++ boundary

def writeBody (text html : Bytes) : Bytes :=
  if text ≠ [] ∧ html ≠ [] then
    headerLine (ascii "Content-Type") multipartType ++ ascii "\r\n" ++
      (ascii "--" ++ boundary ++ ascii "\r\n") ++
      headerLine (ascii "Content-Type") textType ++ ascii "\r\n" ++
      (text ++ ascii "\r\n") ++
      (ascii "--" ++ boundary ++ ascii "\r\n") ++
      headerLine (ascii "Content-Type") htmlType ++ ascii "\r\n" ++
      (html ++ ascii "\r\n") ++
      (ascii "--" ++ boundary ++ ascii "--\r\n")
  else if html ≠ [] then
    headerLine (ascii "Content-Type") htmlType ++ ascii "\r\n" ++ html
  else
    headerLine (ascii "Content-Type") textType ++ ascii "\r\n" ++ text

def buildMIMEMessage (msg : Message) : Bytes :=
  headerLine (ascii "From") (sanitizeHeaderValue msg.fromAddress) ++
    writeAddresses "To" msg.toAddresses ++
    writeAddresses "Cc" msg.cc ++
    (if sanitizeHeaderValue msg.replyTo ≠ [] then
      headerLine (ascii "Reply-To") (sanitizeHeaderValue msg.replyTo) else []) ++
    headerLine (ascii "Subject") (sanitizeHeaderValue msg.subject) ++
    headerLine (ascii "MIME-Version") (ascii "1.0") ++
    msg.headers.flatMap writeHeader ++
    writeBody (trimSpace msg.textBody) (trimSpace msg.htmlBody)

section Specification

def supplied (name : String) (value : Bytes) (present : Bool) : List Field :=
  if present then [⟨ascii name,value⟩] else []

-- the fields the code writes for the parts of the message, in their order
def standardFields (msg : Message) : List Field :=
  ⟨ascii "From",sanitizeHeaderValue msg.fromAddress⟩ ::
    (supplied "To" ((ascii ", ").intercalate (sanitizeAddressList msg.toAddresses))
        (sanitizeAddressList msg.toAddresses != []) ++
      (supplied "Cc" ((ascii ", ").intercalate (sanitizeAddressList msg.cc))
          (sanitizeAddressList msg.cc != []) ++
        (supplied "Reply-To" (sanitizeHeaderValue msg.replyTo)
            (sanitizeHeaderValue msg.replyTo != []) ++
          [⟨ascii "Subject",sanitizeHeaderValue msg.subject⟩,⟨ascii "MIME-Version",ascii "1.0"⟩])))

-- the accepted extra headers
def extraFields (msg : Message) : List Field :=
  msg.headers.filterMap fun header =>
    if sanitizeHeaderName header.1 = [] ∨ sanitizeHeaderValue header.2 = [] then none
    else some ⟨sanitizeHeaderName header.1,sanitizeHeaderValue header.2⟩

def contentType (text html : Bytes) : Field :=
  ⟨ascii "Content-Type",
    if text ≠ [] ∧ html ≠ [] then multipartType else if html ≠ [] then htmlType else textType⟩

def headerFields (msg : Message) : List Field :=
  standardFields msg ++ extraFields msg ++
    [contentType (trimSpace msg.textBody) (trimSpace msg.htmlBody)]

def exactlyOne : List String := ["From","Subject","MIME-Version","Content-Type"]

def atMostOne : List String := ["To","Cc","Reply-To"]

-- the body that the header fields announce
def HasBody (text html : Bytes) (body : List Bytes) : Prop :=
  if text ≠ [] ∧ html ≠ [] then
    ∃ parts a b, parseMultipart boundary body = some parts ∧ parts.mapM parseEntity = some [a,b] ∧
      joinLines a.body = text ∧ joinLines b.body = html
  else joinLines body = if html ≠ [] then html else text

def Intact (msg : Message) : Prop :=
  ∃ entity, parseEntity (splitLines (buildMIMEMessage msg)) = some entity ∧
    entity.fields = headerFields msg ∧
    (∀ name ∈ exactlyOne,named (ascii name) entity.fields = 1) ∧
    (∀ name ∈ atMostOne,named (ascii name) entity.fields ≤ 1) ∧
    HasBody (trimSpace msg.textBody) (trimSpace msg.htmlBody) entity.body

-- no name outside the grammar, none of a field written already, no delimiter in a body
def Harmless (msg : Message) : Prop :=
  (∀ field ∈ extraFields msg,field.name.all ftext = true) ∧
    (∀ name ∈ exactlyOne,named (ascii name) (extraFields msg) = 0) ∧
    (∀ name ∈ atMostOne,
      named (ascii name) (standardFields msg) + named (ascii name) (extraFields msg) ≤ 1) ∧
    (trimSpace msg.textBody ≠ [] → trimSpace msg.htmlBody ≠ [] →
      Plain boundary (splitLines (trimSpace msg.textBody)) ∧
        Plain boundary (splitLines (trimSpace msg.htmlBody)))

end Specification

section Sanitizing

def noBreak (b : UInt8) : Bool := b != 13 && b != 10

-- a value that stays on its line and is read back as it is
structure Clean (value : Bytes) : Prop where
  noBreak : ∀ b ∈ value,noBreak b = true
  head : (value.head?.map wsp).getD false = false

theorem noBreak_of_not_space {b : UInt8} (h : asciiSpace b = false) : noBreak b = true := by
  rw [noBreak,Bool.and_eq_true,bne_iff_ne,bne_iff_ne]
  constructor
  · rintro rfl
    cases h
  · rintro rfl
    cases h

theorem wsp_of_not_space {b : UInt8} (h : asciiSpace b = false) : wsp b = false := by
  rw [wsp,Bool.or_eq_false_iff,beq_eq_false_iff_ne,beq_eq_false_iff_ne]
  constructor
  · rintro rfl
    cases h
  · rintro rfl
    cases h

theorem mem_intercalate {sep : Bytes} {words : List Bytes} {b : UInt8}
    (h : b ∈ sep.intercalate words) : b ∈ sep ∨ ∃ word ∈ words,b ∈ word := by
  induction words with
  | nil => simp [List.intercalate] at h
  | cons word words ih =>
    cases words with
    | nil =>
      have hword : b ∈ word := by simpa [List.intercalate] using h
      exact Or.inr ⟨word,by simp,hword⟩
    | cons next more =>
      rw [List.intercalate_cons_cons,List.mem_append,List.mem_append] at h
      rcases h with (h | h) | h
      · exact Or.inr ⟨word,by simp,h⟩
      · exact Or.inl h
      · rcases ih h with hsep | ⟨w,hw,hb⟩
        · exact Or.inl hsep
        · exact Or.inr ⟨w,by simp [hw],hb⟩

theorem clean_intercalate {sep : Bytes} {words : List Bytes} (hsep : sep.all noBreak = true)
    (hne : ∀ word ∈ words,word ≠ []) (h : ∀ word ∈ words,Clean word) :
    Clean (sep.intercalate words) := by
  constructor
  · intro b hb
    rcases mem_intercalate hb with hb | ⟨word,hword,hb⟩
    · exact List.all_eq_true.mp hsep b hb
    · exact (h word hword).noBreak b hb
  · cases words with
    | nil => rfl
    | cons word words =>
      rw [head_intercalate (hne word (by simp))]
      exact (h word (by simp)).head

theorem clean_of_not_space {word : Bytes} (h : ∀ b ∈ word,asciiSpace b = false) : Clean word := by
  refine ⟨fun b hb => noBreak_of_not_space (h b hb),?_⟩
  cases word with
  | nil => rfl
  | cons b word => exact wsp_of_not_space (h b (by simp))

theorem clean_of_all {word : Bytes} (h : word.all (fun b => !asciiSpace b) = true) : Clean word :=
  clean_of_not_space fun b hb => by simpa using List.all_eq_true.mp h b hb

theorem clean_sanitizeHeaderValue (value : Bytes) : Clean (sanitizeHeaderValue value) := by
  rw [sanitizeHeaderValue]
  split_ifs
  · exact clean_of_not_space (by simp)
  · exact clean_intercalate (by decide) (fun word hword => (mem_fields hword).1)
      fun word hword => clean_of_not_space (mem_fields hword).2

theorem clean_addresses (values : List Bytes) :
    Clean ((ascii ", ").intercalate (sanitizeAddressList values)) := by
  refine clean_intercalate (by decide) ?_ ?_
  · intro word hword
    simpa using (List.mem_filter.mp hword).2
  · intro word hword
    obtain ⟨value,_,rfl⟩ := List.mem_map.mp (List.mem_filter.mp hword).1
    exact clean_sanitizeHeaderValue value

-- a field whose line is read back as one field, if its name is in the grammar
structure Written (field : Field) : Prop where
  name : field.name ≠ []
  colon : (58 : UInt8) ∉ field.name
  clean : Clean field.name
  body : Clean field.body

theorem sanitizeHeaderName_spec {value : Bytes} (h : sanitizeHeaderName value ≠ []) :
    (58 : UInt8) ∉ sanitizeHeaderName value ∧ Clean (sanitizeHeaderName value) := by
  unfold sanitizeHeaderName at h ⊢
  dsimp only at h ⊢
  by_cases hbad : trimSpace value = [] ∨ (13 : UInt8) ∈ trimSpace value ∨
      (10 : UInt8) ∈ trimSpace value ∨ (58 : UInt8) ∈ trimSpace value
  · rw [if_pos hbad] at h
    exact absurd rfl h
  rw [if_neg hbad]
  simp only [not_or] at hbad
  obtain ⟨_,hcr,hlf,hcolon⟩ := hbad
  refine ⟨hcolon,fun b hb => ?_,?_⟩
  · rw [noBreak,Bool.and_eq_true,bne_iff_ne,bne_iff_ne]
    exact ⟨fun heq => hcr (heq ▸ hb),fun heq => hlf (heq ▸ hb)⟩
  · cases hhead : (trimSpace value).head? with
    | none => rfl
    | some b => exact wsp_of_not_space (trimSpace_head hhead)

theorem written_extra {msg : Message} {field : Field} (h : field ∈ extraFields msg) :
    Written field := by
  obtain ⟨header,_,hheader⟩ := List.mem_filterMap.mp h
  split_ifs at hheader with hbad
  cases hheader
  rw [not_or] at hbad
  obtain ⟨hcolon,hclean⟩ := sanitizeHeaderName_spec hbad.1
  exact ⟨hbad.1,hcolon,hclean,clean_sanitizeHeaderValue header.2⟩

def writtenNames : List Bytes :=
  (exactlyOne ++ atMostOne).map ascii

theorem writtenNames_spec : ∀ name ∈ writtenNames,name ≠ [] ∧ (58 : UInt8) ∉ name ∧
    name.all (fun b => !asciiSpace b) = true ∧ name.all ftext = true := by
  decide

theorem written_of_name {field : Field} (hname : field.name ∈ writtenNames)
    (hbody : Clean field.body) : Written field := by
  obtain ⟨hne,hcolon,hspace,_⟩ := writtenNames_spec _ hname
  exact ⟨hne,hcolon,clean_of_all hspace,hbody⟩

theorem mem_supplied {name : String} {value : Bytes} {present : Bool} {field : Field}
    (h : field ∈ supplied name value present) : field = ⟨ascii name,value⟩ := by
  rw [supplied] at h
  split_ifs at h
  · exact List.mem_singleton.mp h
  · cases h

theorem standard_field {msg : Message} {field : Field} (h : field ∈ standardFields msg) :
    field.name ∈ writtenNames ∧ Clean field.body := by
  simp only [standardFields,List.mem_cons,List.mem_append,List.not_mem_nil,or_false] at h
  rcases h with rfl | h | h | h | rfl | rfl
  · exact ⟨by simp [writtenNames,exactlyOne],clean_sanitizeHeaderValue _⟩
  · rw [mem_supplied h]
    exact ⟨by simp [writtenNames,atMostOne],clean_addresses _⟩
  · rw [mem_supplied h]
    exact ⟨by simp [writtenNames,atMostOne],clean_addresses _⟩
  · rw [mem_supplied h]
    exact ⟨by simp [writtenNames,atMostOne],clean_sanitizeHeaderValue _⟩
  · exact ⟨by simp [writtenNames,exactlyOne],clean_sanitizeHeaderValue _⟩
  · exact ⟨by simp [writtenNames,exactlyOne],clean_of_all (by decide)⟩

theorem clean_contentType (text html : Bytes) : Clean (contentType text html).body := by
  have hclean (value : Bytes) (h : value.all noBreak = true)
      (hhead : (value.head?.map wsp).getD false = false) : Clean value :=
    ⟨List.all_eq_true.mp h,hhead⟩
  rw [contentType]
  split_ifs
  · exact hclean _ (by decide) (by decide)
  · exact hclean _ (by decide) (by decide)
  · exact hclean _ (by decide) (by decide)

theorem contentType_name (text html : Bytes) : (contentType text html).name ∈ writtenNames := by
  simp [contentType,writtenNames,exactlyOne]

theorem written_header {msg : Message} {field : Field} (h : field ∈ headerFields msg) :
    Written field := by
  rw [headerFields,List.mem_append,List.mem_append,List.mem_singleton] at h
  rcases h with (h | h) | rfl
  · exact written_of_name (standard_field h).1 (standard_field h).2
  · exact written_extra h
  · exact written_of_name (contentType_name _ _) (clean_contentType _ _)

end Sanitizing

section Lines

def fieldLine (field : Field) : Bytes := field.name ++ ascii ": " ++ field.body

theorem Written.oneLine {field : Field} (h : Written field) : OneLine (fieldLine field) := by
  refine oneLine_of_no_lf fun hmem => ?_
  rw [fieldLine,List.mem_append,List.mem_append] at hmem
  rcases hmem with (hmem | hmem) | hmem
  · cases h.clean.noBreak _ hmem
  · revert hmem
    decide
  · cases h.body.noBreak _ hmem

theorem Written.unfolded {field : Field} (h : Written field) : Unfolded (fieldLine field) := by
  have hhead : (fieldLine field).head? = field.name.head? := by
    rw [fieldLine,List.append_assoc,List.head?_append_of_ne_nil _ h.name]
  refine ⟨fun hnil => ?_,by rw [hhead]; exact h.clean.head⟩
  rw [fieldLine,List.append_eq_nil_iff,List.append_eq_nil_iff] at hnil
  exact h.name hnil.1.1

-- a header section is read back field by field, unless some name is outside the grammar
theorem mapM_parseField {fields : List Field} (h : ∀ field ∈ fields,Written field) :
    (fields.map fieldLine).mapM parseField =
      if ∀ field ∈ fields,field.name.all ftext = true then some fields else none := by
  induction fields with
  | nil => simp
  | cons field fields ih =>
    have hfield := h field (by simp)
    rw [List.map_cons,List.mapM_cons,ih fun f hf => h f (by simp [hf]),fieldLine,
      parseField_line hfield.colon hfield.name hfield.body.head]
    have hcons : (∀ f ∈ field :: fields,f.name.all ftext = true) ↔
        field.name.all ftext = true ∧ ∀ f ∈ fields,f.name.all ftext = true := List.forall_mem_cons
    simp only [hcons]
    by_cases hname : field.name.all ftext = true
    · by_cases hall : ∀ f ∈ fields,f.name.all ftext = true
      · rw [if_pos hname,if_pos hall,if_pos ⟨hname,hall⟩]
        rfl
      · rw [if_pos hname,if_neg hall,if_neg (not_and_of_not_right _ hall)]
        rfl
    · rw [if_neg hname,if_neg (not_and_of_not_left _ hname)]
      rfl

theorem splitLines_fields {fields : List Field} (h : ∀ field ∈ fields,Written field) (s : Bytes) :
    splitLines (fields.flatMap (fun field => fieldLine field ++ crlf) ++ s) =
      fields.map fieldLine ++ splitLines s := by
  induction fields with
  | nil => rfl
  | cons field fields ih =>
    have hline := (h field (by simp)).oneLine
    rw [List.flatMap_cons,List.append_assoc,hline.append,ih fun f hf => h f (by simp [hf])]
    rfl

def writtenBody (text html : Bytes) : Bytes :=
  if text ≠ [] ∧ html ≠ [] then
    dashes boundary ++ crlf ++ (fieldLine ⟨ascii "Content-Type",textType⟩ ++ crlf ++ (crlf ++
      (text ++ crlf ++ (dashes boundary ++ crlf ++
        (fieldLine ⟨ascii "Content-Type",htmlType⟩ ++ crlf ++ (crlf ++
          (html ++ crlf ++ (dashes boundary ++ ascii "--" ++ crlf))))))))
  else if html ≠ [] then html else text

theorem headerLine_eq (name value : Bytes) : headerLine name value = fieldLine ⟨name,value⟩ ++ crlf :=
  rfl

theorem writeBody_eq (text html : Bytes) :
    writeBody text html = fieldLine (contentType text html) ++ crlf ++ (crlf ++ writtenBody text html) := by
  have hbreak : ascii "\r\n" = crlf := rfl
  have hclose : ascii "--\r\n" = ascii "--" ++ crlf := rfl
  rw [writeBody,writtenBody,contentType]
  split_ifs
  · simp only [headerLine_eq,hbreak,hclose,dashes,List.append_assoc]
  · simp only [headerLine_eq,hbreak,List.append_assoc]
  · simp only [headerLine_eq,hbreak,List.append_assoc]

theorem flatMap_supplied (name : String) (values : List Bytes) :
    (supplied name ((ascii ", ").intercalate (sanitizeAddressList values))
        (sanitizeAddressList values != [])).flatMap (fun field => fieldLine field ++ crlf) =
      writeAddresses name values := by
  rw [writeAddresses,supplied]
  by_cases h : sanitizeAddressList values = []
  · simp [h]
  · simp [h,headerLine_eq]

theorem flatMap_extra (msg : Message) :
    (extraFields msg).flatMap (fun field => fieldLine field ++ crlf) =
      msg.headers.flatMap writeHeader := by
  rw [extraFields]
  induction msg.headers with
  | nil => rfl
  | cons header headers ih =>
    rw [List.filterMap_cons,List.flatMap_cons,writeHeader]
    by_cases h : sanitizeHeaderName header.1 = [] ∨ sanitizeHeaderValue header.2 = []
    · simp only [h,if_true,ih,List.nil_append]
    · simp only [h,if_false,List.flatMap_cons,ih,headerLine_eq]

theorem buildMIMEMessage_eq (msg : Message) : buildMIMEMessage msg =
    (headerFields msg).flatMap (fun field => fieldLine field ++ crlf) ++
      (crlf ++ writtenBody (trimSpace msg.textBody) (trimSpace msg.htmlBody)) := by
  have hreply : (supplied "Reply-To" (sanitizeHeaderValue msg.replyTo)
        (sanitizeHeaderValue msg.replyTo != [])).flatMap (fun field => fieldLine field ++ crlf) =
      if sanitizeHeaderValue msg.replyTo ≠ [] then
        headerLine (ascii "Reply-To") (sanitizeHeaderValue msg.replyTo) else [] := by
    rw [supplied]
    by_cases h : sanitizeHeaderValue msg.replyTo = []
    · simp [h]
    · simp [h,headerLine_eq]
  rw [buildMIMEMessage,headerFields,standardFields,writeBody_eq]
  simp only [List.flatMap_append,List.flatMap_cons,List.flatMap_nil,flatMap_supplied,flatMap_extra,
    hreply,headerLine_eq,List.append_assoc,List.append_nil]

theorem splitLines_build (msg : Message) : splitLines (buildMIMEMessage msg) =
    (headerFields msg).map fieldLine ++
      [] :: splitLines (writtenBody (trimSpace msg.textBody) (trimSpace msg.htmlBody)) := by
  rw [buildMIMEMessage_eq,splitLines_fields fun field hfield => written_header hfield]
  rfl

theorem parse_build (msg : Message) : parseEntity (splitLines (buildMIMEMessage msg)) =
    if ∀ field ∈ extraFields msg,field.name.all ftext = true then
      some ⟨headerFields msg,
        splitLines (writtenBody (trimSpace msg.textBody) (trimSpace msg.htmlBody))⟩
    else none := by
  have hnames : (∀ field ∈ headerFields msg,field.name.all ftext = true) ↔
      ∀ field ∈ extraFields msg,field.name.all ftext = true := by
    constructor
    · exact fun h field hfield => h field (by simp [headerFields,hfield])
    · intro h field hfield
      rw [headerFields,List.mem_append,List.mem_append,List.mem_singleton] at hfield
      rcases hfield with (hfield | hfield) | rfl
      · exact (writtenNames_spec _ (standard_field hfield).1).2.2.2
      · exact h field hfield
      · exact (writtenNames_spec _ (contentType_name _ _)).2.2.2
  have hunfolded : ∀ line ∈ (headerFields msg).map fieldLine,Unfolded line := by
    intro line hline
    obtain ⟨field,hfield,rfl⟩ := List.mem_map.mp hline
    exact (written_header hfield).unfolded
  rw [splitLines_build,parseEntity_lines hunfolded,
    mapM_parseField fun field hfield => written_header hfield]
  simp only [hnames]
  split_ifs <;> rfl

end Lines

section Bodies

-- the lines of one part of the multipart body
def partLines (kind content : Bytes) : List Bytes :=
  fieldLine ⟨ascii "Content-Type",kind⟩ :: [] :: splitLines content

theorem parseEntity_part {kind : Bytes} (hkind : Written ⟨ascii "Content-Type",kind⟩)
    (content : Bytes) : parseEntity (partLines kind content) =
      some ⟨[⟨ascii "Content-Type",kind⟩],splitLines content⟩ := by
  have hfields : [fieldLine ⟨ascii "Content-Type",kind⟩].mapM parseField =
      some [⟨ascii "Content-Type",kind⟩] := by
    have hread := mapM_parseField fun field hfield => by
      rw [List.mem_singleton.mp hfield]
      exact hkind
    rw [if_pos (by simpa using (by decide : (ascii "Content-Type").all ftext = true))] at hread
    exact hread
  have hlines : partLines kind content =
      [fieldLine ⟨ascii "Content-Type",kind⟩] ++ [] :: splitLines content := rfl
  rw [hlines,parseEntity_lines (by simpa using hkind.unfolded),hfields]
  rfl

theorem written_kind {kind : Bytes} (hclean : kind.all noBreak = true)
    (hhead : (kind.head?.map wsp).getD false = false) : Written ⟨ascii "Content-Type",kind⟩ :=
  written_of_name (contentType_name [] []) ⟨List.all_eq_true.mp hclean,hhead⟩

theorem written_textType : Written ⟨ascii "Content-Type",textType⟩ :=
  written_kind (by decide) (by decide)

theorem written_htmlType : Written ⟨ascii "Content-Type",htmlType⟩ :=
  written_kind (by decide) (by decide)

theorem plain_part {kind content : Bytes}
    (hkind : ¬dashes boundary <+: fieldLine ⟨ascii "Content-Type",kind⟩)
    (h : Plain boundary (splitLines content)) : Plain boundary (partLines kind content) := by
  intro line hline
  rcases List.mem_cons.mp hline with rfl | hline
  · exact hkind
  rcases List.mem_cons.mp hline with rfl | hline
  · decide
  · exact h line hline

theorem splitLines_writtenBody {text html : Bytes} (ht : text ≠ []) (hh : html ≠ []) :
    splitLines (writtenBody text html) =
      writeParts boundary [partLines textType text,partLines htmlType html] ++ [[]] := by
  have hdash : OneLine (dashes boundary) := oneLine_of_no_lf (by decide)
  have hclose : OneLine (dashes boundary ++ ascii "--") := oneLine_of_no_lf (by decide)
  have hempty : OneLine [] := rfl
  have hend : splitLines (dashes boundary ++ ascii "--" ++ crlf) =
      [dashes boundary ++ ascii "--",[]] := by
    have h := hclose.append []
    rwa [List.append_nil] at h
  have hblank (s : Bytes) : splitLines (crlf ++ s) = [] :: splitLines s := hempty.append s
  rw [writtenBody,if_pos ⟨ht,hh⟩,hdash.append,written_textType.oneLine.append,hblank,
    splitLines_append,hdash.append,written_htmlType.oneLine.append,hblank,splitLines_append,hend]
  simp [writeParts,partLines]

-- what is read as the content of a part holds no delimiter line
theorem plain_content {lines part : List Bytes} {parts : List (List Bytes)} {entity : Entity}
    (hone : ∀ line ∈ lines,OneLine line) (hparts : parseMultipart boundary lines = some parts)
    (hpart : part ∈ parts) (hentity : parseEntity part = some entity)
    (hne : joinLines entity.body ≠ []) : Plain boundary (splitLines (joinLines entity.body)) := by
  have hbody : entity.body ≠ [] := by
    intro hnil
    rw [hnil] at hne
    exact hne rfl
  have hmem (line : Bytes) (hline : line ∈ entity.body) :
      line ∈ lines ∧ ¬dashes boundary <+: line :=
    mem_parseMultipart hparts hpart (body_suffix hentity line hline)
  rw [splitLines_joinLines hbody fun line hline => hone line (hmem line hline).1]
  exact fun line hline => (hmem line hline).2

theorem mapM_cons_result {parts : List (List Bytes)} {a : Entity} {entities : List Entity}
    (h : parts.mapM parseEntity = some (a :: entities)) : ∃ pa rest, parts = pa :: rest ∧
      parseEntity pa = some a ∧ rest.mapM parseEntity = some entities := by
  cases parts with
  | nil => simp at h
  | cons pa rest =>
    rw [List.mapM_cons] at h
    obtain ⟨a',ha,h⟩ := Option.bind_eq_some_iff.mp h
    obtain ⟨entities',hrest,h⟩ := Option.bind_eq_some_iff.mp h
    cases h
    exact ⟨pa,rest,rfl,ha,hrest⟩

theorem mapM_nil_result {parts : List (List Bytes)} (h : parts.mapM parseEntity = some []) :
    parts = [] := by
  cases parts with
  | nil => rfl
  | cons pa rest =>
    rw [List.mapM_cons] at h
    obtain ⟨a',ha,h⟩ := Option.bind_eq_some_iff.mp h
    obtain ⟨entities',hrest,h⟩ := Option.bind_eq_some_iff.mp h
    cases h

theorem hasBody_iff (text html : Bytes) :
    HasBody text html (splitLines (writtenBody text html)) ↔
      (text ≠ [] → html ≠ [] → Plain boundary (splitLines text) ∧ Plain boundary (splitLines html)) := by
  rw [HasBody]
  by_cases hboth : text ≠ [] ∧ html ≠ []
  · rw [if_pos hboth]
    obtain ⟨ht,hh⟩ := hboth
    constructor
    · rintro ⟨parts,a,b,hparts,hentities,rfl,rfl⟩ _ _
      obtain ⟨pa,rest,rfl,ha,hrest⟩ := mapM_cons_result hentities
      obtain ⟨pb,rest,rfl,hb,hrest⟩ := mapM_cons_result hrest
      cases mapM_nil_result hrest
      have hone : ∀ line ∈ splitLines (writtenBody (joinLines a.body) (joinLines b.body)),
          OneLine line := fun _ => oneLine_of_mem
      exact ⟨plain_content hone hparts (by simp) ha ht,plain_content hone hparts (by simp) hb hh⟩
    · intro h
      obtain ⟨htext,hhtml⟩ := h ht hh
      refine ⟨[partLines textType text,partLines htmlType html],
        ⟨[⟨ascii "Content-Type",textType⟩],splitLines text⟩,
        ⟨[⟨ascii "Content-Type",htmlType⟩],splitLines html⟩,?_,?_,
        joinLines_splitLines text,joinLines_splitLines html⟩
      · rw [splitLines_writtenBody ht hh]
        refine parseMultipart_writeParts ?_ _
        simp only [List.mem_cons,List.not_mem_nil,or_false,forall_eq_or_imp,forall_eq]
        exact ⟨plain_part (by decide) htext,plain_part (by decide) hhtml⟩
      · simp only [List.mapM_cons,List.mapM_nil,parseEntity_part written_textType,
          parseEntity_part written_htmlType]
        rfl
  · rw [if_neg hboth,writtenBody,if_neg hboth,joinLines_splitLines]
    simp only [true_iff]
    exact fun ht hh => absurd ⟨ht,hh⟩ hboth

end Bodies

section Structure

theorem named_append (name : Bytes) (a b : List Field) : named name (a ++ b) = named name a + named name b :=
  List.countP_append

theorem named_contentType (name : Bytes) (text html : Bytes) :
    named name [contentType text html] =
      if (ascii "Content-Type").map lowerByte = name.map lowerByte then 1 else 0 := by
  simp [named,contentType,List.countP_cons]

theorem named_supplied (name : Bytes) (field : String) (value : Bytes) (present : Bool) :
    named name (supplied field value present) =
      if present ∧ (ascii field).map lowerByte = name.map lowerByte then 1 else 0 := by
  cases present <;> simp [named,supplied,List.countP_cons]

theorem standardFields_eq (msg : Message) : standardFields msg =
    supplied "From" (sanitizeHeaderValue msg.fromAddress) true ++
      (supplied "To" ((ascii ", ").intercalate (sanitizeAddressList msg.toAddresses))
          (sanitizeAddressList msg.toAddresses != []) ++
        (supplied "Cc" ((ascii ", ").intercalate (sanitizeAddressList msg.cc))
            (sanitizeAddressList msg.cc != []) ++
          (supplied "Reply-To" (sanitizeHeaderValue msg.replyTo)
              (sanitizeHeaderValue msg.replyTo != []) ++
            (supplied "Subject" (sanitizeHeaderValue msg.subject) true ++
              supplied "MIME-Version" (ascii "1.0") true)))) := rfl

-- the fields written for the message itself meet the counts
theorem named_exactlyOne (msg : Message) (text html : Bytes) : ∀ name ∈ exactlyOne,
    named (ascii name) (standardFields msg) + named (ascii name) [contentType text html] = 1 := by
  intro name hname
  simp only [standardFields_eq,named_append,named_supplied,named_contentType]
  simp only [exactlyOne,List.mem_cons,List.not_mem_nil,or_false] at hname
  rcases hname with rfl | rfl | rfl | rfl <;> simp +decide

theorem named_atMostOne (text html : Bytes) : ∀ name ∈ atMostOne,
    named (ascii name) [contentType text html] = 0 := by
  intro name hname
  simp only [named_contentType]
  simp only [atMostOne,List.mem_cons,List.not_mem_nil,or_false] at hname
  rcases hname with rfl | rfl | rfl <;> decide

theorem mime_structure_iff (msg : Message) : Intact msg ↔ Harmless msg := by
  have hone (name : String) (hname : name ∈ exactlyOne) :
      named (ascii name) (headerFields msg) = 1 ↔ named (ascii name) (extraFields msg) = 0 := by
    have h := named_exactlyOne msg (trimSpace msg.textBody) (trimSpace msg.htmlBody) name hname
    rw [headerFields,named_append,named_append]
    omega
  have hmost (name : String) (hname : name ∈ atMostOne) :
      named (ascii name) (headerFields msg) ≤ 1 ↔
        named (ascii name) (standardFields msg) + named (ascii name) (extraFields msg) ≤ 1 := by
    rw [headerFields,named_append,named_append,named_atMostOne _ _ name hname,Nat.add_zero]
  rw [Intact,Harmless,parse_build]
  constructor
  · rintro ⟨entity,hparse,hfields,hexactly,hatmost,hbody⟩
    split_ifs at hparse with hnames
    cases hparse
    exact ⟨hnames,fun name hname => (hone name hname).mp (hexactly name hname),
      fun name hname => (hmost name hname).mp (hatmost name hname),(hasBody_iff _ _).mp hbody⟩
  · rintro ⟨hnames,hexactly,hatmost,hplain⟩
    refine ⟨_,if_pos hnames,rfl,fun name hname => (hone name hname).mpr (hexactly name hname),
      fun name hname => (hmost name hname).mpr (hatmost name hname),(hasBody_iff _ _).mpr hplain⟩

def forgedSender : Message where
  fromAddress := ascii "shop@example.org"
  toAddresses := [ascii "a@example.org"]
  cc := []
  replyTo := []
  subject := ascii "Hi"
  textBody := ascii "text"
  htmlBody := []
  headers := [(ascii "from",ascii "bank@example.org")]

-- an extra header becomes a second From field
theorem second_from_field : ¬∀ msg : Message,Intact msg := by
  intro hclaim
  obtain ⟨entity,_,hfields,hexactly,_⟩ := hclaim forgedSender
  have hone := hexactly "From" (by simp [exactlyOne])
  rw [hfields] at hone
  exact absurd hone (by decide +kernel)

end Structure

end Nimburion.Email
