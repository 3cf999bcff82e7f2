import Nimburion.Lib.ByteText
import Mathlib.Data.List.Basic

-- Internet messages (RFC 5322) and multipart bodies (RFC 2046), read line by line
namespace Nimburion.MailFormat

open ByteText (Bytes ascii)

def crlf : Bytes := [13,10]

def splitLines : Bytes → List Bytes
  | [] => [[]]
  | 13 :: 10 :: s => [] :: splitLines s
  | b :: s => (splitLines s).modifyHead (b :: ·)

def joinLines : List Bytes → Bytes
  | [] => []
  | [line] => line
  | line :: lines => line ++ crlf ++ joinLines lines

-- printable US-ASCII without the colon
def ftext (b : UInt8) : Bool := 33 ≤ b && b ≤ 126 && b != 58

def wsp (b : UInt8) : Bool := b == 32 || b == 9

structure Field where
  name : Bytes
  body : Bytes
  deriving DecidableEq, Repr

def parseField (line : Bytes) : Option Field :=
  let name := line.takeWhile (· != 58)
  match line.dropWhile (· != 58) with
  | [] => none
  | _ :: body =>
    if name ≠ [] ∧ name.all ftext = true then some ⟨name,body.dropWhile wsp⟩ else none

-- a line that starts with white space continues the one before it
def unfoldLines : List Bytes → List Bytes
  | [] => []
  | line :: lines =>
    match unfoldLines lines with
    | [] => [line]
    | next :: more =>
      if (next.head?.map wsp).getD false then (line ++ next) :: more else line :: next :: more

structure Entity where
  fields : List Field
  body : List Bytes
  deriving DecidableEq, Repr

-- the header section ends at the first empty line
def parseEntity (lines : List Bytes) : Option Entity :=
  match lines.dropWhile (· != []) with
  | [] => none
  | _ :: body =>
    ((unfoldLines (lines.takeWhile (· != []))).mapM parseField).map fun fields => ⟨fields,body⟩

-- a delimiter line starts with the dashes and the boundary; two more dashes close
def dashes (boundary : Bytes) : Bytes := ascii "--" ++ boundary

def partsFrom (boundary : Bytes) : List Bytes → Option (List (List Bytes))
  | [] => none
  | line :: lines =>
    if dashes boundary ++ ascii "--" <+: line then some [[]]
    else if dashes boundary <+: line then (partsFrom boundary lines).map ([] :: ·)
    else (partsFrom boundary lines).map (List.modifyHead (line :: ·))

def parseMultipart (boundary : Bytes) : List Bytes → Option (List (List Bytes))
  | [] => none
  | line :: lines =>
    if dashes boundary ++ ascii "--" <+: line then some []
    else if dashes boundary <+: line then partsFrom boundary lines
    else parseMultipart boundary lines

-- field names compare without regard to ASCII case
def lowerByte (b : UInt8) : UInt8 := if 65 ≤ b ∧ b ≤ 90 then b+32 else b

def named (name : Bytes) (fields : List Field) : ℕ :=
  fields.countP fun f => f.name.map lowerByte == name.map lowerByte

section Lines

theorem splitLines_ne_nil (s : Bytes) : splitLines s ≠ [] := by
  fun_induction splitLines s with
  | case1 => simp
  | case2 s ih => simp
  | case3 b s h ih =>
    intro hnil
    rw [List.modifyHead_eq_nil_iff] at hnil
    exact ih hnil

theorem splitLines_cons {c : UInt8} {s : Bytes} (h : ∀ s',c = 13 → s = 10 :: s' → False) :
    splitLines (c :: s) = (splitLines s).modifyHead (c :: ·) := by
  rw [splitLines]
  rintro s' rfl rfl
  exact h s' rfl rfl

theorem splitLines_append (a b : Bytes) :
    splitLines (a ++ crlf ++ b) = splitLines a ++ splitLines b := by
  fun_induction splitLines a with
  | case1 => rfl
  | case2 s ih => simpa [splitLines,crlf] using ih
  | case3 c s h ih =>
    obtain ⟨line,lines,hlines⟩ := List.exists_cons_of_ne_nil (splitLines_ne_nil s)
    have hnot : ∀ s',c = 13 → s ++ crlf ++ b = 10 :: s' → False := by
      intro s' hc hs'
      cases s with
      | nil => cases hs'
      | cons d s => exact h s hc (by rw [(List.cons.inj hs').1])
    rw [List.cons_append,List.cons_append,splitLines_cons hnot,ih,hlines]
    rfl

theorem joinLines_cons {line : Bytes} {lines : List Bytes} (h : lines ≠ []) :
    joinLines (line :: lines) = line ++ crlf ++ joinLines lines := by
  obtain ⟨next,more,rfl⟩ := List.exists_cons_of_ne_nil h
  rfl

theorem joinLines_splitLines (s : Bytes) : joinLines (splitLines s) = s := by
  fun_induction splitLines s with
  | case1 => rfl
  | case2 s ih =>
    rw [joinLines_cons (splitLines_ne_nil s),ih]
    rfl
  | case3 c s h ih =>
    obtain ⟨line,lines,hlines⟩ := List.exists_cons_of_ne_nil (splitLines_ne_nil s)
    rw [hlines,List.modifyHead_cons]
    rw [hlines] at ih
    cases lines with
    | nil => exact congrArg (c :: ·) ih
    | cons next more =>
      rw [joinLines_cons (by simp)] at ih ⊢
      rw [← ih]
      rfl

-- a text without a line break
def OneLine (s : Bytes) : Prop := splitLines s = [s]

theorem oneLine_of_no_lf {s : Bytes} (h : (10 : UInt8) ∉ s) : OneLine s := by
  unfold OneLine
  induction s with
  | nil => rfl
  | cons c s ih =>
    have hnot : ∀ s',c = 13 → s = 10 :: s' → False := by
      rintro s' _ rfl
      exact h (by simp)
    rw [splitLines_cons hnot,ih fun hmem => h (List.mem_cons_of_mem c hmem)]
    rfl

theorem OneLine.append {line : Bytes} (h : OneLine line) (s : Bytes) :
    splitLines (line ++ crlf ++ s) = line :: splitLines s := by
  rw [splitLines_append,h]
  rfl

theorem oneLine_of_mem {s line : Bytes} (h : line ∈ splitLines s) : OneLine line := by
  fun_induction splitLines s generalizing line with
  | case1 =>
    rw [List.mem_singleton.mp h]
    rfl
  | case2 s ih =>
    rcases List.mem_cons.mp h with rfl | h
    · rfl
    · exact ih h
  | case3 c s hcr ih =>
    obtain ⟨first,lines,hlines⟩ := List.exists_cons_of_ne_nil (splitLines_ne_nil s)
    have hjoin := joinLines_splitLines s
    rw [hlines] at h hjoin ih
    rcases List.mem_cons.mp h with rfl | h
    · have hfirst := ih List.mem_cons_self
      have hnot : ∀ s',c = 13 → first = 10 :: s' → False := by
        rintro s' hc rfl
        cases lines with
        | nil => exact hcr s' hc hjoin.symm
        | cons next more =>
          rw [joinLines_cons (by simp)] at hjoin
          exact hcr _ hc hjoin.symm
      rw [OneLine,splitLines_cons hnot,hfirst]
      rfl
    · exact ih (List.mem_cons_of_mem _ h)

theorem splitLines_joinLines {lines : List Bytes} (hne : lines ≠ [])
    (h : ∀ line ∈ lines,OneLine line) : splitLines (joinLines lines) = lines := by
  induction lines with
  | nil => exact absurd rfl hne
  | cons line lines ih =>
    have hline := h line (by simp)
    cases lines with
    | nil => exact hline
    | cons next more =>
      rw [joinLines_cons (by simp),hline.append,ih (by simp) fun l hl => h l (by simp [hl])]

end Lines

section Entities

theorem parseField_line {name body : Bytes} (hcolon : (58 : UInt8) ∉ name) (hne : name ≠ [])
    (hbody : (body.head?.map wsp).getD false = false) :
    parseField (name ++ ascii ": " ++ body) =
      if name.all ftext = true then some ⟨name,body⟩ else none := by
  have hall : ∀ b ∈ name,(b != 58) = true := by
    intro b hb
    rw [bne_iff_ne]
    rintro rfl
    exact hcolon hb
  have hline : name ++ ascii ": " ++ body = name ++ 58 :: 32 :: body := by
    rw [List.append_assoc]
    rfl
  have htake : (name ++ 58 :: 32 :: body).takeWhile (· != 58) = name := by
    rw [List.takeWhile_append_of_pos hall]
    simp
  have hdrop : (name ++ 58 :: 32 :: body).dropWhile (· != 58) = 58 :: 32 :: body := by
    rw [List.dropWhile_append_of_pos hall]
    simp
  have hwsp : (32 :: body).dropWhile wsp = body := by
    rw [List.dropWhile_cons_of_pos (by decide)]
    cases body with
    | nil => rfl
    | cons b body => exact List.dropWhile_cons_of_neg (by simpa using hbody)
  simp only [parseField,hline,htake,hdrop,hwsp,hne,ne_eq,not_false_eq_true,true_and]

def Unfolded (line : Bytes) : Prop := line ≠ [] ∧ (line.head?.map wsp).getD false = false

theorem unfoldLines_of_unfolded {lines : List Bytes} (h : ∀ line ∈ lines,Unfolded line) :
    unfoldLines lines = lines := by
  induction lines with
  | nil => rfl
  | cons line lines ih =>
    rw [unfoldLines,ih fun l hl => h l (by simp [hl])]
    cases lines with
    | nil => rfl
    | cons next more =>
      have hnext := (h next (by simp)).2
      simp only [hnext,Bool.false_eq_true,if_false]

theorem parseEntity_lines {lines body : List Bytes} (h : ∀ line ∈ lines,Unfolded line) :
    parseEntity (lines ++ [] :: body) =
      (lines.mapM parseField).map fun fields => ⟨fields,body⟩ := by
  have hall : ∀ line ∈ lines,(line != []) = true := fun line hline => bne_iff_ne.mpr (h line hline).1
  have htake : (lines ++ [] :: body).takeWhile (· != []) = lines := by
    rw [List.takeWhile_append_of_pos hall]
    simp
  have hdrop : (lines ++ [] :: body).dropWhile (· != []) = [] :: body := by
    rw [List.dropWhile_append_of_pos hall]
    simp
  rw [parseEntity,hdrop,htake,unfoldLines_of_unfolded h]

-- what an entity's body holds stands in the lines it was read from
theorem body_suffix {lines : List Bytes} {entity : Entity} (h : parseEntity lines = some entity) :
    ∀ line ∈ entity.body,line ∈ lines := by
  rw [parseEntity] at h
  split at h
  · cases h
  · rename_i line body hdrop
    obtain ⟨fields,_,rfl⟩ := Option.map_eq_some_iff.mp h
    intro l hl
    have hmem : l ∈ lines.dropWhile (· != []) := by
      rw [hdrop]
      exact List.mem_cons_of_mem line hl
    exact (List.dropWhile_suffix _).subset hmem

end Entities

section Multipart

variable {boundary : Bytes}

-- no line of a part is a delimiter
def Plain (boundary : Bytes) (lines : List Bytes) : Prop :=
  ∀ line ∈ lines, ¬dashes boundary <+: line

theorem not_close {line : Bytes} (h : ¬dashes boundary <+: line) :
    ¬dashes boundary ++ ascii "--" <+: line :=
  fun hclose => h ((List.prefix_append _ _).trans hclose)

theorem partsFrom_plain {part : List Bytes} (h : Plain boundary part) (lines : List Bytes) :
    partsFrom boundary (part ++ lines) =
      (partsFrom boundary lines).map (List.modifyHead (part ++ ·)) := by
  induction part with
  | nil =>
    have hsame : List.modifyHead (([] : List Bytes) ++ ·) = id := by
      funext parts
      cases parts <;> rfl
    rw [hsame,Option.map_id]
    rfl
  | cons line part ih =>
    have hline := h line (by simp)
    rw [List.cons_append,partsFrom,if_neg (not_close hline),if_neg hline,
      ih fun l hl => h l (by simp [hl]),Option.map_map]
    congr 1
    funext parts
    cases parts <;> rfl

def writeParts (boundary : Bytes) (parts : List (List Bytes)) : List Bytes :=
  parts.flatMap (dashes boundary :: ·) ++ [dashes boundary ++ ascii "--"]

theorem not_close_dashes : ¬dashes boundary ++ ascii "--" <+: dashes boundary := by
  intro h
  have hlen := h.length_le
  rw [List.length_append] at hlen
  have htwo : (ascii "--").length = 2 := rfl
  omega

theorem partsFrom_writeParts {parts : List (List Bytes)} (h : ∀ part ∈ parts,Plain boundary part)
    (rest : List Bytes) : partsFrom boundary (writeParts boundary parts ++ rest) = some ([] :: parts) := by
  induction parts with
  | nil =>
    have hclose : dashes boundary ++ ascii "--" <+: dashes boundary ++ ascii "--" := List.prefix_refl _
    rw [writeParts,List.flatMap_nil,List.nil_append,List.singleton_append,partsFrom,if_pos hclose]
  | cons part parts ih =>
    have hpart := h part (by simp)
    have hdash : dashes boundary <+: dashes boundary := List.prefix_refl _
    have hcons : writeParts boundary (part :: parts) ++ rest =
        dashes boundary :: (part ++ (writeParts boundary parts ++ rest)) := by
      simp [writeParts]
    rw [hcons,partsFrom,if_neg not_close_dashes,if_pos hdash,partsFrom_plain hpart,
      ih fun p hp => h p (by simp [hp])]
    simp

theorem parseMultipart_writeParts {part : List Bytes} {parts : List (List Bytes)}
    (h : ∀ p ∈ part :: parts,Plain boundary p) (rest : List Bytes) :
    parseMultipart boundary (writeParts boundary (part :: parts) ++ rest) = some (part :: parts) := by
  have hpart := h part (by simp)
  have hdash : dashes boundary <+: dashes boundary := List.prefix_refl _
  have hcons : writeParts boundary (part :: parts) ++ rest =
      dashes boundary :: (part ++ (writeParts boundary parts ++ rest)) := by
    simp [writeParts]
  rw [hcons,parseMultipart,if_neg not_close_dashes,if_pos hdash,partsFrom_plain hpart,
    partsFrom_writeParts fun p hp => h p (by simp [hp])]
  simp

theorem mem_partsFrom {lines : List Bytes} {parts : List (List Bytes)}
    (h : partsFrom boundary lines = some parts) {part : List Bytes} (hpart : part ∈ parts)
    {line : Bytes} (hline : line ∈ part) : line ∈ lines ∧ ¬dashes boundary <+: line := by
  induction lines generalizing parts part with
  | nil => cases h
  | cons first lines ih =>
    rw [partsFrom] at h
    split_ifs at h with hclose hdash
    · cases h
      rw [List.mem_singleton.mp hpart] at hline
      cases hline
    · obtain ⟨parts',hparts',rfl⟩ := Option.map_eq_some_iff.mp h
      rcases List.mem_cons.mp hpart with rfl | hpart
      · cases hline
      · exact (ih hparts' hpart hline).imp_left (List.mem_cons_of_mem first)
    · obtain ⟨parts',hparts',rfl⟩ := Option.map_eq_some_iff.mp h
      cases parts' with
      | nil => cases hpart
      | cons current parts' =>
        rcases List.mem_cons.mp hpart with rfl | hpart
        · rcases List.mem_cons.mp hline with rfl | hline
          · exact ⟨List.mem_cons_self,hdash⟩
          · exact (ih hparts' List.mem_cons_self hline).imp_left (List.mem_cons_of_mem first)
        · exact (ih hparts' (List.mem_cons_of_mem current hpart) hline).imp_left
            (List.mem_cons_of_mem first)

theorem mem_parseMultipart {lines : List Bytes} {parts : List (List Bytes)}
    (h : parseMultipart boundary lines = some parts) {part : List Bytes} (hpart : part ∈ parts)
    {line : Bytes} (hline : line ∈ part) : line ∈ lines ∧ ¬dashes boundary <+: line := by
  induction lines with
  | nil => cases h
  | cons first lines ih =>
    rw [parseMultipart] at h
    split_ifs at h with hclose hdash
    · cases h
      cases hpart
    · exact (mem_partsFrom h hpart hline).imp_left (List.mem_cons_of_mem first)
    · exact (ih h).imp_left (List.mem_cons_of_mem first)

end Multipart

end Nimburion.MailFormat
