import Nimburion.Errors
import Nimburion.EventBus.Adapters
import Nimburion.Lib.Decimal
import Nimburion.Lib.Interaction
import Mathlib.Data.List.Nodup

namespace Nimburion.EventBus.SQS
open Interaction

section Model

structure SendMessageBatchRequestEntry where
  id : String
  messageBody : List UInt8
  messageAttributes : Headers
  deriving DecidableEq

inductive Op where
  | sendMessageBatch (queueURL : String) (entries : List SendMessageBatchRequestEntry)

-- a call that succeeds as a whole lists the ids of the entries that failed
abbrev Ans : Op → Type
  | .sendMessageBatch _ _ => Except GoError (List String)

abbrev M := Prog Op Ans Empty

inductive Outcome where
  | returned (err : Option GoError)
  | panicked
  deriving DecidableEq

structure Adapter where
  closed : Bool
  queueURL : String
  deriving DecidableEq, Repr

def Adapter.resolveQueueURL (a : Adapter) (topic : String) : String :=
  if topic ≠ "" then topic else a.queueURL

-- strconv.Itoa of a count
def idText (k : ℕ) : String := String.ofList (Nat.toDigits 10 k)

def batchEntry (k : ℕ) (m : Message) : SendMessageBatchRequestEntry := ⟨idText k,m.value,m.headers⟩

-- a nil message among them panics
def batchEntries (i : ℕ) : List (Option Message) → Option (List SendMessageBatchRequestEntry)
  | [] => some []
  | none :: _ => none
  | some m :: batch => (batchEntries (i+1) batch).map (batchEntry i m :: ·)

def sendFrom (queueURL : String) (messages : List (Option Message)) (i : ℕ) : M Outcome :=
  if i < messages.length then
    match batchEntries i ((messages.drop i).take 10) with
    | none => pure .panicked
    | some entries => do
        let r ← Prog.perform (Op.sendMessageBatch queueURL entries)
        match r with
        | .error e => pure (.returned (some (.wrapped "failed to publish sqs batch: " e)))
        | .ok _ => sendFrom queueURL messages (i+10)
  else pure (.returned none)
termination_by messages.length-i

def Adapter.publishBatch (a : Adapter) (topic : String) (messages : List (Option Message)) :
    M Outcome :=
  if a.closed then pure (.returned (some (.text "sqs adapter is closed")))
  else if messages.length = 0 then pure (.returned none)
  else sendFrom (a.resolveQueueURL topic) messages 0

end Model

abbrev Trace := List (Event Ans)

-- what SQS answers the calls, the first one first
abbrev Responses := ℕ → Except GoError (List String)

def answer (respond : Responses) (tr : Trace) : (op : Op) → Ans op
  | .sendMessageBatch _ _ => respond tr.length

def eval (respond : Responses) {α : Type} (p : M α) (tr : Trace) : Except Empty α × Trace :=
  Prog.eval (Prog.observe (answer respond)) p tr

def sent (ev : Event Ans) : List SendMessageBatchRequestEntry :=
  match ev.op with
  | .sendMessageBatch _ entries => entries

def batches (tr : Trace) : List (List SendMessageBatchRequestEntry) := tr.reverse.map sent

def accepts (id : String) : Event Ans → Prop
  | ⟨.sendMessageBatch _ entries,.ok failed⟩ => id ∈ entries.map (·.id) ∧ id ∉ failed
  | _ => False

structure Published (messages : List (Option Message)) (out : Outcome) (tr : Trace) : Prop where
  blocks : ∀ k b, (batches tr)[k]? = some b →
    batchEntries (10*k) ((messages.drop (10*k)).take 10) = some b ∧ b ≠ [] ∧ b.length ≤ 10 ∧
      (b.map (·.id)).Nodup
  covered : out = .returned none → batchEntries 0 messages = some (batches tr).flatten
  accepted : out = .returned none → ∀ e ∈ (batches tr).flatten, ∃ ev ∈ tr, accepts e.id ev

-- no call that succeeds lists an entry of its batch as failed
def AllAccepted (respond : Responses) (n : ℕ) : Prop :=
  ∀ k failed, respond k = .ok failed → ∀ j, 10*k ≤ j → j < 10*k+10 → j < n → idText j ∉ failed

def Refused (a : Adapter) (respond : Responses) (messages : List (Option Message)) : Prop :=
  a.closed = true ∨ none ∈ messages ∨ ∃ k e, 10*k < messages.length ∧ respond k = .error e

section Numbering

theorem idText_inj {j k : ℕ} (h : idText j = idText k) : j = k := by
  have hdigits := congrArg String.toList h
  simp only [idText,String.toList_ofList] at hdigits
  rw [← Decimal.value_toDigits j,hdigits,Decimal.value_toDigits]

def numbered (i : ℕ) : List Message → List SendMessageBatchRequestEntry
  | [] => []
  | m :: ms => batchEntry i m :: numbered (i+1) ms

theorem batchEntries_eq_some_iff {i : ℕ} {batch : List (Option Message)}
    {b : List SendMessageBatchRequestEntry} :
    batchEntries i batch = some b ↔ ∃ ms : List Message, batch = ms.map some ∧ b = numbered i ms := by
  induction batch generalizing i b with
  | nil =>
    simp only [batchEntries,Option.some.injEq]
    constructor
    · rintro rfl
      exact ⟨[],rfl,rfl⟩
    · rintro ⟨ms,hms,rfl⟩
      rw [List.map_eq_nil_iff.mp hms.symm]
      rfl
  | cons m batch ih =>
    cases m with
    | none =>
      simp only [batchEntries,reduceCtorEq,false_iff]
      rintro ⟨ms,hms,_⟩
      cases ms <;> simp at hms
    | some m =>
      simp only [batchEntries,Option.map_eq_some_iff,ih]
      constructor
      · rintro ⟨_,⟨ms,rfl,rfl⟩,rfl⟩
        exact ⟨m :: ms,rfl,rfl⟩
      · rintro ⟨ms,hms,rfl⟩
        cases ms with
        | nil => simp at hms
        | cons m' ms =>
          simp only [List.map_cons,List.cons.injEq,Option.some.injEq] at hms
          obtain ⟨rfl,rfl⟩ := hms
          exact ⟨numbered (i+1) ms,⟨ms,rfl,rfl⟩,rfl⟩

theorem length_numbered (i : ℕ) (ms : List Message) : (numbered i ms).length = ms.length := by
  induction ms generalizing i with
  | nil => rfl
  | cons m ms ih => simp [numbered,ih]

theorem numbered_append (i : ℕ) (ms ms' : List Message) :
    numbered i (ms ++ ms') = numbered i ms ++ numbered (i+ms.length) ms' := by
  induction ms generalizing i with
  | nil => rfl
  | cons m ms ih =>
    have hnext : i+1+ms.length = i+(m :: ms).length := by
      rw [List.length_cons]
      omega
    rw [List.cons_append,numbered,numbered,ih,hnext,List.cons_append]

theorem ids_numbered (i : ℕ) (ms : List Message) :
    (numbered i ms).map (·.id) = (List.range' i ms.length).map idText := by
  induction ms generalizing i with
  | nil => rfl
  | cons m ms ih => simp [numbered,ih,List.range'_succ,batchEntry]

theorem nodup_numbered (i : ℕ) (ms : List Message) : ((numbered i ms).map (·.id)).Nodup := by
  rw [ids_numbered]
  exact (List.nodup_range').map fun _ _ => idText_inj

theorem mem_ids_numbered {i : ℕ} {ms : List Message} {id : String} :
    id ∈ (numbered i ms).map (·.id) ↔ ∃ j, i ≤ j ∧ j < i+ms.length ∧ id = idText j := by
  rw [ids_numbered]
  simp only [List.mem_map,List.mem_range'_1]
  constructor
  · rintro ⟨j,⟨hle,hlt⟩,rfl⟩
    exact ⟨j,hle,hlt,rfl⟩
  · rintro ⟨j,hle,hlt,rfl⟩
    exact ⟨j,⟨hle,hlt⟩,rfl⟩

end Numbering

section Sending

variable {respond : Responses} {messages : List (Option Message)} {tr : Trace}

-- the calls made so far, each for its own block of ten
def Logged (respond : Responses) (messages : List (Option Message)) (tr : Trace) : Prop :=
  ∀ k ev, tr.reverse[k]? = some ev → 10*k < messages.length ∧ ∃ url b,
    ev = ⟨.sendMessageBatch url b,respond k⟩ ∧
      batchEntries (10*k) ((messages.drop (10*k)).take 10) = some b

theorem Logged.cons {b : List SendMessageBatchRequestEntry} (h : Logged respond messages tr)
    (url : String) (hlt : 10*tr.length < messages.length)
    (hb : batchEntries (10*tr.length) ((messages.drop (10*tr.length)).take 10) = some b) :
    Logged respond messages (⟨.sendMessageBatch url b,respond tr.length⟩ :: tr) := by
  intro k ev hev
  rw [List.reverse_cons] at hev
  rcases Nat.lt_or_ge k tr.reverse.length with hk | hk
  · rw [List.getElem?_append_left hk] at hev
    exact h k ev hev
  · rw [List.getElem?_append_right hk,List.getElem?_singleton] at hev
    obtain ⟨hzero,heq⟩ := Option.ite_none_right_eq_some.mp hev
    have hlen : k = tr.length := by
      rw [List.length_reverse] at hk hzero
      omega
    subst hlen
    exact ⟨hlt,url,b,(Option.some.inj heq).symm,hb⟩

def Whole (respond : Responses) (messages : List (Option Message)) (k : ℕ) : Prop :=
  none ∉ messages.drop (10*k) ∧
    ∀ j, k ≤ j → 10*j < messages.length → ∃ failed, respond j = .ok failed

theorem none_mem_block {k : ℕ} (h : batchEntries (10*k) ((messages.drop (10*k)).take 10) = none) :
    none ∈ messages.drop (10*k) := by
  by_contra hnone
  have hall : ∀ m ∈ (messages.drop (10*k)).take 10, m ≠ none := fun m hm heq =>
    hnone (heq ▸ List.mem_of_mem_take hm)
  obtain ⟨ms,hms⟩ : ∃ ms : List Message, (messages.drop (10*k)).take 10 = ms.map some := by
    refine ⟨((messages.drop (10*k)).take 10).filterMap id,?_⟩
    generalize (messages.drop (10*k)).take 10 = l at hall
    induction l with
    | nil => rfl
    | cons m l ih =>
      obtain ⟨m',rfl⟩ := Option.ne_none_iff_exists'.mp (hall m List.mem_cons_self)
      have htail := ih fun m hm => hall m (List.mem_cons_of_mem _ hm)
      simpa using htail
  rw [batchEntries_eq_some_iff.mpr ⟨ms,hms,rfl⟩] at h
  cases h

theorem whole_succ_iff {k : ℕ} {b : List SendMessageBatchRequestEntry}
    (hb : batchEntries (10*k) ((messages.drop (10*k)).take 10) = some b) {failed : List String} (hok : respond k = .ok failed) :
    Whole respond messages (k+1) ↔ Whole respond messages k := by
  have hsplit : messages.drop (10*k) =
      (messages.drop (10*k)).take 10 ++ messages.drop (10*(k+1)) := by
    rw [Nat.mul_succ,← List.drop_drop]
    exact (List.take_append_drop 10 _).symm
  have hfull : none ∉ (messages.drop (10*k)).take 10 := by
    obtain ⟨ms,hms,_⟩ := batchEntries_eq_some_iff.mp hb
    simp [hms]
  have hnone : none ∉ messages.drop (10*k) ↔ none ∉ messages.drop (10*(k+1)) := by
    rw [hsplit,List.mem_append,not_or]
    exact and_iff_right hfull
  rw [Whole,Whole,hnone]
  refine and_congr_right fun _ => ⟨fun h j hkj hj => ?_,fun h j hkj => h j (by omega)⟩
  rcases Nat.lt_or_ge k j with hlt | hge
  · exact h j hlt hj
  · have hjk : j = k := by omega
    exact ⟨failed,hjk ▸ hok⟩

theorem eval_sendFrom_call (url : String) {b : List SendMessageBatchRequestEntry}
    (hlt : 10*tr.length < messages.length)
    (hb : batchEntries (10*tr.length) ((messages.drop (10*tr.length)).take 10) = some b) :
    eval respond (sendFrom url messages (10*tr.length)) tr =
      eval respond (match respond tr.length with
        | .error e => pure (.returned (some (.wrapped "failed to publish sqs batch: " e)))
        | .ok _ => sendFrom url messages (10*(tr.length+1)))
        (⟨.sendMessageBatch url b,respond tr.length⟩ :: tr) := by
  have hperform : ∀ f : Except GoError (List String) → M Outcome,
      eval respond (Prog.perform (Op.sendMessageBatch url b) >>= f) tr =
        eval respond (f (respond tr.length)) (⟨.sendMessageBatch url b,respond tr.length⟩ :: tr) :=
    fun _ => rfl
  rw [sendFrom,if_pos hlt,hb]
  refine (hperform _).trans ?_
  cases respond tr.length <;> rfl

variable (respond messages tr) in
theorem eval_sendFrom_done (url : String) (hdone : messages.length ≤ 10*tr.length) :
    eval respond (sendFrom url messages (10*tr.length)) tr = (.ok (.returned none),tr) ∧
      Whole respond messages tr.length := by
  refine ⟨?_,?_,fun j hkj hj => by omega⟩
  · rw [sendFrom,if_neg (by omega)]
    rfl
  · rw [List.drop_of_length_le hdone]
    exact List.not_mem_nil

theorem eval_sendFrom (url : String) (n : ℕ) (hn : messages.length-10*tr.length ≤ n)
    (h : Logged respond messages tr) :
    ∃ out tr', eval respond (sendFrom url messages (10*tr.length)) tr = (.ok out,tr') ∧
      Logged respond messages tr' ∧ (out = .returned none → messages.length ≤ 10*tr'.length) ∧
      (out = .returned none ↔ Whole respond messages tr.length) := by
  induction n generalizing tr with
  | zero =>
    obtain ⟨heval,hwhole⟩ := eval_sendFrom_done respond messages tr url
      (show messages.length ≤ 10*tr.length by omega)
    exact ⟨_,tr,heval,h,fun _ => by omega,iff_of_true rfl hwhole⟩
  | succ n ih =>
    by_cases hlt : 10*tr.length < messages.length
    · cases hb : batchEntries (10*tr.length) ((messages.drop (10*tr.length)).take 10) with
      | none =>
        refine ⟨.panicked,tr,?_,h,(nomatch ·),?_⟩
        · rw [sendFrom,if_pos hlt,hb]
          rfl
        · exact iff_of_false (by simp) fun hwhole => hwhole.1 (none_mem_block hb)
      | some b =>
        have hlog := h.cons url hlt hb
        rw [eval_sendFrom_call url hlt hb]
        cases hr : respond tr.length with
        | error e =>
          rw [hr] at hlog
          refine ⟨_,_,rfl,hlog,fun hout => ?_,iff_of_false ?_ fun hwhole => ?_⟩
          · cases hout
          · exact fun hout => nomatch hout
          · obtain ⟨failed,hok⟩ := hwhole.2 tr.length (Nat.le_refl _) hlt
            rw [hr] at hok
            cases hok
        | ok failed =>
          rw [hr] at hlog
          obtain ⟨out,tr',heval,hlog',hcover,hout⟩ := ih (by rw [List.length_cons]; omega) hlog
          exact ⟨out,tr',heval,hlog',hcover,hout.trans (whole_succ_iff hb hr)⟩
    · obtain ⟨heval,hwhole⟩ := eval_sendFrom_done respond messages tr url
        (show messages.length ≤ 10*tr.length by omega)
      exact ⟨_,tr,heval,h,fun _ => by omega,iff_of_true rfl hwhole⟩

theorem Logged.batch (h : Logged respond messages tr) {k : ℕ}
    {b : List SendMessageBatchRequestEntry} (hb : (batches tr)[k]? = some b) :
    10*k < messages.length ∧
      batchEntries (10*k) ((messages.drop (10*k)).take 10) = some b := by
  rw [batches,List.getElem?_map,Option.map_eq_some_iff] at hb
  obtain ⟨ev,hev,rfl⟩ := hb
  obtain ⟨hlt,url,b,rfl,hentries⟩ := h k ev hev
  exact ⟨hlt,hentries⟩

theorem Logged.block (h : Logged respond messages tr) {k : ℕ}
    {b : List SendMessageBatchRequestEntry} (hb : (batches tr)[k]? = some b) :
    ∃ ms : List Message, (messages.drop (10*k)).take 10 = ms.map some ∧ b = numbered (10*k) ms ∧
      ms.length = min 10 (messages.length-10*k) := by
  obtain ⟨_,hentries⟩ := h.batch hb
  obtain ⟨ms,hms,rfl⟩ := batchEntries_eq_some_iff.mp hentries
  refine ⟨ms,hms,rfl,?_⟩
  have hlen := congrArg List.length hms
  rw [List.length_take,List.length_drop,List.length_map] at hlen
  exact hlen.symm

theorem length_batches (tr : Trace) : (batches tr).length = tr.length := by
  simp [batches]

theorem Logged.covers (h : Logged respond messages tr) {k : ℕ} (hk : k ≤ tr.length) :
    ∃ ms : List Message, messages.take (10*k) = ms.map some ∧
      ((batches tr).take k).flatten = numbered 0 ms := by
  induction k with
  | zero => exact ⟨[],rfl,rfl⟩
  | succ k ih =>
    obtain ⟨ms,hms,hflat⟩ := ih (by omega)
    obtain ⟨b,hget⟩ : ∃ b, (batches tr)[k]? = some b :=
      ⟨_,List.getElem?_eq_getElem (by rw [length_batches]; omega)⟩
    obtain ⟨ms',hms',rfl,_⟩ := h.block hget
    have hlt := (h.batch hget).1
    have hlen : ms.length = 10*k := by
      have := congrArg List.length hms
      rw [List.length_take,List.length_map] at this
      omega
    refine ⟨ms ++ ms',?_,?_⟩
    · rw [Nat.mul_succ,List.take_add,hms,hms',List.map_append]
    · rw [List.take_add_one,hget,List.flatten_append,hflat,numbered_append,hlen]
      simp

end Sending

section Batches

variable {a : Adapter} {respond : Responses} {messages : List (Option Message)} {tr : Trace}

theorem Logged.covered (h : Logged respond messages tr) (hall : messages.length ≤ 10*tr.length) :
    batchEntries 0 messages = some (batches tr).flatten := by
  obtain ⟨ms,hms,hflat⟩ := h.covers (Nat.le_refl _)
  rw [List.take_of_length_le hall] at hms
  rw [List.take_of_length_le (Nat.le_of_eq (length_batches tr))] at hflat
  exact batchEntries_eq_some_iff.mpr ⟨ms,hms,hflat⟩

theorem Logged.blocks (h : Logged respond messages tr) {k : ℕ}
    {b : List SendMessageBatchRequestEntry} (hb : (batches tr)[k]? = some b) :
    batchEntries (10*k) ((messages.drop (10*k)).take 10) = some b ∧ b ≠ [] ∧ b.length ≤ 10 ∧
      (b.map (·.id)).Nodup := by
  obtain ⟨hlt,hentries⟩ := h.batch hb
  obtain ⟨ms,_,rfl,hlen⟩ := h.block hb
  refine ⟨hentries,fun hnil => ?_,?_,nodup_numbered _ _⟩
  · have := congrArg List.length hnil
    rw [length_numbered,List.length_nil] at this
    omega
  · rw [length_numbered]
    omega

-- the entry with this number is in the batch of its block and in no other
theorem Logged.mem_batch_iff (h : Logged respond messages tr) {k j : ℕ}
    {b : List SendMessageBatchRequestEntry} (hb : (batches tr)[k]? = some b) :
    idText j ∈ b.map (·.id) ↔ 10*k ≤ j ∧ j < 10*k+10 ∧ j < messages.length := by
  obtain ⟨hlt,_⟩ := h.batch hb
  obtain ⟨ms,_,rfl,hlen⟩ := h.block hb
  rw [mem_ids_numbered]
  constructor
  · rintro ⟨i,hle,hi,heq⟩
    have hij := idText_inj heq
    omega
  · rintro ⟨hle,hten,hall⟩
    exact ⟨j,hle,by omega,rfl⟩

theorem Logged.event (h : Logged respond messages tr) {ev : Event Ans} (hev : ev ∈ tr) :
    ∃ k url b, ev = ⟨.sendMessageBatch url b,respond k⟩ ∧ (batches tr)[k]? = some b := by
  obtain ⟨k,hk⟩ := List.getElem?_of_mem (List.mem_reverse.mpr hev)
  obtain ⟨_,url,b,rfl,_⟩ := h k ev hk
  exact ⟨k,url,b,rfl,by rw [batches,List.getElem?_map,hk]; rfl⟩

theorem Logged.of_batch (h : Logged respond messages tr) {k : ℕ}
    {b : List SendMessageBatchRequestEntry} (hb : (batches tr)[k]? = some b) :
    ∃ url, (⟨.sendMessageBatch url b,respond k⟩ : Event Ans) ∈ tr := by
  rw [batches,List.getElem?_map,Option.map_eq_some_iff] at hb
  obtain ⟨ev,hev,rfl⟩ := hb
  obtain ⟨_,url,b,rfl,_⟩ := h k ev hev
  exact ⟨url,List.mem_reverse.mp (List.mem_of_getElem? hev)⟩

theorem Logged.accepted_iff (h : Logged respond messages tr) (hall : messages.length ≤ 10*tr.length)
    (hok : ∀ k, 10*k < messages.length → ∃ failed, respond k = .ok failed) :
    (∀ e ∈ (batches tr).flatten, ∃ ev ∈ tr, accepts e.id ev) ↔
      AllAccepted respond messages.length := by
  constructor
  · intro haccepted k failed hk j hle hten hlt hfailed
    obtain ⟨b,hb⟩ : ∃ b, (batches tr)[k]? = some b :=
      ⟨_,List.getElem?_eq_getElem (by rw [length_batches]; omega)⟩
    obtain ⟨e,he,hid⟩ := List.mem_map.mp ((h.mem_batch_iff hb).mpr ⟨hle,hten,hlt⟩)
    obtain ⟨ev,hev,haccepts⟩ := haccepted e
      (List.mem_flatten.mpr ⟨b,List.mem_of_getElem? hb,he⟩)
    obtain ⟨k',url,b',rfl,hb'⟩ := h.event hev
    rw [hid] at haccepts
    cases hr : respond k' with
    | error err =>
      rw [hr] at haccepts
      exact haccepts
    | ok failed' =>
      rw [hr] at haccepts
      have hsame := (h.mem_batch_iff hb').mp haccepts.1
      have hkk : k' = k := by omega
      rw [hkk,hk,Except.ok.injEq] at hr
      exact haccepts.2 (hr ▸ hfailed)
  · intro hgood e he
    obtain ⟨b,hmem,hb⟩ := List.mem_flatten.mp he
    obtain ⟨k,hk⟩ := List.getElem?_of_mem hmem
    obtain ⟨hlt,_⟩ := h.batch hk
    obtain ⟨failed,hr⟩ := hok k hlt
    obtain ⟨ms,_,rfl,_⟩ := h.block hk
    obtain ⟨j,_,_,hid⟩ := mem_ids_numbered.mp (List.mem_map_of_mem (f := (·.id)) hb)
    have hin : idText j ∈ (numbered (10*k) ms).map (·.id) := hid ▸ List.mem_map_of_mem hb
    obtain ⟨hle,hten,hall⟩ := (h.mem_batch_iff hk).mp hin
    obtain ⟨url,hev⟩ := h.of_batch hk
    rw [hr] at hev
    refine ⟨_,hev,?_⟩
    rw [hid]
    exact ⟨hin,hgood k failed hr j hle hten hall⟩

theorem whole_iff_not_refused (hopen : a.closed = false) :
    Whole respond messages 0 ↔ ¬ Refused a respond messages := by
  simp only [Whole,Refused,hopen,Nat.mul_zero,List.drop_zero,Nat.zero_le,true_implies,
    Bool.false_eq_true,false_or,not_or,not_exists,not_and]
  refine and_congr_right fun _ => forall_congr' fun k => ?_
  cases respond k with
  | ok failed => simp
  | error e => simp

theorem logged_nil (respond : Responses) (messages : List (Option Message)) :
    Logged respond messages [] := by
  intro k ev hev
  simp at hev

theorem Logged.published_iff (h : Logged respond messages tr) {out : Outcome}
    (hopen : a.closed = false) (hall : out = .returned none → messages.length ≤ 10*tr.length)
    (hout : out = .returned none ↔ Whole respond messages 0) :
    Published messages out tr ↔ Refused a respond messages ∨ AllAccepted respond messages.length := by
  rw [whole_iff_not_refused hopen] at hout
  have hmeets : Published messages out tr ↔
      (out = .returned none → ∀ e ∈ (batches tr).flatten, ∃ ev ∈ tr, accepts e.id ev) :=
    ⟨Published.accepted,fun haccepted => ⟨fun _ _ => h.blocks,fun hok => h.covered (hall hok),haccepted⟩⟩
  rw [hmeets]
  by_cases hrefused : Refused a respond messages
  · exact iff_of_true (fun hok => absurd hrefused (hout.mp hok)) (.inl hrefused)
  · have hok := hout.mpr hrefused
    have hwhole := (whole_iff_not_refused hopen).mpr hrefused
    rw [forall_prop_of_true hok,h.accepted_iff (hall hok) fun k => hwhole.2 k (Nat.zero_le k)]
    exact (or_iff_right hrefused).symm

theorem batch_published_iff (a : Adapter) (topic : String) (respond : Responses)
    (messages : List (Option Message)) :
    (∃ out tr, eval respond (a.publishBatch topic messages) [] = (.ok out,tr) ∧
      Published messages out tr) ↔
    Refused a respond messages ∨ AllAccepted respond messages.length := by
  have hsettled : ∀ {out tr}, eval respond (a.publishBatch topic messages) [] = (.ok out,tr) →
      ((∃ out tr, eval respond (a.publishBatch topic messages) [] = (.ok out,tr) ∧
        Published messages out tr) ↔ Published messages out tr) := by
    intro out tr heval
    rw [heval]
    constructor
    · rintro ⟨out',tr',heq,hpub⟩
      cases heq
      exact hpub
    · exact fun hpub => ⟨out,tr,rfl,hpub⟩
  cases hopen : a.closed with
  | true =>
    rw [hsettled (by rw [Adapter.publishBatch,if_pos hopen]; rfl)]
    refine iff_of_true ⟨fun k b hb => ?_,(nomatch ·),(nomatch ·)⟩ (.inl (.inl hopen))
    simp [batches] at hb
  | false =>
    by_cases hnil : messages.length = 0
    · rw [hsettled (by rw [Adapter.publishBatch,hopen,if_neg Bool.false_ne_true,if_pos hnil]; rfl)]
      have hwhole := (eval_sendFrom_done respond messages [] "" (by simp [hnil])).2
      exact (logged_nil respond messages).published_iff hopen (fun _ => by omega)
        (iff_of_true rfl hwhole)
    · obtain ⟨out,tr,heval,hlog,hall,hout⟩ := eval_sendFrom (a.resolveQueueURL topic)
        messages.length (Nat.sub_le _ _) (logged_nil respond messages)
      rw [hsettled (by rw [Adapter.publishBatch,hopen,if_neg Bool.false_ne_true,if_neg hnil]; exact heval)]
      exact hlog.published_iff hopen hall hout

-- the call succeeds and lists the only entry of the batch as failed
def throttled : Responses := fun _ => .ok [idText 0]

def order : Message := ⟨"order-1","",[],∅,"",0⟩

theorem failed_entry_is_published :
    eval throttled ((⟨false,"orders"⟩ : Adapter).publishBatch "" [some order]) [] =
      (.ok (.returned none),[⟨.sendMessageBatch "orders" [batchEntry 0 order],.ok [idText 0]⟩]) ∧
    ¬ ∃ out tr, eval throttled ((⟨false,"orders"⟩ : Adapter).publishBatch "" [some order]) [] =
      (.ok out,tr) ∧ Published [some order] out tr := by
  have hrun : eval throttled ((⟨false,"orders"⟩ : Adapter).publishBatch "" [some order]) [] =
      (.ok (.returned none),[⟨.sendMessageBatch "orders" [batchEntry 0 order],.ok [idText 0]⟩]) := by
    have hdone := eval_sendFrom_done throttled [some order]
      [⟨.sendMessageBatch "orders" [batchEntry 0 order],.ok [idText 0]⟩] "orders" (by decide)
    have hlt : 10*([] : Trace).length < [some order].length := by decide
    exact (eval_sendFrom_call "orders" hlt rfl).trans hdone.1
  refine ⟨hrun,?_⟩
  rintro ⟨out,tr,heval,hpub⟩
  rw [hrun] at heval
  cases heval
  obtain ⟨ev,hev,haccepts⟩ := hpub.accepted rfl (batchEntry 0 order) (List.mem_singleton_self _)
  cases List.mem_singleton.mp hev
  exact haccepts.2 (List.mem_singleton_self _)

end Batches

end Nimburion.EventBus.SQS
