import Nimburion.Lib.BigEndian
import Mathlib.Data.List.Basic

-- the frames of ws.Conn over the bytes that its reader still has
namespace Nimburion.HTTP.WS
open BigEndian

abbrev Bytes := List UInt8

def opText : UInt8 := 0x1

def opPing : UInt8 := 0x9

inductive ReadError where
  | invalidReadLimit
  | tooLarge
  | eof
  | unexpectedEOF
  deriving DecidableEq, Repr

-- io.ReadFull, which also consumes what it cannot complete
def readFull (n : ℕ) (stream : Bytes) : Except ReadError Bytes × Bytes :=
  if n ≤ stream.length then (.ok (stream.take n),stream.drop n)
  else (.error (if stream = [] then .eof else .unexpectedEOF),[])

structure Frame where
  opcode : UInt8
  payload : Bytes
  deriving DecidableEq, Repr

-- one call of ReadFrame: `allocated` is the size of the payload buffer it makes
structure Reading where
  result : Except ReadError Frame
  allocated : Option ℕ
  rest : Bytes

section Source

-- the switch on the seven bits; readLimit is not negative here
def extendedLength (readLimit : Int64) (code : ℕ) (stream : Bytes) :
    Except ReadError ℕ × Bytes :=
  if code = 126 then
    match readFull 2 stream with
    | (.ok ext,rest) => (.ok (value ext),rest)
    | (.error e,rest) => (.error e,rest)
  else if code = 127 then
    match readFull 8 stream with
    | (.ok ext,rest) =>
        if readLimit.toInt < value ext ∨ 2^63-1 < value ext then (.error .tooLarge,rest)
        else (.ok (value ext),rest)
    | (.error e,rest) => (.error e,rest)
  else (.ok code,stream)

def readMask (masked : Bool) (stream : Bytes) : Except ReadError Bytes × Bytes :=
  if masked then readFull 4 stream else (.ok [],stream)

def readPayload (payloadLen : ℕ) (stream : Bytes) : Except ReadError Bytes × Bytes :=
  if 0 < payloadLen then readFull payloadLen stream else (.ok [],stream)

def applyMask (mask payload : Bytes) : Bytes :=
  payload.mapIdx fun idx b => b ^^^ mask.getD (idx%4) 0

-- ReadFrame behind the length check
def readBody (opcode : UInt8) (masked : Bool) (payloadLen : ℕ) (stream : Bytes) : Reading :=
  match readMask masked stream with
  | (.error e,rest) => ⟨.error e,none,rest⟩
  | (.ok mask,rest) => match readPayload payloadLen rest with
      | (.error e,rest) => ⟨.error e,some payloadLen,rest⟩
      | (.ok payload,rest) =>
          ⟨.ok ⟨opcode,if masked then applyMask mask payload else payload⟩,some payloadLen,rest⟩

def readFrame (readLimit : Int64) (stream : Bytes) : Reading :=
  if readLimit < 0 then ⟨.error .invalidReadLimit,none,stream⟩
  else match readFull 2 stream with
    | (.error e,rest) => ⟨.error e,none,rest⟩
    | (.ok header,rest) =>
        let opcode := header.getD 0 0 &&& 0x0F
        let masked := (header.getD 1 0 &&& 0x80) != 0
        match extendedLength readLimit (header.getD 1 0 &&& 0x7F).toNat rest with
        | (.error e,rest) => ⟨.error e,none,rest⟩
        | (.ok payloadLen,rest) =>
            if readLimit.toInt < payloadLen then ⟨.error .tooLarge,none,rest⟩
            else readBody opcode masked payloadLen rest

-- successive calls, up to the first that fails
def readFrames (readLimit : Int64) : ℕ → Bytes → List Frame × Bytes
  | 0, stream => ([],stream)
  | n+1, stream =>
      let r := readFrame readLimit stream
      match r.result with
      | .error _ => ([],r.rest)
      | .ok f =>
          let more := readFrames readLimit n r.rest
          (f :: more.1,more.2)

-- the bytes WriteFrame writes
def writeFrame (opcode : UInt8) (payload : Bytes) : Bytes :=
  let payloadLen := payload.length
  let length : Bytes :=
    if payloadLen < 126 then [UInt8.ofNat payloadLen]
    else if payloadLen ≤ 65535 then 126 :: put 2 payloadLen
    else 127 :: put 8 payloadLen
  (0x80 ||| opcode) :: length ++ payload

end Source

section Wire

-- the three length forms of RFC 6455
inductive Form where
  | short
  | medium
  | long
  deriving DecidableEq, Repr

def Form.Fits (len : ℕ) : Form → Prop
  | .short => len < 126
  | .medium => len < 2^16
  | .long => len < 2^63

instance (len : ℕ) : (form : Form) → Decidable (form.Fits len)
  | .short => inferInstanceAs (Decidable (len < 126))
  | .medium => inferInstanceAs (Decidable (len < 2^16))
  | .long => inferInstanceAs (Decidable (len < 2^63))

def Form.code (len : ℕ) : Form → ℕ
  | .short => len
  | .medium => 126
  | .long => 127

def Form.extension (len : ℕ) : Form → Bytes
  | .short => []
  | .medium => put 2 len
  | .long => put 8 len

-- what of an encoding is free: FIN and the reserved bits, the length form and the masking key
structure Wire where
  flags : Fin 16
  form : Form
  mask : Option {key : Bytes // key.length = 4}

def Wire.masked (w : Wire) : ℕ := if w.mask.isSome then 1 else 0

def Wire.key (w : Wire) : Bytes := (w.mask.map Subtype.val).getD []

-- RFC 6455, 5.3: transformed-octet-i = original-octet-i XOR masking-key-octet-(i MOD 4)
def transformed (key : {key : Bytes // key.length = 4}) (payload : Bytes) : Bytes :=
  List.ofFn fun i : Fin payload.length =>
    payload.get i ^^^ key.1.get ⟨i%4,key.2.symm ▸ Nat.mod_lt _ (by decide)⟩

def Wire.carry (w : Wire) (payload : Bytes) : Bytes :=
  match w.mask with
  | none => payload
  | some key => transformed key payload

def encode (w : Wire) (f : Frame) : Bytes :=
  UInt8.ofNat (16*w.flags+f.opcode.toNat) ::
    UInt8.ofNat (128*w.masked+w.form.code f.payload.length) ::
    (w.form.extension f.payload.length ++ (w.key ++ w.carry f.payload))

-- the form WriteFrame takes
def leastForm (len : ℕ) : Form := if len < 126 then .short else if len ≤ 65535 then .medium else .long

end Wire

section Bits

theorem and_low (b : UInt8) : (b &&& 0x0F).toNat = b.toNat%16 := by
  rw [UInt8.toNat_and]
  exact Nat.and_two_pow_sub_one_eq_mod b.toNat 4

theorem and_seven (b : UInt8) : (b &&& 0x7F).toNat = b.toNat%128 := by
  rw [UInt8.toNat_and]
  exact Nat.and_two_pow_sub_one_eq_mod b.toNat 7

theorem and_top (b : UInt8) : ((b &&& 0x80) != 0) = decide (128 ≤ b.toNat) := by
  have hall : ∀ n < 256, ((UInt8.ofNat n &&& 0x80) != 0) = decide (128 ≤ n) := by decide +kernel
  have h := hall b.toNat b.toNat_lt
  rwa [UInt8.ofNat_toNat] at h

theorem or_fin (k : ℕ) (h : k < 16) : (0x80 : UInt8) ||| UInt8.ofNat k = UInt8.ofNat (16*8+k) := by
  have hall : ∀ k < 16, (0x80 : UInt8) ||| UInt8.ofNat k = UInt8.ofNat (16*8+k) := by decide
  exact hall k h

end Bits

section Reading

theorem readFull_append {n : ℕ} {bs : Bytes} (h : bs.length = n) (rest : Bytes) :
    readFull n (bs ++ rest) = (.ok bs,rest) := by
  subst h
  rw [readFull,if_pos (by simp),List.take_left,List.drop_left]

theorem readFull_ok {n : ℕ} {stream bs rest : Bytes} (h : readFull n stream = (.ok bs,rest)) :
    bs.length = n ∧ stream = bs ++ rest := by
  rw [readFull] at h
  split_ifs at h with hle
  · cases h
    exact ⟨List.length_take_of_le hle,(List.take_append_drop n stream).symm⟩
  · cases h
  · cases h

@[simp] theorem length_applyMask (mask payload : Bytes) :
    (applyMask mask payload).length = payload.length := List.length_mapIdx

theorem applyMask_applyMask (mask payload : Bytes) :
    applyMask mask (applyMask mask payload) = payload := by
  apply List.ext_getElem
  · simp
  · intro i _ _
    simp only [applyMask,List.getElem_mapIdx]
    rw [UInt8.xor_assoc,UInt8.xor_self,UInt8.xor_zero]

theorem applyMask_eq_transformed (key : {key : Bytes // key.length = 4}) (payload : Bytes) :
    applyMask key.1 payload = transformed key payload := by
  apply List.ext_getElem
  · simp [transformed]
  · intro i _ _
    have hi : i%4 < key.1.length := key.2.symm ▸ Nat.mod_lt i (by decide)
    simp [applyMask,transformed,List.getElem?_eq_getElem hi]

theorem Wire.carry_eq (w : Wire) (payload : Bytes) :
    w.carry payload = if w.mask.isSome then applyMask w.key payload else payload := by
  obtain ⟨flags,form,mask⟩ := w
  cases mask with
  | none => rfl
  | some key => exact (applyMask_eq_transformed key payload).symm

@[simp] theorem Wire.length_carry (w : Wire) (payload : Bytes) :
    (w.carry payload).length = payload.length := by
  rw [carry_eq]
  split_ifs
  · exact length_applyMask _ _
  · rfl

theorem Form.Fits.code_lt {form : Form} {len : ℕ} (h : form.Fits len) : form.code len < 128 := by
  cases form with
  | short => exact Nat.lt_trans h (by decide)
  | medium => exact (by decide : 126 < 128)
  | long => exact (by decide : 127 < 128)

theorem extendedLength_form {readLimit : Int64} {form : Form} {len : ℕ} (hfits : form.Fits len)
    (hlimit : (len : Int) ≤ readLimit.toInt) (rest : Bytes) :
    extendedLength readLimit (form.code len) (form.extension len ++ rest) = (.ok len,rest) := by
  cases form with
  | short =>
    have hlen : len < 126 := hfits
    rw [extendedLength,Form.code,if_neg (by omega),if_neg (by omega)]
    rfl
  | medium =>
    have hlen : len < 256^2 := hfits
    rw [extendedLength,Form.code,if_pos rfl,Form.extension,readFull_append (length_put 2 len)]
    simp only [value_put hlen]
  | long =>
    have hlen : len < 2^63 := hfits
    rw [extendedLength,Form.code,if_neg (by decide),if_pos rfl,Form.extension,
      readFull_append (length_put 8 len)]
    simp only [value_put (w := 8) (Nat.lt_trans hlen (by decide))]
    rw [if_neg]
    omega

theorem readMask_key (w : Wire) (rest : Bytes) :
    readMask w.mask.isSome (w.key ++ rest) = (.ok w.key,rest) := by
  obtain ⟨flags,form,mask⟩ := w
  cases mask with
  | none => rfl
  | some key => exact readFull_append key.2 rest

theorem readPayload_append (payload rest : Bytes) :
    readPayload payload.length (payload ++ rest) = (.ok payload,rest) := by
  rw [readPayload]
  split_ifs with hpos
  · exact readFull_append rfl rest
  · rw [List.length_eq_zero_iff.mp (Nat.eq_zero_of_not_pos hpos)]
    rfl

theorem readBody_carry (opcode : UInt8) (w : Wire) (payload rest : Bytes) :
    readBody opcode w.mask.isSome payload.length (w.key ++ (w.carry payload ++ rest)) =
      ⟨.ok ⟨opcode,payload⟩,some payload.length,rest⟩ := by
  have hread := readPayload_append (w.carry payload) rest
  rw [w.length_carry] at hread
  have hback : (if w.mask.isSome then applyMask w.key (w.carry payload) else w.carry payload) =
      payload := by
    rw [Wire.carry_eq]
    split_ifs
    · exact applyMask_applyMask _ _
    · rfl
  rw [readBody,readMask_key]
  simp only [hread,hback]

-- one frame in any form that holds its length
theorem readFrame_encode {readLimit : Int64} {w : Wire} {f : Frame} (hop : f.opcode < 16)
    (hlimit : (f.payload.length : Int) ≤ readLimit.toInt) (hfits : w.form.Fits f.payload.length)
    (rest : Bytes) :
    readFrame readLimit (encode w f ++ rest) = ⟨.ok f,some f.payload.length,rest⟩ := by
  have hopcode : f.opcode.toNat < 16 := UInt8.lt_iff_toNat_lt.mp hop
  have hflags := w.flags.2
  have hcode := hfits.code_lt
  have hmasked : w.masked = if w.mask.isSome then 1 else 0 := rfl
  have hnonneg : ¬ readLimit < 0 := by
    rw [Int64.lt_iff_toInt_lt]
    exact Int.not_lt.mpr (Int.le_trans (Int.natCast_nonneg _) hlimit)
  have hfirst : UInt8.ofNat (16*w.flags+f.opcode.toNat) &&& 0x0F = f.opcode := by
    apply UInt8.toNat_inj.mp
    rw [and_low,UInt8.toNat_ofNat']
    omega
  have hsecond : (UInt8.ofNat (128*w.masked+w.form.code f.payload.length) &&& 0x7F).toNat =
      w.form.code f.payload.length := by
    rw [and_seven,UInt8.toNat_ofNat',hmasked]
    split_ifs <;> omega
  have htop : ((UInt8.ofNat (128*w.masked+w.form.code f.payload.length) &&& 0x80) != 0) =
      w.mask.isSome := by
    rw [and_top,UInt8.toNat_ofNat',hmasked]
    cases w.mask.isSome with
    | true => simp; omega
    | false => simp; omega
  rw [readFrame,if_neg hnonneg]
  simp only [encode,List.cons_append,readFull,List.length_cons,List.take_succ_cons,List.take_zero,
    List.drop_succ_cons,List.drop_zero,List.append_assoc]
  rw [if_pos (by omega)]
  simp only [List.getD_cons_zero,List.getD_cons_succ,hfirst,hsecond,htop]
  rw [extendedLength_form hfits hlimit]
  simp only
  rw [if_neg (Int.not_lt.mpr hlimit)]
  exact readBody_carry f.opcode w f.payload rest

end Reading

section Consuming

theorem extendedLength_ok {readLimit : Int64} {code len : ℕ} {stream rest : Bytes}
    (hcode : code < 128) (h : extendedLength readLimit code stream = (.ok len,rest)) :
    ∃ form : Form, form.Fits len ∧ form.code len = code ∧ stream = form.extension len ++ rest := by
  rw [extendedLength] at h
  split_ifs at h with hmedium hlong
  · split at h
    · rename_i ext rest' hread
      cases h
      obtain ⟨hlength,rfl⟩ := readFull_ok hread
      have hput := put_value ext
      have hlt := value_lt ext
      rw [hlength] at hput hlt
      exact ⟨.medium,hlt,hmedium.symm,by rw [Form.extension,hput]⟩
    · cases h
  · split at h
    · rename_i ext rest' hread
      obtain ⟨hlength,rfl⟩ := readFull_ok hread
      have hput := put_value ext
      rw [hlength] at hput
      split_ifs at h with hlarge
      · cases h
      · cases h
        refine ⟨.long,?_,hlong.symm,by rw [Form.extension,hput]⟩
        have hmax := (not_or.mp hlarge).2
        exact Nat.lt_of_le_of_lt (Nat.not_lt.mp hmax) (by decide)
    · cases h
  · cases h
    exact ⟨.short,(by omega : code < 126),rfl,rfl⟩

theorem readMask_ok {masked : Bool} {stream mask rest : Bytes}
    (h : readMask masked stream = (.ok mask,rest)) :
    ∃ key : Option {key : Bytes // key.length = 4}, key.isSome = masked ∧
      (key.map Subtype.val).getD [] = mask ∧ stream = mask ++ rest := by
  rw [readMask] at h
  cases masked with
  | true =>
    obtain ⟨hlength,rfl⟩ := readFull_ok h
    exact ⟨some ⟨mask,hlength⟩,rfl,rfl,rfl⟩
  | false =>
    cases h
    exact ⟨none,rfl,rfl,rfl⟩

theorem readPayload_ok {payloadLen : ℕ} {stream payload rest : Bytes}
    (h : readPayload payloadLen stream = (.ok payload,rest)) :
    payload.length = payloadLen ∧ stream = payload ++ rest := by
  rw [readPayload] at h
  split_ifs at h with hpos
  · exact readFull_ok h
  · cases h
    exact ⟨(Nat.eq_zero_of_not_pos hpos).symm,rfl⟩

theorem readBody_allocated (opcode : UInt8) (masked : Bool) (payloadLen : ℕ) (stream : Bytes) :
    ∀ n, (readBody opcode masked payloadLen stream).allocated = some n → n = payloadLen := by
  intro n h
  rw [readBody] at h
  split at h
  · cases h
  · split at h
    · exact (Option.some.inj h).symm
    · exact (Option.some.inj h).symm

theorem readBody_ok {opcode : UInt8} {masked : Bool} {payloadLen : ℕ} {stream : Bytes} {f : Frame}
    (h : (readBody opcode masked payloadLen stream).result = .ok f) :
    f.opcode = opcode ∧ f.payload.length = payloadLen ∧ ∀ flags form, ∃ w : Wire,
      w.flags = flags ∧ w.form = form ∧ w.mask.isSome = masked ∧
      stream = w.key ++ (w.carry f.payload ++ (readBody opcode masked payloadLen stream).rest) := by
  rw [readBody] at h ⊢
  split at h
  · cases h
  · rename_i mask rest hmask
    obtain ⟨key,hkey,hval,rfl⟩ := readMask_ok hmask
    split at h
    · cases h
    · rename_i payload rest' hpayload
      obtain ⟨hlength,rfl⟩ := readPayload_ok hpayload
      cases h
      refine ⟨rfl,?_,fun flags form => ⟨⟨flags,form,key⟩,rfl,rfl,hkey,?_⟩⟩
      · dsimp only
        split_ifs
        · exact (length_applyMask _ _).trans hlength
        · exact hlength
      · simp only [Wire.key,hval,Wire.carry_eq,hkey]
        split_ifs
        · rw [applyMask_applyMask]
        · rfl

-- a frame that is returned is the front of the stream
theorem readFrame_ok {readLimit : Int64} {stream : Bytes} {f : Frame}
    (h : (readFrame readLimit stream).result = .ok f) :
    f.opcode < 16 ∧ (f.payload.length : Int) ≤ readLimit.toInt ∧ ∃ w : Wire,
      w.form.Fits f.payload.length ∧ stream = encode w f ++ (readFrame readLimit stream).rest := by
  rw [readFrame] at h ⊢
  split_ifs at h ⊢ with hneg
  split at h
  · cases h
  · rename_i header rest hheader
    obtain ⟨hlength,rfl⟩ := readFull_ok hheader
    obtain ⟨b0,b1,rfl⟩ := List.length_eq_two.mp hlength
    simp only [List.getD_cons_zero,List.getD_cons_succ] at h ⊢
    split at h
    · cases h
    · rename_i payloadLen rest' hext
      have hseven : (b1 &&& 0x7F).toNat < 128 := by
        rw [and_seven]
        exact Nat.mod_lt _ (by decide)
      obtain ⟨form,hfits,hcode,rfl⟩ := extendedLength_ok hseven hext
      split_ifs at h with hlarge
      obtain ⟨hop,hlen,hwire⟩ := readBody_ok h
      obtain ⟨w,hflags,rfl,hmask,hstream⟩ := hwire ⟨b0.toNat/16,by have := b0.toNat_lt; omega⟩ form
      have hfirst : UInt8.ofNat (16*w.flags+f.opcode.toNat) = b0 := by
        apply UInt8.toNat_inj.mp
        have hb := b0.toNat_lt
        rw [UInt8.toNat_ofNat',hop,and_low,hflags]
        dsimp only
        omega
      have hsecond : UInt8.ofNat (128*w.masked+w.form.code payloadLen) = b1 := by
        apply UInt8.toNat_inj.mp
        have hb := b1.toNat_lt
        rw [UInt8.toNat_ofNat',hcode,and_seven,Wire.masked,hmask,and_top]
        by_cases htop : 128 ≤ b1.toNat
        · simp only [htop,decide_true,if_true]
          omega
        · simp only [htop,decide_false,Bool.false_eq_true,if_false]
          omega
      refine ⟨?_,?_,w,hlen ▸ hfits,?_⟩
      · rw [hop,UInt8.lt_iff_toNat_lt,and_low]
        exact Nat.mod_lt _ (by decide)
      · rw [hlen]
        exact Int.not_lt.mp hlarge
      · simp only [if_neg hlarge]
        rw [encode,hfirst,hlen,hsecond]
        simp only [List.cons_append,List.nil_append,List.append_assoc]
        rw [← hstream]

theorem readFrame_allocated (readLimit : Int64) (stream : Bytes) :
    ∀ n, (readFrame readLimit stream).allocated = some n → (n : Int) ≤ readLimit.toInt := by
  intro n h
  rw [readFrame] at h
  split_ifs at h with hneg
  split at h
  · cases h
  · dsimp only at h
    split at h
    · cases h
    · split_ifs at h with hlarge
      rw [readBody_allocated _ _ _ _ n h]
      exact Int.not_lt.mp hlarge

end Consuming

section Runs

theorem readFrames_encoded {readLimit : Int64} {frames : List (Wire × Frame)}
    (h : ∀ x ∈ frames, x.2.opcode < 16 ∧ (x.2.payload.length : Int) ≤ readLimit.toInt ∧
      x.1.form.Fits x.2.payload.length) (rest : Bytes) :
    readFrames readLimit frames.length (frames.flatMap (fun x => encode x.1 x.2) ++ rest) =
      (frames.map Prod.snd,rest) := by
  induction frames with
  | nil => rfl
  | cons x frames ih =>
    obtain ⟨⟨hop,hlimit,hfits⟩,hrest⟩ := List.forall_mem_cons.mp h
    rw [List.length_cons,readFrames,List.flatMap_cons,List.append_assoc,
      readFrame_encode hop hlimit hfits]
    simp only [ih hrest]
    rfl

theorem leastForm_fits {len : ℕ} (h : len < 2^63) : (leastForm len).Fits len := by
  unfold leastForm
  split_ifs with hshort hmedium
  · exact hshort
  · exact Nat.lt_succ_of_le hmedium
  · exact h

theorem writeFrame_eq {opcode : UInt8} (h : opcode < 16) (payload : Bytes) :
    writeFrame opcode payload = encode ⟨8,leastForm payload.length,none⟩ ⟨opcode,payload⟩ := by
  have hfirst : (0x80 : UInt8) ||| opcode = UInt8.ofNat (16*8+opcode.toNat) := by
    have hor := or_fin opcode.toNat (UInt8.lt_iff_toNat_lt.mp h)
    rwa [UInt8.ofNat_toNat] at hor
  have hflags : ((8 : Fin 16) : ℕ) = 8 := rfl
  simp only [writeFrame,encode,hfirst,hflags,leastForm,Wire.masked,Wire.key,Wire.carry,
    Option.isSome_none,Bool.false_eq_true,if_false,Nat.mul_zero,Nat.zero_add]
  split_ifs with hshort hmedium
  · rfl
  · rfl
  · rfl

end Runs

-- what is written is what is read, and only it is consumed
theorem frames_round_trip (readLimit : Int64) :
    (∀ (frames : List (Wire × Frame)) (rest : Bytes),
      (∀ x ∈ frames, x.2.opcode < 16 ∧ (x.2.payload.length : Int) ≤ readLimit.toInt ∧
        x.1.form.Fits x.2.payload.length) →
      readFrames readLimit frames.length (frames.flatMap (fun x => encode x.1 x.2) ++ rest) =
        (frames.map Prod.snd,rest)) ∧
    (∀ (opcode : UInt8) (payload : Bytes), opcode < 16 → (payload.length : Int) ≤ readLimit.toInt →
      ∃ w : Wire, w.form.Fits payload.length ∧ writeFrame opcode payload = encode w ⟨opcode,payload⟩) ∧
    ∀ stream : Bytes,
      (∀ n, (readFrame readLimit stream).allocated = some n → (n : Int) ≤ readLimit.toInt) ∧
      ∀ f, (readFrame readLimit stream).result = .ok f →
        f.opcode < 16 ∧ (f.payload.length : Int) ≤ readLimit.toInt ∧ ∃ w : Wire,
          w.form.Fits f.payload.length ∧
            stream = encode w f ++ (readFrame readLimit stream).rest := by
  refine ⟨fun frames rest h => readFrames_encoded h rest,?_,?_⟩
  · intro opcode payload hop hlimit
    have hlt := readLimit.toInt_lt
    exact ⟨_,leastForm_fits (by omega),writeFrame_eq hop payload⟩
  · exact fun stream => ⟨readFrame_allocated readLimit stream,fun f h => readFrame_ok h⟩

-- "hello!" masked and with its length in two bytes, then an empty ping
theorem masked_text_round_trip :
    readFrames 4096 2 [0x81,0xFE,0,6,1,2,3,4,105,103,111,104,110,35,0x89,0] =
        ([⟨opText,[104,101,108,108,111,33]⟩,⟨opPing,[]⟩],[]) ∧
      (readFrame 4096 [0x81,0xFE,0,6,1,2,3,4,105,103,111,104,110,35,0x89,0]).allocated = some 6 := by
  have hround := (frames_round_trip 4096).1
    [(⟨8,.medium,some ⟨[1,2,3,4],rfl⟩⟩,⟨opText,[104,101,108,108,111,33]⟩),
      (⟨8,.short,none⟩,⟨opPing,[]⟩)] [] (by simp [opText,opPing,Form.Fits])
  exact ⟨hround,by decide⟩

end Nimburion.HTTP.WS
