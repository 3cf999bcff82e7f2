import Nimburion.HTTP.Signature

namespace Nimburion.HTTP.Signature
open GoTime GoText

-- what net/http lets through: neither the request line nor a header value spans two lines, and an
-- escaped path has its question marks escaped
structure Delivered (req : Request) : Prop where
  method : '\n' ∉ req.method.toList
  escapedPath : '\n' ∉ req.escapedPath.toList
  unambiguous : '?' ∉ req.escapedPath.toList
  rawQuery : '\n' ∉ req.rawQuery.toList
  header : ∀ name, '\n' ∉ (req.header name).toList

def requestURI (req : Request) : String :=
  req.escapedPath ++ if req.rawQuery ≠ "" then "?" ++ req.rawQuery else ""

-- the lines that are joined
def payloadLines (lib : Library) (req : Request) (timestamp nonce : String) (body : Bytes) :
    List String :=
  [lib.toUpper req.method,requestURI req,timestamp,nonce,hexEncode (lib.sum256 body)]

theorem buildPayload_eq (lib : Library) (req : Request) (timestamp nonce : String) (body : Bytes) :
    buildPayload lib req timestamp nonce body =
      "\n".intercalate (payloadLines lib req timestamp nonce body) := rfl

-- the middleware's call
def signedPayload (lib : Library) (cfg : Config) (req : Request) (body : Bytes) : String :=
  buildPayload lib req (trimSpace (req.header cfg.timestampHeader))
    (trimSpace (req.header cfg.nonceHeader)) body

section Lines

theorem hexDigit_injective : ∀ m n : Fin 16, hexDigit m.val = hexDigit n.val → m = n := by
  decide +kernel

theorem hexDigit_ne_newline : ∀ n : Fin 16, hexDigit n.val ≠ '\n' := by decide +kernel

theorem hexDigit_inj {m n : ℕ} (hm : m < 16) (hn : n < 16) (h : hexDigit m = hexDigit n) : m = n :=
  congrArg Fin.val (hexDigit_injective ⟨m,hm⟩ ⟨n,hn⟩ h)

theorem hexByte_inj {a b : UInt8} (h : hexByte a = hexByte b) : a = b := by
  have ha := a.toNat_lt
  have hb := b.toNat_lt
  simp only [hexByte,List.cons.injEq,and_true] at h
  have hhigh := hexDigit_inj (by omega) (by omega) h.1
  have hlow := hexDigit_inj (by omega) (by omega) h.2
  exact UInt8.toNat_inj.mp (by omega)

theorem hexEncode_inj {as bs : Bytes} (h : hexEncode as = hexEncode bs) : as = bs := by
  have hchars : as.flatMap hexByte = bs.flatMap hexByte := by
    simpa [hexEncode] using congrArg String.toList h
  clear h
  induction as generalizing bs with
  | nil =>
    cases bs with
    | nil => rfl
    | cons b bs => cases hchars
  | cons a as ih =>
    cases bs with
    | nil => cases hchars
    | cons b bs =>
      rw [List.flatMap_cons,List.flatMap_cons] at hchars
      obtain ⟨hhead,htail⟩ := List.append_inj hchars rfl
      rw [hexByte_inj hhead,ih htail]

theorem hexEncode_no_newline (bs : Bytes) : '\n' ∉ (hexEncode bs).toList := by
  intro h
  rw [hexEncode,String.toList_ofList,List.mem_flatMap] at h
  obtain ⟨b,-,hb⟩ := h
  have hlt := b.toNat_lt
  rw [hexByte,List.mem_cons,List.mem_singleton] at hb
  rcases hb with hb | hb
  · exact hexDigit_ne_newline ⟨b.toNat/16,by omega⟩ hb.symm
  · exact hexDigit_ne_newline ⟨b.toNat%16,by omega⟩ hb.symm

theorem trimSpace_no_newline {s : String} (h : '\n' ∉ s.toList) : '\n' ∉ (trimSpace s).toList := by
  intro hmem
  rw [trimSpace,String.toList_ofList] at hmem
  exact h ((List.dropWhile_sublist _).subset ((List.rdropWhile_prefix _ _).subset hmem))

-- a text that holds no separator is read back out of the joined one
theorem join_inj {sep : String} {c : Char} (hsep : sep.toList = [c]) {as bs : List String}
    (ha : ∀ s ∈ as, c ∉ s.toList) (hb : ∀ s ∈ bs, c ∉ s.toList) (hane : as ≠ []) (hbne : bs ≠ [])
    (h : sep.intercalate as = sep.intercalate bs) : as = bs := by
  have hsplit : ∀ {ts : List String}, (∀ s ∈ ts, c ∉ s.toList) → ts ≠ [] →
      (sep.intercalate ts).toList.splitOn c = ts.map String.toList := by
    intro ts hts hne
    rw [String.toList_intercalate,hsep]
    exact List.splitOn_intercalate c (by simpa using hts) (by simpa using hne)
  have hlists : as.map String.toList = bs.map String.toList := by
    rw [← hsplit ha hane,← hsplit hb hbne,h]
  exact List.map_injective_iff.mpr (fun _ _ => String.toList_inj.mp) hlists

end Lines

theorem cut_requestURI {req : Request} (h : '?' ∉ req.escapedPath.toList) :
    cut (requestURI req) '?' =
      if req.rawQuery ≠ "" then some (req.escapedPath,req.rawQuery) else none := by
  unfold requestURI
  split_ifs with hquery
  · exact cut_eq_some_iff.mpr ⟨by rw [String.append_assoc]; rfl,h⟩
  · rw [String.append_empty]
    exact (cut_eq_none_iff _ _).mpr h

theorem requestURI_inj {a b : Request} (ha : '?' ∉ a.escapedPath.toList)
    (hb : '?' ∉ b.escapedPath.toList) (h : requestURI a = requestURI b) :
    a.escapedPath = b.escapedPath ∧ a.rawQuery = b.rawQuery := by
  have hcut : cut (requestURI a) '?' = cut (requestURI b) '?' := congrArg (cut · '?') h
  rw [cut_requestURI ha,cut_requestURI hb] at hcut
  by_cases hqa : a.rawQuery = ""
  · by_cases hqb : b.rawQuery = ""
    · refine ⟨?_,hqa.trans hqb.symm⟩
      simpa [requestURI,hqa,hqb] using h
    · simp [hqa,hqb] at hcut
  · by_cases hqb : b.rawQuery = ""
    · simp [hqa,hqb] at hcut
    · simpa [hqa,hqb] using hcut

theorem requestURI_no_newline {req : Request} (h : Delivered req) :
    '\n' ∉ (requestURI req).toList := by
  unfold requestURI
  split_ifs with hquery
  · simpa using ⟨h.escapedPath,h.rawQuery⟩
  · simpa using h.escapedPath

theorem payloadLines_no_newline {lib : Library} {req : Request} {timestamp nonce : String}
    (hup : ∀ s, '\n' ∉ s.toList → '\n' ∉ (lib.toUpper s).toList) (h : Delivered req)
    (ht : '\n' ∉ timestamp.toList) (hn : '\n' ∉ nonce.toList) (body : Bytes) :
    ∀ s ∈ payloadLines lib req timestamp nonce body, '\n' ∉ s.toList := by
  intro s hs
  simp only [payloadLines,List.mem_cons,List.not_mem_nil,or_false] at hs
  rcases hs with rfl | rfl | rfl | rfl | rfl
  · exact hup _ h.method
  · exact requestURI_no_newline h
  · exact ht
  · exact hn
  · exact hexEncode_no_newline _

section Binding

variable {lib : Library} {a b : Request} {t t' n n' : String} {body body' : Bytes}

theorem payloadLines_inj (hup : ∀ s, '\n' ∉ s.toList → '\n' ∉ (lib.toUpper s).toList)
    (ha : Delivered a) (hb : Delivered b) (ht : '\n' ∉ t.toList) (hn : '\n' ∉ n.toList)
    (ht' : '\n' ∉ t'.toList) (hn' : '\n' ∉ n'.toList)
    (h : buildPayload lib a t n body = buildPayload lib b t' n' body') :
    payloadLines lib a t n body = payloadLines lib b t' n' body' := by
  rw [buildPayload_eq,buildPayload_eq] at h
  exact join_inj (by rfl) (payloadLines_no_newline hup ha ht hn body)
    (payloadLines_no_newline hup hb ht' hn' body') (by simp [payloadLines])
    (by simp [payloadLines]) h

structure SameRequest (lib : Library) (a b : Request) : Prop where
  method : lib.toUpper a.method = lib.toUpper b.method
  escapedPath : a.escapedPath = b.escapedPath
  rawQuery : a.rawQuery = b.rawQuery

theorem payloadLines_eq_iff (ha : '?' ∉ a.escapedPath.toList) (hb : '?' ∉ b.escapedPath.toList) :
    payloadLines lib a t n body = payloadLines lib b t' n' body' ↔
      SameRequest lib a b ∧ t = t' ∧ n = n' ∧ lib.sum256 body = lib.sum256 body' := by
  simp only [payloadLines,List.cons.injEq,and_true]
  constructor
  · rintro ⟨hmethod,huri,htime,hnonce,hbody⟩
    obtain ⟨hpath,hquery⟩ := requestURI_inj ha hb huri
    exact ⟨⟨hmethod,hpath,hquery⟩,htime,hnonce,hexEncode_inj hbody⟩
  · rintro ⟨⟨hmethod,hpath,hquery⟩,htime,hnonce,hbody⟩
    exact ⟨hmethod,by rw [requestURI,requestURI,hpath,hquery],htime,hnonce,by rw [hbody]⟩

-- an empty query is none: RawQuery holds no more than the text behind the question mark
theorem buildPayload_binds (hup : ∀ s, '\n' ∉ s.toList → '\n' ∉ (lib.toUpper s).toList)
    (ha : Delivered a) (hb : Delivered b) (ht : '\n' ∉ t.toList) (hn : '\n' ∉ n.toList)
    (ht' : '\n' ∉ t'.toList) (hn' : '\n' ∉ n'.toList)
    (hsum : lib.sum256 body = lib.sum256 body' → body = body')
    (h : buildPayload lib a t n body = buildPayload lib b t' n' body') :
    lib.toUpper a.method = lib.toUpper b.method ∧ a.escapedPath = b.escapedPath ∧
      a.rawQuery = b.rawQuery ∧ t = t' ∧ n = n' ∧ body = body' := by
  obtain ⟨hsame,htime,hnonce,hbody⟩ := (payloadLines_eq_iff ha.unambiguous hb.unambiguous).mp
    (payloadLines_inj hup ha hb ht hn ht' hn' h)
  exact ⟨hsame.method,hsame.escapedPath,hsame.rawQuery,htime,hnonce,hsum hbody⟩

end Binding

theorem toUpper_newline {c : Char} (h : c.toUpper = '\n') : c = '\n' := by
  unfold Char.toUpper at h
  split_ifs at h with hlow
  · have hval := congrArg Char.val h
    have hhigh : c.val ≤ 122 := hlow.2
    have hletter : 97 ≤ c.val := hlow.1
    simp only [show 'A'.val - 'a'.val = (4294967264 : UInt32) from by decide] at hval
    rw [UInt32.le_iff_toNat_le] at hhigh hletter
    have hnat := congrArg UInt32.toNat hval
    simp at hnat hhigh hletter
    omega
  · exact h

def orderBy (method : String) : Request := { (orderAt 0).req with method := method }

theorem orderBy_delivered {method : String} (h : '\n' ∉ method.toList) :
    Delivered (orderBy method) := by
  have hpath : '\n' ∉ "/orders".toList ∧ '?' ∉ "/orders".toList := by decide +kernel
  have hquery : '\n' ∉ "".toList := by simp
  refine ⟨h,hpath.1,hpath.2,hquery,fun name => ?_⟩
  change '\n' ∉ (orderHeader name).toList
  unfold orderHeader
  split <;> decide +kernel

theorem orderBy_same {m m' : String} (h : m.toUpper = m'.toUpper) :
    SameRequest orderLibrary (orderBy m) (orderBy m') := ⟨h,rfl,rfl⟩

theorem orderLibrary_toUpper {s : String} (hs : '\n' ∉ s.toList) :
    '\n' ∉ (orderLibrary.toUpper s).toList := by
  intro hmem
  change '\n' ∈ (s.toUpper).toList at hmem
  rw [String.toUpper,String.toList_map,List.mem_map] at hmem
  obtain ⟨c,hc,heq⟩ := hmem
  exact hs (toUpper_newline heq ▸ hc)

theorem buildPayload_binds_order :
    buildPayload orderLibrary (orderBy "post") "1700000000" "n-1" [] =
      buildPayload orderLibrary (orderBy "POST") "1700000000" "n-1" [] ∧
    (orderBy "post").escapedPath = (orderBy "POST").escapedPath := by
  have hpost := orderBy_delivered (show '\n' ∉ "post".toList by decide +kernel)
  have hPOST := orderBy_delivered (show '\n' ∉ "POST".toList by decide +kernel)
  have hmethod : "post".toUpper = "POST".toUpper := by
    apply String.toList_inj.mp
    simp [String.toUpper,String.toList_map]
  have heq : buildPayload orderLibrary (orderBy "post") "1700000000" "n-1" [] =
      buildPayload orderLibrary (orderBy "POST") "1700000000" "n-1" [] := by
    have hsame : SameRequest orderLibrary (orderBy "post") (orderBy "POST") := orderBy_same hmethod
    rw [buildPayload_eq,buildPayload_eq,
      (payloadLines_eq_iff hpost.unambiguous hPOST.unambiguous).mpr ⟨hsame,rfl,rfl,rfl⟩]
  have htime : '\n' ∉ "1700000000".toList := by decide +kernel
  have hnonce : '\n' ∉ "n-1".toList := by decide +kernel
  have hbinds := buildPayload_binds (fun _ => orderLibrary_toUpper) hpost hPOST htime hnonce htime
    hnonce (fun _ => rfl) heq
  exact ⟨heq,hbinds.2.1⟩

-- whoever passes has been compared with the code of this payload
theorem verify_payload {lib : Library} {cfg : Config} {a : Arrival} {v : Verified}
    (h : verify lib cfg a = .ok v) : ∃ secret body, a.secret = some secret ∧
      a.req.body = some body ∧ decodeSignature lib (trimSpace (a.req.header cfg.signatureHeader)) =
        some (lib.hmac secret (signedPayload lib cfg a.req body)) := by
  unfold verify at h
  dsimp only at h
  obtain ⟨_,h⟩ := ok_of_guard h
  obtain ⟨_,h⟩ := ok_of_guard h
  obtain ⟨_,h⟩ := ok_of_guard h
  obtain ⟨_,h⟩ := ok_of_guard h
  obtain ⟨_,h⟩ := ok_of_guard h
  split at h
  · cases h
  · obtain ⟨_,h⟩ := ok_of_guard h
    split at h
    · rename_i b secret body hsecret hbody
      split_ifs at h with hsig
      exact ⟨b :: secret,body,hsecret,hbody,hsig⟩
    · cases h
    · cases h

-- a signature that passed for one request passes for no other, as long as neither code collides on
-- the two
theorem signature_not_moved {lib : Library} {cfg : Config} {a b : Arrival} {v w : Verified}
    (hup : ∀ s, '\n' ∉ s.toList → '\n' ∉ (lib.toUpper s).toList)
    (hsum : Function.Injective lib.sum256) (hmac : ∀ secret, Function.Injective (lib.hmac secret))
    (ha : Delivered a.req) (hb : Delivered b.req) (hv : verify lib cfg a = .ok v)
    (hw : verify lib cfg b = .ok w) (hsecret : a.secret = b.secret)
    (hsig : a.req.header cfg.signatureHeader = b.req.header cfg.signatureHeader) :
    SameRequest lib a.req b.req ∧ a.req.body = b.req.body := by
  obtain ⟨secret,body,hs,hbody,hmatch⟩ := verify_payload hv
  obtain ⟨secret',body',hs',hbody',hmatch'⟩ := verify_payload hw
  have hsecrets : secret = secret' := Option.some.inj (hs.symm.trans (hsecret.trans hs'))
  subst hsecrets
  have hcodes : lib.hmac secret (signedPayload lib cfg a.req body) =
      lib.hmac secret (signedPayload lib cfg b.req body') := by
    rw [hsig] at hmatch
    exact Option.some.inj (hmatch.symm.trans hmatch')
  have hlines := payloadLines_inj hup ha hb (trimSpace_no_newline (ha.header _))
    (trimSpace_no_newline (ha.header _)) (trimSpace_no_newline (hb.header _))
    (trimSpace_no_newline (hb.header _)) (hmac secret hcodes)
  obtain ⟨hsame,-,-,hdigest⟩ := (payloadLines_eq_iff ha.unambiguous hb.unambiguous).mp hlines
  exact ⟨hsame,by rw [hbody,hbody',hsum hdigest]⟩

end Nimburion.HTTP.Signature
