import Mathlib.Data.List.Basic
import Mathlib.Tactic.Common

namespace Nimburion.QueryEscape

def utf8 (s : String) : List UInt8 := s.toList.flatMap String.utf8EncodeChar

def unreserved (n : ℕ) : Bool :=
  (48 ≤ n && n ≤ 57) || (65 ≤ n && n ≤ 90) || (97 ≤ n && n ≤ 122) || n == 45 || n == 46 || n == 95 ||
  n == 126

def upperHex (n : ℕ) : Char := if n < 10 then Char.ofNat (48+n) else Char.ofNat (55+n)

def escapeByte (b : UInt8) : List Char :=
  if unreserved b.toNat then [Char.ofNat b.toNat]
  else if b.toNat = 32 then ['+']
  else ['%',upperHex (b.toNat/16),upperHex (b.toNat%16)]

-- url.QueryEscape
def queryEscape (s : String) : String := String.ofList ((utf8 s).flatMap escapeByte)

end Nimburion.QueryEscape
