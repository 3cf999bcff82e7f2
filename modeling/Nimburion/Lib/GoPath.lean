import Nimburion.Lib.GoText

namespace Nimburion.GoPath
open GoText

def hasPrefix (s pre : String) : Bool := pre.toList.isPrefixOf s.toList

def hasSuffix (s suf : String) : Bool := suf.toList.isSuffixOf s.toList

def trimPrefix (s pre : String) : String :=
  if hasPrefix s pre then String.ofList (s.toList.drop pre.toList.length) else s

def push (stack : List String) (element : String) : List String :=
  if element = "" || element = "." then stack
  else if element = ".." then stack.dropLast
  else stack ++ [element]

-- the elements that path.Clean leaves of a rooted path
def elements (p : String) : List String := (split p '/').foldl push []

-- path.Clean of a rooted path
def cleanRooted (p : String) : String := "/" ++ "/".intercalate (elements p)

-- what stands after the last slash
def lastElement (p : String) : String :=
  String.ofList (p.toList.reverse.takeWhile (· ≠ '/')).reverse

-- path.Base
def base (p : String) : String :=
  if p = "" then "."
  else
    let p := trimRight p (· = '/')
    if p = "" then "/" else lastElement p

-- path.Ext
def ext (p : String) : String :=
  match cutChars '.' (p.toList.reverse.takeWhile (· ≠ '/')) with
  | some (ext,_) => String.ofList ('.' :: ext.reverse)
  | none => ""

end Nimburion.GoPath
