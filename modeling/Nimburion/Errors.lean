import Mathlib.Tactic.Common

namespace Nimburion

inductive Classification where
  | retryable
  | poison
  | terminal
  deriving DecidableEq, Repr

inductive JobsErrorKind where
  | validation
  | conflict
  | notFound
  | retryable
  | invalidArgument
  | notInitialized
  | closed
  deriving DecidableEq, Repr

def JobsErrorKind.message : JobsErrorKind → String
  | .validation => "jobs validation error"
  | .conflict => "jobs conflict"
  | .notFound => "jobs not found"
  | .retryable => "jobs retryable error"
  | .invalidArgument => "jobs invalid argument"
  | .notInitialized => "jobs not initialized"
  | .closed => "jobs closed"

-- `tagged` is retry.taggedError, `wrapped` one %w after a text, `pair` two %w or errors.Join
inductive GoError where
  | text (msg : String)
  | jobs (kind : JobsErrorKind) (msg : String)
  | tagged (class_ : Classification) (err : GoError)
  | wrapped (pre : String) (err : GoError)
  | pair (pre mid : String) (a b : GoError)
  deriving DecidableEq, Repr

namespace GoError

def message : GoError → String
  | text msg => msg
  | jobs kind msg => msg ++ ": " ++ kind.message
  | tagged _ err => err.message
  | wrapped pre err => pre ++ err.message
  | pair pre mid a b => pre ++ a.message ++ mid ++ b.message

def join (a b : GoError) : GoError := pair "" "\n" a b

def contextCanceled : GoError := text "context canceled"

def deadlineExceeded : GoError := text "context deadline exceeded"

-- errors.Is against a sentinel made by errors.New
def wraps (target : GoError) (err : GoError) : Bool :=
  err = target || match err with
    | text _ => false
    | jobs _ _ => false
    | tagged _ e => wraps target e
    | wrapped _ e => wraps target e
    | pair _ _ a b => wraps target a || wraps target b

-- errors.As walks the error tree in depth-first preorder
def tag? : GoError → Option Classification
  | text _ => none
  | jobs _ _ => none
  | tagged c _ => some c
  | wrapped _ err => err.tag?
  | pair _ _ a b => a.tag?.or b.tag?

end GoError

end Nimburion
