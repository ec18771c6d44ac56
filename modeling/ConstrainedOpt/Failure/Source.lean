import ConstrainedOpt.Failure

/-! # Errors and their sources

An error has a message, and may have another error as its source. To capture one as a failure, the messages are
collected along the sources, and the layers are put together from the last message to the first. A failure is such an
error itself; an unknown cause is no source.
-/
namespace ConstrainedOpt

inductive SourcedError where
  | root (message : String)
  | arising (message : String) (source : SourcedError)
deriving DecidableEq, Repr

namespace SourcedError

def message : SourcedError → String
  | root m | arising m _ => m

def source? : SourcedError → Option SourcedError
  | root _ => none
  | arising _ source => some source

/-- The error and those behind it. -/
def chain : SourcedError → List SourcedError
  | root m => [root m]
  | arising m source => arising m source :: chain source

/-- The messages along the sources, after those collected before. -/
def collect : SourcedError → List String → List String
  | root m, collected => collected ++ [m]
  | arising m source, collected => collect source (collected ++ [m])

end SourcedError

namespace Failure

/-- Puts a layer around what there is. -/
def enclose (inner : Option Failure) (m : String) : Option Failure :=
  match inner with
  | none => some (plain m)
  | some f => some ((plain m).withCause f)

/-- The failure with layers of the given messages, outermost first. -/
def assemble (ms : List String) : Failure := (ms.reverse.foldl enclose none).getD (plain "")

/-- Captures an error with all its sources. -/
def ofError (e : SourcedError) : Failure := assemble (e.collect [])

/-- A failure as an error. -/
def asError : Failure → SourcedError
  | plain m | unexplained m => .root m
  | caused m inner => .arising m inner.asError

theorem message_asError (f : Failure) : f.asError.message = f.message := by
  cases f with
  | plain m => rfl
  | unexplained m => rfl
  | caused m inner => rfl

theorem source_asError (f : Failure) : f.asError.source? = f.source?.map asError := by
  cases f with
  | plain m => rfl
  | unexplained m => rfl
  | caused m inner => rfl

end Failure

end ConstrainedOpt
