/-! # Failures

A failure is a message with an optional cause, which may be a failure again; its trace has one line
per layer, outermost first. A cause that cannot be inspected is one more line.
-/
namespace ConstrainedOpt

inductive Failure where
  | plain (message : String)
  /-- The cause is known to exist and nothing more. -/
  | unexplained (message : String)
  | caused (message : String) (inner : Failure)
deriving DecidableEq, Repr

namespace Failure

def message : Failure → String
  | plain m | unexplained m | caused m _ => m

/-- Replaces the cause. -/
def withCause (f inner : Failure) : Failure := caused f.message inner

def withUnknownCause (f : Failure) : Failure := unexplained f.message

/-- Wraps a failure as the cause of a new one. -/
def context (f : Failure) (m : String) : Failure := caused m f

/-- The failure behind this one. -/
def source? : Failure → Option Failure
  | caused _ inner => some inner
  | _ => none

/-- The messages of the layers, outermost first. -/
def messages : Failure → List String
  | plain m | unexplained m => [m]
  | caused m inner => m :: messages inner

/-- Number of layers, an unknown cause not counted. -/
def depth : Failure → Nat
  | plain _ | unexplained _ => 1
  | caused _ inner => depth inner + 1

/-- The failure whose layers have the given messages, outermost first. -/
def ofMessages : List String → Failure
  | [] => plain ""
  | [m] => plain m
  | m :: rest => caused m (ofMessages rest)

/-- Captures a failure through the messages of its layers, which forgets an unknown cause. -/
def capture (f : Failure) : Failure := ofMessages f.messages

def unknownCause : String := "Unknown exception"

/-- The texts of a trace in the order they are written, each message followed by its line end. -/
def pieces : Failure → List String
  | plain m => [m, "\n"]
  | unexplained m => [m, "\n", unknownCause, "\n"]
  | caused m inner => m :: "\n" :: pieces inner

def trace (f : Failure) : String := String.join f.pieces

/-- Writes to a writer that takes `room` characters and fails at the next one: what it took, and
whether everything was written. -/
def writePieces (room : Nat) : List String → List Char × Bool
  | [] => ([], true)
  | p :: rest =>
      if p.length ≤ room then
        let (text, ok) := writePieces (room - p.length) rest
        (p.toList ++ text, ok)
      else (p.toList.take room, false)

def writeTo (room : Nat) (f : Failure) : String × Bool :=
  let (text, ok) := writePieces room f.pieces
  (String.ofList text, ok)

end Failure

end ConstrainedOpt
