import ConstrainedOpt.Journal

/-! # Messaging

Where the lines for the user and the failures go: to the two output streams of a process, which a failure
ends, or into the log.
-/
namespace ConstrainedOpt.Messaging

/-- The lines of a text, without their line ends. A carriage return before a line end belongs to it. -/
def splitLines : List Char → List (List Char)
  | [] => []
  | '\n' :: rest => [] :: splitLines rest
  | '\r' :: '\n' :: rest => [] :: splitLines rest
  | c :: rest =>
      match splitLines rest with
      | [] => [[c]]
      | line :: lines => (c :: line) :: lines

def lines (s : String) : List String := (splitLines s.toList).map String.ofList

/-- A note with what is meant for the user put into the log, failures line by line. -/
def toLog {F : Type} : Note F → List (Note F)
  | .line m | .row m => [.record .info m]
  | .failure f => (lines f.trace).map fun s => .record .error [.text s]
  | n => [n]

/-- What a process leaves behind. -/
structure Output where
  out : String
  err : String
  exitCode : Nat
deriving DecidableEq, Repr

/-- Lines go to the output, and the first failure to the error stream, where it ends the process. -/
def console {F : Type} [Textual F] : List (Note F) → Output
  | [] => ⟨"", "", 0⟩
  | .failure f :: _ => ⟨"", f.trace, 1⟩
  | n :: rest =>
      let o := console rest
      match n.lineText? with
      | some s => { o with out := s ++ "\n" ++ o.out }
      | none => o

end ConstrainedOpt.Messaging
