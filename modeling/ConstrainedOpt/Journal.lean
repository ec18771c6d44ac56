import ConstrainedOpt.Scalar
import ConstrainedOpt.Scalar.Dyadic
import ConstrainedOpt.Decimal.Shortest
import ConstrainedOpt.Text.Blank
import ConstrainedOpt.Text.Column
import ConstrainedOpt.Failure

/-! # Journal

What a computation tells while it runs: log records by level, lines of the iteration table, and the
failures it ends with. Messages keep their numbers; they become text only when they are read.
-/
namespace ConstrainedOpt

inductive Level where
  | error
  | warn
  | info
  | debug
  | trace
deriving DecidableEq, Repr

namespace Level

/-- Errors come first, traces last. -/
def rank : Level → Nat
  | error => 0
  | warn => 1
  | info => 2
  | debug => 3
  | trace => 4

def text : Level → String
  | error => "ERROR"
  | warn => "WARN"
  | info => "INFO"
  | debug => "DEBUG"
  | trace => "TRACE"

end Level

/-- A part of a message. -/
inductive Piece (F : Type) where
  | text (s : String)
  | count (n : Nat)
  /-- In scientific notation. -/
  | scientific (places : Nat) (x : F)
  | shortest (x : F)
  /-- As a table column shows it, without the padding. -/
  | real (x : F)
  | realColumn (x : F)
  | countColumn (n : Nat)
  | textColumn (s : String)

abbrev Message (F : Type) := List (Piece F)

instance {F : Type} : Coe String (Piece F) := ⟨.text⟩

instance {F : Type} : Coe Nat (Piece F) := ⟨.count⟩

namespace Piece
variable {F : Type}

/-- A pair of sizes, as `(2, 3)`. -/
def size (rows cols : Nat) : Piece F :=
  .text ("(" ++ Text.natural rows ++ ", " ++ Text.natural cols ++ ")")

/-- A pair of sizes that may be absent. -/
def size? : Option (Nat × Nat) → Piece F
  | some (rows, cols) => .text ("Some((" ++ Text.natural rows ++ ", " ++ Text.natural cols ++ "))")
  | none => .text "None"

variable [Textual F]

def render : Piece F → String
  | text s => s
  | count n => Text.natural n
  | scientific places x => Decimal.scientific places (Textual.dyadic x)
  | shortest x => Decimal.shortest (Textual.dyadic x)
  | real x => Text.real (Textual.dyadic x)
  | realColumn x => Text.column (Text.real (Textual.dyadic x))
  | countColumn n => Text.column (Text.natural n)
  | textColumn s => Text.column s

end Piece

def Message.render {F : Type} [Textual F] (m : Message F) : String :=
  String.join (m.map Piece.render)

/-- An entry of the journal. -/
inductive Note (F : Type) where
  | record (level : Level) (message : Message F)
  /-- A line for the user. -/
  | line (message : Message F)
  /-- A table row for the user, without the blanks at its end. -/
  | row (message : Message F)
  | failure (f : Failure)

namespace Note
variable {F : Type} [Textual F]

/-- The text of a record up to a level of detail. -/
def logText? (limit : Level) : Note F → Option String
  | record level m => if level.rank ≤ limit.rank then some (level.text ++ " " ++ m.render) else none
  | _ => none

def lineText? : Note F → Option String
  | line m => some m.render
  | row m => some (Text.trimEnd m.render)
  | _ => none

end Note

/-- Why a computation cannot go on with the vectors it was given. -/
inductive Panic where
  | lengthMismatch
  | outOfRange
deriving DecidableEq, Repr

/-- A computation that may meet vectors of unsuitable lengths. -/
abbrev Checked (α : Type) := Except Panic α

/-- A checked computation that also keeps a journal. -/
abbrev Journaled (F α : Type) := ExceptT Panic (StateM (Array (Note F))) α

namespace Journaled
variable {F : Type}

def note (n : Note F) : Journaled F Unit := modify (·.push n)

def log (level : Level) (message : Message F) : Journaled F Unit := note (.record level message)

def line (message : Message F) : Journaled F Unit := note (.line message)

def row (message : Message F) : Journaled F Unit := note (.row message)

end Journaled

end ConstrainedOpt
