import ConstrainedOpt.Run.Monad

/-! # The iteration table

One row per accepted iterate; which columns it has depends on the algorithm and on the constraints.
-/
namespace ConstrainedOpt.Table
variable {F : Type} [Scalar F]

/-- A column: its title, and its content if there is one yet. -/
structure Column (F : Type) where
  title : String
  content : Option (Piece F)

/-- Columns of the trust-region method. -/
def trustRegion (s : State F) (equalities : Nat) : List (Column F) :=
  let stepped (p : Piece F) : Option (Piece F) := if 0 < s.iter then some p else none
  [⟨"delta", some (.realColumn s.delta)⟩,
    ⟨"ared/pred", stepped (.realColumn (s.ared / s.pred))⟩,
    ⟨"#Krylov", stepped (.countColumn s.krylovIter)⟩,
    ⟨"KryStop", stepped (.textColumn s.truncatedStop.shortText)⟩] ++
  (if 0 < equalities then [⟨"QNStop", stepped (.textColumn s.quasinormalStop.shortText)⟩] else []) ++
  [⟨"#Rej", stepped (.countColumn s.rejected)⟩]

/-- Columns of the line-search method. -/
def lineSearch (s : State F) (d : Direction) : List (Column F) :=
  let stepped (p : Piece F) : Option (Piece F) := if 0 < s.iter then some p else none
  [⟨"alpha", stepped (.realColumn s.alpha)⟩, ⟨"#LS", stepped (.countColumn s.lineSearchIter)⟩] ++
  (if d = .newtonCg then
    [⟨"#Krylov", stepped (.countColumn s.krylovIter)⟩,
      ⟨"KryStop", stepped (.textColumn s.truncatedStop.shortText)⟩]
  else []) ++
  [⟨"#Rej", stepped (.countColumn s.rejected)⟩]

def columns (k : Setup F) (s : State F) : List (Column F) :=
  [⟨"Iter", some (.countColumn s.iter)⟩, ⟨"f(x)", some (.realColumn s.f)⟩,
    ⟨"||grad||", some (.realColumn s.normGrad)⟩] ++
  (if 0 < k.equalities then [⟨"||g(x)||", some (.realColumn s.normG)⟩] else []) ++
  (if 0 < k.inequalities then [⟨"mu", some (.realColumn s.mu)⟩] else []) ++
  [⟨"||dx||", if 0 < s.iter then some (.realColumn s.normDx) else none⟩] ++
  (match k.par.algorithm with
    | .trustRegion => trustRegion s k.equalities
    | .lineSearch => lineSearch s k.par.direction
    | .userDefined => [])

omit [Scalar F] in
def header (cs : List (Column F)) : Message F := cs.map fun c => .textColumn c.title

omit [Scalar F] in
def row (cs : List (Column F)) : Message F := cs.map fun c => c.content.getD (.textColumn "")

def printHeader (k : Setup F) : Running F Unit := do
  if 1 ≤ k.par.msgLevel then
    Running.event (.note (.row (header (columns k (← Running.getState)))))

def printRow (k : Setup F) : Running F Unit := do
  if 1 ≤ k.par.msgLevel then
    Running.event (.note (.row (row (columns k (← Running.getState)))))

end ConstrainedOpt.Table
