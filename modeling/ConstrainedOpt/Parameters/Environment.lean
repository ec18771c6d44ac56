import ConstrainedOpt.Parameters
import ConstrainedOpt.Decimal.Reader

/-! # Parameters from the environment

Each environment variable overrides one parameter. A value is trimmed before it is read; one that cannot
be read is logged and leaves its parameter alone.
-/
namespace ConstrainedOpt.Environment

/-- The text of a variable, if it is set. -/
abbrev Variables := String → Option String

variable {F : Type}

/-- Reads one variable, and logs what came of it. -/
def read (env : Variables) (name : String) {α : Type} (parse : String → Option α) (piece : α → Piece F)
    (old : α) : Journaled F α := do
  match env name with
  | none => return old
  | some text =>
      match parse (Text.trim text) with
      | some a =>
          Journaled.log .info [name, ": ", piece a]
          return a
      | none =>
          Journaled.log .warn [name, ": \"", text, "\" ignored"]
          return old

/-- Natural numbers fit into 64 bits. -/
def natural (env : Variables) (name : String) (old : Nat) : Journaled F Nat :=
  read env name (Decimal.readNat? UInt64.size) .count old

def readBoolean? (text : String) : Option Bool :=
  if text = "true" then some true else if text = "false" then some false else none

def boolean (env : Variables) (name : String) (old : Bool) : Journaled F Bool :=
  read env name readBoolean? (fun b => .text (if b then "true" else "false")) old

def choice {α : Type} [Registry α] (env : Variables) (name : String) (old : α) : Journaled F α :=
  read env name (fun s => (Registry.parse s).toOption) (fun a => .text (Registry.text a)) old

variable [Scalar F] [Textual F]

def readReal? (text : String) : Option F :=
  (Decimal.readNumeral? text).map fun
    | .nan => Scalar.nan
    | .infinite negative => if negative then -Scalar.infinity else Scalar.infinity
    | .finite negative mantissa exponent =>
        let x : F := Textual.ofDecimal mantissa exponent
        if negative then -x else x

def real (env : Variables) (name : String) (old : F) : Journaled F F :=
  read env name readReal? .shortest old

end ConstrainedOpt.Environment

namespace ConstrainedOpt
open Environment

/-- The parameters with every variable of the environment applied. -/
def Parameters.override {F : Type} [Scalar F] [Textual F] (p : Parameters F) (env : Variables) :
    Journaled F (Parameters F) := do
  let algorithm ← choice env "COMPSTEP_ALGORITHM_CLASS" p.algorithm
  let iterMax ← natural env "COMPSTEP_ITER_MAX" p.iterMax
  let epsGrad ← real env "COMPSTEP_EPS_GRAD" p.epsGrad
  let epsDx ← real env "COMPSTEP_EPS_DX" p.epsDx
  let epsConstr ← real env "COMPSTEP_EPS_CONSTR" p.epsConstr
  let toleranceKind ← choice env "COMPSTEP_TOLERANCE_KIND" p.toleranceKind
  let delta ← real env "COMPSTEP_DELTA" p.delta
  let deltaMax ← real env "COMPSTEP_DELTA_MAX" p.deltaMax
  let eta1 ← real env "COMPSTEP_ETA1" p.eta1
  let eta2 ← real env "COMPSTEP_ETA2" p.eta2
  let rejectedMax ← natural env "COMPSTEP_REJECTED_MAX" p.rejectedMax
  let hessian ← choice env "COMPSTEP_H_TYPE" p.hessian
  let preconditioner ← choice env "COMPSTEP_PRECOND" p.preconditioner
  let storedHistory ← natural env "COMPSTEP_STORED_HISTORY" p.storedHistory
  let direction ← choice env "COMPSTEP_DIR" p.direction
  let lengthRule ← choice env "COMPSTEP_KIND" p.lengthRule
  let lineSearchIterMax ← natural env "COMPSTEP_LINESEARCH_ITER_MAX" p.lineSearchIterMax
  let c1 ← real env "COMPSTEP_C1" p.c1
  let gamma ← real env "COMPSTEP_GAMMA" p.gamma
  let mu ← real env "COMPSTEP_MU" p.mu
  let muReduce ← real env "COMPSTEP_MU_REDUCE" p.muReduce
  let epsMuGrad ← real env "COMPSTEP_EPS_MU_GRAD" p.epsMuGrad
  let epsMu ← real env "COMPSTEP_EPS_MU" p.epsMu
  let rho ← real env "COMPSTEP_RHO" p.rho
  let functionChecks ← choice env "COMPSTEP_F_DIAG" p.functionChecks
  let spaceChecks ← choice env "COMPSTEP_X_DIAG" p.spaceChecks
  let checkSchedule ← choice env "COMPSTEP_DSCHEME" p.checkSchedule
  let msgLevel ← natural env "COMPSTEP_MSG_LEVEL" p.msgLevel
  let krylovIterMax ← natural env "COMPSTEP_KRYLOV_ITER_MAX" p.truncated.iterMax
  let epsKrylov ← real env "COMPSTEP_EPS_KRYLOV" p.truncated.eps
  let orthogMax ← natural env "COMPSTEP_KRYLOV_ORTHOG_MAX" p.truncated.orthogMax
  let zeta ← real env "COMPSTEP_ZETA" p.quasinormal.zeta
  let newton ← boolean env "COMPSTEP_QN_NEWTON" p.quasinormal.newton
  return { algorithm, iterMax, epsGrad, epsDx, epsConstr, toleranceKind, delta, deltaMax, eta1, eta2,
           rejectedMax, hessian, preconditioner, storedHistory, direction, lengthRule,
           lineSearchIterMax, c1, gamma, mu, muReduce, epsMuGrad, epsMu, rho, functionChecks,
           spaceChecks, checkSchedule, msgLevel,
           truncated := { p.truncated with iterMax := krylovIterMax, eps := epsKrylov, orthogMax }
           quasinormal := { p.quasinormal with zeta, newton }
           normalEq := p.normalEq }

end ConstrainedOpt
