import Interleave.Report.Basic

set_option autoImplicit false

namespace Interleave

inductive Status where
  | pass
  | fail
  | inconclusive
  | unsupported
  | timeout
  | outOfMemory
  | error
deriving DecidableEq

def Status.text : Status → String
  | pass => "pass"
  | fail => "fail"
  | inconclusive => "inconclusive"
  | unsupported => "unsupported"
  | timeout => "timeout"
  | outOfMemory => "out_of_memory"
  | error => "error"

inductive ReasonKind where
  | unsupportedSyntax
  | invalidInput
  | internalError
  | searchConstraint
  | timeout
  | outOfMemory
deriving DecidableEq

def ReasonKind.text : ReasonKind → String
  | unsupportedSyntax => "unsupported_syntax"
  | invalidInput => "invalid_input"
  | internalError => "internal_error"
  | searchConstraint => "search_constraint"
  | timeout => "timeout"
  | outOfMemory => "out_of_memory"

structure Reason where
  kind : ReasonKind
  message : Option String
deriving DecidableEq

structure ErrorSummary where
  property : String
  message : String
  depth : Nat
deriving DecidableEq

structure CheckResult where
  name : String
  strategy : Option String
  status : Status
  reason : Option Reason
  counterexample : Option Counterexample
  errors : List ErrorSummary
  stats : Option Stats
deriving DecidableEq

namespace CheckResult

def plain (name : String) (status : Status) (reason : Option Reason) : CheckResult where
  name
  strategy := none
  status
  reason
  counterexample := none
  errors := []
  stats := some .empty

def failed (name : String) (kind : ReasonKind) (message : String) : CheckResult :=
  plain name .error (some ⟨kind, some message⟩)

end CheckResult

namespace Report

def constraintText (r : Report) : String := "; ".intercalate (r.constraints.map (·.text))

def memoryLimit? (r : Report) : Option (Nat × Nat) :=
  r.constraints.findSome? fun
    | .memory used budget => some (used, budget)
    | _ => none

/-- A violation decides before a stop, a stop before exhausted memory, and that before other
limits. -/
def verdict (r : Report) : Status × Option Reason :=
  if !r.errors.isEmpty then (.fail, none)
  else if r.terminated then
    (.timeout, some ⟨.timeout, some "search terminated before completion"⟩)
  else
    match r.memoryLimit? with
    | some (used, budget) =>
      (.outOfMemory, some ⟨.outOfMemory,
        some ("used " ++ toString used ++ " MB of " ++ toString budget ++ " MB budget")⟩)
    | none =>
      if r.constraints.isEmpty then (.pass, none)
      else (.inconclusive, some ⟨.searchConstraint, some r.constraintText⟩)

def counterexample? (r : Report) : Option Counterexample :=
  match r.errors with
  | [] => none
  | first :: rest => some (rest.foldl (fun c e => c.addTag e.property) first.counterexample)

def result (r : Report) (name : String) : CheckResult where
  name
  strategy := none
  status := r.verdict.1
  reason := r.verdict.2
  counterexample := r.counterexample?
  errors := r.errors.map fun e => ⟨e.property, e.message, e.depth⟩
  stats := some r.stats

end Report

end Interleave
