import Interleave.Search.Session

set_option autoImplicit false

namespace Interleave

structure Report where
  errors : List Violation
  stats : Stats
  constraints : List Constraint
  terminated : Bool
deriving DecidableEq

namespace Report

def ofSession (s : Session) : Report := ⟨s.errors, s.stats, s.constraints, s.terminated⟩

def isPass (r : Report) : Bool := r.errors.isEmpty && r.constraints.isEmpty && !r.terminated

end Report

structure TraceEvent where
  label : String
  thread : Option String
  choice : Option String
deriving DecidableEq

structure Counterexample where
  events : List TraceEvent
  tags : List String
  places : List Place
deriving DecidableEq

def Violation.counterexample (v : Violation) : Counterexample where
  events := v.path.map fun t =>
    ⟨t.label, some t.threadName, t.choice.map fun value => toString value.toInt⟩
  tags := [v.property]
  places := v.path.filterMap (·.place)

def Counterexample.addTag (c : Counterexample) (tag : String) : Counterexample :=
  if tag ∈ c.tags then c else { c with tags := c.tags ++ [tag] }

end Interleave
