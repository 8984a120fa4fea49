import Interleave.Search.Session

set_option autoImplicit false

/-! A property is checked after every step. It holds, or it is violated, or it cannot be evaluated at
all. A check may write what it found into the memory of the property, from which the message of a
violation is read. -/

namespace Interleave

inductive PropertyError where
  | explore (e : ExploreError)
  | other (message : String)
deriving DecidableEq

def PropertyError.message : PropertyError → String
  | explore e => e.message
  | other message => message

/-- What a check found, and what the property has in mind from then on. -/
structure Finding where
  violated : Bool
  remembered : Option String

/-- A check that finds nothing leaves the memory as it is, and the property holds. -/
structure Property where
  name : String
  check : Session → Explorer → Except PropertyError (Option Finding)

namespace Property

def ofTest (name : String) (holds : Session → Explorer → Bool) : Property where
  name
  check session x := .ok (if holds session x then none else some ⟨true, none⟩)

def noUncaughtFault : Property where
  name := "no_uncaught_exceptions"
  check _ x := .ok (x.fault.map fun f =>
    ⟨true, some ("uncaught " ++ f.kind ++ " in thread " ++ f.thread ++ ": " ++ f.message)⟩)

def notDeadlocked : Property where
  name := "not_deadlocked"
  check _ x := .ok (if x.isDeadlocked then
      some ⟨true, some "deadlock: live threads remain but none can run"⟩
    else none)

def endInvariant : Property where
  name := "end_state_invariant"
  check _ x :=
    if x.isEnd && !x.isDeadlocked then
      match x.violated with
      | .ok place => .ok (some ⟨place.isSome, place.map fun place =>
          "invariant at " ++ place ++ " does not hold in end state"⟩)
      | .error e => .error (.explore e)
    else .ok none

def defaults : List Property := [noUncaughtFault, notDeadlocked, endInvariant]

end Property

end Interleave
