import Interleave.Choice.Interval
import Interleave.Choice.Listed
import Interleave.Store.Value

set_option autoImplicit false

namespace Interleave

inductive Choice where
  | thread (t : ThreadId)
  | int (value : Int64)
deriving DecidableEq

def Choice.text : Choice → String
  | thread t => "thread " ++ threadText t
  | int value => toString value.toInt

inductive ChoicePoint where
  | thread (g : Listed ThreadId)
  | int (g : Interval)

namespace ChoicePoint

def id : ChoicePoint → String
  | thread g => g.id
  | int g => g.id

def progress : ChoicePoint → Progress
  | thread g => g.progress
  | int g => g.progress

def total : ChoicePoint → Nat
  | thread g => g.total
  | int g => g.total

def hasMore : ChoicePoint → Bool
  | thread g => g.hasMore
  | int g => g.hasMore

def isDone : ChoicePoint → Bool
  | thread g => g.isDone
  | int g => g.isDone

def current? : ChoicePoint → Option Choice
  | thread g => g.current?.map .thread
  | int g => g.current?.map .int

def advance? : ChoicePoint → Option ChoicePoint
  | thread g => g.advance?.map thread
  | int g => g.advance?.map int

def close : ChoicePoint → ChoicePoint
  | thread g => thread g.close
  | int g => int g.close

def reset : ChoicePoint → ChoicePoint
  | thread g => thread g.reset
  | int g => int g.reset

def setCascaded (p : ChoicePoint) (cascaded : Bool) : ChoicePoint :=
  match p with
  | thread g => thread (g.setCascaded cascaded)
  | int g => int (g.setCascaded cascaded)

def randomize (p : ChoicePoint) (s : Random.Source) : ChoicePoint × Random.Source :=
  match p with
  | thread g =>
    let (g, s) := g.randomize s
    (thread g, s)
  | int g =>
    let (g, s) := g.randomize s
    (int g, s)

def candidates? : ChoicePoint → Option (List ThreadId)
  | thread g => some g.items
  | int _ => none

end ChoicePoint

def exhaustedText (id : String) : String :=
  "choice generator " ++ id ++ " advanced past its last choice"

end Interleave
