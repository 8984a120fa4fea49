import Interleave.Search.Session

set_option autoImplicit false

namespace Interleave

inductive Level where
  | trace
  | debug
  | info
  | warn
  | error
deriving DecidableEq

namespace Level

def rank : Level → Nat
  | trace => 0
  | debug => 1
  | info => 2
  | warn => 3
  | error => 4

def text : Level → String
  | trace => "TRACE"
  | debug => "DEBUG"
  | info => "INFO"
  | warn => "WARN"
  | error => "ERROR"

end Level

structure Note where
  level : Level
  origin : String
  message : String
  values : List (String × String)
deriving DecidableEq

def Note.text (n : Note) : String :=
  n.values.foldl (fun line (key, value) => line ++ " " ++ key ++ "=" ++ value)
    (n.level.text ++ " " ++ n.origin ++ ": " ++ n.message)

structure Journal where
  threshold : Level
  notes : List Note

namespace Journal

def empty (threshold : Level) : Journal := ⟨threshold, []⟩

def keeps (j : Journal) (level : Level) : Bool := j.threshold.rank ≤ level.rank

def add (j : Journal) (n : Note) : Journal :=
  if j.keeps n.level then { j with notes := n :: j.notes } else j

def toList (j : Journal) : List Note := j.notes.reverse

end Journal

def flagText (b : Bool) : String := if b then "true" else "false"

def decisionText : Option Choice → String
  | none => "None"
  | some (.thread t) => "Some(Thread(ThreadId(" ++ toString t ++ ")))"
  | some (.int value) => "Some(Int(" ++ toString value.toInt ++ "))"

end Interleave
