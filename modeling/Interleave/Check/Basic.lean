import Interleave.Report.Result
import Interleave.Search.Run

set_option autoImplicit false

namespace Interleave

inductive Command where
  | typecheck
  | check
deriving DecidableEq

def Command.text : Command → String
  | typecheck => "typecheck"
  | check => "check"

namespace Check

/-- The search of a check, or the result when there can be none. What happens is noted when the
journal keeps notes of that level. -/
def prepare (p : Program) (c : Config) (threshold : Level) : Except CheckResult Search := do
  let name := Command.check.text
  let x ← (Explorer.start p c).mapError fun e => .failed name .invalidInput e.message
  let search ← (Search.new x c).mapError fun e => .failed name .invalidInput e.message
  return { search with
    properties := Property.defaults
    listeners := if threshold = .trace then [⟨0, .logging⟩] else []
    journal := .empty threshold }

def conclude (c : Config) (outcome : Except SearchError Report) : CheckResult :=
  let name := Command.check.text
  let strategy := some c.strategy.text
  match outcome with
  | .ok report => { report.result name with strategy }
  | .error e => { CheckResult.failed name .internalError e.message with strategy }

def abortNote (e : SearchError) : Note := ⟨.warn, "check", "search aborted", [("error", e.message)]⟩

def run (fuel : Nat) (search : Search) : Option (CheckResult × Journal) :=
  match search.perform (Search.run fuel) with
  | (.ok none, _) => none
  | (.ok (some report), search) => some (conclude search.config (.ok report), search.journal)
  | (.error e, search) =>
    some (conclude search.config (.error e), search.journal.add (abortNote e))

end Check

/-- Carries out a command. Nothing results when a search takes more than `fuel` turns; `stop` asks
it to stop before its first one. -/
def Program.check (p : Program) (command : Command) (c : Config) (stop : Bool) (threshold : Level)
    (fuel : Nat) : Option (CheckResult × Journal) :=
  match command with
  | .typecheck => some (.plain command.text .pass none, .empty threshold)
  | .check =>
    match Check.prepare p c threshold with
    | .error result => some (result, .empty threshold)
    | .ok search => Check.run fuel { search with stop }

end Interleave
