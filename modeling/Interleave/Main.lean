import Interleave.Cli.Run

set_option autoImplicit false

namespace Interleave.Main

open Cli

def errorCode : IO.Error → Option UInt32
  | .noFileOrDirectory _ code _ => some code
  | .inappropriateType _ code _ => some code
  | .permissionDenied _ code _ => some code
  | .invalidArgument _ code _ => some code
  | .resourceBusy code _ => some code
  | .otherError code _ => some code
  | _ => none

def problemOf (e : IO.Error) : FileProblem :=
  match (errorCode e).map fun code => if code < 0x80000000 then code else 0 - code with
  | some 2 => .missing
  | some 13 => .other "Permission denied (os error 13)"
  | some 20 => .notDirectory
  | some 21 => .isDirectory
  | some 36 => .nameTooLong
  | _ => .other (toString e)

def attempt {α : Type} (action : IO α) : IO (Except FileProblem α) := do
  match ← action.toBaseIO with
  | .ok a => return .ok a
  | .error e => return .error (problemOf e)

def leadingNumber (s : String) : Nat :=
  (Text.digits? (s.toList.takeWhile Char.isDigit)).getD 0

/-- Seconds since the start of 1970: when the system was started and how long it has been up. -/
def clock : IO Nat := do
  let started ← IO.FS.readFile "/proc/stat"
  let line := (started.splitOn "\n").find? (·.startsWith "btime ")
  let uptime ← IO.FS.readFile "/proc/uptime"
  return leadingNumber (((line.getD "").splitOn " ").getD 1 "") + leadingNumber uptime

def usedMemory : IO (Option Nat) := do
  match ← (IO.FS.readFile "/proc/self/statm").toBaseIO with
  | .ok line => return some (leadingNumber ((line.splitOn " ").getD 1 "") * 4096 / Nat.pow 2 20)
  | .error _ => return none

def printNotes (s : Search) : IO Search := do
  for n in s.journal.toList do
    IO.eprintln n.text
  return { s with journal := .empty s.journal.threshold }

/-- Lets a search take its turns. It is asked to stop when its time is over. -/
partial def drive (deadline : Option Nat) (s : Search) (frontier : Search.Frontier) :
    IO (Except SearchError Report) := do
  let now ← IO.monoMsNow
  let used ← if s.config.memoryBudget.isSome then usedMemory else pure none
  let s := { s with stop := s.stop || deadline.any (· ≤ now), probe := .always used }
  match s.perform (Search.turn frontier) with
  | (.error e, s) =>
    let _ ← printNotes { s with journal := s.journal.add (Check.abortNote e) }
    return .error e
  | (.ok (some frontier), s) => drive deadline (← printNotes s) frontier
  | (.ok none, s) =>
    let (outcome, s) := s.perform Search.finish
    let _ ← printNotes s
    return outcome

def check (p : Program) (c : Config) (options : Options) : IO CheckResult := do
  let deadline ← match options.timeout with
    | some timeout => do pure (some ((← IO.monoMsNow) + timeout))
    | none => pure none
  match Check.prepare p c (if options.verbose then .debug else .warn) with
  | .error result => return result
  | .ok search =>
    match search.perform Search.start with
    | (.error e, _) => return Check.conclude c (.error e)
    | (.ok frontier, search) =>
      return Check.conclude c (← drive deadline (← printNotes search) frontier)

def host : Host IO where
  read path := attempt (IO.FS.readBinFile path)
  write path bytes := attempt (IO.FS.writeBinFile path bytes)
  rename source target := attempt (IO.FS.rename source target)
  environment name := IO.getEnv name
  now := clock
  ticks := IO.monoMsNow
  check

end Interleave.Main

def main (args : List String) : IO UInt32 := do
  let reply ← Interleave.Cli.run Interleave.Main.host args
  (← IO.getStdout).putStr reply.stdout
  (← IO.getStderr).putStr reply.stderr
  return UInt32.ofNat reply.exitCode
