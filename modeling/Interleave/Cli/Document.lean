import Interleave.Cli.Request
import Interleave.Config.Document
import Interleave.Report.Document
import Interleave.Text.Date

set_option autoImplicit false

namespace Interleave

def Status.exitCode : Status → Nat
  | pass => 0
  | fail => 1
  | error => 2
  | unsupported => 3
  | timeout => 4
  | outOfMemory => 5
  | inconclusive => 6

namespace Cli

structure InputFile where
  path : String
  digest : String

structure Outcome where
  request : Request
  config : Option Config
  input : InputFile
  result : CheckResult
  revision : String
  startedAt : Nat
  finishedAt : Nat
  duration : Nat

namespace Outcome

def exitCode (o : Outcome) : Nat := o.result.status.exitCode

def invocation (o : Outcome) : Json := .obj ([
  ("command", .str o.result.name),
  ("args", .arr [.str o.request.file]),
  ("format", .str o.request.options.format.name),
  ("timeout_ms", .ofOption .nat o.request.options.timeout),
  ("memory_mb", .ofOption .nat o.request.options.memory),
  ("seed", .nat (o.request.options.seed.getD 0).toNat)]
  ++ Json.member? "config" Config.json o.config)

def json (o : Outcome) : Json := .obj [
  ("schema_version", .str "0.1"),
  ("tool", .obj [
    ("name", .str "statex"), ("version", .str "0.1.0"), ("git_sha", .str o.revision)]),
  ("invocation", o.invocation),
  ("inputs", .arr [.obj [("path", .str o.input.path), ("sha256", .str o.input.digest)]]),
  ("status", .str o.result.status.text),
  ("exit_code", .nat o.exitCode),
  ("started_at", .str (Text.timeText o.startedAt)),
  ("finished_at", .str (Text.timeText o.finishedAt)),
  ("duration_ms", .nat o.duration),
  ("checks", .arr [o.result.json])]

def summary (o : Outcome) : String :=
  let counts := do
    let stats ← o.result.stats
    return " states=" ++ toString (← stats.states) ++ " transitions="
      ++ toString (← stats.transitions)
  let property := o.result.errors.head?.map fun e => " property=" ++ e.property
  "status=" ++ o.result.status.text ++ " exit_code=" ++ toString o.exitCode
    ++ counts.getD "" ++ property.getD ""

def text (o : Outcome) : String :=
  match o.request.options.format with
  | .json => o.json.pretty
  | .text => o.summary

end Outcome

end Cli

end Interleave
