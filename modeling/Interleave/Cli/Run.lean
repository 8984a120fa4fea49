import Interleave.Check.Basic
import Interleave.Cli.Document
import Interleave.Cli.FileTree
import Interleave.Program.Resolve

set_option autoImplicit false

namespace Interleave.Cli

structure Host (m : Type → Type) where
  read : String → m (Except FileProblem ByteArray)
  write : String → ByteArray → m (Except FileProblem Unit)
  rename : String → String → m (Except FileProblem Unit)
  environment : String → m (Option String)
  now : m Nat
  ticks : m Nat
  /-- Checks a program, at most for the given number of milliseconds. -/
  check : Program → Config → Options → m CheckResult

structure Reply where
  exitCode : Nat
  stdout : String
  stderr : String

structure ToolError where
  doing : String
  cause : String

def ToolError.reply (e : ToolError) : Reply :=
  ⟨2, "", "tool error: " ++ e.doing ++ ": " ++ e.cause ++ "\n"⟩

def textOf (bytes : ByteArray) : Except FileProblem String :=
  match String.fromUTF8? bytes with
  | some text => .ok text
  | none => .error .notText

def compile (name path : String) (content : Except FileProblem ByteArray) :
    Except CheckResult Program := do
  let source ← (content.bind textOf).mapError fun e =>
    .failed name .invalidInput (path ++ ": " ++ e.message)
  (Program.ofSource source path).mapError fun e =>
    let text := e.text path
    if e.reason.isUnsupported then
      .plain name .unsupported (some ⟨.unsupportedSyntax, some text⟩)
    else .failed name .invalidInput text

def inputFile (path : String) : Except FileProblem ByteArray → InputFile
  | .ok bytes => ⟨path, Text.hexBytes (Sha256.digest bytes)⟩
  | .error _ => ⟨path, "UNKNOWN"⟩

section

variable {m : Type → Type} [Monad m]

def settings (host : Host m) (file : Option String) (overrides : Overrides) :
    m (Except ToolError Config) := do
  match file with
  | none => return .ok (overrides.apply .default)
  | some path =>
    match (← host.read path).bind textOf with
    | .error e => return .error ⟨"read config " ++ path, e.message⟩
    | .ok text =>
      match Config.ofText text with
      | .error flaw => return .error ⟨"parse config " ++ path, flaw.text ++ " error"⟩
      | .ok c => return .ok (overrides.apply c)

def resultOf (host : Host m) (r : Request) (content : Except FileProblem ByteArray) :
    m (Except ToolError (Option Config × CheckResult)) := do
  match r.task with
  | .typecheck =>
    let name := Command.typecheck.text
    match compile name r.file content with
    | .error result => return .ok (none, result)
    | .ok _ => return .ok (none, .plain name .pass none)
  | .check file overrides =>
    match ← settings host file overrides with
    | .error e => return .error e
    | .ok c =>
      match compile Command.check.text r.file content with
      | .error result => return .ok (some c, result)
      | .ok p => return .ok (some c, ← host.check p c r.options)

/-- Writes a file under another name first, so that it is there as a whole or not at all. -/
def writeWhole (host : Host m) (path text : String) : m (Except ToolError Unit) := do
  let temporary := withExtension path "tmp"
  match ← host.write temporary text.toUTF8 with
  | .error e => return .error ⟨"write " ++ temporary, e.message⟩
  | .ok _ =>
    match ← host.rename temporary path with
    | .error e => return .error ⟨"rename " ++ path, e.message⟩
    | .ok _ => return .ok ()

def publish (host : Host m) (o : Outcome) : m Reply := do
  match o.request.options.output with
  | none => return ⟨o.exitCode, o.text ++ "\n", ""⟩
  | some path =>
    match ← writeWhole host path o.text with
    | .error e => return e.reply
    | .ok _ => return ⟨o.exitCode, "", ""⟩

def carryOut (host : Host m) (request : Request) : m Reply := do
  let startedAt ← host.now
  let start ← host.ticks
  let content ← host.read request.file
  match ← resultOf host request content with
  | .error e => return e.reply
  | .ok (config, result) =>
    publish host {
      request
      config
      input := inputFile request.file content
      result
      revision := (← host.environment "STATEX_GIT_SHA").getD "UNKNOWN"
      startedAt
      finishedAt := ← host.now
      duration := (← host.ticks) - start }

end

def usageText : String :=
  "Usage: statex [OPTIONS] <COMMAND>\n\nCommands:\n  typecheck  <FILE>\n  check      [OPTIONS] <FILE>\n"

def Halt.reply : Halt → Reply
  | usage => ⟨2, "", "error: unexpected or missing argument\n\n" ++ usageText⟩
  | help => ⟨0, usageText, ""⟩
  | version => ⟨0, "statex 0.1.0\n", ""⟩
  | nothing => ⟨2, "", usageText⟩

def run {m : Type → Type} [Monad m] (host : Host m) (args : List String) : m Reply :=
  match Request.ofArgs args with
  | .error halt => return halt.reply
  | .ok request => carryOut host request

/-- Works on a tree of files with the given environment; no time passes, and a search goes on for
at most `fuel` turns. -/
def Host.pure (environment : List (String × String)) (fuel : Nat) : Host (StateM FileTree) where
  read path := do return (← get).read path
  write path bytes := do
    match (← get).write path bytes with
    | .error e => return .error e
    | .ok t =>
      set t
      return .ok ()
  rename source target := do
    match (← get).rename source target with
    | .error e => return .error e
    | .ok t =>
      set t
      return .ok ()
  environment name := return environment.lookup name
  now := return 0
  ticks := return 0
  check p c _ :=
    match p.check .check c false .error fuel with
    | some (result, _) => return result
    | none => return .failed Command.check.text .internalError "the search does not end"

end Interleave.Cli
