import Interleave.Cli.Arguments
import Interleave.Config.Reader
import Interleave.Text.Basic

set_option autoImplicit false

namespace Interleave.Cli

inductive Format where
  | json
  | text
deriving DecidableEq

def Format.name : Format → String
  | json => "json"
  | text => "text"

structure Options where
  format : Format
  output : Option String
  timeout : Option Nat
  memory : Option Nat
  seed : Option UInt64
  verbose : Bool

structure Overrides where
  strategy : Option Strategy
  depthLimit : Option Nat
  preemptionLimit : Option Nat
  pathLimit : Option Nat
  minFreeMemory : Option Nat
  memory : Option Nat
  seed : Option UInt64
  reportAllErrors : Bool
  matchDepth : Bool
  symmetry : Option Symmetry
  serializer : Option SerializerKind
  withoutPc : Bool
  stateSet : Option TableKind
  fields : List String
  methods : List String

def Overrides.apply (o : Overrides) (c : Config) : Config where
  strategy := o.strategy.getD c.strategy
  depthLimit := o.depthLimit <|> c.depthLimit
  minFreeMemory := o.minFreeMemory.getD c.minFreeMemory
  memoryBudget := o.memory <|> c.memoryBudget
  matchDepth := c.matchDepth || o.matchDepth
  reportAllErrors := c.reportAllErrors || o.reportAllErrors
  preemptionLimit := o.preemptionLimit <|> c.preemptionLimit
  pathLimit := o.pathLimit.getD c.pathLimit
  seed := o.seed.getD c.seed
  symmetry := o.symmetry.getD c.symmetry
  serializer := o.serializer.getD c.serializer
  includePc := c.includePc && !o.withoutPc
  filteredFields := c.filteredFields ++ o.fields
  filteredMethods := c.filteredMethods ++ o.methods
  stateSet := o.stateSet.getD c.stateSet

inductive Task where
  | typecheck
  | check (settings : Option String) (overrides : Overrides)

structure Request where
  options : Options
  file : String
  task : Task

def word64? (s : String) : Option Nat := (Text.natural? s).filter (· < Nat.pow 2 64)

def word32? (s : String) : Option Nat :=
  (Text.integer? s).bind fun n => if 0 ≤ n ∧ n.toNat < Nat.pow 2 32 then some n.toNat else none

def formats : List (String × Format) := [("json", .json), ("text", .text)]

private def number (name : String) : OptionSpec := .valued name fun s => (word64? s).isSome

private def path (name : String) : OptionSpec := .valued name (· ≠ "")

private def oneOf {α : Type} (name : String) (names : List (String × α)) : OptionSpec :=
  .valued name fun s => names.any (·.1 = s)

private def list (name : String) : OptionSpec := ⟨name, none, some fun _ => true, true, none⟩

def helpSpec : OptionSpec := ⟨"help", some 'h', none, false, some .help⟩

def versionSpec : OptionSpec := ⟨"version", some 'V', none, false, some .version⟩

def commonSpecs : List OptionSpec := [
  oneOf "format" formats, path "output", number "timeout-ms", number "memory-mb", number "seed",
  { OptionSpec.flag "verbose" with short := some 'v' }, helpSpec]

def checkSpecs : List OptionSpec := [
  path "config", oneOf "strategy" Config.strategies, number "depth-limit",
  .valued "preemption-limit" fun s => (word32? s).isSome, number "path-limit",
  number "min-free-mb", .flag "report-all-errors", .flag "match-depth",
  oneOf "symmetry" Config.symmetries, oneOf "serializer" Config.serializers, .flag "no-pc",
  oneOf "state-set" Config.stateSets, list "filter-field", list "filter-method"]

private def numberOf (s : Scan) (name : String) : Option Nat := (s.value? name).bind word64?

private def choiceOf {α : Type} (s : Scan) (name : String) (names : List (String × α)) : Option α :=
  (s.value? name).bind fun value => names.lookup value

def optionsOf (before after : Scan) : Options :=
  let number name := numberOf after name <|> numberOf before name
  { format := (choiceOf after "format" formats <|> choiceOf before "format" formats).getD .json
    output := after.value? "output" <|> before.value? "output"
    timeout := number "timeout-ms"
    memory := number "memory-mb"
    seed := (number "seed").map UInt64.ofNat
    verbose := before.has "verbose" || after.has "verbose" }

def overridesOf (options : Options) (s : Scan) : Overrides where
  strategy := choiceOf s "strategy" Config.strategies
  depthLimit := numberOf s "depth-limit"
  preemptionLimit := (s.value? "preemption-limit").bind word32?
  pathLimit := numberOf s "path-limit"
  minFreeMemory := numberOf s "min-free-mb"
  memory := options.memory
  seed := options.seed
  reportAllErrors := s.has "report-all-errors"
  matchDepth := s.has "match-depth"
  symmetry := choiceOf s "symmetry" Config.symmetries
  serializer := choiceOf s "serializer" Config.serializers
  withoutPc := s.has "no-pc"
  stateSet := choiceOf s "state-set" Config.stateSets
  fields := s.values "filter-field"
  methods := s.values "filter-method"

def commandOf (before : Scan) (command : String) (args : List String) : Except Halt Request := do
  let isCheck := command = "check"
  let specs := if isCheck then commonSpecs ++ checkSpecs else commonSpecs
  let (after, _) ← Scan.empty.run specs [] args
  let options := optionsOf before after
  match after.plain with
  | [file] =>
    if file = "" then .error .usage
    else return ⟨options, file,
      if isCheck then .check (after.value? "config") (overridesOf options after) else .typecheck⟩
  | _ => .error .usage

def Request.ofArgs (args : List String) : Except Halt Request := do
  match ← Scan.empty.run (versionSpec :: commonSpecs) ["typecheck", "check"] args with
  | (before, some (command, rest)) => commandOf before command rest
  | (before, none) => .error (if before.given.isEmpty then .nothing else .usage)

end Interleave.Cli
