set_option autoImplicit false

namespace Interleave.Cli

inductive Halt where
  | usage
  | help
  | version
  /-- There is no command and no option. -/
  | nothing
deriving DecidableEq

structure OptionSpec where
  name : String
  short : Option Char
  accepts : Option (String → Bool)
  repeatable : Bool
  halt : Option Halt

def OptionSpec.flag (name : String) : OptionSpec := ⟨name, none, none, false, none⟩

def OptionSpec.valued (name : String) (accepts : String → Bool) : OptionSpec :=
  ⟨name, none, some accepts, false, none⟩

/-- The arguments taken so far. An option that waits for its value is pending. -/
structure Scan where
  given : List (String × String)
  plain : List String
  pending : Option OptionSpec

namespace Scan

def empty : Scan := ⟨[], [], none⟩

def give (s : Scan) (spec : OptionSpec) (value : String) : Except Halt Scan :=
  if !spec.repeatable && s.given.any (·.1 = spec.name) then .error .usage
  else if spec.accepts.all (· value) then
    .ok { s with given := s.given ++ [(spec.name, value)], pending := none }
  else .error .usage

def raise (s : Scan) (spec : OptionSpec) : Except Halt Scan :=
  match spec.halt with
  | some halt => .error halt
  | none => s.give spec ""

def long (s : Scan) (specs : List OptionSpec) (chars : List Char) : Except Halt Scan :=
  let name := String.ofList (chars.takeWhile (· ≠ '='))
  match specs.find? (·.name = name) with
  | none => .error .usage
  | some spec =>
    match spec.accepts, chars.dropWhile (· ≠ '=') with
    | none, [] => s.raise spec
    | none, _ => .error .usage
    | some _, [] => .ok { s with pending := some spec }
    | some _, _ :: value => s.give spec (String.ofList value)

def letters (s : Scan) (specs : List OptionSpec) : List Char → Except Halt Scan
  | [] => .ok s
  | c :: rest =>
    match specs.find? (·.short = some c) with
    | none => .error .usage
    | some spec => do letters (← s.raise spec) specs rest

def isValue (arg : String) : Bool := arg = "-" || !arg.startsWith "-"

/-- Takes arguments up to the name of a command. Where there are no commands, what is not an option
is a plain argument. -/
def run (specs : List OptionSpec) (commands : List String) (s : Scan) :
    List String → Except Halt (Scan × Option (String × List String))
  | [] => if s.pending.isSome then .error .usage else .ok (s, none)
  | arg :: rest =>
    match s.pending with
    | some spec =>
      if isValue arg then do run specs commands (← s.give spec arg) rest else .error .usage
    | none =>
      if arg = "--" then
        if commands.isEmpty || rest.isEmpty then
          .ok ({ s with plain := s.plain ++ rest }, none)
        else .error .usage
      else
        match arg.toList with
        | '-' :: '-' :: chars => do run specs commands (← s.long specs chars) rest
        | '-' :: c :: chars => do run specs commands (← s.letters specs (c :: chars)) rest
        | _ =>
          if commands.isEmpty then run specs commands { s with plain := s.plain ++ [arg] } rest
          else if arg ∈ commands then .ok (s, some (arg, rest))
          else .error .usage

def has (s : Scan) (name : String) : Bool := s.given.any (·.1 = name)

def value? (s : Scan) (name : String) : Option String := s.given.lookup name

def values (s : Scan) (name : String) : List String :=
  s.given.filterMap fun (key, value) => if key = name then some value else none

end Scan

end Interleave.Cli
