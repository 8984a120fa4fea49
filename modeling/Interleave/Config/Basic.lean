import Interleave.Fingerprint.Table

set_option autoImplicit false

namespace Interleave

inductive Strategy where
  | dfs
  | random
  | contextBounded
deriving DecidableEq

namespace Strategy

def text : Strategy → String
  | dfs => "dfs"
  | random => "random"
  | contextBounded => "context-bounded"

def label : Strategy → String
  | dfs => "Dfs"
  | random => "Random"
  | contextBounded => "ContextBounded"

end Strategy

structure Config where
  strategy : Strategy
  depthLimit : Option Nat
  /-- The search stops when less than this is left of the budget. -/
  minFreeMemory : Nat
  memoryBudget : Option Nat
  /-- A visited state counts as new when it is met at a smaller depth than before. -/
  matchDepth : Bool
  reportAllErrors : Bool
  /-- Without a limit the bound is raised until no work is left. -/
  preemptionLimit : Option Nat
  pathLimit : Nat
  seed : UInt64
  symmetry : Symmetry
  serializer : SerializerKind
  includePc : Bool
  filteredFields : List String
  filteredMethods : List String
  stateSet : TableKind
deriving DecidableEq

namespace Config

def default : Config where
  strategy := .dfs
  depthLimit := none
  minFreeMemory := 0
  memoryBudget := none
  matchDepth := false
  reportAllErrors := false
  preemptionLimit := none
  pathLimit := 100
  seed := 0
  symmetry := .fast
  serializer := .full
  includePc := true
  filteredFields := []
  filteredMethods := []
  stateSet := .exact

def problem? (c : Config) : Option String :=
  if c.depthLimit = some 0 then some "depth_limit must be positive"
  else if c.pathLimit = 0 then some "path_limit must be positive"
  else
    match c.memoryBudget with
    | none => none
    | some budget =>
      if budget ≤ c.minFreeMemory then
        some ("min_free_memory_mb (" ++ toString c.minFreeMemory
          ++ ") must be below memory_budget_mb (" ++ toString budget ++ ")")
      else none

/-- Whether the budget leaves what has to stay free; amounts are 64-bit words and stop at the largest
one. -/
def hasHeadroom (c : Config) (budget used : Nat) : Bool :=
  Nat.min (used + c.minFreeMemory) (Nat.pow 2 64 - 1) ≤ budget

def policy (c : Config) : SerializerPolicy := ⟨c.serializer, c.includePc⟩

def filter (c : Config) : Filter := ⟨c.filteredFields, c.filteredMethods⟩

end Config

end Interleave
