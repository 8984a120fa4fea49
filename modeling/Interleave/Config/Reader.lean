import Interleave.Config.Basic
import Interleave.Json.Reader

set_option autoImplicit false

namespace Interleave.Config

open Json (Flaw Reader)
open Json.Reader

structure Setting where
  name : String
  read : Config → Reader Config

private def natOf (n : UInt64) : Nat := n.toNat

def strategies : List (String × Strategy) :=
  [("dfs", .dfs), ("random", .random), ("context-bounded", .contextBounded)]

def symmetries : List (String × Symmetry) := [("fast", .fast), ("canonical", .canonical)]

def serializers : List (String × SerializerKind) :=
  [("full", .full), ("thread-reachable", .threadReachable)]

def stateSets : List (String × TableKind) := [("exact", .exact), ("compact", .compact)]

def settings : List Setting := [
  ⟨"strategy", fun c => do return { c with strategy := ← variant strategies }⟩,
  ⟨"depth_limit", fun c => do return { c with depthLimit := (← optional word64).map natOf }⟩,
  ⟨"min_free_memory_mb", fun c => do return { c with minFreeMemory := (← word64).toNat }⟩,
  ⟨"memory_budget_mb", fun c => do return { c with memoryBudget := (← optional word64).map natOf }⟩,
  ⟨"match_depth", fun c => do return { c with matchDepth := ← bool }⟩,
  ⟨"report_all_errors", fun c => do return { c with reportAllErrors := ← bool }⟩,
  ⟨"preemption_limit", fun c => do return { c with preemptionLimit := ← optional word32 }⟩,
  ⟨"path_limit", fun c => do return { c with pathLimit := (← word64).toNat }⟩,
  ⟨"seed", fun c => do return { c with seed := ← word64 }⟩,
  ⟨"symmetry", fun c => do return { c with symmetry := ← variant symmetries }⟩,
  ⟨"serializer", fun c => do return { c with serializer := ← variant serializers }⟩,
  ⟨"include_pc", fun c => do return { c with includePc := ← bool }⟩,
  ⟨"filtered_fields", fun c => do return { c with filteredFields := ← texts }⟩,
  ⟨"filtered_methods", fun c => do return { c with filteredMethods := ← texts }⟩,
  ⟨"state_set", fun c => do return { c with stateSet := ← variant stateSets }⟩]

def members (first : Bool) (c : Config) : Nat → List Setting → Reader Config
  | 0, _ => flaw .data
  | fuel + 1, remaining => do
    if ← anotherMember first then
      let key ← text
      match remaining.find? (·.name == key) with
      | none => flaw .data
      | some setting =>
        colon
        let c ← setting.read c
        members false c fuel (remaining.filter (·.name ≠ key))
    else
      skip
      return c

def itemsOf (first : Bool) (c : Config) : List Setting → Reader Config
  | [] => do
    close ']'
    return c
  | setting :: rest => do
    if ← anotherItem first then
      itemsOf false (← setting.read c) rest
    else
      skip
      return c

def reader : Reader Config := do
  match ← peekSome with
  | '\x7b' =>
    skip
    members true default (settings.length + 1) settings
  | '[' =>
    skip
    itemsOf true default settings
  | _ => wrongKind

def ofText (source : String) : Except Flaw Config := reader.readAll source

end Interleave.Config
