import Interleave.Config.Basic
import Interleave.Json.Basic

set_option autoImplicit false

namespace Interleave

def Symmetry.text : Symmetry → String
  | fast => "fast"
  | canonical => "canonical"

def SerializerKind.text : SerializerKind → String
  | full => "full"
  | threadReachable => "thread-reachable"

def TableKind.text : TableKind → String
  | exact => "exact"
  | compact => "compact"

def Config.json (c : Config) : Json := .obj [
  ("strategy", .str c.strategy.text),
  ("depth_limit", .ofOption .nat c.depthLimit),
  ("min_free_memory_mb", .nat c.minFreeMemory),
  ("memory_budget_mb", .ofOption .nat c.memoryBudget),
  ("match_depth", .bool c.matchDepth),
  ("report_all_errors", .bool c.reportAllErrors),
  ("preemption_limit", .ofOption .nat c.preemptionLimit),
  ("path_limit", .nat c.pathLimit),
  ("seed", .nat c.seed.toNat),
  ("symmetry", .str c.symmetry.text),
  ("serializer", .str c.serializer.text),
  ("include_pc", .bool c.includePc),
  ("filtered_fields", .arr (c.filteredFields.map .str)),
  ("filtered_methods", .arr (c.filteredMethods.map .str)),
  ("state_set", .str c.stateSet.text)]

end Interleave
