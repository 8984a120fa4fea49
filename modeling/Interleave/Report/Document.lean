import Interleave.Machine.Document
import Interleave.Report.Result

set_option autoImplicit false

namespace Interleave

def Place.json (p : Place) : Json := .obj [
  ("path", .str p.path),
  ("start_line", .nat p.span.startLine),
  ("start_col", .nat p.span.startCol),
  ("end_line", .nat p.span.endLine),
  ("end_col", .nat p.span.endCol)]

def Transition.json (t : Transition) : Json := .obj (
  [("thread", .nat t.thread), ("thread_name", .str t.threadName)]
  ++ Json.member? "choice" (fun v => .int v.toInt) t.choice
  ++ [("label", .str t.label)]
  ++ Json.member? "span" Place.json t.place
  ++ [("state_id", .nat t.stateId)])

def ThreadStatus.json : ThreadStatus → Json
  | runnable => .str "runnable"
  | terminated => .str "terminated"
  | blocked (.object h) => .obj [("blocked", .obj [("kind", .str "object"), ("id", .nat h)])]
  | blocked (.ofClass c) => .obj [("blocked", .obj [("kind", .str "class"), ("id", .nat c)])]

def ThreadView.json (t : ThreadView) : Json := .obj (
  [("id", .nat t.id), ("name", .str t.name), ("status", t.status.json)]
  ++ Json.member? "method" .str t.method
  ++ Json.member? "pc" .nat t.pc
  ++ Json.member? "next" .str t.next)

def Constraint.json : Constraint → Json
  | depth limit => .obj [("kind", .str "depth"), ("limit", .nat limit)]
  | memory used budget =>
    .obj [("kind", .str "memory"), ("used_mb", .nat used), ("budget_mb", .nat budget)]
  | preemptions limit => .obj [("kind", .str "preemption_limit"), ("limit", .nat limit)]
  | paths limit => .obj [("kind", .str "path_limit"), ("limit", .nat limit)]

def Violation.json (v : Violation) : Json := .obj [
  ("id", .nat v.id),
  ("property", .str v.property),
  ("message", .str v.message),
  ("depth", .nat v.depth),
  ("path", .arr (v.path.map (·.json))),
  ("threads", .arr (v.threads.map (·.json)))]

def Stats.json (s : Stats) : Json := .obj [
  ("states", .ofOption .nat s.states),
  ("transitions", .ofOption .nat s.transitions),
  ("visited_states", .nat s.visitedStates),
  ("end_states", .nat s.endStates),
  ("backtracked", .nat s.backtracked),
  ("processed", .nat s.processed),
  ("restored", .nat s.restored),
  ("max_depth", .nat s.maxDepth)]

def Report.members (r : Report) : List (String × Json) := [
  ("errors", .arr (r.errors.map (·.json))),
  ("stats", r.stats.json),
  ("constraints", .arr (r.constraints.map (·.json))),
  ("terminated", .bool r.terminated)]

def TraceEvent.json (e : TraceEvent) : Json := .obj (
  [("label", .str e.label)]
  ++ Json.member? "thread" .str e.thread
  ++ Json.member? "choice" .str e.choice)

def Counterexample.json (c : Counterexample) : Json := .obj [
  ("type", .str "trace"),
  ("events", .arr (c.events.map (·.json))),
  ("tags", .arr (c.tags.map .str)),
  ("source_spans", .arr (c.places.map (·.json)))]

def Reason.json (r : Reason) : Json := .obj (
  [("kind", .str r.kind.text)] ++ Json.member? "message" .str r.message)

def ErrorSummary.json (e : ErrorSummary) : Json := .obj [
  ("property", .str e.property), ("message", .str e.message), ("depth", .nat e.depth)]

def CheckResult.json (r : CheckResult) : Json := .obj (
  [("name", .str r.name)]
  ++ Json.member? "strategy" .str r.strategy
  ++ [("status", .str r.status.text)]
  ++ Json.member? "reason" Reason.json r.reason
  ++ [("counterexample", .ofOption Counterexample.json r.counterexample)]
  ++ (if r.errors.isEmpty then [] else [("errors", .arr (r.errors.map (·.json)))])
  ++ [("stats", .ofOption Stats.json r.stats)])

end Interleave
