import Interleave.Check.Basic
import Interleave.Proofs.Explore.Genuine
import Interleave.Proofs.Search.Strides

set_option autoImplicit false

namespace Interleave

/-- One of the default properties, by name and message, is violated in a state to which a step with
the given fault has led. -/
inductive Program.Violates (p : Program) (s : State) (fault : Option Uncaught) :
    String → String → Prop where
  | fault {f : Uncaught} (h : fault = some f) : Violates p s fault "no_uncaught_exceptions"
      ("uncaught " ++ f.kind ++ " in thread " ++ f.thread ++ ": " ++ f.message)
  | deadlock (h : s.Deadlocked) : Violates p s fault "not_deadlocked"
      "deadlock: live threads remain but none can run"
  /-- The first invariant that does not hold is named by its line. -/
  | invariant {before after : List (Located Expr)} {e : Located Expr} (hfinished : s.Finished)
      (hsplit : p.invariants = before ++ e :: after) (hbefore : ∀ k ∈ before, p.Satisfies s k)
      (hfails : ¬ p.Satisfies s e) : Violates p s fault "end_state_invariant"
      ("invariant at " ++ (p.path ++ ":" ++ toString e.span.startLine) ++
        " does not hold in end state")

structure Violation.Real (p : Program) (mode : Symmetry) (e : Violation) : Prop where
  depth : e.depth = e.path.length
  trace : ∃ s fault, p.Trace mode e.path s fault ∧ e.threads = p.threadViews s ∧
    p.Violates s fault e.property e.message

section Found

variable {p : Program} {mode : Symmetry} {x : Explorer} {message : String}

theorem Program.Violates.of_residue {r s : State} (h : r.Residue s) {fault : Option Uncaught}
    {property : String} (hs : p.Violates s fault property message) :
    p.Violates r fault property message := by
  obtain ⟨R, hcorr, _⟩ := h.pairing
  cases hs with
  | fault hfault => exact .fault hfault
  | deadlock hdeadlock => exact .deadlock (hcorr.deadlocked.2 hdeadlock)
  | invariant hfinished hsplit hbefore hfails =>
    have hsame := hcorr.toSameMemory.satisfies (p := p)
    refine .invariant (hcorr.finished.2 hfinished) hsplit ?_ ?_
    · intro k hk
      exact (hsame k).2 (hbefore k hk)
    · intro hholds
      exact hfails ((hsame _).1 hholds)

theorem violates_of_finds {property : Property} (hproperty : property ∈ Property.defaults)
    {b : Session} (h : property.finds b x = .ok (some message)) :
    x.model.program.Violates x.state x.fault property.name message := by
  simp only [Property.defaults, List.mem_cons, List.not_mem_nil, or_false] at hproperty
  rcases hproperty with rfl | rfl | rfl
  · rw [Property.noUncaughtFault_finds] at h
    obtain ⟨f, hf, rfl⟩ := Option.map_eq_some_iff.1 (Except.ok.inj h)
    exact .fault hf
  · rw [Property.notDeadlocked_finds] at h
    have hmessage := Except.ok.inj h
    split at hmessage
    · next hdeadlock =>
      cases hmessage
      exact .deadlock (State.isDeadlocked_iff.1 hdeadlock)
    · cases hmessage
  · rw [Property.endInvariant_finds] at h
    split at h
    · next hend =>
      simp only [Bool.and_eq_true, Bool.not_eq_true'] at hend
      cases hplace : x.violated with
      | error e =>
        rw [hplace] at h
        cases h
      | ok place =>
        rw [hplace] at h
        obtain ⟨text, rfl, rfl⟩ := Option.map_eq_some_iff.1 (Except.ok.inj h)
        obtain ⟨before, e, after, hsplit, hbefore, hfails, rfl⟩ :=
          Program.of_violated_eq_some (mapError_eq_ok.1 hplace)
        exact .invariant (State.finished_iff.2 hend) hsplit hbefore hfails
    · cases h

theorem Search.Found.real (hx : x.Genuine p mode) {e : Violation}
    (h : Search.Found x x.depth Property.defaults e) : e.Real p mode := by
  obtain ⟨property, hmem, b, hname, hcheck⟩ := h.property
  obtain ⟨r, htrace, hresidue⟩ := hx.trail.top.origin
  have hviolates := violates_of_finds hmem hcheck
  rw [hx.program, hname] at hviolates
  refine ⟨?_, r, x.fault, ?_, ?_, hviolates.of_residue hresidue⟩
  · rw [h.depth, h.path]
    exact hx.trail.length_path.symm
  · rw [h.path]
    exact htrace
  · rw [h.threads, hresidue.threadViews]
    exact congrArg (Program.threadViews · x.state) hx.program

end Found

namespace WorkQueue

variable {α : Type} {q : WorkQueue α}

theorem toList_push (q : WorkQueue α) (a : α) : (q.push a).toList = q.toList ++ [a] := by
  simp [push, toList]

theorem toList_foldl_push {β : Type} (f : β → α) (l : List β) (q : WorkQueue α) :
    (l.foldl (fun q b => q.push (f b)) q).toList = q.toList ++ l.map f := by
  induction l generalizing q with
  | nil => simp
  | cons b rest ih => simp [ih, toList_push]

theorem toList_of_pop? {q' : WorkQueue α} {a : α} (h : q.pop? = some (a, q')) :
    q.toList = a :: q'.toList := by
  obtain ⟨front, back⟩ := q
  simp only [pop?] at h
  split at h
  · cases h
    simp [toList]
  · split at h
    · next hback =>
      cases h
      simp [toList, hback]
    · cases h

theorem toList_of_pop?_none (h : q.pop? = none) : q.toList = [] := by
  obtain ⟨front, back⟩ := q
  simp only [pop?] at h
  split at h
  · cases h
  · split at h
    · cases h
    · next hback => simp [toList, hback]

theorem toList_of_isEmpty (h : q.isEmpty = true) : q.toList = [] := by
  simp only [isEmpty, Bool.and_eq_true, List.isEmpty_iff] at h
  simp [toList, h]

theorem toList_ne_nil (h : q.isEmpty = false) : q.toList ≠ [] := by
  obtain ⟨front, back⟩ := q
  intro hnil
  simp [toList] at hnil
  simp [isEmpty, hnil] at h

end WorkQueue

namespace Search

structure Honest (p : Program) (mode : Symmetry) (s : Search) : Prop where
  explorer : s.explorer.Genuine p mode
  properties : s.properties = Property.defaults
  ids : s.session.errors.map (·.id) = List.range' 1 s.session.errors.length
  errors : ∀ e ∈ s.session.errors, e.Real p mode

structure WorkItem.Genuine (p : Program) (mode : Symmetry) (item : WorkItem) : Prop where
  trail : item.trail.Genuine p mode
  threads : ∀ t ∈ item.schedule.threads, t ∈ item.trail.top.state.runnable

def Bounded.waiting (w : Bounded) : List WorkItem := w.current.toList ++ w.next.toList

def Frontier.Genuine (p : Program) (mode : Symmetry) : Frontier → Prop
  | .depthFirst => True
  | .walks w => w.initial.Genuine p mode
  | .bounded w => ∀ item ∈ w.waiting, item.Genuine p mode

section Honest

variable {p : Program} {mode : Symmetry} {s s' t : Search} {x : Explorer} {b : Session}
  {w w' : Bounded} {moved : Bool} {held : List Trail} {r : Option Walks} {g : Listed ThreadId}
  {frontier : Frontier}

variable (hs : s.Honest p mode)

include hs

theorem Honest.becomes (h : s.Becomes x b s') (hx : x.Genuine p mode)
    (hb : b.errors = s.session.errors) : s'.Honest p mode := by
  have herrors : s'.session.errors = s.session.errors := by rw [h.session, hb]
  refine ⟨h.explorer ▸ hx, h.properties.trans hs.properties, ?_, ?_⟩
  · rw [herrors]
    exact hs.ids
  · rw [herrors]
    exact hs.errors

theorem Honest.stops (h : s.Stops s') : s'.Honest p mode := by
  obtain ⟨b, hbecomes, herrors, _⟩ := h
  exact hs.becomes hbecomes hs.explorer herrors

theorem Honest.retreats (h : s.Retreats moved s') : s'.Honest p mode := by
  rcases h with ⟨_, _, hkeeps⟩ | ⟨_, tally, hback, hbecomes⟩
  · exact hs.becomes hkeeps hs.explorer rfl
  · exact hs.becomes hbecomes (Explorer.backtrack?_genuine hs.explorer hback) rfl

theorem Honest.forward (h : s.explorer.forward = (.ok moved, t.explorer)) :
    t.explorer.Genuine p mode :=
  Explorer.forward_genuine hs.explorer h

omit hs in
theorem Tidied.genuine {y : Explorer} (h : Tidied x held y) (hx : x.Genuine p mode) :
    y.Genuine p mode := by
  rcases h with rfl | rfl
  · exact hx
  · exact Explorer.collect_genuine hx held

theorem Honest.booked (h : s.Booked held s') : s'.Honest p mode := by
  obtain ⟨es, herrors, hids, hfound⟩ := h.errors
  refine ⟨h.explorer.genuine hs.explorer, h.properties.trans hs.properties, ?_, ?_⟩
  · rw [herrors, List.map_append, hs.ids, hids, List.length_append, Nat.add_comm _ 1,
      List.range'_append_1]
  · intro e he
    rw [herrors] at he
    rcases List.mem_append.1 he with hold | hnew
    · exact hs.errors e hold
    · have hreal := hfound e hnew
      rw [hs.properties] at hreal
      exact hreal.real hs.explorer

theorem Honest.advanced (h : s.Becomes t.explorer s.session t) (ht : t.explorer.Genuine p mode)
    (hbooked : t.Booked held s') : s'.Honest p mode :=
  (hs.becomes h ht rfl).booked hbooked

theorem Honest.proceeds (h : DepthFirst.Proceeds s s') : s'.Honest p mode := by
  cases h with
  | moved hforward h hbooked => exact hs.advanced h (hs.forward hforward) hbooked
  | processed hforward h => exact hs.becomes h (hs.forward hforward) rfl

theorem Honest.depthFirst {more : Bool} (h : DepthFirst.Turns s more s') : s'.Honest p mode := by
  cases h with
  | stopped h => exact hs.stops h
  | exhausted _ _ h => exact hs.becomes h hs.explorer rfl
  | back _ hback h hproceeds =>
    exact (hs.becomes h (Explorer.backtrack?_genuine hs.explorer hback) rfl).proceeds hproceeds
  | on _ h hproceeds => exact (hs.becomes h hs.explorer rfl).proceeds hproceeds

theorem Honest.ends {w : Walks} (h : Walks.Ends w s r s') (hw : w.initial.Genuine p mode) :
    s'.Honest p mode ∧ ∀ w', r = some w' → w'.initial.Genuine p mode := by
  cases h with
  | last _ h => exact ⟨hs.becomes h hs.explorer rfl, fun w' hw' => by cases hw'⟩
  | again h =>
    refine ⟨hs.becomes h (Explorer.restore_genuine hs.explorer hw) rfl, fun w' hw' => ?_⟩
    cases hw'
    exact hw

theorem Honest.walks {w : Walks} (hw : w.initial.Genuine p mode) (h : Walks.Turns w s r s') :
    s'.Honest p mode ∧ ∀ w', r = some w' → w'.initial.Genuine p mode := by
  have hsame : ∀ {w' : Walks}, w'.initial = w.initial → ∀ w'', some w' = some w'' →
      w''.initial.Genuine p mode := by
    rintro w' hinitial w'' heq
    cases heq
    rw [hinitial]
    exact hw
  have hshuffled : ∀ {t : Search} {moved : Bool},
      (s.explorer.shuffleSchedule w.source).1.forward = (.ok moved, t.explorer) →
      t.explorer.Genuine p mode := fun hforward =>
    Explorer.forward_genuine (Explorer.shuffleSchedule_genuine hs.explorer w.source) hforward
  cases h with
  | stopped h => exact ⟨hs.stops h, fun w' hw' => by cases hw'⟩
  | cut _ h => exact ⟨hs.becomes h hs.explorer rfl, fun w' hw' => by cases hw'⟩
  | begun h => exact ⟨hs.becomes h hs.explorer rfl, hsame rfl⟩
  | halted h hends => exact (hs.stops h).ends hends hw
  | finished hforward h hends =>
    have ht := hs.becomes h (hshuffled hforward) rfl
    exact ht.ends hends hw
  | moved hforward h hbooked hz =>
    have hv := hs.advanced h (hshuffled hforward) hbooked
    exact ⟨hv.becomes hz hv.explorer rfl, hsame rfl⟩
  | left hforward h hbooked hz hends =>
    have hv := hs.advanced h (hshuffled hforward) hbooked
    have hz' := hv.becomes hz hv.explorer rfl
    exact hz'.ends hends hw

theorem Honest.takes (hw : ∀ item ∈ w.waiting, item.Genuine p mode) {r : Option Bounded}
    (h : Bounded.Takes w s r s') :
    s'.Honest p mode ∧ ∀ w', r = some w' → ∀ item ∈ w'.waiting, item.Genuine p mode := by
  cases h with
  | stopped h => exact ⟨hs.stops h, fun w' hw' => by cases hw'⟩
  | ended _ _ h => exact ⟨hs.becomes h hs.explorer rfl, fun w' hw' => by cases hw'⟩
  | cut _ h => exact ⟨hs.becomes h hs.explorer rfl, fun w' hw' => by cases hw'⟩
  | raised hcurrent h =>
    refine ⟨hs.becomes h hs.explorer rfl, fun w' hw' item hitem => ?_⟩
    cases hw'
    refine hw item (List.mem_append_right _ ?_)
    simpa [Bounded.waiting, WorkQueue.toList, WorkQueue.empty] using hitem
  | @taken _ item current tally hcurrent h =>
    have hpop := WorkQueue.toList_of_pop? hcurrent
    have hitem : item.Genuine p mode := hw item (by simp [Bounded.waiting, hpop])
    refine ⟨hs.becomes h ?_ rfl, fun w' hw' other hother => ?_⟩
    · refine Explorer.setSchedule_genuine ?_ hitem.threads
      exact Explorer.restore_genuine hs.explorer hitem.trail
    · cases hw'
      refine hw other ?_
      unfold Bounded.waiting
      rw [hpop, List.cons_append]
      exact List.mem_cons_of_mem _ hother

omit hs in
theorem runnable_of_restrictTo (hx : x.Genuine p mode) (h : x.schedule? = some (.thread g))
    (kept : List ThreadId) :
    ∀ t ∈ (ChoicePoint.thread (g.restrictTo kept)).threads, t ∈ x.state.runnable := by
  obtain ⟨a, ha, hschedule⟩ := Option.map_eq_some_iff.1 h
  intro t ht
  refine (hx.trail.top.agenda a ha).threads t ?_
  rw [hschedule]
  exact (List.mem_filter.1 ht).1

theorem Honest.defers (h : Bounded.Defers w s w' s')
    (hw : ∀ item ∈ w.waiting, item.Genuine p mode) :
    s'.Honest p mode ∧ ∀ item ∈ w'.waiting, item.Genuine p mode := by
  cases h with
  | kept => exact ⟨hs, hw⟩
  | @split _ g last hschedule hlast h =>
    have hrestricted := runnable_of_restrictTo hs.explorer hschedule
    refine ⟨hs.becomes h (Explorer.setSchedule_genuine hs.explorer (hrestricted _)) rfl, ?_⟩
    intro item hitem
    unfold Bounded.waiting Bounded.putOff at hitem
    dsimp only at hitem
    rw [WorkQueue.toList_foldl_push, ← List.append_assoc] at hitem
    rcases List.mem_append.1 hitem with hold | hnew
    · exact hw item hold
    · obtain ⟨t, _, rfl⟩ := List.mem_map.1 hnew
      exact ⟨hs.explorer.trail, hrestricted [t]⟩

theorem Honest.steps {base : Nat} (hw : ∀ item ∈ w.waiting, item.Genuine p mode)
    (h : Bounded.Steps w base s w' s') :
    s'.Honest p mode ∧ ∀ item ∈ w'.waiting, item.Genuine p mode := by
  cases h with
  | stopped h => exact ⟨hs.stops h, hw⟩
  | finished hforward _ h => exact ⟨hs.becomes h (hs.forward hforward) rfl, hw⟩
  | back hforward _ h hback =>
    exact ⟨(hs.becomes h (hs.forward hforward) rfl).retreats hback, hw⟩
  | broken hforward h hbooked _ =>
    exact ⟨hs.advanced h (hs.forward hforward) hbooked, hw⟩
  | left hforward h hbooked hz _ hback =>
    have hv := hs.advanced h (hs.forward hforward) hbooked
    exact ⟨(hv.becomes hz hv.explorer rfl).retreats hback, hw⟩
  | entered hforward h hbooked hz hdefers =>
    have hv := hs.advanced h (hs.forward hforward) hbooked
    exact (hv.becomes hz hv.explorer rfl).defers hdefers hw

theorem Honest.turn {r : Option Frontier} (hf : frontier.Genuine p mode)
    (h : frontier.Turns s r s') : s'.Honest p mode ∧ ∀ f, r = some f → f.Genuine p mode := by
  cases h with
  | depthFirst h =>
    refine ⟨hs.depthFirst h, fun f hf => ?_⟩
    cases hf
    trivial
  | exhausted h => exact ⟨hs.depthFirst h, fun f hf => by cases hf⟩
  | walks h =>
    obtain ⟨hs', hnext⟩ := hs.walks hf h
    exact ⟨hs', (left_map (P := Frontier.Genuine p mode) (g := .walks) hnext fun _ => trivial).1⟩
  | takes _ h =>
    obtain ⟨hs', hnext⟩ := hs.takes hf h
    exact ⟨hs', (left_map (P := Frontier.Genuine p mode) (g := .bounded) hnext fun _ => trivial).1⟩
  | steps _ h =>
    obtain ⟨hs', hnext⟩ := hs.steps hf h
    refine ⟨hs', fun f hf => ?_⟩
    cases hf
    exact hnext

omit hs in
theorem Bounded.mem_waiting_initial {item : WorkItem} (h : item ∈ (Bounded.initial x).waiting) :
    ∃ a, x.trail.top.agenda = some a ∧ item = ⟨x.trail, a.schedule⟩ := by
  simp only [Bounded.waiting, Bounded.initial] at h
  split at h
  · cases h
  · next schedule hschedule =>
    obtain ⟨a, ha, rfl⟩ := Option.map_eq_some_iff.1 hschedule
    simp only [WorkQueue.toList, WorkQueue.push, WorkQueue.empty, List.reverse_cons,
      List.reverse_nil, List.nil_append, List.append_nil, List.mem_singleton] at h
    exact ⟨a, ha, h⟩

theorem Honest.starts (h : Starts s frontier s') : s'.Honest p mode ∧ frontier.Genuine p mode := by
  have hempty : ∀ {t : Search} {y : Explorer}, y.Genuine p mode →
      s.Becomes y (.start s.explorer) t → t.Honest p mode := by
    intro t y hy ht
    have herrors : t.session.errors = [] := by
      rw [ht.session]
      rfl
    refine ⟨ht.explorer ▸ hy, ht.properties.trans hs.properties, ?_, ?_⟩
    · rw [herrors]
      rfl
    · rw [herrors]
      simp
  cases h with
  | depthFirst _ h => exact ⟨hempty hs.explorer h, trivial⟩
  | @walks _ w _ hinitial h =>
    refine ⟨hempty ?_ h, ?_⟩
    · exact ⟨hs.explorer.program, hs.explorer.symmetry, hs.explorer.trail⟩
    · change w.initial.Genuine p mode
      rw [hinitial]
      exact hs.explorer.trail
  | bounded _ h =>
    refine ⟨hempty hs.explorer h, fun item hitem => ?_⟩
    obtain ⟨a, ha, rfl⟩ := Bounded.mem_waiting_initial hitem
    exact ⟨hs.explorer.trail, (hs.explorer.trail.top.agenda a ha).threads⟩

end Honest

end Search

/-- A search as it is set up for a run: over the initial state of a program, with the default
properties. -/
structure Search.Fresh (p : Program) (c : Config) (s : Search) : Prop where
  start : s.explorer.Started p c
  accepted : c.problem? = none
  config : s.config = c
  properties : s.properties = Property.defaults
  session : s.session = .empty

variable {p : Program} {c : Config} {s : Search}

theorem Search.Fresh.honest (hs : s.Fresh p c) : s.Honest p c.symmetry := by
  refine ⟨hs.start.genuine, hs.properties, ?_, ?_⟩
  · rw [hs.session]
    rfl
  · rw [hs.session]
    simp [Session.empty]

theorem Search.Fresh.honest_model (hs : s.Fresh p c) :
    s.Honest s.explorer.model.program s.explorer.model.symmetry := by
  have hgenuine := hs.start.genuine
  rw [hgenuine.program, hgenuine.symmetry]
  exact hs.honest

theorem Search.new_ok {x : Explorer} (h : Search.new x c = .ok s) :
    s.explorer = x ∧ c.problem? = none ∧ s.config = c ∧ s.session = .empty := by
  unfold Search.new at h
  split at h
  · cases h
  · next haccepted =>
    cases h
    exact ⟨rfl, haccepted, rfl, rfl⟩

theorem Check.prepare_start {threshold : Level} (h : Check.prepare p c threshold = .ok s) :
    Explorer.start p c = .ok s.explorer := by
  unfold Check.prepare at h
  obtain ⟨x, hx, h⟩ := bind_eq_ok.1 h
  obtain ⟨search, hsearch, h⟩ := bind_eq_ok.1 h
  cases h
  rw [mapError_eq_ok.1 hx, (Search.new_ok (mapError_eq_ok.1 hsearch)).1]

theorem Check.prepare_fresh {threshold : Level} {stop : Bool}
    (h : Check.prepare p c threshold = .ok s) : Search.Fresh p c { s with stop } := by
  have hstart := prepare_start h
  unfold Check.prepare at h
  obtain ⟨x, hx, h⟩ := bind_eq_ok.1 h
  obtain ⟨search, hsearch, h⟩ := bind_eq_ok.1 h
  cases h
  obtain ⟨_, haccepted, hconfig, hsession⟩ := Search.new_ok (mapError_eq_ok.1 hsearch)
  exact ⟨⟨_, hstart⟩, haccepted, hconfig, rfl, hsession⟩

/-- Every violation that a run reports is real, and they are numbered from one. -/
theorem reported_violations_real {p : Program} {c : Config} {s s' : Search} (hs : s.Fresh p c)
    {fuel : Nat} {report : Report} (h : s.perform (Search.run fuel) = (.ok (some report), s')) :
    report.errors.map (·.id) = List.range' 1 report.errors.length ∧
      ∀ e ∈ report.errors, e.Real p c.symmetry := by
  obtain ⟨t, ht, rfl, -⟩ := Search.run_invariant
    (I := fun f t => t.Honest p c.symmetry ∧ f.Genuine p c.symmetry)
    (J := fun t => t.Honest p c.symmetry) (fun hstarts => hs.honest.starts hstarts)
    (fun hI hturn => by
      obtain ⟨hhonest, hnext⟩ := hI.1.turn hI.2 hturn
      exact ⟨fun f hf => ⟨hhonest, hnext f hf⟩, fun _ => hhonest⟩) h
  exact ⟨ht.ids, ht.errors⟩

/-- Two threads at a counter: one sets it to one or two, the other one counts on. -/
def relay (invariant : Expr) : Program where
  path := "relay"
  classes := ⟨"Main", .plain, [], [⟨"n", .int, false, 0⟩]⟩ :: builtinClasses.tail
  methods := [
    ⟨"a", false, [],
      [⟨.lock (.ofClass 0), .onLine 4 3 11⟩,
        ⟨.assign (.staticVar 0 0) (.choose 1 2), .onLine 5 3 18⟩,
        ⟨.unlock (.ofClass 0), .onLine 6 3 13⟩],
      ["lock Main", "n = choose(1, 2)", "unlock Main"]⟩,
    ⟨"b", false, [],
      [⟨.lock (.ofClass 0), .onLine 9 3 11⟩,
        ⟨.assign (.staticVar 0 0) (.expr (.binary .add (.staticVar 0 0) (.int 1))),
          .onLine 10 3 11⟩,
        ⟨.unlock (.ofClass 0), .onLine 11 3 13⟩],
      ["lock Main", "n = n + 1", "unlock Main"]⟩]
  threads := [⟨"a", 0⟩, ⟨"b", 1⟩]
  invariants := [⟨invariant, .onLine 2 1 16⟩]

abbrev counter (op : BinOp) (n : Int64) : Expr := .binary op (.staticVar 0 0) (.int n)

def Check.report? (p : Program) (c : Config) (fuel : Nat) : Option Report :=
  match Check.prepare p c .error with
  | .error _ => none
  | .ok s =>
    match s.perform (Search.run fuel) with
    | (.ok report, _) => report
    | (.error _, _) => none

theorem Check.report?_eq_some {fuel : Nat} {report : Report}
    (h : Check.report? p c fuel = some report) :
    ∃ s s', Search.Fresh p c s ∧ s.perform (Search.run fuel) = (.ok (some report), s') := by
  unfold Check.report? at h
  split at h
  · cases h
  · next s hprepare =>
    split at h
    · next report' s' hrun =>
      subst h
      exact ⟨s, s', Check.prepare_fresh hprepare, hrun⟩
    · cases h

/-- The counter need not be two in the end, and the ways to other ends are real. -/
theorem relay_violations : ∃ report,
    Check.report? (relay (counter .eq 2))
      { Config.default with reportAllErrors := true } 1000 = some report ∧
    report.errors.map (fun e => (e.id, e.property, e.depth)) =
      [(1, "end_state_invariant", 6), (2, "end_state_invariant", 6)] ∧
    ∀ e ∈ report.errors, e.Real (relay (counter .eq 2)) .fast := by
  have hrun : (Check.report? (relay (counter .eq 2))
      { Config.default with reportAllErrors := true } 1000).map
        (·.errors.map fun e => (e.id, e.property, e.depth)) =
      some [(1, "end_state_invariant", 6), (2, "end_state_invariant", 6)] := by
    decide +kernel
  obtain ⟨report, hreport, hfound⟩ := Option.map_eq_some_iff.1 hrun
  obtain ⟨s, s', hs, hperform⟩ := Check.report?_eq_some hreport
  exact ⟨report, hreport, hfound, (reported_violations_real hs hperform).2⟩

end Interleave
