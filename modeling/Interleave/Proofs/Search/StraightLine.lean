import Interleave.Proofs.Machine.Straight
import Interleave.Proofs.Program.Faithful
import Interleave.Proofs.Search.Expansion
import Interleave.Proofs.Search.Initial

set_option autoImplicit false

namespace Interleave

def Line (entry : MethodId) (size : Nat) (known : List State) : Prop :=
  ∀ (i : Nat) (s : State), known[i]? = some s → s.At entry size i

section Line

variable {p : Program} {m : Model} {entry : MethodId} {size i : Nat} {known : List State} {s : State}

theorem line_concat : Line entry size (known ++ [s]) ↔
    Line entry size known ∧ s.At entry size known.length := by
  simp only [Line]
  grind

theorem State.At.branching (hp : p.Straight entry size) (hs : s.At entry size i) (hi : i < size) :
    p.branching s = 1 := by
  cases hs with
  | ended => exact absurd hi (lt_irrefl _)
  | inside _ hthreads =>
    have hrunnable : s.runnable = [0] := by simp [State.runnable, hthreads, Thread.isRunnable]
    have hchoice : p.nextChoice? s 0 = none := by
      rw [Program.nextChoice?, State.topFrame?, hthreads]
      refine Option.bind_eq_none_iff.2 fun f hf => Option.bind_eq_none_iff.2 fun stmt hstmt => ?_
      cases hf
      have hstraight := hp.isStraight hstmt
      unfold Stmt.choice?
      split
      · next heq =>
        rw [heq] at hstraight
        cases hstraight
      · rfl
    simp [Program.branching, hrunnable, hchoice]

/-- All states but the last one are expanded, each by one move. -/
theorem Line.expandable (hp : p.Straight entry size) (h : Line entry size known) :
    (expandable known).length = min known.length size ∧
      ((expandable known).map p.branching).sum = min known.length size := by
  induction known using List.reverseRecOn with
  | nil => simp [Interleave.expandable]
  | append_singleton known s ih =>
    obtain ⟨h, hs⟩ := line_concat.1 h
    have hbefore := ih h
    have hle := hs.le
    unfold Interleave.expandable at hbefore ⊢
    cases hend : s.isEnd with
    | true =>
      have hsize := hs.isEnd_iff.1 hend
      simp [hend, hbefore, hsize]
    | false =>
      have hsize := mt hs.isEnd_iff.2 (Bool.eq_false_iff.1 hend)
      have hone := hs.branching hp (by omega)
      simp [hend, hbefore, hone]
      omega

theorem Line.meet (h : Line entry size known) (hs : s.At entry size known.length)
    (hpolicy : m.policy = ⟨.full, true⟩) (hkept : m.masks.filteredMethods[entry]? = some false)
    {f : Fingerprint} (hf : m.fingerprint s = .ok f) : m.meet known s = known ++ [s] := by
  refine if_neg ?_
  rintro ⟨t, ht, heq⟩
  obtain ⟨i, hi⟩ := List.getElem?_of_mem ht
  rw [hf] at heq
  rw [Model.fingerprint, hpolicy] at hf heq
  have hplace := (h i t hi).eq_of_fingerprint hkept hs heq hf
  exact absurd (List.getElem?_eq_some_iff.1 hi).1 hplace.not_lt

end Line

namespace Search.DepthFirst

/-- When no other states are known than those to which a move was made, no move is left. -/
theorem Census.not_forward {m : Model} {known : List State} {s : Search} {x : Explorer}
    (hs : Census m known false s)
    (hcount : ((expandable known).map m.program.branching).sum + 1 = known.length) :
    s.explorer.forward ≠ (.ok true, x) := by
  intro hforward
  obtain ⟨a, move, a', n, f, hstep⟩ := Explorer.forward_true hforward
  obtain ⟨owed, howes, hbalance⟩ := hs.balance
  obtain ⟨rest, rfl, _⟩ := howes.advances hs.steady hstep
  have hvisited := hbalance.visited
  have hmoves := hbalance.moves
  omega

/-- On the way down the current state is the last of the line; once the line is at its end, the
search is on its way back. -/
structure Follows (entry : MethodId) (size : Nat) (m : Model) (known : List State) (left : Bool)
    (s : Search) : Prop extends Census m known left s where
  straight : m.program.Straight entry size
  policy : m.policy = ⟨.full, true⟩
  unmasked : m.masks.filteredMethods[entry]? = some false
  properties : s.properties = Property.defaults
  line : Line entry size known
  down : s.session.isNew = true →
    s.explorer.state.At entry size s.explorer.depth ∧ known.length = s.explorer.depth + 1
  back : s.session.isNew = false → known.length = size + 1
  maxDepth : s.session.stats.maxDepth + 1 = known.length
  endStates : s.session.stats.endStates = known.length - size
  constraints : s.session.constraints = []

namespace Follows

variable {m : Model} {entry : MethodId} {size : Nat} {known : List State} {left : Bool}
  {s s' t : Search}

theorem keeps (hs : Follows entry size m known left s) (h : s.Keeps t) :
    Follows entry size m known left t := by
  cases t
  obtain ⟨rfl, rfl, rfl, rfl⟩ := h
  exact { hs with }

theorem length_of_leaf (hs : Follows entry size m known left s)
    (hleaf : isLeaf s s.session.ignored = true) : known.length = size + 1 := by
  rw [isLeaf_eq hs.config.depthLimit hs.kept] at hleaf
  cases hnew : s.session.isNew with
  | false => exact hs.back hnew
  | true =>
    obtain ⟨hstate, hlength⟩ := hs.down hnew
    rw [hnew] at hleaf
    rw [hlength, hstate.isEnd_iff.1 hleaf]

theorem returns (hs : Follows entry size m known true s) (hend : known.length = size + 1)
    (hback : s.explorer.backtrack? = some t.explorer) {depth : Nat} {tally : Tally}
    (h : s.Becomes t.explorer { s.session with
      depth, isNew := false, ignored := false, stats := s.session.stats.retally tally } t)
    (hcount : tally = { s.session.stats.tally with
      backtracked := s.session.stats.backtracked + 1 }) :
    Follows entry size m known false t := by
  have hcensus := hs.toCensus.back hback h hcount
  cases t
  obtain ⟨rfl, rfl, -, rfl⟩ := h
  exact { hcensus, hs with down := nofun, back := fun _ => hend }

section

variable (hs : Follows entry size m known false s)

include hs

theorem moved (hforward : s.explorer.forward = (.ok true, t.explorer))
    (h : s.Becomes t.explorer s.session t) (hbooked : t.Booked [] s') (hquiet : s'.session.Quiet) :
    Follows entry size m (m.meet known s'.explorer.state) (isLeaf s' s'.session.ignored) s' := by
  have hcensus := hs.toCensus.moved hforward h hbooked hquiet
  have hnew : s.session.isNew = true := by
    rw [← Bool.not_eq_false]
    intro hold
    refine hs.not_forward ?_ hforward
    rw [(hs.line.expandable hs.straight).2, hs.back hold]
    simp
  obtain ⟨hstate, hlength⟩ := hs.down hnew
  have hdepth : s.explorer.depth ≠ size :=
    mt hstate.isEnd_iff.2 (Bool.eq_false_iff.1 (hs.live _ List.mem_cons_self))
  obtain ⟨a, move, a', n, f, hstep⟩ := Explorer.forward_true hforward
  have hconfig : t.config.Exhaustive := h.config ▸ hs.config
  have hx := hbooked.untouched hconfig.memoryBudget
  have hholds := hbooked.holds_of_quiet (h.properties.trans hs.properties)
    (hbooked.before hquiet).2 hconfig.memoryBudget
  have htop : t.explorer.trail.top = n := by rw [hstep.trail]
  have hplace : t.explorer.state.At entry size known.length := by
    have hfault : n.fault = none := htop ▸ hholds.fault
    have hexecuted := hstep.executed
    rw [hs.steady.model, hfault, ← htop] at hexecuted
    rw [hlength]
    exact hstate.execute hs.straight hexecuted hholds.alive
  have hf : m.fingerprint t.explorer.state = .ok f := by
    rw [← hs.steady.model, Explorer.state, htop]
    exact hstep.fingerprint
  have hmeet := hs.line.meet hplace hs.policy hs.unmasked hf
  have hnew' : t.explorer.isNew = true := by
    have hadd := (hs.registers.add hs.steady.table hf hstep.added).1
    rw [hmeet] at hadd
    cases hold : t.explorer.isNew with
    | true => rfl
    | false => simp [hold] at hadd
  have hdepth' : t.explorer.depth = known.length := by
    rw [hlength, Explorer.depth, hstep.trail]
    rfl
  obtain ⟨errors, constraints, done, ignored, hsession⟩ := hbooked.session
  rw [hx, hmeet] at hcensus ⊢
  refine { hcensus with
    straight := hs.straight, policy := hs.policy, unmasked := hs.unmasked
    properties := hbooked.properties.trans (h.properties.trans hs.properties)
    line := line_concat.2 ⟨hs.line, hplace⟩, down := fun _ => ?_, back := ?_, maxDepth := ?_
    endStates := ?_, constraints := ?_ }
  · rw [hx, hdepth']
    exact ⟨hplace, List.length_append⟩
  · rw [hbooked.isNew]
    simp [Session.advance, hnew']
  · have hmax := hs.maxDepth
    rw [hsession, h.session]
    simp [Session.advance, hdepth']
    omega
  · have hle := hplace.le
    rw [hsession, h.session]
    simp [Session.advance, hs.endStates, Explorer.isEnd, hplace.isEnd_iff]
    split <;> omega
  · rw [hbooked.unlimited hconfig.memoryBudget hconfig.depthLimit, h.session]
    exact hs.constraints

theorem proceeds (h : Proceeds s s') (hquiet : s'.session.Quiet) :
    Follows entry size m (m.meet known s'.explorer.state) (isLeaf s' s'.session.ignored) s' := by
  have hcensus := hs.toCensus.proceeds h hquiet
  cases h with
  | moved hforward h hbooked => exact hs.moved hforward h hbooked hquiet
  | processed hforward h hcount =>
    have hold := hs.old_of_forward hforward
    rw [(hs.toCensus.processed hold hforward h hcount).meet_state] at hcensus ⊢
    cases s'
    obtain ⟨rfl, rfl, -, rfl⟩ := h
    exact { hcensus, hs with down := fun hnew => nomatch hold.symm.trans hnew }

end

theorem turns (hs : Follows entry size m known (isLeaf s s.session.ignored) s) {more : Bool}
    (h : Turns s more s') (hquiet : s'.session.Quiet) :
    (more = true →
        Follows entry size m (m.meet known s'.explorer.state) (isLeaf s' s'.session.ignored) s') ∧
      (more = false → Follows entry size m known true s' ∧ s'.explorer.trail.below = [] ∧
        known.length = size + 1) := by
  have hkeeps : { s.session with ignored := false } = s.session := by rw [← hs.kept]
  cases h with
  | stopped h => exact absurd hquiet (hs.not_stops h)
  | exhausted hleaf hbottom h =>
    have hend := hs.length_of_leaf hleaf
    have hbelow := ((hs.toCensus.turns (.exhausted hleaf hbottom h) hquiet).2 rfl).2
    rw [hleaf] at hs
    rw [hkeeps] at h
    exact ⟨nofun, fun _ => ⟨hs.keeps h, hbelow, hend⟩⟩
  | back hleaf hback h hproceeds _ hcount =>
    have hend := hs.length_of_leaf hleaf
    rw [hleaf] at hs
    exact ⟨fun _ => (hs.returns hend hback h hcount).proceeds hproceeds hquiet, nofun⟩
  | on hleaf h hproceeds =>
    rw [hleaf] at hs
    rw [hkeeps] at h
    exact ⟨fun _ => (hs.keeps h).proceeds hproceeds hquiet, nofun⟩

end Follows

section Runs

variable {p : Program} {entry : MethodId} {size : Nat} {s s' t : Search}
  (hp : p.Straight entry size) (hsound : p.Sound) (hsize : 0 < size) (hs : s.Fresh p .default)

include hp hsound hsize hs

theorem Follows.starts (h : s.Becomes s.explorer (.start s.explorer) t) :
    Follows entry size s.explorer.model (s.explorer.model.meet [] t.explorer.state)
      (isLeaf t t.session.ignored) t := by
  obtain ⟨s₀, f, hstarts⟩ := hs.start.starts
  obtain ⟨m, hm, _, hfiltered, _⟩ := hp.method
  have hcensus := Census.starts hs.start hs.config ⟨rfl, rfl, rfl, rfl, rfl⟩ h
  have hplace : s.explorer.state.At entry size 0 := by
    rw [Explorer.state, hstarts.state]
    exact hp.initial hstarts.initial (p.initialState_not_deadlocked hsound hstarts.initial)
  have hline : Line entry size ([] ++ [s.explorer.state]) :=
    line_concat.2 ⟨by simp [Line], hplace⟩
  have hdepth : s.explorer.depth = 0 := congrArg List.length hstarts.below
  have hmeet : s.explorer.model.meet [] s.explorer.state = [s.explorer.state] := by
    simp [Model.meet]
  rw [h.explorer, hmeet] at hcensus ⊢
  refine { hcensus with
    straight := ?_, policy := ?_, unmasked := ?_, properties := h.properties.trans hs.properties
    line := hline, down := fun _ => ?_, back := ?_, maxDepth := ?_
    endStates := ?_, constraints := ?_ }
  · rw [hstarts.model]
    exact hp
  · rw [hstarts.model]
    rfl
  · rw [Masks.ofProgram_eq hstarts.masks]
    simp [hm, hfiltered, Config.filter, Config.default]
  · rw [h.explorer, hdepth]
    exact ⟨hplace, rfl⟩
  all_goals rw [h.session]
  · intro hold
    cases hold
  · rfl
  · exact (Nat.sub_eq_zero_of_le hsize).symm
  · rfl

theorem run_straight {fuel : Nat} {report : Report} (h : Does (run fuel) s (some report) s')
    (herrors : report.errors = []) (hterminated : report.terminated = false) :
    report.isPass = true ∧
      report.stats.states = some (size + 1) ∧ report.stats.transitions = some size ∧
      report.stats.endStates = 1 ∧ report.stats.maxDepth = size ∧
      report.stats.backtracked = size ∧ report.stats.processed = size := by
  obtain ⟨t, ht, rfl, -⟩ := run_gathers
    (I := fun known t => t.session.Quiet →
      Follows entry size s.explorer.model known (isLeaf t t.session.ignored) t)
    (J := fun known t => t.session.Quiet → Follows entry size s.explorer.model known true t ∧
      t.explorer.trail.below = [] ∧ known.length = size + 1)
    (hs.config ▸ rfl) (fun hbecomes _ => .starts hp hsound hsize hs hbecomes)
    (fun hfollows hturn => by
      refine ⟨fun hmore hquiet => ?_, fun hmore hquiet => ?_⟩
      · exact ((hfollows (hturn.quiet hquiet)).turns hturn hquiet).1 hmore
      · exact ((hfollows (hturn.quiet hquiet)).turns hturn hquiet).2 hmore) h
  obtain ⟨hfollows, hbelow, hlength⟩ := ht ⟨herrors, hterminated⟩
  obtain ⟨hexpanded, hsum⟩ := hfollows.line.expandable hfollows.straight
  obtain ⟨hstates, htransitions, -, hprocessed, hmoves⟩ := hfollows.counted hbelow
  have hmax := hfollows.maxDepth
  have hends := hfollows.endStates
  simp only [hlength, Nat.add_zero, Nat.le_succ, min_eq_right] at *
  rw [hsum] at hmoves
  rw [hmoves] at htransitions
  refine ⟨?_, hstates, htransitions, hends.trans (by omega), Nat.succ.inj hmax, hmoves,
    hprocessed.trans hexpanded⟩
  unfold Report.isPass
  rw [herrors, hterminated]
  simpa [Report.ofSession] using hfollows.constraints

end Runs

end Search.DepthFirst

def Tree.Stmt.isStraight : Tree.Stmt → Bool
  | .assign _ (.choose _ _) | .ifGoto _ _ | .goto _ | .call _ | .return => false
  | _ => true

theorem Scope.DenotesStmt.isStraight {scope : Scope} {body : Tree.Body} {locals : List String}
    {stmt : Tree.Stmt} {stmt' : Stmt} (h : scope.DenotesStmt body locals stmt stmt')
    (hstraight : stmt.isStraight = true) : stmt'.isStraight = true := by
  cases h with
  | assign _ hv =>
    cases hv with
    | choose => cases hstraight
    | expr | new | newIntArray | newRefArray | newSet | newBag => rfl
  | insert | remove | lock | unlock | assert | yield => rfl
  | ifGoto | goto | call | «return» => cases hstraight

theorem threadDecls_eq_singleton {bodies : List Tree.Body} {body : Tree.Body}
    (h : bodies.filter (·.kind = .thread) = [body]) :
    ∃ entry, bodies[entry]? = some body ∧ threadDecls bodies = [⟨body.name.value, entry⟩] := by
  have hmap : (bodies.zipIdx.filter fun x => x.1.kind = .thread).map Prod.fst = [body] := by
    rw [← h]
    conv => rhs; rw [← List.zipIdx_map_fst 0 bodies, List.filter_map]
    rfl
  obtain ⟨⟨b, entry⟩, hfilter, rfl⟩ := List.map_eq_singleton_iff.1 hmap
  have hmem : (b, entry) ∈ bodies.zipIdx := List.mem_of_mem_filter (hfilter ▸ List.mem_singleton_self _)
  refine ⟨entry, List.mem_zipIdx_iff_getElem?.1 hmem, ?_⟩
  unfold threadDecls
  have hdecls := congrArg (List.filterMap fun x : Tree.Body × Nat =>
    some (ThreadDecl.mk x.1.name.value x.2)) hfilter
  rw [List.filterMap_filter] at hdecls
  simpa using hdecls

theorem Program.Denotes.straight {tree : Tree.Program} {p : Program} {body : Tree.Body}
    (h : p.Denotes tree) (hshaped : tree.isShaped = true)
    (hbody : tree.bodies.filter (·.kind = .thread) = [body])
    (hstraight : ∀ stmt ∈ body.statements, stmt.value.isStraight = true) :
    ∃ entry, p.Straight entry body.statements.length := by
  obtain ⟨entry, hentry, hthreads⟩ := threadDecls_eq_singleton hbody
  have hrel := forall₂_getElem? h.methods entry
  rw [hentry] at hrel
  cases hm : p.methods[entry]? with
  | none => rw [hm] at hrel; cases hrel
  | some m =>
    rw [hm, Option.rel_some_some] at hrel
    refine ⟨entry, ⟨_, h.threads.trans hthreads⟩, m, hm, hrel.statements.length_eq.symm, ?_, ?_⟩
    · have hkind : body.kind = .thread := by
        have hmem := hbody ▸ List.mem_singleton_self body
        exact of_decide_eq_true (List.mem_filter.1 hmem).2
      have hbodyShaped :=
        (Tree.Program.isShaped_iff.1 hshaped).2 body (List.mem_of_getElem? hentry)
      obtain ⟨-, hunmarked⟩ : _ ∧ body.filtered = false := by
        simpa [Tree.Body.isShaped, hkind] using hbodyShaped
      rw [hrel.filtered, hunmarked]
    · intro stmt hstmt
      obtain ⟨source, hsource, _, hdenotes⟩ := forall₂_exists hrel.statements.flip hstmt
      exact hdenotes.isStraight (hstraight source hsource)

/-- A program with a single thread, whose body is a list of statements without jumps, calls and
choices, has one state for each of them and one more. A run that finds no error and that nobody
stops takes one step for each statement, and goes back by each of them. -/
theorem straight_line_counted {source path : String} {p : Program}
    (hp : Program.ofSource source path = .ok p) {tree : Tree.Program} (htree : tree.Reads source)
    {body : Tree.Body} (hbody : tree.bodies.filter (·.kind = .thread) = [body])
    (hsome : 1 ≤ body.statements.length)
    (hstraight : ∀ stmt ∈ body.statements, stmt.value.isStraight = true) {s s' : Search}
    (hs : s.Fresh p .default) {fuel : Nat} {report : Report}
    (h : s.perform (Search.run fuel) = (.ok (some report), s')) (herrors : report.errors = [])
    (hterminated : report.terminated = false) :
    report.isPass = true ∧
      report.stats.states = some (body.statements.length + 1) ∧
      report.stats.transitions = some body.statements.length ∧
      report.stats.endStates = 1 ∧ report.stats.maxDepth = body.statements.length ∧
      report.stats.backtracked = body.statements.length ∧
      report.stats.processed = body.statements.length := by
  obtain ⟨tree', ⟨tokens', htokens', htree'⟩, hdenotes⟩ := ofSource_eq_ok hp
  obtain ⟨tokens, htokens, htree⟩ := htree
  obtain rfl := Except.ok.inj (htokens.symm.trans htokens')
  obtain rfl := Except.ok.inj (htree.symm.trans htree')
  obtain ⟨entry, hentry⟩ := hdenotes.straight (Tree.read_shaped htree) hbody hstraight
  exact Search.DepthFirst.run_straight hentry (ofSource_sound hp) hsome hs h herrors hterminated

/-- A thread that locks a class twice, counts up a static, and unlocks the class again. -/
def drillSource : String :=
  "static int n = 0\nthread t \x7b\n lock Main\n lock Main\n n = n + 1\n assert n == 1\n" ++
  " unlock Main\n unlock Main\n\x7d\n"

theorem drill_counted : ∃ (p : Program) (s s' : Search) (report : Report),
    Program.ofSource drillSource "drill" = .ok p ∧ s.Fresh p .default ∧
    s.perform (Search.run 100) = (.ok (some report), s') ∧ report.isPass = true ∧
    report.stats.states = some 7 ∧ report.stats.transitions = some 6 ∧
    report.stats.endStates = 1 ∧ report.stats.maxDepth = 6 ∧ report.stats.backtracked = 6 ∧
    report.stats.processed = 6 := by
  have hdrill : (do
      let tree ← Tree.read (← Token.scan drillSource)
      let p ← Program.ofSource drillSource "drill"
      return (Check.report? p .default 100).any fun report =>
        report.errors.isEmpty && !report.terminated &&
        ((tree.bodies.filter (·.kind = .thread)).map fun body =>
          (body.statements.length, body.statements.all (·.value.isStraight))) = [(6, true)] :
      Except SourceError Bool) = .ok true := by
    decide +kernel
  obtain ⟨tokens, htokens, hdrill⟩ := bind_eq_ok.1 hdrill
  obtain ⟨tree, htree, hdrill⟩ := bind_eq_ok.1 hdrill
  obtain ⟨p, hp, hdrill⟩ := bind_eq_ok.1 hdrill
  obtain ⟨report, hreport, hdrill⟩ := (Option.any_eq_true _ _).1 (Except.ok.inj hdrill)
  simp only [Bool.and_eq_true, Bool.not_eq_true', List.isEmpty_iff, decide_eq_true_eq] at hdrill
  obtain ⟨⟨herrors, hterminated⟩, hdrill⟩ := hdrill
  obtain ⟨body, hbody, hshape⟩ := List.map_eq_singleton_iff.1 hdrill
  obtain ⟨hlength, hstraight⟩ := Prod.mk.inj hshape
  obtain ⟨s, s', hs, hperform⟩ := Check.report?_eq_some hreport
  have hcounted := straight_line_counted hp ⟨tokens, htokens, htree⟩ hbody
    (by rw [hlength]; decide) (List.all_eq_true.1 hstraight) hs hperform herrors hterminated
  rw [hlength] at hcounted
  exact ⟨p, s, s', report, hp, hs, hperform, hcounted⟩

end Interleave
