import Interleave.Proofs.Explore.Enumeration
import Interleave.Proofs.Search.Agreement

set_option autoImplicit false

/-! Of the states with one fingerprint, depth-first search expands the first one that it meets and
no other: it leaves it by each of its moves, once, and comes back from each of them. -/

namespace Interleave

/-- Depth first, with a table that mistakes no fingerprint for another and without anything that
cuts the search short or makes it expand a state again. -/
structure Config.Exhaustive (c : Config) : Prop where
  strategy : c.strategy = .dfs
  stateSet : c.stateSet = .exact
  depthLimit : c.depthLimit = none
  matchDepth : c.matchDepth = false
  memoryBudget : c.memoryBudget = none

/-- The number of moves of a state: one for each runnable thread, or the number of integers when the
next statement of the thread chooses one. -/
def Program.branching (p : Program) (s : State) : Nat :=
  (s.runnable.map fun t =>
    match p.nextChoice? s t with
    | some (min, max) => (max.toInt + 1 - min.toInt).toNat
    | none => 1).sum

theorem Program.length_moves (p : Program) (s : State) : (p.moves s).length = p.branching s := by
  unfold Program.moves Program.branching
  rw [List.length_flatMap]
  congr 1
  apply List.map_congr_left
  intro t _
  unfold Program.movesOf
  cases p.nextChoice? s t with
  | none => rfl
  | some range => simp [integersBetween]

inductive Owes (p : Program) : List Node → Nat → Prop where
  | nil : Owes p [] 0
  | cons {n : Node} {nodes : List Node} {moves : List (ThreadId × Option Int64)} {owed : Nat}
      (hlists : Agenda.Lists p n.state n.agenda moves) (h : Owes p nodes owed) :
      Owes p (n :: nodes) (moves.length + owed)

section Owes

variable {p : Program} {x x' : Explorer} {nodes : List Node} {owed : Nat}

theorem Owes.fresh {n : Node} (hn : n.agenda = Agenda.ofState n.state) (h : Owes p nodes owed) :
    Owes p (n :: nodes) (p.branching n.state + owed) := by
  rw [← p.length_moves]
  refine .cons ?_ h
  rw [hn]
  exact Agenda.lists_ofState p n.state

theorem Owes.advances {m : Model} (hx : x.Steady m) {a a' : Agenda} {move : Move} {n : Node}
    {f : Fingerprint} (hstep : x.Advances a move a' n f x')
    (h : Owes m.program x.trail.chain owed) :
    ∃ rest, owed = rest + 1 ∧ Owes m.program x'.trail.below rest := by
  have htakes := hstep.takes
  rw [hx.model, hx.unshuffled] at htakes
  rw [hstep.trail]
  cases h with
  | @cons _ _ _ owed hlists h =>
    rw [hstep.agenda] at hlists
    obtain ⟨rest, rfl, hrest⟩ := htakes.lists hlists
    refine ⟨rest.length + owed, ?_, .cons hrest h⟩
    rw [List.length_cons]
    omega

theorem Owes.drop {n : Node} (h : Owes p (n :: nodes) owed)
    (hnone : ∀ a, n.agenda = some a → ∀ t data, ¬ a.Pending t data) : Owes p nodes owed := by
  cases h with
  | @cons _ _ moves owed hlists h =>
    cases moves with
    | nil =>
      rw [List.length_nil, Nat.zero_add]
      exact h
    | cons move rest =>
      generalize hagenda : n.agenda = agenda at hlists
      cases agenda with
      | none => cases hlists
      | some a =>
        obtain ⟨t, data, hpending⟩ := hlists.pending
        exact absurd hpending (hnone a hagenda t data)

end Owes

namespace Model

def meet (m : Model) (known : List State) (s : State) : List State :=
  if ∃ t ∈ known, m.fingerprint t = m.fingerprint s then known else known ++ [s]

def firstMet (m : Model) (met : List State) : List State := met.foldl m.meet []

structure Registers (m : Model) (known : List State) (table : StateTable) : Prop where
  holds : ∀ f, table.Holds f ↔ ∃ t ∈ known, m.fingerprint t = .ok f
  size : table.size = known.length

variable {m : Model} {known : List State} {table table' : StateTable} {s : State} {f : Fingerprint}

theorem fingerprint_meet {r : Except MaskError Fingerprint} :
    (∃ t ∈ m.meet known s, m.fingerprint t = r) ↔
      (∃ t ∈ known, m.fingerprint t = r) ∨ m.fingerprint s = r := by
  unfold meet
  split
  · next hmet =>
    refine ⟨.inl, ?_⟩
    rintro (hknown | rfl)
    · exact hknown
    · exact hmet
  · simp [or_and_right, exists_or]

theorem fingerprint_foldl_meet {met : List State} {r : Except MaskError Fingerprint} :
    (∃ t ∈ met.foldl m.meet known, m.fingerprint t = r) ↔
      (∃ t ∈ known, m.fingerprint t = r) ∨ ∃ t ∈ met, m.fingerprint t = r := by
  induction met generalizing known with
  | nil => simp
  | cons s rest ih =>
    rw [List.foldl_cons, ih, fingerprint_meet, or_assoc]
    simp

theorem fingerprint_firstMet {met : List State} {r : Except MaskError Fingerprint} :
    (∃ t ∈ m.firstMet met, m.fingerprint t = r) ↔ ∃ t ∈ met, m.fingerprint t = r := by
  rw [firstMet, fingerprint_foldl_meet]
  simp

namespace Registers

theorem empty (m : Model) (kind : TableKind) : m.Registers [] (.empty kind) := by
  refine ⟨fun f => ?_, StateTable.size_empty kind⟩
  simp [StateTable.Holds, StateTable.number?_empty]

theorem meet_of_holds (h : m.Registers known table) (hf : m.fingerprint s = .ok f)
    (hholds : table.Holds f) : m.meet known s = known := by
  unfold meet
  rw [hf]
  exact if_pos ((h.holds f).1 hholds)

theorem add (h : m.Registers known table) (hdistinct : table.Distinct)
    (hf : m.fingerprint s = .ok f) {id : StateId} {isNew : Bool}
    (hadd : table.add f = (id, isNew, table')) :
    m.meet known s = known ++ (if isNew then [s] else []) ∧
      m.Registers (m.meet known s) table' := by
  have hextends := (hdistinct.add hadd).2
  have hsame : m.meet known s = known ++ (if isNew then [s] else []) := by
    cases isNew with
    | false =>
      rw [h.meet_of_holds hf ⟨id, hextends.old rfl⟩]
      simp
    | true =>
      have hfresh : ¬ ∃ t ∈ known, m.fingerprint t = .ok f := by
        rw [← h.holds]
        rintro ⟨i, hi⟩
        cases hi.symm.trans (hextends.fresh rfl)
      unfold meet
      rw [hf, if_neg hfresh, if_pos rfl]
  refine ⟨hsame, fun g => ?_, ?_⟩
  · rw [fingerprint_meet, ← h.holds, hf]
    constructor
    · rintro ⟨i, hi⟩
      rcases hextends.only g i hi with hold | rfl
      · exact .inl ⟨i, hold⟩
      · exact .inr rfl
    · rintro (⟨i, hi⟩ | heq)
      · exact ⟨i, hextends.kept g i hi⟩
      · cases heq
        exact ⟨id, hextends.number⟩
  · rw [hsame, StateTable.size_add hadd, h.size, List.length_append]
    cases isNew <;> rfl

theorem ncard (h : m.Registers known table) (hdistinct : table.Distinct) :
    { f | ∃ t ∈ known, m.fingerprint t = .ok f }.ncard = known.length := by
  rw [← h.size, ← hdistinct.ncard_holds.2]
  congr 1
  ext f
  exact (h.holds f).symm

end Registers

end Model

def expandable (known : List State) : List State := known.filter fun s => !s.isEnd

/-- The counters of a search that stands at some depth and has met some states first, when `pending`
of those that can be expanded are not done with and `owed` moves are left. -/
structure Stats.Balances (p : Program) (known : List State) (depth pending owed : Nat) (b : Stats) :
    Prop where
  states : b.states = some known.length
  transitions : b.transitions = some (b.backtracked + depth)
  visited : b.visitedStates + known.length = b.backtracked + depth + 1
  processed : b.processed + pending = (expandable known).length
  moves : b.backtracked + depth + owed = ((expandable known).map p.branching).sum

namespace Stats.Balances

variable {p : Program} {known : List State} {depth pending owed : Nat} {b : Stats}

theorem start (p : Program) (x : Explorer) :
    (Session.start x).stats.Balances p [x.state] 0 (if x.isEnd then 0 else 1)
      (if x.isEnd then 0 else p.branching x.state) := by
  unfold Explorer.isEnd
  refine ⟨rfl, rfl, rfl, ?_, ?_⟩
  all_goals
    cases hend : x.state.isEnd
    all_goals simp [Session.start, Session.empty, Stats.empty, expandable, hend]

theorem back (h : b.Balances p known (depth + 1) pending owed) :
    (b.retally { b.tally with backtracked := b.backtracked + 1 }).Balances p known depth pending
      owed := by
  obtain ⟨hstates, htransitions, hvisited, hprocessed, hmoves⟩ := h
  refine ⟨hstates, ?_, ?_, hprocessed, ?_⟩
  · simp only [retally, htransitions, Option.some.injEq]
    omega
  · simp only [retally]
    omega
  · simp only [retally]
    omega

theorem done (h : b.Balances p known depth (pending + 1) owed) :
    (b.retally { b.tally with processed := b.processed + 1 }).Balances p known depth pending
      owed := by
  refine ⟨h.states, h.transitions, h.visited, ?_, h.moves⟩
  have hprocessed := h.processed
  simp only [retally]
  omega

/-- A step pays for one of the moves. A state that is met first and can be expanded is pending, and
owes its own. -/
theorem advance {session : Session} {x : Explorer}
    (h : session.stats.Balances p known depth pending (owed + 1)) (hdepth : x.depth = depth + 1) :
    (session.advance x false).stats.Balances p (known ++ if x.isNew then [x.state] else []) x.depth
      (if !x.isNew || x.isEnd then pending else pending + 1)
      (if !x.isNew || x.isEnd then owed else p.branching x.state + owed) := by
  obtain ⟨hstates, htransitions, hvisited, hprocessed, hmoves⟩ := h
  unfold expandable at hprocessed hmoves
  unfold Explorer.isEnd
  cases hnew : x.isNew with
  | false =>
    refine ⟨?_, ?_, ?_, ?_, ?_⟩
    all_goals simp [Session.advance, expandable, hnew, hstates, htransitions, hdepth]
    all_goals omega
  | true =>
    -- an end state is met first as well, but there is nothing to expand
    cases hend : x.state.isEnd
    all_goals
      refine ⟨?_, ?_, ?_, ?_, ?_⟩
      all_goals simp [Session.advance, expandable, hnew, hend, hstates, htransitions, hdepth]
      all_goals omega

end Stats.Balances

def Trail.unfinished (t : Trail) (left : Bool) : List Node := if left then t.below else t.chain

def Explorer.Recorded (m : Model) (x : Explorer) : Prop :=
  ∀ n ∈ x.trail.chain, ∃ f, m.fingerprint n.state = .ok f ∧ x.table.Holds f

section Recorded

variable {m : Model} {x x' : Explorer}

theorem Explorer.Recorded.setAgenda (hx : x.Recorded m) (agenda : Option Agenda) :
    (x.setAgenda agenda).Recorded m := by
  rintro n (_ | ⟨_, hn⟩)
  · exact hx x.trail.top List.mem_cons_self
  · exact hx n (List.mem_cons_of_mem _ hn)

theorem Explorer.Recorded.backtrack? (hx : x.Recorded m) (h : x.backtrack? = some x') :
    x'.Recorded m := by
  obtain ⟨hchain, htable⟩ := Explorer.chain_of_backtrack? h
  unfold Explorer.Recorded
  rw [hchain, htable]
  exact fun n hn => hx n (List.mem_cons_of_mem _ hn)

theorem Explorer.Recorded.advances (hx : x.Recorded m) (hsteady : x.Steady m) {a a' : Agenda}
    {move : Move} {n : Node} {f : Fingerprint} (h : x.Advances a move a' n f x') :
    x'.Recorded m := by
  have hextends := (hsteady.table.add h.added).2
  have hfingerprint := h.fingerprint
  rw [hsteady.model] at hfingerprint
  unfold Explorer.Recorded
  rw [h.trail]
  rintro k (_ | ⟨_, hk⟩)
  · exact ⟨f, hfingerprint, _, hextends.number⟩
  · obtain ⟨g, hg, id, hid⟩ := hx.setAgenda (some a') k hk
    exact ⟨g, hg, id, hextends.kept g id hid⟩

end Recorded

namespace Search.DepthFirst

structure Census (m : Model) (known : List State) (left : Bool) (s : Search) : Prop where
  config : s.config.Exhaustive
  steady : s.explorer.Steady m
  running : s.session.done = false
  kept : s.session.ignored = false
  registers : m.Registers known s.explorer.table
  recorded : s.explorer.Recorded m
  fresh : s.session.isNew = true →
    s.explorer.trail.top.agenda = Agenda.ofState s.explorer.trail.top.state
  live : ∀ n ∈ s.explorer.trail.unfinished left, n.state.isEnd = false
  balance : ∃ owed, Owes m.program (s.explorer.trail.unfinished left) owed ∧
    s.session.stats.Balances m.program known s.explorer.depth
      (s.explorer.trail.unfinished left).length owed

variable {m : Model} {known : List State} {left : Bool} {s s' t : Search}

theorem isLeaf_eq (hlimit : s.config.depthLimit = none) (hkept : s.session.ignored = false) :
    isLeaf s s.session.ignored = (!s.session.isNew || s.explorer.isEnd) := by
  simp [isLeaf, depthLimitReached, hlimit, hkept]

namespace Census

theorem meet_state (hs : Census m known left s) : m.meet known s.explorer.state = known := by
  obtain ⟨f, hf, hholds⟩ := hs.recorded _ List.mem_cons_self
  exact hs.registers.meet_of_holds hf hholds

section Step

variable {a a' : Agenda} {move : Move} {n : Node} {f : Fingerprint}

theorem live_advances (hs : Census m known false s)
    (hstep : s.explorer.Advances a move a' n f t.explorer) :
    ∀ k ∈ t.explorer.trail.unfinished (!t.explorer.isNew || t.explorer.isEnd),
      k.state.isEnd = false := by
  have hbelow : ∀ k ∈ t.explorer.trail.below, k.state.isEnd = false := by
    rw [hstep.trail]
    rintro k (_ | ⟨_, hk⟩)
    · exact hs.live s.explorer.trail.top List.mem_cons_self
    · exact hs.live k (List.mem_cons_of_mem _ hk)
  unfold Trail.unfinished
  split
  · exact hbelow
  · next hopen =>
    simp only [Bool.or_eq_true, not_or, Bool.not_eq_true] at hopen
    rintro k (_ | ⟨_, hk⟩)
    · exact hopen.2
    · exact hbelow k hk

theorem balance_advances (hs : Census m known false s)
    (hstep : s.explorer.Advances a move a' n f t.explorer) :
    ∃ owed, Owes m.program
        (t.explorer.trail.unfinished (!t.explorer.isNew || t.explorer.isEnd)) owed ∧
      (s.session.advance t.explorer false).stats.Balances m.program
        (known ++ if t.explorer.isNew then [t.explorer.state] else []) t.explorer.depth
        (t.explorer.trail.unfinished (!t.explorer.isNew || t.explorer.isEnd)).length owed := by
  obtain ⟨_, hbefore, hbalance⟩ := hs.balance
  obtain ⟨owed, rfl, howes⟩ := hbefore.advances hs.steady hstep
  have hdepth : t.explorer.trail.below.length = s.explorer.depth + 1 := by
    rw [hstep.trail]
    rfl
  have hfresh : t.explorer.trail.top.agenda = Agenda.ofState t.explorer.trail.top.state := by
    rw [hstep.trail]
    exact hstep.fresh
  have hbalance' := hbalance.advance (x := t.explorer) hdepth
  unfold Trail.unfinished
  split
  · next hclosed =>
    rw [if_pos hclosed, if_pos hclosed] at hbalance'
    rw [hdepth]
    exact ⟨owed, howes, hbalance'⟩
  · next hopen =>
    rw [if_neg hopen, if_neg hopen] at hbalance'
    refine ⟨_, howes.fresh hfresh, ?_⟩
    rw [Trail.chain, List.length_cons, hdepth]
    exact hbalance'

end Step

section

variable (hs : Census m known false s)

include hs

theorem moved (hforward : s.explorer.forward = (.ok true, t.explorer))
    (h : s.Becomes t.explorer s.session t) (hbooked : t.Booked [] s') (hquiet : s'.session.Quiet) :
    Census m (m.meet known s'.explorer.state) (isLeaf s' s'.session.ignored) s' := by
  obtain ⟨a, move, a', n, f, hstep⟩ := Explorer.forward_true hforward
  have hconfig : t.config.Exhaustive := h.config ▸ hs.config
  have hconfig' : s'.config.Exhaustive := hbooked.config ▸ hconfig
  obtain ⟨hdone, hignored, _⟩ :=
    hbooked.quiet (hbooked.before hquiet).2 hconfig.memoryBudget
  rw [h.session, hs.running] at hdone
  rw [h.session, hs.kept] at hignored
  have hx := hbooked.untouched hconfig.memoryBudget
  have hnew : s'.session.isNew = t.explorer.isNew := by
    rw [hbooked.isNew, hconfig.matchDepth]
    simp [Session.advance]
  have htop : t.explorer.trail.top = n := by rw [hstep.trail]
  have hfingerprint : m.fingerprint t.explorer.state = .ok f := by
    rw [← hs.steady.model, Explorer.state, htop]
    exact hstep.fingerprint
  obtain ⟨hmeet, hregisters⟩ := hs.registers.add hs.steady.table hfingerprint hstep.added
  obtain ⟨errors, constraints, done, ignored, hsession⟩ := hbooked.session
  rw [hconfig.matchDepth, h.session] at hsession
  rw [isLeaf_eq hconfig'.depthLimit hignored, hnew, hx]
  refine ⟨hconfig', hx ▸ hs.steady.advances hstep, hdone, hignored, hx ▸ hregisters,
    hx ▸ hs.recorded.advances hs.steady hstep, fun _ => ?_, ?_, ?_⟩
  · rw [hx, htop]
    exact hstep.fresh
  · rw [hx]
    exact hs.live_advances hstep
  · rw [hx, hsession, hmeet]
    exact hs.balance_advances hstep

theorem processed (hold : s.session.isNew = false) {tally : Tally}
    (hforward : s.explorer.forward = (.ok false, s'.explorer))
    (h : s.Becomes s'.explorer { s.session with stats := s.session.stats.retally tally } s')
    (hcount : tally = { s.session.stats.tally with processed := s.session.stats.processed + 1 }) :
    Census m known true s' := by
  obtain ⟨agenda, hx, hnone, _⟩ := Explorer.decide_none (Explorer.forward_false hforward)
  cases s'
  obtain ⟨rfl, rfl, -, rfl⟩ := h
  obtain rfl : _ = _ := hx
  obtain ⟨owed, howes, hbalance⟩ := hs.balance
  refine ⟨hs.config, hs.steady.setAgenda agenda, hs.running, hs.kept, hs.registers,
    hs.recorded.setAgenda agenda, ?_, fun k hk => hs.live k (List.mem_cons_of_mem _ hk), owed,
    howes.drop hnone, hcount ▸ hbalance.done⟩
  rw [hold]
  exact nofun

theorem old_of_forward {x : Explorer} (hforward : s.explorer.forward = (.ok false, x)) :
    s.session.isNew = false := by
  rw [← Bool.not_eq_true]
  intro hnew
  obtain ⟨_, _, hnone, _⟩ := Explorer.decide_none (Explorer.forward_false hforward)
  obtain ⟨a, ha, t, data, hpending⟩ :=
    Agenda.pending_ofState (hs.live s.explorer.trail.top List.mem_cons_self)
  exact hnone a ((hs.fresh hnew).trans ha) t data hpending

theorem proceeds (h : Proceeds s s') (hquiet : s'.session.Quiet) :
    Census m (m.meet known s'.explorer.state) (isLeaf s' s'.session.ignored) s' := by
  cases h with
  | moved hforward h hbooked => exact hs.moved hforward h hbooked hquiet
  | processed hforward h hcount =>
    have hold := hs.old_of_forward hforward
    have hs' := hs.processed hold hforward h hcount
    have hold' : s'.session.isNew = false := by rw [h.session]; exact hold
    rw [hs'.meet_state, isLeaf_eq hs'.config.depthLimit hs'.kept, hold']
    exact hs'

end

theorem keeps (hs : Census m known left s) (h : s.Keeps s') : Census m known left s' := by
  cases s'
  obtain ⟨rfl, rfl, rfl, rfl⟩ := h
  exact { hs with }

theorem back (hs : Census m known true s) (hback : s.explorer.backtrack? = some t.explorer)
    {depth : Nat} {tally : Tally}
    (h : s.Becomes t.explorer { s.session with
      depth, isNew := false, ignored := false, stats := s.session.stats.retally tally } t)
    (hcount : tally = { s.session.stats.tally with
      backtracked := s.session.stats.backtracked + 1 }) : Census m known false t := by
  obtain ⟨hchain, htable⟩ := Explorer.chain_of_backtrack? hback
  have hnodes : t.explorer.trail.unfinished false = s.explorer.trail.unfinished true := hchain
  have hdepth := (Explorer.depth_of_backtrack? hback).symm
  cases t
  obtain ⟨rfl, rfl, -, rfl⟩ := h
  obtain ⟨owed, howes, hbalance⟩ := hs.balance
  rw [hdepth] at hbalance
  refine ⟨hs.config, hs.steady.backtrack? hback, hs.running, rfl, htable ▸ hs.registers,
    hs.recorded.backtrack? hback, nofun, hnodes ▸ hs.live, owed, ?_⟩
  rw [hcount, hnodes]
  exact ⟨howes, hbalance.back⟩

theorem not_stops (hs : Census m known left s) (h : s.Stops s') : ¬ s'.session.Quiet := by
  intro hquiet
  obtain ⟨b, hbecomes, _, hended, _⟩ := h
  rw [hbecomes.session] at hquiet
  obtain ⟨_, hdone⟩ := hended hquiet.terminated
  cases hdone.symm.trans hs.running

/-- Back where it started, the search has nothing left to do. -/
theorem counted (hs : Census m known true s) (hbelow : s.explorer.trail.below = []) :
    s.session.stats.Balances m.program known 0 0 0 := by
  obtain ⟨owed, howes, hbalance⟩ := hs.balance
  rw [Explorer.depth, Trail.depth, Trail.unfinished, if_pos rfl, hbelow] at hbalance
  rw [Trail.unfinished, if_pos rfl, hbelow] at howes
  cases howes
  exact hbalance

/-- A turn expands the current state, or goes back from it and expands the one before. When that
cannot be, nothing is left. -/
theorem turns (hs : Census m known (isLeaf s s.session.ignored) s) {more : Bool}
    (h : Turns s more s') (hquiet : s'.session.Quiet) :
    (more = true →
        Census m (m.meet known s'.explorer.state) (isLeaf s' s'.session.ignored) s') ∧
      (more = false → Census m known true s' ∧ s'.explorer.trail.below = []) := by
  have hkeeps : { s.session with ignored := false } = s.session := by rw [← hs.kept]
  cases h with
  | stopped h => exact absurd hquiet (hs.not_stops h)
  | exhausted hleaf hbottom h =>
    rw [hleaf] at hs
    rw [hkeeps] at h
    refine ⟨nofun, fun _ => ⟨hs.keeps h, ?_⟩⟩
    rw [h.explorer]
    exact Explorer.below_of_backtrack?_none hbottom
  | back hleaf hback h hproceeds _ hcount =>
    rw [hleaf] at hs
    exact ⟨fun _ => (hs.back hback h hcount).proceeds hproceeds hquiet, nofun⟩
  | on hleaf h hproceeds =>
    rw [hleaf] at hs
    rw [hkeeps] at h
    exact ⟨fun _ => (hs.keeps h).proceeds hproceeds hquiet, nofun⟩

end Census

theorem Proceeds.quiet (h : Proceeds s s') (hquiet : s'.session.Quiet) : s.session.Quiet := by
  cases h with
  | moved _ h hbooked => exact h.quiet ⟨rfl, rfl, rfl⟩ (hbooked.before hquiet).1
  | processed _ h => exact h.quiet ⟨rfl, rfl, rfl⟩ hquiet

theorem Turns.quiet {more : Bool} (h : Turns s more s') (hquiet : s'.session.Quiet) :
    s.session.Quiet := by
  cases h with
  | stopped h =>
    obtain ⟨b, hbecomes, _, hended, _⟩ := h
    rw [hbecomes.session] at hquiet
    exact (hended hquiet.terminated).1 ▸ hquiet
  | exhausted _ _ h => exact h.quiet ⟨rfl, rfl, rfl⟩ hquiet
  | back _ _ h hproceeds => exact h.quiet ⟨rfl, rfl, rfl⟩ (hproceeds.quiet hquiet)
  | on _ h hproceeds => exact h.quiet ⟨rfl, rfl, rfl⟩ (hproceeds.quiet hquiet)

theorem Census.starts {p : Program} {c : Config} (hstart : s.explorer.Started p c)
    (hconfig : s.config = c) (hc : c.Exhaustive)
    (h : s.Becomes s.explorer (.start s.explorer) t) :
    Census s.explorer.model (s.explorer.model.meet [] t.explorer.state)
      (isLeaf t t.session.ignored) t := by
  obtain ⟨s₀, f, hstarts⟩ := hstart.starts
  obtain rfl := hstarts.state
  obtain ⟨_, hadded⟩ := hstarts.added
  rw [hc.stateSet] at hadded
  obtain ⟨hdistinct, hextends⟩ := StateTable.distinct_empty.add hadded
  have hregisters := ((Model.Registers.empty s.explorer.model .exact).add
    StateTable.distinct_empty hstarts.fingerprint hadded).2
  have hchain : s.explorer.trail.chain = [s.explorer.trail.top] := by
    rw [Trail.chain, hstarts.below]
  have hconfig' : t.config.Exhaustive := by
    rw [h.config, hconfig]
    exact hc
  have hleaf : isLeaf t t.session.ignored = s.explorer.isEnd := by
    rw [isLeaf_eq hconfig'.depthLimit (h.session ▸ rfl), h.session, h.explorer]
    rfl
  have hmeet : s.explorer.model.meet [] s.explorer.state = [s.explorer.state] := by
    simp [Model.meet]
  have hbalance := Stats.Balances.start s.explorer.model.program s.explorer
  refine ⟨hconfig', ?_, h.session ▸ rfl, h.session ▸ rfl, h.explorer ▸ hregisters, ?_,
    fun _ => h.explorer ▸ hstarts.agenda, ?_, ?_⟩
  · rw [h.explorer]
    exact ⟨rfl, hdistinct, hstarts.random⟩
  · unfold Explorer.Recorded
    rw [h.explorer, hchain]
    intro k hk
    rw [List.mem_singleton.1 hk]
    exact ⟨f, hstarts.fingerprint, _, hextends.number⟩
  all_goals
    rw [Trail.unfinished, hleaf, h.explorer, hchain, hstarts.below]
  · split
    · intro k hk
      cases hk
    · next hend =>
      intro k hk
      rw [List.mem_singleton.1 hk]
      exact Bool.not_eq_true _ ▸ hend
  · rw [h.session, hmeet, Explorer.depth, Trail.depth, hstarts.below]
    split
    · next hend =>
      rw [if_pos hend, if_pos hend] at hbalance
      exact ⟨0, .nil, hbalance⟩
    · next hend =>
      rw [if_neg hend, if_neg hend] at hbalance
      exact ⟨_, Owes.nil.fresh hstarts.agenda, hbalance⟩

/-- What a run that ends quietly has met and counted. -/
theorem Census.run {p : Program} {c : Config} (hc : c.Exhaustive)
    (hstart : s.explorer.Started p c) (hconfig : s.config = c) {fuel : Nat}
    {report : Report} (h : Does (run fuel) s (some report) s') (herrors : report.errors = [])
    (hterminated : report.terminated = false) :
    ∃ t, Census s.explorer.model (s.explorer.model.firstMet (s.itinerary fuel)) true t ∧
      t.explorer.trail.below = [] ∧ report = .ofSession { t.session with done := true } ∧
      s'.explorer = t.explorer := by
  obtain ⟨t, ht, rfl, hx⟩ := run_gathers
    (I := fun known t => t.session.Quiet →
      Census s.explorer.model known (isLeaf t t.session.ignored) t)
    (J := fun known t => t.session.Quiet →
      Census s.explorer.model known true t ∧ t.explorer.trail.below = [])
    (hconfig ▸ hc.strategy) (fun hbecomes _ => .starts hstart hconfig hc hbecomes)
    (fun hs hturn => by
      refine ⟨fun hmore hquiet => ?_, fun hmore hquiet => ?_⟩
      · exact ((hs (hturn.quiet hquiet)).turns hturn hquiet).1 hmore
      · exact ((hs (hturn.quiet hquiet)).turns hturn hquiet).2 hmore) h
  obtain ⟨hcensus, hbelow⟩ := ht ⟨herrors, hterminated⟩
  exact ⟨t, hcensus, hbelow, rfl, hx⟩

end Search.DepthFirst

namespace Search

def fingerprintsMet (fuel : Nat) (s : Search) : Set Fingerprint :=
  { f | ∃ t ∈ s.itinerary fuel, s.explorer.model.fingerprint t = .ok f }

/-- Of the states with one fingerprint, the first one that a run meets, if a thread can run there. -/
def statesToExpand (fuel : Nat) (s : Search) : List State :=
  expandable (s.explorer.model.firstMet (s.itinerary fuel))

end Search

/-- Depth-first search without limits that finds no error and is not asked to stop counts the
fingerprints that it meets. It is done once with each state that is to be expanded, has left it once
by each of its moves, and is back where it started. -/
theorem expanded_once {p : Program} {c : Config} (hc : c.Exhaustive) {s s' : Search}
    (hstart : s.explorer.Started p c) (hconfig : s.config = c) {fuel : Nat}
    {report : Report} (h : s.perform (Search.run fuel) = (.ok (some report), s'))
    (herrors : report.errors = []) (hterminated : report.terminated = false) :
    report.stats.states = some (s.fingerprintsMet fuel).ncard ∧
      s'.explorer.visited = (s.fingerprintsMet fuel).ncard ∧
      report.stats.processed = (s.statesToExpand fuel).length ∧
      report.stats.transitions = some ((s.statesToExpand fuel).map p.branching).sum ∧
      report.stats.backtracked = ((s.statesToExpand fuel).map p.branching).sum ∧
      0 < (s.fingerprintsMet fuel).ncard ∧
      report.stats.visitedStates + ((s.fingerprintsMet fuel).ncard - 1) =
        ((s.statesToExpand fuel).map p.branching).sum ∧
      s'.explorer.depth = 0 := by
  obtain ⟨t, hcensus, hbelow, rfl, hx⟩ :=
    Search.DepthFirst.Census.run hc hstart hconfig h herrors hterminated
  obtain ⟨_, f, hstarts⟩ := hstart.starts
  have hprogram : s.explorer.model.program = p := congrArg Model.program hstarts.model
  have hcard : (s.fingerprintsMet fuel).ncard =
      (s.explorer.model.firstMet (s.itinerary fuel)).length := by
    rw [← hcensus.registers.ncard hcensus.steady.table]
    simp only [Model.fingerprint_firstMet]
    rfl
  have hdepth : t.explorer.depth = 0 := congrArg List.length hbelow
  obtain ⟨hstates, htransitions, hvisited, hprocessed, hmoves⟩ := hprogram ▸ hcensus.counted hbelow
  have hsome : 0 < (s.explorer.model.firstMet (s.itinerary fuel)).length := by
    obtain ⟨g, _, hholds⟩ := hcensus.recorded _ List.mem_cons_self
    obtain ⟨u, hu, _⟩ := (hcensus.registers.holds g).1 hholds
    exact List.length_pos_of_mem hu
  rw [hcard, hx]
  refine ⟨hstates, hcensus.registers.size, hprocessed, ?_, hmoves, hsome, ?_, hdepth⟩
  · exact htransitions.trans (congrArg some hmoves)
  · change t.session.stats.visitedStates + _ = _
    change t.session.stats.backtracked = ((s.statesToExpand fuel).map p.branching).sum at hmoves
    omega

/-- Two threads of three steps each, one of which chooses between two integers: nineteen states are
met, three of them end states, and one of the nineteen steps leads to a state that was met before. -/
theorem relay_expanded : ∃ (s s' : Search) (report : Report),
    s.Fresh (relay (.binary .lt (.int 0) (.staticVar 0 0))) .default ∧
    s.perform (Search.run 1000) = (.ok (some report), s') ∧ report.stats.visitedStates = 1 ∧
    (s.fingerprintsMet 1000).ncard = 19 ∧ (s.statesToExpand 1000).length = 16 ∧
    ((s.statesToExpand 1000).map
      (relay (.binary .lt (.int 0) (.staticVar 0 0))).branching).sum = 19 ∧
    s'.explorer.depth = 0 := by
  have hrun : (Check.report? (relay (.binary .lt (.int 0) (.staticVar 0 0))) .default 1000).any
      (fun report => report.errors.isEmpty && !report.terminated &&
        decide (report.stats = ⟨some 19, some 19, 1, 4, 19, 16, 0, 6⟩)) = true := by
    decide +kernel
  obtain ⟨report, hreport, hfound⟩ := (Option.any_eq_true _ _).1 hrun
  simp only [Bool.and_eq_true, Bool.not_eq_true', List.isEmpty_iff, decide_eq_true_eq] at hfound
  obtain ⟨⟨herrors, hterminated⟩, hstats⟩ := hfound
  obtain ⟨s, s', hs, hperform⟩ := Check.report?_eq_some hreport
  obtain ⟨hstates, _, hprocessed, _, hmoves, _, _, hdepth⟩ :=
    expanded_once ⟨rfl, rfl, rfl, rfl, rfl⟩ hs.start hs.config hperform herrors hterminated
  rw [hstats] at hstates hprocessed hmoves
  exact ⟨s, s', report, hs, hperform, congrArg Stats.visitedStates hstats,
    (Option.some.inj hstates).symm, hprocessed.symm, hmoves.symm, hdepth⟩

end Interleave
