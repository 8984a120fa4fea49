import Interleave.Proofs.Explore.Preemptions
import Interleave.Proofs.Search.Pass

set_option autoImplicit false

namespace Interleave

namespace Search

def WorkItem.Priced (p : Program) (mode : Symmetry) (k : Nat) (item : WorkItem) : Prop :=
  ∀ t ∈ item.schedule.threads, costOf p mode item.trail.top item.trail.below t = k

namespace Bounded

/-- Settings under which nothing but preemptions is limited, and one violation is enough. -/
structure Plain (c : Config) : Prop where
  depthLimit : c.depthLimit = none
  memoryBudget : c.memoryBudget = none
  reportAllErrors : c.reportAllErrors = false

structure Rated (p : Program) (mode : Symmetry) (w : Bounded) (s : Search) : Prop where
  honest : s.Honest p mode
  genuine : ∀ item ∈ w.waiting, item.Genuine p mode
  plain : Plain s.config
  limit : ∀ limit, s.config.preemptionLimit = some limit → w.preemptions ≤ limit
  base : ∀ trail base, w.active = some (trail, base) → base ≤ s.explorer.depth
  active : ∀ trail base, w.active = some (trail, base) →
    Priced p mode w.preemptions (s.explorer.depth + 1 - base) s.explorer.trail.chain
  current : ∀ item ∈ w.current.toList, item.Priced p mode w.preemptions
  next : ∀ item ∈ w.next.toList, item.Priced p mode (w.preemptions + 1)

structure Arrives (p : Program) (mode : Symmetry) (bound base : Nat) (s : Search) : Prop where
  honest : s.Honest p mode
  depth : base < s.explorer.depth
  path : p.preemptions mode (choicesOf s.explorer.path) = bound
  below : Priced p mode bound (s.explorer.depth - base) s.explorer.trail.below
  fresh : s.explorer.trail.top.agenda = Agenda.ofState s.explorer.state

section Rated

variable {p : Program} {mode : Symmetry} {w w' : Bounded} {s s' t v z : Search} {trail : Trail}
  {base bound : Nat} {x : Explorer}

theorem Arrives.becomes (hs : Arrives p mode bound base s) {b : Session}
    (h : s.Becomes s.explorer b s') (herrors : b.errors = s.session.errors) :
    Arrives p mode bound base s' := by
  have hhonest := hs.honest.becomes h hs.honest.explorer herrors
  cases s'
  obtain ⟨-, -, rfl, -⟩ := h
  exact { hs with honest := hhonest }

/-- The state after a step costs nothing more for the thread that took it, and for every thread
where that one cannot go on. -/
theorem Arrives.cost (hs : Arrives p mode bound base s) (u : ThreadId) :
    costOf p mode s.explorer.trail.top s.explorer.trail.below u =
      bound + s.explorer.state.preemption s.explorer.currentThread u :=
  congrArg (· + _) hs.path

theorem threads_of_fresh (hfresh : x.trail.top.agenda = Agenda.ofState x.state) {a : Agenda}
    (ha : x.trail.top.agenda = some a) :
    a = ⟨.thread (.ofList "schedule" x.state.runnable), none⟩ := by
  rw [hfresh, Agenda.ofState] at ha
  split at ha
  · cases ha
  · exact (Option.some.inj ha).symm

variable (hs : Rated p mode w s)

include hs

theorem Rated.mark (v : Search) : Rated p mode (w.mark v) s :=
  ⟨hs.honest, hs.genuine, hs.plain, hs.limit, hs.base, hs.active, hs.current, hs.next⟩

theorem Rated.release (hhonest : s'.Honest p mode)
    (hconfig : s'.config = s.config) : Rated p mode { w with active := none } s' := by
  cases s'
  obtain rfl : _ = _ := hconfig
  exact ⟨hhonest, hs.genuine, hs.plain, hs.limit, fun _ _ h => (by cases h),
    fun _ _ h => (by cases h), hs.current, hs.next⟩

theorem Rated.takes (hactive : w.active = none) {r : Option Bounded}
    (h : Takes w s r s') (hr : r = some w') : Rated p mode w' s' := by
  have hgenuine := hs.honest.takes hs.genuine h
  cases h with
  | stopped => cases hr
  | ended => cases hr
  | cut => cases hr
  | raised hcurrent h _ hlimit =>
    cases hr
    cases s'
    obtain ⟨rfl, -, rfl, -⟩ := h
    refine ⟨hgenuine.1, hgenuine.2 _ rfl, hs.plain, hlimit, ?_, ?_, hs.next, ?_⟩
    · intro trail base hsome
      cases hactive.symm.trans hsome
    · intro trail base hsome
      cases hactive.symm.trans hsome
    · simp [WorkQueue.empty, WorkQueue.toList]
  | @taken _ item current tally hcurrent h =>
    cases hr
    have hpop := WorkQueue.toList_of_pop? hcurrent
    cases s'
    obtain ⟨rfl, -, rfl, -⟩ := h
    refine ⟨hgenuine.1, hgenuine.2 _ rfl, hs.plain, hs.limit, ?_, ?_, ?_, hs.next⟩
    · intro trail base hbase
      cases hbase
      exact Nat.le_refl _
    · intro trail base hbase
      cases hbase
      have hcount : ((s.explorer.restore item.trail).setSchedule item.schedule).depth + 1 -
          item.trail.depth = 1 := by
        change item.trail.depth + 1 - item.trail.depth = 1
        omega
      rw [hcount]
      refine ⟨fun b hb u hu => ?_, trivial⟩
      cases hb
      refine (costOf_setAgenda _ _).trans ?_
      exact hs.current item (by simp [hpop]) u hu
    · intro other hother
      exact hs.current other (by simp [hpop, hother])

variable (hactive : w.active = some (trail, base))

include hactive

theorem Rated.goes (hhonest : s'.Honest p mode)
    (hconfig : s'.config = s.config) (hbase : base ≤ s'.explorer.depth)
    (hpriced : Priced p mode w.preemptions (s'.explorer.depth + 1 - base) s'.explorer.trail.chain) :
    Rated p mode w s' := by
  cases s'
  obtain rfl : _ = _ := hconfig
  refine ⟨hhonest, hs.genuine, hs.plain, hs.limit, fun trail' base' h => ?_,
    fun trail' base' h => ?_, hs.current, hs.next⟩
  · cases hactive.symm.trans h
    exact hbase
  · cases hactive.symm.trans h
    exact hpriced

theorem Rated.top :
    (∀ a, s.explorer.trail.top.agenda = some a → ∀ t ∈ a.schedule.threads,
      costOf p mode s.explorer.trail.top s.explorer.trail.below t = w.preemptions) ∧
    Priced p mode w.preemptions (s.explorer.depth - base) s.explorer.trail.below := by
  have hbase := hs.base trail base hactive
  have hactive := hs.active trail base hactive
  have hcount : s.explorer.depth + 1 - base = s.explorer.depth - base + 1 := by omega
  rw [hcount] at hactive
  exact hactive

theorem Rated.forward (h : s.explorer.forward = (.ok true, x)) :
    p.preemptions mode (choicesOf x.path) = w.preemptions := by
  obtain ⟨a, move, a', n, f, hstep⟩ := Explorer.forward_true h
  rw [hstep.preemptions hs.honest.explorer]
  exact (hs.top hactive).1 a hstep.agenda _ hstep.takes.mem_threads

theorem Rated.moved (hforward : s.explorer.forward = (.ok true, t.explorer))
    (h : s.Becomes t.explorer s.session t) {held : List Trail} (hbooked : t.Booked held v) :
    v.explorer = t.explorer ∧ Arrives p mode w.preemptions base v := by
  obtain ⟨a, move, a', n, f, hstep⟩ := Explorer.forward_true hforward
  have hbase := hs.base trail base hactive
  obtain ⟨htop, hbelow⟩ := hs.top hactive
  have hplain : Plain t.config := h.config ▸ hs.plain
  have hexplorer := hbooked.untouched hplain.memoryBudget
  have hdepth := hexplorer ▸ Explorer.depth_of_forward hforward
  refine ⟨hexplorer, hs.honest.advanced h (hs.honest.forward hforward) hbooked, ?_, ?_,
    ?_, ?_⟩
  · omega
  · rw [hexplorer]
    exact hs.forward hactive hforward
  · have hcount : v.explorer.depth - base = s.explorer.depth - base + 1 := by omega
    rw [hcount, hexplorer, hstep.trail]
    refine ⟨fun b hb u hu => ?_, hbelow⟩
    cases hb
    rw [hstep.takes.threads] at hu
    rw [costOf_setAgenda]
    exact htop a hstep.agenda u hu
  · rw [hexplorer, Explorer.state, hstep.trail]
    exact hstep.fresh

theorem Rated.retreats (hhonest : t.Honest p mode)
    (hconfig : t.config = s.config) (hbase : base < t.explorer.depth)
    (hbelow : Priced p mode w.preemptions (t.explorer.depth - base) t.explorer.trail.below)
    {moved : Bool} (h : t.Retreats moved s') : Rated p mode w s' := by
  obtain ⟨tally, hback, hbecomes⟩ := h.moves hbase
  obtain ⟨hchain, _⟩ := Explorer.chain_of_backtrack? hback
  have hdepth := Explorer.depth_of_backtrack? hback
  have hcount : s'.explorer.depth + 1 - base = t.explorer.depth - base := by omega
  refine hs.goes hactive (hhonest.retreats h) (hbecomes.config.trans hconfig) (by omega) ?_
  rw [hcount, hchain]
  exact hbelow

theorem Rated.defers (hv : Arrives p mode w.preemptions base v)
    (hconfig : v.config = s.config) (h : Defers w v w' s') : Rated p mode w' s' := by
  have hcount : v.explorer.depth + 1 - base = v.explorer.depth - base + 1 := by
    have := hv.depth
    omega
  have hgenuine := hv.honest.defers h hs.genuine
  cases h with
  | kept halone =>
    refine hs.goes hactive hv.honest hconfig (Nat.le_of_lt hv.depth) ?_
    rw [hcount]
    refine ⟨fun a ha u hu => ?_, hv.below⟩
    obtain rfl := threads_of_fresh hv.fresh ha
    rw [hv.cost u]
    -- the last thread is alone, or it cannot go on
    cases hlast : s'.explorer.currentThread with
    | none => rfl
    | some last =>
      by_cases hmem : last ∈ s'.explorer.state.runnable
      · have hitems := halone last _ hlast (by rw [Explorer.schedule?, ha]; rfl) hmem
        have hone : u ∈ [last] := hitems ▸ hu
        rw [List.mem_singleton.1 hone, State.preemption_self]
        rfl
      · rw [State.preemption_of_not_mem hmem]
        rfl
  | @split _ g last hschedule hlast h hcurrent =>
    obtain ⟨a, ha, hthreads⟩ := Option.map_eq_some_iff.1 hschedule
    obtain rfl := threads_of_fresh hv.fresh ha
    cases hthreads
    have honly : ∀ {u i : ThreadId}, i ∈ (ChoicePoint.thread
        (Listed.restrictTo (.ofList "schedule" v.explorer.state.runnable) [u])).threads → i = u :=
      fun hi => by simpa using (List.mem_filter.1 hi).2
    have hgoes : Rated p mode w s' := by
      refine hs.goes hactive hgenuine.1 (h.config.trans hconfig) ?_ ?_
      · rw [h.explorer]
        exact Nat.le_of_lt hv.depth
      · rw [h.explorer]
        change Priced p mode w.preemptions (v.explorer.depth + 1 - base) _
        rw [hcount]
        refine ⟨fun b hb u hu => ?_, hv.below⟩
        cases hb
        rw [honly hu]
        refine ((costOf_setAgenda _ _).trans (hv.cost last)).trans ?_
        rw [hcurrent, State.preemption_self]
        rfl
    refine { hgoes with genuine := hgenuine.2, next := ?_ }
    intro item hitem
    unfold putOff at hitem
    rw [WorkQueue.toList_foldl_push] at hitem
    rcases List.mem_append.1 hitem with hold | hnew
    · exact hs.next item hold
    · obtain ⟨u, hu, rfl⟩ := List.mem_map.1 hnew
      obtain ⟨_, hne⟩ := List.mem_filter.1 hu
      intro i hi
      rw [honly hi]
      refine (hv.cost u).trans ?_
      rw [hcurrent, State.preemption_eq_one.2 ⟨by simpa using hne, hlast⟩]
      rfl

theorem Rated.steps (h : Steps w base s w' s') : Rated p mode w' s' := by
  cases h with
  | stopped h => exact hs.release (hs.honest.stops h) h.records.config
  | finished hforward _ h =>
    exact hs.release (hs.honest.becomes h (hs.honest.forward hforward) rfl) h.config
  | @back t _ _ _ hforward hdepth h hback =>
    obtain ⟨agenda, hx, _⟩ := Explorer.decide_none (Explorer.forward_false hforward)
    have ht := hs.honest.becomes h (hs.honest.forward hforward) rfl
    refine hs.retreats hactive ht h.config hdepth ?_ hback
    rw [hx]
    exact (hs.top hactive).2
  | broken hforward h hbooked =>
    obtain ⟨_, hv⟩ := hs.moved hactive hforward h hbooked
    exact hs.release hv.honest (hbooked.config.trans h.config)
  | left hforward h hbooked hz _ hback =>
    obtain ⟨_, hv⟩ := hs.moved hactive hforward h hbooked
    have hz' := hv.becomes hz rfl
    have hconfig := hz.config.trans (hbooked.config.trans h.config)
    exact (hs.mark _).retreats hactive hz'.honest hconfig hz'.depth hz'.below hback
  | @entered t v z _ _ hforward h hbooked hz hdefers =>
    obtain ⟨_, hv⟩ := hs.moved hactive hforward h hbooked
    have hconfig := hz.config.trans (hbooked.config.trans h.config)
    exact (hs.mark v).defers (w := w.mark v) hactive (hv.becomes hz rfl) hconfig hdefers

end Rated

/-- The steps that the current bound has to take are pending in its work, the others in the work of
the next one. -/
def Leveled (m : Model) (s₀ : State) (w : Bounded) (x : Explorer) : Prop :=
  Levels m s₀ w.preemptions (w.Met x) (w.Met x)
    (w.activeNodes x ++ w.current.toList.map WorkItem.node) (w.next.toList.map WorkItem.node)

/-- The search has come to its bound because no violation has fewer preemptions, and what it has
found has as many. -/
structure Ordered (m : Model) (s₀ : State) (w : Bounded) (s : Search) : Prop
    extends Rated m.program m.symmetry w s where
  steady : s.explorer.Steady m
  known : ∀ key, key ∈ w.visited → ∃ f, s.explorer.table.number? f = some key.1
  running : s.session.Quiet → s.session.done = false ∧ s.session.ignored = false
  errorless : s.Running → s.session.errors = []
  least : ∀ choices, m.program.Violating m.symmetry choices →
    w.preemptions ≤ m.program.preemptions m.symmetry choices
  found : s.session.errors ≠ [] → ∃ e, s.session.errors = [e] ∧
    m.program.Violating m.symmetry (choicesOf e.path) ∧
    m.program.preemptions m.symmetry (choicesOf e.path) = w.preemptions
  leveled : s.session.Quiet → w.Leveled m s₀ s.explorer

/-- What a step adds: a fingerprint, met after the thread that took the step. The steps from there are
not covered yet. -/
structure Adds (m : Model) (s₀ : State) (w : Bounded) (base : Nat) (s v : Search) (u : ThreadId)
    (f : Fingerprint) : Prop where
  steady : v.explorer.Steady m
  last : v.explorer.currentThread = some u
  wellFormed : m.program.WellFormed v.explorer.state
  fingerprint : m.fingerprint v.explorer.state = .ok f
  kept : ∀ {last} g, w.Met s.explorer last g → (w.mark v).Met v.explorer last g
  only : ∀ last g, (w.mark v).Met v.explorer last g →
    w.Met s.explorer last g ∨ last = some u ∧ g = f
  old : w.visited.contains (key v) = true → w.Met s.explorer (some u) f
  known : ∀ key, key ∈ (w.mark v).visited → ∃ g, v.explorer.table.number? g = some key.1
  levels : v.session.Quiet → Levels m s₀ w.preemptions (w.Met s.explorer)
    ((w.mark v).Met v.explorer)
    (v.explorer.trail.below.take (v.explorer.depth - base) ++ w.current.toList.map WorkItem.node)
    (w.next.toList.map WorkItem.node)

section Ordered

variable {m : Model} {s₀ : State} {w w' : Bounded} {s s' t v z : Search} {trail : Trail}
  {base : Nat} {u : ThreadId} {f : Fingerprint} {held : List Trail} {b : Session}

section

variable (hm : m.Exact) (hv : Adds m s₀ w base s v u f)

include hm hv

theorem Adds.covers {V : ThreadId → Fingerprint → Prop} {k : Nat} {nodes : List Node}
    (hnodes : ∀ i, v.explorer.state.preemption (some u) i = k → i ∈ v.explorer.state.runnable →
      ∃ n ∈ nodes, n.state = v.explorer.state ∧ ∃ a, n.agenda = some a ∧ a.schedule.Upcoming i) :
    m.CoversSteps (Due (fun last g => last = some u ∧ g = f) k) V nodes := by
  have hcovers : m.CoversSteps (fun s g i => g = f ∧ s.preemption (some u) i = k) V nodes := by
    refine hm.covers_node (n := v.explorer.trail.top) hv.wellFormed hv.fingerprint ?_
    intro r i hsimilar hcost hi
    rw [hsimilar.preemption] at hcost
    exact hnodes i hcost hi
  refine hcovers.of_subset fun g ⟨last, ⟨hlast, hg⟩, hcost⟩ => ⟨hg, ?_⟩
  rw [← hlast]
  exact hcost

theorem Adds.leaves (hquiet : v.session.Quiet)
    (hleaf : w.visited.contains (key v) = true ∨ v.explorer.isEnd = true) :
    Levels m s₀ w.preemptions ((w.mark v).Met v.explorer) ((w.mark v).Met v.explorer)
      (v.explorer.trail.below.take (v.explorer.depth - base) ++
        w.current.toList.map WorkItem.node) (w.next.toList.map WorkItem.node) := by
  rcases hleaf with hcontains | hend
  · have hnone : ∀ {k nodes}, m.CoversSteps (Due (fun _ _ => False) k)
        (fun i => (w.mark v).Met v.explorer (some i)) nodes := by
      rintro k nodes s g hs hg t ⟨_, hfalse, _⟩
      exact hfalse.elim
    refine (hv.levels hquiet).grow hv.kept (fun last g hg => .inl ?_) hnone hnone
    rcases hv.only last g hg with hold | ⟨rfl, rfl⟩
    · exact hold
    · exact hv.old hcontains
  · have hnone : ∀ i, i ∉ v.explorer.state.runnable := by
      rw [List.isEmpty_iff.1 hend]
      exact fun i => List.not_mem_nil
    exact (hv.levels hquiet).grow hv.kept hv.only
      (hv.covers hm fun i _ hi => absurd hi (hnone i))
      (hv.covers hm fun i _ hi => absurd hi (hnone i))

/-- In a state that is entered, free steps are pending in its node and preemptions in what is put
off. -/
theorem Adds.enters (hquiet : v.session.Quiet)
    (hactive : w.active = some (trail, base)) (hdepth : base < v.explorer.depth)
    (hfresh : v.explorer.trail.top.agenda = Agenda.ofState v.explorer.state)
    (hz : z.explorer = v.explorer) (h : Defers (w.mark v) z w' s') :
    w'.Leveled m s₀ s'.explorer := by
  have hlevels := hv.levels hquiet
  have hbase := Nat.le_of_lt hdepth
  cases h with
  | kept halone =>
    rw [hz] at halone ⊢
    rw [Leveled, activeNodes_active (w := w.mark v) hactive hbase, List.cons_append]
    refine (hlevels.mono ?_ ?_).grow hv.kept hv.only (hv.covers hm ?_) (hv.covers hm ?_)
    · exact fun n hn => List.mem_cons_of_mem _ hn
    · exact fun n hn => List.mem_cons_of_mem _ hn
    · intro i _ hi
      obtain ⟨a, ha, hupcoming⟩ := Agenda.upcoming_ofState hi
      exact ⟨v.explorer.trail.top, List.mem_cons_self, rfl, a, hfresh.trans ha, hupcoming⟩
    · intro i hcost hi
      obtain ⟨hne, hmem⟩ := State.preemption_eq_one.1 hcost
      obtain ⟨a, ha, _⟩ := Agenda.upcoming_ofState hi
      have htop := hfresh.trans ha
      obtain rfl := threads_of_fresh hfresh htop
      have hitems := halone u _ hv.last (by rw [Explorer.schedule?, htop]; rfl) hmem
      have hone : i ∈ [u] := hitems ▸ hi
      exact absurd (List.mem_singleton.1 hone) hne
  | @split _ g last hschedule hlast h hcurrent =>
    rw [hz] at hschedule hcurrent h ⊢
    cases hv.last.symm.trans hcurrent
    obtain ⟨a, ha, hthreads⟩ := Option.map_eq_some_iff.1 hschedule
    obtain rfl := threads_of_fresh hfresh ha
    cases hthreads
    rw [h.explorer, Leveled, activeNodes_active (w := (w.mark v).putOff _ _ u)
      (x := v.explorer.setSchedule _) hactive hbase, List.cons_append]
    unfold putOff
    rw [WorkQueue.toList_foldl_push, List.map_append, List.map_map]
    refine (hlevels.mono ?_ ?_).grow hv.kept hv.only (hv.covers hm ?_) (hv.covers hm ?_)
    · exact fun n hn => List.mem_cons_of_mem _ hn
    · intro n hn
      rw [List.cons_append, ← List.append_assoc]
      exact List.mem_cons_of_mem _ (List.mem_append_left _ hn)
    · intro i hcost hi
      have hsame : i = u := by
        by_contra hne
        rw [State.preemption_eq_one.2 ⟨hne, hlast⟩] at hcost
        cases hcost
      subst hsame
      exact ⟨_, List.mem_cons_self, rfl, _, rfl, upcoming_restrictTo hi⟩
    · intro i hcost hi
      obtain ⟨hne, _⟩ := State.preemption_eq_one.1 hcost
      have hmem : i ∈ (Listed.ofList "schedule" v.explorer.state.runnable).items.filter (· ≠ u) :=
        List.mem_filter.2 ⟨hi, by simpa using hne⟩
      refine ⟨(deferred v.explorer.trail (.ofList "schedule" v.explorer.state.runnable) i).node, ?_,
        rfl, _, rfl, upcoming_restrictTo hi⟩
      exact List.mem_append_right _ (List.mem_append_right _ (List.mem_map_of_mem hmem))

end

section

variable (hs : Ordered m s₀ w s)

include hs

theorem Ordered.becomes (hrated : Rated m.program m.symmetry w' s') (h : s.Becomes s'.explorer b s')
    (hsteady : s'.explorer.Steady m) (htable : s'.explorer.table = s.explorer.table)
    (hvisited : w'.visited = w.visited) (hbound : w'.preemptions = w.preemptions)
    (hb : SameFindings b s.session) (hdone : b.done = s.session.done)
    (hignored : s.session.ignored = false → b.ignored = false)
    (hleveled : s.session.Quiet → w'.Leveled m s₀ s'.explorer) : Ordered m s₀ w' s' := by
  have hquiet : s'.session.Quiet → s.session.Quiet := h.quiet hb
  cases s'
  obtain ⟨-, -, -, rfl⟩ := h
  refine ⟨hrated, hsteady, ?_, ?_, ?_, ?_, ?_, fun hq => hleveled (hquiet hq)⟩
  · rw [hvisited, htable]
    exact hs.known
  · intro hq
    obtain ⟨hgoing, hkept⟩ := hs.running (hquiet hq)
    exact ⟨hdone.trans hgoing, hignored hkept⟩
  · rintro ⟨hgoing, hterminated⟩
    exact hb.errors.trans (hs.errorless ⟨hdone ▸ hgoing, hb.terminated ▸ hterminated⟩)
  · rw [hbound]
    exact hs.least
  · rw [hb.errors, hbound]
    exact hs.found

theorem Ordered.idle (hactive : w.active = none) (hcurrent : w.current.pop? = none)
    (hrunning : s.Running) :
    Levels m s₀ w.preemptions (w.Met s.explorer) (w.Met s.explorer) []
      (w.next.toList.map WorkItem.node) := by
  have hlevels := hs.leveled ⟨hs.errorless hrunning, hrunning.terminated⟩
  rw [Leveled, activeNodes_idle hactive, WorkQueue.toList_of_pop?_none hcurrent] at hlevels
  exact hlevels

/-- When a bound has no work left, every violation has more preemptions. -/
theorem Ordered.exceeds (hinitial : m.program.initialState = .ok s₀) (hactive : w.active = none)
    (hcurrent : w.current.pop? = none) (hrunning : s.Running)
    {choices : List (ThreadId × Option Int64)}
    (hviolating : m.program.Violating m.symmetry choices) :
    w.preemptions < m.program.preemptions m.symmetry choices := by
  obtain ⟨hne, r, fault, hexecution, hfails⟩ := hviolating
  by_contra hle
  have hchecked := (hs.idle hactive hcurrent hrunning).execution hinitial hexecution (by omega)
  exact hfails (hchecked.2 hne)

def Decides (p : Program) (mode : Symmetry) (s : Search) : Prop :=
  s.session.terminated = false →
    (∃ e, s.session.errors = [e] ∧ p.Violating mode (choicesOf e.path) ∧
      ∀ choices, p.Violating mode choices →
        p.preemptions mode (choicesOf e.path) ≤ p.preemptions mode choices) ∨
    (s.session.errors = [] ∧ ∀ choices, p.Violating mode choices →
      ∃ limit, s.config.preemptionLimit = some limit ∧ limit < p.preemptions mode choices)

theorem Ordered.takes (hinitial : m.program.initialState = .ok s₀) (hactive : w.active = none)
    {r : Option Bounded} (h : Takes w s r s') :
    (∀ w', r = some w' → Ordered m s₀ w' s') ∧
      (r = none → Decides m.program m.symmetry s') := by
  have hrated : ∀ w', r = some w' → Rated m.program m.symmetry w' s' :=
    fun w' => hs.toRated.takes hactive h
  cases h with
  | stopped h =>
    refine left_none fun hterminated => .inl ?_
    obtain ⟨b, hbecomes, herrors, hended, _⟩ := h
    rw [hbecomes.session] at hterminated ⊢
    obtain ⟨rfl, hdone⟩ := hended hterminated
    have hne : s.session.errors ≠ [] := by
      intro hnil
      cases hdone.symm.trans (hs.running ⟨hnil, hterminated⟩).1
    obtain ⟨e, he, hviolating, hcount⟩ := hs.found hne
    refine ⟨e, he, hviolating, ?_⟩
    rw [hcount]
    exact hs.least
  | ended hcurrent hnext h hrunning =>
    refine left_none fun _ => .inr ⟨?_, ?_⟩
    · rw [h.session]
      exact hs.errorless hrunning
    rintro choices ⟨hne, r, fault, hexecution, hfails⟩
    have hlevels := hs.idle hactive hcurrent hrunning
    rw [WorkQueue.toList_of_isEmpty hnext] at hlevels
    exact absurd (hlevels.holds hinitial hexecution hne) hfails
  | cut _ h hcurrent hlimit hrunning =>
    refine left_none fun _ => .inr ⟨?_, fun choices hviolating => ?_⟩
    · rw [h.session]
      exact hs.errorless hrunning
    obtain ⟨limit, hle, hlimit⟩ := hlimit
    have hmore := hs.exceeds hinitial hactive hcurrent hrunning hviolating
    rw [h.config]
    exact ⟨limit, hlimit, by omega⟩
  | raised hcurrent h _ _ hrunning =>
    have hnone : s.session.errors = [] := hs.errorless hrunning
    have hlevels := (hs.idle hactive hcurrent hrunning).raise hinitial
    cases s'
    obtain ⟨-, -, rfl, rfl⟩ := h
    refine left_some ⟨hrated _ rfl, hs.steady, hs.known, hs.running, fun _ => hnone, ?_,
      fun hne => absurd hnone hne, fun _ => ?_⟩
    · exact fun choices hviolating => hs.exceeds hinitial hactive hcurrent hrunning hviolating
    · rw [Leveled, activeNodes_idle (w := { w with
        current := w.next, next := .empty, preemptions := w.preemptions + 1 }) hactive]
      exact hlevels
  | @taken _ item current tally hcurrent h =>
    have hsame := h.explorer
    rw [← hsame] at h
    refine left_some (hs.becomes (hrated _ rfl) h ?_ ?_ rfl rfl ⟨rfl, rfl, rfl⟩ rfl id fun hq => ?_)
    · rw [hsame]
      exact (hs.steady.restore _).setAgenda _
    · rw [hsame]
      rfl
    · have hlevels := hs.leveled hq
      rw [Leveled, activeNodes_idle hactive, WorkQueue.toList_of_pop? hcurrent] at hlevels
      rw [hsame, Leveled, activeNodes_taken]
      exact hlevels

section

variable (h : s.Becomes t.explorer s.session t) (hbooked : t.Booked held v)

include h hbooked

theorem Ordered.books (hdone : v.session.done = false) :
    v.session.errors = s.session.errors ∧ s.session.done = false ∧
      v.session.terminated = s.session.terminated ∧ v.session.ignored = s.session.ignored := by
  have hplain : Plain t.config := h.config ▸ hs.plain
  have herrors : v.session.errors = t.session.errors := by
    rcases hbooked.first hplain.reportAllErrors with hsame | ⟨hend, _⟩
    · exact hsame
    · cases hdone.symm.trans hend
  obtain ⟨hsame, hignored, _⟩ := hbooked.quiet herrors hplain.memoryBudget
  obtain ⟨errors, constraints, done, ignored, hsession⟩ := hbooked.session
  rw [h.session] at herrors hsame hignored
  refine ⟨herrors, hsame.symm.trans hdone, ?_, hignored⟩
  rw [hsession, h.session]
  rfl

theorem Ordered.stays (hdone : v.session.done = false) (hrated : Rated m.program m.symmetry w' s')
    (hb : v.Becomes s'.explorer b s') (hfindings : SameFindings b v.session)
    (hsame : b.done = v.session.done) (hignored : b.ignored = false)
    (hsteady : s'.explorer.Steady m)
    (hknown : ∀ key, key ∈ w'.visited → ∃ f, s'.explorer.table.number? f = some key.1)
    (hbound : w'.preemptions = w.preemptions)
    (hleveled : v.session.Quiet → w'.Leveled m s₀ s'.explorer) : Ordered m s₀ w' s' := by
  obtain ⟨herrors, hgoing, hterminated, _⟩ := hs.books h hbooked hdone
  have hquiet : s'.session.Quiet → v.session.Quiet := hb.quiet hfindings
  cases s'
  obtain ⟨-, -, -, rfl⟩ := hb
  refine ⟨hrated, hsteady, hknown, fun _ => ⟨hsame.trans hdone, hignored⟩, ?_, ?_, ?_,
    fun hq => hleveled (hquiet hq)⟩
  · rintro ⟨_, hrunning⟩
    refine (hfindings.errors.trans herrors).trans (hs.errorless ⟨hgoing, ?_⟩)
    exact (hfindings.terminated.trans hterminated).symm.trans hrunning
  · rw [hbound]
    exact hs.least
  · rw [hfindings.errors, herrors, hbound]
    exact hs.found

variable (hforward : s.explorer.forward = (.ok true, t.explorer))
  (hactive : w.active = some (trail, base))

include hforward hactive

theorem Ordered.breaks (hrunning : s.Running) (hfound : v.session.errors ≠ []) :
    ∃ e, v.session.errors = [e] ∧ m.program.Violating m.symmetry (choicesOf e.path) ∧
      m.program.preemptions m.symmetry (choicesOf e.path) = w.preemptions := by
  have hnone : t.session.errors = [] := by
    rw [h.session]
    exact hs.errorless hrunning
  have ht := hs.honest.becomes h (hs.honest.forward hforward) rfl
  obtain ⟨es, herrors, _, hes⟩ := hbooked.errors
  rw [hnone, List.nil_append] at herrors
  have hplain : Plain t.config := h.config ▸ hs.plain
  rcases hbooked.first hplain.reportAllErrors with hsame | ⟨_, e, happend⟩
  · exact absurd (hsame.trans hnone) hfound
  · rw [hnone, List.nil_append] at happend
    have hmem : e ∈ es := by
      rw [← herrors, happend]
      exact List.mem_singleton_self e
    have hpath := (hes e hmem).path
    have hreal := hes e hmem
    rw [ht.properties] at hreal
    obtain ⟨r, fault, htrace, _, hviolates⟩ := (hreal.real ht.explorer).trace
    refine ⟨e, happend, ⟨?_, r, fault, htrace.execution, hviolates.not_holds⟩, ?_⟩
    · obtain ⟨a, move, a', n, f, hstep⟩ := Explorer.forward_true hforward
      rw [hpath]
      exact fun hnil => hstep.path_ne_nil ht.explorer (List.map_eq_nil_iff.1 hnil)
    · rw [hpath]
      exact hs.forward hactive hforward

theorem Ordered.adds (hm : m.Exact) : ∃ u f, Adds m s₀ w base s v u f := by
  obtain ⟨a, move, a', n, f, hstep⟩ := Explorer.forward_true hforward
  have hbase := hs.base trail base hactive
  have ht := hs.honest.becomes h (hs.honest.forward hforward) rfl
  have hplain : Plain t.config := h.config ▸ hs.plain
  have hexplorer := hbooked.untouched hplain.memoryBudget
  have hsteady : v.explorer.Steady m := hexplorer ▸ hs.steady.advances hstep
  have hwellFormed := (hstep.reached hs.honest.explorer).wellFormed hm.sound
  have hstate : v.explorer.state = n.state := by
    rw [hexplorer, Explorer.state, hstep.trail]
  have hlast : v.explorer.currentThread = some move.thread := by
    rw [hexplorer, Explorer.currentThread, hstep.trail, hstep.shown]
    rfl
  have hextends := (hs.steady.table.add hstep.added).2
  have hid : v.explorer.stateId = n.stateId := by
    rw [hexplorer, Explorer.stateId, hstep.trail]
  rw [← hid, ← hexplorer] at hextends
  have hself := met_mark_self (w := w) hextends
  rw [hlast] at hself
  refine ⟨move.thread, f, hsteady, hlast, ?_, ?_, fun g hg => hg.mark hextends, ?_, ?_,
    known_mark hextends hs.known, ?_⟩
  · rw [hstate]
    exact hwellFormed
  · rw [hstate, ← hs.steady.model]
    exact hstep.fingerprint
  · intro last g hg
    have honly := met_of_mark hextends hs.known hsteady.table hg
    rwa [hlast] at honly
  · intro hcontains
    have hmem := Std.TreeSet.contains_iff_mem.1 hcontains
    have hmet := met_of_mem hextends hs.known hsteady.table hmem hextends.number
    rwa [key, hlast] at hmet
  · intro hquiet
    obtain ⟨hbefore, herrors⟩ := hbooked.before hquiet
    have hholds := hbooked.holds_of_quiet ht.properties herrors hplain.memoryBudget
    unfold Explorer.state Explorer.fault at hholds
    rw [(hs.steady.advances hstep).model, hstep.trail] at hholds
    have hlevels := hs.leveled (h.quiet ⟨rfl, rfl, rfl⟩ hbefore)
    rw [Leveled, activeNodes_active hactive hbase, List.cons_append] at hlevels
    have hcount : v.explorer.depth - base = s.explorer.depth - base + 1 := by
      rw [hexplorer, Explorer.depth_of_forward hforward]
      omega
    have hbelow : v.explorer.trail.below =
        { s.explorer.trail.top with agenda := some a' } :: s.explorer.trail.below := by
      rw [hexplorer, hstep.trail]
    rw [hcount, hbelow, List.take_succ_cons, List.cons_append]
    obtain rfl := hs.steady.model
    exact hlevels.advance hstep hs.steady.unshuffled hwellFormed hholds
      (fun g hg => hg.mark hextends) hself

end

theorem Ordered.steps (hm : m.Exact) (hactive : w.active = some (trail, base))
    (h : Steps w base s w' s') : Ordered m s₀ w' s' := by
  have hrated := hs.toRated.steps hactive h
  have hbase := hs.base trail base hactive
  cases h with
  | stopped h =>
    obtain ⟨b, hbecomes, herrors, hended, _⟩ := h
    have hover : ¬ b.Quiet := by
      intro hquiet
      obtain ⟨rfl, hdone⟩ := hended hquiet.terminated
      cases hdone.symm.trans (hs.running hquiet).1
    cases s'
    obtain ⟨-, -, rfl, rfl⟩ := hbecomes
    refine ⟨hrated, hs.steady, hs.known, fun hq => absurd hq hover, ?_, hs.least, ?_,
      fun hq => absurd hq hover⟩
    · rintro ⟨hgoing, hterminated⟩
      obtain ⟨rfl, hdone⟩ := hended hterminated
      cases hdone.symm.trans hgoing
    · rw [herrors]
      exact hs.found
  | finished hforward hdepth h =>
    obtain ⟨agenda, hx, hnone, _⟩ := Explorer.decide_none (Explorer.forward_false hforward)
    refine hs.becomes hrated h ?_ ?_ rfl rfl ⟨rfl, rfl, rfl⟩ rfl id fun hq => ?_
    · rw [hx]
      exact hs.steady.setAgenda _
    · rw [hx]
      rfl
    · have hlevels := hs.leveled hq
      have hsame : s'.explorer.depth = s.explorer.depth := by
        rw [hx]
        rfl
      have hcount : s.explorer.depth - base = 0 := by omega
      rw [Leveled, activeNodes_active hactive hbase, hcount, List.take_zero] at hlevels
      rw [hx]
      exact hlevels.drop hnone
  | @back t _ _ _ hforward hdepth h hback =>
    obtain ⟨agenda, hx, hnone, _⟩ := Explorer.decide_none (Explorer.forward_false hforward)
    obtain ⟨tally, hback, hbecomes⟩ := hback.moves hdepth
    have ht : t.explorer.Steady m := hx ▸ hs.steady.setAgenda _
    have htable : s'.explorer.table = s.explorer.table := by
      rw [(Explorer.chain_of_backtrack? hback).2, hx]
      rfl
    have hsame : t.explorer.depth = s.explorer.depth := by
      rw [hx]
      rfl
    rw [h.session] at hbecomes
    refine hs.becomes hrated (h.trans hbecomes) (ht.backtrack? hback) htable rfl rfl
      ⟨rfl, rfl, rfl⟩ rfl id fun hq => ?_
    have hlevels := hs.leveled hq
    rw [Leveled, activeNodes_active hactive hbase] at hlevels
    unfold Leveled Met
    rw [htable, activeNodes_of_backtrack? hactive hdepth hback,
      activeNodes_active hactive (Nat.le_of_lt hdepth), hsame, hx]
    exact hlevels.drop hnone
  | @broken t _ hforward h hbooked hdone hrunning =>
    obtain ⟨u, f, hv⟩ := hs.adds h hbooked hforward hactive hm
    have hover : ¬ s'.session.Quiet := by
      intro hquiet
      have hplain : Plain t.config := h.config ▸ hs.plain
      obtain ⟨hsame, _⟩ := hbooked.quiet (hbooked.before hquiet).2 hplain.memoryBudget
      rw [hdone, h.session, hrunning.done] at hsame
      cases hsame
    refine ⟨hrated, hv.steady, ?_, fun hq => absurd hq hover, ?_, hs.least, ?_,
      fun hq => absurd hq hover⟩
    · exact fun key hkey => hv.known key (mem_insert.2 (.inr hkey))
    · rintro ⟨hgoing, _⟩
      cases hdone.symm.trans hgoing
    · exact hs.breaks h hbooked hforward hactive hrunning
  | @left t v z _ _ hforward h hbooked hz hleaf hback hdone =>
    obtain ⟨u, f, hv⟩ := hs.adds h hbooked hforward hactive hm
    obtain ⟨_, harrives⟩ := hs.toRated.moved hactive hforward h hbooked
    have hdepth := harrives.depth
    obtain ⟨tally, hback, hbecomes⟩ := hback.moves (hz.explorer ▸ hdepth)
    rw [hz.explorer] at hback
    rw [hz.session] at hbecomes
    have htable := (Explorer.chain_of_backtrack? hback).2
    refine hs.stays h hbooked hdone hrated (hz.trans hbecomes) ⟨rfl, rfl, rfl⟩ rfl rfl
      (hv.steady.backtrack? hback) ?_ rfl fun hquiet => ?_
    · rw [htable]
      exact hv.known
    · have hleft : w.visited.contains (key v) = true ∨ v.explorer.isEnd = true := by
        obtain ⟨_, _, _, hignored⟩ := hs.books h hbooked hdone
        rcases hleaf with hskip | hcontains | hend | hreached
        · have hq := h.quiet ⟨rfl, rfl, rfl⟩ (hbooked.before hquiet).1
          rw [hignored, (hs.running hq).2] at hskip
          cases hskip
        · exact .inl hcontains
        · exact .inr hend
        · unfold depthLimitReached at hreached
          rw [hbooked.config, h.config, hs.plain.depthLimit] at hreached
          cases hreached
      unfold Leveled Met
      rw [htable, activeNodes_of_backtrack? (w := w.mark v) hactive hdepth hback,
        activeNodes_active (w := w.mark v) hactive (Nat.le_of_lt hdepth)]
      exact hv.leaves hm hquiet hleft
  | @entered t v z _ _ hforward h hbooked hz hdefers hfresh hlimit hdone =>
    obtain ⟨u, f, hv⟩ := hs.adds h hbooked hforward hactive hm
    obtain ⟨_, harrives⟩ := hs.toRated.moved hactive hforward h hbooked
    have hleveled := fun hquiet =>
      hv.enters hm hquiet hactive harrives.depth harrives.fresh hz.explorer hdefers
    cases hdefers with
    | kept =>
      have hsame := hz.explorer
      rw [← hsame] at hz
      refine hs.stays h hbooked hdone hrated hz ⟨rfl, rfl, rfl⟩ rfl rfl ?_ ?_ rfl hleveled
      · rw [hsame]
        exact hv.steady
      · rw [hsame]
        exact hv.known
    | split _ _ hsplit _ =>
      have hsame := hsplit.explorer
      rw [hz.session, ← hsame] at hsplit
      refine hs.stays h hbooked hdone hrated (hz.trans hsplit) ⟨rfl, rfl, rfl⟩ rfl rfl ?_ ?_ rfl
        hleveled
      · rw [hsame, hz.explorer]
        exact hv.steady.setAgenda _
      · rw [hsame, hz.explorer]
        exact hv.known

end

theorem Rated.start {p : Program} {mode : Symmetry} (hs' : s'.Honest p mode)
    (hwaiting : ∀ item ∈ (initial s.explorer).waiting, item.Genuine p mode)
    (hplain : Plain s.config) (hbottom : s.explorer.trail.below = [])
    (h : s.Becomes s.explorer (.start s.explorer) s') :
    Rated p mode (initial s.explorer) s' := by
  cases s'
  obtain ⟨rfl, rfl, rfl, rfl⟩ := h
  have hgenuine := hs'.explorer.trail
  have hpath : pathOf (s.explorer.trail.top :: s.explorer.trail.below) = [] := by
    refine List.eq_nil_of_length_eq_zero (hgenuine.length_path.trans ?_)
    rw [Trail.depth, hbottom]
    rfl
  have hlast := hgenuine.lastThread_eq
  rw [hpath] at hlast
  have hcost : ∀ t, costOf p mode s.explorer.trail.top s.explorer.trail.below t = 0 := by
    intro t
    unfold costOf
    rw [hpath, ← hlast]
    exact Nat.add_zero _ |>.trans Program.preemptions_nil
  refine ⟨hs', hwaiting, hplain, fun _ _ => Nat.zero_le _, fun _ _ h => (by cases h),
    fun _ _ h => (by cases h), ?_, ?_⟩
  · intro item hitem
    unfold initial at hitem
    dsimp only at hitem
    split at hitem
    · cases hitem
    · rw [WorkQueue.toList_push] at hitem
      obtain rfl := List.mem_singleton.1 hitem
      exact fun t _ => hcost t
  · intro item hitem
    cases hitem

theorem Ordered.start (hm : s.explorer.model.Exact)
    (hsteady : s.explorer.Steady s.explorer.model) (hx : s.explorer.Initial s₀ f)
    (hplain : Plain s.config) (h : s.Becomes s.explorer (.start s.explorer) s')
    (hs' : s'.Honest s.explorer.model.program s.explorer.model.symmetry)
    (hwaiting : ∀ item ∈ (initial s.explorer).waiting,
      item.Genuine s.explorer.model.program s.explorer.model.symmetry) :
    Ordered s.explorer.model s₀ (initial s.explorer) s' := by
  have hrated := Rated.start hs' hwaiting hplain hx.below h
  have hvisited : ∀ key, key ∈ (initial s.explorer).visited ↔
      key = (s.explorer.stateId, none) := by
    intro key
    unfold initial
    rw [mem_insert]
    simp
  have hmet : ∀ last g, (initial s.explorer).Met s.explorer last g ↔ last = none ∧ g = f := by
    intro last g
    constructor
    · rintro ⟨id, hmem, hid⟩
      exact ⟨(Prod.mk.inj ((hvisited _).1 hmem)).2, hx.only g id hid⟩
    · rintro ⟨rfl, rfl⟩
      exact ⟨_, (hvisited _).2 rfl, hx.number⟩
  cases s'
  obtain ⟨rfl, rfl, rfl, rfl⟩ := h
  refine ⟨hrated, hsteady, ?_, fun _ => ⟨rfl, rfl⟩, fun _ => rfl, fun _ _ => Nat.zero_le _,
    fun hne => absurd rfl hne, fun _ => ?_⟩
  · intro key hmem
    obtain rfl := (hvisited key).1 hmem
    exact ⟨f, hx.number⟩
  · rw [Leveled, activeNodes_idle rfl, List.nil_append]
    have hnode : s.explorer.model.program.WellFormed s.explorer.trail.top.state :=
      hx.state ▸ hx.wellFormed
    have hprint : s.explorer.model.fingerprint s.explorer.trail.top.state = .ok f :=
      hx.state ▸ hx.fingerprint
    -- no thread has run yet, so nothing is a preemption
    have hfree : ∀ {k : Nat} {r : State} {t : ThreadId} (g : Fingerprint),
        Due ((initial s.explorer).Met s.explorer) k r g t → g = f ∧ k = 0 := by
      rintro k r t g ⟨last, hg, hcost⟩
      obtain ⟨rfl, hsame⟩ := (hmet last g).1 hg
      exact ⟨hsame, hcost.symm⟩
    refine ⟨?_, ⟨fun _ _ => False, fun _ hfalse => hfalse.elim, ?_, ?_⟩, ?_, ?_⟩
    · exact ⟨s₀, f, hx.wellFormed, hx.fingerprint, (hmet none f).2 ⟨rfl, rfl⟩,
        hx.wellFormed.toCoherent.similar⟩
    · intro choices r fault _ hfewer
      cases hfewer
    · rintro r g _ _ t ⟨_, hfalse, _⟩
      exact hfalse.elim
    · refine initial_covers hx.fresh ?_
      exact (hm.covers_new hnode hprint hx.fresh).of_subset fun g hg => (hfree g hg).1
    · intro r g _ _ t hg
      cases (hfree g hg).2

end Ordered

end Bounded

def Frontier.Ordered (m : Model) (s₀ : State) (c : Config) : Frontier → Search → Prop
  | .bounded w, s => s.config = c ∧ Bounded.Ordered m s₀ w s
  | _, _ => False

variable {c : Config} {s : Search}

theorem Frontier.Ordered.turn {m : Model} (hm : m.Exact) {s₀ : State}
    (hinitial : m.program.initialState = .ok s₀) {frontier : Frontier} {s' : Search}
    (hs : frontier.Ordered m s₀ c s) {r : Option Frontier} (h : frontier.Turns s r s') :
    (∀ f, r = some f → f.Ordered m s₀ c s') ∧
      (r = none → s'.config = c ∧ Bounded.Decides m.program m.symmetry s') := by
  have hconfig := h.records.config
  cases h with
  | depthFirst => exact hs.elim
  | exhausted => exact hs.elim
  | walks => exact hs.elim
  | takes hactive h =>
    obtain ⟨hmore, hlast⟩ := hs.2.takes hinitial hactive h
    exact left_map (fun w' hw' => ⟨hconfig.trans hs.1, hmore w' hw'⟩) fun hnone =>
      ⟨hconfig.trans hs.1, hlast hnone⟩
  | steps hactive h => exact left_some ⟨hconfig.trans hs.1, hs.2.steps hm hactive h⟩

theorem Fresh.ordered {p : Program} (hp : p.Sound) (hunfiltered : p.Unfiltered) (hc : c.Exact)
    (hstrategy : c.strategy = .contextBounded) (hplain : Bounded.Plain c) (hs : s.Fresh p c) :
    s.explorer.model.Exact ∧ ∃ s₀, s.explorer.model.program.initialState = .ok s₀ ∧
      ∀ {f t}, Starts s f t → f.Ordered s.explorer.model s₀ c t := by
  obtain ⟨hm, hsteady, s₀, f, hinitial, hx⟩ := Explorer.start_initial hp hunfiltered hc hs.start
  have hgenuine := hs.start.genuine
  have hhonest := hs.honest_model
  rw [← hgenuine.program] at hinitial
  refine ⟨hm, s₀, hinitial, fun hstarts => ?_⟩
  obtain ⟨ht, hwaiting⟩ := hhonest.starts hstarts
  have hconfig := hstarts.config.trans hs.config
  rw [← hs.config] at hstrategy hplain
  cases hstarts with
  | depthFirst hdfs | walks hdfs => cases hstrategy.symm.trans hdfs
  | bounded _ h => exact ⟨hconfig, Bounded.Ordered.start hm hsteady hx hplain h ht hwaiting⟩

end Search

/-- Context-bounded search goes by preemptions. A step that is made under a bound leads to a path with
exactly that many of them, and no bound is above the limit. Where some violation is within the limit,
one is reported, and whatever is reported has as few preemptions as any violation. -/
theorem bounded_search_least {source path : String} {p : Program}
    (hp : Program.ofSource source path = .ok p) (hunfiltered : p.Unfiltered) {c : Config}
    (hc : c.Exact) (hstrategy : c.strategy = .contextBounded) (hplain : Search.Bounded.Plain c)
    {s s' : Search} (hs : s.Fresh p c) {fuel : Nat} {report : Report}
    (h : s.perform (Search.run fuel) = (.ok (some report), s'))
    (hterminated : report.terminated = false) :
    (∀ (w : Search.Bounded) (t : Search) (x : Explorer), s.Passes (.bounded w) t →
      w.active ≠ none → t.explorer.forward = (.ok true, x) →
      p.preemptions c.symmetry (choicesOf x.path) = w.preemptions ∧
      ∀ limit, c.preemptionLimit = some limit → w.preemptions ≤ limit) ∧
    (∀ choices, p.Violating c.symmetry choices →
      (∀ limit, c.preemptionLimit = some limit → p.preemptions c.symmetry choices ≤ limit) →
      ∃ e, report.errors = [e]) ∧
    ∀ e ∈ report.errors, p.Violating c.symmetry (choicesOf e.path) ∧
      ∀ choices, p.Violating c.symmetry choices →
        p.preemptions c.symmetry (choicesOf e.path) ≤ p.preemptions c.symmetry choices := by
  have hgenuine := hs.start.genuine
  obtain ⟨hm, s₀, hinitial, hstart⟩ :=
    hs.ordered (ofSource_sound hp) hunfiltered hc hstrategy hplain
  obtain ⟨t, ⟨hconfig, hdecides⟩, rfl, -⟩ :=
    Search.run_invariant hstart (fun hI hturn => hI.turn hm hinitial hturn) h
  have hdecides := hdecides hterminated
  rw [hgenuine.program, hgenuine.symmetry, hconfig] at hdecides
  refine ⟨fun w t x hpasses hactive hforward => ?_, fun choices hviolating hwithin => ?_, ?_⟩
  · have hordered := hpasses.invariant hstart fun hI hturn => (hI.turn hm hinitial hturn).1 _ rfl
    obtain ⟨⟨trail, base⟩, hbase⟩ := Option.ne_none_iff_exists'.1 hactive
    have hcount := hordered.2.forward hbase hforward
    rw [hgenuine.program, hgenuine.symmetry] at hcount
    refine ⟨hcount, ?_⟩
    rw [← hordered.1]
    exact hordered.2.limit
  · rcases hdecides with ⟨e, he, _⟩ | ⟨_, hexceeds⟩
    · exact ⟨e, he⟩
    · obtain ⟨limit, hlimit, hmore⟩ := hexceeds choices hviolating
      have hle := hwithin limit hlimit
      omega
  · intro e he
    rcases hdecides with ⟨e', hone, hviolating, hleast⟩ | ⟨hnone, _⟩
    · have hsame : e ∈ [e'] := hone ▸ he
      rw [List.mem_singleton.1 hsame]
      exact ⟨hviolating, hleast⟩
    · have hnil : e ∈ [] := hnone ▸ he
      cases hnil

def glimpse : Program where
  path := "glimpse"
  classes := ⟨"Main", .plain, [], [⟨"n", .int, false, 0⟩, ⟨"m", .int, false, 0⟩]⟩ ::
    builtinClasses.tail
  methods := [
    ⟨"a", false, [],
      [⟨.assign (.staticVar 0 0) (.expr (.int 1)), .onLine 5 3 7⟩,
        ⟨.assign (.staticVar 0 0) (.expr (.int 0)), .onLine 6 3 7⟩],
      ["n = 1", "n = 0"]⟩,
    ⟨"b", false, [], [⟨.assign (.staticVar 0 1) (.expr (.staticVar 0 0)), .onLine 9 3 7⟩],
      ["m = n"]⟩]
  threads := [⟨"a", 0⟩, ⟨"b", 1⟩]
  invariants := [⟨.binary .eq (.staticVar 0 1) (.int 0), .onLine 3 1 16⟩]

theorem glimpse_source : Program.ofSource
    ("static int n = 0\nstatic int m = 0\ninvariant m == 0\n" ++
      "thread a \x7b\n  n = 1\n  n = 0\n\x7d\nthread b \x7b\n  m = n\n\x7d\n") "glimpse" =
    .ok glimpse := by
  decide +kernel

/-- The flag is seen only if the first thread is preempted, and once is enough. -/
theorem glimpse_preempted : ∃ (s s' : Search) (report : Report) (e : Violation),
    s.Fresh glimpse
      { Config.default with strategy := .contextBounded, preemptionLimit := some 2 } ∧
    s.perform (Search.run 1000) = (.ok (some report), s') ∧ report.terminated = false ∧
    report.errors = [e] ∧ glimpse.Violating .fast (choicesOf e.path) ∧
    glimpse.preemptions .fast (choicesOf e.path) = 1 ∧
    (∀ choices, glimpse.Violating .fast choices → 1 ≤ glimpse.preemptions .fast choices) ∧
    ∀ (w : Search.Bounded) (t : Search) (x : Explorer), s.Passes (.bounded w) t →
      w.active ≠ none → t.explorer.forward = (.ok true, x) →
      glimpse.preemptions .fast (choicesOf x.path) = w.preemptions ∧ w.preemptions ≤ 2 := by
  have hrun : (Check.report? glimpse
      { Config.default with strategy := .contextBounded, preemptionLimit := some 2 } 1000).map
        (fun report => (report.terminated,
          report.errors.map fun e => glimpse.preemptions .fast (choicesOf e.path))) =
      some (false, [1]) := by
    decide +kernel
  obtain ⟨report, hreport, hfound⟩ := Option.map_eq_some_iff.1 hrun
  obtain ⟨hterminated, herrors⟩ := Prod.mk.inj hfound
  obtain ⟨e, he, hcount⟩ := List.map_eq_singleton_iff.1 herrors
  obtain ⟨s, s', hs, hperform⟩ := Check.report?_eq_some hreport
  have hunfiltered : glimpse.Unfiltered := by
    constructor <;> simp [glimpse, builtinClasses]
  obtain ⟨hsteps, _, hleast⟩ := bounded_search_least glimpse_source hunfiltered
    ⟨rfl, rfl, rfl, rfl, rfl⟩ rfl ⟨rfl, rfl, rfl⟩ hs hperform hterminated
  obtain ⟨hviolating, hfewest⟩ := hleast e (by simp [he])
  refine ⟨s, s', report, e, hs, hperform, hterminated, he, hviolating, hcount, ?_, ?_⟩
  · intro choices hother
    exact hcount ▸ hfewest choices hother
  · intro w t x hpasses hactive hforward
    obtain ⟨hexact, hlimit⟩ := hsteps w t x hpasses hactive hforward
    exact ⟨hexact, hlimit 2 rfl⟩

/-- A program that has terminated from the start, with an invariant that does not hold. -/
def dormant : Program where
  path := "dormant"
  classes := ⟨"Main", .plain, [], [⟨"x", .int, false, 0⟩]⟩ :: builtinClasses.tail
  methods := [⟨"t", false, [], [], []⟩]
  threads := [⟨"t", 0⟩]
  invariants := [⟨.binary .eq (.staticVar 0 0) (.int 1), .onLine 4 1 16⟩]

theorem dormant_source : Program.ofSource
    "static int x = 0\nthread t \x7b\n\x7d\ninvariant x == 1\n" "dormant" = .ok dormant := by
  decide +kernel

theorem dormant_initial : ∃ s₀, dormant.initialState = .ok s₀ ∧ s₀.Finished ∧
    ¬ dormant.Holds s₀ none := by
  obtain ⟨s₀, hinitial, hend, hviolated⟩ : ∃ s₀, dormant.initialState = .ok s₀ ∧
      (s₀.isEnd = true ∧ s₀.isDeadlocked = false) ∧ dormant.violated s₀ ≠ .ok none :=
    ⟨_, rfl, by decide +kernel, by decide +kernel⟩
  have hfinished := State.finished_iff.2 hend
  refine ⟨s₀, hinitial, hfinished, fun hholds => hviolated ?_⟩
  exact Program.violated_eq_none.2 (hholds.invariants hfinished)

/-- Properties are checked after steps only: an invariant that does not hold in an initial state where
every thread has terminated is not reported, although no execution has fewer preemptions. -/
theorem dormant_unreported : ∃ (s s' : Search) (report : Report) (s₀ : State),
    Program.ofSource "static int x = 0\nthread t \x7b\n\x7d\ninvariant x == 1\n" "dormant" =
      .ok dormant ∧
    s.Fresh dormant { Config.default with strategy := .contextBounded } ∧
    s.perform (Search.run 10) = (.ok (some report), s') ∧ report.terminated = false ∧
    dormant.Execution .fast [] s₀ none ∧ dormant.preemptions .fast [] = 0 ∧
    ¬ dormant.Holds s₀ none ∧ report.errors = [] := by
  have hrun : (Check.report? dormant { Config.default with strategy := .contextBounded } 10).map
      (fun report => (report.terminated, report.errors)) = some (false, []) := by
    decide +kernel
  obtain ⟨report, hreport, hfound⟩ := Option.map_eq_some_iff.1 hrun
  obtain ⟨hterminated, herrors⟩ := Prod.mk.inj hfound
  obtain ⟨s, s', hs, hperform⟩ := Check.report?_eq_some hreport
  obtain ⟨s₀, hinitial, _, hfails⟩ := dormant_initial
  exact ⟨s, s', report, s₀, dormant_source, hs, hperform, hterminated, .start hinitial,
    Program.preemptions_nil, hfails, herrors⟩

end Interleave
