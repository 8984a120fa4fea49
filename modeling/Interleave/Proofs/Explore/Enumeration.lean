import Interleave.Proofs.Explore.Progress

set_option autoImplicit false

namespace Interleave

variable {move : ThreadId × Option Int64} {data : Option Int64}

def integersBetween (min max : Int64) : List Int64 :=
  (List.range (max.toInt + 1 - min.toInt).toNat).map fun i : Nat => Int64.ofInt (min.toInt + i)

def Program.nextChoice? (p : Program) (s : State) (t : ThreadId) : Option (Int64 × Int64) :=
  (s.topFrame? t).bind fun f => (p.statement? f.method f.pc).bind (·.value.choice?)

/-- The moves of a thread: one for each integer that its next statement may choose, or a single one
when the statement chooses none. -/
def Program.movesOf (p : Program) (s : State) (t : ThreadId) : List (ThreadId × Option Int64) :=
  match p.nextChoice? s t with
  | some (min, max) => (integersBetween min max).map fun v => (t, some v)
  | none => [(t, none)]

def Program.moves (p : Program) (s : State) : List (ThreadId × Option Int64) :=
  s.runnable.flatMap (p.movesOf s)

section Moves

variable {p : Program} {s : State} {t : ThreadId} {min max v : Int64}

/-- Nothing wraps around between the two ends. -/
theorem toInt_integersBetween {i : Nat} (hi : i < (max.toInt + 1 - min.toInt).toNat) :
    (Int64.ofInt (min.toInt + i)).toInt = min.toInt + i := by
  have hlow := Int64.le_toInt min
  have hhigh := Int64.toInt_lt max
  exact Int64.toInt_ofInt_of_le (by omega) (by omega)

theorem mem_integersBetween : v ∈ integersBetween min max ↔ min ≤ v ∧ v ≤ max := by
  simp only [integersBetween, List.mem_map, List.mem_range, Int64.le_iff_toInt_le]
  constructor
  · rintro ⟨i, hi, rfl⟩
    rw [toInt_integersBetween hi]
    omega
  · rintro ⟨hmin, hmax⟩
    refine ⟨(v.toInt - min.toInt).toNat, by omega, ?_⟩
    have hvalue : min.toInt + (v.toInt - min.toInt).toNat = v.toInt := by omega
    rw [hvalue, Int64.ofInt_toInt]

theorem integersBetween_ascending (min max : Int64) :
    (integersBetween min max).Pairwise (· < ·) := by
  unfold integersBetween
  rw [List.pairwise_map]
  refine List.pairwise_lt_range.imp_of_mem fun {i j} hi hj hij => ?_
  rw [Int64.lt_iff_toInt_lt, toInt_integersBetween (List.mem_range.1 hi),
    toInt_integersBetween (List.mem_range.1 hj)]
  omega

theorem thread_of_mem_movesOf (h : move ∈ p.movesOf s t) : move.1 = t := by
  unfold Program.movesOf at h
  split at h
  · obtain ⟨v, _, rfl⟩ := List.mem_map.1 h
    rfl
  · rw [List.mem_singleton.1 h]

theorem runnable_ascending (s : State) : s.runnable.Pairwise (· < ·) := by
  unfold State.runnable
  rw [List.pairwise_filterMap]
  refine (List.pairwise_iff_getElem.2 ?_ : s.threads.zipIdx.Pairwise fun x y => x.2 < y.2).imp ?_
  · intro i j hi hj hij
    simpa using hij
  · rintro ⟨x, i⟩ ⟨y, j⟩ hij t ht u hu
    grind

theorem Program.WellFormed.mem_moves (hs : p.WellFormed s) :
    (t, data) ∈ p.moves s ↔ t ∈ s.runnable ∧ p.Offers s t data := by
  have hone : t ∈ s.runnable → ((t, data) ∈ p.movesOf s t ↔ p.Offers s t data) := by
    intro ht
    obtain ⟨f, _, stmt, hf, _, _, hstmt⟩ := hs.statement ht
    have hoffers : p.Offers s t data ↔ stmt.value.Offers data := by
      constructor
      · rintro ⟨f', stmt', hf', hstmt', h⟩
        cases hf.symm.trans hf'
        cases hstmt.symm.trans hstmt'
        exact h
      · exact fun h => ⟨f, stmt, hf, hstmt, h⟩
    have hchoice : p.nextChoice? s t = stmt.value.choice? := by
      rw [Program.nextChoice?, hf, Option.bind_some, hstmt, Option.bind_some]
    rw [hoffers, Program.movesOf, hchoice, Stmt.Offers]
    cases stmt.value.choice? with
    | none => simp
    | some range => simp [mem_integersBetween, and_comm, eq_comm]
  unfold Program.moves
  rw [List.mem_flatMap]
  constructor
  · rintro ⟨u, hu, hmem⟩
    obtain rfl : t = u := thread_of_mem_movesOf hmem
    exact ⟨hu, (hone hu).1 hmem⟩
  · rintro ⟨ht, hoffers⟩
    exact ⟨t, ht, (hone ht).2 hoffers⟩

theorem Program.moves_nodup (p : Program) (s : State) : (p.moves s).Nodup := by
  refine List.nodup_flatMap.2 ⟨fun t _ => ?_, ?_⟩
  · unfold Program.movesOf
    split
    · refine List.Nodup.map (fun v w h => ?_) ((integersBetween_ascending _ _).imp Int64.ne_of_lt)
      exact Option.some.inj (Prod.mk.inj h).2
    · exact List.nodup_singleton _
  · refine (runnable_ascending s).imp fun {t u} htu => ?_
    intro move ht hu
    have hsame := (thread_of_mem_movesOf ht).symm.trans (thread_of_mem_movesOf hu)
    exact absurd hsame (Nat.ne_of_lt htu)

end Moves

structure Interval.StandsAt (g : Interval) (min max : Int64) (n : Nat) : Prop where
  low : g.min = min
  length : g.length = (max.toInt + 1 - min.toInt).toNat
  shuffles : g.shuffles = []
  closed : g.progress.closed = false
  next : g.progress.next = n

structure ChoicePoint.StandsAt (schedule : ChoicePoint) (s : State) (i : Nat) : Prop where
  threads : ∃ g, schedule = .thread g ∧ g.items = s.runnable
  closed : schedule.progress.closed = false
  next : schedule.progress.next = i

inductive Agenda.Lists (p : Program) (s : State) :
    Option Agenda → List (ThreadId × Option Int64) → Prop where
  | nothing : Lists p s none []
  | threads {a : Agenda} {i : Nat} (hschedule : a.schedule.StandsAt s i)
      (hdone : a.data.bind Interval.advance? = none) :
      Lists p s (some a) ((s.runnable.drop i).flatMap (p.movesOf s))
  | integers {a : Agenda} {i n : Nat} {g : Interval} {t : ThreadId} {min max : Int64}
      (hschedule : a.schedule.StandsAt s i)
      (hthread : a.schedule.current? = some (.thread t)) (hdata : a.data = some g)
      (hg : g.StandsAt min max n) :
      Lists p s (some a) (((integersBetween min max).drop n).map (fun v => (t, some v)) ++
        (s.runnable.drop i).flatMap (p.movesOf s))

section Lists

variable {p : Program} {s : State} {a a' : Agenda} {move : Move} {random' : Option Random.Source}
  {moves : List (ThreadId × Option Int64)} {t : ThreadId} {g : Interval} {min max : Int64} {n : Nat}

theorem Interval.StandsAt.advance? {g' : Interval} (h : g.StandsAt min max n)
    (hg : g.advance? = some g') :
    ∃ v, g'.current? = some v ∧ g'.StandsAt min max (n + 1) ∧
      (integersBetween min max).drop n = v :: (integersBetween min max).drop (n + 1) := by
  obtain ⟨_, hlt, rfl⟩ := advance?_eq_some.1 hg
  obtain rfl := h.next
  have hlt' : g.progress.next < (integersBetween min max).length := by
    rw [integersBetween, List.length_map, List.length_range, ← h.length]
    exact hlt
  refine ⟨(integersBetween min max)[g.progress.next], ?_,
    ⟨h.low, h.length, h.shuffles, h.closed, rfl⟩, List.drop_eq_getElem_cons hlt'⟩
  simp [Interval.current?, Progress.advance, Interval.offsetAt, h.shuffles, integersBetween, h.low]

theorem Interval.StandsAt.drop_eq_nil (h : g.StandsAt min max n) (hg : g.advance? = none) :
    (integersBetween min max).drop n = [] := by
  have hend : ¬ g.progress.next < g.length := by
    intro hlt
    rw [advance?_eq_some.2 ⟨h.closed, hlt, rfl⟩] at hg
    cases hg
  rw [List.drop_eq_nil_iff, integersBetween, List.length_map, List.length_range, ← h.length,
    ← h.next]
  omega

theorem ChoicePoint.StandsAt.advance? {schedule schedule' : ChoicePoint} {i : Nat}
    (h : schedule.StandsAt s i) (hadvance : schedule.advance? = some schedule')
    (hthread : schedule'.current? = some (.thread t)) :
    schedule'.StandsAt s (i + 1) ∧ s.runnable.drop i = t :: s.runnable.drop (i + 1) := by
  obtain ⟨g, rfl, hitems⟩ := h.threads
  obtain ⟨g', hg', rfl⟩ := Option.map_eq_some_iff.1 hadvance
  obtain ⟨_, hlt, rfl⟩ := Listed.advance?_eq_some.1 hg'
  obtain rfl : g.progress.next = i := h.next
  obtain ⟨u, hu, heq⟩ := Option.map_eq_some_iff.1 hthread
  cases heq
  refine ⟨⟨⟨_, rfl, hitems⟩, h.closed, rfl⟩, ?_⟩
  have hitem : g.items[g.progress.next]? = some t := hu
  rw [← hitems, List.drop_eq_getElem_cons hlt]
  rw [List.getElem?_eq_getElem hlt] at hitem
  rw [Option.some.inj hitem]

theorem Agenda.Lists.of_done (h : Agenda.Lists p s (some a) moves)
    (hdone : a.data.bind Interval.advance? = none) :
    ∃ i, a.schedule.StandsAt s i ∧ moves = (s.runnable.drop i).flatMap (p.movesOf s) := by
  cases h with
  | threads hschedule _ => exact ⟨_, hschedule, rfl⟩
  | integers hschedule _ hdata hg =>
    rw [hdata, Option.bind_some] at hdone
    refine ⟨_, hschedule, ?_⟩
    rw [hg.drop_eq_nil hdone]
    rfl

theorem Program.movesOf_eq {f : StackFrame} (hf : s.topFrame? t = some f) :
    p.movesOf s t = match (p.statement? f.method f.pc).bind (·.value.choice?) with
      | some (min, max) => (integersBetween min max).map fun v => (t, some v)
      | none => [(t, none)] := by
  rw [Program.movesOf, Program.nextChoice?, hf, Option.bind_some]

theorem Agenda.Takes.lists (h : Agenda.Takes p s a none move a' random')
    (hlists : Agenda.Lists p s (some a) moves) :
    ∃ rest, moves = (move.thread, move.data) :: rest ∧ Agenda.Lists p s (some a') rest := by
  cases h with
  | @integer t f g g' hdata hadvance hthread hframe =>
    cases hlists with
    | threads _ hdone =>
      rw [hdata, Option.bind_some, hadvance] at hdone
      cases hdone
    | @integers _ i n g₁ u min max hschedule hthread' hdata' hg =>
      cases hdata.symm.trans hdata'
      cases hthread.symm.trans hthread'
      obtain ⟨v, hv, hg', hdrop⟩ := hg.advance? hadvance
      refine ⟨_, ?_, .integers hschedule hthread rfl hg'⟩
      rw [hdrop, hv]
      rfl
  | @thread t f schedule hdone hadvance hthread hframe hplain =>
    obtain ⟨i, hschedule, rfl⟩ := hlists.of_done hdone
    obtain ⟨hnext, hdrop⟩ := hschedule.advance? hadvance hthread
    refine ⟨_, ?_, .threads hnext rfl⟩
    rw [hdrop, List.flatMap_cons, Program.movesOf_eq hframe, hplain]
    rfl
  | @choice _ t f schedule min max g hdone hadvance hthread hframe hchoice hopen =>
    obtain ⟨i, hschedule, rfl⟩ := hlists.of_done hdone
    obtain ⟨hnext, hdrop⟩ := hschedule.advance? hadvance hthread
    obtain ⟨hg, _⟩ := Prod.mk.inj hopen
    have hstart : ((Interval.between f.choiceId min max).setCascaded true).StandsAt min max 0 :=
      ⟨rfl, rfl, rfl, rfl, rfl⟩
    obtain ⟨v, hv, hg', hfirst⟩ := hstart.advance? hg
    refine ⟨_, ?_, .integers hnext hthread rfl hg'⟩
    rw [hdrop, List.flatMap_cons, Program.movesOf_eq hframe, hchoice, hv]
    rw [List.drop_zero] at hfirst
    change (integersBetween min max).map _ ++ _ = _
    rw [hfirst]
    rfl

theorem Agenda.Lists.pending (h : Agenda.Lists p s (some a) ((t, data) :: moves)) :
    ∃ t data, a.Pending t data := by
  have hcoming : ∀ {i : Nat}, a.schedule.StandsAt s i → s.runnable.drop i ≠ [] →
      ∃ t data, a.Pending t data := by
    intro i hschedule hne
    obtain ⟨u, hu⟩ := List.exists_mem_of_ne_nil _ hne
    obtain ⟨g, hg, hitems⟩ := hschedule.threads
    have hclosed := hschedule.closed
    have hnext := hschedule.next
    rw [hg] at hclosed hnext
    refine ⟨u, none, .inr ⟨g, hg, hclosed, ?_⟩⟩
    obtain rfl : g.progress.next = i := hnext
    rw [hitems]
    exact hu
  generalize hlist : (t, data) :: moves = l at h
  cases h with
  | threads hschedule _ =>
    refine hcoming hschedule fun hnil => ?_
    rw [hnil] at hlist
    cases hlist
  | @integers _ i n g u min max hschedule hthread hdata hg =>
    by_cases hmore : g.progress.next < g.length
    · exact ⟨u, _, .inl ⟨g, _, hdata, rfl, ⟨hg.closed, _, Nat.le_refl _, hmore, rfl⟩, hthread⟩⟩
    · refine hcoming hschedule fun hnil => ?_
      have hend : g.advance? = none := by
        cases hadvance : g.advance? with
        | none => rfl
        | some g' => exact absurd (Interval.advance?_eq_some.1 hadvance).2.1 hmore
      rw [hnil, hg.drop_eq_nil hend] at hlist
      cases hlist

theorem Agenda.Lists.ended (h : Agenda.Lists p s (some a) []) :
    Agenda.Lists p s (some ⟨a.schedule, none⟩) [] := by
  have hended : ∀ {i : Nat}, a.schedule.StandsAt s i →
      (s.runnable.drop i).flatMap (p.movesOf s) = [] →
      Agenda.Lists p s (some ⟨a.schedule, none⟩) [] := by
    intro i hschedule hnil
    rw [← hnil]
    exact .threads hschedule rfl
  generalize hlist : ([] : List (ThreadId × Option Int64)) = l at h
  cases h with
  | threads hschedule _ => exact hlist ▸ hended hschedule hlist.symm
  | integers hschedule _ _ _ =>
    obtain ⟨_, hnil⟩ := List.append_eq_nil_iff.1 hlist.symm
    exact hlist ▸ hended hschedule hnil

theorem Agenda.lists_ofState (p : Program) (s : State) :
    Agenda.Lists p s (Agenda.ofState s) (p.moves s) := by
  unfold Agenda.ofState
  split
  · next hend =>
    have hnone : s.runnable = [] := by
      unfold State.isEnd at hend
      simpa using hend
    rw [Program.moves, hnone]
    exact .nothing
  · exact .threads ⟨⟨_, rfl, rfl⟩, rfl, rfl⟩ rfl

end Lists

/-- Ways to explore what lies above a node and come back to it: steps forward and back, attempts to
go forward that find nothing, and other decisions, of the node itself too. -/
inductive Explorer.Excursion : Explorer → Explorer → Prop where
  | done (x : Explorer) : Excursion x x
  | descend {x y z x' w : Explorer} (hforward : x.forward = (.ok true, y)) (habove : Excursion y z)
      (hback : z.backtrack? = some x') (hrest : Excursion x' w) : Excursion x w
  | attempt {x w : Explorer} (hforward : x.forward.1 ≠ .ok true)
      (hrest : Excursion x.forward.2 w) : Excursion x w
  | decide {x w : Explorer} (agenda : Option Agenda) (hrest : Excursion (x.setAgenda agenda) w) :
      Excursion x w

/-- Going forward from a node, exploring what lies above and coming back, time after time: the nodes
that were met first each time. -/
inductive Explorer.Rounds (x : Explorer) : List Node → Explorer → Prop where
  | start : Rounds x [] x
  | more {met : List Node} {w y z x' : Explorer} (h : Rounds x met w)
      (hforward : w.forward = (.ok true, y)) (habove : y.Excursion z)
      (hback : z.backtrack? = some x') : Rounds x (met ++ [y.trail.top]) x'

def Explorer.Exhausted (x : Explorer) : Prop :=
  ∀ n, ((fun y : Explorer => y.forward.2)^[n] x).forward.1 = .ok false

structure Node.ComesFrom (p : Program) (layout : Layout) (s : State) (n : Node)
    (move : ThreadId × Option Int64) : Prop where
  executed : p.execute layout s move.1 move.2 = .ok (n.state, n.fault)
  shown : ∃ tr, n.transition = some tr ∧ tr.thread = move.1 ∧ tr.choice = move.2

structure Explorer.Before (p : Program) (mode : Symmetry) (x : Explorer)
    (moves : List (ThreadId × Option Int64)) : Prop where
  ready : x.Ready p mode
  random : x.random = none
  lists : Agenda.Lists p x.state x.trail.top.agenda moves

section Rounds

variable {p : Program} {mode : Symmetry} {x y z w x' : Explorer}
  {moves : List (ThreadId × Option Int64)}

theorem Explorer.forward_stays (h : x.forward.1 ≠ .ok true) :
    x.forward.2.trail.below = x.trail.below ∧ x.forward.2.model = x.model ∧
      (x.random = none → x.forward.2.random = none) := by
  have hsame : x.forward.2 = x.decide.2 := by
    unfold Explorer.forward at h ⊢
    split at h
    · next hdecide => rw [hdecide]
    · next hdecide => rw [hdecide]
    · next hdecide =>
      rw [hdecide]
      dsimp only
      split at h
      · rfl
      · exact absurd rfl h
  rw [hsame]
  have hstays := decide_stays x
  exact ⟨hstays.below, hstays.model, hstays.random⟩

theorem Explorer.Excursion.keeps_below (h : x.Excursion w) :
    w.trail.below = x.trail.below ∧ w.model = x.model ∧ (x.random = none → w.random = none) := by
  induction h with
  | done x => exact ⟨rfl, rfl, id⟩
  | @descend x y z x' w hforward _ hback _ ihabove ihrest =>
    obtain ⟨a, move, a', node, f, hadvances⟩ := forward_true hforward
    obtain ⟨hbelow, hmodel, hrandom⟩ := ihabove
    obtain ⟨hbelow', hmodel', hrandom'⟩ := ihrest
    rw [hadvances.trail] at hbelow
    obtain ⟨trail, htrail, rfl⟩ := Option.map_eq_some_iff.1 hback
    unfold Trail.back? at htrail
    rw [hbelow] at htrail
    cases htrail
    refine ⟨hbelow', (hmodel'.trans hmodel).trans hadvances.model, fun hnone => ?_⟩
    have htakes := hadvances.takes
    rw [hnone] at htakes
    exact hrandom' (hrandom htakes.unshuffled)
  | attempt hforward _ ih =>
    obtain ⟨hbelow, hmodel, hrandom⟩ := forward_stays hforward
    exact ⟨ih.1.trans hbelow, ih.2.1.trans hmodel, fun hnone => ih.2.2 (hrandom hnone)⟩
  | decide agenda _ ih => exact ih

theorem Explorer.Before.advances {a a' : Agenda} {move : Move} {node : Node} {f : Fingerprint}
    (hx : x.Before p mode moves) (h : x.Advances a move a' node f y) :
    ∃ rest, moves = (move.thread, move.data) :: rest ∧ Agenda.Lists p x.state (some a') rest := by
  have htakes := h.takes
  have hlists := hx.lists
  rw [hx.random, hx.ready.program] at htakes
  rw [h.agenda] at hlists
  exact htakes.lists hlists

/-- A round takes the first move left and comes back to the same state with the others. -/
theorem Explorer.Before.round (hx : x.Before p mode moves) (hforward : x.forward = (.ok true, y))
    (habove : y.Excursion z) (hback : z.backtrack? = some x') :
    ∃ move rest, moves = move :: rest ∧ y.trail.top.ComesFrom p x.layout x.state move ∧
      (x'.state = x.state ∧ x'.layout = x.layout) ∧ x'.Before p mode rest := by
  obtain ⟨a, move, a', node, f, hadvances⟩ := forward_true hforward
  obtain ⟨rest, hmoves, hrest⟩ := hx.advances hadvances
  have hunshuffled : y.random = none := by
    have htakes := hadvances.takes
    rw [hx.random] at htakes
    exact htakes.unshuffled
  obtain ⟨hbelow, hmodel, hrandom⟩ := habove.keeps_below
  rw [hadvances.trail] at hbelow
  obtain ⟨trail, htrail, rfl⟩ := Option.map_eq_some_iff.1 hback
  unfold Trail.back? at htrail
  rw [hbelow] at htrail
  cases htrail
  -- Coming back at once leaves the same trail, and being ready depends on nothing else.
  have hready : Explorer.Ready p mode { y with
      trail := ⟨{ x.trail.top with agenda := some a' }, x.trail.below⟩, isNew := false } := by
    refine (hx.ready.forward hforward).backtrack? (Option.map_eq_some_iff.2 ⟨_, ?_, rfl⟩)
    rw [hadvances.trail]
    rfl
  refine ⟨_, rest, hmoves, ?_, ⟨rfl, ?_⟩, ?_, hrandom hunshuffled, hrest⟩
  · rw [hadvances.trail]
    have hexecuted := hadvances.executed
    rw [hx.ready.program] at hexecuted
    exact ⟨hexecuted, _, hadvances.shown, rfl, rfl⟩
  · exact congrArg (Model.layout · x.trail.top.tables) (hmodel.trans hadvances.model)
  · exact ⟨⟨hmodel ▸ hready.program, hmodel ▸ hready.symmetry, hready.trail⟩, hready.schedules,
      hmodel ▸ hready.masks⟩

theorem Explorer.Before.goes (hp : p.Sound) (hx : x.Before p mode (move :: moves)) :
    ∃ y, x.forward = (.ok true, y) := by
  obtain ⟨moved, y, hforward⟩ := hx.ready.forward_ok hp
  cases moved with
  | true => exact ⟨y, hforward⟩
  | false =>
    obtain ⟨_, _, hnone, _⟩ := decide_none (forward_false hforward)
    have hlists := hx.lists
    cases hagenda : x.trail.top.agenda with
    | none =>
      rw [hagenda] at hlists
      cases hlists
    | some a =>
      rw [hagenda] at hlists
      obtain ⟨t, data, hpending⟩ := hlists.pending
      exact absurd hpending (hnone a hagenda t data)

theorem Explorer.Before.stays (hp : p.Sound) (hx : x.Before p mode []) :
    ∃ y, x.forward = (.ok false, y) ∧ y.Before p mode [] := by
  obtain ⟨moved, y, hforward⟩ := hx.ready.forward_ok hp
  cases moved with
  | true =>
    obtain ⟨a, move, a', node, f, hadvances⟩ := forward_true hforward
    obtain ⟨rest, hmoves, _⟩ := hx.advances hadvances
    cases hmoves
  | false =>
    have hready := hx.ready.forward hforward
    obtain ⟨agenda, rfl, _, hsame⟩ := decide_none (forward_false hforward)
    refine ⟨_, hforward, hready, hx.random, ?_⟩
    change Agenda.Lists p x.state agenda []
    cases agenda with
    | none => exact .nothing
    | some a =>
      obtain ⟨b, hb, rfl⟩ := hsame a rfl
      have hlists := hx.lists
      rw [hb] at hlists
      exact hlists.ended

theorem Explorer.Before.exhausted (hp : p.Sound) (hx : x.Before p mode []) : x.Exhausted := by
  intro n
  induction n generalizing x with
  | zero =>
    obtain ⟨y, hforward, _⟩ := hx.stays hp
    exact congrArg Prod.fst hforward
  | succ n ih =>
    obtain ⟨y, hforward, hy⟩ := hx.stays hp
    rw [Function.iterate_succ_apply, congrArg Prod.snd hforward]
    exact ih hy

/-- What the rounds so far have met and what they have left make up the moves of the state. -/
theorem Explorer.Before.rounds (hx : x.Before p mode moves) {met : List Node}
    (h : x.Rounds met w) : ∃ taken rest, moves = taken ++ rest ∧
      List.Forall₂ (Node.ComesFrom p x.layout x.state) met taken ∧
      (w.state = x.state ∧ w.layout = x.layout) ∧ w.Before p mode rest := by
  induction h with
  | start => exact ⟨[], moves, rfl, .nil, ⟨rfl, rfl⟩, hx⟩
  | more _ hforward habove hback ih =>
    obtain ⟨taken, rest, rfl, hmet, ⟨hstate, hlayout⟩, hbefore⟩ := ih
    obtain ⟨move, rest, rfl, hnode, hsame, hbefore'⟩ := hbefore.round hforward habove hback
    refine ⟨taken ++ [move], rest, by simp, ?_,
      ⟨hsame.1.trans hstate, hsame.2.trans hlayout⟩, hbefore'⟩
    rw [hstate, hlayout] at hnode
    exact List.rel_append hmet (.cons hnode .nil)

end Rounds

/-- The rounds from a node of which nothing has been taken: they meet its moves in order, one each;
as long as one is left there is another round, and after the last one there is no way forward. -/
structure Explorer.Enumerates (p : Program) (mode : Symmetry) (x : Explorer) : Prop where
  moves : ∀ t data, (t, data) ∈ p.moves x.state ↔ t ∈ x.state.runnable ∧ p.Offers x.state t data
  once : (p.moves x.state).Nodup
  symmetry : x.layout.mode = mode
  met : ∀ met w, x.Rounds met w → List.Forall₂ (Node.ComesFrom p x.layout x.state) met
    ((p.moves x.state).take met.length)
  unchanged : ∀ met w, x.Rounds met w → w.state = x.state
  goes : ∀ met w, x.Rounds met w → met.length < (p.moves x.state).length →
    ∃ y, w.forward = (.ok true, y)
  ends : ∀ met w, x.Rounds met w → met.length = (p.moves x.state).length → w.Exhausted

/-- Going forward again and again from a node that was just entered meets each successor of its state
exactly once, in the order of the threads and of the integers that they choose, whatever is explored
above the node in between. -/
theorem forward_enumerates {source path : String} {p : Program}
    (hp : Program.ofSource source path = .ok p) {c : Config} {x : Explorer} {kept : List Trail}
    (hx : Explorer.InUse p c x kept) (hrandom : x.random = none)
    (hfresh : x.trail.top.agenda = Agenda.ofState x.state) : x.Enumerates p c.symmetry := by
  have hsound := ofSource_sound hp
  have hready := (hx.ready hsound).1
  have hwf : p.WellFormed x.state := hready.trail.top.wellFormed hsound
  have hbefore : x.Before p c.symmetry (p.moves x.state) :=
    ⟨hready, hrandom, hfresh ▸ Agenda.lists_ofState p x.state⟩
  refine ⟨fun t data => hwf.mem_moves, p.moves_nodup x.state, hready.symmetry, ?_, ?_, ?_, ?_⟩
  · intro met w h
    obtain ⟨taken, rest, hmoves, hmet, _, _⟩ := hbefore.rounds h
    rw [hmoves, hmet.length_eq, List.take_left]
    exact hmet
  · intro met w h
    obtain ⟨_, _, _, _, ⟨hstate, _⟩, _⟩ := hbefore.rounds h
    exact hstate
  · intro met w h hlt
    obtain ⟨taken, rest, hmoves, hmet, _, hleft⟩ := hbefore.rounds h
    cases rest with
    | nil =>
      rw [hmoves, List.append_nil, hmet.length_eq] at hlt
      exact absurd hlt (Nat.lt_irrefl _)
    | cons move rest => exact hleft.goes hsound
  · intro met w h hall
    obtain ⟨taken, rest, hmoves, hmet, _, hleft⟩ := hbefore.rounds h
    rw [hmoves, List.length_append, hmet.length_eq] at hall
    obtain rfl : rest = [] := List.length_eq_zero_iff.1 (by omega)
    exact hleft.exhausted hsound

/-- The first thread chooses an integer after its first step, the second one never does. -/
def offeringSource : String :=
  "thread a \x7b\n  yield\n  k = choose(-1, 1)\n\x7d\nthread b \x7b\n  yield\n\x7d\n"

/-- After the first step of the first thread. -/
theorem offering_enumerates : ∃ p x y,
    Program.ofSource offeringSource "offering" = .ok p ∧ Explorer.start p Config.default = .ok x ∧
    x.forward = (.ok true, y) ∧
    p.moves y.state = [(0, some (-1)), (0, some 0), (0, some 1), (1, none)] ∧
    y.Enumerates p Config.default.symmetry := by
  have hmoves : (Program.ofSource offeringSource "offering").toOption.any (fun p =>
      (Explorer.start p Config.default).toOption.any fun x =>
        decide (x.forward.1.toOption = some true) &&
        decide (p.moves x.forward.2.state =
          [(0, some (-1)), (0, some 0), (0, some 1), (1, none)])) = true := by
    decide +kernel
  cases hp : Program.ofSource offeringSource "offering" with
  | error e =>
    rw [hp] at hmoves
    cases hmoves
  | ok p =>
    rw [hp] at hmoves
    cases hstart : Explorer.start p Config.default with
    | error e =>
      simp [hstart, Except.toOption] at hmoves
    | ok x =>
      simp only [Except.toOption, Option.any_some, hstart, Bool.and_eq_true, decide_eq_true_iff]
        at hmoves
      obtain ⟨hmoved, hmoves⟩ := hmoves
      have hstarted : x.Started p Config.default := ⟨_, hstart⟩
      obtain ⟨s₀, f, hstarts⟩ := hstarted.starts
      obtain ⟨moved, y, hforward⟩ := hstarted.ready.forward_ok (ofSource_sound hp)
      rw [hforward] at hmoved hmoves
      cases of_decide_eq_true hmoved
      obtain ⟨a, move, a', node, f', hadvances⟩ := Explorer.forward_true hforward
      have hinUse : Explorer.InUse p Config.default y [] := by
        have hleads : x.Leads [] x.forward.2 [] := .forward .refl
        rw [hforward] at hleads
        exact ⟨x, hstarted, hleads⟩
      have hrandom : y.random = none := by
        have htakes := hadvances.takes
        rw [hstarts.random] at htakes
        exact htakes.unshuffled
      have hfresh : y.trail.top.agenda = Agenda.ofState y.state := by
        unfold Explorer.state
        rw [hadvances.trail]
        exact hadvances.fresh
      exact ⟨p, x, y, rfl, hstart, hforward, hmoves,
        forward_enumerates hp hinUse hrandom hfresh⟩

end Interleave
