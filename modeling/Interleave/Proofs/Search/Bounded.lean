import Interleave.Proofs.Search.Exhaustive

set_option autoImplicit false

namespace Interleave.Search

def WorkItem.node (item : WorkItem) : Node :=
  { item.trail.top with agenda := some ⟨item.schedule, none⟩ }

namespace Bounded

variable {x x' : Explorer} {item : WorkItem} {current : WorkQueue WorkItem}

theorem mem_insert {visited : Visits} {k a : StateId × Option ThreadId} :
    a ∈ visited.insert k ↔ a = k ∨ a ∈ visited := by
  have hkey : compareLex (compareOn (·.1)) (compareOn (·.2)) k a = .eq ↔ a = k := by
    rw [compareLex_eq_eq]
    unfold compareOn
    rw [Std.LawfulEqOrd.compare_eq_iff_eq, Std.LawfulEqOrd.compare_eq_iff_eq, eq_comm,
      @eq_comm _ k.2, ← Prod.ext_iff]
  rw [Std.TreeSet.mem_insert, hkey]

def activeNodes (w : Bounded) (x : Explorer) : List Node :=
  match w.active with
  | none => []
  | some (_, base) => x.trail.chain.take (x.depth + 1 - base)

def openNodes (w : Bounded) (x : Explorer) : List Node :=
  w.activeNodes x ++ w.waiting.map WorkItem.node

def Met (w : Bounded) (x : Explorer) (last : Option ThreadId) (f : Fingerprint) : Prop :=
  ∃ id, (id, last) ∈ w.visited ∧ x.table.number? f = some id

def Visited (w : Bounded) (x : Explorer) (f : Fingerprint) : Prop := ∃ last, w.Met x last f

structure Thorough (m : Model) (s₀ : State) (w : Bounded) (s : Search) : Prop where
  honest : s.Honest m.program m.symmetry
  genuine : ∀ item ∈ w.waiting, item.Genuine m.program m.symmetry
  steady : s.explorer.Steady m
  guarded : s.Guarded
  known : ∀ key, key ∈ w.visited → ∃ f, s.explorer.table.number? f = some key.1
  base : ∀ trail base, w.active = some (trail, base) → base ≤ s.explorer.depth
  kept : s.session.Clean → s.session.ignored = false
  explored : s.session.Clean → Explored m s₀ (w.Visited s.explorer) (w.openNodes s.explorer)

variable {m : Model} {s₀ : State} {w w' : Bounded} {s s' t v : Search} {trail : Trail} {base : Nat}

theorem activeNodes_idle (hactive : w.active = none) (x : Explorer) : w.activeNodes x = [] := by
  unfold activeNodes
  rw [hactive]

theorem openNodes_idle (hactive : w.active = none) (x : Explorer) :
    w.openNodes x = w.waiting.map WorkItem.node := by
  rw [openNodes, activeNodes_idle hactive, List.nil_append]

section

variable (hactive : w.active = some (trail, base))

include hactive

theorem activeNodes_active (hbase : base ≤ x.depth) :
    w.activeNodes x = x.trail.top :: x.trail.below.take (x.depth - base) := by
  have hcount : x.depth + 1 - base = x.depth - base + 1 := by omega
  unfold activeNodes
  rw [hactive]
  simp only [hcount]
  rfl

theorem activeNodes_of_backtrack? (hbase : base < x.depth) (hback : x.backtrack? = some x') :
    w.activeNodes x' = (w.activeNodes x).tail := by
  obtain ⟨hchain, _⟩ := Explorer.chain_of_backtrack? hback
  have hdepth := Explorer.depth_of_backtrack? hback
  have hcount : x.depth - base = x'.depth - base + 1 := by omega
  rw [activeNodes_active hactive (by omega), activeNodes_active hactive (by omega), ← hchain, hcount]
  rfl

theorem openNodes_active (hbase : base ≤ x.depth) :
    w.openNodes x =
      x.trail.top :: (x.trail.below.take (x.depth - base) ++ w.waiting.map WorkItem.node) := by
  rw [openNodes, activeNodes_active hactive hbase, List.cons_append]

theorem openNodes_of_backtrack? (hbase : base < x.depth) (hback : x.backtrack? = some x') :
    w.openNodes x' = (w.openNodes x).tail := by
  rw [openNodes, openNodes, activeNodes_of_backtrack? hactive hbase hback,
    activeNodes_active hactive (Nat.le_of_lt hbase)]
  rfl

end

theorem waiting_raised (hcurrent : w.current.pop? = none) :
    waiting { w with current := w.next, next := .empty, preemptions := w.preemptions + 1 } =
      w.waiting := by
  unfold waiting
  rw [WorkQueue.toList_of_pop?_none hcurrent]
  simp [WorkQueue.toList, WorkQueue.empty]

theorem waiting_taken (hcurrent : w.current.pop? = some (item, current)) :
    w.waiting = item :: waiting { w with current } := by
  unfold waiting
  rw [WorkQueue.toList_of_pop? hcurrent]
  rfl

theorem activeNodes_taken (item : WorkItem) (current : WorkQueue WorkItem) (x : Explorer) :
    activeNodes { w with current, active := some (item.trail, item.trail.depth) }
      ((x.restore item.trail).setSchedule item.schedule) = [item.node] := by
  rw [activeNodes_active rfl (Nat.le_refl _), Nat.sub_self]
  rfl

theorem openNodes_taken (hactive : w.active = none)
    (hcurrent : w.current.pop? = some (item, current)) (x : Explorer) :
    openNodes { w with current, active := some (item.trail, item.trail.depth) }
      ((x.restore item.trail).setSchedule item.schedule) = w.openNodes x := by
  rw [openNodes, activeNodes_taken, openNodes_idle hactive, waiting_taken hcurrent]
  rfl

theorem waiting_putOff (w : Bounded) (trail : Trail) (g : Listed ThreadId) (last : ThreadId) :
    (w.putOff trail g last).waiting =
      w.waiting ++ (g.items.filter (· ≠ last)).map (deferred trail g) := by
  unfold waiting putOff
  dsimp only
  rw [WorkQueue.toList_foldl_push, List.append_assoc]

theorem upcoming_restrictTo {g : Listed ThreadId} {t : ThreadId} (h : t ∈ g.items) :
    (ChoicePoint.thread (g.restrictTo [t])).Upcoming t :=
  ⟨_, rfl, Listed.upcoming_ofList.2 (List.mem_filter.2 ⟨h, by simp⟩)⟩

section Marks

variable {x : Explorer} {f g : Fingerprint} {isNew : Bool} {last : Option ThreadId}
  (hextends : x.table.Extends f v.explorer.stateId isNew v.explorer.table)

include hextends

theorem Met.mark (h : w.Met x last g) : (w.mark v).Met v.explorer last g := by
  obtain ⟨id, hmem, hid⟩ := h
  exact ⟨id, mem_insert.2 (.inr hmem), hextends.kept g id hid⟩

theorem met_mark_self : (w.mark v).Met v.explorer v.explorer.currentThread f :=
  ⟨v.explorer.stateId, mem_insert.2 (.inl rfl), hextends.number⟩

theorem Visited.mark (h : w.Visited x g) : (w.mark v).Visited v.explorer g :=
  h.imp fun _ hmet => hmet.mark hextends

variable (hknown : ∀ key, key ∈ w.visited → ∃ g, x.table.number? g = some key.1)

include hknown

theorem known_mark (key : StateId × Option ThreadId) (hkey : key ∈ (w.mark v).visited) :
    ∃ g, v.explorer.table.number? g = some key.1 := by
  rcases mem_insert.1 hkey with rfl | hold
  · exact ⟨f, hextends.number⟩
  · obtain ⟨g, hg⟩ := hknown key hold
    exact ⟨g, hextends.kept g key.1 hg⟩

variable (hdistinct : v.explorer.table.Distinct)

include hdistinct

/-- Numbers tell fingerprints apart, so a number that was marked stands for the same fingerprint. -/
theorem met_of_mem {key : StateId × Option ThreadId} (hmem : key ∈ w.visited)
    (hg : v.explorer.table.number? g = some key.1) : w.Met x key.2 g := by
  obtain ⟨k, hk⟩ := hknown key hmem
  obtain rfl := hdistinct.injective g k key.1 hg (hextends.kept k key.1 hk)
  exact ⟨key.1, hmem, hk⟩

theorem met_of_mark (h : (w.mark v).Met v.explorer last g) :
    w.Met x last g ∨ last = v.explorer.currentThread ∧ g = f := by
  obtain ⟨id, hmem, hg⟩ := h
  rcases mem_insert.1 hmem with heq | hold
  · obtain ⟨rfl, rfl⟩ := Prod.mk.inj heq
    exact .inr ⟨rfl, hdistinct.injective g f _ hg hextends.number⟩
  · exact .inl (met_of_mem hextends hknown hdistinct hold hg)

theorem visited_of_mark (h : (w.mark v).Visited v.explorer g) : w.Visited x g ∨ g = f := by
  obtain ⟨last, hmet⟩ := h
  rcases met_of_mark hextends hknown hdistinct hmet with hold | ⟨_, hsame⟩
  · exact .inl ⟨last, hold⟩
  · exact .inr hsame

end Marks

variable (hs : Thorough m s₀ w s)

include hs

/-- What holds while the table and the findings stay as they are. -/
theorem Thorough.keeps {b : Session} (h : s.Becomes x b s') (hx : x.Genuine m.program m.symmetry)
    (hsteady : x.Steady m) (htable : x.table = s.explorer.table)
    (hgenuine : ∀ item ∈ w'.waiting, item.Genuine m.program m.symmetry)
    (hvisited : w'.visited = w.visited)
    (hbase : ∀ trail base, w'.active = some (trail, base) → base ≤ x.depth)
    (hb : SameFindings b s.session) (hdone : b.done = s.session.done)
    (hignored : s.session.ignored = false → b.ignored = false)
    (hopen : s.session.Clean → Explored m s₀ (w.Visited s.explorer) (w'.openNodes x)) :
    Thorough m s₀ w' s' := by
  have hbefore : s'.session.Clean → s.session.Clean := h.clean hb
  refine ⟨hs.honest.becomes h hx hb.errors, hgenuine, h.explorer ▸ hsteady,
    hs.guarded.becomes h hb hdone, ?_, h.explorer ▸ hbase, fun hclean => ?_, fun hclean => ?_⟩
  · rw [hvisited, h.explorer, htable]
    exact hs.known
  · rw [h.session]
    exact hignored (hs.kept (hbefore hclean))
  · have hexplored := hopen (hbefore hclean)
    unfold Visited Met at hexplored ⊢
    rw [hvisited, h.explorer, htable]
    exact hexplored

theorem Thorough.becomes {b : Session} (h : s.Becomes s.explorer b s')
    (hb : SameFindings b s.session) (hdone : b.done = s.session.done)
    (hignored : s.session.ignored = false → b.ignored = false) : Thorough m s₀ w s' :=
  hs.keeps h hs.honest.explorer hs.steady rfl hs.genuine rfl hs.base hb hdone hignored hs.explored

theorem Thorough.release
    (hopen : s.session.Clean → Explored m s₀ (w.Visited s.explorer) (w.waiting.map WorkItem.node)) :
    Thorough m s₀ { w with active := none } s :=
  ⟨hs.honest, hs.genuine, hs.steady, hs.guarded, hs.known, fun _ _ hnone => (by cases hnone),
    hs.kept, hopen⟩

theorem Thorough.takes (hactive : w.active = none) {r : Option Bounded} (h : Takes w s r s') :
    (∀ w', r = some w' → Thorough m s₀ w' s') ∧ (r = none → Complete m s₀ s') := by
  have hgenuine := hs.honest.takes hs.genuine h
  cases h with
  | stopped h => exact left_none fun hclean => absurd hclean (hs.guarded.stops h)
  | cut hne h =>
    refine left_none fun hclean => ?_
    rw [h.session] at hclean
    exact absurd hclean.constraints hne
  | ended hcurrent hnext h =>
    refine left_none fun hclean => ?_
    have hexplored := hs.explored (h.clean ⟨rfl, rfl, rfl⟩ hclean)
    have hnone : w.waiting = [] := by
      unfold waiting
      rw [WorkQueue.toList_of_pop?_none hcurrent, WorkQueue.toList_of_isEmpty hnext]
      rfl
    rw [openNodes_idle hactive, hnone] at hexplored
    refine ⟨_, fun f hf => ?_, hexplored⟩
    obtain ⟨_, id, _, hid⟩ := hf
    rw [h.explorer]
    exact ⟨id, hid⟩
  | raised hcurrent h =>
    refine left_some (hs.keeps h hs.honest.explorer hs.steady rfl (hgenuine.2 _ rfl) rfl hs.base
      ⟨rfl, rfl, rfl⟩ rfl id fun hclean => ?_)
    have hexplored := hs.explored hclean
    rw [openNodes_idle hactive, ← waiting_raised hcurrent] at hexplored
    rw [openNodes_idle (w := { w with
      current := w.next, next := .empty, preemptions := w.preemptions + 1 }) hactive]
    exact hexplored
  | @taken _ item current tally hcurrent h =>
    refine left_some (hs.keeps h (h.explorer ▸ hgenuine.1.explorer)
      ((hs.steady.restore _).setAgenda _) rfl (hgenuine.2 _ rfl) rfl (fun trail base hbase => ?_)
      ⟨rfl, rfl, rfl⟩ rfl id fun hclean => ?_)
    · cases hbase
      exact Nat.le_refl _
    · rw [openNodes_taken hactive hcurrent]
      exact hs.explored hclean

variable (hactive : w.active = some (trail, base))

include hactive

theorem Thorough.moved (hm : m.Exact) (hforward : s.explorer.forward = (.ok true, t.explorer))
    (h : s.Becomes t.explorer s.session t) {held : List Trail} (hbooked : t.Booked held v) :
    Thorough m s₀ (w.mark v) v ∧ base < v.explorer.depth ∧
      (∀ a, v.explorer.trail.top.agenda = some a → a.data = none) ∧
      (v.session.Clean → w.visited.contains (key v) = true →
        Explored m s₀ ((w.mark v).Visited v.explorer) (w.openNodes v.explorer).tail) := by
  obtain ⟨a, move, a', n, f, hstep⟩ := Explorer.forward_true hforward
  have ht := hs.honest.becomes h (hs.honest.forward hforward) rfl
  have hsteady := hs.steady.advances hstep
  have hguarded := hs.guarded.becomes h ⟨rfl, rfl, rfl⟩ rfl
  have hextends := (hs.steady.table.add hstep.added).2
  have hid : v.explorer.stateId = n.stateId := by
    rw [hbooked.explorer.stateId, Explorer.stateId, hstep.trail]
  rw [← hid, ← hbooked.explorer.table] at hextends
  have hdistinct := (hbooked.explorer.steady hsteady).table
  obtain ⟨g, hchain, hg⟩ := hbooked.explorer.chain ht.explorer
  have hbase := hs.base trail base hactive
  have hdepth := hbooked.explorer.depth.trans (Explorer.depth_of_forward hforward)
  have hbefore : v.session.Clean → s.session.Clean := fun hclean =>
    h.clean ⟨rfl, rfl, rfl⟩ (hbooked.clean hclean).1
  have hcovers : v.session.Clean → _ := fun hclean => by
    have hexplored := (hs.explored (hbefore hclean)).covers
    rw [openNodes_active hactive hbase] at hexplored
    exact Booked.covers hm hs.honest hs.steady hstep ht hbooked hclean hexplored
      (fun g hg => hg.mark hextends) ⟨_, met_mark_self hextends⟩
      (fun g hg => visited_of_mark hextends hs.known hdistinct hg)
  have hopen : w.openNodes v.explorer =
      v.explorer.trail.chain.take (s.explorer.depth - base + 2) ++ w.waiting.map WorkItem.node := by
    have hcount : v.explorer.depth - base = s.explorer.depth - base + 1 := by omega
    rw [openNodes_active hactive (by omega), hcount]
    rfl
  refine ⟨⟨ht.booked hbooked, hs.genuine, hbooked.explorer.steady hsteady, hguarded.booked hbooked,
    ?_, ?_, ?_, ?_⟩, by omega, ?_, ?_⟩
  · exact known_mark hextends hs.known
  · intro trail' base' hactive'
    have hbase' := hs.base trail' base' hactive'
    omega
  · intro hclean
    obtain ⟨_, _, hignored, _⟩ := hbooked.clean hclean
    rw [hignored, h.session]
    exact hs.kept (hbefore hclean)
  · intro hclean
    refine ⟨(hs.explored (hbefore hclean)).sees.mono fun g hg => hg.mark hextends, ?_⟩
    change m.Covers _ _ (w.openNodes v.explorer)
    rw [hopen]
    exact (hcovers hclean).1
  · intro a ha
    have htop : v.explorer.trail.top.agenda = n.agenda := by
      have hfirst := (List.cons.inj hchain).1
      rw [hfirst, (hg _ List.mem_cons_self).2, hstep.trail]
    rw [htop, hstep.fresh] at ha
    exact Agenda.data_ofState ha
  · intro hclean hcontains
    refine ⟨(hs.explored (hbefore hclean)).sees.mono fun g hg => hg.mark hextends, ?_⟩
    have hmem := Std.TreeSet.contains_iff_mem.1 hcontains
    rw [hopen, List.tail_append_of_ne_nil (by simp [Trail.chain])]
    exact (hcovers hclean).2 ⟨_, met_of_mem hextends hs.known hdistinct hmem hextends.number⟩

theorem Thorough.retreats (hbase : base < s.explorer.depth)
    (hopen : s.session.Clean → Explored m s₀ (w.Visited s.explorer) (w.openNodes s.explorer).tail)
    {moved : Bool} (h : s.Retreats moved s') : Thorough m s₀ w s' := by
  obtain ⟨tally, hback, hbecomes⟩ := h.moves hbase
  have hdepth := Explorer.depth_of_backtrack? hback
  refine hs.keeps hbecomes (Explorer.backtrack?_genuine hs.honest.explorer hback)
    (hs.steady.backtrack? hback) (Explorer.chain_of_backtrack? hback).2
    hs.genuine rfl (fun trail' base' hactive' => ?_)
    ⟨rfl, rfl, rfl⟩ rfl id ?_
  · cases hactive.symm.trans hactive'
    omega
  · rw [openNodes_of_backtrack? hactive hbase hback]
    exact hopen

/-- What is put off waits: the last thread goes on in the current node, each other one has a piece
of work of its own. -/
theorem Thorough.defers (hfresh : ∀ a, s.explorer.trail.top.agenda = some a → a.data = none)
    (h : Defers w s w' s') : Thorough m s₀ w' s' := by
  have hgenuine := hs.honest.defers h hs.genuine
  cases h with
  | kept => exact hs
  | @split _ g last hschedule hlast h =>
    have hbase := hs.base trail base hactive
    refine hs.keeps h (h.explorer ▸ hgenuine.1.explorer) (hs.steady.setAgenda _) rfl hgenuine.2 rfl
      hs.base ⟨rfl, rfl, rfl⟩ rfl id fun hclean => ?_
    · obtain ⟨hsees, hcovers⟩ := hs.explored hclean
      refine ⟨hsees, hcovers.mono (fun _ hV => hV) ?_⟩
      rw [openNodes_active hactive hbase, openNodes_active (w := w.putOff _ g last)
        (x := s.explorer.setSchedule _) hactive hbase, waiting_putOff, List.map_append,
        List.map_map, ← List.append_assoc]
      rintro r i data ⟨k, hk, hsimilar, a, ha, hpending⟩
      rcases List.mem_cons.1 hk with rfl | hk
      · obtain ⟨b, hb, hthreads⟩ := Option.map_eq_some_iff.1 hschedule
        obtain rfl := Option.some.inj (hb.symm.trans ha)
        -- no integer is pending in a node that was just entered
        have hupcoming : i ∈ g.items := by
          rcases hpending with ⟨_, _, hdata, _⟩ | ⟨g', hg', hupcoming⟩
          · cases (hfresh b hb).symm.trans hdata
          · cases hthreads.symm.trans hg'
            exact List.mem_of_mem_drop hupcoming.2
        by_cases hi : i = last
        · subst hi
          exact ⟨_, List.mem_cons_self, hsimilar, _, rfl, .inr (upcoming_restrictTo hupcoming)⟩
        · have hmem : i ∈ g.items.filter (· ≠ last) :=
            List.mem_filter.2 ⟨hupcoming, by simpa using hi⟩
          refine ⟨(deferred s.explorer.trail g i).node, ?_, hsimilar, _, rfl,
            .inr (upcoming_restrictTo hupcoming)⟩
          exact List.mem_cons_of_mem _ (List.mem_append_right _ (List.mem_map_of_mem hmem))
      · exact ⟨k, List.mem_cons_of_mem _ (List.mem_append_left _ hk), hsimilar, a, ha, hpending⟩

theorem Thorough.processed {tally : Tally}
    (hforward : s.explorer.forward = (.ok false, s'.explorer))
    (h : s.Becomes s'.explorer { s.session with stats := s.session.stats.retally tally } s') :
    Thorough m s₀ w s' ∧ (s'.session.Clean →
      Explored m s₀ (w.Visited s'.explorer) (w.openNodes s'.explorer).tail) := by
  obtain ⟨agenda, hx, hnone, _⟩ := Explorer.decide_none (Explorer.forward_false hforward)
  have hbase := hs.base trail base hactive
  have hrest : s.session.Clean →
      Explored m s₀ (w.Visited s.explorer) (w.openNodes s'.explorer).tail := by
    intro hclean
    obtain ⟨hsees, hcovers⟩ := hs.explored hclean
    rw [openNodes_active hactive hbase] at hcovers
    rw [hx, openNodes_active (x := s.explorer.setAgenda agenda) hactive hbase]
    exact ⟨hsees, hcovers.drop (.inr hnone)⟩
  refine ⟨hs.keeps h (hs.honest.forward hforward) (hx ▸ hs.steady.setAgenda _) (by rw [hx]; rfl)
    hs.genuine rfl (hx ▸ hs.base) ⟨rfl, rfl, rfl⟩ rfl id fun hclean => ?_, fun hclean => ?_⟩
  · obtain ⟨hsees, hcovers⟩ := hrest hclean
    refine ⟨hsees, hcovers.mono (fun _ hV => hV) fun r i data hpending => ?_⟩
    exact hpending.subset fun k hk => List.mem_of_mem_tail hk
  · have hexplored := hrest (h.clean ⟨rfl, rfl, rfl⟩ hclean)
    rw [hx] at hexplored ⊢
    exact hexplored

theorem Thorough.steps (hm : m.Exact) (h : Steps w base s w' s') : Thorough m s₀ w' s' := by
  cases h with
  | stopped h =>
    have hdirty := hs.guarded.stops h
    obtain ⟨b, hbecomes, herrors, _⟩ := h
    refine ⟨hs.honest.becomes hbecomes hs.honest.explorer herrors, hs.genuine, ?_,
      fun _ => hdirty, ?_, fun _ _ hnone => (by cases hnone), fun hclean => absurd hclean hdirty,
      fun hclean => absurd hclean hdirty⟩
    · rw [hbecomes.explorer]
      exact hs.steady
    · rw [hbecomes.explorer]
      exact hs.known
  | finished hforward hdepth h =>
    obtain ⟨hprocessed, hrest⟩ := hs.processed hactive hforward h
    have hbase := hprocessed.base trail base hactive
    refine hprocessed.release fun hclean => ?_
    have hexplored := hrest hclean
    have hcount : s'.explorer.depth - base = 0 := by omega
    rw [openNodes_active hactive hbase, hcount] at hexplored
    exact hexplored
  | back hforward hdepth h hback =>
    obtain ⟨hprocessed, hrest⟩ := hs.processed hactive hforward h
    exact hprocessed.retreats hactive hdepth hrest hback
  | broken hforward h hbooked hdone =>
    obtain ⟨hmoved, _⟩ := hs.moved hactive hm hforward h hbooked
    have hdirty := hmoved.guarded hdone
    refine ⟨hmoved.honest, hs.genuine, hmoved.steady, hmoved.guarded, ?_,
      fun _ _ hnone => (by cases hnone), fun hclean => absurd hclean hdirty,
      fun hclean => absurd hclean hdirty⟩
    exact fun key hkey => hmoved.known key (mem_insert.2 (.inr hkey))
  | @left t v z _ _ hforward h hbooked hz hleaf hback =>
    obtain ⟨hmoved, hdepth, _, hknown⟩ := hs.moved hactive hm hforward h hbooked
    have hx : t.explorer.Genuine m.program m.symmetry := hs.honest.forward hforward
    have hbefore : z.session.Clean → v.session.Clean := hz.clean ⟨rfl, rfl, rfl⟩
    have hdepth' : base < z.explorer.depth := by
      rw [hz.explorer]
      exact hdepth
    refine (hmoved.becomes hz ⟨rfl, rfl, rfl⟩ rfl fun _ => rfl).retreats hactive hdepth' ?_ hback
    intro hclean
    rw [hz.explorer]
    obtain ⟨hsees, hcovers⟩ := hmoved.explored (hbefore hclean)
    have hdrop : v.explorer.isEnd = true →
        Explored m s₀ ((w.mark v).Visited v.explorer) ((w.mark v).openNodes v.explorer).tail := by
      intro hend
      rw [openNodes_active (w := w.mark v) hactive (Nat.le_of_lt hdepth)] at hcovers ⊢
      exact ⟨hsees, hcovers.drop (.inl hend)⟩
    rcases hleaf with hignored | hcontains | hend | hlimit
    · cases hignored.symm.trans (hmoved.kept (hbefore hclean))
    · exact hknown (hbefore hclean) hcontains
    · exact hdrop hend
    · exact hdrop (hbooked.isEnd_of_limit hx (hbefore hclean) hlimit)
  | entered hforward h hbooked hz hdefers =>
    obtain ⟨hmoved, _, hfresh, _⟩ := hs.moved hactive hm hforward h hbooked
    have hz' := hmoved.becomes hz ⟨rfl, rfl, rfl⟩ rfl fun _ => rfl
    refine hz'.defers hactive ?_ hdefers
    rw [hz.explorer]
    exact hfresh

end Bounded

end Interleave.Search
