import Interleave.Proofs.Search.Actions

set_option autoImplicit false

/-! Each strategy takes turns. For each kind of turn this module has a relation with one case for
each way in which the turn can go, and a lemma that a successful turn went in one of these ways. -/

namespace Interleave.Search

structure Unasked (s : Search) : Prop where
  stop : s.stop = false
  terminated : s.session.terminated = false

def Stops (s s' : Search) : Prop :=
  ∃ b, s.Becomes s.explorer b s' ∧ b.errors = s.session.errors ∧
    (b.terminated = false → b = s.session ∧ s.session.done = true) ∧
    (∃ terminated done, b = { s.session with terminated, done }) ∧
    (s.session.done = true ∨ ¬ s.Unasked)

structure Running (s : Search) : Prop where
  done : s.session.done = false
  terminated : s.session.terminated = false

section Stops

variable {s s' t : Search} {u : Unit}

theorem stops_of_done (h : s.session.done = true) (h' : s.Keeps s') : s.Stops s' :=
  ⟨_, h', rfl, fun _ => ⟨rfl, h⟩, ⟨_, _, rfl⟩, .inl h⟩

theorem asked_of_checkTerminated (h : Does checkTerminated s true t) : ¬ s.Unasked := by
  rintro ⟨hstop, hterminated⟩
  rcases checkTerminated_does h with ⟨hended, _⟩ | ⟨_, _, hasked⟩
  · cases hended.trans hterminated
  · cases hasked.symm.trans hstop

theorem stops_of_checkTerminated (h : Does checkTerminated s true t) (h' : t.Keeps s') :
    s.Stops s' := by
  have hasked := asked_of_checkTerminated h
  rcases checkTerminated_does h with ⟨hended, hkeeps, _⟩ | ⟨_, hbecomes, _⟩
  · refine ⟨_, hkeeps.keeps h', rfl, fun hrunning => ?_, ⟨_, _, rfl⟩, .inr hasked⟩
    cases hended.trans hrunning
  · refine ⟨_, hbecomes.keeps h', rfl, fun hrunning => ?_, ⟨_, _, rfl⟩, .inr hasked⟩
    cases hrunning

theorem goes_of_checkTerminated (h : Does checkTerminated s false s') : s.Unasked ∧ s.Keeps s' := by
  rcases checkTerminated_does h with ⟨hrunning, hkeeps, hstop⟩ | ⟨hended, _⟩
  · exact ⟨⟨hstop, hrunning.symm⟩, hkeeps⟩
  · cases hended

/-- A turn starts with a look at whether the run is over. -/
theorem opens_does {α : Type} {stop go : Run α} {a : α}
    (h : Does (if s.session.done then stop else do if ← checkTerminated then stop else go) s a s') :
    (∃ t, Does stop t a s' ∧ (t.Keeps s' → s.Stops s')) ∨
      ∃ t, s.Keeps t ∧ s.Running ∧ s.Unasked ∧ Does go t a s' := by
  split at h
  · next hdone => exact .inl ⟨s, h, stops_of_done hdone⟩
  · next hdone =>
    obtain ⟨ended, t, hended, hrest⟩ := does_bind.1 h
    cases ended with
    | true => exact .inl ⟨t, hrest, stops_of_checkTerminated hended⟩
    | false =>
      obtain ⟨hunasked, ht⟩ := goes_of_checkTerminated hended
      exact .inr ⟨t, ht, ⟨by simpa using hdone, hunasked.terminated⟩, hunasked, hrest⟩

end Stops

namespace DepthFirst

inductive Proceeds (s : Search) : Search → Prop where
  | moved {t s' : Search} (hforward : s.explorer.forward = (.ok true, t.explorer))
      (h : s.Becomes t.explorer s.session t) (hbooked : t.Booked [] s') : Proceeds s s'
  | processed {s' : Search} {tally : Tally}
      (hforward : s.explorer.forward = (.ok false, s'.explorer))
      (h : s.Becomes s'.explorer { s.session with stats := s.session.stats.retally tally } s')
      (hcount : tally = { s.session.stats.tally with
        processed := s.session.stats.processed + 1 }) : Proceeds s s'

inductive Turns (s : Search) : Bool → Search → Prop where
  | stopped {s' : Search} (h : s.Stops s') : Turns s false s'
  | exhausted {s' : Search} (hleaf : isLeaf s s.session.ignored = true)
      (hbottom : s.explorer.backtrack? = none)
      (h : s.Becomes s.explorer { s.session with ignored := false } s') : Turns s false s'
  | back {t s' : Search} {depth : Nat} {tally : Tally} (hleaf : isLeaf s s.session.ignored = true)
      (hback : s.explorer.backtrack? = some t.explorer)
      (h : s.Becomes t.explorer { s.session with
        depth, isNew := false, ignored := false, stats := s.session.stats.retally tally } t)
      (hproceeds : Proceeds t s') (hrunning : s.Running)
      (hcount : tally = { s.session.stats.tally with
        backtracked := s.session.stats.backtracked + 1 }) (hunasked : s.Unasked)
      (hdepth : depth = t.explorer.depth) : Turns s true s'
  | on {t s' : Search} (hleaf : isLeaf s s.session.ignored = false)
      (h : s.Becomes s.explorer { s.session with ignored := false } t)
      (hproceeds : Proceeds t s') (hrunning : s.Running) (hunasked : s.Unasked) : Turns s true s'

variable {s s' t : Search} {u : Unit}

theorem proceed_does (h : Does proceed s u s') : Proceeds s s' := by
  obtain ⟨moved, t, hforward, hrest⟩ := does_bind.1 h
  obtain ⟨hx, ht⟩ := forward_does hforward
  cases moved with
  | true => exact .moved hx ht (afterForward_does hrest)
  | false =>
    have hs' := processed_does hrest
    rw [ht.session] at hs'
    have hsame := hs'.explorer
    rw [← hsame] at hx hs'
    exact .processed hx (ht.trans hs') rfl

theorem isLeaf_congr (h : s.Becomes s.explorer { s.session with ignored := false } t)
    (ignored : Bool) : isLeaf t ignored = isLeaf s ignored := by
  unfold isLeaf depthLimitReached
  rw [h.config, h.explorer, h.session]

theorem turn_does {more : Bool} (h : Does turn s more s') : Turns s more s' := by
  simp only [turn, does_get_bind] at h
  rcases opens_does h with ⟨t, hover, hstops⟩ | ⟨t, ht, hrunning, hunasked, hrest⟩
  · obtain ⟨rfl, rfl⟩ := does_pure.1 hover
    exact .stopped (hstops (.refl _))
  obtain ⟨ignored, v, hignored, hrest⟩ := does_bind.1 hrest
  obtain ⟨rfl, hv⟩ := takeIgnored_does hignored
  rw [ht.explorer, ht.session] at hv
  have hsv := ht.trans hv
  rw [does_get_bind, isLeaf_congr hsv, ht.session] at hrest
  cases hleaf : isLeaf s s.session.ignored with
  | true =>
    simp only [hleaf, if_true] at hrest
    obtain ⟨moved, w, hback, hrest⟩ := does_bind.1 hrest
    rcases backtrack_counts hback with ⟨rfl, hbottom, hw⟩ | ⟨rfl, hx, hw⟩
    · obtain ⟨rfl, rfl⟩ := does_pure.1 hrest
      rw [hsv.explorer] at hbottom
      exact .exhausted hleaf hbottom (hsv.keeps hw)
    · obtain ⟨_, hproceed, rfl⟩ := does_bind_pure.1 hrest
      rw [hsv.session] at hw
      rw [hsv.explorer] at hx
      exact .back hleaf hx (hsv.trans hw) (proceed_does hproceed) hrunning rfl hunasked rfl
  | false =>
    simp only [hleaf, Bool.false_eq_true, if_false] at hrest
    obtain ⟨_, hproceed, rfl⟩ := does_bind_pure.1 hrest
    exact .on hleaf hsv (proceed_does hproceed) hrunning hunasked

end DepthFirst

namespace Walks

inductive Ends (w : Walks) (s : Search) : Option Walks → Search → Prop where
  | last {s' : Search} (hdone : s.session.done = true) (h : s.Keeps s') : Ends w s none s'
  | again {s' : Search} {tally : Tally}
      (h : s.Becomes (s.explorer.restore w.initial) { s.session with
        depth := w.initial.depth, isNew := false, stats := s.session.stats.retally tally } s') :
      Ends w s (some { w with paths := w.paths + 1, seen := none }) s'

inductive Turns (w : Walks) (s : Search) : Option Walks → Search → Prop where
  | stopped {s' : Search} (h : s.Stops s') (hseen : w.seen = none) : Turns w s none s'
  | cut {s' : Search} {constraints : List Constraint} (hne : constraints ≠ [])
      (h : s.Becomes s.explorer { s.session with constraints } s') (hseen : w.seen = none)
      (hmet : LimitsMet none s.session.constraints constraints) : Turns w s none s'
  | begun {s' : Search} (h : s.Keeps s') (hseen : w.seen = none)
      (hpaths : w.paths < s.config.pathLimit) :
      Turns w s (some { w with seen := some ((∅ : Std.TreeSet StateId).insert s.explorer.stateId) })
        s'
  | halted {t s' : Search} {r : Option Walks} (h : s.Stops t) (hends : Ends w t r s')
      (hseen : w.seen ≠ none) (hasked : ¬ s.Unasked) : Turns w s r s'
  | finished {t s' : Search} {source : Random.Source} {tally : Tally} {r : Option Walks}
      (hforward : (s.explorer.shuffleSchedule w.source).1.forward = (.ok false, t.explorer))
      (h : s.Becomes t.explorer { s.session with stats := s.session.stats.retally tally } t)
      (hends : Ends { w with source } t r s') (hseen : w.seen ≠ none) : Turns w s r s'
  | moved {t v z : Search} {source : Random.Source} {seen : Std.TreeSet StateId}
      (hforward : (s.explorer.shuffleSchedule w.source).1.forward = (.ok true, t.explorer))
      (h : s.Becomes t.explorer s.session t) (hbooked : t.Booked [w.initial] v)
      (hz : v.Becomes v.explorer { v.session with ignored := false } z)
      (hseen : w.seen = some seen) (hfresh : seen.contains z.explorer.stateId = false)
      (hlimit : z.depthLimitReached = false) (hunasked : s.Unasked)
      (hgoes : z.session.done = false) :
      Turns w s (some { w with source, seen := some (seen.insert z.explorer.stateId) }) z
  | left {t v z s' : Search} {source : Random.Source} {r : Option Walks}
      (hforward : (s.explorer.shuffleSchedule w.source).1.forward = (.ok true, t.explorer))
      (h : s.Becomes t.explorer s.session t) (hbooked : t.Booked [w.initial] v)
      (hz : v.Becomes v.explorer { v.session with ignored := false } z)
      (hends : Ends { w with source } z r s') (hseen : w.seen ≠ none) (hunasked : s.Unasked) :
      Turns w s r s'

variable {w : Walks} {s s' : Search} {r : Option Walks}

theorem finish_does (h : Does w.finish s r s') : Ends w s r s' := by
  simp only [finish, does_get_bind] at h
  obtain ⟨_, t, hnote, hrest⟩ := does_bind.1 h
  have ht := note_does hnote
  split at hrest
  · next hdone =>
    obtain ⟨rfl, rfl⟩ := does_pure.1 hrest
    exact .last hdone ht
  · obtain ⟨_, hrestore, rfl⟩ := does_bind_pure.1 hrest
    obtain ⟨tally, hv⟩ := restore_does hrestore
    rw [ht.explorer, ht.session] at hv
    exact .again (ht.trans hv)

theorem next_does (hseen : w.seen = none) (h : Does w.next s r s') : Turns w s r s' := by
  simp only [next, does_get_bind] at h
  split at h
  · next hdone =>
    obtain ⟨rfl, rfl⟩ := does_pure.1 h
    exact .stopped (stops_of_done hdone (.refl _)) hseen
  · split at h
    · obtain ⟨_, hhit, rfl⟩ := does_bind_pure.1 h
      obtain ⟨constraints, hne, ht, hmet⟩ := constraintHit_does hhit
      exact .cut hne ht hseen hmet
    · next hpaths =>
      obtain ⟨ended, t, hended, hrest⟩ := does_bind.1 h
      cases ended with
      | true =>
        obtain ⟨rfl, rfl⟩ := does_pure.1 hrest
        exact .stopped (stops_of_checkTerminated hended (.refl _)) hseen
      | false =>
        have ht := (goes_of_checkTerminated hended).2
        rw [if_neg Bool.false_ne_true, does_get_bind, ht.explorer] at hrest
        obtain ⟨rfl, rfl⟩ := does_pure.1 hrest
        exact .begun ht hseen (Nat.lt_of_not_le hpaths)

theorem step_does {seen : Std.TreeSet StateId} (hseen : w.seen = some seen)
    (h : Does (w.step seen) s r s') : Turns w s r s' := by
  have hsome : w.seen ≠ none := by simp [hseen]
  obtain ⟨ended, t, hended, hrest⟩ := does_bind.1 h
  cases ended with
  | true =>
    exact .halted (stops_of_checkTerminated hended (.refl _)) (finish_does hrest) hsome
      (asked_of_checkTerminated hended)
  | false =>
    obtain ⟨hunasked, ht⟩ := goes_of_checkTerminated hended
    cases t
    obtain ⟨rfl, rfl, rfl, rfl⟩ := ht
    rw [if_neg Bool.false_ne_true, does_withExplorer_bind] at hrest
    obtain ⟨moved, z, hforward, hrest⟩ := does_bind.1 hrest
    obtain ⟨hx, hz⟩ := forward_does hforward
    have hsz : s.Becomes z.explorer s.session z := ⟨hz.config, hz.properties, rfl, hz.session⟩
    cases moved with
    | false =>
      obtain ⟨_, a, hprocessed, hfinish⟩ := does_bind.1 hrest
      have ha := processed_does hprocessed
      rw [hsz.session] at ha
      have hsame := ha.explorer
      rw [← hsame] at hx ha
      exact .finished hx (hsz.trans ha) (finish_does hfinish) hsome
    | true =>
      obtain ⟨_, a, hafter, hrest⟩ := does_bind.1 hrest
      have hbooked := afterForward_does hafter
      obtain ⟨ignored, c, hignored, hrest⟩ := does_bind.1 hrest
      have hc := (takeIgnored_does hignored).2
      simp only [does_get_bind] at hrest
      split at hrest
      · exact .left hx hsz hbooked hc (finish_does hrest) hsome hunasked
      · next hgoes =>
        obtain ⟨rfl, rfl⟩ := does_pure.1 hrest
        simp only [Bool.or_eq_true, not_or, Bool.not_eq_true] at hgoes
        exact .moved hx hsz hbooked hc hseen hgoes.2 hgoes.1.2 hunasked hgoes.1.1.1.1

theorem turn_does (h : Does w.turn s r s') : Turns w s r s' := by
  unfold turn at h
  split at h
  · next hseen => exact next_does hseen h
  · next hseen => exact step_does hseen h

end Walks

namespace Bounded

inductive Takes (w : Bounded) (s : Search) : Option Bounded → Search → Prop where
  | stopped {s' : Search} (h : s.Stops s') : Takes w s none s'
  | ended {s' : Search} (hcurrent : w.current.pop? = none) (hnext : w.next.isEmpty = true)
      (h : s.Keeps s') (hrunning : s.Running) : Takes w s none s'
  | cut {s' : Search} {constraints : List Constraint} (hne : constraints ≠ [])
      (h : s.Becomes s.explorer { s.session with constraints } s')
      (hcurrent : w.current.pop? = none)
      (hlimit : ∃ limit ≤ w.preemptions, s.config.preemptionLimit = some limit)
      (hrunning : s.Running) (hnext : w.next.isEmpty = false)
      (hmet : LimitsMet none s.session.constraints constraints) : Takes w s none s'
  | raised {s' : Search} (hcurrent : w.current.pop? = none) (h : s.Keeps s')
      (hnext : w.next.isEmpty = false)
      (hlimit : ∀ limit, s.config.preemptionLimit = some limit → w.preemptions < limit)
      (hrunning : s.Running) : Takes w s (some { w with
        current := w.next, next := .empty, preemptions := w.preemptions + 1 }) s'
  | taken {s' : Search} {item : WorkItem} {current : WorkQueue WorkItem} {tally : Tally}
      (hcurrent : w.current.pop? = some (item, current))
      (h : s.Becomes ((s.explorer.restore item.trail).setSchedule item.schedule)
        { s.session with
          depth := item.trail.depth, isNew := false, stats := s.session.stats.retally tally } s') :
      Takes w s (some { w with current, active := some (item.trail, item.trail.depth) }) s'

def deferred (trail : Trail) (g : Listed ThreadId) (t : ThreadId) : WorkItem :=
  ⟨trail, .thread (g.restrictTo [t])⟩

def putOff (w : Bounded) (trail : Trail) (g : Listed ThreadId) (last : ThreadId) : Bounded :=
  let others := g.items.filter (· ≠ last)
  { w with next := others.foldl (fun q t => q.push (deferred trail g t)) w.next }

inductive Defers (w : Bounded) (s : Search) : Bounded → Search → Prop where
  | kept (halone : ∀ last g, s.explorer.currentThread = some last →
        s.explorer.schedule? = some (.thread g) → last ∈ g.items → g.items = [last]) :
      Defers w s w s
  | split {s' : Search} {g : Listed ThreadId} {last : ThreadId}
      (hschedule : s.explorer.schedule? = some (.thread g)) (hlast : last ∈ g.items)
      (h : s.Becomes (s.explorer.setSchedule (.thread (g.restrictTo [last]))) s.session s')
      (hcurrent : s.explorer.currentThread = some last) :
      Defers w s (w.putOff s.explorer.trail g last) s'

def key (s : Search) : StateId × Option ThreadId := (s.explorer.stateId, s.explorer.currentThread)

def mark (w : Bounded) (s : Search) : Bounded := { w with visited := w.visited.insert (key s) }

inductive Steps (w : Bounded) (base : Nat) (s : Search) : Bounded → Search → Prop where
  | stopped {s' : Search} (h : s.Stops s') : Steps w base s { w with active := none } s'
  | finished {s' : Search} {tally : Tally}
      (hforward : s.explorer.forward = (.ok false, s'.explorer))
      (hdepth : s'.explorer.depth ≤ base)
      (h : s.Becomes s'.explorer { s.session with stats := s.session.stats.retally tally } s') :
      Steps w base s { w with active := none } s'
  | back {t s' : Search} {tally : Tally} {moved : Bool}
      (hforward : s.explorer.forward = (.ok false, t.explorer)) (hdepth : base < t.explorer.depth)
      (h : s.Becomes t.explorer { s.session with stats := s.session.stats.retally tally } t)
      (hback : t.Retreats moved s') : Steps w base s w s'
  | broken {t s' : Search} (hforward : s.explorer.forward = (.ok true, t.explorer))
      (h : s.Becomes t.explorer s.session t) (hbooked : t.Booked w.trails s')
      (hdone : s'.session.done = true) (hrunning : s.Running) (hunasked : s.Unasked) :
      Steps w base s { w with active := none } s'
  | left {t v z s' : Search} {moved : Bool}
      (hforward : s.explorer.forward = (.ok true, t.explorer))
      (h : s.Becomes t.explorer s.session t) (hbooked : t.Booked w.trails v)
      (hz : v.Becomes v.explorer { v.session with ignored := false } z)
      (hleaf : v.session.ignored = true ∨ w.visited.contains (key v) = true ∨
        v.explorer.isEnd = true ∨ v.depthLimitReached = true)
      (hback : z.Retreats moved s') (hdone : v.session.done = false) (hrunning : s.Running)
      (hunasked : s.Unasked) : Steps w base s (w.mark v) s'
  | entered {t v z s' : Search} {w' : Bounded}
      (hforward : s.explorer.forward = (.ok true, t.explorer))
      (h : s.Becomes t.explorer s.session t) (hbooked : t.Booked w.trails v)
      (hz : v.Becomes v.explorer { v.session with ignored := false } z)
      (hdefers : Defers (w.mark v) z w' s') (hfresh : w.visited.contains (key v) = false)
      (hlimit : v.depthLimitReached = false) (hdone : v.session.done = false)
      (hrunning : s.Running) (hunasked : s.Unasked) : Steps w base s w' s'

variable {w w' : Bounded} {s s' : Search} {r : Option Bounded}

theorem finish_does (h : Does w.finish s r s') : r = none ∧ s.Keeps s' := by
  obtain ⟨_, hnote, rfl⟩ := does_bind_pure.1 h
  exact ⟨rfl, note_does hnote⟩

theorem raise_does (hcurrent : w.current.pop? = none) (hrunning : s.Running)
    {t : Search} (ht : s.Keeps t) (h : Does w.raise t r s') : Takes w s r s' := by
  have hraise : ∀ {message : String} {values : List (String × String)},
      w.next.isEmpty = false →
      (∀ limit, s.config.preemptionLimit = some limit → w.preemptions < limit) → Does (do
        note .info "search_bounded" message values
        return some { w with current := w.next, next := .empty, preemptions := w.preemptions + 1 })
        t r s' → Takes w s r s' := by
    intro message values hnext hlimit hrest
    obtain ⟨_, hnote, rfl⟩ := does_bind_pure.1 hrest
    exact .raised hcurrent (ht.keeps (note_does hnote)) hnext hlimit hrunning
  simp only [raise] at h
  split at h
  · next hnext =>
    obtain ⟨rfl, hs'⟩ := finish_does h
    exact .ended hcurrent hnext (ht.keeps hs') hrunning
  · next hnext =>
    rw [Bool.not_eq_true] at hnext
    rw [does_get_bind, ht.config] at h
    split at h
    · next limit hlimit =>
      split at h
      · next hreached =>
        obtain ⟨_, v, hnote, hrest⟩ := does_bind.1 h
        obtain ⟨_, z, hhit, hfinish⟩ := does_bind.1 hrest
        obtain ⟨rfl, hs'⟩ := finish_does hfinish
        have hv := ht.keeps (note_does hnote)
        obtain ⟨constraints, hne, hz, hmet⟩ := constraintHit_does hhit
        rw [hv.explorer, hv.session] at hz
        rw [hv.session] at hmet
        exact .cut hne ((hv.trans hz).keeps hs') hcurrent ⟨limit, hreached, hlimit⟩ hrunning
          hnext hmet
      · next hbelow =>
        refine hraise hnext (fun other hother => ?_) h
        cases hlimit.symm.trans hother
        exact Nat.lt_of_not_le hbelow
    · next hnone => exact hraise hnext (fun limit hlimit => by cases hnone.symm.trans hlimit) h

theorem take_does (h : Does w.take s r s') : Takes w s r s' := by
  simp only [take, does_get_bind] at h
  rcases opens_does h with ⟨t, hover, hstops⟩ | ⟨t, ht, hrunning, _, hrest⟩
  · obtain ⟨rfl, hs'⟩ := finish_does hover
    exact .stopped (hstops hs')
  split at hrest
  · next hcurrent => exact raise_does hcurrent hrunning ht hrest
  · next item current hcurrent =>
    obtain ⟨_, v, hrestore, hrest⟩ := does_bind.1 hrest
    rw [does_withExplorer_bind, does_get_bind] at hrest
    obtain ⟨rfl, rfl⟩ := does_pure.1 hrest
    obtain ⟨tally, hv⟩ := restore_does hrestore
    cases t
    obtain ⟨rfl, rfl, rfl, rfl⟩ := ht
    cases v
    obtain ⟨rfl, rfl, rfl, rfl⟩ := hv
    exact .taken hcurrent ⟨rfl, rfl, rfl, rfl⟩

theorem defer_does (h : Does w.defer s w' s') : Defers w s w' s' := by
  simp only [defer, does_get_bind] at h
  split at h
  · next last g hlast hschedule =>
    split at h
    · next hkept =>
      obtain ⟨rfl, rfl⟩ := does_pure.1 h
      refine .kept fun last' g' hlast' hschedule' hmem => ?_
      cases hlast.symm.trans hlast'
      cases hschedule.symm.trans hschedule'
      simp only [Bool.or_eq_true, Bool.not_eq_true', decide_eq_true_eq] at hkept
      rcases hkept with hout | hone
      · cases hout.symm.trans (List.contains_iff_mem.2 hmem)
      · obtain ⟨only, hitems⟩ := List.length_eq_one_iff.1 hone
        rw [hitems] at hmem ⊢
        rw [List.mem_singleton.1 hmem]
    · next hsplit =>
      obtain ⟨trail, t, hstored, hrest⟩ := does_bind.1 h
      obtain ⟨rfl, ht⟩ := stored_does hstored
      rw [does_withExplorer_bind] at hrest
      obtain ⟨rfl, rfl⟩ := does_pure.1 hrest
      refine .split hschedule ?_ ⟨ht.config, ht.properties, by rw [ht.explorer], ht.session⟩ hlast
      simp only [Bool.or_eq_true, Bool.not_eq_true', not_or, Bool.not_eq_false] at hsplit
      exact List.contains_iff_mem.1 hsplit.1
  · next hnone =>
    obtain ⟨rfl, rfl⟩ := does_pure.1 h
    exact .kept fun last g hlast hschedule => absurd hschedule (hnone last g hlast)

theorem step_does {base : Nat} (h : Does (w.step base) s r s') :
    ∃ w', r = some w' ∧ Steps w base s w' s' := by
  simp only [step, does_get_bind] at h
  rcases opens_does h with ⟨t, hover, hstops⟩ | ⟨t, ht, hrunning, hunasked, hrest⟩
  · obtain ⟨rfl, rfl⟩ := does_pure.1 hover
    exact ⟨_, rfl, .stopped (hstops (.refl _))⟩
  obtain ⟨moved, v, hforward, hrest⟩ := does_bind.1 hrest
  obtain ⟨hx, hv⟩ := forward_does hforward
  rw [ht.explorer] at hx
  rw [ht.session] at hv
  have hsv := ht.trans hv
  cases moved with
  | false =>
    rw [if_pos Bool.not_false] at hrest
    obtain ⟨_, z, hprocessed, hrest⟩ := does_bind.1 hrest
    have hz := processed_does hprocessed
    rw [hsv.session] at hz
    have hsame := hz.explorer
    rw [← hsame] at hx hz
    have hsz := hsv.trans hz
    rw [does_get_bind] at hrest
    split at hrest
    · next hdepth =>
      obtain ⟨rfl, rfl⟩ := does_pure.1 hrest
      exact ⟨_, rfl, .finished hx hdepth hsz⟩
    · next hdepth =>
      obtain ⟨moved, hback, rfl⟩ := does_bind_pure.1 hrest
      exact ⟨_, rfl, .back hx (Nat.lt_of_not_le hdepth) hsz (backtrack_does hback)⟩
  | true =>
    rw [if_neg (by simp)] at hrest
    obtain ⟨_, z, hafter, hrest⟩ := does_bind.1 hrest
    have hbooked := afterForward_does hafter
    rw [does_get_bind] at hrest
    split at hrest
    · next hdone =>
      obtain ⟨rfl, rfl⟩ := does_pure.1 hrest
      exact ⟨_, rfl, .broken hx hsv hbooked hdone hrunning hunasked⟩
    · next hdone =>
      rw [Bool.not_eq_true] at hdone
      obtain ⟨ignored, a, hignored, hrest⟩ := does_bind.1 hrest
      obtain ⟨rfl, ha⟩ := takeIgnored_does hignored
      simp only [does_get_bind] at hrest
      have hkey : (a.explorer.stateId, a.explorer.currentThread) = key z := by
        rw [ha.explorer]
        rfl
      have hlimit : a.depthLimitReached = z.depthLimitReached := by
        unfold depthLimitReached
        rw [ha.config, ha.session]
      rw [hkey, hlimit, ha.explorer] at hrest
      split at hrest
      · next hleaf =>
        obtain ⟨moved, hback, rfl⟩ := does_bind_pure.1 hrest
        refine ⟨_, rfl, .left hx hsv hbooked ha ?_ (backtrack_does hback) hdone hrunning hunasked⟩
        simpa [or_assoc] using hleaf
      · next hinner =>
        obtain ⟨w', hdefer, rfl⟩ := does_bind_pure.1 hrest
        simp only [Bool.or_eq_true, not_or, Bool.not_eq_true, Bool.not_eq_false',
          Bool.not_eq_true'] at hinner
        exact ⟨_, rfl, .entered hx hsv hbooked ha (defer_does hdefer) hinner.1.1.2 hinner.2 hdone
          hrunning hunasked⟩

theorem turn_does (h : Does w.turn s r s') :
    (w.active = none ∧ Takes w s r s') ∨
      ∃ trail base w', w.active = some (trail, base) ∧ r = some w' ∧ Steps w base s w' s' := by
  unfold turn at h
  split at h
  · next hactive => exact .inl ⟨hactive, take_does h⟩
  · next trail base hactive =>
    obtain ⟨w', rfl, hsteps⟩ := step_does h
    exact .inr ⟨trail, base, w', hactive, rfl, hsteps⟩

def initial (x : Explorer) : Bounded where
  current := match x.schedule? with
    | none => .empty
    | some schedule => WorkQueue.empty.push ⟨x.trail, schedule⟩
  next := .empty
  visited := (∅ : Visits).insert (x.stateId, none)
  preemptions := 0
  active := none

theorem start_does (h : Does Bounded.start s w s') : w = initial s.explorer ∧ s.Keeps s' := by
  simp only [Bounded.start, does_get_bind] at h
  unfold initial
  cases hschedule : s.explorer.schedule? with
  | none =>
    simp only [hschedule] at h
    obtain ⟨hw, hs'⟩ := does_pure.1 h
    rw [hw, hs']
    exact ⟨rfl, .refl _⟩
  | some schedule =>
    simp only [hschedule] at h
    obtain ⟨trail, hstored, rfl⟩ := does_bind_pure.1 h
    obtain ⟨rfl, ht⟩ := stored_does hstored
    exact ⟨rfl, ht⟩

end Bounded

theorem Walks.start_does {w : Walks} {s s' : Search} (h : Does Walks.start s w s') :
    w.initial = s.explorer.trail ∧ w.seen = none ∧
      s.Becomes (s.explorer.randomizeChoices s.config.seed) s.session s' := by
  simp only [Walks.start, does_get_bind, does_withExplorer_bind] at h
  obtain ⟨trail, t, hstored, h⟩ := does_bind.1 h
  obtain ⟨rfl, ht⟩ := stored_does hstored
  rw [does_note_bind] at h
  obtain ⟨rfl, rfl⟩ := does_pure.1 h
  exact ⟨rfl, rfl, ht.config, ht.properties, ht.explorer, ht.session⟩

inductive Starts (s : Search) : Frontier → Search → Prop where
  | depthFirst {s' : Search} (hstrategy : s.config.strategy = .dfs)
      (h : s.Becomes s.explorer (.start s.explorer) s') : Starts s .depthFirst s'
  | walks {s' : Search} {w : Walks} (hstrategy : s.config.strategy = .random)
      (hinitial : w.initial = s.explorer.trail)
      (h : s.Becomes (s.explorer.randomizeChoices s.config.seed) (.start s.explorer) s')
      (hseen : w.seen = none) : Starts s (.walks w) s'
  | bounded {s' : Search} (hstrategy : s.config.strategy = .contextBounded)
      (h : s.Becomes s.explorer (.start s.explorer) s') :
      Starts s (.bounded (.initial s.explorer)) s'

inductive Frontier.Turns : Frontier → Search → Option Frontier → Search → Prop where
  | depthFirst {s s' : Search} (h : DepthFirst.Turns s true s') :
      Turns .depthFirst s (some .depthFirst) s'
  | exhausted {s s' : Search} (h : DepthFirst.Turns s false s') : Turns .depthFirst s none s'
  | walks {w : Walks} {s s' : Search} {r : Option Walks} (h : Walks.Turns w s r s') :
      Turns (.walks w) s (r.map .walks) s'
  | takes {w : Bounded} {s s' : Search} {r : Option Bounded} (hactive : w.active = none)
      (h : Bounded.Takes w s r s') : Turns (.bounded w) s (r.map .bounded) s'
  | steps {w w' : Bounded} {s s' : Search} {trail : Trail} {base : Nat}
      (hactive : w.active = some (trail, base)) (h : Bounded.Steps w base s w' s') :
      Turns (.bounded w) s (some (.bounded w')) s'

section Left

variable {α β : Type} {P : α → Prop} {Q : Prop}

theorem left_some {a : α} (h : P a) : (∀ b, some a = some b → P b) ∧ (some a = none → Q) :=
  ⟨fun _ hb => Option.some.inj hb ▸ h, nofun⟩

theorem left_none (h : Q) : (∀ a, none = some a → P a) ∧ ((none : Option α) = none → Q) :=
  ⟨nofun, fun _ => h⟩

theorem left_map {r : Option β} {g : β → α} (hsome : ∀ b, r = some b → P (g b))
    (hnone : r = none → Q) : (∀ a, r.map g = some a → P a) ∧ (r.map g = none → Q) := by
  cases r with
  | none => exact left_none (hnone rfl)
  | some b => exact left_some (hsome b rfl)

end Left

section Settings

variable {s s' : Search} {frontier : Frontier}

theorem Starts.becomes (h : Starts s frontier s') : ∃ x, s.Becomes x (.start s.explorer) s' := by
  cases h with
  | depthFirst _ h => exact ⟨_, h⟩
  | walks _ _ h => exact ⟨_, h⟩
  | bounded _ h => exact ⟨_, h⟩

theorem Starts.config (h : Starts s frontier s') : s'.config = s.config := by
  obtain ⟨_, h⟩ := h.becomes
  exact h.config

end Settings

section Runs

variable {s s' : Search} {frontier : Frontier} {report : Report} {fuel : Nat}
  {I : Frontier → Search → Prop} {J : Search → Prop}

theorem start_does (h : Does start s frontier s') : Starts s frontier s' := by
  simp only [start, does_get_bind, does_modifySession_bind, does_note_bind] at h
  obtain ⟨_, t, hemit, h⟩ := does_bind.1 h
  have ht := emit_does hemit
  cases t
  obtain ⟨rfl, rfl, rfl, rfl⟩ := ht
  cases hstrategy : s.config.strategy with
  | dfs =>
    simp only [hstrategy] at h
    obtain ⟨rfl, rfl⟩ := does_pure.1 h
    exact .depthFirst hstrategy ⟨rfl, rfl, rfl, rfl⟩
  | random =>
    simp only [hstrategy] at h
    obtain ⟨w, hstart, rfl⟩ := does_bind_pure.1 h
    obtain ⟨hinitial, hseen, hs'⟩ := Walks.start_does hstart
    exact .walks hstrategy hinitial ⟨hs'.config, hs'.properties, hs'.explorer, hs'.session⟩ hseen
  | contextBounded =>
    simp only [hstrategy] at h
    obtain ⟨w, hstart, rfl⟩ := does_bind_pure.1 h
    obtain ⟨rfl, hs'⟩ := Bounded.start_does hstart
    exact .bounded hstrategy ⟨hs'.config, hs'.properties, hs'.explorer, hs'.session⟩

theorem finish_does (h : Does finish s report s') :
    report = .ofSession { s.session with done := true } ∧ s'.explorer = s.explorer := by
  rw [finish, does_modifySession_bind] at h
  obtain ⟨_, t, hemit, h⟩ := does_bind.1 h
  have ht := emit_does hemit
  rw [does_get_bind, does_note_bind, ht.session] at h
  obtain ⟨rfl, rfl⟩ := does_pure.1 h
  exact ⟨rfl, ht.explorer⟩

theorem turn_does {r : Option Frontier} (h : Does (turn frontier) s r s') :
    frontier.Turns s r s' := by
  cases frontier with
  | depthFirst =>
    obtain ⟨more, t, hturn, hend⟩ := does_bind.1 h
    cases more with
    | true =>
      obtain ⟨rfl, rfl⟩ := does_pure.1 hend
      exact .depthFirst (DepthFirst.turn_does hturn)
    | false =>
      obtain ⟨rfl, rfl⟩ := does_pure.1 hend
      exact .exhausted (DepthFirst.turn_does hturn)
  | walks w =>
    obtain ⟨r', hturn, rfl⟩ := does_bind_pure.1 h
    exact .walks (Walks.turn_does hturn)
  | bounded w =>
    obtain ⟨r', hturn, rfl⟩ := does_bind_pure.1 h
    rcases Bounded.turn_does hturn with ⟨hactive, htakes⟩ | ⟨_, _, w', hactive, rfl, hsteps⟩
    · exact .takes hactive htakes
    · exact .steps hactive hsteps

theorem run_does (h : Does (run fuel) s (some report) s') :
    ∃ f t v, Does start s f t ∧ Does (turns fuel f) t true v ∧
      report = .ofSession { v.session with done := true } ∧ s'.explorer = v.explorer := by
  obtain ⟨f, t, hf, hrest⟩ := does_bind.1 h
  obtain ⟨finished, v, hturns, hrest⟩ := does_bind.1 hrest
  cases finished with
  | false => cases (does_pure.1 hrest).1
  | true =>
    obtain ⟨r, hfinish, hsome⟩ := does_bind_pure.1 hrest
    cases hsome
    exact ⟨f, t, v, hf, hturns, finish_does hfinish⟩

/-- What a run passes through: the work left and the search before each of its turns. -/
inductive Passes (s : Search) : Frontier → Search → Prop where
  | start {f : Frontier} {t : Search} (h : Does start s f t) : Passes s f t
  | turn {f f' : Frontier} {t t' : Search} (h : Passes s f t)
      (hturn : Does (turn f) t (some f') t') : Passes s f' t'

theorem Passes.invariant (hstart : ∀ {f t}, Starts s f t → I f t)
    (hturn : ∀ {f s f' s'}, I f s → f.Turns s (some f') s' → I f' s') (h : s.Passes frontier s') :
    I frontier s' := by
  induction h with
  | start h => exact hstart (start_does h)
  | turn _ hone ih => exact hturn ih (turn_does hone)

/-- The states in which the turns of a run leave the explorer. A turn takes one step forward at most,
and what it comes back to was met before. -/
def course : Nat → Frontier → Search → List State
  | 0, _, _ => []
  | fuel + 1, frontier, s =>
    match s.perform (turn frontier) with
    | (.ok (some frontier), t) => t.explorer.state :: course fuel frontier t
    | _ => []

def itinerary (fuel : Nat) (s : Search) : List State :=
  match s.perform start with
  | (.ok frontier, t) => t.explorer.state :: course fuel frontier t
  | _ => []

section Course

variable {β : Type} {g : β → State → β} {I : β → Frontier → Search → Prop} {J : β → Search → Prop}
  {s s' : Search} {frontier : Frontier} {fuel : Nat} {b : β} {report : Report}

theorem turns_gather
    (hturn : ∀ {b f s r s'}, I b f s → f.Turns s r s' →
      (∀ f', r = some f' → I (g b s'.explorer.state) f' s') ∧ (r = none → J b s'))
    (hI : I b frontier s) (h : Does (turns fuel frontier) s true s') :
    J ((course fuel frontier s).foldl g b) s' := by
  induction fuel generalizing b frontier s with
  | zero => cases (does_pure.1 h).1
  | succ fuel ih =>
    obtain ⟨r, t, hone, hrest⟩ := does_bind.1 h
    obtain ⟨hnext, hlast⟩ := hturn hI (turn_does hone)
    unfold course
    rw [show s.perform (turn frontier) = (.ok r, t) from hone]
    cases r with
    | none =>
      obtain ⟨_, rfl⟩ := does_pure.1 hrest
      exact hlast rfl
    | some f => exact ih (hnext f rfl) hrest

theorem run_gathers (hstart : ∀ {f t}, Starts s f t → I (g b t.explorer.state) f t)
    (hturn : ∀ {b f s r s'}, I b f s → f.Turns s r s' →
      (∀ f', r = some f' → I (g b s'.explorer.state) f' s') ∧ (r = none → J b s'))
    (h : Does (run fuel) s (some report) s') :
    ∃ t, J ((s.itinerary fuel).foldl g b) t ∧
      report = .ofSession { t.session with done := true } ∧ s'.explorer = t.explorer := by
  obtain ⟨f, t, v, hf, hturns, hends⟩ := run_does h
  refine ⟨v, ?_, hends⟩
  unfold itinerary
  rw [show s.perform start = (.ok f, t) from hf]
  exact turns_gather hturn (hstart (start_does hf)) hturns

/-- Depth-first search has nothing to remember between two turns. -/
theorem DepthFirst.run_gathers {I : β → Search → Prop} (hstrategy : s.config.strategy = .dfs)
    (hstart : ∀ {t}, s.Becomes s.explorer (.start s.explorer) t → I (g b t.explorer.state) t)
    (hturn : ∀ {b s more s'}, I b s → DepthFirst.Turns s more s' →
      (more = true → I (g b s'.explorer.state) s') ∧ (more = false → J b s'))
    (h : Does (run fuel) s (some report) s') :
    ∃ t, J ((s.itinerary fuel).foldl g b) t ∧
      report = .ofSession { t.session with done := true } ∧ s'.explorer = t.explorer := by
  refine Search.run_gathers (I := fun b f s => f = .depthFirst ∧ I b s) (fun hf => ?_)
    (fun hI hturns => ?_) h
  · cases hf with
    | depthFirst _ hbecomes => exact ⟨rfl, hstart hbecomes⟩
    | walks hother | bounded hother => cases hstrategy.symm.trans hother
  · obtain ⟨rfl, hs⟩ := hI
    cases hturns with
    | depthFirst hturns => exact left_some ⟨rfl, (hturn hs hturns).1 rfl⟩
    | exhausted hturns => exact left_none ((hturn hs hturns).2 rfl)

end Course

/-- What holds at the start of a run and is kept by its turns holds of its report. -/
theorem run_invariant (hstart : ∀ {f t}, Starts s f t → I f t)
    (hturn : ∀ {f s r s'}, I f s → f.Turns s r s' →
      (∀ f', r = some f' → I f' s') ∧ (r = none → J s')) (h : Does (run fuel) s (some report) s') :
    ∃ t, J t ∧ report = .ofSession { t.session with done := true } ∧ s'.explorer = t.explorer :=
  run_gathers (g := fun u _ => u) (I := fun _ => I) (J := fun _ => J) (b := ()) hstart hturn h

theorem DepthFirst.run_invariant {I : Search → Prop} (hstrategy : s.config.strategy = .dfs)
    (hstart : ∀ {t}, s.Becomes s.explorer (.start s.explorer) t → I t)
    (hturn : ∀ {s more s'}, I s → DepthFirst.Turns s more s' →
      (more = true → I s') ∧ (more = false → J s')) (h : Does (run fuel) s (some report) s') :
    ∃ t, J t ∧ report = .ofSession { t.session with done := true } ∧ s'.explorer = t.explorer :=
  DepthFirst.run_gathers (g := fun u _ => u) (I := fun _ => I) (J := fun _ => J) (b := ())
    hstrategy hstart hturn h

end Runs

end Interleave.Search
