import Mathlib.Algebra.Order.BigOperators.Group.Finset
import Mathlib.Data.Prod.Lex
import Interleave.Proofs.Search.Confined
import Interleave.Proofs.Search.Pass

set_option autoImplicit false

namespace Interleave

namespace Search

abbrev Remaining := Nat ×ₗ Nat ×ₗ Nat

def weight (nodes : List Node) : Nat := (nodes.map fun n => n.left + 1).sum

section Weight

variable {n : Node} {nodes nodes' : List Node}

@[simp] theorem weight_cons : weight (n :: nodes) = n.left + 1 + weight nodes := by
  simp [weight]

@[simp] theorem weight_append : weight (nodes ++ nodes') = weight nodes + weight nodes' := by
  simp [weight]

theorem weight_map {g : Node → Node} (h : ∀ n ∈ nodes, (g n).agenda = n.agenda) :
    weight (nodes.map g) = weight nodes := by
  unfold weight
  rw [List.map_map]
  refine congrArg List.sum (List.map_congr_left fun n hn => ?_)
  rw [Function.comp_apply, Node.left, h n hn]
  rfl

end Weight

section Absent

variable {κ : Type} {cmp : κ → κ → Ordering} {all : Finset κ} {set : Std.TreeSet κ cmp} {key : κ}

def absent (all : Finset κ) (set : Std.TreeSet κ cmp) : Nat :=
  (all.filter fun k => set.contains k = false).card

theorem absent_insert_subset [Std.TransCmp cmp] :
    (all.filter fun k => (set.insert key).contains k = false) ⊆
      all.filter fun k => set.contains k = false := by
  intro k hk
  simp only [Finset.mem_filter, Std.TreeSet.contains_insert, Bool.or_eq_false_iff] at hk ⊢
  exact ⟨hk.1, hk.2.2⟩

theorem absent_insert_le [Std.TransCmp cmp] : absent all (set.insert key) ≤ absent all set :=
  Finset.card_le_card absent_insert_subset

theorem absent_insert_lt [Std.TransCmp cmp] (hkey : key ∈ all) (hfresh : set.contains key = false) :
    absent all (set.insert key) < absent all set := by
  refine Finset.card_lt_card ((Finset.ssubset_iff_of_subset absent_insert_subset).2 ⟨key, ?_, ?_⟩)
  · exact Finset.mem_filter.2 ⟨hkey, hfresh⟩
  · rw [Finset.mem_filter, Std.TreeSet.contains_insert_self]
    simp

end Absent

variable {m : Model} {reach : Finset Fingerprint} {s s' t : Search} {f : Fingerprint} {p : Program}
  {held : List Trail} {x : Explorer} {a a' : Agenda} {move : Move} {n : Node} {mode : Symmetry}
  {I : Frontier → Search → Prop} {μ : Frontier → Search → Remaining} {frontier : Frontier}
  (hreach : m.fingerprints s.config.depthLimit ⊆ ↑reach)

theorem Booked.chain (h : t.Booked held s') (hstep : x.Advances a move a' n f t.explorer)
    (ht : t.explorer.Genuine p mode) :
    ∃ top below, s'.explorer.trail.chain = top :: below ∧ top.agenda = n.agenda ∧
      below.length = x.depth + 1 ∧
      ∀ k, weight (below.take (k + 1)) < weight (x.trail.chain.take (k + 1)) := by
  obtain ⟨g, hchain, hg⟩ := h.explorer.chain ht
  rw [hstep.trail] at hchain hg
  have hleft := hstep.left_lt
  refine ⟨g n, _, hchain, (hg n List.mem_cons_self).2, ?_, fun k => ?_⟩
  · simp [Explorer.depth, Trail.depth]
  · rw [← List.map_take, weight_map fun k hk => (hg k ?_).2]
    · change weight ({ x.trail.top with agenda := some a' } :: x.trail.below.take k) <
        weight (x.trail.top :: x.trail.below.take k)
      rw [weight_cons, weight_cons]
      change a'.left + 1 + _ < _
      omega
    · exact List.mem_cons_of_mem _ (List.mem_of_mem_take hk)

theorem Booked.pending (h : t.Booked held s') (hstep : x.Advances a move a' n f t.explorer)
    (ht : t.explorer.Genuine p mode) (hend : s'.explorer.isEnd = false) :
    ∃ a, s'.explorer.trail.top.agenda = some a ∧ ∃ t data, a.Pending t data := by
  obtain ⟨top, below, hchain, hagenda, _⟩ := h.chain hstep ht
  have htop : s'.explorer.trail.top = top := (List.cons.inj hchain).1
  rw [h.explorer.isEnd ht, Explorer.isEnd, Explorer.state, hstep.trail] at hend
  rw [htop, hagenda, hstep.fresh]
  exact Agenda.pending_ofState hend

namespace DepthFirst

structure Confined (m : Model) (reach : Finset Fingerprint) (s : Search) : Prop where
  explorer : s.explorer.Confined m reach
  limit : ∀ d ∈ s.config.depthLimit, s.explorer.depth ≤ d
  depth : s.session.isNew = true → s.session.depth = s.explorer.depth
  fresh : s.session.isNew = true → s.explorer.isEnd = false →
    ∃ a, s.explorer.trail.top.agenda = some a ∧ ∃ t data, a.Pending t data

def ranks (total : Nat) (depths : Std.TreeMap StateId Nat) : Nat :=
  ∑ i ∈ Finset.range total, depths[i]?.getD 0

def remaining (total : Nat) (nodes : List Node) (s : Search) : Remaining :=
  toLex (total - s.explorer.table.size, toLex (ranks total s.session.depths, weight nodes))

theorem ranks_insert_lt {total : Nat} {depths : Std.TreeMap StateId Nat} {id : StateId}
    {old depth : Nat} (hid : id < total) (hold : depths[id]? = some old) (hless : depth < old) :
    ranks total (depths.insert id depth) < ranks total depths := by
  have hlook : ∀ i : StateId, (depths.insert id depth)[i]? =
      if id = i then some depth else depths[i]? := by
    intro i
    rw [Std.TreeMap.getElem?_insert]
    simp only [Std.LawfulEqCmp.compare_eq_iff_eq]
  refine Finset.sum_lt_sum (fun i _ => ?_) ⟨id, Finset.mem_range.2 hid, ?_⟩
  · rw [hlook]
    split
    · next heq =>
      subst heq
      rw [hold]
      exact Nat.le_of_lt hless
    · exact Nat.le_refl _
  · rw [hlook, if_pos rfl, hold]
    exact hless

include hreach in
theorem Confined.moved (hs : s.explorer.Confined m reach)
    (hdepth : ∀ d ∈ s.config.depthLimit, s.explorer.depth < d)
    (hforward : s.explorer.forward = (.ok true, t.explorer))
    (h : s.Becomes t.explorer s.session t) (hbooked : t.Booked [] s') :
    Confined m reach s' ∧ remaining reach.card (openNodes s') s' <
      remaining reach.card s.explorer.trail.chain s := by
  obtain ⟨a, move, a', n, f, hstep⟩ := Explorer.forward_true hforward
  have ht := hs.forward hreach hdepth hforward
  have hs' := hbooked.explorer.confined ht
  obtain ⟨top, below, hchain, _, hlength, hweight⟩ := hbooked.chain hstep ht.genuine
  obtain ⟨hid, htable⟩ := hstep.numbered ht
  have hbound := ht.size_le
  have hbelow : s'.explorer.trail.below = below := (List.cons.inj hchain).2
  have hdepth' : s'.explorer.depth = s.explorer.depth + 1 := by
    rw [Explorer.depth, Trail.depth, hbelow, hlength]
  refine ⟨⟨hs', fun d hd => ?_, fun _ => ?_, fun _ => hbooked.pending hstep ht.genuine⟩, ?_⟩
  · rw [hbooked.config, h.config] at hd
    rw [hdepth']
    exact hdepth d hd
  · rw [hbooked.depth, hbooked.explorer.depth]
  · obtain ⟨errors, constraints, done, ignored, hsession⟩ := hbooked.session
    rw [h.session, h.config] at hsession
    have hnew : s'.session.isNew = (t.explorer.isNew || (s.config.matchDepth &&
        s.session.depths[t.explorer.stateId]?.any (t.explorer.depth < ·))) := by
      rw [hsession]
      rfl
    have hdepths : s'.session.depths = if s'.session.isNew then
        s.session.depths.insert t.explorer.stateId t.explorer.depth else s.session.depths := by
      rw [hnew, hsession]
      rfl
    unfold remaining
    rw [Prod.Lex.toLex_lt_toLex, Prod.Lex.toLex_lt_toLex, hbooked.explorer.table]
    rcases htable with ⟨_, hgrows⟩ | ⟨hold, hsize⟩
    · exact .inl (by omega)
    · rw [hsize] at hid hbound ⊢
      refine .inr ⟨rfl, ?_⟩
      cases hexpanded : s'.session.isNew with
      | true =>
        -- the state is known, so it is expanded because it was met closer to the initial one
        rw [hexpanded, hold, Bool.false_or, eq_comm, Bool.and_eq_true] at hnew
        obtain ⟨old, hrank, hless⟩ := (Option.any_eq_true _ _).1 hnew.2
        rw [hdepths, hexpanded, if_pos rfl]
        exact .inl (ranks_insert_lt (Nat.lt_of_lt_of_le hid hbound) hrank (by simpa using hless))
      | false =>
        rw [hdepths, hexpanded, if_neg (by simp), openNodes, hexpanded, if_neg (by simp), hchain]
        refine .inr ⟨rfl, ?_⟩
        have hall : s.explorer.trail.chain.length ≤ s.explorer.depth + 1 := Nat.le_refl _
        have hless := hweight s.explorer.depth
        rw [List.take_of_length_le (Nat.le_of_eq hlength), List.take_of_length_le hall] at hless
        exact hless

theorem Confined.proceeds (h : Proceeds s s') (hreach : m.fingerprints s.config.depthLimit ⊆ ↑reach)
    (hs : s.explorer.Confined m reach) (hdepth : ∀ d ∈ s.config.depthLimit, s.explorer.depth < d)
    (hfresh : s.session.isNew = true →
      ∃ a, s.explorer.trail.top.agenda = some a ∧ ∃ t data, a.Pending t data) :
    Confined m reach s' ∧ remaining reach.card (openNodes s') s' <
      remaining reach.card s.explorer.trail.chain s := by
  cases h with
  | moved hforward h hbooked => exact Confined.moved hreach hs hdepth hforward h hbooked
  | @processed _ tally hforward h =>
    have hs' := hs.forward hreach hdepth hforward
    obtain ⟨agenda, hx, hnone, _⟩ := Explorer.decide_none (Explorer.forward_false hforward)
    have hseen : s.session.isNew = false := by
      by_contra hnew
      obtain ⟨a, ha, i, data, hpending⟩ := hfresh (by simpa using hnew)
      exact hnone a ha i data hpending
    cases s'
    obtain ⟨rfl, rfl, -, rfl⟩ := h
    obtain rfl : _ = _ := hx
    refine ⟨⟨hs', fun d hd => (hdepth d hd).le, ?_, ?_⟩, ?_⟩
    · rw [hseen]
      exact nofun
    · rw [hseen]
      exact nofun
    · unfold remaining openNodes
      rw [Prod.Lex.toLex_lt_toLex, Prod.Lex.toLex_lt_toLex, hseen, if_neg (by simp)]
      refine .inr ⟨rfl, .inr ⟨rfl, ?_⟩⟩
      change weight s.explorer.trail.below < weight (s.explorer.trail.top :: s.explorer.trail.below)
      rw [weight_cons]
      omega

include hreach in
theorem Confined.turns (hs : Confined m reach s) (h : Turns s true s') :
    Confined m reach s' ∧ remaining reach.card (openNodes s') s' <
      remaining reach.card (openNodes s) s := by
  cases h with
  | @back t _ depth tally hleaf hback h hproceeds =>
    obtain ⟨hchain, htable⟩ := Explorer.chain_of_backtrack? hback
    have hdepth := Explorer.depth_of_backtrack? hback
    cases t
    obtain ⟨rfl, rfl, -, rfl⟩ := h
    obtain ⟨hs', hless⟩ := Confined.proceeds hproceeds hreach (hs.explorer.backtrack? hback)
      (fun d hd => hdepth.trans_le (hs.limit d hd)) nofun
    refine ⟨hs', hless.trans_le ?_⟩
    unfold remaining
    rw [Prod.Lex.toLex_le_toLex, Prod.Lex.toLex_le_toLex, htable, hchain]
    refine .inr ⟨rfl, .inr ⟨rfl, ?_⟩⟩
    unfold openNodes Trail.chain
    split
    · rw [weight_cons]
      exact Nat.le_add_left _ _
    · exact Nat.le_refl _
  | @on t _ hleaf h hproceeds =>
    simp only [isLeaf, Bool.or_eq_false_iff, Bool.not_eq_false'] at hleaf
    obtain ⟨⟨⟨_, hnew⟩, hend⟩, hlimit⟩ := hleaf
    cases t
    obtain ⟨rfl, rfl, rfl, rfl⟩ := h
    obtain ⟨hs', hless⟩ := Confined.proceeds hproceeds hreach hs.explorer (fun d hd => by
      rw [depthLimitReached, hs.depth hnew, hd] at hlimit
      simpa using hlimit) fun _ => hs.fresh hnew hend
    refine ⟨hs', hless.trans_eq ?_⟩
    unfold remaining openNodes
    rw [hnew, if_pos rfl]

end DepthFirst

namespace Walks

structure Confined (m : Model) (reach : Finset Fingerprint) (w : Walks) (s : Search) : Prop where
  explorer : s.explorer.Confined m reach
  initial : w.initial.Confined m reach
  limit : ∀ d ∈ s.config.depthLimit, w.initial.depth < d ∧ s.explorer.depth < d
  paths : w.seen ≠ none → w.paths < s.config.pathLimit

def remaining (total : Nat) (w : Walks) (s : Search) : Remaining :=
  toLex (s.config.pathLimit - w.paths, toLex (w.seen.elim (total + 1) (absent (.range total)), 0))

variable {w w' : Walks}

theorem Confined.ends {v : Walks} (hv : Confined m reach v s) (hseen : v.seen ≠ none)
    (h : Ends w t (some w') s') (hinitial : w.initial = v.initial) (hpaths : w.paths = v.paths)
    (ht : t.explorer.Confined m reach) (hconfig : t.config = s.config) :
    Confined m reach w' s' ∧ remaining reach.card w' s' < remaining reach.card v s := by
  cases h with
  | again h =>
    cases s'
    obtain ⟨rfl, rfl, rfl, rfl⟩ := h
    have hlimit := hv.limit
    rw [← hinitial, ← hconfig] at hlimit
    refine ⟨⟨ht.of_trail rfl rfl (hinitial ▸ hv.initial), hinitial ▸ hv.initial,
      fun d hd => ⟨(hlimit d hd).1, (hlimit d hd).1⟩, nofun⟩, ?_⟩
    have hleft := hv.paths hseen
    unfold remaining
    rw [Prod.Lex.toLex_lt_toLex, hconfig, hpaths]
    exact .inl (by dsimp only; omega)

include hreach

theorem Confined.turns (hs : Confined m reach w s) (h : Turns w s (some w') s') :
    Confined m reach w' s' ∧ remaining reach.card w' s' < remaining reach.card w s := by
  have hdepth : ∀ d ∈ s.config.depthLimit,
      (s.explorer.shuffleSchedule w.source).1.depth < d := by
    intro d hd
    have hless := (hs.limit d hd).2
    unfold Explorer.shuffleSchedule
    split
    · exact hless
    · exact hless
  have hshuffled := hs.explorer.shuffleSchedule w.source
  cases h with
  | @begun _ h hseen hpaths =>
    cases s'
    obtain ⟨rfl, rfl, rfl, rfl⟩ := h
    refine ⟨⟨hs.explorer, hs.initial, hs.limit, fun _ => hpaths⟩, ?_⟩
    have hfew : absent (.range reach.card) ((∅ : Std.TreeSet StateId).insert s.explorer.stateId) ≤
        reach.card := (Finset.card_filter_le _ _).trans (Finset.card_range _).le
    unfold remaining
    rw [Prod.Lex.toLex_lt_toLex, Prod.Lex.toLex_lt_toLex, hseen]
    exact .inr ⟨rfl, .inl (Nat.lt_succ_of_le hfew)⟩
  | halted h hends hseen =>
    obtain ⟨b, hbecomes, _⟩ := h
    exact hs.ends hseen hends rfl rfl (hbecomes.explorer ▸ hs.explorer) hbecomes.config
  | finished hforward h hends hseen =>
    exact hs.ends hseen hends rfl rfl (hshuffled.forward hreach hdepth hforward) h.config
  | @moved t v z source seen hforward h hbooked hz hseen hfresh hlimit =>
    have ht := hshuffled.forward hreach hdepth hforward
    obtain ⟨a, move, a', n, f, hstep⟩ := Explorer.forward_true hforward
    have hid := (hstep.numbered ht).1
    have hconfig : s'.config = s.config := hz.config.trans (hbooked.config.trans h.config)
    rw [hz.explorer] at hfresh
    have hnumber : v.explorer.stateId < reach.card := by
      rw [hbooked.explorer.stateId]
      exact Nat.lt_of_lt_of_le hid ht.size_le
    refine ⟨⟨?_, hs.initial, fun d hd => ⟨?_, ?_⟩, fun _ => ?_⟩, ?_⟩
    · rw [hz.explorer]
      exact hbooked.explorer.confined ht
    · rw [hconfig] at hd
      exact (hs.limit d hd).1
    · rw [depthLimitReached, hd, hz.session, hbooked.depth] at hlimit
      rw [hz.explorer, hbooked.explorer.depth]
      simpa using hlimit
    · rw [hconfig]
      exact hs.paths (by simp [hseen])
    · unfold remaining
      rw [Prod.Lex.toLex_lt_toLex, Prod.Lex.toLex_lt_toLex, hconfig, hseen, hz.explorer]
      exact .inr ⟨rfl, .inl (absent_insert_lt (Finset.mem_range.2 hnumber) hfresh)⟩
  | @left t v z _ source _ hforward h hbooked hz hends hseen =>
    have ht := hshuffled.forward hreach hdepth hforward
    have hz' : z.explorer.Confined m reach := by
      rw [hz.explorer]
      exact hbooked.explorer.confined ht
    exact hs.ends hseen hends rfl rfl hz' (hz.config.trans (hbooked.config.trans h.config))

end Walks

structure WorkItem.Confined (m : Model) (reach : Finset Fingerprint) (limit : Option Nat)
    (item : WorkItem) : Prop where
  trail : item.trail.Confined m reach
  threads : ∀ t ∈ item.schedule.threads, t ∈ item.trail.top.state.runnable
  depth : ∀ d ∈ limit, item.trail.depth < d

namespace Bounded

structure Confined (m : Model) (reach : Finset Fingerprint) (w : Bounded) (s : Search) : Prop where
  explorer : s.explorer.Confined m reach
  waiting : ∀ item ∈ w.waiting, item.Confined m reach s.config.depthLimit
  active : ∀ trail base, w.active = some (trail, base) →
    base ≤ s.explorer.depth ∧ ∀ d ∈ s.config.depthLimit, s.explorer.depth < d

def keys (reach : Finset Fingerprint) : Finset (StateId × Option ThreadId) :=
  Finset.range reach.card ×ˢ (Finset.range (width reach)).map .some

/-- A piece of work counts for less when it is taken up, and for more when it is put off. -/
def stages (w : Bounded) : Nat :=
  w.active.toList.length + 2 * w.current.toList.length + 3 * w.next.toList.length

def remaining (reach : Finset Fingerprint) (w : Bounded) (s : Search) : Remaining :=
  toLex (absent (keys reach) w.visited, toLex (weight (w.openNodes s.explorer) + w.stages, 0))

variable {w w' : Bounded} {v : Search} {trail : Trail} {base : Nat}

theorem remaining_lt (hmarks : absent (keys reach) w'.visited ≤ absent (keys reach) w.visited)
    (hwork : weight (w'.openNodes s'.explorer) + w'.stages <
      weight (w.openNodes s.explorer) + w.stages) :
    remaining reach w' s' < remaining reach w s := by
  unfold remaining
  rw [Prod.Lex.toLex_lt_toLex, Prod.Lex.toLex_lt_toLex]
  rcases Nat.lt_or_eq_of_le hmarks with hless | heq
  · exact .inl hless
  · exact .inr ⟨heq, .inl hwork⟩

theorem Confined.retreats (hs : s.explorer.Confined m reach)
    (hwaiting : ∀ item ∈ w.waiting, item.Confined m reach s.config.depthLimit)
    (hactive : w.active = some (trail, base)) (hbase : base < s.explorer.depth)
    (hdepth : ∀ d ∈ s.config.depthLimit, s.explorer.depth ≤ d) {moved : Bool}
    (h : s.Retreats moved s') :
    Confined m reach w s' ∧ w.openNodes s'.explorer = (w.openNodes s.explorer).tail := by
  obtain ⟨tally, hback, hbecomes⟩ := h.moves hbase
  have hless := Explorer.depth_of_backtrack? hback
  refine ⟨⟨hs.backtrack? hback, fun item hitem => hbecomes.config ▸ hwaiting item hitem, ?_⟩,
    openNodes_of_backtrack? hactive hbase hback⟩
  intro trail' base' hactive'
  cases hactive.symm.trans hactive'
  refine ⟨by omega, fun d hd => ?_⟩
  rw [hbecomes.config] at hd
  have hlimit := hdepth d hd
  omega

theorem Confined.takes (hs : Confined m reach w s) (hactive : w.active = none)
    (h : Takes w s (some w') s') :
    Confined m reach w' s' ∧ remaining reach w' s' < remaining reach w s := by
  cases h with
  | raised hcurrent h hnext =>
    have hempty := WorkQueue.toList_of_pop?_none hcurrent
    have hsome := WorkQueue.toList_ne_nil hnext
    refine ⟨⟨h.explorer ▸ hs.explorer, fun item hitem => ?_, fun trail base hsome => ?_⟩, ?_⟩
    · rw [waiting_raised hcurrent] at hitem
      exact h.config ▸ hs.waiting item hitem
    · cases hactive.symm.trans hsome
    · refine remaining_lt (Nat.le_refl _) ?_
      have hpos := List.length_pos_iff.2 hsome
      rw [openNodes_idle hactive, openNodes_idle (w := { w with
        current := w.next, next := .empty, preemptions := w.preemptions + 1 }) hactive,
        waiting_raised hcurrent]
      unfold stages
      rw [hempty]
      simp only [hactive, WorkQueue.toList, WorkQueue.empty, List.reverse_nil, List.append_nil,
        List.length_nil] at hpos ⊢
      omega
  | @taken _ item current tally hcurrent h =>
    have hpop := WorkQueue.toList_of_pop? hcurrent
    have hwaiting := waiting_taken hcurrent
    have hitem := hs.waiting item (hwaiting ▸ List.mem_cons_self)
    have hrestored : (s.explorer.restore item.trail).Confined m reach :=
      hs.explorer.of_trail rfl rfl hitem.trail
    cases s'
    obtain ⟨rfl, rfl, rfl, rfl⟩ := h
    refine ⟨⟨hrestored.setAgenda fun a ha => ?_, fun other hother => ?_, fun trail base hsome => ?_⟩,
      remaining_lt (Nat.le_refl _) ?_⟩
    · cases ha
      exact Agenda.fits_of_threads hitem.threads
    · exact hs.waiting other (hwaiting ▸ List.mem_cons_of_mem _ hother)
    · cases hsome
      exact ⟨Nat.le_refl _, hitem.depth⟩
    · rw [openNodes_taken hactive hcurrent]
      unfold stages
      rw [hactive, hpop, List.length_cons]
      simp only [Option.toList_some, Option.toList_none, List.length_singleton, List.length_nil]
      omega

variable (hs : Confined m reach w s) (hactive : w.active = some (trail, base))

include hs hactive

theorem Confined.release (hs' : s'.explorer.Confined m reach) (hconfig : s'.config = s.config) :
    Confined m reach { w with active := none } s' ∧
      remaining reach { w with active := none } s' < remaining reach w s := by
  refine ⟨⟨hs', fun item hitem => hconfig ▸ hs.waiting item hitem,
    fun _ _ hnone => (by cases hnone)⟩, ?_⟩
  refine remaining_lt (Nat.le_refl _) ?_
  have hbase := (hs.active trail base hactive).1
  rw [openNodes_idle rfl, openNodes_active hactive hbase, weight_cons, weight_append]
  unfold stages
  rw [hactive]
  change weight (w.waiting.map WorkItem.node) + _ < _
  simp only [Option.toList_some, Option.toList_none, List.length_singleton, List.length_nil]
  omega

theorem Confined.defers (h : Defers w s w' s') :
    Confined m reach w' s' ∧ w'.visited = w.visited := by
  cases h with
  | kept => exact ⟨hs, rfl⟩
  | @split _ g last hschedule hlast h =>
    have hrestricted := runnable_of_restrictTo hs.explorer.genuine hschedule
    obtain ⟨_, hdepth⟩ := hs.active trail base hactive
    cases s'
    obtain ⟨rfl, rfl, rfl, rfl⟩ := h
    refine ⟨⟨hs.explorer.setAgenda fun a ha => ?_, fun item hitem => ?_, hs.active⟩, rfl⟩
    · cases ha
      exact Agenda.fits_of_threads (hrestricted _)
    · rw [waiting_putOff] at hitem
      rcases List.mem_append.1 hitem with hold | hnew
      · exact hs.waiting item hold
      · obtain ⟨t, _, rfl⟩ := List.mem_map.1 hnew
        exact ⟨hs.explorer.trail, hrestricted [t], hdepth⟩

include hreach

theorem Confined.moved (hforward : s.explorer.forward = (.ok true, t.explorer)) {held : List Trail}
    (hbooked : t.Booked held v) :
    v.explorer.Confined m reach ∧ key v ∈ keys reach ∧
      v.explorer.depth = s.explorer.depth + 1 ∧
      weight (w.openNodes v.explorer).tail < weight (w.openNodes s.explorer) := by
  obtain ⟨a, move, a', n, f, hstep⟩ := Explorer.forward_true hforward
  obtain ⟨hbase, hdepth⟩ := hs.active trail base hactive
  have ht := hs.explorer.forward hreach hdepth hforward
  obtain ⟨top, below, hchain, _, hlength, hweight⟩ := hbooked.chain hstep ht.genuine
  have hdepth' := hbooked.explorer.depth.trans (Explorer.depth_of_forward hforward)
  refine ⟨hbooked.explorer.confined ht, ?_, hdepth', ?_⟩
  · have hthread : t.explorer.currentThread = some move.thread := by
      rw [Explorer.currentThread, hstep.trail, hstep.shown]
      rfl
    have hfits := hs.explorer.genuine.trail.top.agenda a hstep.agenda
    have htakes := hstep.takes
    rw [hs.explorer.model] at htakes
    have hrunnable := hs.explorer.lt_width (htakes.runnable hfits)
    have hnumber := Nat.lt_of_lt_of_le (hstep.numbered ht).1 ht.size_le
    rw [key, hbooked.explorer.stateId, hbooked.explorer.currentThread, hthread]
    simp only [keys, Finset.mem_product, Finset.mem_range, Finset.mem_map]
    exact ⟨hnumber, move.thread, hrunnable, rfl⟩
  · have hcount : v.explorer.depth - base = s.explorer.depth - base + 1 := by omega
    have hbelow : v.explorer.trail.below = below := (List.cons.inj hchain).2
    have hless := hweight (s.explorer.depth - base)
    rw [openNodes_active hactive (by omega), openNodes_active hactive hbase, List.tail_cons,
      weight_append, hcount, hbelow, ← List.cons_append, weight_append]
    exact Nat.add_lt_add_right hless _

theorem Confined.steps (h : Steps w base s w' s') :
    Confined m reach w' s' ∧ remaining reach w' s' < remaining reach w s := by
  obtain ⟨hbase, hdepth⟩ := hs.active trail base hactive
  cases h with
  | stopped h =>
    obtain ⟨b, hbecomes, _⟩ := h
    exact hs.release hactive (hbecomes.explorer ▸ hs.explorer) hbecomes.config
  | finished hforward _ h =>
    exact hs.release hactive (hs.explorer.forward hreach hdepth hforward) h.config
  | @back t _ tally moved hforward hdeep h hback =>
    have ht := hs.explorer.forward hreach hdepth hforward
    obtain ⟨agenda, hx, _⟩ := Explorer.decide_none (Explorer.forward_false hforward)
    have hsame : t.explorer.depth = s.explorer.depth := by
      rw [hx]
      rfl
    have hnodes : (w.openNodes t.explorer).tail = (w.openNodes s.explorer).tail := by
      rw [openNodes_active hactive (hsame ▸ hbase), openNodes_active hactive hbase, hx]
      rfl
    obtain ⟨hs', hopen⟩ := Confined.retreats ht (h.config ▸ hs.waiting) hactive hdeep
      (fun d hd => by rw [h.config] at hd; rw [hsame]; exact Nat.le_of_lt (hdepth d hd)) hback
    refine ⟨hs', remaining_lt (Nat.le_refl _) ?_⟩
    rw [hopen, hnodes, openNodes_active hactive hbase, List.tail_cons, weight_cons]
    omega
  | broken hforward h hbooked _ =>
    obtain ⟨hv, _⟩ := hs.moved hreach hactive hforward hbooked
    exact hs.release hactive hv (hbooked.config.trans h.config)
  | @left t v z _ moved hforward h hbooked hz _ hback =>
    obtain ⟨hv, _, hdepth', hless⟩ := hs.moved hreach hactive hforward hbooked
    have hconfig : z.config = s.config := hz.config.trans (hbooked.config.trans h.config)
    rw [← hz.explorer] at hv hdepth' hless
    obtain ⟨hs', hopen⟩ := Confined.retreats (w := w.mark v) hv (hconfig ▸ hs.waiting) hactive
      (by omega) (fun d hd => by rw [hconfig] at hd; rw [hdepth']; exact hdepth d hd) hback
    refine ⟨hs', remaining_lt absent_insert_le ?_⟩
    rw [hopen]
    exact Nat.add_lt_add_right hless _
  | @entered t v z _ _ hforward h hbooked hz hdefers hfresh hlimit =>
    obtain ⟨hv, hkey, hdepth', _⟩ := hs.moved hreach hactive hforward hbooked
    have hconfig : z.config = s.config := hz.config.trans (hbooked.config.trans h.config)
    have hz' : Confined m reach (w.mark v) z := by
      refine ⟨hz.explorer ▸ hv, fun item hitem => hconfig ▸ hs.waiting item hitem, ?_⟩
      intro trail' base' hactive'
      cases hactive.symm.trans hactive'
      rw [hz.explorer]
      refine ⟨by omega, fun d hd => ?_⟩
      rw [hz.config] at hd
      rw [depthLimitReached, hd, hbooked.depth, ← hbooked.explorer.depth] at hlimit
      simpa using hlimit
    obtain ⟨hs', hvisited⟩ := hz'.defers hactive hdefers
    refine ⟨hs', ?_⟩
    unfold remaining
    rw [Prod.Lex.toLex_lt_toLex, hvisited]
    exact .inl (absent_insert_lt hkey hfresh)

end Bounded

def Frontier.Confined (m : Model) (reach : Finset Fingerprint) : Frontier → Search → Prop
  | .depthFirst, s => DepthFirst.Confined m reach s
  | .walks w, s => w.Confined m reach s
  | .bounded w, s => w.Confined m reach s

def Frontier.remaining (reach : Finset Fingerprint) : Frontier → Search → Remaining
  | .depthFirst, s => DepthFirst.remaining reach.card (DepthFirst.openNodes s) s
  | .walks w, s => w.remaining reach.card s
  | .bounded w, s => w.remaining reach s

include hreach in
theorem Frontier.Confined.turns {f f' : Frontier} (hs : f.Confined m reach s)
    (h : f.Turns s (some f') s') :
    f'.Confined m reach s' ∧ f'.remaining reach s' < f.remaining reach s := by
  generalize hr : some f' = r at h
  cases h with
  | depthFirst h =>
    cases hr
    exact DepthFirst.Confined.turns hreach hs h
  | exhausted => cases hr
  | walks h =>
    obtain ⟨w', rfl, rfl⟩ := Option.map_eq_some_iff.1 hr.symm
    exact Walks.Confined.turns hreach hs h
  | takes hactive h =>
    obtain ⟨w', rfl, rfl⟩ := Option.map_eq_some_iff.1 hr.symm
    exact Bounded.Confined.takes hs hactive h
  | steps hactive h =>
    cases hr
    exact Bounded.Confined.steps hreach hs hactive h

/-- Turns that leave less and less to do come to an end, and allowing for more of them changes
nothing. -/
theorem turns_return
    (hturn : ∀ {f s f' s'}, I f s → f.Turns s (some f') s' → I f' s' ∧ μ f' s' < μ f s)
    (hI : I frontier s) :
    ∃ n r s', r ≠ .ok false ∧ ∀ fuel ≥ n, s.perform (turns fuel frontier) = (r, s') := by
  induction h : μ frontier s using WellFoundedLT.induction generalizing frontier s with
  | ind x ih =>
    rcases hone : s.perform (turn frontier) with ⟨e | r, t⟩
    · refine ⟨1, .error e, t, nofun, fun fuel hfuel => ?_⟩
      obtain ⟨k, rfl⟩ := Nat.exists_eq_add_of_le' hfuel
      rw [turns, perform_bind, hone]
    cases r with
    | none =>
      refine ⟨1, .ok true, t, by simp, fun fuel hfuel => ?_⟩
      obtain ⟨k, rfl⟩ := Nat.exists_eq_add_of_le' hfuel
      rw [turns, perform_bind, hone]
      rfl
    | some f =>
      obtain ⟨hf, hless⟩ := hturn hI (turn_does hone)
      obtain ⟨n, r, s', hr, hall⟩ := ih _ (h ▸ hless) hf rfl
      refine ⟨n + 1, r, s', hr, fun fuel hfuel => ?_⟩
      obtain ⟨k, rfl⟩ := Nat.exists_eq_add_of_le' hfuel
      rw [← Nat.add_assoc, turns, perform_bind, hone]
      exact hall _ (Nat.le_add_left n k)

/-- A run whose turns leave less and less to do has an outcome. -/
theorem run_returns (hstart : ∀ {f t}, Starts s f t → I f t)
    (hturn : ∀ {f s f' s'}, I f s → f.Turns s (some f') s' → I f' s' ∧ μ f' s' < μ f s) :
    ∃ n outcome s', outcome ≠ .ok none ∧ ∀ fuel ≥ n, s.perform (run fuel) = (outcome, s') := by
  rcases hs : s.perform start with ⟨e | f, t⟩
  · refine ⟨0, .error e, t, nofun, fun fuel _ => ?_⟩
    rw [run, perform_bind, hs]
  obtain ⟨n, r, v, hr, hall⟩ := turns_return hturn (hstart (start_does hs))
  have hrun : ∀ fuel ≥ n, s.perform (run fuel) = match r with
      | .ok _ => v.perform (finish >>= fun report => pure (some report))
      | .error e => (.error e, v) := by
    intro fuel hfuel
    rw [run, perform_bind, hs]
    change t.perform (turns fuel f >>= _) = _
    rw [perform_bind, hall fuel hfuel]
    cases r with
    | error e => rfl
    | ok finished =>
      cases finished with
      | false => exact absurd rfl hr
      | true => rfl
  cases r with
  | error e => exact ⟨n, .error e, v, nofun, hrun⟩
  | ok finished =>
    simp only [perform_bind] at hrun
    rcases hfinish : v.perform finish with ⟨e | report, s'⟩
    · simp only [hfinish] at hrun
      exact ⟨n, .error e, s', nofun, hrun⟩
    · simp only [hfinish] at hrun
      exact ⟨n, .ok (some report), s', nofun, hrun⟩

theorem Frontier.Confined.starts {c : Config} {s₀ : State} (hx : s.explorer.Starts p c s₀ f)
    (hs : s.explorer.Confined m reach) (hlimit : ∀ d ∈ s.config.depthLimit, 0 < d)
    (h : Starts s frontier s') : frontier.Confined m reach s' := by
  have hdepth : s.explorer.trail.depth = 0 := congrArg List.length hx.below
  cases h with
  | depthFirst _ h =>
    cases s'
    obtain ⟨rfl, rfl, rfl, rfl⟩ := h
    refine ⟨hs, fun d _ => hdepth.le.trans d.zero_le, fun _ => rfl, fun _ hend => ?_⟩
    rw [hx.agenda, ← hx.state]
    exact Agenda.pending_ofState hend
  | walks _ hinitial h hseen =>
    cases s'
    obtain ⟨rfl, rfl, rfl, rfl⟩ := h
    refine ⟨hs.of_trail rfl rfl hs.trail, hinitial ▸ hs.trail, fun d hd => ?_,
      fun hsome => absurd hseen hsome⟩
    have hpos : s.explorer.trail.depth < d := hdepth ▸ hlimit d hd
    rw [hinitial]
    exact ⟨hpos, hpos⟩
  | bounded _ h =>
    cases s'
    obtain ⟨rfl, rfl, rfl, rfl⟩ := h
    refine ⟨hs, fun item hitem => ?_, fun _ _ hnone => (by cases hnone)⟩
    obtain ⟨a, ha, rfl⟩ := Bounded.mem_waiting_initial hitem
    exact ⟨hs.trail, (hs.genuine.trail.top.agenda a ha).threads, fun d hd => hdepth ▸ hlimit d hd⟩

end Search

theorem Config.depthLimit_pos {c : Config} (hvalid : c.problem? = none) :
    ∀ d ∈ c.depthLimit, 0 < d := by
  intro d hd
  by_contra hzero
  obtain rfl : d = 0 := by omega
  rw [Config.problem?, if_pos (Option.mem_def.1 hd)] at hvalid
  cases hvalid

theorem Model.exists_reach {m : Model} {limit : Option Nat}
    (hfinite : limit = none → (m.fingerprints none).Finite) :
    ∃ reach : Finset Fingerprint, m.fingerprints limit ⊆ ↑reach := by
  have hreach : (m.fingerprints limit).Finite := by
    cases limit with
    | none => exact hfinite rfl
    | some limit => exact m.finite_fingerprints limit
  obtain ⟨reach, hreach⟩ := hreach.exists_finset_coe
  exact ⟨reach, hreach.ge⟩

/-- A run ends, whichever strategy, properties and listeners it has: after some number of turns it
has its outcome, a report or an error. It takes a depth limit, or executions that reach only
finitely many fingerprints. -/
theorem run_has_outcome {p : Program} {c : Config} {s : Search}
    (hstart : s.explorer.Started p c) (hvalid : c.problem? = none)
    (hconfig : s.config = c)
    (hfinite : c.depthLimit = none → (s.explorer.model.fingerprints none).Finite) :
    ∃ n outcome s', outcome ≠ .ok none ∧
      ∀ fuel ≥ n, s.perform (Search.run fuel) = (outcome, s') := by
  obtain ⟨reach, hreach⟩ := Model.exists_reach hfinite
  have hlimit := Config.depthLimit_pos hvalid
  obtain ⟨s₀, f, hstarts⟩ := hstart.starts
  have hconfined := hstarts.confined hreach
  rw [← hconfig] at hlimit hreach
  refine Search.run_returns (I := fun f t => t.config = s.config ∧
    f.Confined s.explorer.model reach t) (μ := Search.Frontier.remaining reach) ?_ ?_
  · intro f t hf
    exact ⟨hf.config, Search.Frontier.Confined.starts hstarts hconfined hlimit hf⟩
  · rintro f t f' t' ⟨ht, hf⟩ hturns
    rw [← ht] at hreach
    obtain ⟨hf', hless⟩ := hf.turns hreach hturns
    exact ⟨⟨hturns.records.config.trans ht, hf'⟩, hless⟩

/-- A thread that goes round for ever. -/
def spin : Program where
  path := "spin"
  classes := builtinClasses
  methods := [⟨"t", false, [], [⟨.yield, .onLine 3 3 7⟩, ⟨.goto 0, .onLine 4 3 12⟩],
    ["yield", "goto again"]⟩]
  threads := [⟨"t", 0⟩]
  invariants := []

def spinState (pc : Nat) : State :=
  ⟨[⟨"t", .runnable, [⟨0, pc, []⟩], none⟩], [⟨0, true, [], .free⟩], .empty⟩

theorem spin_execution {mode : Symmetry} {choices : List (ThreadId × Option Int64)} {s : State}
    {fault : Option Uncaught} (h : spin.Execution mode choices s fault) :
    s = spinState 0 ∨ s = spinState 1 := by
  induction h with
  | start h =>
    cases h
    exact .inl rfl
  | @step _ s s' _ fault t data _ hstep ih =>
    have hrunnable : s.runnable = [0] := by
      rcases ih with rfl | rfl <;> rfl
    have ht := hstep.runnable
    rw [hrunnable, List.mem_singleton] at ht
    subst ht
    obtain ⟨arrange, hexecuted⟩ := hstep.executed
    rcases ih with rfl | rfl
    · cases hexecuted
      exact .inr rfl
    · cases hexecuted
      exact .inl rfl

/-- With a depth limit the relay is searched to an end; the thread that goes round needs none, for
it comes back to one of two states. -/
theorem relay_and_spin_outcomes :
    (∃ s : Search, Explorer.start (relay (counter .ne 0))
        { Config.default with strategy := .contextBounded, depthLimit := some 3 } =
          .ok s.explorer ∧
      ∃ n outcome s', outcome ≠ .ok none ∧
        ∀ fuel ≥ n, s.perform (Search.run fuel) = (outcome, s')) ∧
    ∃ s : Search, Explorer.start spin Config.default = .ok s.explorer ∧
      (s.explorer.model.fingerprints none).Finite ∧
      ∃ n outcome s', outcome ≠ .ok none ∧
        ∀ fuel ≥ n, s.perform (Search.run fuel) = (outcome, s') := by
  have hsearch : ∀ (x : Explorer) (c : Config), ∃ s : Search, s.explorer = x ∧ s.config = c :=
    fun x c => ⟨⟨x, c, Property.defaults, [], [], .empty, .always none, false, [], .empty .error⟩,
      rfl, rfl⟩
  refine ⟨?_, ?_⟩
  · obtain ⟨x, hx⟩ : ∃ x, Explorer.start (relay (counter .ne 0))
        { Config.default with strategy := .contextBounded, depthLimit := some 3 } = .ok x :=
      ⟨_, rfl⟩
    obtain ⟨s, rfl, hconfig⟩ := hsearch x _
    exact ⟨s, hx, run_has_outcome ⟨_, hx⟩ rfl hconfig nofun⟩
  · obtain ⟨x, hx⟩ : ∃ x, Explorer.start spin Config.default = .ok x := ⟨_, rfl⟩
    obtain ⟨s, rfl, hconfig⟩ := hsearch x _
    have hstarted : s.explorer.Started spin Config.default := ⟨_, hx⟩
    have hone : ∀ r, { f | s.explorer.model.fingerprint r = .ok f }.Finite := fun r =>
      Set.Subsingleton.finite fun f hf g hg => Except.ok.inj (hf.symm.trans hg)
    have hfinite : (s.explorer.model.fingerprints none).Finite := by
      refine ((hone (spinState 0)).union (hone (spinState 1))).subset ?_
      rintro f ⟨choices, r, fault, hexecution, _, hf⟩
      rw [hstarted.genuine.program] at hexecution
      rcases spin_execution hexecution with rfl | rfl
      · exact .inl hf
      · exact .inr hf
    exact ⟨s, hx, hfinite, run_has_outcome hstarted rfl hconfig fun _ => hfinite⟩

end Interleave
