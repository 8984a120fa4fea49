import Mathlib.Data.Set.Card
import Interleave.Proofs.Fingerprint.Threads
import Interleave.Proofs.Search.Confined
import Interleave.Proofs.Search.Pass

set_option autoImplicit false

namespace Interleave

structure Config.Unlimited (c : Config) : Prop where
  depthLimit : c.depthLimit = none
  preemptionLimit : c.preemptionLimit = none
  memoryBudget : c.memoryBudget = none

variable {c : Config} {p : Program} {x : Explorer} {m : Model}

theorem StateTable.Distinct.ncard_holds {table : StateTable} (h : table.Distinct) :
    { f | table.Holds f }.Finite ∧ { f | table.Holds f }.ncard = table.size := by
  obtain ⟨ids, rfl⟩ := h.isExact
  have hinjective : Function.Injective Fingerprint.mk := fun _ _ => congrArg Fingerprint.words
  have hnodup : (ids.keys.map Fingerprint.mk).Nodup := ids.nodup_keys.map hinjective
  have hkeys : { f | (exact ids).Holds f } = ↑(ids.keys.map Fingerprint.mk).toFinset := by
    ext f
    simp only [Set.mem_ofPred_eq, List.coe_toFinset, List.mem_map, Std.TreeMap.mem_keys,
      Std.TreeMap.mem_iff_isSome_getElem?, Option.isSome_iff_exists]
    constructor
    · rintro ⟨id, hid⟩
      exact ⟨f.words, ⟨id, hid⟩, rfl⟩
    · rintro ⟨words, ⟨id, hid⟩, rfl⟩
      exact ⟨id, hid⟩
  rw [hkeys]
  refine ⟨Finset.finite_toSet _, ?_⟩
  rw [Set.ncard_coe_finset, List.toFinset_card_of_nodup hnodup, List.length_map,
    Std.TreeMap.length_keys]
  rfl

theorem Explorer.Starts.size {s₀ : State} {f : Fingerprint} (h : x.Starts p c s₀ f) :
    x.table.size = 1 := by
  obtain ⟨_, hadded⟩ := h.added
  have hadds := StateTable.adds hadded
  generalize x.stateId = id at hadds
  generalize x.isNew = isNew at hadds
  generalize x.table = table at hadds
  cases hadds with
  | met hnumber => cases (StateTable.number?_empty c.stateSet f).symm.trans hnumber
  | fresh _ hsize => rw [hsize, StateTable.size_empty]

theorem Model.Sees.fingerprint {V : Fingerprint → Prop} {s : State} (h : m.Sees V s)
    (hempty : ∀ a o, s.heap.get? a = some o → o.payload.listing = []) :
    ∃ f, m.fingerprint s = .ok f ∧ V f := by
  obtain ⟨w, f, _, hf, hV, R, hcorr⟩ := h
  refine ⟨f, (fingerprint_congr hcorr (orderedAlike_of_empty ?_ hempty)).trans hf, hV⟩
  rintro _ rfl
  exact hcorr.mirrors

/-- What an explorer has of its own in its model has no part in what can be met. -/
theorem Explorer.Started.ofConfig (h : x.Started p c) :
    ∃ arrange, Model.ofConfig p c = .ok { x.model with arrange } := by
  obtain ⟨s₀, f, hx⟩ := h.starts
  unfold Model.ofConfig
  rw [hx.masks, hx.model]
  exact ⟨_, rfl⟩

theorem Config.Exact.ofConfig_eq {d : Config} (hc : c.Exact) (hd : d.Exact)
    (hsymmetry : c.symmetry = d.symmetry) (p : Program) :
    Model.ofConfig p c = Model.ofConfig p d := by
  unfold Model.ofConfig Config.policy Config.filter
  rw [hsymmetry, hc.serializer, hd.serializer, hc.includePc, hd.includePc, hc.filteredFields,
    hd.filteredFields, hc.filteredMethods, hd.filteredMethods]

namespace Search

/-- The books of a search without limits: every error comes after a step, the table holds fingerprints
of reachable states, and unless the search was asked to stop, it has counted them and met no limit. -/
structure Tallied (m : Model) (s : Search) : Prop where
  unlimited : s.config.Unlimited
  steady : s.explorer.Steady m
  reached : ∀ f, s.explorer.table.Holds f → f ∈ m.fingerprints none
  errors : ∀ e ∈ s.session.errors, e.path ≠ []
  constraints : s.session.terminated = false → s.session.constraints = []
  states : s.session.terminated = false → s.session.stats.states = some s.explorer.table.size

section Tallied

variable {m : Model} {s s' t : Search} {x : Explorer} {b : Session} {w : Bounded}

variable (hs : s.Tallied m)

include hs

theorem Tallied.becomes (h : s.Becomes x b s') (hx : x.Steady m)
    (htable : x.table = s.explorer.table) (hb : SameFindings b s.session)
    (hstates : b.stats.states = s.session.stats.states) : s'.Tallied m := by
  refine ⟨h.config ▸ hs.unlimited, h.explorer ▸ hx, ?_, ?_, fun hgoes => ?_, fun hgoes => ?_⟩
  · rw [h.explorer, htable]
    exact hs.reached
  · rw [h.session, hb.errors]
    exact hs.errors
  all_goals rw [h.session, hb.terminated] at hgoes
  · rw [h.session, hb.constraints]
    exact hs.constraints hgoes
  · rw [h.session, hstates, h.explorer, htable]
    exact hs.states hgoes

theorem Tallied.stops (h : s.Stops s') : s'.Tallied m := by
  obtain ⟨b, hbecomes, herrors, hended, _⟩ := h
  refine ⟨hbecomes.config ▸ hs.unlimited, hbecomes.explorer ▸ hs.steady, ?_, ?_, fun hgoes => ?_,
    fun hgoes => ?_⟩
  · rw [hbecomes.explorer]
    exact hs.reached
  · rw [hbecomes.session, herrors]
    exact hs.errors
  all_goals
    rw [hbecomes.session] at hgoes ⊢
    obtain ⟨rfl, _⟩ := hended hgoes
  · exact hs.constraints hgoes
  · rw [hbecomes.explorer]
    exact hs.states hgoes

theorem Tallied.processed {tally : Tally} (hforward : s.explorer.forward = (.ok false, s'.explorer))
    (h : s.Becomes s'.explorer { s.session with stats := s.session.stats.retally tally } s') :
    s'.Tallied m := by
  obtain ⟨agenda, hx, _⟩ := Explorer.decide_none (Explorer.forward_false hforward)
  refine hs.becomes h ?_ ?_ ⟨rfl, rfl, rfl⟩ rfl
  · rw [hx]
    exact hs.steady.setAgenda agenda
  · rw [hx]
    rfl

theorem Tallied.retreats {moved : Bool} (h : s.Retreats moved s') : s'.Tallied m := by
  rcases h with ⟨_, _, hkeeps⟩ | ⟨_, tally, hback, hbecomes⟩
  · exact hs.becomes hkeeps hs.steady rfl ⟨rfl, rfl, rfl⟩ rfl
  · exact hs.becomes hbecomes (hs.steady.backtrack? hback) (Explorer.chain_of_backtrack? hback).2
      ⟨rfl, rfl, rfl⟩ rfl

theorem Tallied.takes {r : Option Bounded} (h : Bounded.Takes w s r s') : s'.Tallied m := by
  cases h with
  | stopped h => exact hs.stops h
  | ended _ _ h | raised _ h => exact hs.becomes h hs.steady rfl ⟨rfl, rfl, rfl⟩ rfl
  | cut _ _ _ hlimit =>
    obtain ⟨limit, _, hsome⟩ := hlimit
    cases hs.unlimited.preemptionLimit.symm.trans hsome
  | taken _ h =>
    exact hs.becomes h ((hs.steady.restore _).setAgenda _) rfl ⟨rfl, rfl, rfl⟩ rfl

variable (hhonest : s.Honest m.program m.symmetry)

include hhonest

theorem Tallied.moved (hforward : s.explorer.forward = (.ok true, t.explorer))
    (h : s.Becomes t.explorer s.session t) {held : List Trail} (hbooked : t.Booked held s') : s'.Tallied m := by
  obtain ⟨a, move, a', n, f, hstep⟩ := Explorer.forward_true hforward
  have hsteady := hs.steady.advances hstep
  have hextends := (hs.steady.table.add hstep.added).2
  have hf : f ∈ m.fingerprints none :=
    hstep.mem_fingerprints hhonest.explorer hs.steady.model nofun
  have hunlimited : t.config.Unlimited := h.config ▸ hs.unlimited
  obtain ⟨errors, constraints, done, ignored, hsession⟩ := hbooked.session
  have hbefore : s'.session.terminated = false → s.session.terminated = false := by
    rw [hsession, h.session]
    exact id
  refine ⟨hbooked.config ▸ hunlimited, hbooked.explorer.steady hsteady, ?_, ?_, fun hgoes => ?_,
    fun hgoes => ?_⟩
  · rw [hbooked.explorer.table]
    rintro g ⟨id, hid⟩
    rcases hextends.only g id hid with hold | rfl
    · exact hs.reached g ⟨id, hold⟩
    · exact hf
  · obtain ⟨es, herrors, _, hfound⟩ := hbooked.errors
    rw [herrors, h.session]
    intro e he
    rcases List.mem_append.1 he with hold | hnew
    · exact hs.errors e hold
    · rw [(hfound e hnew).path]
      exact hstep.path_ne_nil (hhonest.forward hforward)
  · rw [hbooked.unlimited hunlimited.memoryBudget hunlimited.depthLimit, h.session]
    exact hs.constraints (hbefore hgoes)
  · -- the books and the table go by the same sign of a new state
    rw [hsession, h.session, hbooked.explorer.table, StateTable.size_add hstep.added]
    simp only [Session.advance, hs.states (hbefore hgoes), Option.getD_some]

theorem Tallied.proceeds (h : DepthFirst.Proceeds s s') : s'.Tallied m := by
  cases h with
  | moved hforward h hbooked => exact hs.moved hhonest hforward h hbooked
  | processed hforward h => exact hs.processed hforward h

theorem Tallied.depthFirst {more : Bool} (h : DepthFirst.Turns s more s') : s'.Tallied m := by
  cases h with
  | stopped h => exact hs.stops h
  | exhausted _ _ h => exact hs.becomes h hs.steady rfl ⟨rfl, rfl, rfl⟩ rfl
  | back _ hback h hproceeds =>
    have ht := hs.becomes h (hs.steady.backtrack? hback) (Explorer.chain_of_backtrack? hback).2
      ⟨rfl, rfl, rfl⟩ rfl
    refine ht.proceeds (hhonest.becomes h ?_ rfl) hproceeds
    exact Explorer.backtrack?_genuine hhonest.explorer hback
  | on _ h hproceeds =>
    have ht := hs.becomes h hs.steady rfl ⟨rfl, rfl, rfl⟩ rfl
    exact ht.proceeds (hhonest.becomes h hhonest.explorer rfl) hproceeds

theorem Tallied.steps {w' : Bounded} {base : Nat} (h : Bounded.Steps w base s w' s') : s'.Tallied m := by
  cases h with
  | stopped h => exact hs.stops h
  | finished hforward _ h => exact hs.processed hforward h
  | back hforward _ h hback => exact (hs.processed hforward h).retreats hback
  | broken hforward h hbooked => exact hs.moved hhonest hforward h hbooked
  | left hforward h hbooked hz _ hback =>
    have hv := hs.moved hhonest hforward h hbooked
    exact (hv.becomes hz hv.steady rfl ⟨rfl, rfl, rfl⟩ rfl).retreats hback
  | entered hforward h hbooked hz hdefers =>
    have hv := hs.moved hhonest hforward h hbooked
    have hw := hv.becomes hz hv.steady rfl ⟨rfl, rfl, rfl⟩ rfl
    cases hdefers with
    | kept => exact hw
    | split _ _ h => exact hw.becomes h (hw.steady.setAgenda _) rfl ⟨rfl, rfl, rfl⟩ rfl

end Tallied

def Frontier.Tallied (m : Model) : Frontier → Search → Prop
  | .walks _, _ => False
  | .depthFirst, s | .bounded _, s => s.Tallied m

theorem Frontier.Tallied.turn {m : Model} {s s' : Search} {f : Frontier} {r : Option Frontier}
    (hs : f.Tallied m s) (hhonest : s.Honest m.program m.symmetry) (h : f.Turns s r s') :
    (∀ f', r = some f' → f'.Tallied m s') ∧ s'.Tallied m := by
  cases h with
  | depthFirst h =>
    have hs' := Search.Tallied.depthFirst hs hhonest h
    refine ⟨fun f' hf' => ?_, hs'⟩
    cases hf'
    exact hs'
  | exhausted h => exact ⟨fun f' hf' => (by cases hf'), Search.Tallied.depthFirst hs hhonest h⟩
  | walks => cases hs
  | takes _ h =>
    have hs' := Search.Tallied.takes hs h
    refine ⟨fun f' hf' => ?_, hs'⟩
    obtain ⟨w', rfl, rfl⟩ := Option.map_eq_some_iff.1 hf'
    exact hs'
  | steps _ h =>
    have hs' := Search.Tallied.steps hs hhonest h
    refine ⟨fun f' hf' => ?_, hs'⟩
    cases hf'
    exact hs'

section Runs

variable {p : Program} {c : Config} {s s' : Search} {fuel : Nat} {report : Report} {f : Frontier}

structure Frontier.Unlimited (m : Model) (s₀ : State) (f : Frontier) (s : Search) : Prop where
  thorough : f.Thorough m s₀ s
  honest : s.Honest m.program m.symmetry
  genuine : f.Genuine m.program m.symmetry
  tallied : f.Tallied m s

structure Ended (m : Model) (s₀ : State) (s : Search) : Prop where
  complete : Complete m s₀ s
  honest : s.Honest m.program m.symmetry
  tallied : s.Tallied m

theorem Frontier.Unlimited.turn {m : Model} (hm : m.Exact) {s₀ : State} {r : Option Frontier}
    (hs : f.Unlimited m s₀ s) (h : f.Turns s r s') :
    (∀ f', r = some f' → f'.Unlimited m s₀ s') ∧ (r = none → s'.Ended m s₀) := by
  obtain ⟨hmore, hlast⟩ := hs.thorough.turn hm h
  obtain ⟨hhonest, hgenuine⟩ := hs.honest.turn hs.genuine h
  obtain ⟨hcounted, htallied⟩ := hs.tallied.turn hs.honest h
  constructor
  · exact fun f' hf' => ⟨hmore f' hf', hhonest, hgenuine f' hf', hcounted f' hf'⟩
  · exact fun hnone => ⟨hlast hnone, hhonest, htallied⟩

variable (hs : s.Fresh p c) (hp : p.Sound) (hplain : p.Unfiltered) (hc : c.Exact)
  (hunlimited : c.Unlimited) (hstrategy : c.strategy ≠ .random)

include hs hp hplain hc hunlimited hstrategy

theorem Fresh.tallied {t : Search} (h : Starts s f t) : f.Tallied s.explorer.model t := by
  obtain ⟨_, hsteady, s₀, g, hinitial, hx⟩ := Explorer.start_initial hp hplain hc hs.start
  obtain ⟨_, _, hstarts⟩ := hs.start.starts
  have hreached : ∀ k, s.explorer.table.Holds k → k ∈ s.explorer.model.fingerprints none := by
    rintro k ⟨id, hid⟩
    rw [hx.only k id hid]
    refine ⟨[], s₀, none, .start ?_, nofun, hx.fingerprint⟩
    rw [hs.start.genuine.program]
    exact hinitial
  have hbooks : s.Becomes s.explorer (.start s.explorer) t → t.Tallied s.explorer.model := by
    intro hbecomes
    refine ⟨hbecomes.config ▸ hs.config ▸ hunlimited, hbecomes.explorer ▸ hsteady, ?_, ?_,
      fun _ => ?_, fun _ => ?_⟩
    · rw [hbecomes.explorer]
      exact hreached
    all_goals rw [hbecomes.session]
    · exact fun e he => (by cases he)
    · rfl
    · rw [hbecomes.explorer, hstarts.size]
      rfl
  cases h with
  | depthFirst _ h => exact hbooks h
  | walks hrandom => exact absurd (hs.config ▸ hrandom) hstrategy
  | bounded _ h => exact hbooks h

theorem Fresh.ends (h : s.perform (run fuel) = (.ok (some report), s')) :
    ∃ (s₀ : State) (t : Search), p.initialState = .ok s₀ ∧ t.Ended s.explorer.model s₀ ∧
      report = .ofSession { t.session with done := true } := by
  obtain ⟨hm, s₀, hinitial, hstart⟩ := hs.thorough hp hplain hc
  have hstarts : ∀ {f t}, Starts s f t → f.Unlimited s.explorer.model s₀ t := by
    intro f t ht
    obtain ⟨hthonest, hfrontier⟩ := hs.honest_model.starts ht
    exact ⟨hstart ht, hthonest, hfrontier, hs.tallied hp hplain hc hunlimited hstrategy ht⟩
  obtain ⟨t, hended, hreport, -⟩ := run_invariant (J := Ended s.explorer.model s₀) hstarts
    (fun hI hturn => hI.turn hm hturn) h
  exact ⟨s₀, t, hinitial, hended, hreport⟩

/-- Without limits a search that is left alone passes exactly when the program is safe. -/
theorem Fresh.isPass_iff (h : s.perform (run fuel) = (.ok (some report), s'))
    (hterminated : report.terminated = false) :
    report.isPass = true ↔ p.Safe c.symmetry := by
  refine ⟨hs.safe hp hplain hc h, fun hsafe => ?_⟩
  have hgenuine := hs.start.genuine
  obtain ⟨s₀, t, _, hended, rfl⟩ := hs.ends hp hplain hc hunlimited hstrategy h
  refine Report.isPass_ofSession.2 ⟨?_, hended.tallied.constraints hterminated, hterminated⟩
  -- an error would be a violation after at least one step
  refine List.eq_nil_iff_forall_not_mem.2 fun e he => ?_
  have hreal := hended.honest.errors e he
  rw [hgenuine.program, hgenuine.symmetry] at hreal
  obtain ⟨r, fault, htrace, _, hviolates⟩ := hreal.trace
  refine hviolates.not_holds (hsafe _ r fault htrace.execution fun hnil => ?_)
  exact hended.tallied.errors e he (List.map_eq_nil_iff.1 hnil)

/-- A search that passes has counted the fingerprints of all reachable states, if no collection is
made. -/
theorem Fresh.states_eq (h : s.perform (run fuel) = (.ok (some report), s'))
    (hpass : report.isPass = true) (hfree : p.CollectionFree) (hm : Model.ofConfig p c = .ok m) :
    (m.fingerprints none).Finite ∧ report.stats.states = some (m.fingerprints none).ncard := by
  obtain ⟨_, hofConfig⟩ := hs.start.ofConfig
  cases hofConfig.symm.trans hm
  have hgenuine := hs.start.genuine
  obtain ⟨s₀, t, hinitial, hended, rfl⟩ := hs.ends hp hplain hc hunlimited hstrategy h
  have hclean := Report.isPass_ofSession.1 hpass
  obtain ⟨V, hV, hsees, hcovers⟩ :=
    hended.complete ⟨hclean.errors, hclean.constraints, hclean.terminated⟩
  rw [← hgenuine.program] at hinitial hp hfree
  -- an execution leads to a state that was met up to the names of its objects, which do not show
  have hall : { f | t.explorer.table.Holds f } = s.explorer.model.fingerprints none := by
    refine Set.Subset.antisymm hended.tallied.reached ?_
    rintro f ⟨choices, r, fault, hexecution, _, hf⟩
    obtain ⟨g, hg, hmet⟩ := (hcovers.execution hinitial hsees hexecution).1.fingerprint
      fun _ _ ho => hexecution.listing_eq_nil hp hfree ho
    obtain rfl := Except.ok.inj (hg.symm.trans hf)
    exact hV g hmet
  obtain ⟨hfinite, hcard⟩ := hended.tallied.steady.table.ncard_holds
  rw [hall] at hfinite hcard
  have hstates := hended.tallied.states hclean.terminated
  rw [← hcard] at hstates
  exact ⟨hfinite, hstates⟩

end Runs

end Search

/-- Depth-first search and bounded preemptions come to the same verdict, and where no collection is
made, to the same number of states. -/
theorem strategies_agree {source path : String} {p : Program}
    (hp : Program.ofSource source path = .ok p) (hplain : p.Unfiltered) {c d : Config}
    (hc : c.Exact) (hd : d.Exact) (hc' : c.Unlimited) (hd' : d.Unlimited)
    (hsymmetry : c.symmetry = d.symmetry) (hdfs : c.strategy = .dfs)
    (hbounded : d.strategy = .contextBounded) {s s' t t' : Search} (hs : s.Fresh p c)
    (ht : t.Fresh p d) {fuel fuel' : Nat} {report report' : Report}
    (h : s.perform (Search.run fuel) = (.ok (some report), s'))
    (h' : t.perform (Search.run fuel') = (.ok (some report'), t'))
    (hterminated : report.terminated = false) (hterminated' : report'.terminated = false) :
    (report.isPass = true ↔ report'.isPass = true) ∧
      (p.CollectionFree → report.isPass = true → report'.isPass = true →
        ∃ m, Model.ofConfig p c = .ok m ∧ Model.ofConfig p d = .ok m ∧
          (m.fingerprints none).Finite ∧
          report.stats.states = some (m.fingerprints none).ncard ∧
          report'.stats.states = some (m.fingerprints none).ncard) := by
  have hsound := ofSource_sound hp
  have hdfs' : c.strategy ≠ .random := by simp [hdfs]
  have hbounded' : d.strategy ≠ .random := by simp [hbounded]
  constructor
  · rw [hs.isPass_iff hsound hplain hc hc' hdfs' h hterminated, hsymmetry]
    exact (ht.isPass_iff hsound hplain hd hd' hbounded' h' hterminated').symm
  · intro hfree hpass hpass'
    obtain ⟨_, hm⟩ := hs.start.ofConfig
    have hm' := (hc.ofConfig_eq hd hsymmetry p).symm.trans hm
    obtain ⟨hfinite, hstates⟩ := hs.states_eq hsound hplain hc hc' hdfs' h hpass hfree hm
    obtain ⟨_, hstates'⟩ := ht.states_eq hsound hplain hd hd' hbounded' h' hpass' hfree hm'
    exact ⟨_, hm, hm', hfinite, hstates, hstates'⟩

def rivals : Program where
  path := "rivals"
  classes := (⟨"Main", .plain, [], [⟨"box", .ref, false, 0⟩]⟩ :: builtinClasses.tail) ++
    [⟨"Node", .plain, [⟨"n", .int, false, 0⟩], []⟩]
  methods := [
    ⟨"a", false, ["x"],
      [⟨.assign (.localVar 0) (.new 5), .onLine 6 3 14⟩,
        ⟨.assign (.field (.localVar 0) "n") (.expr (.int 1)), .onLine 7 3 9⟩,
        ⟨.assign (.staticVar 0 0) (.expr (.localVar 0)), .onLine 8 3 9⟩],
      ["x = new Node", "x.n = 1", "box = x"]⟩,
    ⟨"b", false, ["y"],
      [⟨.assign (.localVar 0) (.new 5), .onLine 11 3 14⟩,
        ⟨.assign (.staticVar 0 0) (.expr (.localVar 0)), .onLine 12 3 9⟩],
      ["y = new Node", "box = y"]⟩]
  threads := [⟨"a", 0⟩, ⟨"b", 1⟩]
  invariants := []

theorem rivals_source : Program.ofSource
    ("static ref box\nclass Node \x7b\n  int n\n\x7d\n" ++
      "thread a \x7b\n  x = new Node\n  x.n = 1\n  box = x\n\x7d\n" ++
      "thread b \x7b\n  y = new Node\n  box = y\n\x7d\n") "rivals" = .ok rivals := by
  decide +kernel

/-- Bounded preemptions take more steps, and both searches count thirteen states. -/
theorem rivals_agree : ∃ (s s' t t' : Search) (report report' : Report) (m : Model),
    s.Fresh rivals Config.default ∧
    t.Fresh rivals { Config.default with strategy := .contextBounded } ∧
    s.perform (Search.run 1000) = (.ok (some report), s') ∧
    t.perform (Search.run 1000) = (.ok (some report'), t') ∧
    report.isPass = true ∧ report'.isPass = true ∧
    report.stats.transitions = some 17 ∧ report'.stats.transitions = some 24 ∧
    Model.ofConfig rivals Config.default = .ok m ∧ (m.fingerprints none).Finite ∧
    (m.fingerprints none).ncard = 13 ∧ report'.stats.states = some 13 := by
  have hdfs : (Check.report? rivals Config.default 1000).map
      (fun report => (report.isPass, report.terminated, report.stats.states,
        report.stats.transitions)) = some (true, false, some 13, some 17) := by
    decide +kernel
  have hbounded : (Check.report? rivals { Config.default with strategy := .contextBounded } 1000).map
      (fun report => (report.isPass, report.terminated, report.stats.transitions)) =
        some (true, false, some 24) := by
    decide +kernel
  obtain ⟨report, hreport, hfound⟩ := Option.map_eq_some_iff.1 hdfs
  obtain ⟨report', hreport', hfound'⟩ := Option.map_eq_some_iff.1 hbounded
  simp only [Prod.mk.injEq] at hfound hfound'
  obtain ⟨hpass, hterminated, hstates, htransitions⟩ := hfound
  obtain ⟨_, hterminated', htransitions'⟩ := hfound'
  obtain ⟨s, s', hs, hperform⟩ := Check.report?_eq_some hreport
  obtain ⟨t, t', ht, hperform'⟩ := Check.report?_eq_some hreport'
  have hunfiltered : rivals.Unfiltered := by
    constructor <;> simp [rivals, builtinClasses]
  have hfree : rivals.CollectionFree := by
    unfold Program.CollectionFree
    decide
  have hexact : Config.Exact { Config.default with strategy := .contextBounded } :=
    ⟨rfl, rfl, rfl, rfl, rfl⟩
  obtain ⟨hverdict, hcount⟩ := strategies_agree rivals_source hunfiltered
    (⟨rfl, rfl, rfl, rfl, rfl⟩ : Config.default.Exact) hexact ⟨rfl, rfl, rfl⟩ ⟨rfl, rfl, rfl⟩ rfl rfl
    rfl hs ht hperform hperform' hterminated hterminated'
  obtain ⟨m, hm, _, hfinite, hall, hall'⟩ := hcount hfree hpass (hverdict.1 hpass)
  have hthirteen : (m.fingerprints none).ncard = 13 := Option.some.inj (hall.symm.trans hstates)
  exact ⟨s, s', t, t', report, report', m, hs, ht, hperform, hperform', hpass, hverdict.1 hpass,
    htransitions, htransitions', hm, hfinite, hthirteen, hthirteen ▸ hall'⟩

end Interleave
