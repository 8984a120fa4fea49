import Interleave.Proofs.Explore.Coverage
import Interleave.Proofs.Fingerprint.Table
import Interleave.Proofs.Search.Counterexample

set_option autoImplicit false

namespace Interleave

def Trail.chain (t : Trail) : List Node := t.top :: t.below

def StateTable.Holds (table : StateTable) (f : Fingerprint) : Prop :=
  ∃ id, table.number? f = some id

structure Explorer.Steady (m : Model) (x : Explorer) : Prop where
  model : x.model = m
  table : x.table.Distinct
  unshuffled : x.random = none

section Explorers

variable {m : Model} {x x' y : Explorer} {V V' : Fingerprint → Prop} {nodes : List Node}
  {held : List Trail} {p : Program} {mode : Symmetry} {a a' : Agenda} {move : Move} {n : Node}
  {f : Fingerprint}

theorem Explorer.Genuine.coherent (h : x.Genuine p mode) :
    ∀ n ∈ x.trail.chain, p.Coherent n.state := by
  have hall : ∀ l : List Node, Interleave.Genuine p mode l → ∀ n ∈ l, p.Coherent n.state := by
    intro l hl
    induction l with
    | nil => simp
    | cons k rest ih =>
      rintro n (_ | ⟨_, hn⟩)
      · obtain ⟨r, _, hresidue⟩ := hl.1.origin
        obtain ⟨R, hcorr, _⟩ := hresidue.pairing
        exact hcorr.swap.coherent hl.1.settled
      · exact ih hl.2.2 n hn
  exact hall _ h.trail

theorem Search.Tidied.chain (h : Search.Tidied x held y) (hx : x.Genuine p mode) :
    ∃ g : Node → Node, y.trail.chain = x.trail.chain.map g ∧
      ∀ n ∈ x.trail.chain, n.state.Similar (g n).state ∧ (g n).agenda = n.agenda := by
  have hcoherent := hx.coherent
  rcases h with rfl | rfl
  · exact ⟨id, (List.map_id _).symm, fun n hn => ⟨(hcoherent n hn).similar, rfl⟩⟩
  · refine ⟨Node.tidy held, ?_, fun n hn => ?_⟩
    · change ((x.trail.collect held).2).chain = _
      rw [Trail.collect_eq]
      rfl
    · unfold Node.tidy
      split
      · exact ⟨(hcoherent n hn).similar, rfl⟩
      · exact ⟨⟨_, (hcoherent n hn).collect.1⟩, rfl⟩

theorem Search.Tidied.steady (h : Search.Tidied x held y) (hx : x.Steady m) : y.Steady m := by
  rcases h with rfl | rfl
  · exact hx
  · exact ⟨hx.model, hx.table, hx.unshuffled⟩

theorem Search.Tidied.table (h : Search.Tidied x held y) : y.table = x.table := by
  rcases h with rfl | rfl
  · rfl
  · rfl

theorem Explorer.below_of_backtrack?_none (h : x.backtrack? = none) : x.trail.below = [] := by
  have hback := Option.map_eq_none_iff.1 h
  unfold Trail.back? at hback
  split at hback
  · next hnil => exact hnil
  · cases hback

theorem Explorer.chain_of_backtrack? (h : x.backtrack? = some x') :
    x'.trail.chain = x.trail.below ∧ x'.table = x.table := by
  obtain ⟨trail, htrail, rfl⟩ := Option.map_eq_some_iff.1 h
  unfold Trail.back? at htrail
  split at htrail
  · cases htrail
  · next hbelow =>
    cases htrail
    exact ⟨hbelow.symm, rfl⟩

theorem Explorer.depth_of_backtrack? (h : x.backtrack? = some x') : x'.depth + 1 = x.depth :=
  congrArg List.length (Explorer.chain_of_backtrack? h).1

theorem Explorer.depth_of_forward (h : x.forward = (.ok true, x')) : x'.depth = x.depth + 1 := by
  obtain ⟨a, move, a', n, f, hstep⟩ := Explorer.forward_true h
  rw [Explorer.depth, hstep.trail]
  rfl

theorem Explorer.Steady.setAgenda (hx : x.Steady m) (agenda : Option Agenda) :
    (x.setAgenda agenda).Steady m := ⟨hx.model, hx.table, hx.unshuffled⟩

theorem Explorer.Steady.restore (hx : x.Steady m) (trail : Trail) :
    (x.restore trail).Steady m := ⟨hx.model, hx.table, hx.unshuffled⟩

theorem Explorer.Steady.backtrack? (hx : x.Steady m) (h : x.backtrack? = some x') :
    x'.Steady m := by
  obtain ⟨trail, _, rfl⟩ := Option.map_eq_some_iff.1 h
  exact ⟨hx.model, hx.table, hx.unshuffled⟩

theorem Explorer.Steady.advances (hx : x.Steady m) (h : x.Advances a move a' n f x') : x'.Steady m := by
  have htakes := h.takes
  rw [hx.unshuffled] at htakes
  exact ⟨h.model.trans hx.model, (hx.table.add h.added).1, htakes.unshuffled⟩

theorem Explorer.Advances.path_ne_nil (h : x.Advances a move a' n f x') (hx' : x'.Genuine p mode) :
    x'.path ≠ [] := by
  have hdepth : x'.path.length = x.depth + 1 := by
    refine hx'.trail.length_path.trans ?_
    rw [h.trail]
    rfl
  intro hnil
  rw [hnil] at hdepth
  cases hdepth

section

variable (h : Search.Tidied x held y)

include h

theorem Search.Tidied.stateId : y.stateId = x.stateId := by
  rcases h with rfl | rfl
  · rfl
  · change ((x.trail.collect held).2).top.stateId = x.trail.top.stateId
    rw [Trail.collect_eq]
    unfold Node.tidy
    dsimp only
    split <;> rfl

theorem Search.Tidied.currentThread : y.currentThread = x.currentThread := by
  rcases h with rfl | rfl
  · rfl
  · change ((x.trail.collect held).2).top.transition.map (·.thread) = _
    rw [Trail.collect_eq, Node.tidy_transition]
    rfl

theorem Search.Tidied.depth : y.depth = x.depth := by
  rcases h with rfl | rfl
  · rfl
  · change ((x.trail.collect held).2).depth = x.trail.depth
    rw [Trail.collect_eq]
    exact List.length_map _

theorem Search.Tidied.isEnd (hx : x.Genuine p mode) : y.isEnd = x.isEnd := by
  obtain ⟨g, hchain, hg⟩ := h.chain hx
  have htop := (List.cons.inj hchain).1
  have hsimilar := (hg x.trail.top List.mem_cons_self).1
  unfold Explorer.isEnd Explorer.state State.isEnd
  rw [htop, hsimilar.runnable]

end

/-- A step of an explorer: the fingerprint of the new state joins the set. The new node is open, but
need not be where the fingerprint was in the set before. -/
theorem Model.Exact.covers_step (hm : m.Exact) (hx : x.Steady m)
    (hgenuine : x.Genuine m.program m.symmetry) (hstep : x.Advances a move a' n f x')
    (hholds : m.program.Holds n.state n.fault) (hcovers : m.Covers V V (x.trail.top :: nodes))
    (hV : ∀ g, V g → V' g) (hf : V' f) (honly : ∀ g, V' g → V g ∨ g = f) :
    m.Covers V' V' (n :: { x.trail.top with agenda := some a' } :: nodes) ∧
      (V f → m.Covers V' V' ({ x.trail.top with agenda := some a' } :: nodes)) := by
  have hwellFormed := (hstep.reached hgenuine).wellFormed hm.sound
  have hfingerprint := hstep.fingerprint
  obtain rfl := hx.model
  have hold := hcovers.advance hstep hx.unshuffled hwellFormed hholds hV hf
  refine ⟨?_, fun hmem => hold.of_subset fun g hg => ?_⟩
  · have hmore : x.model.Covers V V' (n :: { x.trail.top with agenda := some a' } :: nodes) :=
      hold.mono (fun _ hg => hg) fun s t data hpending =>
        hpending.subset fun k hk => List.mem_cons_of_mem n hk
    exact (hmore.union (hm.covers_new hwellFormed hfingerprint hstep.fresh)).of_subset honly
  · rcases honly g hg with hbefore | rfl
    · exact hbefore
    · exact hmem

end Explorers

theorem Program.Violates.not_holds {p : Program} {r : State} {fault : Option Uncaught}
    {property message : String} (h : p.Violates r fault property message) :
    ¬ p.Holds r fault := by
  intro hholds
  cases h with
  | fault h => cases hholds.fault.symm.trans h
  | deadlock h => exact hholds.alive h
  | invariant hfinished hsplit _ hfails =>
    exact hfails (hholds.invariants hfinished _ (by simp [hsplit]))

structure Session.Quiet (b : Session) : Prop where
  errors : b.errors = []
  terminated : b.terminated = false

namespace Search

def Guarded (s : Search) : Prop := s.session.done = true → ¬ s.session.Clean

structure Explored (m : Model) (s₀ : State) (V : Fingerprint → Prop) (nodes : List Node) :
    Prop where
  sees : m.Sees V s₀
  covers : m.Covers V V nodes

/-- A search that ends with clean books has left nothing open, and its table holds all it saw. -/
def Complete (m : Model) (s₀ : State) (s : Search) : Prop :=
  s.session.Clean → ∃ V : Fingerprint → Prop,
    (∀ f, V f → s.explorer.table.Holds f) ∧ Explored m s₀ V []

structure SameFindings (b c : Session) : Prop where
  errors : b.errors = c.errors
  constraints : b.constraints = c.constraints
  terminated : b.terminated = c.terminated

section Books

variable {s s' t : Search} {b : Session} {x : Explorer} {held : List Trail}

theorem Retreats.moves {moved : Bool} (h : s.Retreats moved s') {base : Nat}
    (hdepth : base < s.explorer.depth) : ∃ tally, s.explorer.backtrack? = some s'.explorer ∧
      s.Becomes s'.explorer { s.session with
        depth := s'.explorer.depth, isNew := false, stats := s.session.stats.retally tally } s' := by
  rcases h with ⟨_, hbottom, _⟩ | ⟨_, hmoved⟩
  · unfold Explorer.depth Trail.depth at hdepth
    rw [Explorer.below_of_backtrack?_none hbottom] at hdepth
    cases hdepth
  · exact hmoved

theorem Becomes.clean (h : s.Becomes x b s') (hb : SameFindings b s.session)
    (hclean : s'.session.Clean) : s.session.Clean := by
  rw [h.session] at hclean
  exact ⟨hb.errors ▸ hclean.errors, hb.constraints ▸ hclean.constraints,
    hb.terminated ▸ hclean.terminated⟩

theorem Becomes.quiet (h : s.Becomes x b s') (hb : SameFindings b s.session)
    (hquiet : s'.session.Quiet) : s.session.Quiet := by
  rw [h.session] at hquiet
  exact ⟨hb.errors ▸ hquiet.errors, hb.terminated ▸ hquiet.terminated⟩

theorem Guarded.becomes (hs : s.Guarded) (h : s.Becomes x b s') (hb : SameFindings b s.session)
    (hdone : b.done = s.session.done) : s'.Guarded := by
  intro hdone' hclean
  rw [h.session] at hdone'
  exact hs (hdone.symm.trans hdone') (h.clean hb hclean)

theorem Guarded.stops (hs : s.Guarded) (h : s.Stops s') : ¬ s'.session.Clean := by
  obtain ⟨b, hbecomes, _, hrunning, _⟩ := h
  intro hs'
  rw [hbecomes.session] at hs'
  obtain ⟨rfl, hdone⟩ := hrunning hs'.terminated
  exact hs hdone hs'

section

variable (h : s.Booked held s')

include h

theorem Guarded.booked (hs : s.Guarded) : s'.Guarded := by
  intro hdone hclean
  obtain ⟨hbefore, hsame, _⟩ := h.clean hclean
  exact hs (hsame.symm.trans hdone) hbefore

omit h in
theorem holds_of_finds (hall : ∀ p ∈ Property.defaults, ∃ b, p.finds b x = .ok none) :
    x.model.program.Holds x.state x.fault := by
  obtain ⟨_, hfault⟩ := hall Property.noUncaughtFault (by simp [Property.defaults])
  obtain ⟨_, hdeadlock⟩ := hall Property.notDeadlocked (by simp [Property.defaults])
  obtain ⟨_, hend⟩ := hall Property.endInvariant (by simp [Property.defaults])
  rw [Property.noUncaughtFault_finds] at hfault
  rw [Property.notDeadlocked_finds] at hdeadlock
  rw [Property.endInvariant_finds] at hend
  refine ⟨Option.map_eq_none_iff.1 (Except.ok.inj hfault), ?_, ?_⟩
  · intro hdeadlocked
    have hstuck : x.isDeadlocked = true := State.isDeadlocked_iff.2 hdeadlocked
    have hnone := Except.ok.inj hdeadlock
    rw [if_pos hstuck] at hnone
    cases hnone
  · intro hfinished
    obtain ⟨hisEnd, halive⟩ := State.finished_iff.1 hfinished
    rw [if_pos (by rw [Explorer.isEnd, Explorer.isDeadlocked, hisEnd, halive]; rfl)] at hend
    cases hplace : x.violated with
    | error e =>
      rw [hplace] at hend
      cases hend
    | ok place =>
      rw [hplace] at hend
      rw [Option.map_eq_none_iff.1 (Except.ok.inj hend)] at hplace
      exact Program.violated_eq_none.1 (mapError_eq_ok.1 hplace)

theorem Booked.holds (hproperties : s.properties = Property.defaults) (hclean : s'.session.Clean) :
    s.explorer.model.program.Holds s.explorer.state s.explorer.fault := by
  obtain ⟨_, _, _, hall, _⟩ := h.clean hclean
  rw [hproperties] at hall
  exact holds_of_finds hall

theorem Booked.before (hquiet : s'.session.Quiet) :
    s.session.Quiet ∧ s'.session.errors = s.session.errors := by
  obtain ⟨es, herrors, _⟩ := h.errors
  obtain ⟨errors, constraints, done, ignored, hsession⟩ := h.session
  have hterminated := hquiet.terminated
  rw [hsession] at hterminated
  obtain ⟨hnone, hes⟩ := List.append_eq_nil_iff.1 (herrors.symm.trans hquiet.errors)
  exact ⟨⟨hnone, hterminated⟩, by rw [herrors, hes, List.append_nil]⟩

theorem Booked.holds_of_quiet (hproperties : s.properties = Property.defaults)
    (herrors : s'.session.errors = s.session.errors) (hbudget : s.config.memoryBudget = none) :
    s.explorer.model.program.Holds s.explorer.state s.explorer.fault := by
  obtain ⟨_, _, hchecks⟩ := h.quiet herrors hbudget
  rw [hproperties] at hchecks
  exact holds_of_finds hchecks

theorem Booked.isEnd_of_limit {p : Program} {mode : Symmetry} (hx : s.explorer.Genuine p mode)
    (hclean : s'.session.Clean) (hlimit : s'.depthLimitReached = true) :
    s'.explorer.isEnd = true := by
  obtain ⟨_, _, _, _, hcut⟩ := h.clean hclean
  unfold depthLimitReached at hlimit
  rw [h.config, h.depth] at hlimit
  exact (h.explorer.isEnd hx).trans (hcut hlimit)

end

/-- A step with clean books. The open nodes are the newest `k + 1` of the trail and some others; now
the new node is open too, but need not be where its fingerprint was known. -/
theorem Booked.covers {m : Model} (hm : m.Exact) (hs : s.Honest m.program m.symmetry)
    (hsteady : s.explorer.Steady m) {a a' : Agenda} {move : Move} {n : Node} {f : Fingerprint}
    (hstep : s.explorer.Advances a move a' n f t.explorer) (ht : t.Honest m.program m.symmetry)
    (h : t.Booked held s') (hclean : s'.session.Clean) {V V' : Fingerprint → Prop} {k : Nat}
    {more : List Node} (hcovers : m.Covers V V (s.explorer.trail.chain.take (k + 1) ++ more))
    (hV : ∀ g, V g → V' g) (hf : V' f) (honly : ∀ g, V' g → V g ∨ g = f) :
    m.Covers V' V' (s'.explorer.trail.chain.take (k + 2) ++ more) ∧
      (V f → m.Covers V' V' ((s'.explorer.trail.chain.take (k + 2)).tail ++ more)) := by
  have htrail := hstep.trail
  have hholds := h.holds ht.properties hclean
  unfold Explorer.state Explorer.fault at hholds
  rw [(hsteady.advances hstep).model, htrail] at hholds
  obtain ⟨hopen, hclosed⟩ :=
    hm.covers_step hsteady hs.explorer hstep hholds hcovers hV hf honly
  obtain ⟨g, hchain, hg⟩ := h.explorer.chain ht.explorer
  have htake : t.explorer.trail.chain.take (k + 2) =
      n :: { s.explorer.trail.top with agenda := some a' } :: s.explorer.trail.below.take k := by
    rw [htrail]
    rfl
  rw [hchain, ← List.map_take, ← List.map_tail]
  refine ⟨Model.CoversSteps.map ?_ fun k hk => hg k (List.mem_of_mem_take hk), fun hmem =>
    Model.CoversSteps.map ?_ fun k hk => hg k (List.mem_of_mem_take (List.mem_of_mem_tail hk))⟩
  · rw [htake]
    exact hopen
  · rw [htake]
    exact hclosed hmem

end Books

end Search

end Interleave
