import Interleave.Proofs.Explore.Genuine
import Interleave.Proofs.Fingerprint.Exact

set_option autoImplicit false

/-! A set of fingerprints is covered by open nodes when every step from a state with one of them was
checked or is still pending in an open node. -/

namespace Interleave

variable {t' r r' s₀ : State}

def State.Similar (s t : State) : Prop := ∃ R : Pairing, s.Corresponds R t

structure Program.Holds (p : Program) (s : State) (fault : Option Uncaught) : Prop where
  fault : fault = none
  alive : ¬ s.Deadlocked
  invariants : s.Finished → ∀ e ∈ p.invariants, p.Satisfies s e

section Similar

variable {p : Program} {s t u : State} {i : ThreadId} {data : Option Int64}
  {fault : Option Uncaught}

theorem State.Similar.trans (h : s.Similar t) (h' : t.Similar u) : s.Similar u := by
  obtain ⟨R, hR⟩ := h
  obtain ⟨S, hS⟩ := h'
  exact ⟨_, hR.comp hS⟩

theorem Program.Coherent.similar (h : p.Coherent s) : s.Similar s := ⟨_, h.self⟩

theorem State.Similar.runnable (h : s.Similar t) : s.runnable = t.runnable := by
  obtain ⟨R, hR⟩ := h
  exact hR.runnable

theorem State.Similar.offers (h : s.Similar t) (hs : p.Offers s i data) : p.Offers t i data := by
  obtain ⟨R, hR⟩ := h
  exact hR.offers hs

theorem State.Similar.holds (h : s.Similar t) (ht : p.Holds t fault) : p.Holds s fault := by
  obtain ⟨R, hR⟩ := h
  refine ⟨ht.fault, fun hdeadlock => ht.alive (hR.deadlocked.1 hdeadlock), fun hfinished e he => ?_⟩
  exact (hR.toSameMemory.satisfies e).2 (ht.invariants (hR.finished.1 hfinished) e he)

theorem State.Similar.execute (h : s.Similar t) {mode : Symmetry}
    {arrange' : Handle → Arrangement Handle}
    (ht : p.execute ⟨mode, arrange'⟩ t i data = .ok (t', fault))
    (arrange : Handle → Arrangement Handle) :
    ∃ s', p.execute ⟨mode, arrange⟩ s i data = .ok (s', fault) ∧ s'.Similar t' := by
  obtain ⟨R, hR⟩ := h
  have hmatch := execute_matches p hR mode (False.elim : False → arrange = arrange') i data
  generalize hs : p.execute ⟨mode, arrange⟩ s i data = y at hmatch
  rw [ht] at hmatch
  cases hmatch with
  | @ok s' _ hgrown =>
    obtain ⟨S, hS, _⟩ := hgrown.pairing
    exact ⟨s', rfl, S, hS⟩

end Similar

/-- States are told apart exactly: nothing is left out of the fingerprints of a sound program. -/
structure Model.Exact (m : Model) : Prop where
  sound : m.program.Sound
  kind : m.policy.kind = .full
  includePc : m.policy.includePc = true
  masks : m.masks.Plain m.program

def Model.Sees (m : Model) (V : Fingerprint → Prop) (s : State) : Prop :=
  ∃ w f, m.program.WellFormed w ∧ m.fingerprint w = .ok f ∧ V f ∧ s.Similar w

def Model.Checked (m : Model) (V : Fingerprint → Prop) (s : State) (t : ThreadId)
    (data : Option Int64) : Prop :=
  ∃ s', m.program.execute m.symmetry s t data = .ok (s', none) ∧ m.program.Holds s' none ∧
    m.Sees V s'

/-- A step that one of the nodes is still to take, from a state that looks like the given one. -/
def Pending (nodes : List Node) (s : State) (t : ThreadId) (data : Option Int64) : Prop :=
  ∃ n ∈ nodes, s.Similar n.state ∧ ∃ a, n.agenda = some a ∧ a.Pending t data

/-- Every step that `W` asks for, by state, fingerprint and thread, is pending or was checked against
the set that `V` has for its thread. -/
def Model.CoversSteps (m : Model) (W : State → Fingerprint → ThreadId → Prop)
    (V : ThreadId → Fingerprint → Prop) (nodes : List Node) : Prop :=
  ∀ s f, m.program.WellFormed s → m.fingerprint s = .ok f → ∀ t, W s f t → t ∈ s.runnable →
    ∀ data, m.program.Offers s t data → m.Checked (V t) s t data ∨ Pending nodes s t data

def Model.Covers (m : Model) (W V : Fingerprint → Prop) (nodes : List Node) : Prop :=
  m.CoversSteps (fun _ f _ => W f) (fun _ => V) nodes

section Checked

variable {m : Model} {V V' : Fingerprint → Prop} {s : State} {t : ThreadId} {data : Option Int64}

theorem Model.Sees.mono (h : m.Sees V s) (hV : ∀ f, V f → V' f) : m.Sees V' s := by
  obtain ⟨w, f, hw, hf, hVf, hsimilar⟩ := h
  exact ⟨w, f, hw, hf, hV f hVf, hsimilar⟩

theorem Model.Checked.mono (h : m.Checked V s t data) (hV : ∀ f, V f → V' f) :
    m.Checked V' s t data := by
  obtain ⟨s', hexecute, hholds, hsees⟩ := h
  exact ⟨s', hexecute, hholds, hsees.mono hV⟩

theorem Model.Checked.step (h : m.Checked V s t data) (hsimilar : r.Similar s)
    {fault : Option Uncaught} (hstep : m.program.Step m.symmetry r t data r' fault) :
    m.Sees V r' ∧ m.program.Holds r' fault := by
  obtain ⟨s', hs', hholds, z, g, hz, hg, hVg, hlooks⟩ := h
  obtain ⟨arrange, hexecuted⟩ := hstep.executed
  obtain ⟨u, hu, hsimilar'⟩ := hsimilar.execute hs' arrange
  cases hu.symm.trans hexecuted
  exact ⟨⟨z, g, hz, hg, hVg, hsimilar'.trans hlooks⟩, hsimilar'.holds hholds⟩

end Checked

section Covers

variable {m : Model} {W W' : State → Fingerprint → ThreadId → Prop}
  {V V' : ThreadId → Fingerprint → Prop} {nodes nodes' : List Node} {n : Node} {s : State}
  {f : Fingerprint} {t : ThreadId} {data : Option Int64} {fault : Option Uncaught}

theorem Model.CoversSteps.mono (h : m.CoversSteps W V nodes) (hV : ∀ {t} f, V t f → V' t f)
    (hnodes : ∀ s t data, Pending nodes s t data → Pending nodes' s t data) :
    m.CoversSteps W V' nodes' := by
  intro s f hs hf t hW ht data hdata
  rcases h s f hs hf t hW ht data hdata with hchecked | hpending
  · exact .inl (hchecked.mono hV)
  · exact .inr (hnodes s t data hpending)

theorem Model.CoversSteps.union (h : m.CoversSteps W V nodes) (h' : m.CoversSteps W' V nodes) :
    m.CoversSteps (fun s f t => W s f t ∨ W' s f t) V nodes := by
  intro s f hs hf t hW
  rcases hW with hW | hW
  · exact h s f hs hf t hW
  · exact h' s f hs hf t hW

theorem Model.CoversSteps.of_subset (h : m.CoversSteps W V nodes)
    (hW : ∀ {s t} f, W' s f t → W s f t) : m.CoversSteps W' V nodes :=
  fun s f hs hf t hmem => h s f hs hf t (hW f hmem)

theorem Pending.subset (h : Pending nodes s t data) (hnodes : ∀ n ∈ nodes, n ∈ nodes') :
    Pending nodes' s t data := by
  obtain ⟨n, hn, hrest⟩ := h
  exact ⟨n, hnodes n hn, hrest⟩

theorem Model.CoversSteps.drop (h : m.CoversSteps W V (n :: nodes))
    (hidle : n.state.isEnd = true ∨ ∀ a, n.agenda = some a → ∀ t data, ¬ a.Pending t data) :
    m.CoversSteps W V nodes := by
  intro s f hs hf t hW ht data hdata
  rcases h s f hs hf t hW ht data hdata with hchecked | ⟨k, hk, hsimilar, a, ha, hpending⟩
  · exact .inl hchecked
  · rcases List.mem_cons.1 hk with rfl | hk
    · rcases hidle with hend | hnone
      · rw [hsimilar.runnable, List.isEmpty_iff.1 hend] at ht
        cases ht
      · exact absurd hpending (hnone a ha t data)
    · exact .inr ⟨k, hk, hsimilar, a, ha, hpending⟩

/-- The steps from a fingerprint are pending where nodes with a state of that fingerprint are still
to schedule the threads that take them. -/
theorem Model.Exact.covers_node (hm : m.Exact) (hn : m.program.WellFormed n.state)
    (hf : m.fingerprint n.state = .ok f) {W : State → ThreadId → Prop}
    (hnodes : ∀ s t, s.Similar n.state → W s t → t ∈ n.state.runnable →
      ∃ k ∈ nodes, k.state = n.state ∧ ∃ a, k.agenda = some a ∧ a.schedule.Upcoming t) :
    m.CoversSteps (fun s g t => g = f ∧ W s t) V nodes := by
  rintro s g hs hg t ⟨rfl, hW⟩ ht data _
  obtain ⟨R, hR⟩ := fingerprint_corresponds hm.masks hm.kind hm.includePc hs hn hg hf
  obtain ⟨k, hk, hstate, a, ha, hupcoming⟩ := hnodes s t ⟨R, hR⟩ hW (hR.runnable ▸ ht)
  exact .inr ⟨k, hk, hstate ▸ ⟨R, hR⟩, a, ha, .inr hupcoming⟩

theorem Agenda.upcoming_ofState (ht : t ∈ s.runnable) :
    ∃ a, Agenda.ofState s = some a ∧ a.schedule.Upcoming t := by
  have hend : ¬ s.isEnd = true := by
    intro hend
    rw [List.isEmpty_iff.1 hend] at ht
    cases ht
  refine ⟨⟨.thread (.ofList "schedule" s.runnable), none⟩, ?_, ?_⟩
  · rw [Agenda.ofState, if_neg hend]
  · exact ⟨_, rfl, Listed.upcoming_ofList.2 ht⟩

theorem Model.Exact.covers_new (hm : m.Exact) (hn : m.program.WellFormed n.state)
    (hf : m.fingerprint n.state = .ok f) (hagenda : n.agenda = Agenda.ofState n.state) :
    m.CoversSteps (fun _ g _ => g = f) V (n :: nodes) := by
  have hall : m.CoversSteps (fun _ g _ => g = f ∧ True) V (n :: nodes) := by
    refine hm.covers_node hn hf fun s t _ _ ht => ?_
    obtain ⟨a, ha, hupcoming⟩ := Agenda.upcoming_ofState ht
    exact ⟨n, List.mem_cons_self, rfl, a, hagenda.trans ha, hupcoming⟩
  exact hall.of_subset fun g hg => ⟨hg, trivial⟩

theorem Model.CoversSteps.advance {x x' : Explorer} {a a' : Agenda} {move : Move}
    (h : x.model.CoversSteps W V (x.trail.top :: nodes)) (hstep : x.Advances a move a' n f x')
    (hrandom : x.random = none) (hn : x.model.program.WellFormed n.state)
    (hholds : x.model.program.Holds n.state n.fault) (hV : ∀ {t} f, V t f → V' t f)
    (hf : V' move.thread f) :
    x.model.CoversSteps W V' ({ x.trail.top with agenda := some a' } :: nodes) := by
  intro s g hs hg t hW ht data hdata
  rcases h s g hs hg t hW ht data hdata with hchecked | ⟨k, hk, hsimilar, b, hb, hpending⟩
  · exact .inl (hchecked.mono hV)
  rcases List.mem_cons.1 hk with rfl | hk
  · cases hstep.agenda.symm.trans hb
    have htakes := hstep.takes
    rw [hrandom] at htakes
    rcases htakes.pending (hsimilar.offers hdata) hpending with ⟨rfl, rfl⟩ | hlater
    · have hexecuted := hstep.executed
      rw [hholds.fault] at hexecuted hholds
      obtain ⟨s', hs', hsimilar'⟩ := hsimilar.execute hexecuted fun _ _ _ => []
      exact .inl ⟨s', hs', hsimilar'.holds hholds, n.state, f, hn, hstep.fingerprint, hf, hsimilar'⟩
    · exact .inr ⟨_, List.mem_cons_self, hsimilar, a', rfl, hlater⟩
  · exact .inr ⟨k, List.mem_cons_of_mem _ hk, hsimilar, b, hb, hpending⟩

theorem Model.CoversSteps.map (h : m.CoversSteps W V (nodes ++ nodes')) {g : Node → Node}
    (hg : ∀ n ∈ nodes, n.state.Similar (g n).state ∧ (g n).agenda = n.agenda) :
    m.CoversSteps W V (nodes.map g ++ nodes') := by
  refine h.mono (fun _ hV => hV) ?_
  rintro s t data ⟨k, hk, hsimilar, a, ha, hpending⟩
  rcases List.mem_append.1 hk with hk | hk
  · obtain ⟨hstate, hagenda⟩ := hg k hk
    exact ⟨g k, List.mem_append_left _ (List.mem_map_of_mem hk), hsimilar.trans hstate, a,
      hagenda.trans ha, hpending⟩
  · exact ⟨k, List.mem_append_right _ hk, hsimilar, a, ha, hpending⟩

theorem Model.CoversSteps.step (h : m.CoversSteps W V []) (hs : m.program.WellFormed s)
    (hf : m.fingerprint s = .ok f) (hsimilar : r.Similar s) (hW : W s f t)
    (hstep : m.program.Step m.symmetry r t data r' fault) :
    m.Sees (V t) r' ∧ m.program.Holds r' fault := by
  have hrunnable : t ∈ s.runnable := hsimilar.runnable ▸ hstep.runnable
  rcases h s f hs hf t hW hrunnable data (hsimilar.offers hstep.offered) with hchecked | hpending
  · exact hchecked.step hsimilar hstep
  · obtain ⟨_, hnil, _⟩ := hpending
    cases hnil

theorem Model.Covers.execution {V : Fingerprint → Prop} (h : m.Covers V V [])
    (hinitial : m.program.initialState = .ok s₀) (hsees : m.Sees V s₀)
    {choices : List (ThreadId × Option Int64)}
    (hs : m.program.Execution m.symmetry choices s fault) :
    m.Sees V s ∧ (choices ≠ [] → m.program.Holds s fault) := by
  induction hs with
  | start hstart =>
    cases hinitial.symm.trans hstart
    exact ⟨hsees, fun hne => absurd rfl hne⟩
  | step _ hstep ih =>
    obtain ⟨w, f, hw, hf, hV, hsimilar⟩ := ih.1
    obtain ⟨hsees', hholds⟩ := h.step hw hf hsimilar hV hstep
    exact ⟨hsees', fun _ => hholds⟩

end Covers

end Interleave
