import Interleave.Proofs.Explore.Coverage

set_option autoImplicit false

namespace Interleave

/-- What it costs to run a thread after another one: leaving a thread that could go on is a
preemption. -/
def State.preemption (s : State) (last : Option ThreadId) (t : ThreadId) : Nat :=
  match last with
  | none => 0
  | some u => if u ≠ t ∧ u ∈ s.runnable then 1 else 0

structure Replay where
  state : State
  last : Option ThreadId
  preemptions : Nat

def Replay.step? (p : Program) (mode : Symmetry) (r : Replay) (choice : ThreadId × Option Int64) :
    Option Replay :=
  match p.execute mode r.state choice.1 choice.2 with
  | .error _ => none
  | .ok (s, _) => some ⟨s, some choice.1, r.preemptions + r.state.preemption r.last choice.1⟩

def Program.replay? (p : Program) (mode : Symmetry) (choices : List (ThreadId × Option Int64)) :
    Option Replay :=
  match p.initialState with
  | .error _ => none
  | .ok s => choices.foldlM (Replay.step? p mode) ⟨s, none, 0⟩

def Program.preemptions (p : Program) (mode : Symmetry)
    (choices : List (ThreadId × Option Int64)) : Nat :=
  ((p.replay? mode choices).map (·.preemptions)).getD 0

def lastThread (choices : List (ThreadId × Option Int64)) : Option ThreadId :=
  choices.getLast?.map (·.1)

def Program.Violating (p : Program) (mode : Symmetry) (choices : List (ThreadId × Option Int64)) :
    Prop :=
  choices ≠ [] ∧ ∃ s fault, p.Execution mode choices s fault ∧ ¬ p.Holds s fault

section Executions

variable {p : Program} {mode : Symmetry} {choices : List (ThreadId × Option Int64)} {s s' : State}
  {fault : Option Uncaught} {t last : ThreadId} {data : Option Int64}

theorem State.preemption_le_one (s : State) (last : Option ThreadId) (t : ThreadId) :
    s.preemption last t ≤ 1 := by
  unfold State.preemption
  split
  · omega
  · split <;> omega

@[simp] theorem State.preemption_self (s : State) (t : ThreadId) : s.preemption (some t) t = 0 := by
  simp [State.preemption]

theorem State.preemption_of_not_mem (h : last ∉ s.runnable) (t : ThreadId) :
    s.preemption (some last) t = 0 := by
  simp [State.preemption, h]

theorem State.preemption_eq_one :
    s.preemption (some last) t = 1 ↔ t ≠ last ∧ last ∈ s.runnable := by
  simp [State.preemption, eq_comm]

theorem State.Similar.preemption (h : s.Similar s') (last : Option ThreadId) (t : ThreadId) :
    s.preemption last t = s'.preemption last t := by
  unfold State.preemption
  rw [h.runnable]

theorem lastThread_append : lastThread (choices ++ [(t, data)]) = some t := by
  simp [lastThread]

theorem Program.replay?_append {r : Replay} (h : p.replay? mode choices = some r)
    (choice : ThreadId × Option Int64) :
    p.replay? mode (choices ++ [choice]) = r.step? p mode choice := by
  unfold Program.replay? at h ⊢
  split at h
  · cases h
  · simp only [List.foldlM_append, h, List.foldlM_cons, List.foldlM_nil, Option.bind_eq_bind,
      Option.bind_some, bind_pure]

/-- The same threads can go on in a replay, wherever hash tables list their members. -/
theorem Program.Execution.replay? (h : p.Execution mode choices s fault) :
    ∃ r : State, r.Similar s ∧
      p.replay? mode choices = some ⟨r, lastThread choices, p.preemptions mode choices⟩ := by
  have hreplay : ∃ (r : State) (n : Nat), r.Similar s ∧
      p.replay? mode choices = some ⟨r, lastThread choices, n⟩ := by
    induction h with
    | @start s h =>
      exact ⟨s, 0, (initialState_coherent h).similar, by simp [Program.replay?, h, lastThread]⟩
    | step _ hstep ih =>
      obtain ⟨r, n, hsimilar, hn⟩ := ih
      obtain ⟨_, hexecuted⟩ := hstep.executed
      obtain ⟨r', hr', hsimilar'⟩ := hsimilar.execute hexecuted fun _ _ _ => []
      rw [Program.replay?_append hn, Replay.step?, Layout.plain, hr', lastThread_append]
      exact ⟨r', _, hsimilar', rfl⟩
  obtain ⟨r, n, hsimilar, hn⟩ := hreplay
  have hcount : p.preemptions mode choices = n := by
    rw [Program.preemptions, hn]
    rfl
  exact ⟨r, hsimilar, hcount ▸ hn⟩

@[simp] theorem Program.preemptions_nil : p.preemptions mode [] = 0 := by
  unfold Program.preemptions Program.replay?
  cases p.initialState <;> rfl

theorem Program.Execution.preemptions_append (h : p.Execution mode choices s fault)
    {fault' : Option Uncaught} {arrange : Handle → Arrangement Handle}
    (hexecute : p.execute ⟨mode, arrange⟩ s t data = .ok (s', fault')) :
    p.preemptions mode (choices ++ [(t, data)]) =
      p.preemptions mode choices + s.preemption (lastThread choices) t := by
  obtain ⟨r, hsimilar, hreplay⟩ := h.replay?
  obtain ⟨r', hr', _⟩ := hsimilar.execute hexecute fun _ _ _ => []
  rw [Program.preemptions, Program.replay?_append hreplay, Replay.step?, Layout.plain, hr',
    ← hsimilar.preemption]
  rfl

end Executions

def choicesOf (path : List Transition) : List (ThreadId × Option Int64) :=
  path.map fun tr => (tr.thread, tr.choice)

def costOf (p : Program) (mode : Symmetry) (n : Node) (below : List Node) (t : ThreadId) : Nat :=
  p.preemptions mode (choicesOf (pathOf (n :: below))) +
    n.state.preemption (n.transition.map (·.thread)) t

def Priced (p : Program) (mode : Symmetry) (k : Nat) : Nat → List Node → Prop
  | 0, _ => True
  | _ + 1, [] => True
  | j + 1, n :: below =>
    (∀ a, n.agenda = some a → ∀ t ∈ a.schedule.threads, costOf p mode n below t = k) ∧
      Priced p mode k j below

section Costs

variable {p : Program} {mode : Symmetry} {n : Node} {below : List Node}

theorem Genuine.lastThread_eq (h : Genuine p mode (n :: below)) :
    lastThread (choicesOf (pathOf (n :: below))) = n.transition.map (·.thread) := by
  obtain ⟨_, hlength, hbelow⟩ := h
  rw [pathOf_cons] at hlength ⊢
  cases htransition : n.transition with
  | some tr => simp [choicesOf, lastThread]
  | none =>
    rw [htransition] at hlength
    cases below with
    | nil => rfl
    | cons m rest =>
      have hshort := hbelow.2.1
      simp only [Option.toList_none, List.append_nil, List.length_cons] at hlength
      omega

theorem costOf_setAgenda (agenda : Option Agenda) (t : ThreadId) :
    costOf p mode { n with agenda } below t = costOf p mode n below t := by
  unfold costOf
  rw [pathOf_cons, pathOf_cons]

theorem Explorer.Advances.preemptions {x x' : Explorer} {a a' : Agenda} {move : Move}
    {f : Fingerprint} (h : x.Advances a move a' n f x') (hx : x.Genuine p mode) :
    p.preemptions mode (choicesOf x'.path) =
      costOf p mode x.trail.top x.trail.below move.thread := by
  obtain ⟨r, htrace, hresidue⟩ := hx.trail.top.origin
  have hexecuted := h.executed
  unfold Explorer.layout Model.layout at hexecuted
  rw [hx.program, hx.symmetry] at hexecuted
  obtain ⟨r', hr', _⟩ := hresidue.execute hexecuted
  have hpath : x'.path = x.path ++ [x.model.transition x.state move n.stateId] := by
    have hchain : x'.path = pathOf (n :: { x.trail.top with agenda := some a' } :: x.trail.below) :=
      congrArg Trail.path h.trail
    rw [hchain, pathOf_cons, h.shown, pathOf_cons]
    exact congrArg (· ++ _) (pathOf_cons x.trail.top x.trail.below).symm
  have hlast := hx.trail.lastThread_eq
  obtain ⟨R, hcorr, _⟩ := hresidue.pairing
  have hcost := htrace.execution.preemptions_append hr'
  rw [hpath]
  unfold costOf
  rw [← hlast]
  change p.preemptions mode (choicesOf _) = _
  rw [choicesOf, List.map_append]
  refine hcost.trans ?_
  rw [State.Similar.preemption ⟨R, hcorr⟩]
  rfl

end Costs

/-- A thread whose next step comes at the given cost, after one of the last threads with which the
fingerprint was met. -/
def Due (M : Option ThreadId → Fingerprint → Prop) (k : Nat) (s : State) (f : Fingerprint)
    (t : ThreadId) : Prop :=
  ∃ last, M last f ∧ s.preemption last t = k

/-- What was done under a bound, by fingerprints and last threads. Free steps from what was met in
`M` and preemptions from what was met under a smaller bound are due; other preemptions are for
later. Steps are checked against `M'`. -/
structure Levels (m : Model) (s₀ : State) (bound : Nat)
    (M M' : Option ThreadId → Fingerprint → Prop) (due later : List Node) : Prop where
  sees : m.Sees (M none) s₀
  past : ∃ V : Option ThreadId → Fingerprint → Prop, (∀ {last} f, V last f → M last f) ∧
    (∀ choices s fault, m.program.Execution m.symmetry choices s fault →
      m.program.preemptions m.symmetry choices < bound → m.Sees (V (lastThread choices)) s) ∧
    m.CoversSteps (Due V 1) (fun t => M' (some t)) due
  free : m.CoversSteps (Due M 0) (fun t => M' (some t)) due
  rest : m.CoversSteps (Due M 1) (fun t => M' (some t)) (due ++ later)

section Levels

variable {m : Model} {s₀ s : State} {bound : Nat} {M M' : Option ThreadId → Fingerprint → Prop}
  {due due' later later' : List Node} {n : Node} {choices : List (ThreadId × Option Int64)}
  {fault : Option Uncaught}

theorem Levels.mono (h : Levels m s₀ bound M M' due later)
    (hdue : ∀ k ∈ due, k ∈ due') (hall : ∀ k ∈ due ++ later, k ∈ due' ++ later') :
    Levels m s₀ bound M M' due' later' := by
  obtain ⟨V, hV, hseen, hpast⟩ := h.past
  refine ⟨h.sees, ⟨V, hV, hseen, ?_⟩, ?_, ?_⟩
  · exact hpast.mono (fun _ h => h) fun _ _ _ hpending => hpending.subset hdue
  · exact h.free.mono (fun _ h => h) fun _ _ _ hpending => hpending.subset hdue
  · exact h.rest.mono (fun _ h => h) fun _ _ _ hpending => hpending.subset hall

theorem Levels.drop (h : Levels m s₀ bound M M' (n :: due) later)
    (hidle : ∀ a, n.agenda = some a → ∀ t data, ¬ a.Pending t data) :
    Levels m s₀ bound M M' due later := by
  obtain ⟨V, hV, hseen, hpast⟩ := h.past
  exact ⟨h.sees, ⟨V, hV, hseen, hpast.drop (.inr hidle)⟩, h.free.drop (.inr hidle),
    h.rest.drop (.inr hidle)⟩

/-- A step of an explorer. Nothing is asked for yet of the state that it leads to. -/
theorem Levels.advance {x x' : Explorer} {a a' : Agenda} {move : Move} {f : Fingerprint}
    (h : Levels x.model s₀ bound M M (x.trail.top :: due) later)
    (hstep : x.Advances a move a' n f x') (hrandom : x.random = none)
    (hn : x.model.program.WellFormed n.state) (hholds : x.model.program.Holds n.state n.fault)
    (hM : ∀ {last} g, M last g → M' last g) (hf : M' (some move.thread) f) :
    Levels x.model s₀ bound M M' ({ x.trail.top with agenda := some a' } :: due) later := by
  obtain ⟨V, hV, hseen, hpast⟩ := h.past
  exact ⟨h.sees, ⟨V, hV, hseen, hpast.advance hstep hrandom hn hholds hM hf⟩,
    h.free.advance hstep hrandom hn hholds hM hf, h.rest.advance hstep hrandom hn hholds hM hf⟩

theorem Levels.grow (h : Levels m s₀ bound M M' due later) (hM : ∀ {last} g, M last g → M' last g)
    {N : Option ThreadId → Fingerprint → Prop} (honly : ∀ last g, M' last g → M last g ∨ N last g)
    (hfree : m.CoversSteps (Due N 0) (fun t => M' (some t)) due)
    (hrest : m.CoversSteps (Due N 1) (fun t => M' (some t)) (due ++ later)) :
    Levels m s₀ bound M' M' due later := by
  obtain ⟨V, hV, hseen, hpast⟩ := h.past
  have hdue : ∀ {k : Nat} {s : State} {i : ThreadId} (g : Fingerprint), Due M' k s g i →
      Due M k s g i ∨ Due N k s g i := by
    rintro k s i g ⟨last, hmet, hcost⟩
    rcases honly last g hmet with hold | hnew
    · exact .inl ⟨last, hold, hcost⟩
    · exact .inr ⟨last, hnew, hcost⟩
  exact ⟨h.sees.mono hM, ⟨V, fun g hg => hM g (hV g hg), hseen, hpast⟩,
    (h.free.union hfree).of_subset hdue, (h.rest.union hrest).of_subset hdue⟩

variable (hinitial : m.program.initialState = .ok s₀)

include hinitial

/-- When nothing is due, every execution within the bound was checked step by step. -/
theorem Levels.execution (h : Levels m s₀ bound M M [] later)
    (hexecution : m.program.Execution m.symmetry choices s fault)
    (hbound : m.program.preemptions m.symmetry choices ≤ bound) :
    m.Sees (M (lastThread choices)) s ∧ (choices ≠ [] → m.program.Holds s fault) := by
  obtain ⟨V, _, hseen, hpast⟩ := h.past
  induction hexecution with
  | start hstart =>
    cases hinitial.symm.trans hstart
    exact ⟨h.sees, fun hne => absurd rfl hne⟩
  | @step choices s s' _ fault t data hexecution hstep ih =>
    obtain ⟨_, hexecuted⟩ := hstep.executed
    rw [hexecution.preemptions_append hexecuted] at hbound
    rw [lastThread_append]
    have hone := s.preemption_le_one (lastThread choices) t
    -- a free step is from what was met now, a preemption from what was met before
    rcases Nat.eq_zero_or_pos (s.preemption (lastThread choices) t) with hcost | hcost
    · obtain ⟨w, f, hw, hf, hmet, hsimilar⟩ := (ih (by omega)).1
      rw [hsimilar.preemption] at hcost
      obtain ⟨hsees, hholds⟩ := h.free.step hw hf hsimilar ⟨_, hmet, hcost⟩ hstep
      exact ⟨hsees, fun _ => hholds⟩
    · obtain ⟨w, f, hw, hf, hmet, hsimilar⟩ := hseen _ _ _ hexecution (by omega)
      have hpreempts : w.preemption (lastThread choices) t = 1 := by
        rw [← hsimilar.preemption]
        omega
      obtain ⟨hsees, hholds⟩ := hpast.step hw hf hsimilar ⟨_, hmet, hpreempts⟩ hstep
      exact ⟨hsees, fun _ => hholds⟩

/-- When nothing is due, the bound can be raised: what was left for later is due now. -/
theorem Levels.raise (h : Levels m s₀ bound M M [] later) :
    Levels m s₀ (bound + 1) M M later [] := by
  refine ⟨h.sees, ⟨M, fun _ h => h, ?_, h.rest⟩, ?_, ?_⟩
  · intro choices s fault hexecution hbound
    exact (h.execution hinitial hexecution (Nat.le_of_lt_succ hbound)).1
  · refine h.free.mono (fun _ h => h) fun _ _ _ hpending => hpending.subset fun _ hnil => ?_
    exact absurd hnil List.not_mem_nil
  · rw [List.append_nil]
    exact h.rest

theorem Levels.holds (h : Levels m s₀ bound M M [] [])
    (hexecution : m.program.Execution m.symmetry choices s fault) (hne : choices ≠ []) :
    m.program.Holds s fault := by
  have hraised : ∀ k, Levels m s₀ (bound + k) M M [] [] := by
    intro k
    induction k with
    | zero => exact h
    | succ k ih => exact ih.raise hinitial
  exact ((hraised (m.program.preemptions m.symmetry choices)).execution hinitial hexecution
    (Nat.le_add_left _ _)).2 hne

end Levels

end Interleave
