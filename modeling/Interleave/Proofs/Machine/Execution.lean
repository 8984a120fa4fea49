import Interleave.Proofs.Machine.Preservation

set_option autoImplicit false

namespace Interleave

/-- A step of a runnable thread, with data that its next statement offers. Hash tables may list their
members in any order. -/
structure Program.Step (p : Program) (mode : Symmetry) (s : State) (t : ThreadId)
    (data : Option Int64) (s' : State) (fault : Option Uncaught) : Prop where
  runnable : t ∈ s.runnable
  offered : p.Offers s t data
  executed : ∃ arrange, p.execute ⟨mode, arrange⟩ s t data = .ok (s', fault)

/-- The state that a list of threads and data leads to, with the fault of the last step. -/
inductive Program.Execution (p : Program) (mode : Symmetry) :
    List (ThreadId × Option Int64) → State → Option Uncaught → Prop where
  | start {s : State} (h : p.initialState = .ok s) : Execution p mode [] s none
  | step {choices : List (ThreadId × Option Int64)} {s s' : State} {last fault : Option Uncaught}
      {t : ThreadId} {data : Option Int64} (h : Execution p mode choices s last)
      (hstep : p.Step mode s t data s' fault) :
      Execution p mode (choices ++ [(t, data)]) s' fault

section Executions

variable {p : Program} {mode : Symmetry} {choices : List (ThreadId × Option Int64)} {s : State}
  {fault : Option Uncaught}

theorem Program.Step.wellFormed {s' : State} {t : ThreadId} {data : Option Int64}
    (h : p.Step mode s t data s' fault) (hp : p.Sound) (hs : p.WellFormed s) : p.WellFormed s' := by
  obtain ⟨arrange, hexecuted⟩ := h.executed
  obtain ⟨r, _, hexec, hwf⟩ := execute_wellFormed hp hs ⟨mode, arrange⟩ h.runnable h.offered
  cases hexecuted.symm.trans hexec
  exact hwf

theorem Program.Execution.wellFormed (hp : p.Sound) (h : p.Execution mode choices s fault) :
    p.WellFormed s := by
  induction h with
  | start h =>
    obtain ⟨s', hs', hwf⟩ := initialState_wellFormed hp
    cases h.symm.trans hs'
    exact hwf
  | step _ hstep ih => exact hstep.wellFormed hp ih

end Executions

def State.Deadlocked (s : State) : Prop :=
  (∃ t ∈ s.threads, t.status ≠ .terminated) ∧ ∀ t ∈ s.threads, t.status ≠ .runnable

def State.Finished (s : State) : Prop := ∀ t ∈ s.threads, t.status = .terminated

def Program.Satisfies (p : Program) (s : State) (invariant : Located Expr) : Prop :=
  ∃ v, p.eval s [] invariant.value = .ok v ∧ v.isTrue = true

section Checked

variable {p : Program} {s : State} {invariants : List (Located Expr)}

theorem State.isEnd_iff : s.isEnd = true ↔ ∀ t ∈ s.threads, t.status ≠ .runnable := by
  unfold State.isEnd
  rw [List.isEmpty_iff, List.eq_nil_iff_forall_not_mem]
  constructor
  · intro hnone t ht hrunnable
    obtain ⟨i, hi⟩ := List.mem_iff_getElem?.1 ht
    exact hnone i (mem_runnable.2 ⟨t, hi, hrunnable⟩)
  · intro hnone i hi
    obtain ⟨t, ht, hrunnable⟩ := mem_runnable.1 hi
    exact hnone t (List.mem_of_getElem? ht) hrunnable

theorem State.isDeadlocked_iff : s.isDeadlocked = true ↔ s.Deadlocked := by
  unfold State.isDeadlocked State.Deadlocked
  rw [Bool.and_eq_true, State.isEnd_iff, List.any_eq_true, and_comm]
  simp only [Thread.isAlive, decide_eq_true_eq]

theorem State.finished_iff : s.Finished ↔ s.isEnd = true ∧ s.isDeadlocked = false := by
  rw [← Bool.not_eq_true, State.isDeadlocked_iff, State.isEnd_iff]
  constructor
  · intro hfinished
    refine ⟨fun t ht hrunnable => ?_, ?_⟩
    · cases hrunnable.symm.trans (hfinished t ht)
    · rintro ⟨⟨t, ht, halive⟩, _⟩
      exact halive (hfinished t ht)
  · rintro ⟨hend, hnot⟩ t ht
    by_contra halive
    exact hnot ⟨⟨t, ht, halive⟩, hend⟩

theorem Program.firstViolated_eq_none :
    p.firstViolated s invariants = .ok none ↔ ∀ e ∈ invariants, p.Satisfies s e := by
  induction invariants with
  | nil => simp [Program.firstViolated]
  | cons e rest ih =>
    unfold Program.firstViolated
    rw [List.forall_mem_cons, ← ih]
    unfold Program.Satisfies
    cases p.eval s [] e.value with
    | ok v => by_cases hv : v.isTrue = true <;> simp [hv]
    | error stop => cases stop <;> simp

theorem Program.of_firstViolated_eq_some {span : Span}
    (h : p.firstViolated s invariants = .ok (some span)) :
    ∃ before e after, invariants = before ++ e :: after ∧ (∀ k ∈ before, p.Satisfies s k) ∧
      ¬ p.Satisfies s e ∧ e.span = span := by
  induction invariants with
  | nil => cases h
  | cons e rest ih =>
    unfold Program.firstViolated at h
    cases heval : p.eval s [] e.value with
    | ok v =>
      simp only [heval] at h
      by_cases hv : v.isTrue = true
      · rw [if_pos hv] at h
        obtain ⟨before, k, after, rfl, hbefore, hk⟩ := ih h
        exact ⟨e :: before, k, after, rfl, List.forall_mem_cons.2 ⟨⟨v, heval, hv⟩, hbefore⟩, hk⟩
      · rw [if_neg hv] at h
        refine ⟨[], e, rest, rfl, by simp, ?_, Option.some.inj (Except.ok.inj h)⟩
        rintro ⟨w, hw, htrue⟩
        cases heval.symm.trans hw
        exact hv htrue
    | error stop =>
      have hfails : ¬ p.Satisfies s e := by
        rintro ⟨w, hw, _⟩
        cases heval.symm.trans hw
      cases stop with
      | fault f =>
        simp only [heval] at h
        exact ⟨[], e, rest, rfl, by simp, hfails, Option.some.inj (Except.ok.inj h)⟩
      | defect d =>
        simp only [heval] at h
        cases h

theorem Program.violated_eq_none :
    p.violated s = .ok none ↔ ∀ e ∈ p.invariants, p.Satisfies s e := by
  rw [← Program.firstViolated_eq_none]
  unfold Program.violated
  constructor
  · intro h
    obtain ⟨span, hspan, h⟩ := bind_eq_ok.1 h
    rw [hspan, Option.map_eq_none_iff.1 (Except.ok.inj h)]
  · intro h
    exact bind_eq_ok.2 ⟨none, h, rfl⟩

theorem Program.of_violated_eq_some {place : String} (h : p.violated s = .ok (some place)) :
    ∃ before e after, p.invariants = before ++ e :: after ∧ (∀ k ∈ before, p.Satisfies s k) ∧
      ¬ p.Satisfies s e ∧ place = p.path ++ ":" ++ toString e.span.startLine := by
  unfold Program.violated at h
  obtain ⟨found, hfound, h⟩ := bind_eq_ok.1 h
  obtain ⟨span, rfl, rfl⟩ := Option.map_eq_some_iff.1 (Except.ok.inj h)
  obtain ⟨before, e, after, hsplit, hbefore, hfails, rfl⟩ := of_firstViolated_eq_some hfound
  exact ⟨before, e, after, hsplit, hbefore, hfails, rfl⟩

end Checked

section Isomorphic

variable {p : Program} {s t : State} {R : Pairing}

theorem State.Corresponds.offers (h : s.Corresponds R t) {i : ThreadId} {data : Option Int64}
    (hs : p.Offers s i data) : p.Offers t i data := by
  obtain ⟨f, stmt, hf, hstmt, hoffer⟩ := hs
  have htop := h.topFrame? i
  rw [hf] at htop
  generalize hg : t.topFrame? i = x at htop
  cases htop with
  | some hfg =>
    rw [hfg.method, hfg.pc] at hstmt
    exact ⟨_, stmt, hg, hstmt, hoffer⟩

theorem State.Corresponds.deadlocked (h : s.Corresponds R t) : s.Deadlocked ↔ t.Deadlocked := by
  rw [← State.isDeadlocked_iff, ← State.isDeadlocked_iff, h.isDeadlocked]

theorem State.Corresponds.finished (h : s.Corresponds R t) : s.Finished ↔ t.Finished := by
  rw [State.finished_iff, State.finished_iff, h.isEnd, h.isDeadlocked]

theorem State.SameMemory.satisfies (h : s.SameMemory R t) (e : Located Expr) :
    p.Satisfies s e ↔ p.Satisfies t e := by
  have heval := eval_matches h p .nil e.value
  unfold Program.Satisfies
  generalize p.eval s [] e.value = x at heval
  generalize p.eval t [] e.value = y at heval
  cases heval with
  | ok hvw => simp [hvw.isTrue]
  | stop e => simp

theorem State.Corresponds.steps_isomorphic (h : s.Corresponds R t) (layout : Layout) (i : ThreadId)
    (data : Option Int64) :
    StepMatches State.Isomorphic (p.execute layout s i data) (p.execute layout t i data) := by
  have hmatch := execute_matches_alike p h layout i data
  generalize hs : p.execute layout s i data = x at hmatch
  generalize ht : p.execute layout t i data = y at hmatch
  cases hmatch with
  | error d => exact .error d
  | ok hgrown fault =>
    obtain ⟨S, hcorr, _⟩ := hgrown.pairing
    exact .ok (hcorr.isomorphic (execute_settled hs) (execute_settled ht)) fault

/-- The second state differs from the first one at most in where hash tables list their members. -/
structure State.Relisted (s t : State) : Prop where
  pairing : ∃ R : Pairing, s.Corresponds R t ∧ ∀ a b, R a b → a = b
  size : s.heap.cells.length = t.heap.cells.length

theorem State.Relisted.refl (h : p.Coherent s) : s.Relisted s :=
  ⟨⟨_, h.self, fun _ _ hab => hab.2⟩, rfl⟩

theorem State.Relisted.execute (h : s.Relisted t) {mode : Symmetry} {i : ThreadId}
    {data : Option Int64} {fault : Option Uncaught} {arrange : Handle → Arrangement Handle}
    {s' : State} (hs : p.execute ⟨mode, arrange⟩ s i data = .ok (s', fault))
    (arrange' : Handle → Arrangement Handle) :
    ∃ t', p.execute ⟨mode, arrange'⟩ t i data = .ok (t', fault) ∧ s'.Relisted t' := by
  obtain ⟨R, hcorr, heq⟩ := h.pairing
  have hmatch := execute_matches p hcorr mode (False.elim : False → arrange = arrange') i data
  generalize p.execute ⟨mode, arrange'⟩ t i data = y at hmatch
  rw [hs] at hmatch
  cases hmatch with
  | @ok _ t' hgrown =>
    obtain ⟨S, hS, _, hsup⟩ := hgrown.pairing
    obtain ⟨n, hs', ht'⟩ := hgrown.sizes
    refine ⟨t', rfl, ⟨S, hS, fun a b hab => ?_⟩, by rw [hs', ht', h.size]⟩
    rcases hsup a b hab with hold | ⟨rfl, rfl⟩
    · exact heq a b hold
    · exact h.size

/-- What cannot differ between two states: what is observed of them and the steps of each thread. -/
structure Program.BehaveAlike (p : Program) (s t : State) : Prop where
  runnable : s.runnable = t.runnable
  isEnd : s.isEnd = t.isEnd
  isDeadlocked : s.isDeadlocked = t.isDeadlocked
  violated : p.violated s = p.violated t
  offers : ∀ i data, p.Offers s i data ↔ p.Offers t i data
  steps : ∀ layout i data,
    StepMatches State.Isomorphic (p.execute layout s i data) (p.execute layout t i data)
  succeeds : p.Sound → ∀ layout, ∀ i ∈ s.runnable, ∀ data, p.Offers s i data →
    ∃ s' t' fault, p.execute layout s i data = .ok (s', fault) ∧
      p.execute layout t i data = .ok (t', fault) ∧ s'.Isomorphic t'

/-- Isomorphic states behave alike. -/
theorem isomorphic_behaveAlike (hs : p.WellFormed s) (h : s.Isomorphic t) : p.BehaveAlike s t := by
  obtain ⟨R, hiso⟩ := h
  have hcorr := hiso.toCorresponds
  refine ⟨hcorr.runnable, hcorr.isEnd, hcorr.isDeadlocked, hcorr.toSameMemory.violated p, ?_,
    hcorr.steps_isomorphic, ?_⟩
  · exact fun i data => ⟨hcorr.offers, hcorr.swap.offers⟩
  · intro hp layout i hi data hdata
    obtain ⟨s', fault, hexec, _⟩ := execute_wellFormed hp hs layout hi hdata
    have hstep := hcorr.steps_isomorphic (p := p) layout i data
    generalize ht : p.execute layout t i data = y at hstep
    rw [hexec] at hstep
    cases hstep with
    | ok hiso => exact ⟨s', _, fault, hexec, rfl, hiso⟩

/-- A thread that forgets the first of two objects. -/
def forgetful : Program where
  path := "forgetful"
  classes := builtinClasses ++ [⟨"Node", .plain, [⟨"next", .ref, false, 0⟩], []⟩]
  methods := [⟨"main", false, ["x"],
    [⟨.assign (.localVar 0) (.new 5), .onLine 1 1 1⟩,
      ⟨.assign (.localVar 0) (.new 5), .onLine 2 1 1⟩,
      ⟨.assign (.field (.localVar 0) "next") (.expr (.localVar 0)), .onLine 3 1 1⟩],
    ["x = new Node", "x = new Node", "x.next = x"]⟩]
  threads := [⟨"main", 0⟩]
  invariants := []

theorem forgetful_sound : forgetful.Sound where
  intArray := ⟨_, rfl, rfl⟩
  refArray := ⟨_, rfl, rfl⟩
  set := ⟨_, rfl, rfl⟩
  bag := ⟨_, rfl, rfl⟩
  bodies := by
    have hnode : IsPlain forgetful.classes 5 := ⟨_, rfl, rfl⟩
    simp [forgetful, Stmt.Sound, Target.Sound, Rvalue.Sound, Expr.Sound]
    exact hnode
  entries := by simp [forgetful]
  invariants := by simp [forgetful]

theorem forgetful_execution : ∃ s, forgetful.Execution .fast [(0, none), (0, none)] s none ∧
    s.collect.1 = 1 ∧ s.runnable = [0] := by
  refine ⟨_, .step (.step (.start rfl) ⟨?_, ?_, fun _ _ _ => [], rfl⟩)
    ⟨?_, ?_, fun _ _ _ => [], rfl⟩, ?_, ?_⟩
  · decide
  · exact ⟨_, _, rfl, rfl, rfl⟩
  · decide
  · exact ⟨_, _, rfl, rfl, rfl⟩
  · decide
  · decide

/-- A state with garbage, and what is left of it after a collection. -/
theorem forgetful_behaveAlike : ∃ s, s.collect.1 = 1 ∧ s.runnable = [0] ∧
    forgetful.WellFormed s ∧ s.Isomorphic s.collect.2 ∧ forgetful.BehaveAlike s s.collect.2 := by
  obtain ⟨s, hexec, hfreed, hrun⟩ := forgetful_execution
  have hwf := hexec.wellFormed forgetful_sound
  obtain ⟨hcorr, hsettled⟩ := hwf.toCoherent.collect
  have hiso := hcorr.isomorphic hwf.settled hsettled
  exact ⟨s, hfreed, hrun, hwf, hiso, isomorphic_behaveAlike hwf hiso⟩

end Isomorphic

end Interleave
