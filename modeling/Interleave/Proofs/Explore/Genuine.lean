import Interleave.Proofs.Explore.Agenda
import Interleave.Proofs.Machine.Execution

set_option autoImplicit false

namespace Interleave

variable {fault : Option Uncaught} {data : Option Int64} {mode : Symmetry}

/-- What is left of a state when objects that nothing reaches are gone: what is left is as it was and
has its handle, and the next object gets the same handle in both. -/
structure State.Residue (r s : State) : Prop where
  pairing : ∃ R : Pairing, r.Corresponds R s ∧
    R.IdentityOn fun a => r.heap.get? a = s.heap.get? a
  size : r.heap.cells.length = s.heap.cells.length

section Residue

variable {p : Program} {r s s' : State}

theorem Program.Coherent.residue (h : p.Coherent s) : s.Residue s :=
  ⟨⟨_, h.self, fun _ _ hab => ⟨hab.2, rfl⟩⟩, rfl⟩

theorem State.Residue.steps (h : r.Residue s) (layout : Layout) (t : ThreadId)
    (data : Option Int64) :
    StepMatches State.Residue (p.execute layout r t data) (p.execute layout s t data) := by
  obtain ⟨R, hcorr, heq⟩ := h.pairing
  have hmatch := execute_matches_alike p hcorr layout t data
  generalize p.execute layout r t data = x at hmatch
  generalize p.execute layout s t data = y at hmatch
  cases hmatch with
  | error d => exact .error d
  | ok hgrown fault =>
    refine .ok ?_ fault
    obtain ⟨S, hS, _, hsup⟩ := hgrown.pairing
    obtain ⟨n, hr', hs'⟩ := hgrown.sizes
    have hsize := h.size
    -- The handles that are paired before or after the step.
    have hexact := hgrown.exact trivial (fun a => R a a ∨ a = r.heap.cells.length)
      (fun a b hab => ⟨(heq a b hab).1, .inl ((heq a b hab).1 ▸ hab)⟩) (.inr rfl) hsize
    have hagrees : r.heap.AgreesOn (fun a => R a a ∨ a = r.heap.cells.length) s.heap := by
      rintro a (ha | rfl)
      · exact (heq a a ha).2
      · unfold Heap.get?
        rw [List.getElem?_eq_none (Nat.le_refl _), List.getElem?_eq_none hsize.ge]
    refine ⟨⟨S, hS, ?_⟩, by omega⟩
    intro a b hab
    rcases hsup a b hab with hold | ⟨rfl, rfl⟩
    · obtain ⟨rfl, _⟩ := heq a b hold
      exact ⟨rfl, hexact hagrees a (.inl hold)⟩
    · exact ⟨hsize, hexact hagrees _ (.inr rfl)⟩

theorem State.Residue.execute (h : r.Residue s) {t : ThreadId} {layout : Layout}
    (hs : p.execute layout s t data = .ok (s', fault)) :
    ∃ r', p.execute layout r t data = .ok (r', fault) ∧ r'.Residue s' := by
  have hsteps := h.steps (p := p) layout t data
  generalize p.execute layout r t data = x at hsteps
  rw [hs] at hsteps
  cases hsteps with
  | @ok r' _ hresidue => exact ⟨r', rfl, hresidue⟩

theorem State.Residue.collect (h : r.Residue s) (hs : p.Settled s) : r.Residue s.collect.2 := by
  obtain ⟨R, hcorr, heq⟩ := h.pairing
  have hcoherent : p.Coherent s := hcorr.swap.coherent hs
  refine ⟨⟨_, hcorr.comp hcoherent.collect.1, ?_⟩, ?_⟩
  · rintro a c ⟨b, hab, hb, rfl⟩
    obtain ⟨rfl, hget⟩ := heq a b hab
    exact ⟨rfl, hget.trans (Heap.get?_retain_of_mem (hcoherent.mem_reachable hb)).symm⟩
  · exact h.size.trans (Heap.retain_length _ _).symm

theorem State.Residue.threadViews (h : r.Residue s) : p.threadViews r = p.threadViews s := by
  obtain ⟨R, hcorr, heq⟩ := h.pairing
  rw [← List.forall₂_eq_eq_eq]
  refine forall₂_mapIdx hcorr.threads fun i a b hab => ?_
  have hstatus := hab.status.eq fun a b hab => (heq a b hab).1
  rw [hab.name, hstatus]
  have hframes := hab.frames
  generalize a.frames = l at hframes
  generalize b.frames = m at hframes
  cases hframes with
  | nil => rfl
  | cons hfg => simp only [List.head?_cons, Option.bind_some, Option.map_some, hfg.method, hfg.pc]

end Residue

/-- A transition names the thread, the statement and the place of a step from a state. -/
def Program.Shows (p : Program) (s : State) (tr : Transition) : Prop :=
  ∃ thread f stmt, s.threads[tr.thread]? = some thread ∧ s.topFrame? tr.thread = some f ∧
    p.statement? f.method f.pc = some stmt ∧ tr.threadName = thread.name ∧
    tr.label = p.label f.method f.pc ∧ tr.place = some ⟨p.path, stmt.span⟩

/-- The state that the transitions of a path lead to, with the fault of the last one. -/
inductive Program.Trace (p : Program) (mode : Symmetry) :
    List Transition → State → Option Uncaught → Prop where
  | start {s : State} (h : p.initialState = .ok s) : Trace p mode [] s none
  | step {path : List Transition} {s s' : State} {last fault : Option Uncaught} {tr : Transition}
      (h : Trace p mode path s last) (hstep : p.Step mode s tr.thread tr.choice s' fault)
      (hshown : p.Shows s tr) : Trace p mode (path ++ [tr]) s' fault

theorem Program.Trace.execution {p : Program} {path : List Transition} {s : State}
    (h : p.Trace mode path s fault) :
    p.Execution mode (path.map fun tr => (tr.thread, tr.choice)) s fault := by
  induction h with
  | start h => exact .start h
  | step _ hstep _ ih =>
    rw [List.map_append]
    exact .step ih hstep

def pathOf (nodes : List Node) : List Transition := nodes.reverse.filterMap (·.transition)

theorem pathOf_cons (n : Node) (rest : List Node) :
    pathOf (n :: rest) = pathOf rest ++ n.transition.toList := by
  unfold pathOf
  rw [List.reverse_cons, List.filterMap_append]
  cases h : n.transition with
  | none => simp [h]
  | some tr => simp [h]

structure Node.Reached (p : Program) (mode : Symmetry) (path : List Transition) (n : Node) :
    Prop where
  origin : ∃ r, p.Trace mode path r n.fault ∧ r.Residue n.state
  settled : p.Settled n.state
  agenda : ∀ a, n.agenda = some a → a.Fits p n.state
  wellFormed : p.Sound → p.WellFormed n.state

def Genuine (p : Program) (mode : Symmetry) : List Node → Prop
  | [] => True
  | n :: rest => n.Reached p mode (pathOf (n :: rest)) ∧
    (pathOf (n :: rest)).length = rest.length ∧ Genuine p mode rest

def Trail.Genuine (p : Program) (mode : Symmetry) (t : Trail) : Prop :=
  Interleave.Genuine p mode (t.top :: t.below)

section Genuine

variable {p : Program} {mode : Symmetry} {path : List Transition} {n : Node} {t : Trail}
  {agenda : Option Agenda}

theorem Node.Reached.setAgenda (h : n.Reached p mode path)
    (hagenda : ∀ a, agenda = some a → a.Fits p n.state) :
    Node.Reached p mode path { n with agenda } :=
  ⟨h.origin, h.settled, hagenda, h.wellFormed⟩

theorem Node.Reached.collect (h : n.Reached p mode path) : n.collect.2.Reached p mode path := by
  obtain ⟨r, htrace, hresidue⟩ := h.origin
  obtain ⟨R, hcorr, _⟩ := hresidue.pairing
  have hcoherent : p.Coherent n.state := hcorr.swap.coherent h.settled
  obtain ⟨hcollect, hsettled⟩ := hcoherent.collect
  refine ⟨⟨r, htrace, hresidue.collect h.settled⟩, hsettled, ?_,
    fun hp => (h.wellFormed hp).collect⟩
  intro a ha
  have hfits := h.agenda a ha
  refine ⟨fun t ht => ?_, fun g hg => ?_⟩
  · have hrunnable := hfits.threads t ht
    rw [hcollect.runnable] at hrunnable
    exact hrunnable
  · exact hfits.data g hg

theorem Trail.Genuine.top (h : t.Genuine p mode) : t.top.Reached p mode t.path := h.1

theorem Trail.Genuine.length_path (h : t.Genuine p mode) : t.path.length = t.depth := h.2.1

theorem Trail.Genuine.setAgenda (h : t.Genuine p mode)
    (hagenda : ∀ a, agenda = some a → a.Fits p t.top.state) :
    (t.setAgenda agenda).Genuine p mode := by
  have hpath : pathOf ({ t.top with agenda } :: t.below) = pathOf (t.top :: t.below) := by
    rw [pathOf_cons, pathOf_cons]
  refine ⟨?_, ?_, h.2.2⟩
  · change Node.Reached p mode (pathOf ({ t.top with agenda } :: t.below)) { t.top with agenda }
    rw [hpath]
    exact h.1.setAgenda hagenda
  · exact (congrArg List.length hpath).trans h.2.1

theorem Trail.Genuine.back? (h : t.Genuine p mode) {t' : Trail} (ht' : t.back? = some t') :
    t'.Genuine p mode := by
  unfold Trail.back? at ht'
  split at ht'
  · cases ht'
  · next hbelow =>
    cases ht'
    have hrest := h.2.2
    rw [hbelow] at hrest
    exact hrest

theorem Genuine.map {f : Node → Node} (htransition : ∀ n, (f n).transition = n.transition)
    (hreached : ∀ path n, n.Reached p mode path → (f n).Reached p mode path) {l : List Node}
    (h : Genuine p mode l) : Genuine p mode (l.map f) := by
  have hpath : ∀ l : List Node, pathOf (l.map f) = pathOf l := by
    intro l
    induction l with
    | nil => rfl
    | cons n rest ih => rw [List.map_cons, pathOf_cons, pathOf_cons, ih, htransition]
  induction l with
  | nil => trivial
  | cons n rest ih =>
    obtain ⟨hn, hlength, hrest⟩ := h
    refine ⟨?_, ?_, ih hrest⟩
    · rw [← List.map_cons, hpath]
      exact hreached _ n hn
    · rw [← List.map_cons, hpath, List.length_map]
      exact hlength

def Node.tidy (held : List Trail) (n : Node) : Node :=
  if held.any (·.holds n.birth) then n else n.collect.2

theorem Trail.collect_eq (t : Trail) (held : List Trail) :
    (t.collect held).2 = ⟨t.top.tidy held, t.below.map (Node.tidy held)⟩ := by
  have hone : ∀ n : Node, (if held.any (·.holds n.birth) then (0, n) else n.collect).2 =
      n.tidy held := by
    intro n
    unfold Node.tidy
    split <;> rfl
  unfold Trail.collect
  simp only [List.map_map]
  rw [hone]
  congr 1
  refine List.map_congr_left fun n _ => ?_
  exact hone n

theorem Node.tidy_transition (held : List Trail) (n : Node) :
    (n.tidy held).transition = n.transition := by
  unfold Node.tidy
  split <;> rfl

theorem Trail.Genuine.collect (h : t.Genuine p mode) (held : List Trail) :
    (t.collect held).2.Genuine p mode := by
  rw [Trail.collect_eq]
  refine Genuine.map (f := Node.tidy held) (Node.tidy_transition held) ?_ h
  intro path n hn
  unfold Node.tidy
  split
  · exact hn
  · exact hn.collect

end Genuine

/-- What a step of an explorer does: a move is taken from the agenda of the current state, and the
state that it leads to comes onto the trail and into the table. -/
structure Explorer.Advances (x : Explorer) (a : Agenda) (move : Move) (a' : Agenda) (node : Node)
    (f : Fingerprint) (x' : Explorer) : Prop where
  agenda : x.trail.top.agenda = some a
  takes : a.Takes x.model.program x.state x.random move a' x'.random
  executed : x.model.program.execute x.layout x.state move.thread move.data =
    .ok (node.state, node.fault)
  fingerprint : x.model.fingerprint node.state = .ok f
  added : x.table.add f = (node.stateId, x'.isNew, x'.table)
  fresh : node.agenda = Agenda.ofState node.state
  shown : node.transition = some (x.model.transition x.state move node.stateId)
  trail : x'.trail = ⟨node, { x.trail.top with agenda := some a' } :: x.trail.below⟩
  model : x'.model = x.model

section Forward

variable {x x' : Explorer} {s : State} {move : Move} {c : Config} {schedule : ChoicePoint}
  {t : ThreadId} {f : StackFrame} {ε ε' α : Type} {y : Except ε α}

theorem Explorer.scheduled_eq_ok :
    scheduled s schedule = .ok (t, f) ↔
      schedule.current? = some (.thread t) ∧ s.topFrame? t = some f := by
  unfold scheduled
  split
  · next u hu =>
    split
    · next g hg =>
      constructor
      · intro h
        cases h
        exact ⟨hu, hg⟩
      · rintro ⟨ht, hf⟩
        cases hu.symm.trans ht
        rw [Option.some.inj (hg.symm.trans hf)]
    · next hnone =>
      constructor
      · intro h
        cases h
      · rintro ⟨ht, hf⟩
        cases hu.symm.trans ht
        cases hnone.symm.trans hf
  · next hother =>
    constructor
    · intro h
      cases h
    · rintro ⟨ht, _⟩
      exact absurd ht (hother t)

theorem Explorer.decide_takes (h : x.decide = (.ok (some move), x')) :
    ∃ a a' random, x.trail.top.agenda = some a ∧
      a.Takes x.model.program x.state x.random move a' random ∧
      x' = { x.setAgenda (some a') with random } := by
  unfold Explorer.decide at h
  split at h
  · cases h
  · next a ha =>
    unfold Agenda.advance at h
    cases hdata : a.data.bind Interval.advance? with
    | some g' =>
      simp only [hdata] at h
      obtain ⟨g, hg, hadvance⟩ := Option.bind_eq_some_iff.1 hdata
      split at h
      · cases h
      · next t f hscheduled =>
        obtain ⟨hthread, hframe⟩ := scheduled_eq_ok.1 hscheduled
        split at h
        · next hfresh => cases hfresh
        obtain ⟨hmove, rfl⟩ := Prod.mk.inj h
        cases hmove
        exact ⟨a, _, x.random, ha, .integer hg hadvance hthread hframe, rfl⟩
    | none =>
      simp only [hdata] at h
      cases hschedule : a.schedule.advance? with
      | none =>
        simp only [hschedule] at h
        cases h
      | some schedule =>
        simp only [hschedule] at h
        split at h
        · cases h
        · next t f hscheduled =>
          obtain ⟨hthread, hframe⟩ := scheduled_eq_ok.1 hscheduled
          split at h
          · next hchoice _ =>
            split at h
            · cases h
            · next g random hopen =>
              obtain ⟨hmove, rfl⟩ := Prod.mk.inj h
              cases hmove
              exact ⟨a, _, random, ha, .choice hdata hschedule hthread hframe hchoice hopen, rfl⟩
          · next hchoice =>
            obtain ⟨hmove, rfl⟩ := Prod.mk.inj h
            cases hmove
            refine ⟨a, _, x.random, ha, .thread hdata hschedule hthread hframe ?_, rfl⟩
            rw [Option.eq_none_iff_forall_ne_some]
            rintro ⟨min, max⟩ hsome
            exact hchoice min max hsome rfl

theorem Explorer.decide_none (h : x.decide = (.ok none, x')) :
    ∃ agenda, x' = x.setAgenda agenda ∧
      (∀ a, x.trail.top.agenda = some a → ∀ t data, ¬ a.Pending t data) ∧
      ∀ a, agenda = some a → ∃ b, x.trail.top.agenda = some b ∧ a = ⟨b.schedule, none⟩ := by
  unfold Explorer.decide at h
  split at h
  · next hnone =>
    obtain ⟨_, rfl⟩ := Prod.mk.inj h
    refine ⟨none, ?_, ?_, ?_⟩
    · unfold Explorer.setAgenda Trail.setAgenda
      rw [← hnone]
    · intro a ha
      cases hnone.symm.trans ha
    · intro a ha
      cases ha
  · next a ha =>
    unfold Agenda.advance at h
    cases hdata : a.data.bind Interval.advance? with
    | some g' =>
      simp only [hdata] at h
      split at h
      · cases h
      · split at h
        · next hfresh => cases hfresh
        cases h
    | none =>
      simp only [hdata] at h
      cases hschedule : a.schedule.advance? with
      | some schedule =>
        simp only [hschedule] at h
        split at h
        · cases h
        · split at h
          · split at h
            · cases h
            · cases h
          · cases h
      | none =>
        simp only [hschedule] at h
        obtain ⟨_, rfl⟩ := Prod.mk.inj h
        refine ⟨_, rfl, ?_, ?_⟩
        · intro b hb t data hpending
          cases ha.symm.trans hb
          rcases hpending with ⟨g, v, hg, _, hupcoming, _⟩ | hupcoming
          · rw [hg, Option.bind_some] at hdata
            exact hupcoming.ne_none hdata
          · exact hupcoming.ne_none hschedule
        · intro b hb
          split at hb
          · cases hb
          · exact ⟨a, ha, (Option.some.inj hb).symm⟩

theorem mapError_eq_ok {f : ε → ε'} {a : α} : y.mapError f = .ok a ↔ y = .ok a := by
  cases y <;> simp [Except.mapError]

theorem mapError_eq_error {f : ε → ε'} {e : ε'} (h : y.mapError f = .error e) : ∃ e', e = f e' := by
  cases y with
  | error e' => exact ⟨e', (Except.error.inj h).symm⟩
  | ok a => cases h

theorem Explorer.successor_eq_ok {next : Successor} (h : x.successor move = .ok next) :
    x.model.program.execute x.layout x.state move.thread move.data =
        .ok (next.state, next.fault) ∧
      x.model.fingerprint next.state = .ok next.fingerprint := by
  unfold Explorer.successor at h
  obtain ⟨⟨state, fault⟩, hexecute, h⟩ := bind_eq_ok.1 h
  obtain ⟨f, hf, h⟩ := bind_eq_ok.1 h
  cases h
  exact ⟨mapError_eq_ok.1 hexecute, mapError_eq_ok.1 hf⟩

theorem Explorer.forward_true (h : x.forward = (.ok true, x')) :
    ∃ a move a' node f, x.Advances a move a' node f x' := by
  unfold Explorer.forward at h
  split at h
  · cases h
  · cases h
  · next move y hdecide =>
    split at h
    · cases h
    · next next hsuccessor =>
      obtain ⟨_, rfl⟩ := Prod.mk.inj h
      obtain ⟨a, a', random, ha, htakes, rfl⟩ := decide_takes hdecide
      obtain ⟨hexecuted, hfingerprint⟩ := successor_eq_ok hsuccessor
      let node : Node :=
        { birth := x.births
          state := next.state
          stateId := (x.table.add next.fingerprint).1
          agenda := Agenda.ofState next.state
          transition := some (x.model.transition x.state move (x.table.add next.fingerprint).1)
          fault := next.fault
          tables := if move.makesCollection x.model.program then
              (x.state.heap.cells.length, x.births) :: x.trail.top.tables
            else x.trail.top.tables }
      exact ⟨a, move, a', node, next.fingerprint, ha, htakes, hexecuted, hfingerprint, rfl, rfl,
        rfl, rfl, rfl⟩

theorem Explorer.forward_false (h : x.forward = (.ok false, x')) : x.decide = (.ok none, x') := by
  unfold Explorer.forward at h
  split at h
  · cases h
  · next hdecide =>
    obtain ⟨_, rfl⟩ := Prod.mk.inj h
    exact hdecide
  · split at h
    · cases h
    · cases h

structure Explorer.Genuine (p : Program) (mode : Symmetry) (x : Explorer) : Prop where
  program : x.model.program = p
  symmetry : x.model.symmetry = mode
  trail : x.trail.Genuine p mode

variable {p : Program} {mode : Symmetry}

structure Explorer.Starts (p : Program) (c : Config) (s₀ : State) (f : Fingerprint) (x : Explorer) :
    Prop where
  initial : p.initialState = .ok s₀
  masks : Masks.ofProgram p c.filter = .ok x.model.masks
  model : x.model = ⟨p, c.symmetry, c.policy, x.model.masks, x.model.arrange⟩
  plain : c.symmetry = .canonical ∨ p.makesCollections = false →
    x.model.arrange = fun _ _ _ => []
  fingerprint : x.model.fingerprint s₀ = .ok f
  added : ∃ short, (StateTable.empty c.stateSet short).add f = (x.stateId, x.isNew, x.table)
  state : x.trail.top.state = s₀
  agenda : x.trail.top.agenda = Agenda.ofState s₀
  transition : x.trail.top.transition = none
  fault : x.trail.top.fault = none
  below : x.trail.below = []
  random : x.random = none

/-- The explorer of a program as it is at first, with some choice of what its hash tables do. -/
def Explorer.Started (p : Program) (c : Config) (x : Explorer) : Prop :=
  ∃ hashing, Explorer.start p c hashing = .ok x

/-- Two ways to hash that no explorer of the program tells apart: the order of a table matters only
where collections are hashed. -/
structure Hashing.Alike (hashing : Hashing) (p : Program) (mode : Symmetry) (hashing' : Hashing) :
    Prop where
  short : hashing'.short = hashing.short
  arrange : mode = .fast → p.makesCollections = true → hashing'.arrange = hashing.arrange

theorem Hashing.Alike.refl (hashing : Hashing) (p : Program) (mode : Symmetry) :
    hashing.Alike p mode hashing := ⟨rfl, fun _ _ => rfl⟩

theorem Hashing.Alike.start {hashing hashing' : Hashing} (h : hashing.Alike p c.symmetry hashing') :
    Explorer.start p c hashing' = Explorer.start p c hashing := by
  have hmodel : Model.ofConfig p c hashing' = Model.ofConfig p c hashing := by
    unfold Model.ofConfig
    by_cases hhashed : c.symmetry = .fast ∧ p.makesCollections = true
    · rw [h.arrange hhashed.1 hhashed.2]
    · rw [if_neg hhashed, if_neg hhashed]
  unfold Explorer.start
  rw [hmodel, h.short]

theorem Explorer.Started.starts (h : x.Started p c) : ∃ s₀ f, x.Starts p c s₀ f := by
  obtain ⟨hashing, h⟩ := h
  unfold Explorer.start at h
  obtain ⟨model, hmodel, h⟩ := bind_eq_ok.1 h
  obtain ⟨state, hstate, h⟩ := bind_eq_ok.1 h
  obtain ⟨f, hf, h⟩ := bind_eq_ok.1 h
  cases h
  unfold Model.ofConfig at hmodel
  obtain ⟨masks, hmasks, hmodel⟩ := bind_eq_ok.1 (mapError_eq_ok.1 hmodel)
  cases hmodel
  let table := StateTable.empty c.stateSet hashing.short
  have hisNew : (table.add f).2.1 = true := by
    unfold table
    cases c.stateSet <;> rfl
  refine ⟨state, f, mapError_eq_ok.1 hstate, hmasks, rfl, fun hplain => if_neg ?_,
    mapError_eq_ok.1 hf, ⟨hashing.short, ?_⟩, rfl, rfl, rfl, rfl, rfl, rfl⟩
  · rintro ⟨hfast, hmakes⟩
    rcases hplain with hcanonical | hfree
    · cases hfast.symm.trans hcanonical
    · cases hmakes.symm.trans hfree
  · exact congrArg (fun b => ((table.add f).1, b, (table.add f).2.2)) hisNew

theorem Explorer.Starts.genuine {s₀ : State} {f : Fingerprint} (h : x.Starts p c s₀ f) :
    x.Genuine p c.symmetry := by
  have htrace : p.Trace c.symmetry [] s₀ none := .start h.initial
  have hpath : pathOf (x.trail.top :: x.trail.below) = [] := by
    rw [h.below, pathOf_cons, h.transition]
    rfl
  have hreached : x.trail.top.Reached p c.symmetry [] := by
    refine ⟨⟨s₀, h.fault ▸ htrace, h.state ▸ (initialState_coherent h.initial).residue⟩,
      h.state ▸ initialState_settled h.initial, fun a ha => ?_, fun hp => ?_⟩
    · rw [h.agenda, ← h.state] at ha
      exact Agenda.ofState_fits ha
    · exact h.state ▸ htrace.execution.wellFormed hp
  refine ⟨congrArg Model.program h.model, congrArg Model.symmetry h.model, ?_⟩
  refine ⟨hpath.symm ▸ hreached, ?_, ?_⟩
  · rw [hpath, h.below]
    rfl
  · rw [h.below]
    trivial

theorem Explorer.Started.genuine (h : x.Started p c) : x.Genuine p c.symmetry := by
  obtain ⟨s₀, f, hstarts⟩ := h.starts
  exact hstarts.genuine

theorem statement_of_execute {s' : State} {layout : Layout}
    (h : p.execute layout s t data = .ok (s', fault))
    (hf : s.topFrame? t = some f) : ∃ stmt, p.statement? f.method f.pc = some stmt := by
  cases hstmt : p.statement? f.method f.pc with
  | some stmt => exact ⟨stmt, rfl⟩
  | none =>
    have hperform : p.perform layout s t data = .defect (.noStatement t) := by
      unfold Program.perform
      simp only [hf, hstmt]
    unfold Program.execute at h
    rw [hperform] at h
    cases h

theorem Model.shows_transition (m : Model) {stmt : Located Stmt}
    (hrunnable : move.thread ∈ s.runnable) (hframe : s.topFrame? move.thread = some move.frame)
    (hstmt : m.program.statement? move.frame.method move.frame.pc = some stmt) (stateId : StateId) :
    m.program.Shows s (m.transition s move stateId) := by
  obtain ⟨thread, hthread, _⟩ := mem_runnable.1 hrunnable
  refine ⟨thread, move.frame, stmt, hthread, hframe, hstmt, ?_, rfl, ?_⟩
  · simp [Model.transition, hthread]
  · simp [Model.transition, hstmt]

theorem State.Corresponds.shows {R : Pairing} {t : State} (h : s.Corresponds R t) {tr : Transition}
    (hs : p.Shows s tr) : p.Shows t tr := by
  obtain ⟨thread, f, stmt, hthread, hf, hstmt, hname, hlabel, hplace⟩ := hs
  have hthreads := forall₂_getElem? h.threads tr.thread
  have htop := h.topFrame? tr.thread
  rw [hthread] at hthreads
  rw [hf] at htop
  generalize hthread' : t.threads[tr.thread]? = y at hthreads
  generalize hf' : t.topFrame? tr.thread = z at htop
  cases hthreads with
  | some hmatch =>
    cases htop with
    | some hfg =>
      rw [hfg.method, hfg.pc] at hstmt hlabel
      exact ⟨_, _, stmt, hthread', hf', hstmt, hname.trans hmatch.name, hlabel, hplace⟩

variable (hx : x.Genuine p mode)

include hx

theorem Explorer.Advances.reached {a a' : Agenda} {node : Node} {f : Fingerprint}
    (h : x.Advances a move a' node f x') :
    node.Reached p mode (x.trail.path ++ node.transition.toList) := by
  obtain ⟨hagenda, htakes, hexecuted, _, _, hfresh, hshown, _, _⟩ := h
  obtain ⟨rfl, rfl, htrail⟩ := hx
  have htop := htrail.top
  have hfits := htop.agenda a hagenda
  have hframe := htakes.frame
  obtain ⟨stmt, hstmt⟩ := statement_of_execute hexecuted hframe
  have hoffers : x.model.program.Offers x.state move.thread move.data :=
    ⟨move.frame, stmt, hframe, hstmt, htakes.offers hfits hstmt⟩
  have hrunnable := htakes.runnable hfits
  obtain ⟨r, htrace, hresidue⟩ := htop.origin
  obtain ⟨R, hcorr, heq⟩ := hresidue.pairing
  obtain ⟨r', hr', hresidue'⟩ := hresidue.execute hexecuted
  have hstep : x.model.program.Step x.model.symmetry r move.thread move.data r' node.fault :=
    ⟨hcorr.runnable ▸ hrunnable, hcorr.swap.offers hoffers, _, hr'⟩
  refine ⟨⟨r', ?_, hresidue'⟩, execute_settled hexecuted, ?_, ?_⟩
  · rw [hshown]
    exact htrace.step hstep (hcorr.swap.shows (x.model.shows_transition hrunnable hframe hstmt _))
  · intro b hb
    rw [hfresh] at hb
    exact Agenda.ofState_fits hb
  · intro hp
    obtain ⟨s', fault, hs', hwf⟩ := execute_wellFormed hp (htop.wellFormed hp) x.layout hrunnable
      hoffers
    cases hexecuted.symm.trans hs'
    exact hwf

theorem Explorer.forward_genuine {moved : Bool} (h : x.forward = (.ok moved, x')) :
    x'.Genuine p mode := by
  cases moved with
  | false =>
    obtain ⟨agenda, rfl, _, hsame⟩ := decide_none (forward_false h)
    refine ⟨hx.program, hx.symmetry, hx.trail.setAgenda fun a ha => ?_⟩
    obtain ⟨b, hb, rfl⟩ := hsame a ha
    exact Agenda.fits_of_threads (hx.trail.top.agenda b hb).threads
  | true =>
    obtain ⟨a, move, a', node, f, hadvances⟩ := forward_true h
    have hreached := hadvances.reached hx
    refine ⟨hadvances.model ▸ hx.program, hadvances.model ▸ hx.symmetry, ?_⟩
    rw [hadvances.trail]
    have hback : (x.trail.setAgenda (some a')).Genuine p mode := by
      refine hx.trail.setAgenda fun b hb => ?_
      cases hb
      have hfits := hx.trail.top.agenda a hadvances.agenda
      have htakes := hadvances.takes
      rw [hx.program] at htakes
      exact htakes.fits hfits
    have hpath : pathOf (node :: { x.trail.top with agenda := some a' } :: x.trail.below) =
        x.trail.path ++ node.transition.toList := by
      rw [pathOf_cons, pathOf_cons]
      exact congrArg (· ++ _) (pathOf_cons x.trail.top x.trail.below).symm
    refine ⟨?_, ?_, hback⟩
    · rw [hpath]
      exact hreached
    · rw [hpath, hadvances.shown, List.length_append, hx.trail.length_path]
      rfl

theorem Explorer.backtrack?_genuine (h : x.backtrack? = some x') : x'.Genuine p mode := by
  obtain ⟨trail, htrail, rfl⟩ := Option.map_eq_some_iff.1 h
  exact ⟨hx.program, hx.symmetry, hx.trail.back? htrail⟩

theorem Explorer.collect_genuine (held : List Trail) : (x.collect held).2.Genuine p mode :=
  ⟨hx.program, hx.symmetry, hx.trail.collect held⟩

theorem Explorer.restore_genuine {trail : Trail} (htrail : trail.Genuine p mode) :
    (x.restore trail).Genuine p mode :=
  ⟨hx.program, hx.symmetry, htrail⟩

theorem Explorer.setSchedule_genuine (h : ∀ t ∈ schedule.threads, t ∈ x.state.runnable) :
    (x.setSchedule schedule).Genuine p mode := by
  refine ⟨hx.program, hx.symmetry, hx.trail.setAgenda fun a ha => ?_⟩
  cases ha
  exact Agenda.fits_of_threads h

theorem Explorer.shuffleSchedule_genuine (source : Random.Source) :
    (x.shuffleSchedule source).1.Genuine p mode := by
  unfold Explorer.shuffleSchedule
  split
  · exact hx
  · next a ha =>
    refine ⟨hx.program, hx.symmetry, hx.trail.setAgenda fun b hb => ?_⟩
    cases hb
    have hfits := hx.trail.top.agenda a ha
    refine ⟨fun t ht => hfits.threads t (ChoicePoint.mem_threads_randomize.1 ht), fun g hg => ?_⟩
    obtain ⟨t, f, stmt, min, max, ht, hrest⟩ := hfits.data g hg
    exact ⟨t, f, stmt, min, max, ChoicePoint.current?_randomize ht, hrest⟩

end Forward

end Interleave
