import Interleave.Proofs.Explore.Genuine
import Interleave.Proofs.Fingerprint.Code
import Interleave.Proofs.Program.Denotation

set_option autoImplicit false

namespace Interleave

variable {schedule : ChoicePoint} {g : Listed ThreadId}

section Moves

variable {p : Program} {s : State} {t : ThreadId} {min max : Int64}

theorem Interval.openChoice_isSome (random : Option Random.Source) (id : String) (h : min ≤ max) :
    ∃ g random', Explorer.openChoice random id min max = (some g, random') := by
  rw [Int64.le_iff_toInt_le] at h
  have hadvance : ∀ g : Interval, g.length = (max.toInt + 1 - min.toInt).toNat →
      g.progress.closed = false → g.progress.next = 0 → ∃ g', g.advance? = some g' := by
    intro g hlength hclosed hnext
    have hlt : g.progress.next < g.length := by omega
    exact ⟨_, Interval.advance?_eq_some.2 ⟨hclosed, hlt, rfl⟩⟩
  unfold Explorer.openChoice
  cases random with
  | none =>
    obtain ⟨g, hg⟩ := hadvance ((Interval.between id min max).setCascaded true) rfl rfl rfl
    exact ⟨g, none, congrArg (·, none) hg⟩
  | some source =>
    have hprogress : ((Interval.between id min max).setCascaded true |>.randomize source).1.progress =
        ((Interval.between id min max).setCascaded true).progress := by
      unfold Interval.randomize
      dsimp only
      split <;> rfl
    have hlength : ((Interval.between id min max).setCascaded true |>.randomize source).1.length =
        (max.toInt + 1 - min.toInt).toNat := by
      unfold Interval.randomize
      dsimp only
      split <;> rfl
    obtain ⟨g, hg⟩ := hadvance _ hlength (by rw [hprogress]; rfl) (by rw [hprogress]; rfl)
    exact ⟨g, _, congrArg (·, _) hg⟩

theorem Program.WellFormed.statement (hs : p.WellFormed s) (ht : t ∈ s.runnable) :
    ∃ f m stmt, s.topFrame? t = some f ∧ p.methods[f.method]? = some m ∧ stmt ∈ m.body ∧
      p.statement? f.method f.pc = some stmt := by
  obtain ⟨thread, hthread, hstatus⟩ := mem_runnable.1 ht
  have hmem : thread ∈ s.threads := List.mem_of_getElem? hthread
  have hcalls := hs.calls thread hmem
  cases hframes : thread.frames with
  | nil =>
    have hdead := hcalls.finished.1 hframes
    simp [Thread.isAlive, hstatus] at hdead
  | cons f rest =>
    have htop : thread.frames.head? = some f := by rw [hframes]; rfl
    obtain ⟨m, hm, _⟩ := hs.frames thread hmem f (hframes ▸ List.mem_cons_self)
    have hpc := hcalls.top f htop
    rw [Program.bodyLength, hm, Option.map_some, Option.getD_some] at hpc
    refine ⟨f, m, m.body[f.pc], ?_, hm, List.getElem_mem hpc, ?_⟩
    · rw [State.topFrame?, hthread, Option.bind_some, htop]
    · rw [Program.statement?, hm, Option.bind_some, List.getElem?_eq_getElem hpc]

theorem Program.Sound.choice (hp : p.Sound) {m : MethodDecl} {id : MethodId}
    (hm : p.methods[id]? = some m) {stmt : Located Stmt} (hstmt : stmt ∈ m.body)
    (h : stmt.value.choice? = some (min, max)) : min ≤ max := by
  have hsound := hp.bodies m (List.mem_of_getElem? hm) stmt hstmt
  obtain ⟨value, span⟩ := stmt
  cases value with
  | assign target rvalue =>
    cases rvalue with
    | choose low high =>
      cases h
      exact hsound.2
    | expr | new | newIntArray | newRefArray | newSet | newBag => cases h
  | insert | remove | lock | unlock | assert | ifGoto | goto | call | «return» | yield => cases h

end Moves

def Agenda.Schedules (a : Agenda) : Prop := ∃ g, a.schedule = .thread g

def Trail.Schedules (t : Trail) : Prop :=
  ∀ n ∈ t.top :: t.below, ∀ a, n.agenda = some a → a.Schedules

section Schedules

variable {p : Program} {s : State} {a a' : Agenda} {t : Trail}

theorem Agenda.ofState_schedules (h : Agenda.ofState s = some a) : a.Schedules := by
  unfold Agenda.ofState at h
  split at h
  · cases h
  · rw [← Option.some.inj h]
    exact ⟨_, rfl⟩

theorem ChoicePoint.advance?_thread (h : (ChoicePoint.thread g).advance? = some schedule) :
    ∃ g' t, schedule = .thread g' ∧ schedule.current? = some (.thread t) := by
  obtain ⟨g', hg', rfl⟩ := Option.map_eq_some_iff.1 h
  obtain ⟨_, hlt, rfl⟩ := Listed.advance?_eq_some.1 hg'
  refine ⟨_, g.items[g.progress.next], rfl, ?_⟩
  exact congrArg (Option.map Choice.thread) (List.getElem?_eq_getElem hlt)

theorem Agenda.Takes.schedules {random random' : Option Random.Source} {move : Move}
    (h : Agenda.Takes p s a random move a' random') (ha : a.Schedules) : a'.Schedules := by
  obtain ⟨g, hg⟩ := ha
  cases h with
  | integer => exact ⟨g, hg⟩
  | thread _ hadvance | choice _ hadvance =>
    rw [hg] at hadvance
    obtain ⟨g', _, hg', _⟩ := ChoicePoint.advance?_thread hadvance
    exact ⟨g', hg'⟩

theorem Trail.Schedules.setAgenda (h : t.Schedules) {agenda : Option Agenda}
    (hagenda : ∀ a, agenda = some a → a.Schedules) : (t.setAgenda agenda).Schedules := by
  intro n hn a ha
  rcases List.mem_cons.1 hn with rfl | hn
  · exact hagenda a ha
  · exact h n (List.mem_cons_of_mem _ hn) a ha

theorem Trail.Schedules.back? (h : t.Schedules) {t' : Trail} (ht' : t.back? = some t') :
    t'.Schedules := by
  unfold Trail.back? at ht'
  split at ht'
  · cases ht'
  · next hbelow =>
    cases ht'
    intro n hn
    exact h n (by rw [hbelow]; exact List.mem_cons_of_mem _ hn)

theorem Trail.Schedules.collect (h : t.Schedules) (held : List Trail) :
    (t.collect held).2.Schedules := by
  have htidy : ∀ n : Node, (n.tidy held).agenda = n.agenda := by
    intro n
    unfold Node.tidy
    split <;> rfl
  rw [Trail.collect_eq]
  intro n hn a ha
  obtain ⟨m, hm, rfl⟩ : ∃ m ∈ t.top :: t.below, n = m.tidy held := by
    rcases List.mem_cons.1 hn with rfl | hn
    · exact ⟨t.top, List.mem_cons_self, rfl⟩
    · obtain ⟨m, hm, rfl⟩ := List.mem_map.1 hn
      exact ⟨m, List.mem_cons_of_mem _ hm, rfl⟩
  rw [htidy] at ha
  exact h m hm a ha

end Schedules

structure Explorer.Stays (x y : Explorer) : Prop where
  below : y.trail.below = x.trail.below
  model : y.model = x.model
  table : y.table = x.table
  isNew : y.isNew = x.isNew
  random : x.random = none → y.random = none

theorem Explorer.decide_stays (x : Explorer) : x.Stays x.decide.2 := by
  unfold Explorer.decide
  cases x.trail.top.agenda with
  | none => exact ⟨rfl, rfl, rfl, rfl, id⟩
  | some agenda =>
    dsimp only
    rcases agenda.advance with ⟨_ | fresh, _ | next⟩
    · exact ⟨rfl, rfl, rfl, rfl, id⟩
    · exact ⟨rfl, rfl, rfl, rfl, id⟩
    · exact ⟨rfl, rfl, rfl, rfl, id⟩
    · dsimp only
      cases scheduled x.state next.schedule with
      | error e => exact ⟨rfl, rfl, rfl, rfl, id⟩
      | ok chosen =>
        dsimp only
        split
        · next min max _ =>
          have hrandom : x.random = none →
              (openChoice x.random chosen.2.choiceId min max).2 = none := by
            intro hnone
            rw [hnone]
            rfl
          revert hrandom
          rcases openChoice x.random chosen.2.choiceId min max with ⟨_ | data, random⟩
          · exact fun hrandom => ⟨rfl, rfl, rfl, rfl, hrandom⟩
          · exact fun hrandom => ⟨rfl, rfl, rfl, rfl, hrandom⟩
        · exact ⟨rfl, rfl, rfl, rfl, id⟩

structure Explorer.Ready (p : Program) (mode : Symmetry) (x : Explorer) : Prop
    extends Explorer.Genuine p mode x where
  schedules : x.trail.Schedules
  masks : x.model.masks.Cover p

section Ready

variable {p : Program} {mode : Symmetry} {x x' : Explorer} {c : Config}

theorem Explorer.scheduled_ok (hs : p.WellFormed x.state) {t : ThreadId} (ht : t ∈ x.state.runnable)
    (hcurrent : schedule.current? = some (.thread t)) :
    ∃ f, x.state.topFrame? t = some f ∧ scheduled x.state schedule = .ok (t, f) := by
  obtain ⟨f, _, _, hf, _⟩ := hs.statement ht
  exact ⟨f, hf, scheduled_eq_ok.2 ⟨hcurrent, hf⟩⟩

theorem Explorer.Ready.decide_ok (hp : p.Sound) (hx : x.Ready p mode) :
    ∃ move x', x.decide = (.ok move, x') := by
  have htop := hx.trail.top
  have hwf : p.WellFormed x.state := htop.wellFormed hp
  unfold Explorer.decide
  cases ha : x.trail.top.agenda with
  | none => exact ⟨none, x, rfl⟩
  | some a =>
    have hfits : a.Fits p x.state := htop.agenda a ha
    obtain ⟨g, hg⟩ := hx.schedules _ List.mem_cons_self a ha
    unfold Agenda.advance
    cases hdata : a.data.bind Interval.advance? with
    | some data =>
      obtain ⟨g', hg', _⟩ := Option.bind_eq_some_iff.1 hdata
      obtain ⟨t, _, _, _, _, hcurrent, _⟩ := hfits.data g' hg'
      have hrunnable := hfits.threads t (ChoicePoint.mem_threads_of_current? hcurrent)
      obtain ⟨f, _, hscheduled⟩ := scheduled_ok hwf hrunnable hcurrent
      simp only [hdata, hscheduled]
      split
      · next hfresh => cases hfresh
      · exact ⟨_, _, rfl⟩
    | none =>
      cases hschedule : a.schedule.advance? with
      | none =>
        simp only [hdata, hschedule]
        exact ⟨none, _, rfl⟩
      | some schedule =>
        have hadvance := hschedule
        rw [hg] at hadvance
        obtain ⟨_, t, _, hcurrent⟩ := ChoicePoint.advance?_thread hadvance
        have hmem := ChoicePoint.mem_threads_of_current? hcurrent
        rw [ChoicePoint.threads_advance? hschedule] at hmem
        obtain ⟨f, m, stmt, hf, hm, hstmt, hat⟩ := hwf.statement (hfits.threads t hmem)
        have hscheduled := scheduled_eq_ok.2 ⟨hcurrent, hf⟩
        simp only [hdata, hschedule, hscheduled, hx.program, hat, Option.bind_some]
        cases hchoice : stmt.value.choice? with
        | none => exact ⟨_, _, rfl⟩
        | some range =>
          obtain ⟨min, max⟩ := range
          obtain ⟨g', random, hopen⟩ := Interval.openChoice_isSome x.random f.choiceId
            (hp.choice hm hstmt hchoice)
          simp only [hopen]
          exact ⟨_, _, rfl⟩

theorem Explorer.Ready.forward_ok (hp : p.Sound) (hx : x.Ready p mode) :
    ∃ moved x', x.forward = (.ok moved, x') := by
  obtain ⟨move, y, hdecide⟩ := hx.decide_ok hp
  unfold Explorer.forward
  rw [hdecide]
  cases move with
  | none => exact ⟨false, y, rfl⟩
  | some move =>
    obtain ⟨a, a', random, ha, htakes, rfl⟩ := decide_takes hdecide
    have htop := hx.trail.top
    have hwf : p.WellFormed x.state := htop.wellFormed hp
    have hfits : a.Fits p x.state := htop.agenda a ha
    rw [hx.program] at htakes
    have hrunnable := htakes.runnable hfits
    obtain ⟨f, _, stmt, hf, _, _, hstmt⟩ := hwf.statement hrunnable
    cases htakes.frame.symm.trans hf
    have hoffers : p.Offers x.state move.thread move.data :=
      ⟨move.frame, stmt, hf, hstmt, htakes.offers hfits hstmt⟩
    obtain ⟨s', fault, hexecuted, hwf'⟩ := execute_wellFormed hp hwf x.layout hrunnable hoffers
    obtain ⟨f', hf'⟩ := fingerprint_ok hx.masks x.model.policy hwf'.toTyped
    have hsuccessor : Explorer.successor { x.setAgenda (some a') with random } move =
        .ok ⟨s', fault, f'⟩ := by
      refine bind_eq_ok.2 ⟨(s', fault), mapError_eq_ok.2 ?_, ?_⟩
      · change x.model.program.execute x.layout x.state move.thread move.data = _
        rw [hx.program]
        exact hexecuted
      · exact bind_eq_ok.2 ⟨f', mapError_eq_ok.2 hf', rfl⟩
    simp only [hsuccessor]
    exact ⟨true, _, rfl⟩

theorem Explorer.Ready.forward (hx : x.Ready p mode) {moved : Bool}
    (h : x.forward = (.ok moved, x')) : x'.Ready p mode := by
  have hgenuine := forward_genuine hx.toGenuine h
  cases moved with
  | false =>
    obtain ⟨agenda, rfl, _, hsame⟩ := decide_none (forward_false h)
    refine ⟨hgenuine, hx.schedules.setAgenda fun a ha => ?_, hx.masks⟩
    obtain ⟨b, hb, rfl⟩ := hsame a ha
    exact hx.schedules _ List.mem_cons_self b hb
  | true =>
    obtain ⟨a, move, a', node, f, hadvances⟩ := forward_true h
    have hback : (x.trail.setAgenda (some a')).Schedules := by
      refine hx.schedules.setAgenda fun b hb => ?_
      cases hb
      exact hadvances.takes.schedules (hx.schedules _ List.mem_cons_self a hadvances.agenda)
    refine ⟨hgenuine, ?_, hadvances.model ▸ hx.masks⟩
    rw [hadvances.trail]
    intro n hn b hb
    rcases List.mem_cons.1 hn with rfl | hn
    · rw [hadvances.fresh] at hb
      exact Agenda.ofState_schedules hb
    · exact hback n hn b hb

theorem Explorer.start_ok (hp : p.Sound) (hc : c.filter.firstUnknown? p = none)
    (hashing : Hashing) : ∃ x, Explorer.start p c hashing = .ok x := by
  obtain ⟨masks, hmasks⟩ := Masks.ofProgram_ok hc
  have hcover := Masks.ofProgram_cover hmasks
  obtain ⟨s, hs, hwf⟩ := initialState_wellFormed hp
  obtain ⟨f, hf⟩ := fingerprint_ok hcover c.policy hwf.toTyped
  have hmodel : Model.ofConfig p c hashing = .ok ⟨p, c.symmetry, c.policy, masks, _⟩ :=
    bind_eq_ok.2 ⟨masks, hmasks, rfl⟩
  unfold Explorer.start
  rw [mapError_eq_ok.2 hmodel, mapError_eq_ok.2 hs]
  change ∃ x, ((s.fingerprint c.policy masks).mapError ExploreError.mask >>= _) = .ok x
  rw [mapError_eq_ok.2 hf]
  exact ⟨_, rfl⟩

theorem Explorer.Started.ready (h : x.Started p c) : x.Ready p c.symmetry := by
  obtain ⟨s₀, f, hstarts⟩ := h.starts
  refine ⟨hstarts.genuine, ?_, Masks.ofProgram_cover hstarts.masks⟩
  intro n hn a ha
  rw [hstarts.below] at hn
  obtain rfl := List.mem_singleton.1 hn
  rw [hstarts.agenda] at ha
  exact Agenda.ofState_schedules ha

end Ready

/-- What can become of an explorer and the trails that are kept of it: steps forward and back, trails
kept, taken up again or let go, collections of garbage, and changes of what is decided: schedules of
runnable threads replaced or shuffled, data choices shuffled. -/
inductive Explorer.Leads (x : Explorer) (kept : List Trail) : Explorer → List Trail → Prop where
  | refl : Leads x kept x kept
  | forward {y : Explorer} {held : List Trail} (h : Leads x kept y held) :
      Leads x kept y.forward.2 held
  | backtrack {y y' : Explorer} {held : List Trail} (h : Leads x kept y held)
      (hback : y.backtrack? = some y') : Leads x kept y' held
  | keep {y : Explorer} {held : List Trail} (h : Leads x kept y held) :
      Leads x kept y (y.trail :: held)
  | restore {y : Explorer} {held : List Trail} {trail : Trail} (h : Leads x kept y held)
      (htrail : trail ∈ held) : Leads x kept (y.restore trail) held
  | letGo {y : Explorer} {held rest : List Trail} (h : Leads x kept y held)
      (hrest : rest ⊆ held) : Leads x kept y rest
  | collect {y : Explorer} {held : List Trail} (h : Leads x kept y held) :
      Leads x kept (y.collect held).2 held
  | setSchedule {y : Explorer} {held : List Trail} {g : Listed ThreadId} (h : Leads x kept y held)
      (hg : ∀ t ∈ g.items, t ∈ y.state.runnable) : Leads x kept (y.setSchedule (.thread g)) held
  | shuffleSchedule {y : Explorer} {held : List Trail} (h : Leads x kept y held)
      (source : Random.Source) : Leads x kept (y.shuffleSchedule source).1 held
  | randomizeChoices {y : Explorer} {held : List Trail} (h : Leads x kept y held) (seed : UInt64) :
      Leads x kept (y.randomizeChoices seed) held

/-- An explorer of a program with the trails that are kept of it, at any time of its use. -/
def Explorer.InUse (p : Program) (c : Config) (x : Explorer) (kept : List Trail) : Prop :=
  ∃ x₀ : Explorer, x₀.Started p c ∧ x₀.Leads [] x kept

section Use

variable {p : Program} {mode : Symmetry} {c : Config} {x x' : Explorer} {kept : List Trail}

theorem Explorer.Ready.backtrack? (hx : x.Ready p mode) (h : x.backtrack? = some x') :
    x'.Ready p mode := by
  have hgenuine := backtrack?_genuine hx.toGenuine h
  obtain ⟨trail, htrail, rfl⟩ := Option.map_eq_some_iff.1 h
  exact ⟨hgenuine, hx.schedules.back? htrail, hx.masks⟩

theorem Explorer.Ready.setSchedule (hx : x.Ready p mode)
    (hg : ∀ t ∈ g.items, t ∈ x.state.runnable) : (x.setSchedule (.thread g)).Ready p mode := by
  refine ⟨setSchedule_genuine hx.toGenuine hg, hx.schedules.setAgenda fun a ha => ?_, hx.masks⟩
  cases ha
  exact ⟨g, rfl⟩

theorem Explorer.Ready.shuffleSchedule (hx : x.Ready p mode) (source : Random.Source) :
    (x.shuffleSchedule source).1.Ready p mode := by
  refine ⟨shuffleSchedule_genuine hx.toGenuine source, ?_, ?_⟩
  · unfold Explorer.shuffleSchedule
    split
    · exact hx.schedules
    · next a ha =>
      refine hx.schedules.setAgenda fun b hb => ?_
      cases hb
      obtain ⟨g, hg⟩ := hx.schedules _ List.mem_cons_self a ha
      rw [hg]
      exact ⟨_, rfl⟩
  · unfold Explorer.shuffleSchedule
    split <;> exact hx.masks

theorem Explorer.InUse.ready (hp : p.Sound) (h : Explorer.InUse p c x kept) :
    x.Ready p c.symmetry ∧ ∀ t ∈ kept, t.Genuine p c.symmetry ∧ t.Schedules := by
  obtain ⟨x₀, hstarted, hleads⟩ := h
  induction hleads with
  | refl => exact ⟨hstarted.ready, by simp⟩
  | @forward x kept _ ih =>
    obtain ⟨moved, x', hforward⟩ := ih.1.forward_ok hp
    have hsnd : x.forward.2 = x' := congrArg Prod.snd hforward
    exact ⟨hsnd ▸ ih.1.forward hforward, ih.2⟩
  | backtrack _ hback ih => exact ⟨ih.1.backtrack? hback, ih.2⟩
  | keep _ ih =>
    refine ⟨ih.1, fun t ht => ?_⟩
    rcases List.mem_cons.1 ht with rfl | ht
    · exact ⟨ih.1.trail, ih.1.schedules⟩
    · exact ih.2 t ht
  | restore _ htrail ih =>
    obtain ⟨hgenuine, hschedules⟩ := ih.2 _ htrail
    exact ⟨⟨restore_genuine ih.1.toGenuine hgenuine, hschedules, ih.1.masks⟩, ih.2⟩
  | letGo _ hrest ih => exact ⟨ih.1, fun t ht => ih.2 t (hrest ht)⟩
  | @collect x kept _ ih =>
    have hgenuine := collect_genuine ih.1.toGenuine kept
    exact ⟨⟨hgenuine, ih.1.schedules.collect kept, ih.1.masks⟩, ih.2⟩
  | setSchedule _ hg ih => exact ⟨ih.1.setSchedule hg, ih.2⟩
  | shuffleSchedule _ source ih => exact ⟨ih.1.shuffleSchedule source, ih.2⟩
  | randomizeChoices _ _ ih =>
    exact ⟨⟨⟨ih.1.program, ih.1.symmetry, ih.1.trail⟩, ih.1.schedules, ih.1.masks⟩, ih.2⟩

end Use

/-- A state in which everything is as the program declares it and no reference leads nowhere. -/
structure Program.Consistent (p : Program) (s : State) : Prop where
  statics : ∀ r ∈ s.statics, ∃ decl, p.classes[r.owner]? = some decl ∧ Fits r.fields decl.statics
  objects : ∀ h o, s.heap.get? h = some o →
    ∃ decl, p.classes[o.owner]? = some decl ∧ o.payload.Typed decl
  references : ∀ h, s.Reaches h → s.heap.isLive h = true
  waits : ∀ thread ∈ s.threads, ∀ h, thread.status = .blocked (.object h) → s.heap.isLive h = true
  calls : ∀ thread ∈ s.threads, ∀ f, thread.frames.head? = some f →
    ∃ m, p.methods[f.method]? = some m ∧ f.pc < m.body.length ∧
      f.locals.length = m.locals.length
  finished : ∀ thread ∈ s.threads, thread.frames = [] ↔ thread.status = .terminated

section Consistent

variable {p : Program} {mode : Symmetry} {s : State} {c : Config} {x x' : Explorer}
  {kept : List Trail}

theorem Program.WellFormed.consistent (hs : p.WellFormed s) : p.Consistent s where
  statics := hs.statics
  objects := hs.objects
  references := Walk.reached_isLive hs
  waits := fun _ hthread h hstatus =>
    Walk.reached_isLive hs h (Walk.blocked_reached hs hthread hstatus)
  calls := by
    intro thread hthread f hf
    obtain ⟨m, hm, hlocals⟩ := hs.frames thread hthread f (List.mem_of_mem_head? hf)
    have hpc := (hs.calls thread hthread).top f hf
    rw [Program.bodyLength, hm, Option.map_some, Option.getD_some] at hpc
    exact ⟨m, hm, hpc, hlocals⟩
  finished := by
    intro thread hthread
    rw [(hs.calls thread hthread).finished]
    simp [Thread.isAlive]

theorem Genuine.reached {nodes : List Node} (h : Genuine p mode nodes) {n : Node}
    (hn : n ∈ nodes) : ∃ path, n.Reached p mode path := by
  induction nodes with
  | nil => cases hn
  | cons m rest ih =>
    rcases List.mem_cons.1 hn with rfl | hn
    · exact ⟨_, h.1⟩
    · exact ih h.2.2 hn

end Consistent

/-- A program that was accepted can be explored under every configuration whose filter names it
knows. However its explorer is used, each state of the trail is consistent, a step either is taken
or none is left, and the invariants can be evaluated. -/
theorem accepted_never_stuck {source path : String} {p : Program}
    (hp : Program.ofSource source path = .ok p) {c : Config}
    (hc : c.filter.firstUnknown? p = none) :
    (∀ hashing, ∃ x, Explorer.start p c hashing = .ok x) ∧
      ∀ x kept, Explorer.InUse p c x kept →
        (∀ n ∈ x.trail.nodes, p.Consistent n.state) ∧
        (∃ moved x', x.forward = (.ok moved, x')) ∧ ∃ place, x.violated = .ok place := by
  have hsound := ofSource_sound hp
  refine ⟨Explorer.start_ok hsound hc, fun x kept hx => ?_⟩
  have hready := (hx.ready hsound).1
  have hwf : ∀ n ∈ x.trail.nodes, p.WellFormed n.state := by
    intro n hn
    obtain ⟨_, hreached⟩ := hready.trail.reached (List.mem_reverse.1 hn)
    exact hreached.wellFormed hsound
  have htop : p.WellFormed x.state := hready.trail.top.wellFormed hsound
  obtain ⟨place, hplace⟩ := violated_ok hsound htop
  refine ⟨fun n hn => (hwf n hn).consistent, hready.forward_ok hsound, place, ?_⟩
  rw [Explorer.violated, hready.program]
  exact mapError_eq_ok.2 hplace

/-- Two threads put objects into a set under its lock, one of them as often as it chooses. -/
def gatheringSource : String :=
  "static ref pool\nclass Node \x7b\n  int weight\n  ref next\n\x7d\n" ++
  "invariant size(pool) > 0\n" ++
  "thread a \x7b\n  pool = newset\n  k = choose(1, 2)\n  again:\n  n = new Node\n" ++
  "  n.next = m\n  m = n\n  lock pool\n  add pool, n\n  unlock pool\n  k = k - 1\n" ++
  "  if k > 0 goto again\n\x7d\n" ++
  "thread b \x7b\n  n = new Node\n  n.weight = 1\n  lock pool\n  add pool, n\n" ++
  "  unlock pool\n\x7d\n"

/-- The links between the objects may be filtered. -/
theorem gathering_never_stuck : ∃ p,
    Program.ofSource gatheringSource "gathering" = .ok p ∧
    Filter.firstUnknown? p ⟨["Node.next"], []⟩ = none ∧
    (∀ hashing, ∃ x, Explorer.start p { Config.default with filteredFields := ["Node.next"] } hashing =
      .ok x) ∧
    ∀ x kept, Explorer.InUse p { Config.default with filteredFields := ["Node.next"] } x kept →
      (∀ n ∈ x.trail.nodes, p.Consistent n.state) ∧
      (∃ moved x', x.forward = (.ok moved, x')) ∧ ∃ place, x.violated = .ok place := by
  have hknown : (Program.ofSource gatheringSource "gathering").toOption.any
      (fun p => (Filter.firstUnknown? p ⟨["Node.next"], []⟩).isNone) = true := by
    decide +kernel
  cases hp : Program.ofSource gatheringSource "gathering" with
  | error e =>
    rw [hp] at hknown
    cases hknown
  | ok p =>
    rw [hp] at hknown
    have hc := Option.isNone_iff_eq_none.1 hknown
    exact ⟨p, rfl, hc, accepted_never_stuck hp hc⟩

end Interleave
