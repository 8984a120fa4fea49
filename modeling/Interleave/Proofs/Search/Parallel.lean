import Interleave.Proofs.Search.Telling
import Interleave.Proofs.Search.Turns

set_option autoImplicit false

/-! A search and a variant of it, with another table of visited states or other settings, do the
same as long as nothing looks at what is varied. -/

namespace Interleave.Search

/-- What two searches may differ in. -/
structure Variant where
  table : StateTable
  stateSet : TableKind
  reportAllErrors : Bool
  deliveries : List Delivery

def vary (s : Search) (v : Variant) : Search :=
  { s with
    explorer := { s.explorer with table := v.table }
    config := { s.config with stateSet := v.stateSet, reportAllErrors := v.reportAllErrors }
    deliveries := v.deliveries }

/-- The part of a search that says which variants of it are looked at. -/
structure Core where
  table : StateTable
  config : Config
  properties : List Property
  listeners : Registry
  deliveries : List Delivery

def core (s : Search) : Core :=
  ⟨s.explorer.table, s.config, s.properties, s.listeners, s.deliveries⟩

abbrev Granted (Guard : StateTable → Config → List Violation → Prop) (s : Search) : Prop :=
  Guard s.explorer.table s.config s.session.errors

/-- An action that does the same in a search and in the variants that fit it, as long as it leads to
where the guard allows; what it leads away from was allowed too. -/
structure Parallel {α : Type} (Fits : Core → Variant → Prop)
    (Guard : StateTable → Config → List Violation → Prop) (m : Run α) : Prop where
  same : ∀ (s : Search) (v : Variant), Fits s.core v → Granted Guard (s.perform m).2 →
    ∃ v', Fits (s.perform m).2.core v' ∧
      (s.vary v).perform m = ((s.perform m).1, (s.perform m).2.vary v')
  back : ∀ s : Search, Granted Guard (s.perform m).2 → Granted Guard s

section Rules

variable {α β : Type} {Fits : Core → Variant → Prop}
  {Guard : StateTable → Config → List Violation → Prop} {m : Run α} {f : Session → Session}

theorem Parallel.pure (a : α) : Parallel Fits Guard (Pure.pure a) :=
  ⟨fun _ v hv _ => ⟨v, hv, rfl⟩, fun _ h => h⟩

theorem Parallel.throw (e : SearchError) : Parallel Fits Guard (MonadExcept.throw e : Run α) :=
  ⟨fun _ v hv _ => ⟨v, hv, rfl⟩, fun _ h => h⟩

theorem Parallel.bind {f : α → Run β} (h : Parallel Fits Guard m)
    (hf : ∀ a, Parallel Fits Guard (f a)) : Parallel Fits Guard (m >>= f) := by
  refine ⟨fun s v hv hguard => ?_, fun s hguard => ?_⟩
  · rw [perform_bind] at hguard ⊢
    rw [perform_bind]
    have hsame := h.same s v hv
    rcases hm : s.perform m with ⟨e | a, t⟩
    · rw [hm] at hguard hsame
      obtain ⟨v', hv', heq⟩ := hsame hguard
      exact ⟨v', hv', by rw [heq]⟩
    · rw [hm] at hguard hsame
      obtain ⟨v', hv', heq⟩ := hsame ((hf a).back t hguard)
      rw [heq]
      exact (hf a).same t v' hv' hguard
  · rw [perform_bind] at hguard
    refine h.back s ?_
    rcases hm : s.perform m with ⟨e | a, t⟩
    · rwa [hm] at hguard
    · rw [hm] at hguard
      exact (hf a).back t hguard

theorem Parallel.get_bind {f : Search → Run β}
    (h : ∀ s v, Fits s.core v → Parallel Fits Guard (f s) ∧ f (s.vary v) = f s)
    (hback : ∀ s, Granted Guard (s.perform (f s)).2 → Granted Guard s) :
    Parallel Fits Guard (get >>= f) := by
  refine ⟨fun s v hv hguard => ?_, hback⟩
  obtain ⟨hparallel, heq⟩ := h s v hv
  obtain ⟨v', hv', hsame⟩ := hparallel.same s v hv hguard
  refine ⟨v', hv', ?_⟩
  change (s.vary v).perform (f (s.vary v)) = _
  rw [heq]
  exact hsame

/-- Most actions read only what is the same in all variants. -/
theorem Parallel.read {f : Search → Run β} (h : ∀ s, Parallel Fits Guard (f s))
    (hf : ∀ s v, Fits s.core v → f (s.vary v) = f s) : Parallel Fits Guard (get >>= f) :=
  .get_bind (fun s v hv => ⟨h s, hf s v hv⟩) fun s => (h s).back s

theorem Parallel.modifySession
    (hback : ∀ table config b, Guard table config (f b).errors → Guard table config b.errors) :
    Parallel Fits Guard (modifySession f) :=
  ⟨fun _ v hv _ => ⟨v, hv, rfl⟩, fun _ h => hback _ _ _ h⟩

theorem parallel_modifySession (hf : ∀ b, (f b).errors = b.errors) :
    Parallel Fits Guard (modifySession f) :=
  .modifySession fun _ _ b h => hf b ▸ h

theorem parallel_modifySession_bind {g : Unit → Run β} (hf : ∀ b, (f b).errors = b.errors)
    (h : Parallel Fits Guard (g ())) : Parallel Fits Guard (modifySession f >>= g) :=
  (parallel_modifySession hf).bind fun _ => h

theorem parallel_note (level : Level) (origin message : String) (values : List (String × String)) :
    Parallel Fits Guard (note level origin message values) :=
  ⟨fun _ v hv _ => ⟨v, hv, rfl⟩, fun _ h => h⟩

theorem parallel_askMemory : Parallel Fits Guard askMemory :=
  ⟨fun _ v hv _ => ⟨v, hv, rfl⟩, fun _ h => h⟩

theorem parallel_withExplorer {f : Explorer → α × Explorer}
    (hf : ∀ x table, f { x with table } = ((f x).1, { (f x).2 with table })) :
    Parallel Fits Guard (withExplorer f) := by
  have htable : ∀ x, (f x).2.table = x.table := fun x =>
    congrArg (·.2.table) (hf x x.table)
  refine ⟨fun s v hv _ => ⟨v, ?_, ?_⟩, fun s hguard => ?_⟩
  · change Fits ⟨(f s.explorer).2.table, s.config, s.properties, s.listeners, s.deliveries⟩ v
    rw [htable]
    exact hv
  · change (_, Search.mk (f { s.explorer with table := v.table }).2 _ _ _ _ _ _ _ _ _) = _
    rw [hf]
    rfl
  · change Guard (f s.explorer).2.table s.config s.session.errors at hguard
    rwa [htable] at hguard

end Rules

/-- What has to be known of the variants: steps and listeners do not tell them apart. -/
structure Lockstep (Fits : Core → Variant → Prop)
    (Guard : StateTable → Config → List Violation → Prop) : Prop where
  forgets : ∀ {table c errors e}, Guard table c (errors ++ [e]) → Guard table c errors
  steps : Parallel Fits Guard (withExplorer Explorer.forward)
  reacts : ∀ {core v}, Fits core v → ∀ entry ∈ core.listeners, ∀ c : Callback,
    c.explorer.table = core.table →
    entry.answer { c with explorer := { c.explorer with table := v.table } } v.deliveries =
      entry.answer c core.deliveries ∧
    Fits { core with deliveries := ⟨entry.id, c⟩ :: core.deliveries }
      { v with deliveries :=
        ⟨entry.id, { c with explorer := { c.explorer with table := v.table } }⟩ :: v.deliveries }

/-- Without variants only the guard is looked at. -/
theorem Lockstep.none {Fits : Core → Variant → Prop}
    {Guard : StateTable → Config → List Violation → Prop} (h : Lockstep Fits Guard) :
    Lockstep (fun _ _ => False) Guard :=
  ⟨h.forgets, ⟨fun _ _ hv => hv.elim, h.steps.back⟩, fun hv => hv.elim⟩

section Actions

variable {Fits : Core → Variant → Prop} {Guard : StateTable → Config → List Violation → Prop}

theorem parallel_checkTerminated : Parallel Fits Guard checkTerminated := by
  have hend : Parallel Fits Guard (get >>= fun s => pure s.session.terminated) :=
    .read (fun _ => .pure _) fun _ _ _ => rfl
  have hstop :
      Parallel Fits Guard (modifySession fun b => { b with terminated := true, done := true }) :=
    parallel_modifySession fun _ => rfl
  refine .read (fun s => ?_) fun _ _ _ => rfl
  split
  · split
    · exact (parallel_note _ _ _ _).bind fun _ => hstop.bind fun _ => hend
    · exact hstop.bind fun _ => hend
  · exact hend

theorem parallel_takeIgnored : Parallel Fits Guard takeIgnored :=
  .read (fun _ => parallel_modifySession_bind (fun _ => rfl) (.pure _)) fun _ _ _ => rfl

theorem Bounded.parallel_finish (q : Bounded) : Parallel Fits Guard q.finish :=
  (parallel_note _ _ _ _).bind fun _ => .pure _

theorem perform_deliver (s : Search) (c : Callback) (entry : Registered) :
    s.perform (deliver c entry) =
      (match (entry.answer c s.deliveries).refusal with
        | some reason => .error (.listener entry.listener.name c.event.name reason)
        | none => .ok (),
      { s with
        deliveries := ⟨entry.id, c⟩ :: s.deliveries
        stop := s.stop || (entry.answer c s.deliveries).stop
        journal := (entry.answer c s.deliveries).notes.foldl Journal.add s.journal }) := by
  change Search.perform _ (match (entry.answer c s.deliveries).refusal with
    | some reason => MonadExcept.throw _
    | none => Pure.pure ()) = _
  cases (entry.answer c s.deliveries).refusal <;> rfl

theorem deliverAll_kept (c : Callback) (entries : List Registered) (s : Search) :
    ∃ deliveries stop journal,
      (s.perform (deliverAll c entries)).2 = { s with deliveries, stop, journal } := by
  induction entries generalizing s with
  | nil => exact ⟨_, _, _, rfl⟩
  | cons entry rest ih =>
    rw [deliverAll, perform_bind, perform_deliver]
    cases (entry.answer c s.deliveries).refusal with
    | some reason => exact ⟨_, _, _, rfl⟩
    | none =>
      obtain ⟨deliveries, stop, journal, heq⟩ := ih _
      exact ⟨deliveries, stop, journal, heq⟩

theorem perform_emit (s : Search) (event : Event) :
    s.perform (emit event) =
      s.perform (deliverAll ⟨event, s.session, s.explorer⟩ (Registry.order s.listeners event)) := by
  rw [emit, perform_get_bind]
  split
  · next hnone =>
    rw [hnone]
    rfl
  · rfl

variable (h : Lockstep Fits Guard)

include h

theorem deliverAll_parallel {c : Callback} {entries : List Registered} {s : Search} {v : Variant}
    (hv : Fits s.core v) (hc : c.explorer.table = s.explorer.table)
    (hentries : ∀ entry ∈ entries, entry ∈ s.listeners) :
    ∃ v', Fits (s.perform (deliverAll c entries)).2.core v' ∧
      (s.vary v).perform
          (deliverAll { c with explorer := { c.explorer with table := v.table } } entries) =
        ((s.perform (deliverAll c entries)).1, (s.perform (deliverAll c entries)).2.vary v') := by
  induction entries generalizing s v with
  | nil => exact ⟨v, hv, rfl⟩
  | cons entry rest ih =>
    obtain ⟨hsame, hnext⟩ := h.reacts hv entry (hentries entry List.mem_cons_self) c hc
    have hsame' : entry.answer { c with explorer := { c.explorer with table := v.table } }
      (s.vary v).deliveries = entry.answer c s.deliveries := hsame
    rw [deliverAll, deliverAll, perform_bind, perform_bind, perform_deliver, perform_deliver, hsame']
    cases (entry.answer c s.deliveries).refusal with
    | some reason => exact ⟨_, hnext, rfl⟩
    | none =>
      exact ih (s := { s with
        deliveries := ⟨entry.id, c⟩ :: s.deliveries
        stop := s.stop || (entry.answer c s.deliveries).stop
        journal := (entry.answer c s.deliveries).notes.foldl Journal.add s.journal }) hnext hc
        fun other hother => hentries other (List.mem_cons_of_mem entry hother)

theorem parallel_emit (event : Event) : Parallel Fits Guard (emit event) := by
  refine ⟨fun s v hv _ => ?_, fun s hguard => ?_⟩
  · rw [perform_emit, perform_emit]
    refine deliverAll_parallel h hv rfl fun entry hentry => ?_
    cases event <;> simpa [Registry.order] using hentry
  · obtain ⟨deliveries, stop, journal, heq⟩ :=
      deliverAll_kept ⟨event, s.session, s.explorer⟩ (Registry.order s.listeners event) s
    rw [perform_emit, heq] at hguard
    exact hguard

theorem parallel_forward : Parallel Fits Guard forward := by
  have hnote : Parallel Fits Guard noteStep := by
    refine .read (fun s => ?_) fun _ _ _ => rfl
    split
    · split
      · exact parallel_note _ _ _ _
      · exact .pure _
    · exact .pure _
  refine h.steps.bind fun r => ?_
  split
  · split
    · exact hnote.bind fun _ => .pure _
    · exact .pure _
  · exact .read (fun _ => .throw _) fun _ _ _ => rfl

theorem parallel_processed : Parallel Fits Guard processed :=
  parallel_modifySession_bind (fun _ => rfl) (parallel_emit h _)

theorem parallel_stored : Parallel Fits Guard stored :=
  .read (fun _ => (parallel_emit h _).bind fun _ => .pure _) fun _ _ _ => rfl

theorem parallel_backtrack : Parallel Fits Guard backtrack := by
  refine (parallel_withExplorer fun x table => ?_).bind fun moved => ?_
  · simp only [Explorer.backtrack?]
    cases x.trail.back? <;> rfl
  split
  · refine .read (fun _ => parallel_modifySession_bind (fun _ => rfl) ?_) fun _ _ _ => rfl
    exact (parallel_emit h _).bind fun _ => .pure _
  · exact .pure _

theorem parallel_restore (trail : Trail) : Parallel Fits Guard (restore trail) :=
  (parallel_withExplorer fun _ _ => rfl).bind fun _ =>
    .read (fun _ => parallel_modifySession_bind (fun _ => rfl) (parallel_emit h _)) fun _ _ _ => rfl

theorem parallel_constraintHit (c : Constraint) : Parallel Fits Guard (constraintHit c) := by
  refine (parallel_note _ _ _ _).bind fun _ => (parallel_emit h _).bind fun _ => ?_
  refine parallel_modifySession fun b => ?_
  split
  · rfl
  · rfl

theorem parallel_checkMemory (held : Unit → List Trail) :
    Parallel Fits Guard (checkMemory held) := by
  refine .read (fun s => ?_) fun _ _ _ => rfl
  dsimp only
  split
  · exact .pure _
  refine parallel_askMemory.bind fun used => ?_
  split
  · exact .pure _
  split
  · exact .pure _
  refine (parallel_withExplorer fun _ _ => rfl).bind fun _ => parallel_askMemory.bind fun _ =>
    (parallel_note _ _ _ _).bind fun _ => ?_
  split
  · exact .pure _
  · exact (parallel_note _ _ _ _).bind fun _ => (parallel_constraintHit h _).bind fun _ => .pure _

theorem parallel_checkLimits (x : Explorer) (held : Unit → List Trail) :
    Parallel Fits Guard (checkLimits x held) := by
  have hdepth : ∀ limit, Parallel Fits Guard (checkDepth limit x) := by
    intro limit
    unfold checkDepth
    split
    · split
      · exact parallel_constraintHit h _
      · exact .pure _
    · exact .pure _
  refine .read (fun s => (hdepth _).bind fun _ => (parallel_checkMemory h held).bind fun _ => ?_)
    fun _ _ _ => rfl
  split
  · exact parallel_modifySession fun _ => rfl
  · exact .pure _

theorem Walks.parallel_finish (k : Walks) : Parallel Fits Guard k.finish := by
  refine .read (fun s => (parallel_note _ _ _ _).bind fun _ => ?_) fun _ _ _ => rfl
  split
  · exact .pure _
  · exact (parallel_restore h _).bind fun _ => .pure _

theorem Walks.parallel_next (k : Walks) : Parallel Fits Guard k.next := by
  refine .read (fun s => .read (fun s' => ?_) fun _ _ _ => rfl) fun _ _ _ => rfl
  split
  · exact .pure _
  split
  · exact (parallel_constraintHit h _).bind fun _ => .pure _
  refine parallel_checkTerminated.bind fun ended => ?_
  split
  · exact .pure _
  · exact .read (fun _ => .pure _) fun _ _ _ => rfl

theorem Bounded.parallel_take (q : Bounded) : Parallel Fits Guard q.take := by
  have hraise : Parallel Fits Guard q.raise := by
    unfold raise
    split
    · exact q.parallel_finish
    refine .read (fun s => ?_) fun _ _ _ => rfl
    split
    · split
      · exact (parallel_note _ _ _ _).bind fun _ => (parallel_constraintHit h _).bind fun _ =>
          q.parallel_finish
      · exact (parallel_note _ _ _ _).bind fun _ => .pure _
    · exact (parallel_note _ _ _ _).bind fun _ => .pure _
  refine .read (fun s => ?_) fun _ _ _ => rfl
  split
  · exact q.parallel_finish
  refine parallel_checkTerminated.bind fun ended => ?_
  split
  · exact q.parallel_finish
  split
  · exact hraise
  · refine (parallel_restore h _).bind fun _ =>
      (parallel_withExplorer fun _ _ => rfl).bind fun _ => ?_
    exact .read (fun _ => .pure _) fun _ _ _ => rfl

theorem Bounded.parallel_defer (q : Bounded) : Parallel Fits Guard q.defer := by
  refine .read (fun s => ?_) fun _ _ _ => rfl
  dsimp only
  split
  · split
    · exact .pure _
    · exact (parallel_stored h).bind fun _ =>
        (parallel_withExplorer fun _ _ => rfl).bind fun _ => .pure _
  · exact .pure _

theorem Walks.parallel_start : Parallel Fits Guard Walks.start :=
  .read (fun _ => (parallel_withExplorer fun _ _ => rfl).bind fun _ =>
    (parallel_stored h).bind fun _ => (parallel_note _ _ _ _).bind fun _ => .pure _) fun _ _ _ => rfl

theorem Bounded.parallel_start : Parallel Fits Guard Bounded.start := by
  refine .read (fun s => ?_) fun _ _ _ => rfl
  dsimp only
  split
  · exact .pure _
  · exact (parallel_stored h).bind fun _ => .pure _

theorem parallel_frontier (strategy : Strategy) : Parallel Fits Guard (do
    note .info "search" "search started" [("strategy", strategy.label)]
    emit .searchStarted
    match strategy with
    | .dfs => return Frontier.depthFirst
    | .random => return .walks (← Walks.start)
    | .contextBounded => return .bounded (← Bounded.start)) := by
  refine (parallel_note _ _ _ _).bind fun _ => (parallel_emit h _).bind fun _ => ?_
  cases strategy with
  | dfs => exact .pure _
  | random => exact (Walks.parallel_start h).bind fun _ => .pure _
  | contextBounded => exact (Bounded.parallel_start h).bind fun _ => .pure _

theorem parallel_record (property message : String) :
    Parallel Fits Guard (record property message) := by
  refine .read (fun s => (parallel_note _ _ _ _).bind fun _ => ?_) fun _ _ _ => rfl
  exact Parallel.bind (.modifySession fun _ _ _ => h.forgets) fun _ => parallel_emit h _

end Actions

section Checks

variable {Fits : Core → Variant → Prop} {Guard : StateTable → Config → List Violation → Prop}
  (h : Lockstep Fits Guard)

def settle (c : Config) (x : Explorer) (held : Unit → List Trail) (violated : Bool) : Run Unit :=
  if violated && !c.reportAllErrors then
    modifySession fun b => { b with done := true }
  else do
    if violated then
      modifySession fun b => { b with ignored := true }
    checkLimits x held

theorem Property.check_table {p : Property} (hp : p ∈ Property.defaults) (b : Session)
    (x : Explorer) (table : StateTable) : p.check b { x with table } = p.check b x := by
  simp only [Property.defaults, List.mem_cons, List.not_mem_nil, or_false] at hp
  rcases hp with rfl | rfl | rfl
  all_goals rfl

theorem parallel_checkProperty {i : Nat} {p : Property}
    (hp : ∀ core v, Fits core v →
      v.reportAllErrors = core.config.reportAllErrors ∧ p ∈ Property.defaults) :
    Parallel Fits Guard (checkProperty i p) := by
  have hremember : ∀ message, Parallel Fits Guard (remember i message) := fun _ =>
    ⟨fun _ v hv _ => ⟨v, hv, rfl⟩, fun _ h => h⟩
  refine .read (fun s => ?_) fun s v hv => ?_
  · split
    · exact .throw _
    · exact .pure _
    · refine (hremember _).bind fun _ => ?_
      split
      · refine .read (fun _ => ?_) fun _ _ _ => rfl
        dsimp only
        split
        · exact (hremember _).bind fun _ => .pure _
        · exact .pure _
      · exact .pure _
  · obtain ⟨hreport, hp⟩ := hp _ v hv
    have hcheck : p.check (s.vary v).session (s.vary v).explorer = p.check s.session s.explorer :=
      Property.check_table hp _ _ _
    have hall : (s.vary v).config.reportAllErrors = s.config.reportAllErrors := hreport
    rw [hcheck, hall]
    rfl

include h

theorem parallel_checkProperties {i : Nat} {l : List Property}
    (hl : ∀ core v, Fits core v →
      v.reportAllErrors = core.config.reportAllErrors ∧ ∀ p ∈ l, p ∈ Property.defaults) :
    Parallel Fits Guard (checkProperties i l) := by
  induction l generalizing i with
  | nil => exact .pure _
  | cons p rest ih =>
    have hp : ∀ core v, Fits core v →
        v.reportAllErrors = core.config.reportAllErrors ∧ p ∈ Property.defaults := fun core v hv =>
      ⟨(hl core v hv).1, (hl core v hv).2 p List.mem_cons_self⟩
    have hrest : Parallel Fits Guard (checkProperties (i + 1) rest) := ih fun core v hv =>
      ⟨(hl core v hv).1, fun q hq => (hl core v hv).2 q (List.mem_cons_of_mem p hq)⟩
    refine (parallel_checkProperty hp).bind fun found => ?_
    cases found with
    | none => exact hrest
    | some message =>
      refine (parallel_record h _ _).bind fun _ => .read (fun s => ?_) fun s v hv => ?_
      · split
        · exact hrest.bind fun _ => .pure _
        · exact .pure _
      · have hall : (s.vary v).config.reportAllErrors = s.config.reportAllErrors := (hl _ v hv).1
        rw [hall]

theorem parallel_settle (c : Config) (x : Explorer) (held : Unit → List Trail) (violated : Bool) :
    Parallel Fits Guard (settle c x held violated) := by
  unfold settle
  split
  · exact parallel_modifySession fun _ => rfl
  · split
    · exact parallel_modifySession_bind (fun _ => rfl) (parallel_checkLimits h _ _)
    · exact parallel_checkLimits h _ _

theorem parallel_afterForward (held : Unit → List Trail)
    (hfits : ∀ core v, Fits core v →
      v.reportAllErrors = core.config.reportAllErrors ∧ core.properties = Property.defaults) :
    Parallel Fits Guard (afterForward held) := by
  have hcheck : ∀ (c : Config) (x : Explorer), Parallel Fits Guard
      (get >>= fun s => checkProperties 0 s.properties >>= settle c x held) := by
    intro c x
    refine .get_bind (fun s v hv => ⟨?_, rfl⟩) fun s => ?_
    · refine (parallel_checkProperties h fun core v' hv' => ?_).bind (parallel_settle h c x held)
      exact ⟨(hfits core v' hv').1, fun p hp => (hfits _ v hv).2 ▸ hp⟩
    · exact ((parallel_checkProperties h.none fun _ _ hv => hv.elim).bind
        (parallel_settle h.none c x held)).back s
  refine .read (fun s => .read (fun _ => parallel_modifySession_bind (fun _ => rfl)
    ((parallel_emit h _).bind fun _ => hcheck _ _)) fun _ _ _ => rfl) fun s v hv => ?_
  have hall : (s.vary v).config.reportAllErrors = s.config.reportAllErrors := (hfits _ v hv).1
  dsimp only
  rw [hall]
  rfl

end Checks

/-- Nothing that is done after a step tells the variants apart either. -/
structure Coupled (Fits : Core → Variant → Prop)
    (Guard : StateTable → Config → List Violation → Prop) : Prop extends Lockstep Fits Guard where
  settles : ∀ held, Parallel Fits Guard (afterForward held)

section Turns

variable {Fits : Core → Variant → Prop} {Guard : StateTable → Config → List Violation → Prop}
  (h : Coupled Fits Guard)

include h

theorem DepthFirst.parallel_turn : Parallel Fits Guard DepthFirst.turn := by
  have hproceed : Parallel Fits Guard (proceed >>= fun _ => pure true) := by
    refine Parallel.bind ((parallel_forward h.toLockstep).bind fun moved => ?_) fun _ => .pure _
    split
    · exact h.settles _
    · exact parallel_processed h.toLockstep
  refine .read (fun s => ?_) fun _ _ _ => rfl
  split
  · exact .pure _
  refine parallel_checkTerminated.bind fun ended => ?_
  split
  · exact .pure _
  refine parallel_takeIgnored.bind fun ignored => .read (fun s => ?_) fun _ _ _ => rfl
  split
  · refine (parallel_backtrack h.toLockstep).bind fun moved => ?_
    split
    · exact .pure _
    · exact hproceed
  · exact hproceed

theorem Walks.parallel_turn (k : Walks) : Parallel Fits Guard k.turn := by
  unfold turn
  split
  · exact k.parallel_next h.toLockstep
  next seen _ =>
  refine parallel_checkTerminated.bind fun ended => ?_
  split
  · exact k.parallel_finish h.toLockstep
  refine (parallel_withExplorer fun x table => ?_).bind fun source => ?_
  · simp only [Explorer.shuffleSchedule]
    cases x.trail.top.agenda <;> rfl
  refine (parallel_forward h.toLockstep).bind fun moved => ?_
  split
  · exact (parallel_processed h.toLockstep).bind fun _ => Walks.parallel_finish h.toLockstep _
  refine (h.settles _).bind fun _ => parallel_takeIgnored.bind fun ignored =>
    .read (fun s => ?_) fun _ _ _ => rfl
  dsimp only
  split
  · exact Walks.parallel_finish h.toLockstep _
  · exact .pure _

theorem Bounded.parallel_turn (q : Bounded) : Parallel Fits Guard q.turn := by
  unfold turn
  split
  · exact q.parallel_take h.toLockstep
  next base _ =>
  refine .read (fun s => ?_) fun _ _ _ => rfl
  split
  · exact .pure _
  refine parallel_checkTerminated.bind fun ended => ?_
  split
  · exact .pure _
  refine (parallel_forward h.toLockstep).bind fun moved => ?_
  split
  · refine (parallel_processed h.toLockstep).bind fun _ => .read (fun s => ?_) fun _ _ _ => rfl
    split
    · exact .pure _
    · exact (parallel_backtrack h.toLockstep).bind fun _ => .pure _
  refine (h.settles _).bind fun _ => .read (fun s => ?_) fun _ _ _ => rfl
  split
  · exact .pure _
  refine parallel_takeIgnored.bind fun ignored => .read (fun s => ?_) fun _ _ _ => rfl
  dsimp only
  split
  · exact (parallel_backtrack h.toLockstep).bind fun _ => .pure _
  · exact (Bounded.parallel_defer h.toLockstep _).bind fun _ => .pure _

theorem parallel_turn (f : Frontier) : Parallel Fits Guard (turn f) := by
  cases f with
  | depthFirst =>
    refine (DepthFirst.parallel_turn h).bind fun more => ?_
    split
    · exact .pure _
    · exact .pure _
  | walks k | bounded k => exact (k.parallel_turn h).bind fun _ => .pure _

end Turns

end Interleave.Search
