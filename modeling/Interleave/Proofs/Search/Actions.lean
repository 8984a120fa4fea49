import Interleave.Search.Run

set_option autoImplicit false

namespace Interleave

structure Session.Clean (b : Session) : Prop where
  errors : b.errors = []
  constraints : b.constraints = []
  terminated : b.terminated = false

theorem Report.isPass_ofSession {b : Session} :
    (Report.ofSession b).isPass = true ↔ b.Clean := by
  simp only [isPass, ofSession, Bool.and_eq_true, List.isEmpty_iff, Bool.not_eq_true']
  constructor
  · rintro ⟨⟨herrors, hconstraints⟩, hterminated⟩
    exact ⟨herrors, hconstraints, hterminated⟩
  · rintro ⟨herrors, hconstraints, hterminated⟩
    exact ⟨⟨herrors, hconstraints⟩, hterminated⟩

structure LimitsMet (cut : Option Nat) (before after : List Constraint) : Prop where
  nodup : before.Nodup → after.Nodup
  depth : ∀ d, .depth d ∈ after ↔ .depth d ∈ before ∨ cut = some d

theorem LimitsMet.refl (l : List Constraint) : LimitsMet none l l :=
  ⟨id, fun d => by simp⟩

theorem LimitsMet.trans {cut : Option Nat} {before between after : List Constraint}
    (h : LimitsMet cut before between) (h' : LimitsMet none between after) :
    LimitsMet cut before after := by
  refine ⟨fun hnodup => h'.nodup (h.nodup hnodup), fun d => ?_⟩
  rw [h'.depth, h.depth]
  simp

def Constraint.depth? : Constraint → Option Nat
  | depth limit => some limit
  | memory _ _ | preemptions _ | paths _ => none

theorem LimitsMet.add (c : Constraint) (l : List Constraint) :
    LimitsMet c.depth? l (if c ∈ l then l else l ++ [c]) := by
  have hdepth : ∀ d, Constraint.depth d = c ↔ c.depth? = some d := by
    intro d
    cases c <;> simp [Constraint.depth?, eq_comm]
  split
  · next hmem =>
    refine ⟨id, fun d => ?_⟩
    rw [← hdepth]
    constructor
    · exact .inl
    · rintro (h | rfl)
      · exact h
      · exact hmem
  · next hnew =>
    refine ⟨fun hnodup => ?_, fun d => by rw [← hdepth]; simp⟩
    refine List.nodup_append.2 ⟨hnodup, by simp, fun a ha b hb heq => ?_⟩
    exact hnew (List.mem_singleton.1 hb ▸ heq ▸ ha)

def Explorer.cutOff? (x : Explorer) (limit : Option Nat) : Option Nat :=
  limit.filter fun d => d ≤ x.depth && !x.isEnd

structure Tally where
  backtracked : Nat
  processed : Nat
  restored : Nat

def Stats.retally (b : Stats) (tally : Tally) : Stats :=
  { b with
    backtracked := tally.backtracked
    processed := tally.processed
    restored := tally.restored }

def Stats.tally (b : Stats) : Tally := ⟨b.backtracked, b.processed, b.restored⟩

/-- The message of the violation that a check finds, if there is one. -/
def Property.finds (p : Property) (b : Session) (x : Explorer) :
    Except PropertyError (Option String) :=
  (p.check b x).map fun finding => finding.bind fun f =>
    if f.violated then some (f.remembered.getD ("property " ++ p.name ++ " violated")) else none

@[simp] theorem Property.noUncaughtFault_finds (b : Session) (x : Explorer) :
    noUncaughtFault.finds b x = .ok (x.fault.map fun f =>
      "uncaught " ++ f.kind ++ " in thread " ++ f.thread ++ ": " ++ f.message) := by
  unfold finds noUncaughtFault
  dsimp only
  cases x.fault with
  | none => rfl
  | some f => rfl

@[simp] theorem Property.notDeadlocked_finds (b : Session) (x : Explorer) :
    notDeadlocked.finds b x = .ok (if x.isDeadlocked then
      some "deadlock: live threads remain but none can run" else none) := by
  unfold finds notDeadlocked
  dsimp only
  cases x.isDeadlocked with
  | false => rfl
  | true => rfl

@[simp] theorem Property.endInvariant_finds (b : Session) (x : Explorer) :
    endInvariant.finds b x = if x.isEnd && !x.isDeadlocked then
      (x.violated.mapError .explore).map (·.map fun place =>
        "invariant at " ++ place ++ " does not hold in end state") else .ok none := by
  unfold finds endInvariant
  dsimp only
  cases x.isEnd && !x.isDeadlocked with
  | false => rfl
  | true =>
    cases x.violated with
    | error e => rfl
    | ok place =>
      cases place with
      | none => rfl
      | some place => rfl

namespace Search

def Does {α : Type} (m : Run α) (s : Search) (a : α) (s' : Search) : Prop :=
  s.perform m = (.ok a, s')

section Does

variable {α β : Type} {s s' : Search} {a : α} {b : β} {u : Unit}

theorem does_pure {b : α} : Does (pure a) s b s' ↔ b = a ∧ s' = s := by
  change (Except.ok a, s) = (Except.ok b, s') ↔ _
  simp [eq_comm]

theorem perform_bind (m : Run α) (f : α → Run β) :
    s.perform (m >>= f) = match s.perform m with
      | (.ok a, t) => t.perform (f a)
      | (.error e, t) => (.error e, t) := by
  change StateT.bind m.run (ExceptT.bindCont f) s = _
  unfold StateT.bind perform
  rcases hm : StateT.run m.run s with ⟨_ | _, t⟩
  all_goals
    have hrun : m.run s = _ := hm
    simp only [hrun]
    rfl

theorem does_bind {m : Run α} {f : α → Run β} :
    Does (m >>= f) s b s' ↔ ∃ a t, Does m s a t ∧ Does (f a) t b s' := by
  unfold Does
  rw [perform_bind]
  rcases hm : s.perform m with ⟨e | a, t⟩
  · simp
  · constructor
    · intro h
      exact ⟨a, t, rfl, h⟩
    · rintro ⟨_, _, heq, h⟩
      cases heq
      exact h

theorem does_bind_pure {m : Run α} {f : α → β} :
    Does (m >>= fun a => pure (f a)) s b s' ↔ ∃ a, Does m s a s' ∧ b = f a := by
  simp only [does_bind, does_pure]
  constructor
  · rintro ⟨a, t, hm, rfl, rfl⟩
    exact ⟨a, hm, rfl⟩
  · rintro ⟨a, hm, rfl⟩
    exact ⟨a, s', hm, rfl, rfl⟩

theorem does_get_bind {f : Search → Run β} : Does (get >>= f) s b s' ↔ Does (f s) s b s' := Iff.rfl

theorem does_set_bind {t : Search} {f : Unit → Run β} :
    Does (set t >>= f) s b s' ↔ Does (f ()) t b s' := Iff.rfl

theorem does_modifySession {f : Session → Session} :
    Does (modifySession f) s u s' ↔ s' = { s with session := f s.session } := by
  change (Except.ok (), _) = (Except.ok u, s') ↔ _
  simp [eq_comm]

theorem does_modifySession_bind {f : Session → Session} {g : Unit → Run β} :
    Does (modifySession f >>= g) s b s' ↔ Does (g ()) { s with session := f s.session } b s' := Iff.rfl

theorem does_withExplorer_bind {f : Explorer → α × Explorer} {g : α → Run β} :
    Does (withExplorer f >>= g) s b s' ↔
      Does (g (f s.explorer).1) { s with explorer := (f s.explorer).2 } b s' := Iff.rfl

theorem does_note_bind {level : Level} {origin message : String} {values : List (String × String)}
    {g : Unit → Run β} : Does (note level origin message values >>= g) s b s' ↔
      Does (g ()) { s with journal := s.journal.add ⟨level, origin, message, values⟩ } b s' := Iff.rfl

theorem does_askMemory_bind {g : Option Nat → Run β} : Does (askMemory >>= g) s b s' ↔
    Does (g s.probe.ask.1) { s with probe := s.probe.ask.2 } b s' := Iff.rfl

theorem perform_get_bind {f : Search → Run β} : s.perform (get >>= f) = s.perform (f s) := rfl

theorem perform_remember_bind {i : Nat} {message : Option String} {g : Unit → Run β} :
    s.perform (remember i message >>= g) =
      Search.perform { s with memory := (i, message) :: s.memory.filter (·.1 ≠ i) } (g ()) := rfl

theorem does_throw {e : SearchError} : ¬ Does (throw e) s a s' := by
  change ¬ (Except.error e, s) = (Except.ok a, s')
  simp

end Does

structure Becomes (s : Search) (x : Explorer) (b : Session) (s' : Search) : Prop where
  config : s'.config = s.config
  properties : s'.properties = s.properties
  explorer : s'.explorer = x
  session : s'.session = b

abbrev Keeps (s s' : Search) : Prop := s.Becomes s.explorer s.session s'

section Actions

variable {s s' t : Search} {x : Explorer} {b c : Session} {u : Unit} {held : Unit → List Trail}
  {message : String} {callback : Callback} {ended moved : Bool} {trail : Trail} {l : List Property}

theorem Keeps.refl (s : Search) : s.Keeps s := ⟨rfl, rfl, rfl, rfl⟩

theorem Becomes.trans {y : Explorer} (h : s.Becomes x b t) (h' : t.Becomes y c s') :
    s.Becomes y c s' :=
  ⟨h'.config.trans h.config, h'.properties.trans h.properties, h'.explorer, h'.session⟩

theorem Becomes.keeps (h : s.Becomes x b t) (h' : t.Keeps s') : s.Becomes x b s' := by
  rw [Keeps, h.explorer, h.session] at h'
  exact h.trans h'

theorem Becomes.modifySession (h : s.Becomes x b t) {f : Session → Session}
    (h' : Does (modifySession f) t u s') : s.Becomes x (f b) s' := by
  obtain rfl := does_modifySession.1 h'
  exact ⟨h.config, h.properties, h.explorer, congrArg f h.session⟩

theorem pure_does {α : Type} {a a' : α} (h : Does (pure a) s a' s') : s.Keeps s' := by
  rw [(does_pure.1 h).2]
  exact .refl s

theorem note_does {level : Level} {origin : String} {values : List (String × String)}
    (h : Does (note level origin message values) s u s') : s.Keeps s' := by
  cases h
  exact ⟨rfl, rfl, rfl, rfl⟩

theorem deliver_does {entry : Registered} (h : Does (deliver callback entry) s u s') : s.Keeps s' := by
  rw [deliver, does_get_bind, does_set_bind] at h
  split at h
  · exact absurd h does_throw
  · rw [(does_pure.1 h).2]
    exact ⟨rfl, rfl, rfl, rfl⟩

theorem deliverAll_does {entries : List Registered} (h : Does (deliverAll callback entries) s u s') :
    s.Keeps s' := by
  induction entries generalizing s with
  | nil => exact pure_does h
  | cons entry rest ih =>
    obtain ⟨_, t, hone, hrest⟩ := does_bind.1 h
    exact (deliver_does hone).keeps (ih hrest)

theorem emit_does {event : Event} (h : Does (emit event) s u s') : s.Keeps s' := by
  simp only [emit, does_get_bind] at h
  split at h
  · exact pure_does h
  · exact deliverAll_does h

theorem checkTerminated_does (h : Does checkTerminated s ended s') :
    (ended = s.session.terminated ∧ s.Keeps s' ∧ s.stop = false) ∨
      (ended = true ∧
        s.Becomes s.explorer { s.session with terminated := true, done := true } s' ∧
        s.stop = true) := by
  rw [checkTerminated, does_get_bind] at h
  split at h
  · next hasked =>
    split at h
    all_goals
      obtain ⟨rfl, rfl⟩ := does_pure.1 h
      exact .inr ⟨rfl, ⟨rfl, rfl, rfl, rfl⟩, hasked⟩
  · next hasked =>
    obtain ⟨rfl, rfl⟩ := does_pure.1 h
    exact .inl ⟨rfl, .refl _, by simpa using hasked⟩

theorem noteStep_does (h : Does noteStep s u s') : s.Keeps s' := by
  simp only [noteStep, does_get_bind] at h
  split at h
  · split at h
    · exact note_does h
    · exact pure_does h
  · exact pure_does h

theorem forward_does (h : Does forward s moved s') :
    s.explorer.forward = (.ok moved, s'.explorer) ∧ s.Becomes s'.explorer s.session s' := by
  rw [forward, does_withExplorer_bind] at h
  split at h
  · next m hm =>
    have hforward : s.explorer.forward = (.ok m, s.explorer.forward.2) := Prod.ext hm rfl
    split at h
    · obtain ⟨_, hnote, rfl⟩ := does_bind_pure.1 h
      have hs' := noteStep_does hnote
      exact ⟨hs'.explorer ▸ hforward, hs'.config, hs'.properties, rfl, hs'.session⟩
    · obtain ⟨rfl, rfl⟩ := does_pure.1 h
      exact ⟨hforward, rfl, rfl, rfl, rfl⟩
  · exact absurd (does_get_bind.1 h) does_throw

def Retreats (s : Search) (moved : Bool) (s' : Search) : Prop :=
  (moved = false ∧ s.explorer.backtrack? = none ∧ s.Keeps s') ∨
    (moved = true ∧ ∃ tally, s.explorer.backtrack? = some s'.explorer ∧
      s.Becomes s'.explorer { s.session with
        depth := s'.explorer.depth, isNew := false, stats := s.session.stats.retally tally } s')

/-- Also how often the search went back is known. -/
theorem backtrack_counts (h : Does backtrack s moved s') :
    (moved = false ∧ s.explorer.backtrack? = none ∧ s.Keeps s') ∨
      (moved = true ∧ s.explorer.backtrack? = some s'.explorer ∧
        s.Becomes s'.explorer { s.session with
          depth := s'.explorer.depth, isNew := false
          stats := s.session.stats.retally { s.session.stats.tally with
            backtracked := s.session.stats.backtracked + 1 } } s') := by
  rw [backtrack, does_withExplorer_bind] at h
  cases hx : s.explorer.backtrack? with
  | none =>
    rw [hx] at h
    obtain ⟨rfl, rfl⟩ := does_pure.1 h
    exact .inl ⟨rfl, rfl, .refl _⟩
  | some x =>
    rw [hx, if_pos rfl, does_get_bind, does_modifySession_bind] at h
    obtain ⟨_, hemit, rfl⟩ := does_bind_pure.1 h
    have hs' := emit_does hemit
    obtain rfl : x = s'.explorer := hs'.explorer.symm
    exact .inr ⟨rfl, rfl, hs'.config, hs'.properties, rfl, hs'.session⟩

theorem backtrack_does (h : Does backtrack s moved s') : s.Retreats moved s' :=
  (backtrack_counts h).imp_right fun hback => ⟨hback.1, _, hback.2⟩

theorem processed_does (h : Does processed s u s') :
    s.Becomes s.explorer { s.session with
      stats := s.session.stats.retally
        { s.session.stats.tally with processed := s.session.stats.processed + 1 } } s' := by
  have hs' := emit_does (does_modifySession_bind.1 h)
  exact ⟨hs'.config, hs'.properties, hs'.explorer, hs'.session⟩

theorem stored_does (h : Does stored s trail s') : trail = s.explorer.trail ∧ s.Keeps s' := by
  simp only [stored, does_get_bind] at h
  obtain ⟨_, hemit, rfl⟩ := does_bind_pure.1 h
  exact ⟨rfl, emit_does hemit⟩

theorem restore_does (h : Does (restore trail) s u s') :
    ∃ tally, s.Becomes (s.explorer.restore trail) { s.session with
      depth := trail.depth, isNew := false, stats := s.session.stats.retally tally } s' := by
  rw [restore, does_withExplorer_bind, does_get_bind, does_modifySession_bind] at h
  have hs' := emit_does h
  exact ⟨⟨_, _, _⟩, hs'.config, hs'.properties, hs'.explorer, hs'.session⟩

theorem takeIgnored_does {ignored : Bool} (h : Does takeIgnored s ignored s') :
    ignored = s.session.ignored ∧
      s.Becomes s.explorer { s.session with ignored := false } s' := by
  cases h
  exact ⟨rfl, rfl, rfl, rfl, rfl⟩

theorem constraintHit_does {limit : Constraint} (h : Does (constraintHit limit) s u s') :
    ∃ constraints, constraints ≠ [] ∧ s.Becomes s.explorer { s.session with constraints } s' ∧
      LimitsMet limit.depth? s.session.constraints constraints := by
  rw [constraintHit, does_note_bind] at h
  obtain ⟨_, t, hemit, hmodify⟩ := does_bind.1 h
  obtain ⟨hconfig, hproperties, hx, hsession⟩ := (emit_does hemit).modifySession hmodify
  have hmet := LimitsMet.add limit s.session.constraints
  by_cases hmem : limit ∈ s.session.constraints
  · rw [if_pos hmem] at hsession hmet
    exact ⟨_, List.ne_nil_of_mem hmem, ⟨hconfig, hproperties, hx, hsession⟩, hmet⟩
  · rw [if_neg hmem] at hsession hmet
    exact ⟨_, List.append_ne_nil_of_right_ne_nil _ (by simp), ⟨hconfig, hproperties, hx, hsession⟩,
      hmet⟩

theorem record_does {property : String} (h : Does (record property message) s u s') :
    s.Becomes s.explorer
      { s.session with errors := s.session.errors ++ [s.violation property message] } s' := by
  rw [record, does_get_bind, does_note_bind, does_modifySession_bind] at h
  have hs' := emit_does h
  exact ⟨hs'.config, hs'.properties, hs'.explorer, hs'.session⟩

structure Found (x : Explorer) (depth : Nat) (properties : List Property) (e : Violation) :
    Prop where
  depth : e.depth = depth
  path : e.path = x.path
  threads : e.threads = x.threadViews
  property : ∃ p ∈ properties, ∃ b, p.name = e.property ∧ p.finds b x = .ok (some e.message)

theorem Found.mono {depth : Nat} {m : List Property} {e : Violation} (h : Found x depth l e)
    (hsub : ∀ p ∈ l, p ∈ m) : Found x depth m e := by
  obtain ⟨p, hp, hviolated⟩ := h.property
  exact ⟨h.depth, h.path, h.threads, p, hsub p hp, hviolated⟩

theorem recalled_cons_self (s : Search) (i : Nat) (message : Option String)
    (rest : List (Nat × Option String)) :
    Search.recalled { s with memory := (i, message) :: rest } i = message := by
  simp [Search.recalled]

/-- What was remembered before has no part in what a check finds, for a violation is remembered
before its message is read. -/
theorem checkProperty_eq (i : Nat) (p : Property) (s : Search) :
    ∃ memory, s.perform (checkProperty i p) =
      ((p.finds s.session s.explorer).mapError (.property p.name s.lastTransition),
        { s with memory }) := by
  unfold checkProperty Property.finds
  rw [perform_get_bind]
  cases p.check s.session s.explorer with
  | error e => exact ⟨s.memory, rfl⟩
  | ok finding =>
    cases finding with
    | none => exact ⟨s.memory, rfl⟩
    | some finding =>
      obtain ⟨violated, remembered⟩ := finding
      dsimp only
      rw [perform_remember_bind]
      cases violated with
      | false => exact ⟨_, rfl⟩
      | true =>
        rw [if_pos rfl, perform_get_bind, recalled_cons_self]
        cases s.config.reportAllErrors with
        | false => exact ⟨_, rfl⟩
        | true => exact ⟨_, rfl⟩

theorem checkProperty_does {i : Nat} {p : Property} {found : Option String}
    (h : Does (checkProperty i p) s found s') :
    p.finds s.session s.explorer = .ok found ∧ ∃ memory, s' = { s with memory } := by
  obtain ⟨memory, hcheck⟩ := checkProperty_eq i p s
  rw [Does, hcheck] at h
  cases hfinds : p.finds s.session s.explorer with
  | error e =>
    rw [hfinds] at h
    cases h
  | ok found' =>
    rw [hfinds] at h
    cases h
    exact ⟨rfl, memory, rfl⟩

theorem checkProperties_does {i : Nat} {violated : Bool}
    (h : Does (checkProperties i l) s violated s') :
    ∃ es : List Violation,
      s.Becomes s.explorer { s.session with errors := s.session.errors ++ es } s' ∧
      es.map (·.id) = List.range' (s.session.errors.length + 1) es.length ∧
      (∀ e ∈ es, Found s.explorer s.session.depth l e) ∧
      (violated = false → es = [] ∧ ∀ p ∈ l, p.finds s.session s.explorer = .ok none) ∧
      (violated = true → es ≠ []) ∧ (s.config.reportAllErrors = false → es.length ≤ 1) ∧
      es.head? = l.findSome? fun p =>
        (p.finds s.session s.explorer).toOption.join.map (s.violation p.name ·) := by
  induction l generalizing s violated i with
  | nil =>
    obtain ⟨rfl, rfl⟩ := does_pure.1 h
    refine ⟨[], ?_, rfl, by simp, by simp, by simp, by simp, rfl⟩
    rw [List.append_nil]
    exact Keeps.refl _
  | cons p rest ih =>
    rw [checkProperties, does_bind] at h
    obtain ⟨found, t, hcheck, h⟩ := h
    obtain ⟨hfinds, memory, rfl⟩ := checkProperty_does hcheck
    have hkeeps : s.Keeps { s with memory } := ⟨rfl, rfl, rfl, rfl⟩
    cases found with
    | none =>
      obtain ⟨es, hes, hids, hfound, hclean, hdirty, hfew, hhead⟩ := ih h
      refine ⟨es, hkeeps.trans hes, hids, ?_, ?_, hdirty, hfew, ?_⟩
      · intro e he
        exact (hfound e he).mono fun q hq => List.mem_cons_of_mem p hq
      · intro hviolated
        obtain ⟨hnil, hrest⟩ := hclean hviolated
        refine ⟨hnil, ?_⟩
        rintro q (_ | ⟨_, hq⟩)
        · exact hfinds
        · exact hrest q hq
      · rw [List.findSome?_cons, hfinds]
        exact hhead
    | some message =>
      obtain ⟨_, t, hrecord, hrest⟩ := does_bind.1 h
      have ht : s.Becomes s.explorer
          { s.session with errors := s.session.errors ++ [s.violation p.name message] } t :=
        hkeeps.trans (record_does hrecord)
      have hfirst : Found s.explorer s.session.depth (p :: rest) (s.violation p.name message) :=
        ⟨rfl, rfl, rfl, p, List.mem_cons_self, _, rfl, hfinds⟩
      have hhead : some (s.violation p.name message) = (p :: rest).findSome? fun p =>
          (p.finds s.session s.explorer).toOption.join.map (s.violation p.name ·) := by
        rw [List.findSome?_cons, hfinds]
        rfl
      rw [does_get_bind, ht.config] at hrest
      split at hrest
      · next hall =>
        obtain ⟨_, hmore, rfl⟩ := does_bind_pure.1 hrest
        obtain ⟨es, hes, hids, hfound, _⟩ := ih hmore
        rw [ht.explorer, ht.session] at hes hfound
        rw [ht.session] at hids
        refine ⟨s.violation p.name message :: es, ?_, ?_, ?_, by simp, by simp, by simp [hall], hhead⟩
        · simpa using ht.trans hes
        · simpa [List.range'_succ, violation] using hids
        · rintro e (_ | ⟨_, he⟩)
          · exact hfirst
          · exact (hfound e he).mono fun q hq => List.mem_cons_of_mem p hq
      · obtain ⟨rfl, rfl⟩ := does_pure.1 hrest
        refine ⟨[s.violation p.name message], ht, by simp [violation], ?_, by simp, by simp, by simp,
          hhead⟩
        simpa using hfirst

def Tidied (x : Explorer) (held : List Trail) (y : Explorer) : Prop :=
  y = x ∨ y = (x.collect held).2

/-- Garbage may be gone; a budget that is exhausted shows in the books. Without a budget nothing is
done. -/
def Weighed (s : Search) (held : List Trail) (enough : Bool) (s' : Search) : Prop :=
  ∃ y constraints, Tidied s.explorer held y ∧ s.Becomes y { s.session with constraints } s' ∧
    (constraints = [] → enough = true ∧ s.session.constraints = []) ∧
    (s.config.memoryBudget = none →
      y = s.explorer ∧ enough = true ∧ constraints = s.session.constraints) ∧
    LimitsMet none s.session.constraints constraints

theorem checkMemory_does {enough : Bool} (h : Does (checkMemory held) s enough s') :
    s.Weighed (held ()) enough s' := by
  have henough : ∀ {y : Explorer} {probe : Probe} {journal : Journal},
      Tidied s.explorer (held ()) y → (s.config.memoryBudget = none → y = s.explorer) →
      Does (pure true) { s with explorer := y, probe, journal } enough s' →
      s.Weighed (held ()) enough s' := by
    intro y probe journal hy hsame hpure
    obtain ⟨rfl, rfl⟩ := does_pure.1 hpure
    exact ⟨y, _, hy, ⟨rfl, rfl, rfl, rfl⟩, fun hnil => ⟨rfl, hnil⟩,
      fun hnone => ⟨hsame hnone, rfl, rfl⟩, .refl _⟩
  simp only [checkMemory, does_get_bind] at h
  split at h
  · exact henough (.inl rfl) (fun _ => rfl) h
  · next budget hbudget =>
    have hsome : s.config.memoryBudget ≠ none := by simp [hbudget]
    rw [does_askMemory_bind] at h
    split at h
    · exact henough (.inl rfl) (fun _ => rfl) h
    · split at h
      · exact henough (.inl rfl) (fun _ => rfl) h
      · rw [does_withExplorer_bind, does_askMemory_bind, does_note_bind] at h
        split at h
        · exact henough (.inr rfl) (fun hnone => absurd hnone hsome) h
        · obtain ⟨_, hhit, rfl⟩ := does_bind_pure.1 (does_note_bind.1 h)
          obtain ⟨constraints, hne, hc, hmet⟩ := constraintHit_does hhit
          exact ⟨_, constraints, .inr rfl, ⟨hc.config, hc.properties, hc.explorer, hc.session⟩,
            fun hnil => absurd hnil hne, fun hnone => absurd hnone hsome, hmet⟩

theorem checkDepth_does {limit : Option Nat} (h : Does (checkDepth limit x) s u s') :
    ∃ constraints, s.Becomes s.explorer { s.session with constraints } s' ∧
      (constraints = [] → s.session.constraints = [] ∧
        (limit.any (· ≤ x.depth) = true → x.isEnd = true)) ∧
      (limit = none → constraints = s.session.constraints) ∧
      LimitsMet (x.cutOff? limit) s.session.constraints constraints := by
  cases limit with
  | none =>
    rw [(does_pure.1 h).2]
    exact ⟨_, Keeps.refl s, fun hnil => ⟨hnil, by simp⟩, fun _ => rfl, .refl _⟩
  | some limit =>
    simp only [checkDepth] at h
    split at h
    · next hcut =>
      obtain ⟨constraints, hne, hbecomes, hmet⟩ := constraintHit_does h
      refine ⟨constraints, hbecomes, fun hnil => absurd hnil hne, nofun, ?_⟩
      have hsome : x.cutOff? (some limit) = some limit := Option.filter_some_pos hcut
      rw [hsome]
      exact hmet
    · next hcut =>
      have hnone : x.cutOff? (some limit) = none :=
        Option.filter_some_neg ((Bool.not_eq_true _).mp hcut)
      rw [(does_pure.1 h).2, hnone]
      exact ⟨_, Keeps.refl s, fun hnil => ⟨hnil, by simpa using hcut⟩, fun _ => rfl, .refl _⟩

theorem checkLimits_does (h : Does (checkLimits x held) s u s') :
    ∃ y constraints done, Tidied s.explorer (held ()) y ∧
      s.Becomes y { s.session with constraints, done } s' ∧
      (constraints = [] → s.session.constraints = [] ∧ done = s.session.done ∧
        (s.config.depthLimit.any (· ≤ x.depth) = true → x.isEnd = true)) ∧
      (s.config.memoryBudget = none → y = s.explorer ∧ done = s.session.done ∧
        (s.config.depthLimit = none → constraints = s.session.constraints)) ∧
      LimitsMet (x.cutOff? s.config.depthLimit) s.session.constraints constraints := by
  simp only [checkLimits, does_get_bind] at h
  obtain ⟨_, t, hdepth, hrest⟩ := does_bind.1 h
  obtain ⟨constraints, ht, hcut, hunlimited, hmet⟩ := checkDepth_does hdepth
  obtain ⟨enough, v, hmemory, hend⟩ := does_bind.1 hrest
  obtain ⟨y, constraints', hy, hv, henough, hnone, hmet'⟩ := checkMemory_does hmemory
  rw [ht.explorer] at hy hnone
  rw [ht.session] at hv henough hnone hmet'
  rw [ht.config] at hnone
  cases enough with
  | true =>
    obtain ⟨_, rfl⟩ := does_pure.1 hend
    refine ⟨y, constraints', _, hy, ht.trans hv, fun hnil => ?_, fun h => ?_, hmet.trans hmet'⟩
    · obtain ⟨hconstraints, hlimit⟩ := hcut (henough hnil).2
      exact ⟨hconstraints, rfl, hlimit⟩
    · obtain ⟨hy, _, hsame⟩ := hnone h
      exact ⟨hy, rfl, fun hlimit => hsame.trans (hunlimited hlimit)⟩
  | false =>
    rw [if_pos Bool.not_false] at hend
    exact ⟨y, constraints', _, hy, (ht.trans hv).modifySession hend,
      fun hnil => absurd (henough hnil).1 (by simp), fun h => absurd (hnone h).2.1 (by simp),
      hmet.trans hmet'⟩

/-- The first violation of the default properties where an explorer stands, after `n` others. -/
def firstViolation? (x : Explorer) (n : Nat) : Option Violation :=
  Property.defaults.findSome? fun p => (p.finds (.start x) x).toOption.join.map fun message =>
    ⟨n + 1, p.name, message, x.depth, x.path, x.threadViews⟩

/-- What a step leaves behind once it is booked. Books that are clean afterwards were clean before,
and no property was violated. -/
structure Booked (s : Search) (held : List Trail) (s' : Search) : Prop where
  config : s'.config = s.config
  properties : s'.properties = s.properties
  explorer : Tidied s.explorer held s'.explorer
  depth : s'.session.depth = s.explorer.depth
  isNew : s'.session.isNew = (s.session.advance s.explorer s.config.matchDepth).isNew
  errors : ∃ es : List Violation, s'.session.errors = s.session.errors ++ es ∧
    es.map (·.id) = List.range' (s.session.errors.length + 1) es.length ∧
    ∀ e ∈ es, Found s.explorer s.explorer.depth s.properties e
  clean : s'.session.Clean → s.session.Clean ∧ s'.session.done = s.session.done ∧
    s'.session.ignored = s.session.ignored ∧
    (∀ p ∈ s.properties, ∃ b, p.finds b s.explorer = .ok none) ∧
    (s.config.depthLimit.any (· ≤ s.explorer.depth) = true → s.explorer.isEnd = true)
  session : ∃ errors constraints done ignored, s'.session =
    { s.session.advance s.explorer s.config.matchDepth with errors, constraints, done, ignored }
  /-- Without a budget no garbage is collected. -/
  untouched : s.config.memoryBudget = none → s'.explorer = s.explorer
  /-- Without new errors and without a budget, only a limit can have been met. -/
  quiet : s'.session.errors = s.session.errors → s.config.memoryBudget = none →
    s'.session.done = s.session.done ∧ s'.session.ignored = s.session.ignored ∧
    ∀ p ∈ s.properties, ∃ b, p.finds b s.explorer = .ok none
  /-- Unless all errors are wanted, the first one is the last. -/
  first : s.config.reportAllErrors = false → s'.session.errors = s.session.errors ∨
    s'.session.done = true ∧ ∃ e, s'.session.errors = s.session.errors ++ [e]
  /-- Without a budget and without a limit, none is met. -/
  unlimited : s.config.memoryBudget = none → s.config.depthLimit = none →
    s'.session.constraints = s.session.constraints
  /-- Limits are checked unless an error ends the run. -/
  limits : LimitsMet (s.explorer.cutOff? s.config.depthLimit) s.session.constraints
      s'.session.constraints ∨
    s'.session.constraints = s.session.constraints ∧ s'.session.errors ≠ s.session.errors
  /-- Which error comes first does not depend on whether others are wanted. -/
  foremost : s.properties = Property.defaults →
    (s'.session.errors.drop s.session.errors.length).head? =
      firstViolation? s.explorer s.session.errors.length

theorem afterForward_does (h : Does (afterForward held) s u s') : s.Booked (held ()) s' := by
  simp only [afterForward, does_get_bind, does_modifySession_bind] at h
  obtain ⟨_, v, hemit, h⟩ := does_bind.1 h
  have hv := emit_does hemit
  rw [does_get_bind, hv.properties] at h
  obtain ⟨violated, w, hcheck, h⟩ := does_bind.1 h
  obtain ⟨es, hw, hids, hfound, hholds, hviolated, hfew, hhead⟩ := checkProperties_does hcheck
  cases v
  obtain ⟨rfl, rfl, rfl, rfl⟩ := hv
  cases w
  obtain ⟨rfl, rfl, rfl, rfl⟩ := hw
  have hforemost : s.properties = Property.defaults →
      ((s.session.errors ++ es).drop s.session.errors.length).head? =
        firstViolation? s.explorer s.session.errors.length := by
    intro hdefaults
    rw [List.drop_left, hhead, hdefaults]
    rfl
  have hfalse : es = [] → violated = false := by
    intro hes
    cases hb : violated with
    | false => rfl
    | true => exact absurd hes (hviolated hb)
  have hlimits : ∀ {a : Search} {ignored : Bool}, Does (checkLimits s.explorer held) a u s' →
      s.Becomes s.explorer { s.session.advance s.explorer s.config.matchDepth with
        errors := s.session.errors ++ es, ignored } a →
      (violated = false → ignored = s.session.ignored) →
      (s.config.reportAllErrors = false → violated = false) → s.Booked (held ()) s' := by
    intro a ignored hlimits ha hignored hall
    cases a
    obtain ⟨rfl, rfl, rfl, rfl⟩ := ha
    obtain ⟨y, constraints, done, hy, hlast, hnil, hnone, hmet⟩ := checkLimits_does hlimits
    cases s'
    obtain ⟨rfl, rfl, rfl, rfl⟩ := hlast
    refine ⟨rfl, rfl, hy, rfl, rfl, ⟨es, rfl, hids, hfound⟩, ?_, ⟨_, _, _, _, rfl⟩,
      fun hbudget => (hnone hbudget).1, ?_, ?_, fun hbudget => (hnone hbudget).2.2, .inl hmet,
      hforemost⟩
    · intro hclean
      obtain ⟨hconstraints, hdone, hcut⟩ := hnil hclean.constraints
      obtain ⟨herrors, hes⟩ := List.append_eq_nil_iff.1 hclean.errors
      refine ⟨⟨herrors, hconstraints, hclean.terminated⟩, hdone, hignored (hfalse hes), ?_, hcut⟩
      intro p hp
      exact ⟨_, (hholds (hfalse hes)).2 p hp⟩
    · intro herrors hbudget
      have hes := hfalse (List.append_right_eq_self.1 herrors)
      refine ⟨(hnone hbudget).2.1, hignored hes, fun p hp => ?_⟩
      exact ⟨_, (hholds hes).2 p hp⟩
    · intro hone
      rw [(hholds (hall hone)).1]
      exact .inl (List.append_nil _)
  split at h
  · next hstop =>
    rw [Bool.and_eq_true, Bool.not_eq_true'] at hstop
    have hes : es ≠ [] := hviolated hstop.1
    obtain rfl := does_modifySession.1 h
    refine ⟨rfl, rfl, .inl rfl, rfl, rfl, ⟨es, rfl, hids, hfound⟩, ?_, ⟨_, _, _, _, rfl⟩,
      fun _ => rfl, ?_, ?_, fun _ _ => rfl, ?_, hforemost⟩
    · intro hclean
      exact absurd (List.append_eq_nil_iff.1 hclean.errors).2 hes
    · intro herrors
      exact absurd (List.append_right_eq_self.1 herrors) hes
    · intro hone
      obtain ⟨e, rfl⟩ : ∃ e, es = [e] :=
        List.length_eq_one_iff.1 (Nat.le_antisymm (hfew hone) (List.length_pos_iff.2 hes))
      exact .inr ⟨rfl, e, rfl⟩
    · exact .inr ⟨rfl, fun herrors => hes (List.append_right_eq_self.1 herrors)⟩
  · next hgoes =>
    rw [Bool.and_eq_true, Bool.not_eq_true', not_and] at hgoes
    have hall : s.config.reportAllErrors = false → violated = false := by
      intro hone
      cases hb : violated with
      | false => rfl
      | true => exact absurd hone (hgoes hb)
    split at h
    · next htrue =>
      exact hlimits (does_modifySession_bind.1 h) ⟨rfl, rfl, rfl, rfl⟩ (by simp [htrue]) hall
    · exact hlimits h ⟨rfl, rfl, rfl, rfl⟩ (fun _ => rfl) hall

end Actions

end Search

end Interleave
