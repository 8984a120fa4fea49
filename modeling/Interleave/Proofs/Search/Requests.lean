import Interleave.Proofs.Search.Bookkeeping

set_option autoImplicit false

namespace Interleave.Search

/-- The properties that are left are checked where an explorer stands, which takes the books from one
session to another. -/
inductive Checked (s₀ : Search) (x : Explorer) : List Property → Session → Session → Prop where
  | done {b : Session} : Checked s₀ x [] b b
  | passed {p : Property} {left : List Property} {b b' : Session}
      (hholds : p.finds b x = .ok none) (h : Checked s₀ x left b b') :
      Checked s₀ x (p :: left) b b'
  | violated {p : Property} {left : List Property} {b b' : Session} {message : String}
      (hmessage : p.finds b x = .ok (some message))
      (h : Checked s₀ x (s₀.leftAfter left)
        { b with errors := b.errors ++ [s₀.finding x b p message] } b') :
      Checked s₀ x (p :: left) b b'

/-- The books at a callback are those after a step to where its explorer stands. -/
def Advanced (s₀ : Search) (c : Callback) : Prop :=
  c.event = .stateAdvanced ∧ ∃ (x : Explorer) (b : Session), x.forward = (.ok true, c.explorer) ∧
    c.session = b.advance c.explorer s₀.config.matchDepth

/-- A step that was booked and then checked, and what was found is among the given errors. -/
structure Completed (s₀ : Search) (c : Callback) (errors : List Violation) : Prop where
  advanced : s₀.Advanced c
  checked : ∃ b, Checked s₀ c.explorer s₀.properties c.session b ∧ b.errors <+: errors

theorem Completed.mono {s₀ : Search} {c : Callback} {errors errors' : List Violation}
    (h : Completed s₀ c errors) (herrors : errors <+: errors') : Completed s₀ c errors' := by
  obtain ⟨b, hchecked, hb⟩ := h.checked
  exact ⟨h.advanced, b, hchecked, hb.trans herrors⟩

def Carried (s₀ : Search) : Phase → List Callback → Explorer → Session → Prop
  | .checking left, cs, x, b => ∃ newer c older, cs = newer ++ c :: older ∧ advances newer = 0 ∧
      s₀.Advanced c ∧ c.explorer = x ∧
      (∀ b', Checked s₀ x left b b' → Checked s₀ x s₀.properties c.session b') ∧
      ∀ d ∈ older, d.event = .stateAdvanced → Completed s₀ d b.errors
  | .ready, cs, _, b | .ended, cs, _, b =>
      ∀ c ∈ cs, c.event = .stateAdvanced → Completed s₀ c b.errors

section Chronicle

variable {s₀ : Search} {phase : Phase} {cs : List Callback} {x : Explorer} {b : Session}
  {c : Callback}

theorem not_mem_of_advances (h : advances cs = 0) (hc : c ∈ cs) : c.event ≠ .stateAdvanced := by
  have hnone := List.countP_eq_zero.1 h c hc
  simpa using hnone

theorem Chronicle.carried (h : Chronicle s₀ phase cs x b) : Carried s₀ phase cs x b := by
  -- What is no step leaves the steps before it as they are.
  have hskip : ∀ {c : Callback} {cs : List Callback} {errors : List Violation},
      c.event ≠ .stateAdvanced →
      (∀ d ∈ cs, d.event = .stateAdvanced → Completed s₀ d errors) →
      ∀ d ∈ c :: cs, d.event = .stateAdvanced → Completed s₀ d errors := by
    intro c cs errors hevent hcs
    exact List.forall_mem_cons.2 ⟨fun hadvanced => absurd hadvanced hevent, hcs⟩
  induction h with
  | started => exact hskip (by simp) (by simp)
  | lingered _ _ hb ih =>
    obtain ⟨terminated, done, ignored, rfl⟩ := hb.same
    exact ih
  | advanced _ hforward hb ih =>
    refine ⟨[], _, _, rfl, rfl, ⟨rfl, _, _, hforward, hb⟩, rfl, fun _ hchecked => hchecked, ?_⟩
    subst hb
    exact ih
  | passed _ hholds ih =>
    obtain ⟨newer, c, older, hcs, hnewer, hc, hx, hcontinue, holder⟩ := ih
    exact ⟨newer, c, older, hcs, hnewer, hc, hx,
      fun b' hchecked => hcontinue b' (.passed hholds hchecked), holder⟩
  | violated _ hmessage he hb ih =>
    obtain ⟨newer, c, older, hcs, hnewer, hc, hx, hcontinue, holder⟩ := ih
    subst he hb hcs
    refine ⟨_ :: newer, c, older, rfl, by simpa [advances] using hnewer, hc, hx,
      fun b' hchecked => hcontinue b' (.violated hmessage hchecked), fun d hd hadvanced => ?_⟩
    exact (holder d hd hadvanced).mono (List.prefix_append _ _)
  | checked _ ih =>
    obtain ⟨newer, c, older, rfl, hnewer, hc, rfl, hcontinue, holder⟩ := ih
    intro d hd hadvanced
    rcases List.mem_append.1 hd with hd | hd
    · exact absurd hadvanced (not_mem_of_advances hnewer hd)
    · rcases List.mem_cons.1 hd with rfl | hd
      · exact ⟨hc, _, hcontinue _ .done, List.prefix_rfl⟩
      · exact holder d hd hadvanced
  | backtracked _ _ hb ih | processed _ _ hb ih => exact hskip (by simp) (hb ▸ ih)
  | stored _ ih => exact hskip (by simp) ih
  | restored _ _ _ _ hb ih => exact hskip (by simp) (hb ▸ ih)
  | limited limit _ ih =>
    refine hskip (by simp) ?_
    split
    · exact ih
    · exact ih
  | finished _ hb ih => exact hskip (by simp) (hb ▸ ih)

/-- Only the newest step can be incomplete, and only while properties are left to be checked. -/
theorem Chronicle.completed (h : Chronicle s₀ phase cs x b) (hc : c ∈ cs)
    (hevent : c.event = .stateAdvanced) :
    Completed s₀ c b.errors ∨ (∃ left, phase = .checking left) ∧ s₀.Advanced c ∧
      cs.find? (·.event = .stateAdvanced) = some c := by
  have hcarried := h.carried
  cases phase with
  | ready | ended => exact .inl (hcarried c hc hevent)
  | checking left =>
    obtain ⟨newer, d, older, rfl, hnewer, hd, _, _, holder⟩ := hcarried
    rcases List.mem_append.1 hc with hc | hc
    · exact absurd hevent (not_mem_of_advances hnewer hc)
    rcases List.mem_cons.1 hc with rfl | hc
    · have hnone : newer.find? (·.event = .stateAdvanced) = none := by
        refine List.find?_eq_none.2 fun e he => ?_
        simpa using not_mem_of_advances hnewer he
      refine .inr ⟨⟨left, rfl⟩, hd, ?_⟩
      rw [List.find?_append, hnone]
      simp [hevent]
    · exact .inl (holder c hc hevent)

theorem Chronicle.births_head? (h : Chronicle s₀ phase cs x b) (hc : cs.head? = some c) :
    c.explorer.births = x.births := by
  induction h with
  | lingered _ hx _ ih => rw [hx.births, ih hc]
  | passed _ _ ih => exact ih hc
  | checked _ ih => exact ih hc
  | _ =>
    cases hc
    rfl

end Chronicle

/-- Everyone was told of the callbacks, but for the newest one if a listener has declined it. -/
inductive Delivers (s : Search) (s' : Search) :
    Except SearchError (Option Report) → List Callback → Prop where
  | all {outcome : Except SearchError (Option Report)} {cs : List Callback}
      (htold : s'.deliveries =
        (Registry.tellings s.listeners cs).map Telling.delivery ++ s.deliveries) :
      Delivers s s' outcome cs
  | declined {e : SearchError} {c : Callback} {cs : List Callback} {told : List Telling}
      (hdeclined : Declined s.deliveries c (Registry.tellings s.listeners cs)
        (Registry.order s.listeners c.event) e told)
      (htold : s'.deliveries = told.map Telling.delivery ++ s.deliveries) :
      Delivers s s' (.error e) (c :: cs)

/-- Every step that a run has made was told of and booked. It was checked as well, unless the run has
failed in it. -/
def Completes (s : Search) (outcome : Except SearchError (Option Report)) (s' : Search) : Prop :=
  ∃ phase cs x b, Chronicle s phase cs x b ∧ Delivers s s' outcome cs ∧
    s'.explorer.births = s.explorer.births + advances cs ∧
    (∀ c ∈ cs, c.event = .stateAdvanced → Completed s c b.errors ∨
      (∃ e, outcome = .error e) ∧ s.Advanced c ∧
        cs.find? (·.event = .stateAdvanced) = some c) ∧
    ∀ report, outcome = .ok (some report) →
      report = .ofSession b ∧ report.stats.transitions = some (advances cs)

section Completes

variable {s s' : Search} {w : Watch} {outcome : Except SearchError (Option Report)}

theorem Chronicle.completes {phase : Phase} {cs : List Callback} {x : Explorer} {b : Session}
    (h : Chronicle s phase cs x b) (hdelivers : Delivers s s' outcome cs)
    (hbirths : s'.explorer.births = x.births)
    (hphase : ∀ left, phase = .checking left → ∃ e, outcome = .error e)
    (hreport : ∀ report, outcome = .ok (some report) → report = .ofSession b) :
    Completes s outcome s' := by
  refine ⟨phase, cs, x, b, h, hdelivers, hbirths.trans h.births, fun c hc hevent => ?_,
    fun report hr => ?_⟩
  · rcases h.completed hc hevent with hcompleted | ⟨⟨left, hleft⟩, hnewest⟩
    · exact .inl hcompleted
    · exact .inr ⟨hphase left hleft, hnewest⟩
  · obtain rfl := hreport report hr
    refine ⟨rfl, ?_⟩
    rw [h.recounts.transitions, List.count, List.countP_map]
    rfl

theorem Outcome.completes (h : Outcome s w outcome s') : Completes s outcome s' := by
  cases h with
  | ended h hc =>
    exact hc.completes (.all h.told.deliveries) rfl (by simp) fun _ hreport => by
      cases hreport
      rfl
  | underway h =>
    obtain ⟨cs, hinformed, hc, _⟩ := h.told
    exact hc.completes (.all hinformed.told.deliveries) rfl (by simp) (by simp)
  | broken h =>
    cases h with
    | declined hc hdeclined htold hexplorer =>
      refine hc.completes (.declined hdeclined htold.deliveries) ?_ (fun _ _ => ⟨_, rfl⟩) (by simp)
      rw [hexplorer]
      exact hc.births_head? rfl
    | failed h =>
      obtain ⟨cs, hinformed, hc, _⟩ := h.told
      exact hc.completes (.all hinformed.told.deliveries) rfl (fun _ _ => ⟨_, rfl⟩) (by simp)

end Completes

section Runs

variable {s₀ s t : Search} {w : Watch} {f g : Frontier} {before after : List Bool} {e : SearchError}
  {kept : List Trail}

theorem Breaks.upper (h : Breaks s₀ w e s) : s.explorer.births ≤ w.hi := by
  cases h with
  | declined _ _ _ _ hupper => exact hupper
  | failed h => exact h.upper

theorem Outcome.upper {outcome : Except SearchError (Option Report)} (h : Outcome s₀ w outcome s) :
    s.explorer.births ≤ w.hi := by
  cases h with
  | ended _ _ hupper => exact hupper
  | underway h => exact h.upper
  | broken h => exact h.upper

theorem Ensures.does {α : Type} {m : Run α} {a : α} {Q : α → Search → Prop}
    {E : SearchError → Search → Prop} (h : Ensures m s Q E) (hm : Does m s a t) : Q a t := by
  rcases h.perform hm with ⟨_, ha, hQ⟩ | ⟨_, he, _⟩
  · cases ha
    exact hQ
  · cases he

theorem turnsAsked_append (h : Does (turnsAsked before f) s (some g) t) :
    s.perform (turnsAsked (before ++ after) f) = t.perform (turnsAsked after g) := by
  induction before generalizing s f with
  | nil =>
    obtain ⟨hg, rfl⟩ := does_pure.1 h
    cases hg
    rfl
  | cons requested later ih =>
    obtain ⟨_, v, hrequest, hrest⟩ := does_bind.1 h
    obtain ⟨r, z, hturn, hrest⟩ := does_bind.1 hrest
    rw [List.cons_append, turnsAsked, perform_bind, hrequest]
    dsimp only
    rw [perform_bind, hturn]
    cases r with
    | none => cases (does_pure.1 hrest).1
    | some f' => exact ih hrest

/-- A run that is still underway goes on from where it stands. -/
theorem runAsked_append (h : s₀.perform (runAsked before) = (.ok none, t)) :
    ∃ g w, Stands s₀ w g.kept .ready t ∧ ∀ after,
      s₀.perform (runAsked (before ++ after)) = t.perform (turnsAsked after g >>= close) := by
  obtain ⟨f, v, hstart, hrest⟩ := does_bind.1 h
  obtain ⟨r, z, hturns, hrest⟩ := does_bind.1 hrest
  cases r with
  | none =>
    obtain ⟨report, _, _, hreport⟩ := does_bind.1 hrest
    cases (does_pure.1 hreport).1
  | some g =>
    obtain ⟨_, rfl⟩ := does_pure.1 hrest
    let w : Watch := ⟨s₀.stop, s₀.explorer.births, s₀.explorer.births⟩
    have hw : Ensures start s₀ (fun f => Stands s₀ w f.kept .ready) (Breaks s₀ w) :=
      start_ensures id le_rfl le_rfl
    obtain ⟨w, _, hz, _⟩ := (turnsAsked_ensures (hw.does hstart) (Nat.le_succ _)).does hturns
    refine ⟨g, w, hz, fun after => ?_⟩
    rw [runAsked, perform_bind, hstart]
    dsimp only
    rw [perform_bind, perform_bind, turnsAsked_append hturns]

theorem Stands.mark {phase : Phase} (h : Stands s₀ w kept phase s) :
    Stands s₀ ⟨s.stop, w.lo, s.explorer.births⟩ kept phase s := by
  obtain ⟨cs, hinformed, hc, hkept⟩ := h.told
  have htold := hinformed.told
  refine ⟨⟨cs, ⟨hinformed.config, hinformed.properties, ?_, hinformed.willing⟩, hc, hkept⟩, h.lower,
    le_rfl⟩
  exact ⟨htold.listeners, htold.deliveries, id, htold.asked⟩

/-- How a run comes out that was asked to stop when it had the given nodes and turns left. -/
structure Heeded (births turns : Nat) (outcome : Except SearchError (Option Report)) (t : Search) :
    Prop where
  births : t.explorer.births ≤ births
  soon : outcome = .ok none → turns ≤ 1
  not_pass : ¬ ReportsPass outcome

theorem Heeded.failed {births turns : Nat} (h : t.explorer.births ≤ births) :
    Heeded births turns (.error e) t := by
  refine ⟨h, by simp, ?_⟩
  rintro ⟨_, hreport, _⟩
  cases hreport

theorem Frontier.windUp_le_one (f : Frontier) : f.windUp ≤ 1 := by
  unfold Frontier.windUp
  split
  · split
    · exact le_rfl
    · exact Nat.zero_le 1
  · exact Nat.zero_le 1
  · exact Nat.zero_le 1

theorem close_ensures (h : Stands s₀ w kept .ready s) :
    Ensures (close none) s
      (fun r t => r ≠ none ∧ t.explorer.births ≤ w.hi ∧ (ReportsPass (.ok r) → s.session.Clean))
      (fun _ t => t.explorer.births ≤ w.hi) := by
  obtain ⟨cs, hinformed, hc, _⟩ := h.told
  refine ((finish_ensures hinformed hc h.lower h.upper).mono (fun _ _ hr => hr)
    fun _ _ he => he.upper).bind fun report t ht => ?_
  obtain ⟨rfl, hbecomes, _⟩ := ht
  refine ⟨by simp, hbecomes.explorer ▸ h.upper, ?_⟩
  rintro ⟨report, hreport, hpass⟩
  cases hreport
  have hclean := Report.isPass_ofSession.1 hpass
  rw [hbecomes.session] at hclean
  exact ⟨hclean.errors, hclean.constraints, hclean.terminated⟩

theorem rest_requested (h : Stands s₀ w f.kept .ready s) (hw : w.stop = true) (after : List Bool) :
    Ensures (turnsAsked after f >>= close) s (fun r => Heeded w.hi after.length (.ok r))
      (fun e => Heeded w.hi after.length (.error e)) := by
  refine ((turnsAsked_requested h hw).mono (fun _ _ hr => hr) fun _ _ he => .failed he.upper).bind
    fun r t ht => ?_
  obtain ⟨ht, hlast, hsoon⟩ := ht
  cases r with
  | some g =>
    refine ⟨ht.upper, fun _ => ?_, ?_⟩
    · have hg := hsoon g rfl
      have hf := f.windUp_le_one
      omega
    · rintro ⟨_, hreport, _⟩
      cases hreport
  | none =>
    refine (close_ensures ht).mono ?_ fun _ _ he => .failed he
    rintro r v ⟨hended, hupper, hpass⟩
    refine ⟨hupper, fun hnone => absurd (Except.ok.inj hnone) hended, fun hreport => ?_⟩
    exact hlast rfl (hpass hreport)

theorem perform_turnsAsked_requested (later : List Bool) :
    s.perform (turnsAsked (true :: later) f) =
      Search.perform { s with stop := true } (turnsAsked (true :: later) f) := by
  rw [turnsAsked, perform_bind, perform_bind]
  change Search.perform { s with stop := s.stop || true } _ =
    Search.perform { s with stop := true || true } _
  rw [Bool.or_true, Bool.or_true]

theorem rest_asked (h : Stands s₀ w f.kept .ready s)
    (hasked : s.stop = true ∨ after.head? = some true) :
    Ensures (turnsAsked after f >>= close) s
      (fun r => Heeded s.explorer.births after.length (.ok r))
      (fun e => Heeded s.explorer.births after.length (.error e)) := by
  rcases hasked with hstop | hhead
  · exact rest_requested h.mark hstop after
  · cases after with
    | nil => cases hhead
    | cons _ later =>
      cases hhead
      have hmarked := (h.requested true).mark
      rw [Bool.or_true] at hmarked
      have hrest := rest_requested hmarked rfl (true :: later)
      unfold Ensures at hrest ⊢
      rw [perform_bind, ← perform_turnsAsked_requested, ← perform_bind] at hrest
      exact hrest

/-- A request that comes while a turn is being taken is found by the next one. -/
theorem rest_soon_asked (h : Stands s₀ w f.kept .ready s)
    (hasked : after.length ≤ 1 ∨ after[1]? = some true) :
    Ensures (turnsAsked after f >>= close) s
      (fun _ t => t.explorer.births ≤ s.explorer.births + 1)
      (fun _ t => t.explorer.births ≤ s.explorer.births + 1) := by
  cases after with
  | nil => exact Nat.le_succ _
  | cons requested later =>
    have hmarked := (h.requested requested).mark
    have hmore : ∀ stop, (Watch.after ⟨s.stop || requested, w.lo, s.explorer.births⟩ stop).hi ≤
        s.explorer.births + 1 := by
      rintro (_ | _)
      · exact le_rfl
      · exact Nat.le_succ _
    rw [turnsAsked, bind_assoc]
    refine Ensures.bind (Q := fun _ t => t = { s with stop := s.stop || requested }) rfl ?_
    rintro _ t rfl
    rw [bind_assoc]
    refine ((turn_ensures hmarked).mono (fun _ _ hr => hr)
      fun _ _ he => he.upper.trans (hmore _)).bind fun r v hv => ?_
    cases r with
    | none =>
      refine (close_ensures hv.stands).mono ?_ fun _ _ he => he.trans (hmore _)
      rintro _ z ⟨_, hupper, _⟩
      exact hupper.trans (hmore _)
    | some g =>
      have hupper := hv.stands.upper.trans (hmore _)
      cases later with
      | nil => exact hupper
      | cons second rest =>
        have hhead : (second :: rest).head? = some true := by simpa using hasked
        exact (rest_asked hv.stands (.inr hhead)).mono (fun _ _ hr => hr.births.trans hupper)
          fun _ _ he => he.births.trans hupper

theorem run_requested (hstop : s₀.stop = true) (requests : List Bool) :
    Ensures (runAsked requests) s₀
      (fun r => Heeded s₀.explorer.births requests.length (.ok r))
      (fun e => Heeded s₀.explorer.births requests.length (.error e)) := by
  let w : Watch := ⟨true, s₀.explorer.births, s₀.explorer.births⟩
  have hstart : Ensures start s₀ (fun f => Stands s₀ w f.kept .ready) (Breaks s₀ w) :=
    start_ensures (fun _ => hstop) le_rfl le_rfl
  refine (hstart.mono (fun _ _ hf => hf) fun _ _ he => .failed he.upper).bind fun f t ht => ?_
  exact rest_requested ht rfl requests

end Runs

section Requests

variable {s s' : Search} {outcome : Except SearchError (Option Report)}

theorem Ensures.either {α : Type} {m : Run α} {r : Except SearchError α}
    {P : Except SearchError α → Search → Prop}
    (h : Ensures m s (fun a => P (.ok a)) fun e => P (.error e)) (hm : s.perform m = (r, s')) :
    P r s' := by
  rcases h.perform hm with ⟨a, rfl, ha⟩ | ⟨e, rfl, he⟩
  · exact ha
  · exact he

/-- Whenever a run is asked to stop, it takes one more step at most, and none that it does not carry
through. Unless the request comes with the last event, the run does not end with a pass. -/
theorem requests_heeded {calls : List Registry.Call} {requests : List Bool}
    (hcalls : s.listeners = Registry.after calls)
    (h : s.perform (runAsked requests) = (outcome, s')) :
    -- before the run
    (s.stop = true → Heeded s.explorer.births requests.length outcome s') ∧
    -- between two turns, or during a turn
    (∀ before after t, requests = before ++ after → s.perform (runAsked before) = (.ok none, t) →
      (t.stop = true ∨ after.head? = some true →
        Heeded t.explorer.births after.length outcome s') ∧
      (after.length ≤ 1 ∨ after[1]? = some true →
        s'.explorer.births ≤ t.explorer.births + 1)) ∧
    -- by a listener
    (∀ later d earlier entry, s'.deliveries = later ++ d :: (earlier ++ s.deliveries) →
      entry ∈ s.listeners → entry.id = d.listener →
      (entry.answer d.callback (earlier ++ s.deliveries)).stop = true →
      s'.stop = true ∧ s'.explorer.births ≤ d.callback.explorer.births + 1 ∧
        (d.callback.event ≠ .searchFinished → ¬ ReportsPass outcome)) ∧
    Completes s outcome s' := by
  have hids : (s.listeners.map (·.id)).Nodup := hcalls ▸ Registry.ids_after calls
  obtain ⟨w, hw, houtcome⟩ := run_outcome h
  refine ⟨fun hstop => ?_, ?_, ?_, houtcome.completes⟩
  · exact (run_requested hstop requests).either h
  · rintro before after t rfl hbefore
    obtain ⟨g, w, hstands, hrest⟩ := runAsked_append hbefore
    rw [hrest] at h
    refine ⟨fun hasked => (rest_asked hstands hasked).either h, fun hasked => ?_⟩
    exact (rest_soon_asked hstands hasked).either
      (P := fun _ v => v.explorer.births ≤ t.explorer.births + 1) h
  · intro later d earlier entry hd hentry hid hasked
    obtain ⟨told, _, cs, _, _, htold, _, hmem, hpass⟩ := houtcome.told
    rw [htold.deliveries] at hd
    obtain ⟨newer, older, rfl, _, rfl⟩ := exists_telling hids (fun t ht => (hmem t ht).1) hd hentry hid
    have hanswer := mem_answers s.deliveries newer older ⟨entry, d.callback⟩
    obtain ⟨hstop, hlo⟩ := htold.asked _ hanswer hasked
    refine ⟨hstop, ?_, hpass _ hanswer hasked⟩
    calc s'.explorer.births
      _ ≤ w.hi := houtcome.upper
      _ ≤ w.lo + 1 := hw
      _ ≤ d.callback.explorer.births + 1 := Nat.succ_le_succ hlo

def impatient (name : String) (depth : Nat) : Listener :=
  ⟨name, fun c _ => { Reaction.quiet with
    stop := c.event = .stateBacktracked && c.view.depth = depth }⟩

/-- The second listener asks to stop when the search goes back to the first choice. The search takes
the next step, tells of it and of its end, and does not report a pass. -/
theorem relay_heeded : ∃ (s s' : Search) (report : Report) (later earlier : List Delivery)
    (d : Delivery),
    s.Attended (relay (counter .lt 9)) [.add ⟨0, .silent "first"⟩, .add ⟨1, impatient "second" 1⟩] ∧
    s.perform (runAsked (List.replicate 300 false)) = (.ok (some report), s') ∧
    s'.deliveries = later ++ d :: earlier ∧
    later.map (·.callback.event) =
      [.searchFinished, .searchFinished, .stateAdvanced, .stateAdvanced] ∧
    (d.listener, d.callback.event, d.callback.view.depth) = (1, .stateBacktracked, 1) ∧
    d.callback.explorer.births < s'.explorer.births ∧
    s'.explorer.births ≤ d.callback.explorer.births + 1 ∧
    ¬ ReportsPass (.ok (some report)) ∧ Completes s (.ok (some report)) s' := by
  have hrun : (Check.attend? (relay (counter .lt 9)) Config.default
      [.add ⟨0, .silent "first"⟩, .add ⟨1, impatient "second" 1⟩] (List.replicate 300 false)).map
        (fun r => ((r.2.2.deliveries.take 4).map (·.callback.event),
          (r.2.2.deliveries.drop 4).head?.map fun d =>
            (d.listener, d.callback.event, d.callback.view.depth,
              decide (d.callback.explorer.births < r.2.2.explorer.births)))) =
      some ([.searchFinished, .searchFinished, .stateAdvanced, .stateAdvanced],
        some (1, .stateBacktracked, 1, true)) := by
    decide +kernel
  obtain ⟨⟨s, report, s'⟩, hattend, hfound⟩ := Option.map_eq_some_iff.1 hrun
  obtain ⟨hs, hperform⟩ := Check.attend?_eq_some hattend
  obtain ⟨hlater, hd⟩ := Prod.mk.inj hfound
  obtain ⟨d, hhead, hd⟩ := Option.map_eq_some_iff.1 hd
  obtain ⟨earlier, hrest⟩ := List.head?_eq_some_iff.1 hhead
  simp only [Prod.mk.injEq, decide_eq_true_eq] at hd
  obtain ⟨hid, hevent, hdepth, hmore⟩ := hd
  have hall : s'.deliveries = s'.deliveries.take 4 ++ d :: (earlier ++ s.deliveries) := by
    rw [hs.deliveries, List.append_nil, ← hrest, List.take_append_drop]
  have hsecond : (⟨1, impatient "second" 1⟩ : Registered) ∈ s.listeners := by
    rw [hs.listeners]
    exact List.mem_cons_of_mem _ List.mem_cons_self
  obtain ⟨_, _, hlisteners, hcompletes⟩ := requests_heeded hs.listeners hperform
  obtain ⟨_, hone, hpass⟩ := hlisteners _ d earlier _ hall hsecond hid.symm (by
    simp [Registered.answer, impatient, hevent, hdepth])
  refine ⟨s, s', report, _, _, d, hs, hperform, hall, hlater, ?_, hmore, hone, hpass ?_, hcompletes⟩
  · simp [hid, hevent, hdepth]
  · simp [hevent]

end Requests

end Interleave.Search
