import Interleave.Proofs.Search.Narration

set_option autoImplicit false

namespace Interleave.Search

abbrev Bounded.queued (q : Bounded) : List Trail := q.waiting.map (·.trail)

def Frontier.kept : Frontier → List Trail
  | .depthFirst => []
  | .walks k => [k.initial]
  | .bounded q => q.queued

/-- The number of turns, but for one, that a strategy takes once it was asked to stop. -/
def Frontier.windUp : Frontier → Nat
  | .bounded q => if q.active.isSome then 1 else 0
  | .depthFirst | .walks _ => 0

def Watch.after (w : Watch) (stop : Bool) : Watch := if stop then w else w.more

structure Turned (s₀ : Search) (w : Watch) (f : Frontier) (s : Search) (r : Option Frontier)
    (t : Search) : Prop where
  stands : Stands s₀ (w.after s.stop) ((r.map Frontier.kept).getD []) .ready t
  last : r = none → t.stop = true → ¬ t.session.Clean
  asked : s.stop = true → ∀ g, r = some g → g.windUp < f.windUp

section Turned

variable {s₀ s t : Search} {w : Watch} {kept : List Trail} {f : Frontier}

theorem Stands.after {phase : Phase} (h : Stands s₀ w kept phase s) (stop : Bool) :
    Stands s₀ (w.after stop) kept phase s := by
  cases stop with
  | true => exact h
  | false => exact h.more

theorem Breaks.after {e : SearchError} (h : Breaks s₀ w e s) (stop : Bool) :
    Breaks s₀ (w.after stop) e s := by
  cases stop with
  | true => exact h
  | false => exact h.more

theorem Ensures.after {α : Type} {m : Run α} {Q : α → Search → Prop}
    (h : Ensures m s Q (Breaks s₀ w)) (stop : Bool) : Ensures m s Q (Breaks s₀ (w.after stop)) :=
  h.mono (fun _ _ hQ => hQ) fun _ _ he => he.after stop

theorem Turned.ended (h : Stands s₀ w kept .ready t) (hlast : t.stop = true → ¬ t.session.Clean) :
    Turned s₀ w f s none t :=
  ⟨(h.forget (by simp)).after _, fun _ => hlast, fun _ g hg => by cases hg⟩

theorem Turned.on {g : Frontier} (hstop : s.stop = false) (h : Stands s₀ w.more kept .ready t)
    (hkept : ∀ trail ∈ g.kept, trail ∈ kept) : Turned s₀ w f s (some g) t := by
  refine ⟨?_, by simp, by simp [hstop]⟩
  rw [hstop]
  exact h.forget hkept

end Turned

namespace DepthFirst

variable {s₀ s : Search} {w : Watch} {kept : List Trail}

theorem proceed_ensures (h : Stands s₀ w kept .ready s) :
    Ensures proceed s (fun _ => Stands s₀ w.more kept .ready) (Breaks s₀ w.more) := by
  refine ((forward_ensures h).after false).bind fun moved t ht => ?_
  cases moved with
  | true => exact afterForward_ensures h ht
  | false => exact (processed_ensures h ht).mono (fun _ _ hv => hv.more) fun _ _ he => he.more

theorem turn_ensures (h : Stands s₀ w [] .ready s) :
    Ensures turn s
      (fun more => Turned s₀ w .depthFirst s (if more then some .depthFirst else none))
      (Breaks s₀ (w.after s.stop)) := by
  rw [turn, ensures_get]
  split
  · next hdone => exact .ended h fun _ => h.not_clean hdone
  refine ((checkTerminated_ensures h).after _).bind fun ended t ht => ?_
  obtain ⟨ht, hgoes, hends, _⟩ := ht
  cases ended with
  | true => exact .ended ht fun _ => hends rfl
  | false =>
    obtain ⟨rfl, hstop⟩ := hgoes rfl
    have hon : ∀ {v : Search}, Stands s₀ w [] .ready v → Ensures (proceed >>= fun _ => pure true) v
        (fun more => Turned s₀ w .depthFirst t (if more then some .depthFirst else none))
        (Breaks s₀ (w.after t.stop)) := by
      intro v hv
      rw [hstop]
      exact (proceed_ensures hv).bind fun _ z hz => .on hstop hz fun _ hmem => hmem
    refine (takeIgnored_ensures ht).bind fun ignored v hv => ?_
    obtain ⟨hv, hsame⟩ := hv
    rw [ensures_get]
    split
    · refine ((backtrack_ensures hv).after _).bind fun moved z hz => ?_
      cases moved with
      | true => exact hon hz.1
      | false =>
        obtain rfl := hz.2 rfl
        exact .ended hv fun hasked => by cases (hasked.symm.trans hsame).trans hstop
    · exact hon hv

end DepthFirst

namespace Walks

variable {s₀ s : Search} {w : Watch} {k : Walks}

variable (h : Stands s₀ w [k.initial] .ready s)

include h

theorem finish_ensures :
    Ensures k.finish s
      (fun r t => Stands s₀ w [k.initial] .ready t ∧ (r = none → ¬ t.session.Clean) ∧
        (∀ k', r = some k' → k'.initial = k.initial) ∧ (s.session.done = true → r = none))
      (Breaks s₀ w) := by
  rw [finish, ensures_get, ensures_note_bind]
  split
  · next hdone => exact ⟨h.noted _ _, fun _ => h.not_clean hdone, by simp, fun _ => rfl⟩
  · next hdone =>
    refine (restore_ensures (h.noted _ _) List.mem_cons_self).bind fun _ t ht => ?_
    refine ⟨ht, by simp, fun k' hk' => ?_, fun hended => absurd hended hdone⟩
    cases hk'
    rfl

theorem next_ensures :
    Ensures k.next s (fun r => Turned s₀ w (.walks k) s (r.map .walks))
      (Breaks s₀ (w.after s.stop)) := by
  rw [next, ensures_get, ensures_get]
  split
  · next hdone => exact .ended h fun _ => h.not_clean hdone
  split
  · refine ((constraintHit_ensures h).after _).bind fun _ t ht => ?_
    exact .ended ht.1 fun _ hclean => ht.2 hclean.constraints
  refine ((checkTerminated_ensures h).after _).bind fun ended t ht => ?_
  obtain ⟨ht, hgoes, hends, _⟩ := ht
  cases ended with
  | true => exact .ended ht fun _ => hends rfl
  | false =>
    obtain ⟨rfl, hstop⟩ := hgoes rfl
    exact .on hstop ht.more fun _ hmem => hmem

theorem step_ensures {seen : Std.TreeSet StateId} :
    Ensures (k.step seen) s (fun r => Turned s₀ w (.walks k) s (r.map .walks))
      (Breaks s₀ (w.after s.stop)) := by
  refine ((checkTerminated_ensures h).after _).bind fun ended t ht => ?_
  obtain ⟨ht, hgoes, hends, hdone⟩ := ht
  cases ended with
  | true =>
    refine ((finish_ensures ht).after _).mono ?_ fun _ _ he => he
    rintro r v ⟨hv, hlast, hsame, hnone⟩
    cases r with
    | none => exact .ended hv fun _ => hlast rfl
    | some k' =>
      -- The walk ends without a request only if the search was terminated already.
      have hstop : s.stop = false := by
        by_contra hasked
        cases hnone (hdone (by simpa using hasked))
      exact .on hstop hv.more (by simp [Frontier.kept, hsame])
  | false =>
    obtain ⟨rfl, hstop⟩ := hgoes rfl
    have hends : ∀ {k' : Walks} {v : Search}, k'.initial = k.initial →
        Stands s₀ w.more [k.initial] .ready v → Ensures k'.finish v
          (fun r => Turned s₀ w (.walks k) t (r.map .walks)) (Breaks s₀ (w.after t.stop)) := by
      intro k' v hsame hv
      rw [← hsame] at hv
      rw [hstop]
      refine (finish_ensures hv).mono ?_ fun _ _ he => he
      rintro r z ⟨hz, hlast, hinitial, _⟩
      cases r with
      | none => exact ⟨by rw [hstop]; exact hz.forget (by simp), fun _ _ => hlast rfl, by simp⟩
      | some k'' => exact .on hstop hz (by simp [Frontier.kept, hinitial])
    rw [if_neg Bool.false_ne_true, ensures_withExplorer]
    have hv : Stands s₀ w [k.initial] .ready
        { t with explorer := (t.explorer.shuffleSchedule k.source).1 } :=
      ht.lingers ⟨rfl, rfl, rfl, rfl, rfl⟩ (t.explorer.lingers_shuffleSchedule _)
        (.refl _)
    refine ((forward_ensures hv).after _).bind fun moved z hz => ?_
    cases moved with
    | false =>
      refine ((processed_ensures hv hz).after _).bind fun _ a ha => ?_
      exact hends rfl ha.more
    | true =>
      refine Ensures.bind (?_ : Ensures _ _ (fun _ => Stands s₀ w.more [k.initial] .ready) _)
        fun _ a ha => ?_
      · rw [hstop]
        exact afterForward_ensures hv hz
      refine (takeIgnored_ensures ha).bind fun ignored c hc => ?_
      simp only [ensures_get]
      split
      · exact hends rfl hc.1
      · exact .on hstop hc.1 fun _ hmem => hmem

theorem turn_ensures :
    Ensures k.turn s (fun r => Turned s₀ w (.walks k) s (r.map .walks))
      (Breaks s₀ (w.after s.stop)) := by
  unfold turn
  split
  · exact next_ensures h
  · exact step_ensures h

end Walks

namespace Bounded

variable {s₀ s : Search} {w : Watch} {q : Bounded} {kept : List Trail} {f : Frontier}

theorem finish_ensures {E : SearchError → Search → Prop} {t : Search}
    (h : Stands s₀ w kept .ready t) (hlast : t.stop = true → ¬ t.session.Clean) :
    Ensures q.finish t (fun r => Turned s₀ w f s (r.map .bounded)) E := by
  rw [finish, ensures_note_bind]
  exact .ended (h.noted _ _) hlast

variable (h : Stands s₀ w q.queued .ready s)

include h

theorem raise_ensures (hcurrent : q.current.pop? = none)
    (hstop : s.stop = false) :
    Ensures q.raise s (fun r => Turned s₀ w (.bounded q) s (r.map .bounded))
      (Breaks s₀ (w.after s.stop)) := by
  have hraised : ∀ journal, Turned s₀ w (.bounded q) s
      (some (.bounded { q with
        current := q.next, next := .empty, preemptions := q.preemptions + 1 }))
      { s with journal } := by
    refine fun journal => .on hstop (h.noted s.probe journal).more ?_
    rw [Frontier.kept, queued, waiting_raised hcurrent]
    exact fun _ hmem => hmem
  rw [raise]
  split
  · exact finish_ensures h fun hasked => by cases hasked.symm.trans hstop
  rw [ensures_get]
  split
  · split
    · rw [ensures_note_bind]
      refine ((constraintHit_ensures (h.noted _ _)).after _).bind fun _ t ht => ?_
      exact finish_ensures ht.1 fun _ hclean => ht.2 hclean.constraints
    · exact hraised _
  · exact hraised _

theorem take_ensures :
    Ensures q.take s (fun r => Turned s₀ w (.bounded q) s (r.map .bounded))
      (Breaks s₀ (w.after s.stop)) := by
  rw [take, ensures_get]
  split
  · next hdone => exact finish_ensures h fun _ => h.not_clean hdone
  refine ((checkTerminated_ensures h).after _).bind fun ended t ht => ?_
  obtain ⟨ht, hgoes, hends, _⟩ := ht
  cases ended with
  | true => exact finish_ensures ht fun _ => hends rfl
  | false =>
    obtain ⟨rfl, hstop⟩ := hgoes rfl
    rw [if_neg Bool.false_ne_true]
    split
    · next hcurrent => exact raise_ensures h hcurrent hstop
    · next item current hcurrent =>
      have hwaiting := waiting_taken hcurrent
      refine ((restore_ensures h ?_).after _).bind fun _ v hv => ?_
      · rw [queued, hwaiting]
        exact List.mem_cons_self
      rw [ensures_withExplorer, ensures_get]
      have hz : Stands s₀ w q.queued .ready
          { v with explorer := v.explorer.setSchedule item.schedule } :=
        hv.lingers ⟨rfl, rfl, rfl, rfl, rfl⟩ (v.explorer.lingers_setAgenda _)
          (.refl _)
      refine .on hstop hz.more fun trail hmem => ?_
      rw [queued, hwaiting]
      exact List.mem_cons_of_mem _ hmem

theorem defer_ensures :
    Ensures q.defer s (fun q' => Stands s₀ w q'.queued .ready) (Breaks s₀ w) := by
  simp only [defer, ensures_get]
  split
  · next last g _ _ =>
    split
    · exact h
    · refine (stored_ensures h).bind fun trail t ht => ?_
      rw [ensures_withExplorer]
      change Stands s₀ w (q.putOff trail g last).queued .ready _
      have hv : Stands s₀ w (trail :: q.queued) .ready
          { t with explorer := t.explorer.setSchedule (.thread (g.restrictTo [last])) } :=
        ht.lingers ⟨rfl, rfl, rfl, rfl, rfl⟩ (t.explorer.lingers_setAgenda _)
          (.refl _)
      refine hv.forget fun trail' hmem => ?_
      rw [queued, waiting_putOff, List.map_append, List.mem_append] at hmem
      rcases hmem with hmem | hmem
      · exact List.mem_cons_of_mem _ hmem
      · -- What is put off starts from the trail that was just stored.
        obtain ⟨item, hitem, rfl⟩ := List.mem_map.1 hmem
        obtain ⟨u, _, rfl⟩ := List.mem_map.1 hitem
        exact List.mem_cons_self
  · exact h

theorem step_ensures {trail : Trail} {base : Nat} (hactive : q.active = some (trail, base)) :
    Ensures (q.step base) s (fun r => Turned s₀ w (.bounded q) s (r.map .bounded))
      (Breaks s₀ (w.after s.stop)) := by
  have hidle : ∀ {t : Search}, Stands s₀ (w.after s.stop) q.queued .ready t →
      Turned s₀ w (.bounded q) s (some (.bounded { q with active := none })) t := by
    intro t ht
    refine ⟨ht, by simp, fun _ g hg => ?_⟩
    cases hg
    simp [Frontier.windUp, hactive]
  rw [step, ensures_get]
  split
  · exact hidle (h.after _)
  refine ((checkTerminated_ensures h).after _).bind fun ended t ht => ?_
  obtain ⟨ht, hgoes, hends, _⟩ := ht
  cases ended with
  | true => exact hidle (ht.after _)
  | false =>
    obtain ⟨rfl, hstop⟩ := hgoes rfl
    rw [if_neg Bool.false_ne_true]
    refine ((forward_ensures h).after _).bind fun moved v hv => ?_
    cases moved with
    | false =>
      rw [if_pos Bool.not_false]
      refine ((processed_ensures h hv).after _).bind fun _ z hz => ?_
      rw [ensures_get]
      split
      · exact hidle (hz.after _)
      · refine ((backtrack_ensures hz).after _).bind fun _ a ha => ?_
        exact .on hstop ha.1.more fun _ hmem => hmem
    | true =>
      rw [if_neg (by simp), hstop]
      refine (afterForward_ensures h hv).bind fun _ z hz => ?_
      rw [ensures_get]
      split
      · refine hidle ?_
        rw [hstop]
        exact hz
      refine (takeIgnored_ensures hz).bind fun ignored a ha => ?_
      simp only [ensures_get]
      split
      · refine (backtrack_ensures ha.1).bind fun _ c hc => ?_
        exact .on hstop hc.1 fun _ hmem => hmem
      · refine Ensures.bind (defer_ensures ha.1) fun q' c hc => ?_
        exact .on hstop hc fun _ hmem => hmem

theorem turn_ensures :
    Ensures q.turn s (fun r => Turned s₀ w (.bounded q) s (r.map .bounded))
      (Breaks s₀ (w.after s.stop)) := by
  unfold turn
  split
  · exact take_ensures h
  · next hactive => exact step_ensures h hactive

end Bounded

def request (requested : Bool) : Run Unit := modify fun s => { s with stop := s.stop || requested }

/-- Takes turns, before each of which there may be a request to stop, until the strategy comes to its
end; else what is left to do after the last one. -/
def turnsAsked : List Bool → Frontier → Run (Option Frontier)
  | [], f => return some f
  | requested :: later, f => do
    request requested
    match ← turn f with
    | none => return none
    | some f => turnsAsked later f

def close : Option Frontier → Run (Option Report)
  | none => do return some (← finish)
  | some _ => return none

/-- A whole run with requests to stop between its turns; without a report when it does not end within
them. -/
def runAsked (requests : List Bool) : Run (Option Report) := do
  let f ← start
  close (← turnsAsked requests f)

section Runs

variable {s₀ s t : Search} {w : Watch} {kept : List Trail} {f : Frontier} {requests : List Bool}
  {phase : Phase}

theorem perform_turns (fuel : Nat) (f : Frontier) :
    s.perform (turns fuel f) =
      s.perform (do return (← turnsAsked (List.replicate fuel false) f).isNone) := by
  induction fuel generalizing s f with
  | zero => rfl
  | succ fuel ih =>
    have hsame : { s with stop := s.stop || false } = s := by rw [Bool.or_false]
    rw [List.replicate_succ, turns, turnsAsked, perform_bind, bind_assoc, perform_bind]
    change _ = Search.perform { s with stop := s.stop || false } _
    rw [hsame, bind_assoc, perform_bind]
    rcases s.perform (turn f) with ⟨e | r, t⟩
    · rfl
    · cases r with
      | none => rfl
      | some g => exact ih g

theorem perform_run (fuel : Nat) :
    s.perform (run fuel) = s.perform (runAsked (List.replicate fuel false)) := by
  rw [run, runAsked, perform_bind, perform_bind]
  rcases s.perform start with ⟨e | f, t⟩
  · rfl
  · dsimp only
    rw [perform_bind, perform_bind, perform_turns, perform_bind]
    rcases t.perform (turnsAsked (List.replicate fuel false) f) with ⟨e | r, v⟩
    · rfl
    · cases r with
      | none => rfl
      | some g => rfl

theorem turn_ensures (h : Stands s₀ w f.kept .ready s) :
    Ensures (turn f) s (Turned s₀ w f s) (Breaks s₀ (w.after s.stop)) := by
  cases f with
  | depthFirst =>
    refine (DepthFirst.turn_ensures h).bind fun more t ht => ?_
    cases more with
    | true => exact ht
    | false => exact ht
  | walks k => exact (Walks.turn_ensures h).bind fun _ _ ht => ht
  | bounded q => exact (Bounded.turn_ensures h).bind fun _ _ ht => ht

theorem Walks.start_ensures (h : Stands s₀ w kept .ready s) :
    Ensures Walks.start s (fun k => Stands s₀ w [k.initial] .ready) (Breaks s₀ w) := by
  simp only [Walks.start, ensures_get, ensures_withExplorer]
  have hv : Stands s₀ w kept .ready
      { s with explorer := s.explorer.randomizeChoices s.config.seed } :=
    h.lingers ⟨rfl, rfl, rfl, rfl, rfl⟩ (s.explorer.lingers_randomizeChoices _)
      (.refl _)
  refine (stored_ensures hv).bind fun trail t ht => ?_
  rw [ensures_note_bind]
  exact (ht.noted _ _).forget (by simp)

theorem Bounded.start_ensures (h : Stands s₀ w kept .ready s) :
    Ensures Bounded.start s (fun q => Stands s₀ w q.queued .ready) (Breaks s₀ w) := by
  simp only [Bounded.start, ensures_get]
  split
  · exact h.forget (by simp [waiting, WorkQueue.toList, WorkQueue.empty])
  · refine (stored_ensures h).bind fun trail t ht => ?_
    exact ht.forget (by simp [waiting, WorkQueue.toList, WorkQueue.empty, WorkQueue.push])

theorem start_ensures (hstop : w.stop = true → s₀.stop = true) (hlower : w.lo ≤ s₀.explorer.births)
    (hupper : s₀.explorer.births ≤ w.hi) :
    Ensures start s₀ (fun f => Stands s₀ w f.kept .ready) (Breaks s₀ w) := by
  simp only [start, ensures_get, ensures_modifySession_bind, ensures_note_bind]
  have hkept : ∀ cs, Kept cs [] := fun _ _ htrail => by cases htrail
  refine Ensures.bind (emit_stands ?_ Chronicle.started (hkept _) hlower hupper) fun _ t ht => ?_
  · exact ⟨rfl, rfl, ⟨rfl, rfl, hstop, by simp [answers, Registry.tellings]⟩,
      by simp [Willing, answers, Registry.tellings]⟩
  obtain ⟨_, ht⟩ := ht
  split
  · exact ht
  · exact (Walks.start_ensures ht).bind fun _ _ hv => hv
  · exact (Bounded.start_ensures ht).bind fun _ _ hv => hv

theorem finish_ensures {cs : List Callback} (h : Informed s₀ w cs s)
    (hc : Chronicle s₀ .ready cs s.explorer s.session) (hlower : w.lo ≤ s.explorer.births)
    (hupper : s.explorer.births ≤ w.hi) :
    Ensures finish s
      (fun report t => report = .ofSession t.session ∧
        s.Becomes s.explorer { s.session with done := true } t ∧
        Informed s₀ w (⟨.searchFinished, { s.session with done := true }, s.explorer⟩ :: cs) t)
      (Breaks s₀ w) := by
  rw [finish, ensures_modifySession_bind]
  refine Ensures.bind (emit_informs ?_ (hc.finished rfl) hlower hupper) fun _ t ht => ?_
  · exact h.silently ⟨rfl, rfl, rfl, rfl, rfl⟩
  obtain ⟨hkeeps, ht⟩ := ht
  simp only [ensures_get, ensures_note_bind]
  exact ⟨rfl, ⟨hkeeps.config, hkeeps.properties, hkeeps.explorer, hkeeps.session⟩,
    ht.silently ⟨rfl, rfl, rfl, rfl, rfl⟩⟩

theorem Stands.requested (h : Stands s₀ w kept phase s) (requested : Bool) :
    Stands s₀ w kept phase { s with stop := s.stop || requested } := by
  obtain ⟨cs, hinformed, hc, hkept⟩ := h.told
  have htold := hinformed.told
  refine ⟨⟨cs, ⟨hinformed.config, hinformed.properties, ?_, hinformed.willing⟩, hc, hkept⟩, h.lower,
    h.upper⟩
  refine ⟨htold.listeners, htold.deliveries, fun hstop => ?_, fun a ha hasked => ?_⟩
  · simp [htold.stop hstop]
  · obtain ⟨hstop, hlo⟩ := htold.asked a ha hasked
    exact ⟨by simp [hstop], hlo⟩

theorem Stands.renew (h : Stands s₀ w kept phase s) (hstop : s.stop = false) :
    Stands s₀ ⟨false, s.explorer.births, s.explorer.births⟩ kept phase s := by
  obtain ⟨cs, hinformed, hc, hkept⟩ := h.told
  have htold := hinformed.told
  refine ⟨⟨cs, ⟨hinformed.config, hinformed.properties, ?_, hinformed.willing⟩, hc, hkept⟩, le_rfl,
    le_rfl⟩
  refine ⟨htold.listeners, htold.deliveries, by simp, fun a ha hasked => ?_⟩
  cases (htold.asked a ha hasked).1.symm.trans hstop

theorem Ensures.turnsAsked {requested : Bool} {later : List Bool}
    {Q R : Option Frontier → Search → Prop} {E : SearchError → Search → Prop}
    (h : Ensures (turn f) { s with stop := s.stop || requested } R E)
    (hend : ∀ t, R none t → Q none t)
    (hgoes : ∀ g t, R (some g) t → Ensures (turnsAsked later g) t Q E) :
    Ensures (turnsAsked (requested :: later) f) s Q E := by
  refine Ensures.bind (Q := fun _ t => t = { s with stop := s.stop || requested }) rfl ?_
  rintro _ t rfl
  refine h.bind fun r t hr => ?_
  cases r with
  | none => exact hend t hr
  | some g => exact hgoes g t hr

/-- After a request no node is made, and the strategy soon comes to its end. -/
theorem turnsAsked_requested (h : Stands s₀ w f.kept .ready s) (hw : w.stop = true) :
    Ensures (turnsAsked requests f) s
      (fun r t => Stands s₀ w ((r.map Frontier.kept).getD []) .ready t ∧
        (r = none → ¬ t.session.Clean) ∧
        ∀ g, r = some g → requests.length + g.windUp ≤ f.windUp)
      (Breaks s₀ w) := by
  induction requests generalizing s f with
  | nil => exact ⟨h, by simp, by simp⟩
  | cons requested later ih =>
    have hstop : (s.stop || requested) = true := by
      obtain ⟨cs, hinformed, _⟩ := h.told
      simp [hinformed.told.stop hw]
    have hsame : w.after (s.stop || requested) = w := by
      rw [hstop]
      rfl
    refine Ensures.turnsAsked ((turn_ensures (h.requested requested)).mono (fun _ _ ht => ht)
      fun _ _ he => hsame ▸ he) (fun t ht => ?_) fun g t ht => ?_
    · have hstands : Stands s₀ w [] .ready t := hsame ▸ ht.stands
      obtain ⟨cs, hinformed, _⟩ := hstands.told
      exact ⟨hstands, fun _ => ht.last rfl (hinformed.told.stop hw), by simp⟩
    · refine (ih (hsame ▸ ht.stands)).mono ?_ fun _ _ he => he
      rintro r v ⟨hv, hlast, hsoon⟩
      refine ⟨hv, hlast, fun g' hg' => ?_⟩
      have hfirst := ht.asked hstop g rfl
      have hrest := hsoon g' hg'
      rw [List.length_cons]
      omega

/-- At any time a node was made at most since the first request. -/
theorem turnsAsked_ensures (h : Stands s₀ w f.kept .ready s) (hw : w.hi ≤ w.lo + 1) :
    Ensures (turnsAsked requests f) s
      (fun r t => ∃ w : Watch, w.hi ≤ w.lo + 1 ∧
        Stands s₀ w ((r.map Frontier.kept).getD []) .ready t ∧
        (r = none → t.stop = true → ¬ t.session.Clean))
      (fun e t => ∃ w : Watch, w.hi ≤ w.lo + 1 ∧ Breaks s₀ w e t) := by
  induction requests generalizing s f w with
  | nil => exact ⟨w, hw, h, by simp⟩
  | cons requested later ih =>
    -- Unless there was a request, the count starts again with this turn.
    obtain ⟨v, hv, hstands⟩ : ∃ v : Watch, (v.after (s.stop || requested)).hi ≤
        (v.after (s.stop || requested)).lo + 1 ∧
        Stands s₀ v f.kept .ready { s with stop := s.stop || requested } := by
      cases hstop : (s.stop || requested) with
      | true => exact ⟨w, hw, hstop ▸ h.requested requested⟩
      | false => exact ⟨_, le_rfl, hstop ▸ (h.requested requested).renew hstop⟩
    refine Ensures.turnsAsked
      ((turn_ensures hstands).mono (fun _ _ ht => ht) fun e t he => ⟨_, hv, he⟩)
      (fun t ht => ⟨_, hv, ht.stands, fun _ => ht.last rfl⟩) fun g t ht => ?_
    exact ih ht.stands hv

inductive Outcome (s₀ : Search) (w : Watch) : Except SearchError (Option Report) → Search → Prop where
  | ended {cs : List Callback} {t : Search} (h : Informed s₀ w cs t)
      (hc : Chronicle s₀ .ended cs t.explorer t.session) (hupper : t.explorer.births ≤ w.hi)
      (hasked : ∀ a ∈ answers s₀.deliveries (Registry.tellings s₀.listeners cs),
        a.2.stop = true → a.1.callback.event ≠ .searchFinished → ¬ t.session.Clean) :
      Outcome s₀ w (.ok (some (.ofSession t.session))) t
  | underway {t : Search} (h : Stands s₀ w [] .ready t) : Outcome s₀ w (.ok none) t
  | broken {e : SearchError} {t : Search} (h : Breaks s₀ w e t) : Outcome s₀ w (.error e) t

theorem finish_outcome (h : Stands s₀ w kept .ready s)
    (hlast : s.stop = true → ¬ s.session.Clean) :
    Ensures finish s (fun report => Outcome s₀ w (.ok (some report))) (Breaks s₀ w) := by
  obtain ⟨cs, hinformed, hc, _⟩ := h.told
  refine (finish_ensures hinformed hc h.lower h.upper).mono ?_ fun _ _ he => he
  rintro _ t ⟨rfl, hbecomes, htold⟩
  refine .ended htold ?_ ?_ fun a ha hasked hevent hclean => ?_
  · rw [hbecomes.explorer, hbecomes.session]
    exact hc.finished rfl
  · rw [hbecomes.explorer]
    exact h.upper
  · rw [hbecomes.session] at hclean
    rcases mem_answers_append ha with hnew | hold
    · rw [Callback.callback_of_mem_tellings hnew] at hevent
      exact hevent rfl
    · exact hlast (hinformed.told.asked a hold hasked).1
        ⟨hclean.errors, hclean.constraints, hclean.terminated⟩

/-- A run tells its chronicle, however it comes out, and goes on for a step at most when it is asked
to stop. -/
theorem run_outcome {outcome : Except SearchError (Option Report)}
    (h : s₀.perform (runAsked requests) = (outcome, s)) :
    ∃ w : Watch, w.hi ≤ w.lo + 1 ∧ Outcome s₀ w outcome s := by
  have hrun : Ensures (runAsked requests) s₀
      (fun r t => ∃ w : Watch, w.hi ≤ w.lo + 1 ∧ Outcome s₀ w (.ok r) t)
      (fun e t => ∃ w : Watch, w.hi ≤ w.lo + 1 ∧ Breaks s₀ w e t) := by
    let w : Watch := ⟨s₀.stop, s₀.explorer.births, s₀.explorer.births⟩
    have hstart : Ensures start s₀ (fun f => Stands s₀ w f.kept .ready) (Breaks s₀ w) :=
      start_ensures id le_rfl le_rfl
    refine (hstart.mono (fun _ _ hf => hf) fun _ _ he => ⟨_, Nat.le_succ _, he⟩).bind
      fun f t ht => ?_
    refine (turnsAsked_ensures ht (Nat.le_succ _)).bind fun r v hv => ?_
    obtain ⟨w, hw, hv, hlast⟩ := hv
    cases r with
    | some g => exact ⟨w, hw, .underway (hv.forget (by simp))⟩
    | none =>
      refine Ensures.bind (Q := fun report z => Outcome s₀ w (.ok (some report)) z) ?_
        fun report z hz => ⟨w, hw, hz⟩
      exact (finish_outcome hv (hlast rfl)).mono (fun _ _ hz => hz) fun _ _ he => ⟨w, hw, he⟩
  rcases hrun.perform h with ⟨r, rfl, hr⟩ | ⟨e, rfl, w, hw, he⟩
  · exact hr
  · exact ⟨w, hw, .broken he⟩

end Runs

end Interleave.Search
