import Interleave.Proofs.Search.Interrupted

set_option autoImplicit false

namespace Interleave

namespace Registry

inductive Call where
  | add (entry : Registered)
  | remove (id : Nat)

def apply (r : Registry) : Call → Registry
  | .add entry => (add r entry).2
  | .remove id => (remove r id).2

def after (calls : List Call) : Registry := calls.foldl apply []

def removes : List Call → Nat → Bool
  | [], _ => false
  | .add _ :: later, id => removes later id
  | .remove other :: later, id => other = id || removes later id

def remaining : List Call → List Registered
  | [] => []
  | .add entry :: later =>
    if removes later entry.id then remaining later else entry :: remaining later
  | .remove _ :: later => remaining later

def firsts : List Registered → Registry
  | [] => []
  | entry :: later => entry :: (firsts later).filter (·.id ≠ entry.id)

theorem ids_firsts (l : List Registered) : ((firsts l).map (·.id)).Nodup := by
  induction l with
  | nil => exact List.nodup_nil
  | cons entry later ih =>
    refine List.nodup_cons.2 ⟨?_, ih.sublist ((List.filter_sublist).map _)⟩
    simp

theorem firsts_eq_self {l : List Registered} (h : (l.map (·.id)).Nodup) : firsts l = l := by
  induction l with
  | nil => rfl
  | cons entry later ih =>
    rw [List.map_cons, List.nodup_cons] at h
    rw [firsts, ih h.2, List.filter_eq_self.2 fun other hother => ?_]
    have hne : other.id ≠ entry.id := fun heq => h.1 (heq ▸ List.mem_map_of_mem hother)
    simpa using hne

theorem firsts_filter (p : Nat → Bool) (l : List Registered) :
    firsts (l.filter fun entry => p entry.id) = (firsts l).filter fun entry => p entry.id := by
  induction l with
  | nil => rfl
  | cons entry later ih =>
    rw [List.filter_cons, firsts, List.filter_cons]
    cases hp : p entry.id with
    | true =>
      rw [if_pos rfl, if_pos rfl, firsts, ih, List.filter_filter, List.filter_filter]
      simp only [Bool.and_comm]
    | false =>
      rw [if_neg Bool.false_ne_true, if_neg Bool.false_ne_true, ih, List.filter_filter]
      refine List.filter_congr fun other _ => ?_
      by_cases heq : other.id = entry.id
      · simp [heq, hp]
      · simp [heq]

theorem firsts_append_cons {l later : List Registered} {entry : Registered}
    (h : entry.id ∈ l.map (·.id)) : firsts (l ++ entry :: later) = firsts (l ++ later) := by
  induction l with
  | nil => cases h
  | cons other l ih =>
    rw [List.cons_append, List.cons_append, firsts, firsts]
    by_cases heq : entry.id = other.id
    · -- The second entry is left out with all others for the same listener.
      rw [← firsts_filter (· ≠ other.id), ← firsts_filter (· ≠ other.id)]
      simp [heq]
    · rw [ih (by simpa [heq] using h)]

theorem contains_iff {r : Registry} {id : Nat} : contains r id = true ↔ id ∈ r.map (·.id) := by
  simp [contains]

/-- Listeners that are there stay as long as they are not removed, before those that are added. -/
theorem foldl_apply (calls : List Call) {r : Registry} (hr : (r.map (·.id)).Nodup) :
    calls.foldl apply r =
      firsts (r.filter (fun entry => !removes calls entry.id) ++ remaining calls) := by
  induction calls generalizing r with
  | nil => simp [remaining, removes, firsts_eq_self hr]
  | cons call later ih =>
    rw [List.foldl_cons]
    cases call with
    | add entry =>
      by_cases hmem : entry.id ∈ r.map (·.id)
      · have hsame : apply r (.add entry) = r := by simp [apply, add, contains_iff.2 hmem]
        rw [hsame, ih hr, remaining]
        split
        · rfl
        · next hkept =>
          refine (firsts_append_cons ?_).symm
          obtain ⟨other, hother, hid⟩ := List.mem_map.1 hmem
          refine List.mem_map.2 ⟨other, List.mem_filter.2 ⟨hother, ?_⟩, hid⟩
          simpa [removes, hid] using hkept
      · have hcontains : contains r entry.id = false := by
          rw [← Bool.not_eq_true, contains_iff]
          exact hmem
        have hadd : apply r (.add entry) = r ++ [entry] := by simp [apply, add, hcontains]
        have hnodup : ((r ++ [entry]).map (·.id)).Nodup := by
          rw [List.map_append, List.nodup_append]
          refine ⟨hr, List.nodup_singleton _, fun a ha b hb heq => hmem ?_⟩
          rw [heq, List.mem_singleton.1 hb] at ha
          exact ha
        rw [hadd, ih hnodup, remaining, List.filter_append, List.filter_singleton]
        cases hremoved : removes later entry.id <;> simp [removes]
    | remove id =>
      have hremove : apply r (.remove id) = r.filter (·.id ≠ id) := rfl
      rw [hremove, ih (hr.sublist ((List.filter_sublist).map _)), remaining, List.filter_filter]
      congr 2
      refine List.filter_congr fun entry _ => ?_
      by_cases heq : entry.id = id
      · simp [removes, heq]
      · simp [removes, heq, Ne.symm heq]

/-- The listeners after some calls stand in the order of their first call that was not undone. -/
theorem after_eq (calls : List Call) : after calls = firsts (remaining calls) := by
  rw [after, foldl_apply calls (by simp)]
  rfl

theorem ids_after (calls : List Call) : ((after calls).map (·.id)).Nodup := by
  rw [after_eq]
  exact ids_firsts _

theorem order_perm (r : Registry) (event : Event) : (order r event).Perm r := by
  cases event with
  | searchFinished => exact List.reverse_perm r
  | _ => exact .refl r

theorem mem_tellings {r : Registry} {cs : List Callback} {t : Telling} (h : t ∈ tellings r cs) :
    t.entry ∈ r ∧ t.callback ∈ cs := by
  obtain ⟨c, hc, ht⟩ := List.mem_flatMap.1 h
  obtain ⟨entry, hentry, rfl⟩ := List.mem_map.1 (List.mem_reverse.1 ht)
  exact ⟨(order_perm r _).mem_iff.1 hentry, hc⟩

end Registry

theorem Declined.mem {base : List Delivery} {c : Callback} {r : Registry} {cs : List Callback}
    {e : SearchError} {told : List Telling} {t : Telling}
    (h : Declined base c (Registry.tellings r cs) (Registry.order r c.event) e told)
    (ht : t ∈ told) : t.entry ∈ r ∧ t.callback ∈ c :: cs := by
  obtain ⟨first, entry, rest, reason, horder, _, _, _, rfl⟩ := h.refused
  rcases List.mem_append.1 ht with ht | ht
  · obtain ⟨other, hother, rfl⟩ := List.mem_map.1 (List.mem_reverse.1 ht)
    refine ⟨(Registry.order_perm r c.event).mem_iff.1 ?_, List.mem_cons_self⟩
    rw [horder]
    simpa [or_assoc] using Or.inl (List.mem_append.1 hother)
  · obtain ⟨hentry, hmem⟩ := Registry.mem_tellings ht
    exact ⟨hentry, List.mem_cons_of_mem c hmem⟩

theorem Callback.tellings_concat (c : Callback) (first : List Registered) (entry : Registered) :
    c.tellings (first ++ [entry]) = ⟨entry, c⟩ :: c.tellings first := by
  simp [Callback.tellings]

theorem mem_answers (base : List Delivery) (newer older : List Telling) (t : Telling) :
    (t, t.entry.answer t.callback (older.map Telling.delivery ++ base)) ∈
      answers base (newer ++ t :: older) := by
  induction newer with
  | nil => exact List.mem_cons_self
  | cons _ newer ih => exact List.mem_cons_of_mem _ ih

theorem exists_telling {r : Registry} (hids : (r.map (·.id)).Nodup) {base : List Delivery}
    {told : List Telling} (hmem : ∀ t ∈ told, t.entry ∈ r) {later earlier : List Delivery}
    {d : Delivery} (h : told.map Telling.delivery ++ base = later ++ d :: (earlier ++ base))
    {entry : Registered} (hentry : entry ∈ r) (hid : entry.id = d.listener) :
    ∃ newer older, told = newer ++ ⟨entry, d.callback⟩ :: older ∧
      newer.map Telling.delivery = later ∧ older.map Telling.delivery = earlier := by
  rw [← List.cons_append, ← List.append_assoc, List.append_left_inj] at h
  obtain ⟨newer, rest, rfl, hnewer, hrest⟩ := List.map_eq_append_iff.1 h
  obtain ⟨t, older, rfl, ht, holder⟩ := List.map_eq_cons_iff.1 hrest
  have hsame : t.entry = entry := by
    refine List.inj_on_of_nodup_map hids (hmem t (by simp)) hentry ?_
    rw [hid, ← ht]
    rfl
  refine ⟨newer, older, ?_, hnewer, holder⟩
  rw [← hsame, ← ht]
  rfl

namespace Search

variable {s s' : Search} {w : Watch} {outcome : Except SearchError (Option Report)}

def ReportsPass (outcome : Except SearchError (Option Report)) : Prop :=
  ∃ report, outcome = .ok (some report) ∧ report.isPass = true

/-- However a run comes out, what was told belongs to its chronicle and went to its listeners, and
nothing passes that someone has asked to stop before the end. -/
theorem Outcome.told (h : Outcome s w outcome s') :
    ∃ told phase cs x b, Told s w told s' ∧ Chronicle s phase cs x b ∧
      (∀ t ∈ told, t.entry ∈ s.listeners ∧ t.callback ∈ cs) ∧
      ∀ a ∈ answers s.deliveries told, a.2.stop = true →
        a.1.callback.event ≠ .searchFinished → ¬ ReportsPass outcome := by
  have hunreported : ∀ {outcome : Except SearchError (Option Report)},
      (∀ report, outcome ≠ .ok (some report)) → ¬ ReportsPass outcome := by
    rintro _ hnone ⟨report, hreport, _⟩
    exact hnone report hreport
  cases h with
  | ended h hc _ hasked =>
    refine ⟨_, _, _, _, _, h.told, hc, fun t => Registry.mem_tellings, fun a ha hstop hevent => ?_⟩
    rintro ⟨report, hreport, hpass⟩
    cases hreport
    exact hasked a ha hstop hevent (Report.isPass_ofSession.1 hpass)
  | underway h =>
    obtain ⟨cs, hinformed, hc, _⟩ := h.told
    exact ⟨_, _, _, _, _, hinformed.told, hc, fun t => Registry.mem_tellings,
      fun _ _ _ _ => hunreported (by simp)⟩
  | broken h =>
    cases h with
    | declined hc hdeclined htold =>
      exact ⟨_, _, _, _, _, htold, hc, fun t => hdeclined.mem, fun _ _ _ _ => hunreported (by simp)⟩
    | failed h =>
      obtain ⟨cs, hinformed, hc, _⟩ := h.told
      exact ⟨_, _, _, _, _, hinformed.told, hc, fun t => Registry.mem_tellings,
        fun _ _ _ _ => hunreported (by simp)⟩

/-- How the events of a run reach its listeners: everyone is told of all of them, or someone declines
the newest one and the run fails. -/
inductive Dispatched (s : Search) : Except SearchError (Option Report) → Search → Prop where
  | all {outcome : Except SearchError (Option Report)} {s' : Search} {phase : Phase}
      {cs : List Callback} (hc : Chronicle s phase cs s'.explorer s'.session)
      (hover : ∀ report, outcome = .ok (some report) → phase = .ended)
      (htold : s'.deliveries =
        (Registry.tellings s.listeners cs).map Telling.delivery ++ s.deliveries)
      (hwilling : Willing s.deliveries (Registry.tellings s.listeners cs))
      (hfailed : ∀ name event reason, outcome ≠ .error (.listener name event reason)) :
      Dispatched s outcome s'
  | declined {e : SearchError} {s' : Search} {phase : Phase} {cs : List Callback} {c : Callback}
      {x : Explorer} {b : Session} {told : List Telling} (hc : Chronicle s phase (c :: cs) x b)
      (hdeclined : Declined s.deliveries c (Registry.tellings s.listeners cs)
        (Registry.order s.listeners c.event) e told)
      (htold : s'.deliveries = told.map Telling.delivery ++ s.deliveries) :
      Dispatched s (.error e) s'

theorem Outcome.dispatched (h : Outcome s w outcome s') : Dispatched s outcome s' := by
  cases h with
  | ended h hc => exact .all hc (fun _ _ => rfl) h.told.deliveries h.willing (by simp)
  | underway h =>
    obtain ⟨cs, hinformed, hc, _⟩ := h.told
    exact .all hc (by simp) hinformed.told.deliveries hinformed.willing (by simp)
  | broken h =>
    cases h with
    | declined hc hdeclined htold => exact .declined hc hdeclined htold.deliveries
    | failed h he =>
      obtain ⟨cs, hinformed, hc, _⟩ := h.told
      exact .all hc (by simp) hinformed.told.deliveries hinformed.willing (by simpa using he)

/-- A listener that refuses is the last one to be told, and the run fails with its refusal. -/
theorem Dispatched.refused (hids : (s.listeners.map (·.id)).Nodup) (h : Dispatched s outcome s')
    {later earlier : List Delivery} {d : Delivery}
    (hd : s'.deliveries = later ++ d :: (earlier ++ s.deliveries)) {entry : Registered}
    (hentry : entry ∈ s.listeners) (hid : entry.id = d.listener) {reason : String}
    (hreason : (entry.answer d.callback (earlier ++ s.deliveries)).refusal = some reason) :
    later = [] ∧ outcome = .error (.listener entry.listener.name d.callback.event.name reason) := by
  cases h with
  | all _ _ htold hwilling =>
    rw [htold] at hd
    obtain ⟨newer, older, hall, _, rfl⟩ := exists_telling hids
      (fun t ht => (Registry.mem_tellings ht).1) hd hentry hid
    have hanswer := mem_answers s.deliveries newer older ⟨entry, d.callback⟩
    rw [← hall] at hanswer
    cases (hwilling _ hanswer).symm.trans hreason
  | declined _ hdeclined htold =>
    rw [htold] at hd
    obtain ⟨newer, older, hall, rfl, rfl⟩ := exists_telling hids
      (fun t ht => (hdeclined.mem ht).1) hd hentry hid
    obtain ⟨first, last, rest, reason', _, hwilling, hreason', rfl, rfl⟩ := hdeclined.refused
    rw [Callback.tellings_concat, List.cons_append] at hall
    cases newer with
    | nil =>
      obtain ⟨hsame, hrest⟩ := List.cons.inj hall
      cases hsame
      rw [← hrest, hreason'] at hreason
      cases hreason
      exact ⟨rfl, rfl⟩
    | cons _ newer =>
      -- Everyone who was told before has answered without a refusal.
      have hanswer := mem_answers s.deliveries newer older ⟨entry, d.callback⟩
      rw [List.cons_append] at hall
      rw [← (List.cons.inj hall).2] at hanswer
      cases (hwilling _ hanswer).symm.trans hreason

/-- Every event of a run goes to the listeners that are left after the calls, to each once and in the
order of the calls, the last event the other way round. A listener that refuses an event is the last
one to be told of anything, and the run fails with its refusal. -/
theorem run_dispatched {calls : List Registry.Call} {requests : List Bool}
    (hcalls : s.listeners = Registry.after calls)
    (h : s.perform (runAsked requests) = (outcome, s')) :
    s.listeners = Registry.firsts (Registry.remaining calls) ∧
    (s.listeners.map (·.id)).Nodup ∧ Dispatched s outcome s' ∧
    ∀ later d earlier entry reason, s'.deliveries = later ++ d :: (earlier ++ s.deliveries) →
      entry ∈ s.listeners → entry.id = d.listener →
      (entry.answer d.callback (earlier ++ s.deliveries)).refusal = some reason →
      later = [] ∧
        outcome = .error (.listener entry.listener.name d.callback.event.name reason) := by
  have hids : (s.listeners.map (·.id)).Nodup := hcalls ▸ Registry.ids_after calls
  obtain ⟨w, _, houtcome⟩ := run_outcome h
  refine ⟨hcalls.trans (Registry.after_eq calls), hids, houtcome.dispatched, ?_⟩
  intro later d earlier entry reason hd hentry hid hreason
  exact houtcome.dispatched.refused hids hd hentry hid hreason

end Search

/-- A search of a program that was not run before, with the listeners that are left after some
calls. -/
structure Search.Attended (p : Program) (calls : List Registry.Call) (s : Search) : Prop where
  start : s.explorer.Started p s.config
  listeners : s.listeners = Registry.after calls
  deliveries : s.deliveries = []

def Check.attended? (p : Program) (c : Config) (calls : List Registry.Call) : Option Search :=
  match Check.prepare p c .error with
  | .error _ => none
  | .ok s => some { s with listeners := Registry.after calls }

theorem Check.attended?_eq_some {p : Program} {c : Config} {calls : List Registry.Call} {s : Search}
    (h : Check.attended? p c calls = some s) : s.Attended p calls := by
  unfold Check.attended? at h
  split at h
  · cases h
  · next hprepare =>
    cases h
    obtain ⟨x, hx, hrest⟩ := bind_eq_ok.1 hprepare
    obtain ⟨search, hsearch, hrest⟩ := bind_eq_ok.1 hrest
    cases hrest
    have hnew := mapError_eq_ok.1 hsearch
    unfold Search.new at hnew
    split at hnew
    · cases hnew
    · cases hnew
      exact ⟨⟨_, mapError_eq_ok.1 hx⟩, rfl, rfl⟩

def Check.attend? (p : Program) (c : Config) (calls : List Registry.Call) (requests : List Bool) :
    Option (Search × Report × Search) :=
  (Check.attended? p c calls).bind fun s =>
    match s.perform (Search.runAsked requests) with
    | (.ok (some report), s') => some (s, report, s')
    | _ => none

theorem Check.attend?_eq_some {p : Program} {c : Config} {calls : List Registry.Call}
    {requests : List Bool} {s s' : Search} {report : Report}
    (h : Check.attend? p c calls requests = some (s, report, s')) :
    s.Attended p calls ∧ s.perform (Search.runAsked requests) = (.ok (some report), s') := by
  obtain ⟨search, hsearch, h⟩ := Option.bind_eq_some_iff.1 h
  split at h
  · next hperform =>
    cases h
    exact ⟨Check.attended?_eq_some hsearch, hperform⟩
  · cases h

def Listener.reluctant (name reason : String) : Listener :=
  ⟨name, fun c _ => { Reaction.quiet with
    refusal := if c.event = .stateAdvanced then some reason else none }⟩

namespace Search

def failure? : Except SearchError (Option Report) → Option SearchError
  | .ok _ => none
  | .error e => some e

/-- Of three listeners, one of which was added twice and one of which was removed and added again, the
second refuses the first step. -/
theorem relay_dispatched : ∃ s s' : Search,
    s.Attended (relay (counter .eq 2))
      [.add ⟨0, .silent "zero"⟩, .add ⟨1, .silent "one"⟩, .remove 0,
        .add ⟨2, .reluctant "two" "enough"⟩, .add ⟨1, .silent "one"⟩, .add ⟨0, .silent "zero"⟩] ∧
    s.listeners.map (·.id) = [1, 2, 0] ∧
    s.perform (runAsked [false, false]) = (.error (.listener "two" "state_advanced" "enough"), s') ∧
    s'.deliveries.map (fun d => (d.listener, d.callback.event)) =
      [(2, .stateAdvanced), (1, .stateAdvanced), (0, .searchStarted), (2, .searchStarted),
        (1, .searchStarted)] ∧
    Dispatched s (.error (.listener "two" "state_advanced" "enough")) s' := by
  have hrun : (Check.attended? (relay (counter .eq 2)) Config.default
      [.add ⟨0, .silent "zero"⟩, .add ⟨1, .silent "one"⟩, .remove 0,
        .add ⟨2, .reluctant "two" "enough"⟩, .add ⟨1, .silent "one"⟩,
        .add ⟨0, .silent "zero"⟩]).map (fun s => (s.listeners.map (·.id),
        failure? (s.perform (runAsked [false, false])).1,
        (s.perform (runAsked [false, false])).2.deliveries.map fun d =>
          (d.listener, d.callback.event))) =
      some ([1, 2, 0], some (.listener "two" "state_advanced" "enough"),
        [(2, .stateAdvanced), (1, .stateAdvanced), (0, .searchStarted), (2, .searchStarted),
          (1, .searchStarted)]) := by
    decide +kernel
  obtain ⟨s, hattended, hfound⟩ := Option.map_eq_some_iff.1 hrun
  simp only [Prod.mk.injEq] at hfound
  obtain ⟨hids, hfailure, hdeliveries⟩ := hfound
  have hs := Check.attended?_eq_some hattended
  rcases hperform : s.perform (runAsked [false, false]) with ⟨outcome, s'⟩
  rw [hperform] at hfailure hdeliveries
  cases outcome with
  | ok _ => cases hfailure
  | error e =>
    cases hfailure
    refine ⟨s, s', hs, hids, hperform, hdeliveries, ?_⟩
    exact (run_dispatched hs.listeners hperform).2.2.1

end Search

end Interleave
