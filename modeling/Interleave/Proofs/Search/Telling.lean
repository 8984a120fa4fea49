import Interleave.Proofs.Search.Actions

set_option autoImplicit false

/-! An action of a search succeeds or fails, and in both cases leaves a search behind.
`Search.Ensures` says what holds in each case, with a rule for every way to combine actions. -/

namespace Interleave

namespace Search

def Ensures {α : Type} (m : Run α) (s : Search) (Q : α → Search → Prop)
    (E : SearchError → Search → Prop) : Prop :=
  match s.perform m with
  | (.ok a, t) => Q a t
  | (.error e, t) => E e t

section Ensures

variable {α β : Type} {m : Run α} {s t : Search} {Q R : α → Search → Prop}
  {E F : SearchError → Search → Prop} {f : Session → Session} {g : Unit → Run β}

theorem Ensures.perform {r : Except SearchError α} (h : Ensures m s Q E)
    (hm : s.perform m = (r, t)) : (∃ a, r = .ok a ∧ Q a t) ∨ ∃ e, r = .error e ∧ E e t := by
  unfold Ensures at h
  rw [hm] at h
  cases r with
  | ok a => exact .inl ⟨a, rfl, h⟩
  | error e => exact .inr ⟨e, rfl, h⟩

theorem Ensures.mono (h : Ensures m s Q E) (hQ : ∀ a t, Q a t → R a t)
    (hE : ∀ e t, E e t → F e t) : Ensures m s R F := by
  unfold Ensures at h ⊢
  split at h
  · exact hQ _ _ h
  · exact hE _ _ h

theorem ensures_throw {e : SearchError} : Ensures (throw e) s Q E ↔ E e s := Iff.rfl

theorem Ensures.bind {f : α → Run β} {R : β → Search → Prop} (h : Ensures m s Q E)
    (hf : ∀ a t, Q a t → Ensures (f a) t R E) : Ensures (m >>= f) s R E := by
  unfold Ensures at h ⊢
  rw [perform_bind]
  rcases hm : s.perform m with ⟨e | a, t⟩
  · rw [hm] at h
    exact h
  · rw [hm] at h
    exact hf a t h

theorem ensures_get {f : Search → Run β} {R : β → Search → Prop} :
    Ensures (get >>= f) s R E ↔ Ensures (f s) s R E := Iff.rfl

theorem ensures_set {f : Unit → Run β} {R : β → Search → Prop} :
    Ensures (set t >>= f) s R E ↔ Ensures (f ()) t R E := Iff.rfl

theorem ensures_withExplorer {f : Explorer → α × Explorer} {g : α → Run β}
    {R : β → Search → Prop} :
    Ensures (withExplorer f >>= g) s R E ↔
      Ensures (g (f s.explorer).1) { s with explorer := (f s.explorer).2 } R E := Iff.rfl

theorem ensures_modifySession {R : Unit → Search → Prop} :
    Ensures (modifySession f) s R E ↔ R () { s with session := f s.session } := Iff.rfl

theorem ensures_modifySession_bind {R : β → Search → Prop} :
    Ensures (modifySession f >>= g) s R E ↔
      Ensures (g ()) { s with session := f s.session } R E := Iff.rfl

theorem ensures_note_bind {level : Level} {origin message : String}
    {values : List (String × String)} {R : β → Search → Prop} :
    Ensures (note level origin message values >>= g) s R E ↔ Ensures (g ())
      { s with journal := s.journal.add ⟨level, origin, message, values⟩ } R E := Iff.rfl

theorem ensures_askMemory {g : Option Nat → Run β} {R : β → Search → Prop} :
    Ensures (askMemory >>= g) s R E ↔
      Ensures (g s.probe.ask.1) { s with probe := s.probe.ask.2 } R E := Iff.rfl

theorem checkProperty_ensures (i : Nat) (p : Property) (s : Search) :
    Ensures (checkProperty i p) s
      (fun found t => p.finds s.session s.explorer = .ok found ∧ ∃ memory, t = { s with memory })
      (fun e t => ∃ cause memory,
        e = .property p.name s.lastTransition cause ∧ t = { s with memory }) := by
  obtain ⟨memory, hcheck⟩ := checkProperty_eq i p s
  unfold Ensures
  rw [hcheck]
  cases p.finds s.session s.explorer with
  | error cause => exact ⟨cause, memory, rfl, rfl⟩
  | ok found => exact ⟨rfl, memory, rfl⟩

end Ensures

end Search

structure Telling where
  entry : Registered
  callback : Callback

def Telling.delivery (t : Telling) : Delivery := ⟨t.entry.id, t.callback⟩

def Registered.answer (entry : Registered) (c : Callback) (earlier : List Delivery) : Reaction :=
  entry.listener.react c fun _ => (earlier.filter (·.listener = entry.id)).map (·.callback)

def answers (base : List Delivery) : List Telling → List (Telling × Reaction)
  | [] => []
  | t :: earlier =>
    (t, t.entry.answer t.callback (earlier.map Telling.delivery ++ base)) :: answers base earlier

theorem mem_answers_append {base : List Delivery} {newer told : List Telling}
    {a : Telling × Reaction} (h : a ∈ answers base (newer ++ told)) :
    a.1 ∈ newer ∨ a ∈ answers base told := by
  induction newer with
  | nil => exact .inr h
  | cons t newer ih =>
    rcases List.mem_cons.1 h with rfl | h
    · exact .inl List.mem_cons_self
    · exact (ih h).imp_left (List.mem_cons_of_mem t)

def Willing (base : List Delivery) (told : List Telling) : Prop :=
  ∀ a ∈ answers base told, a.2.refusal = none

/-- Listeners that are told of a callback one after the other, newest first. -/
def Callback.tellings (c : Callback) (entries : List Registered) : List Telling :=
  (entries.map fun entry => ⟨entry, c⟩).reverse

theorem Callback.callback_of_mem_tellings {c : Callback} {entries : List Registered} {t : Telling}
    (h : t ∈ c.tellings entries) : t.callback = c := by
  obtain ⟨entry, _, rfl⟩ := List.mem_map.1 (List.mem_reverse.1 h)
  rfl

/-- Everyone is told of every callback, in the order of its event; newest first. -/
def Registry.tellings (r : Registry) (cs : List Callback) : List Telling :=
  cs.flatMap fun c => c.tellings (order r c.event)

/-- Told of a callback on top of `told`, one of the listeners has refused it. Those before it in
the order were told as well, and those after it were not. -/
structure Declined (base : List Delivery) (c : Callback) (told : List Telling)
    (entries : List Registered) (e : SearchError) (told' : List Telling) : Prop where
  refused : ∃ first entry rest reason, entries = first ++ entry :: rest ∧
    Willing base (c.tellings first ++ told) ∧
    (entry.answer c ((c.tellings first ++ told).map Telling.delivery ++ base)).refusal =
      some reason ∧
    e = .listener entry.listener.name c.event.name reason ∧
    told' = c.tellings (first ++ [entry]) ++ told

namespace Search

/-- What is known of requests to stop: whether there was one before, and between how many nodes and
how many one was made since. -/
structure Watch where
  stop : Bool
  lo : Nat
  hi : Nat

/-- What was told since `s₀`. A search that was asked to stop knows it, and had enough nodes by
then. -/
structure Told (s₀ : Search) (w : Watch) (told : List Telling) (s : Search) : Prop where
  listeners : s.listeners = s₀.listeners
  deliveries : s.deliveries = told.map Telling.delivery ++ s₀.deliveries
  stop : w.stop = true → s.stop = true
  asked : ∀ a ∈ answers s₀.deliveries told, a.2.stop = true →
    s.stop = true ∧ w.lo ≤ a.1.callback.explorer.births

section Told

variable {s₀ s t : Search} {w : Watch} {told : List Telling} {c : Callback} {cs : List Callback}
  {event : Event}

theorem deliver_ensures {entry : Registered} (h : Told s₀ w told s)
    (hlo : w.lo ≤ c.explorer.births) :
    Ensures (deliver c entry) s
      (fun _ t => s.Keeps t ∧ Told s₀ w (⟨entry, c⟩ :: told) t ∧
        (entry.answer c s.deliveries).refusal = none)
      (fun e t => s.Keeps t ∧ Told s₀ w (⟨entry, c⟩ :: told) t ∧
        ∃ reason, (entry.answer c s.deliveries).refusal = some reason ∧
          e = .listener entry.listener.name c.event.name reason) := by
  have htold : ∀ journal, Told s₀ w (⟨entry, c⟩ :: told)
      { s with
        deliveries := ⟨entry.id, c⟩ :: s.deliveries
        stop := s.stop || (entry.answer c s.deliveries).stop
        journal } := by
    refine fun journal => ⟨h.listeners, ?_, fun hstop => ?_, ?_⟩
    · simp [h.deliveries, Telling.delivery]
    · simp [h.stop hstop]
    · rintro a (_ | ⟨_, ha⟩) hasked
      · rw [← h.deliveries] at hasked
        exact ⟨Bool.or_eq_true_iff.2 (.inr hasked), hlo⟩
      · obtain ⟨hstop, hbirths⟩ := h.asked a ha hasked
        exact ⟨by simp [hstop], hbirths⟩
  rw [deliver, ensures_get, ensures_set]
  split
  · next reason hreason => exact ⟨⟨rfl, rfl, rfl, rfl⟩, htold _, reason, hreason, rfl⟩
  · next hnone => exact ⟨⟨rfl, rfl, rfl, rfl⟩, htold _, hnone⟩

theorem deliverAll_ensures {entries : List Registered} (h : Told s₀ w told s)
    (hwilling : Willing s₀.deliveries told) (hlo : w.lo ≤ c.explorer.births) :
    Ensures (deliverAll c entries) s
      (fun _ t => s.Keeps t ∧ Told s₀ w (c.tellings entries ++ told) t ∧
        Willing s₀.deliveries (c.tellings entries ++ told))
      (fun e t => s.Keeps t ∧ ∃ told', Told s₀ w told' t ∧
        Declined s₀.deliveries c told entries e told') := by
  induction entries generalizing s told with
  | nil => exact ⟨.refl s, h, hwilling⟩
  | cons entry rest ih =>
    have hcons : ∀ l : List Registered,
        c.tellings l ++ ⟨entry, c⟩ :: told = c.tellings (entry :: l) ++ told := by
      intro l
      simp [Callback.tellings]
    have hdeliveries := h.deliveries
    refine ((deliver_ensures h hlo).mono (fun _ t ht => ht) ?_).bind fun _ t ht => ?_
    · rintro e t ⟨hkeeps, htold, reason, hreason, he⟩
      rw [hdeliveries] at hreason
      exact ⟨hkeeps, _, htold, [], entry, rest, reason, rfl, hwilling, hreason, he, rfl⟩
    · obtain ⟨hkeeps, htold, hnone⟩ := ht
      rw [hdeliveries] at hnone
      have hwilling' : Willing s₀.deliveries (⟨entry, c⟩ :: told) := by
        rintro a (_ | ⟨_, ha⟩)
        · exact hnone
        · exact hwilling a ha
      refine (ih htold hwilling').mono ?_ ?_
      · rintro _ v ⟨hkept, hv⟩
        rw [hcons] at hv
        exact ⟨hkeeps.keeps hkept, hv⟩
      · rintro e v ⟨hkept, told', htold', hrefused⟩
        refine ⟨hkeeps.keeps hkept, told', htold', ?_⟩
        obtain ⟨first, last, others, reason, rfl, hfirst, hreason, he, htold''⟩ := hrefused.refused
        rw [hcons] at hfirst hreason htold''
        exact ⟨entry :: first, last, others, reason, rfl, hfirst, hreason, he, htold''⟩

structure Informed (s₀ : Search) (w : Watch) (cs : List Callback) (s : Search) : Prop where
  config : s.config = s₀.config
  properties : s.properties = s₀.properties
  told : Told s₀ w (Registry.tellings s₀.listeners cs) s
  willing : Willing s₀.deliveries (Registry.tellings s₀.listeners cs)

structure Silently (s t : Search) : Prop where
  config : t.config = s.config
  properties : t.properties = s.properties
  listeners : t.listeners = s.listeners
  deliveries : t.deliveries = s.deliveries
  stop : t.stop = s.stop

theorem Informed.silently (h : Informed s₀ w cs s) (ht : s.Silently t) : Informed s₀ w cs t := by
  refine ⟨ht.config.trans h.config, ht.properties.trans h.properties, ?_, h.willing⟩
  refine ⟨ht.listeners.trans h.told.listeners, ht.deliveries.trans h.told.deliveries, ?_, ?_⟩
  · rw [ht.stop]
    exact h.told.stop
  · rw [ht.stop]
    exact h.told.asked

theorem ensures_emit {Q : Unit → Search → Prop} {E : SearchError → Search → Prop} :
    Ensures (emit event) s Q E ↔ Ensures (deliverAll ⟨event, s.session, s.explorer⟩
      (Registry.order s.listeners event)) s Q E := by
  rw [emit, ensures_get]
  split
  · next hnil =>
    rw [hnil]
    rfl
  · rfl

theorem emit_ensures (h : Informed s₀ w cs s) (hlo : w.lo ≤ s.explorer.births) :
    Ensures (emit event) s
      (fun _ t => s.Keeps t ∧ Informed s₀ w (⟨event, s.session, s.explorer⟩ :: cs) t)
      (fun e t => s.Keeps t ∧ ∃ told, Told s₀ w told t ∧
        Declined s₀.deliveries ⟨event, s.session, s.explorer⟩
          (Registry.tellings s₀.listeners cs) (Registry.order s₀.listeners event) e told) := by
  rw [ensures_emit, h.told.listeners]
  refine (deliverAll_ensures h.told h.willing hlo).mono ?_ fun e t ht => ht
  rintro _ t ⟨hkeeps, htold, hwilling⟩
  exact ⟨hkeeps, hkeeps.config.trans h.config, hkeeps.properties.trans h.properties, htold,
    hwilling⟩

end Told

end Search

end Interleave
