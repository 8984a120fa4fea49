import Interleave.Proofs.Fingerprint.Seen
import Interleave.Proofs.Machine.Effects
import Interleave.Proofs.Program.Denotation
import Mathlib.Data.Set.Card

set_option autoImplicit false

namespace Interleave

namespace Heap

variable {heap : Heap} {P : Handle → Prop} {found : List Handle} {h : Handle}

theorem discover_forall {targets : List Handle} (hfound : ∀ h ∈ found, P h)
    (htargets : ∀ h ∈ targets, P h) : ∀ h ∈ heap.discover found targets, P h := by
  induction targets generalizing found with
  | nil => exact hfound
  | cons a targets ih =>
    rw [discover_cons]
    refine ih ?_ fun h hh => htargets h (List.mem_cons_of_mem _ hh)
    split
    · exact hfound
    · intro h hh
      rcases List.mem_append.1 hh with hh | hh
      · exact hfound h hh
      · exact List.mem_singleton.1 hh ▸ htargets a List.mem_cons_self

theorem follow_forall (hnext : ∀ h, P h → ∀ k ∈ heap.outgoing h, P k) (fuel done : Nat)
    (hfound : ∀ h ∈ found, P h) : ∀ h ∈ heap.follow fuel done found, P h := by
  induction fuel generalizing done found with
  | zero => exact hfound
  | succ fuel ih =>
    unfold follow
    split
    · exact hfound
    · next a ha =>
      exact ih _ (discover_forall hfound (hnext a (hfound a (List.mem_of_getElem? ha))))

theorem get?_retain_of_not_mem {roots : List Handle} (hh : h ∉ heap.reachable roots) :
    (heap.retain roots).2.get? h = none := by
  simp only [retain, get?, List.getElem?_mapIdx]
  cases heap.cells[h]? with
  | none => rfl
  | some cell => simp [hh]

theorem mem_handles : h ∈ heap.handles ↔ heap.isLive h = true := by
  simp only [handles, List.mem_filter, List.mem_range]
  refine ⟨fun hh => hh.2, fun hh => ⟨?_, hh⟩⟩
  obtain ⟨o, ho⟩ := isLive_iff.1 hh
  exact lt_of_get? ho

theorem ext_get? {a b : Heap} (hsize : a.cells.length = b.cells.length)
    (h : ∀ k, a.get? k = b.get? k) : a = b := by
  obtain ⟨cells⟩ := a
  obtain ⟨cells'⟩ := b
  congr 1
  refine List.ext_getElem hsize fun i hi hi' => ?_
  have hat := h i
  simp only [get?, List.getElem?_eq_getElem hi, List.getElem?_eq_getElem hi', Option.join_some]
    at hat
  exact hat

end Heap

section Found

variable {p : Program} {s : State} {a : Handle}

theorem State.reaches_of_mem {h : Handle} (hh : h ∈ s.heap.reachable s.roots) : s.Reaches h := by
  refine Heap.follow_forall ?_ _ _ (Heap.discover_forall (by simp) fun _ => .root) h hh
  intro a ha k hk
  unfold Heap.outgoing at hk
  cases ho : s.heap.get? a with
  | none => simp [ho] at hk
  | some o => exact .next ha ho (by simpa [ho] using hk)

theorem Program.Coherent.mem_reachable_iff (h : p.Coherent s) :
    a ∈ s.heap.reachable s.roots ↔ s.Reaches a :=
  ⟨State.reaches_of_mem, h.mem_reachable⟩

theorem Program.Coherent.get?_collect (h : p.Coherent s) (ha : s.Reaches a) :
    s.collect.2.heap.get? a = s.heap.get? a :=
  Heap.get?_retain_of_mem (h.mem_reachable ha)

theorem State.get?_collect_of_not_reaches (ha : ¬ s.Reaches a) : s.collect.2.heap.get? a = none :=
  Heap.get?_retain_of_not_mem fun hmem => ha (State.reaches_of_mem hmem)

theorem Program.Coherent.collect_count (h : p.Coherent s) :
    s.collect.1 = {a | s.heap.isLive a = true ∧ ¬ s.Reaches a}.ncard := by
  have hnodup : (s.heap.handles.filter (· ∉ s.heap.reachable s.roots)).Nodup :=
    ((List.nodup_range).filter _).filter _
  have hset : {a | s.heap.isLive a = true ∧ ¬ s.Reaches a} =
      ((s.heap.handles.filter (· ∉ s.heap.reachable s.roots)).toFinset : Set Handle) := by
    ext a
    simp [Heap.mem_handles, h.mem_reachable_iff]
  rw [hset, Set.ncard_coe_finset, List.toFinset_card_of_nodup hnodup]
  rfl

theorem Program.Coherent.collect_closed (h : p.Coherent s) {o : Object}
    (ho : s.collect.2.heap.get? a = some o) {k : Handle} (hk : k ∈ o.payload.outgoing) :
    s.collect.2.heap.isLive k = true := by
  have ha : s.Reaches a := by
    by_contra hnot
    cases (State.get?_collect_of_not_reaches hnot).symm.trans ho
  rw [h.get?_collect ha] at ho
  have hk : s.Reaches k := .next ha ho hk
  rw [Heap.isLive, h.get?_collect hk]
  exact Heap.isLive_iff.2 (h.live hk)

end Found

def State.faults (s : State) : List (Option Uncaught) := s.threads.map (·.uncaught)

section Faults

variable {p : Program} {layout : Layout} {s s' : State} {f : StackFrame} {t : ThreadId}
  {data : Option Int64}

theorem State.faults_modifyFrames (s : State) (t : ThreadId) (g : Thread → List StackFrame) :
    (s.modifyThread t fun thread => { thread with frames := g thread }).faults = s.faults :=
  map_modify_of_eq (f := fun x : Thread => { x with frames := g x }) (fun _ => rfl) _ _

theorem State.Stores.faults {v : Value} (h : s.Stores t v s') : s'.faults = s.faults := by
  cases h with
  | locals g => exact State.faults_modifyFrames s t _
  | static | object => rfl

theorem Program.Acts.faults {stmt : Stmt} {o : Outcome} (h : p.Acts layout s t f data stmt o) :
    o.Within fun s' => s'.faults = s.faults := by
  have hsame {s₁ : State} (hthreads : s₁.threads = s.threads) : s₁.faults = s.faults :=
    congrArg (List.map _) hthreads
  cases h with
  | fails => trivial
  | raises _ hspawns => exact hsame hspawns.threads
  | writes hspawns _ _ hstores =>
    exact (State.faults_modifyFrames _ t _).trans (hstores.faults.trans (hsame hspawns.threads))
  | locks _ m l => exact (State.faults_modifyFrames _ t _).trans (hsame (setMonitor_threads s m l))
  | passes => exact State.faults_modifyFrames s t _
  | jumps _ g => exact State.faults_modifyFrames s t g

theorem execute_faults {fault : Option Uncaught} (h : p.execute layout s t data = .ok (s', fault)) :
    s'.faults = fault.elim s.faults fun last => s.faults.set t (some last) := by
  have hstatuses : ∀ s₁ : State, (p.updateStatuses s₁).faults = s₁.faults := by
    intro s₁
    refine List.ext_getElem? fun i => ?_
    simp only [State.faults, Program.updateStatuses, List.getElem?_map, List.getElem?_mapIdx,
      Option.map_map]
    rfl
  have hunwind : ∀ s₁ : State, (s₁.modifyThread t p.unwind).faults = s₁.faults := by
    intro s₁
    refine map_modify_of_eq (fun thread => ?_) _ _
    unfold Program.unwind
    split <;> rfl
  obtain ⟨f, stmt, s₁, _, _, heffect⟩ := execute_effect h
  have hbefore : (p.effect layout (s.markInitialized stmt.value.owners) t f data stmt.value).Within
      fun s₁ => s₁.faults = s.faults := by
    have hinit : (s.markInitialized stmt.value.owners).faults = s.faults :=
      congrArg (List.map _) (markInitialized_threads s _)
    rw [← hinit]
    exact (effect_acts stmt.value).faults
  rcases heffect with ⟨heffect, rfl, rfl⟩ | ⟨e, thread, heffect, hthread, rfl, rfl⟩
  · rw [heffect] at hbefore
    exact (hstatuses _).trans ((hunwind s₁).trans hbefore)
  · rw [heffect] at hbefore
    refine (hstatuses _).trans ?_
    dsimp only [Option.elim_some]
    rw [← hbefore]
    refine List.ext_getElem? fun i => ?_
    simp only [State.faults, State.modifyThread, List.getElem?_map, List.getElem?_modify,
      List.getElem?_set, List.length_map]
    by_cases hti : t = i
    · subst hti
      simp [(List.getElem?_eq_some_iff.1 hthread).1, Thread.failed]
    · simp [hti]

end Faults

theorem Thread.Matches.eq {R : Pairing} (hR : ∀ a b, R a b → a = b) {a b : Thread}
    (h : a.Matches R b) (huncaught : a.uncaught = b.uncaught) : a = b := by
  obtain ⟨name, status, frames, uncaught⟩ := a
  obtain ⟨rfl, hstatus, hframes, _⟩ := h
  obtain rfl := hstatus.eq hR
  obtain rfl : frames = b.frames := by
    rw [← List.forall₂_eq_eq_eq]
    exact hframes.imp fun _ _ hfg => hfg.eq hR
  obtain rfl := huncaught
  rfl

def State.SameCollected (r s : State) : Prop := r.collect.2 = s.collect.2

section Commutes

variable {p : Program} {r s : State}

theorem State.Residue.collect_eq (h : r.Residue s) (hr : p.Settled r) (hs : p.Settled s)
    (hfaults : r.faults = s.faults) : r.SameCollected s := by
  obtain ⟨R, hcorr, heq⟩ := h.pairing
  have hid : ∀ a b, R a b → a = b := fun a b hab => (heq a b hab).1
  have hstatics : r.statics = s.statics := by
    rw [← List.forall₂_eq_eq_eq]
    exact hcorr.statics.imp fun _ _ hab => hab.eq hid
  have hthreads : r.threads = s.threads := by
    refine List.ext_getElem hcorr.threads.length_eq fun i hi hi' => ?_
    refine (hcorr.threads.get hi hi').eq hid ?_
    have hat : r.faults[i]? = s.faults[i]? := congrArg (·[i]?) hfaults
    simpa [State.faults, hi, hi'] using hat
  have hreaches : ∀ a, r.Reaches a ↔ s.Reaches a := by
    intro a
    constructor
    · intro ha
      obtain ⟨b, hab, hb⟩ := hcorr.reaches ha
      exact hid a b hab ▸ hb
    · intro ha
      obtain ⟨b, hab, hb⟩ := hcorr.swap.reaches ha
      exact hid b a hab ▸ hb
  have hheap : r.collect.2.heap = s.collect.2.heap := by
    refine Heap.ext_get? ?_ fun a => ?_
    · exact (Heap.retain_length _ _).trans (h.size.trans (Heap.retain_length _ _).symm)
    · by_cases ha : r.Reaches a
      · obtain ⟨b, hab, _⟩ := hcorr.reaches ha
        rw [(hcorr.coherent hr).get?_collect ha,
          (hcorr.swap.coherent hs).get?_collect ((hreaches a).1 ha)]
        exact (heq a b hab).2
      · rw [State.get?_collect_of_not_reaches ha,
          State.get?_collect_of_not_reaches fun hs => ha ((hreaches a).2 hs)]
  calc r.collect.2
    _ = ⟨r.threads, r.statics, r.collect.2.heap⟩ := rfl
    _ = ⟨s.threads, s.statics, s.collect.2.heap⟩ := by rw [hthreads, hstatics, hheap]
    _ = s.collect.2 := rfl

theorem Program.Coherent.steps_collected (h : p.Coherent s) (layout : Layout) (t : ThreadId)
    (data : Option Int64) :
    StepMatches State.SameCollected (p.execute layout s.collect.2 t data)
      (p.execute layout s t data) := by
  have hresidue : s.Residue s.collect.2 := h.residue.collect h.settled
  have hsteps := hresidue.steps (p := p) layout t data
  generalize hs' : p.execute layout s t data = x at hsteps
  generalize hr' : p.execute layout s.collect.2 t data = y at hsteps
  cases hsteps with
  | error d => exact .error d
  | @ok s' r' hresidue' fault =>
    have hfaults : s'.faults = r'.faults := by
      rw [execute_faults hs', execute_faults hr']
      rfl
    have hsame : r'.SameCollected s' :=
      (hresidue'.collect_eq (execute_settled hs') (execute_settled hr') hfaults).symm
    exact .ok hsame fault

end Commutes

/-- The states that a program comes to when garbage may be collected between its steps. -/
inductive Program.Attains (p : Program) (mode : Symmetry) : State → Prop where
  | start {s : State} (h : p.initialState = .ok s) : Attains p mode s
  | step {s s' : State} {t : ThreadId} {data : Option Int64} {fault : Option Uncaught}
      (h : Attains p mode s) (hstep : p.Step mode s t data s' fault) : Attains p mode s'
  | collect {s : State} (h : Attains p mode s) : Attains p mode s.collect.2

/-- What a collection does to a state, and that no step and no fingerprint shows it. -/
structure Program.CollectsUnseen (p : Program) (mode : Symmetry) (s : State) : Prop where
  kept : ∀ h, s.Reaches h → s.collect.2.heap.get? h = s.heap.get? h
  freed : ∀ h, ¬ s.Reaches h → s.collect.2.heap.get? h = none
  counted : s.collect.1 = {h | s.heap.isLive h = true ∧ ¬ s.Reaches h}.ncard
  threads : s.collect.2.threads = s.threads
  statics : s.collect.2.statics = s.statics
  /-- The next object gets the handle that it would have got. -/
  size : s.collect.2.heap.cells.length = s.heap.cells.length
  roots : ∀ h ∈ s.collect.2.roots, s.collect.2.heap.isLive h = true
  references : ∀ h o, s.collect.2.heap.get? h = some o → ∀ k ∈ o.payload.outgoing,
    s.collect.2.heap.isLive k = true
  waits : ∀ thread ∈ s.collect.2.threads, ∀ h, thread.status = .blocked (.object h) →
    s.collect.2.heap.isLive h = true
  fingerprint : ∀ policy masks,
    s.collect.2.fingerprint policy masks = s.fingerprint policy masks
  /-- The same fault or none, and after a collection the same state; or the same defect. -/
  steps : ∀ arrange t data, StepMatches State.SameCollected
    (p.execute ⟨mode, arrange⟩ s.collect.2 t data) (p.execute ⟨mode, arrange⟩ s t data)
  /-- There is no defect when a runnable thread takes data that is offered. -/
  succeeds : ∀ arrange, ∀ t ∈ s.runnable, ∀ data, p.Offers s t data → ∃ r' s' fault,
    p.execute ⟨mode, arrange⟩ s.collect.2 t data = .ok (r', fault) ∧
      p.execute ⟨mode, arrange⟩ s t data = .ok (s', fault) ∧ r'.SameCollected s'

section Unseen

variable {p : Program} {mode : Symmetry} {s : State}

theorem Program.Attains.wellFormed (hp : p.Sound) (h : p.Attains mode s) : p.WellFormed s := by
  induction h with
  | start h =>
    obtain ⟨s', hs', hwf⟩ := initialState_wellFormed hp
    cases h.symm.trans hs'
    exact hwf
  | step _ hstep ih => exact hstep.wellFormed hp ih
  | collect _ ih => exact ih.collect

theorem Program.WellFormed.collectsUnseen (hp : p.Sound) (hs : p.WellFormed s) :
    p.CollectsUnseen mode s := by
  have hcoherent := hs.toCoherent
  have hleft := hs.collect
  have hlive : ∀ h, s.collect.2.Reaches h → s.collect.2.heap.isLive h = true :=
    fun h hh => Heap.isLive_iff.2 (hleft.live hh)
  refine ⟨fun h hh => hcoherent.get?_collect hh, fun h hh => State.get?_collect_of_not_reaches hh,
    hcoherent.collect_count, rfl, rfl, Heap.retain_length _ _, fun h hh => hlive h (.root hh),
    fun h o ho k hk => hcoherent.collect_closed ho hk, ?_, ?_,
    fun arrange => hcoherent.steps_collected _, ?_⟩
  · exact fun thread hthread h hstatus => hlive h (Walk.blocked_reached hleft hthread hstatus)
  · have hresidue : s.Residue s.collect.2 := hcoherent.residue.collect hcoherent.settled
    exact fun policy masks => (hresidue.fingerprint_eq policy masks).symm
  · intro arrange t ht data hdata
    obtain ⟨s', fault, hs', _⟩ := execute_wellFormed hp hs ⟨mode, arrange⟩ ht hdata
    have hstep := hcoherent.steps_collected ⟨mode, arrange⟩ t data
    rw [hs'] at hstep
    generalize hr' : p.execute ⟨mode, arrange⟩ s.collect.2 t data = y at hstep
    cases hstep with
    | ok heq => exact ⟨_, s', fault, rfl, hs', heq⟩

end Unseen

/-- In every state that an accepted program comes to, collecting garbage frees exactly what is not
reachable and is not seen by any fingerprint or any later step. -/
theorem collection_unseen {source path : String} {p : Program}
    (hp : Program.ofSource source path = .ok p) {mode : Symmetry} {s : State}
    (hs : p.Attains mode s) : p.CollectsUnseen mode s :=
  (hs.wellFormed (ofSource_sound hp)).collectsUnseen (ofSource_sound hp)

/-- A thread that forgets the first of two objects inside a lock, and one that waits for the lock. -/
def litterSource : String :=
  "static ref gate\nclass Node \x7b\n  ref next\n\x7d\n" ++
  "thread a \x7b\n  gate = new Node\n  lock gate\n  x = new Node\n  x = new Node\n" ++
  "  x.next = x\n\x7d\nthread b \x7b\n  lock gate\n\x7d\n"

def litter : Program where
  path := "litter"
  classes := [⟨"Main", .plain, [], [⟨"gate", .ref, false, 0⟩]⟩, ⟨"int[]", .intArray, [], []⟩,
    ⟨"ref[]", .refArray, [], []⟩, ⟨"set", .set, [], []⟩, ⟨"bag", .bag, [], []⟩,
    ⟨"Node", .plain, [⟨"next", .ref, false, 0⟩], []⟩]
  methods := [
    ⟨"a", false, ["x"],
      [⟨.assign (.staticVar 0 0) (.new 5), .onLine 6 3 17⟩,
        ⟨.lock (.object (.staticVar 0 0)), .onLine 7 3 11⟩,
        ⟨.assign (.localVar 0) (.new 5), .onLine 8 3 14⟩,
        ⟨.assign (.localVar 0) (.new 5), .onLine 9 3 14⟩,
        ⟨.assign (.field (.localVar 0) "next") (.expr (.localVar 0)), .onLine 10 3 12⟩],
      ["gate = new Node", "lock gate", "x = new Node", "x = new Node", "x.next = x"]⟩,
    ⟨"b", false, [], [⟨.lock (.object (.staticVar 0 0)), .onLine 13 3 11⟩], ["lock gate"]⟩]
  threads := [⟨"a", 0⟩, ⟨"b", 1⟩]
  invariants := []

/-- One of three objects is garbage, and a thread waits for one of the other two. -/
theorem litter_unseen : ∃ s, Program.ofSource litterSource "litter" = .ok litter ∧
    litter.Attains .fast s ∧ s.collect.1 = 1 ∧
    s.threads.map (·.status) = [.runnable, .blocked (.object 0)] ∧
    litter.CollectsUnseen .fast s := by
  have hsource : Program.ofSource litterSource "litter" = .ok litter := by
    decide +kernel
  have hstep : ∀ {s s' : State}, litter.Attains .fast s → 0 ∈ s.runnable →
      litter.Offers s 0 none → litter.execute Symmetry.fast s 0 none = .ok (s', none) →
      litter.Attains .fast s' :=
    fun hs hrun hoffers hexec => hs.step ⟨hrun, hoffers, _, hexec⟩
  have hattained : ∃ s, litter.Attains .fast s ∧ s.collect.1 = 1 ∧
      s.threads.map (·.status) = [.runnable, .blocked (.object 0)] := by
    refine ⟨_, hstep (hstep (hstep (hstep (.start rfl) ?_ ?_ rfl) ?_ ?_ rfl) ?_ ?_ rfl) ?_ ?_ rfl,
      ?_, ?_⟩
    · decide
    · exact ⟨_, _, rfl, rfl, rfl⟩
    · decide
    · exact ⟨_, _, rfl, rfl, rfl⟩
    · decide
    · exact ⟨_, _, rfl, rfl, rfl⟩
    · decide
    · exact ⟨_, _, rfl, rfl, rfl⟩
    · decide
    · decide
  obtain ⟨s, hs, hfreed, hstatuses⟩ := hattained
  exact ⟨s, hsource, hs, hfreed, hstatuses, collection_unseen hsource hs⟩

end Interleave
