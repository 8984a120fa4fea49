import Interleave.Proofs.Machine.Collection

set_option autoImplicit false

namespace Interleave

def Pairing.below (n : Nat) : Pairing := fun a b => a = b ∧ a < n

theorem Pairing.below_oneToOne (n : Nat) : Relator.BiUnique (Pairing.below n) :=
  ⟨fun _ _ _ hac hbc => hac.1.trans hbc.1.symm, fun _ _ _ hab hac => hab.1.symm.trans hac.1⟩

/-- The references of every object, garbage included, are to handles that were given out. -/
def Heap.Enclosed (heap : Heap) : Prop :=
  ∀ h o, heap.get? h = some o → o.payload.Matches (Pairing.below heap.cells.length) o.payload

namespace Heap.Enclosed

variable {heap : Heap} {o : Object}

theorem lt (hheap : heap.Enclosed) {h k : Handle} (ho : heap.get? h = some o)
    (hk : k ∈ o.payload.outgoing) : k < heap.cells.length := by
  obtain ⟨_, _, hbelow⟩ := outgoing_exists (hheap h o ho) hk
  exact hbelow.2

theorem put (hheap : heap.Enclosed) {a : Handle} {q : Object} (ho : heap.get? a = some o)
    (hq : q.payload.Matches (Pairing.below heap.cells.length) q.payload) :
    (heap.put a q).Enclosed := by
  intro b r hr
  rw [Heap.put_length]
  by_cases hba : b = a
  · subst hba
    obtain rfl := Option.some.inj ((Heap.get?_put_self (Heap.lt_of_get? ho) q).symm.trans hr)
    exact hq
  · exact hheap b r ((Heap.get?_put_of_ne hba q).symm.trans hr)

theorem allocate (hheap : heap.Enclosed) (ho : ∀ R : Pairing, o.payload.Matches R o.payload) :
    (heap.allocate o).2.Enclosed := by
  intro b r hr
  rcases Heap.get?_of_allocate hr with hold | ⟨_, rfl⟩
  · refine (hheap b r hold).mono fun x y hxy => ⟨hxy.1, ?_⟩
    rw [Heap.allocate_length]
    exact Nat.lt_succ_of_lt hxy.2
  · exact ho _

end Heap.Enclosed

section Statements

variable {p : Program} {layout : Layout} {R : Pairing} {s s' : State} {f : StackFrame}
  {t : ThreadId} {data : Option Int64}

theorem State.Spawns.enclosed (h : s.Spawns s') (hheap : s.heap.Enclosed) : s'.heap.Enclosed := by
  cases h with
  | same => exact hheap
  | made owner hpayload => exact hheap.allocate hpayload

theorem State.Stores.enclosed {v : Value} (h : s.Stores t v s') (hheap : s.heap.Enclosed)
    (hv : v.Matches (Pairing.below s.heap.cells.length) v) : s'.heap.Enclosed := by
  cases h with
  | locals | static => exact hheap
  | object ho hpayload =>
    exact hheap.put ho (hpayload _ (Pairing.below_oneToOne _) hv (hheap _ _ ho))

theorem setMonitor_enclosed (hheap : s.heap.Enclosed) (m : Monitor) (l : LockRef) :
    (s.setMonitor m l).heap.Enclosed := by
  cases l with
  | ofClass id => exact hheap
  | object a =>
    cases ho : s.heap.get? a with
    | none =>
      simp only [State.setMonitor, ho]
      exact hheap
    | some o =>
      simp only [State.setMonitor, ho]
      exact hheap.put ho (hheap a o ho)

theorem Program.Acts.enclosed {stmt : Stmt} {o : Outcome} (h : p.Acts layout s t f data stmt o)
    (hheap : s.heap.Enclosed) (hself : s.Corresponds R s) (hR : ∀ a b, R a b → a = b)
    (hf : f.Matches R f) : o.Within fun s' => s'.heap.Enclosed := by
  cases h with
  | fails => trivial
  | raises _ hspawns => exact hspawns.enclosed hheap
  | writes hspawns _ hv hstores =>
    obtain ⟨S, hv, hself', hsup⟩ := hv R hself hf
    exact hstores.enclosed (hspawns.enclosed hheap) (hv.mono fun a b hab =>
      ⟨(hsup a b hab).elim (hR a b) id, hself'.live_left hab⟩)
  | locks _ m l => exact setMonitor_enclosed hheap m l
  | passes | jumps => exact hheap

end Statements

section Runs

variable {p : Program} {layout : Layout} {s s' : State} {t : ThreadId} {data : Option Int64}
  {fault : Option Uncaught}

theorem execute_enclosed (hs : p.Coherent s) (hheap : s.heap.Enclosed)
    (h : p.execute layout s t data = .ok (s', fault)) : s'.heap.Enclosed := by
  obtain ⟨f, stmt, s₁, o, hf, _, hacts, hwithin, _, hheap'⟩ := execute_acts h
  have hself := (hs.self.markInitialized (E := True) stmt.value.owners).corresponds
  have hframe : f.Matches (s.cut Eq) f := by
    have hat := hs.self.topFrame? t
    rw [hf] at hat
    cases hat with
    | some h => exact h
  rw [← markInitialized_heap s stmt.value.owners] at hheap
  rw [hheap']
  exact hwithin _ (hacts.enclosed hheap hself (fun _ _ hab => hab.2) hframe)

theorem Program.Attains.enclosed {mode : Symmetry} (hp : p.Sound) (h : p.Attains mode s) :
    s.heap.Enclosed := by
  induction h with
  | start h =>
    obtain ⟨threads, _, h⟩ := bind_eq_ok.1 h
    cases h
    intro a o ho
    cases ho
  | step hs hstep ih =>
    obtain ⟨_, hexecuted⟩ := hstep.executed
    exact execute_enclosed (hs.wellFormed hp).toCoherent ih hexecuted
  | @collect s _ ih =>
    intro a o ho
    rw [show s.collect.2.heap.cells.length = s.heap.cells.length from Heap.retain_length _ _]
    exact ih a o (Heap.get?_of_retain ho)

end Runs

structure StaticRecord.Initializes (r q : StaticRecord) : Prop where
  owner : q.owner = r.owner
  initialized : r.initialized = true → q.initialized = true
  fields : q.fields = r.fields
  monitor : q.monitor = r.monitor

/-- A call stack, a static or an object holds the handle, or a thread waits for it. -/
def State.Mentions (s : State) (h : Handle) : Prop :=
  h ∈ s.roots ∨ (∃ thread ∈ s.threads, thread.status = .blocked (.object h)) ∨
    ∃ a o, s.heap.get? a = some o ∧ h ∈ o.payload.outgoing

/-- What is left when a statement of a thread raised a fault. -/
structure State.Aborts (s : State) (t : ThreadId) (last : Uncaught) (s' : State) : Prop where
  /-- The thread is ended with the fault on record; every other thread is as it was. -/
  threads : ∃ thread, s.threads[t]? = some thread ∧ last.thread = thread.name ∧
    s'.threads = s.threads.set t (thread.failed last)
  statics : List.Forall₂ StaticRecord.Initializes s.statics s'.statics
  /-- Monitors are as they were, those that the thread owns included. -/
  monitors : ∀ lock m, s.monitor? lock = some m → s'.monitor? lock = some m
  objects : ∀ h o, s.heap.get? h = some o → s'.heap.get? h = some o
  /-- At most one object is new, and nothing refers to it. -/
  made : s'.heap = s.heap ∨
    ∃ o, s'.heap = (s.heap.allocate o).2 ∧ ¬ s'.Mentions (s.heap.allocate o).1

def Outcome.RaisedWithin (q : State → Prop) : Outcome → Prop
  | .raised _ s => q s
  | .next _ | .defect _ => True

section Faulting

variable {p : Program} {layout : Layout} {s s' : State} {f : StackFrame} {t : ThreadId}
  {data : Option Int64} {thread : Thread} {last : Uncaught}

theorem Program.Acts.raised {stmt : Stmt} {o : Outcome} (h : p.Acts layout s t f data stmt o) :
    o.RaisedWithin s.Spawns := by
  cases h with
  | raises _ hspawns => exact hspawns
  | fails | writes | locks | passes | jumps => trivial

theorem modify_initializes (statics : List StaticRecord) (i : Nat) :
    List.Forall₂ StaticRecord.Initializes statics
      (statics.modify i fun r => { r with initialized := true }) := by
  induction statics generalizing i with
  | nil => simp
  | cons r statics ih =>
    cases i with
    | zero => exact .cons ⟨rfl, fun _ => rfl, rfl, rfl⟩ (List.forall₂_same.2 fun _ _ =>
        ⟨rfl, id, rfl, rfl⟩)
    | succ i => exact .cons ⟨rfl, id, rfl, rfl⟩ (ih i)

theorem markInitialized_initializes (s : State) (ids : List ClassId) :
    List.Forall₂ StaticRecord.Initializes s.statics (s.markInitialized ids).statics := by
  induction ids generalizing s with
  | nil => exact List.forall₂_same.2 fun _ _ => ⟨rfl, id, rfl, rfl⟩
  | cons k ids ih =>
    have hrest := ih (s.modifyStatic k fun r => { r with initialized := true })
    refine (forall₂_comp (modify_initializes s.statics _) hrest).imp ?_
    rintro r q ⟨x, hrx, hxq⟩
    exact ⟨hxq.owner.trans hrx.owner, hxq.initialized ∘ hrx.initialized,
      hxq.fields.trans hrx.fields, hxq.monitor.trans hrx.monitor⟩

theorem statusOf_markInitialized (s : State) (ids : List ClassId) (i : ThreadId) (thread : Thread) :
    p.statusOf (s.markInitialized ids) i thread = p.statusOf s i thread := by
  unfold Program.statusOf
  simp only [markInitialized_lockRef, markInitialized_monitor?]

theorem State.Spawns.statusOf {R : Pairing} (h : s.Spawns s') (hself : s.SameMemory R s)
    (hR : ∀ a b, R a b → a = b) (i : ThreadId)
    (hframes : List.Forall₂ (StackFrame.Matches R) thread.frames thread.frames) :
    p.statusOf s' i thread = p.statusOf s i thread := by
  cases h with
  | same => rfl
  | @made owner payload _ =>
    have hmemory : s.SameMemory R (s.allocate owner payload).2 := by
      refine ⟨hself.oneToOne, hself.statics, fun a b hab => ?_⟩
      obtain ⟨o, q, ho, hq, hoq⟩ := hself.objects a b hab
      exact ⟨o, q, ho, Heap.get?_allocate_of_get? hq _, hoq⟩
    exact ((statusOf_matches p hmemory i rfl hframes).eq hR).symm

theorem execute_raised (h : p.execute layout s t data = .ok (s', some last)) :
    ∃ ids s₁ thread, (s.markInitialized ids).Spawns s₁ ∧ s.threads[t]? = some thread ∧
      last.thread = thread.name ∧ s' = p.updateStatuses (s₁.modifyThread t (·.failed last)) := by
  obtain ⟨f, stmt, s₁, _, _, ⟨_, hnone, _⟩ | ⟨e, thread, heffect, hthread, hlast, rfl⟩⟩ :=
    execute_effect h
  · cases hnone
  · cases hlast
    have hraised : (p.effect layout (s.markInitialized stmt.value.owners) t f data
        stmt.value).RaisedWithin (s.markInitialized stmt.value.owners).Spawns :=
      (effect_acts stmt.value).raised
    rw [heffect] at hraised
    refine ⟨_, s₁, thread, hraised, ?_, rfl, rfl⟩
    rw [← hthread, hraised.threads, markInitialized_threads]

theorem failed_threads (hs : p.Coherent s) {ids : List ClassId} {s₁ : State}
    (hspawns : (s.markInitialized ids).Spawns s₁) (hthread : s.threads[t]? = some thread)
    (last : Uncaught) :
    (p.updateStatuses (s₁.modifyThread t (·.failed last))).threads =
      s.threads.set t (thread.failed last) := by
  have hthreads : s₁.threads = s.threads := hspawns.threads.trans (markInitialized_threads s ids)
  refine List.ext_getElem? fun i => ?_
  simp only [Program.updateStatuses, State.modifyThread, hthreads, List.getElem?_mapIdx,
    List.getElem?_modify, List.getElem?_set]
  by_cases hti : t = i
  · subst hti
    obtain ⟨hlt, rfl⟩ := List.getElem?_eq_some_iff.1 hthread
    simp [hlt, Program.statusOf, Thread.failed, Thread.isAlive]
  · simp only [if_neg hti]
    cases hi : s.threads[i]? with
    | none => rfl
    | some other =>
      have hself := (hs.self.markInitialized (E := True) ids).corresponds.toSameMemory
      have hframes := frames_cut (List.mem_of_getElem? hi) (frames_refl other.frames)
      have hstatus : p.statusOf (s₁.modifyThread t (·.failed last)) i other = other.status :=
        calc p.statusOf (s₁.modifyThread t (·.failed last)) i other
          _ = p.statusOf s₁ i other :=
            statusOf_congr (s := s₁.modifyThread t _) (t := s₁) rfl rfl i rfl rfl
          _ = p.statusOf (s.markInitialized ids) i other :=
            hspawns.statusOf hself (fun _ _ hab => hab.2) i hframes
          _ = p.statusOf s i other := statusOf_markInitialized s ids i other
          _ = other.status := (hs.settled i other hi).symm
      simp only [State.modifyThread, hthreads] at hstatus
      simp [hstatus]

/-- What the ended thread leaves behind mentions only what the state before could get hold of. -/
theorem failed_mentions (hs : p.WellFormed s) (hheap : s.heap.Enclosed)
    (hthreads : s'.threads = s.threads.set t (thread.failed last))
    (hstatics : List.Forall₂ StaticRecord.Initializes s.statics s'.statics) {o : Object}
    (ho : ∀ R : Pairing, o.payload.Matches R o.payload) (hmade : s'.heap = (s.heap.allocate o).2)
    {h : Handle} (hh : s'.Mentions h) : h < s.heap.cells.length := by
  have hlive : ∀ {a}, s.Reaches a → a < s.heap.cells.length := fun ha =>
    hs.closed.live_left ⟨ha, rfl⟩
  have hmem : ∀ {x}, x ∈ s'.threads → x ∈ s.threads ∨ x = thread.failed last := fun hx =>
    List.mem_or_eq_of_mem_set (hthreads ▸ hx)
  rcases hh with hroot | ⟨x, hx, hstatus⟩ | ⟨a, q, hq, hout⟩
  · rcases State.mem_roots.1 hroot with ⟨x, hx, f, hf, hlocal⟩ | ⟨r, hr, hfield⟩
    · rcases hmem hx with hx | rfl
      · exact hlive (.of_local hx hf hlocal)
      · cases hf
    · obtain ⟨q, hq, hrq⟩ := forall₂_exists hstatics.flip hr
      exact hlive (.of_static hq (hrq.fields ▸ hfield))
  · rcases hmem hx with hx | rfl
    · exact hlive (Walk.blocked_reached hs hx hstatus)
    · cases hstatus
  · rw [hmade] at hq
    rcases Heap.get?_of_allocate hq with hold | ⟨_, rfl⟩
    · exact hheap.lt hold hout
    · obtain ⟨_, _, hnone⟩ := outgoing_exists (ho fun _ _ => False) hout
      exact hnone.elim

end Faulting

/-- A statement that raises a fault is atomic: its thread ends, classes may have become initialized
and an object may have been made to which nothing refers; the rest of the state is as it was. -/
theorem execute_aborts {p : Program} {layout : Layout} {s s' : State} {t : ThreadId}
    {data : Option Int64} {last : Uncaught} (hs : p.WellFormed s) (hheap : s.heap.Enclosed)
    (h : p.execute layout s t data = .ok (s', some last)) : s.Aborts t last s' := by
  obtain ⟨ids, s₁, thread, hspawns, hthread, hname, rfl⟩ := execute_raised h
  have hthreads := failed_threads hs.toCoherent hspawns hthread last
  have hstatics := hspawns.statics ▸ markInitialized_initializes s ids
  have hheap₁ := markInitialized_heap s ids
  have hmonitors : ∀ lock m, s.monitor? lock = some m → s₁.monitor? lock = some m := by
    intro lock m hm
    rw [← markInitialized_monitor? s ids lock] at hm
    cases hspawns with
    | same => exact hm
    | made owner =>
      cases lock with
      | ofClass id => exact hm
      | object a =>
        obtain ⟨o, ho, rfl⟩ := Option.map_eq_some_iff.1 hm
        exact Option.map_eq_some_iff.2 ⟨o, Heap.get?_allocate_of_get? ho _, rfl⟩
  refine ⟨⟨thread, hthread, hname, hthreads⟩, hstatics, hmonitors, ?_, ?_⟩
  · intro a o ho
    rw [← hheap₁] at ho
    cases hspawns with
    | same => exact ho
    | made owner => exact Heap.get?_allocate_of_get? ho _
  · cases hspawns with
    | same => exact .inl hheap₁
    | @made owner payload hpayload =>
      refine .inr ⟨⟨owner, .free, payload⟩, ?_, fun hmentions => ?_⟩
      · rw [← hheap₁]
        rfl
      · refine (failed_mentions hs hheap hthreads hstatics (o := ⟨owner, .free, payload⟩)
          hpayload ?_ hmentions).ne rfl
        rw [← hheap₁]
        rfl

/-- A thread that owns a lock stores a new object in a slot for integers, and another thread waits
for the lock. -/
def misplacedSource : String :=
  "static ref gate\nstatic int x\nclass Node \x7b\n  ref next\n\x7d\n" ++
  "class Leaf \x7b\n  int key\n\x7d\n" ++
  "thread a \x7b\n  gate = new Node\n  lock gate\n  x = new Leaf\n\x7d\n" ++
  "thread b \x7b\n  lock gate\n\x7d\n"

def misplaced : Program where
  path := "misplaced"
  classes := [⟨"Main", .plain, [], [⟨"gate", .ref, false, 0⟩, ⟨"x", .int, false, 0⟩]⟩,
    ⟨"int[]", .intArray, [], []⟩, ⟨"ref[]", .refArray, [], []⟩, ⟨"set", .set, [], []⟩,
    ⟨"bag", .bag, [], []⟩, ⟨"Node", .plain, [⟨"next", .ref, false, 0⟩], []⟩,
    ⟨"Leaf", .plain, [⟨"key", .int, false, 0⟩], []⟩]
  methods := [
    ⟨"a", false, [],
      [⟨.assign (.staticVar 0 0) (.new 5), .onLine 10 3 17⟩,
        ⟨.lock (.object (.staticVar 0 0)), .onLine 11 3 11⟩,
        ⟨.assign (.staticVar 0 1) (.new 6), .onLine 12 3 14⟩],
      ["gate = new Node", "lock gate", "x = new Leaf"]⟩,
    ⟨"b", false, [], [⟨.lock (.object (.staticVar 0 0)), .onLine 15 3 11⟩], ["lock gate"]⟩]
  threads := [⟨"a", 0⟩, ⟨"b", 1⟩]
  invariants := []

/-- The ended thread still owns the lock, for which the other one still waits; one class became
initialized and the new object is garbage. -/
theorem misplaced_aborts : ∃ s s' last,
    Program.ofSource misplacedSource "misplaced" = .ok misplaced ∧ misplaced.WellFormed s ∧
    s.heap.Enclosed ∧ misplaced.execute Symmetry.fast s 0 none = .ok (s', some last) ∧
    s.Aborts 0 last s' ∧ last.kind = "type_mismatch" ∧
    s.threads.map (·.status) = [.runnable, .blocked (.object 0)] ∧
    s'.threads.map (·.status) = [.terminated, .blocked (.object 0)] ∧
    s.statics.map (·.initialized) = [true, true, false] ∧
    s'.statics.map (·.initialized) = [true, true, true] ∧
    s'.monitor? (.object 0) = some ⟨some 0, 1⟩ ∧
    s.heap.cells.length = 1 ∧ s'.heap.cells.length = 2 := by
  have hsource : Program.ofSource misplacedSource "misplaced" = .ok misplaced := by
    decide +kernel
  have hstep : ∀ {s s' : State}, misplaced.Attains .fast s → 0 ∈ s.runnable →
      misplaced.Offers s 0 none → misplaced.execute Symmetry.fast s 0 none = .ok (s', none) →
      misplaced.Attains .fast s' :=
    fun hs hrun hoffers hexec => hs.step ⟨hrun, hoffers, _, hexec⟩
  have hattained : ∃ s s' last, misplaced.Attains .fast s ∧
      misplaced.execute Symmetry.fast s 0 none = .ok (s', some last) ∧ last.kind = "type_mismatch" ∧
      s.threads.map (·.status) = [.runnable, .blocked (.object 0)] ∧
      s'.threads.map (·.status) = [.terminated, .blocked (.object 0)] ∧
      s.statics.map (·.initialized) = [true, true, false] ∧
      s'.statics.map (·.initialized) = [true, true, true] ∧
      s'.monitor? (.object 0) = some ⟨some 0, 1⟩ ∧
      s.heap.cells.length = 1 ∧ s'.heap.cells.length = 2 := by
    refine ⟨_, _, _, hstep (hstep (.start rfl) ?_ ?_ rfl) ?_ ?_ rfl, rfl, ?_⟩
    · decide
    · exact ⟨_, _, rfl, rfl, rfl⟩
    · decide
    · exact ⟨_, _, rfl, rfl, rfl⟩
    · decide
  obtain ⟨s, s', last, hs, hexec, hfacts⟩ := hattained
  have hwf := hs.wellFormed (ofSource_sound hsource)
  have hheap := hs.enclosed (ofSource_sound hsource)
  exact ⟨s, s', last, hsource, hwf, hheap, hexec, execute_aborts hwf hheap hexec, hfacts⟩

end Interleave
