import Interleave.Proofs.Correspondence.Reach

set_option autoImplicit false

namespace Interleave

variable {fault : Option Uncaught} {data : Option Int64} {layout : Layout} {i : ThreadId}

theorem forall₂_of_getElem? {α β : Type} {r : α → β → Prop} {l : List α} {m : List β}
    (hlen : l.length = m.length) (h : ∀ (i : Nat) (a : α) (b : β), l[i]? = some a → m[i]? = some b →
      r a b) : List.Forall₂ r l m := by
  refine List.forall₂_iff_get.2 ⟨hlen, fun i hl hm => ?_⟩
  exact h i _ _ (List.getElem?_eq_getElem hl) (List.getElem?_eq_getElem hm)

def Program.Settled (p : Program) (s : State) : Prop :=
  ∀ (i : ThreadId) (thread : Thread), s.threads[i]? = some thread →
    thread.status = p.statusOf s i thread

structure Thread.Alike (R : Pairing) (a b : Thread) : Prop where
  name : a.name = b.name
  isAlive : a.isAlive = b.isAlive
  frames : List.Forall₂ (StackFrame.Matches R) a.frames b.frames
  uncaught : a.uncaught.isSome = b.uncaught.isSome

section Settled

variable {R : Pairing} {s t : State} {p : Program}

theorem State.SameMemory.settle (h : s.SameMemory R t) (hs : p.Settled s) (ht : p.Settled t)
    (hthreads : List.Forall₂ (Thread.Alike R) s.threads t.threads) : s.Corresponds R t := by
  refine ⟨h, forall₂_of_getElem? hthreads.length_eq fun i a b ha hb => ?_⟩
  have hab : a.Alike R b := by
    have hat := forall₂_getElem? hthreads i
    rw [ha, hb] at hat
    cases hat with
    | some hab => exact hab
  refine ⟨hab.name, ?_, hab.frames, hab.uncaught⟩
  rw [hs i a ha, ht i b hb]
  exact statusOf_matches p h i hab.isAlive hab.frames

theorem State.Corresponds.cut (h : s.Corresponds R t) (hs : p.Settled s) (ht : p.Settled t) :
    s.Corresponds (s.cut R) t := by
  refine h.toSameMemory.cut.settle hs ht ?_
  refine forall₂_keep h.threads fun a ha b _ hab => ⟨hab.name, hab.isAlive, ?_, hab.uncaught⟩
  exact frames_cut ha hab.frames

section

variable (hstatic : ∀ (id : ClassId) (slot : Nat), (s.static? id).bind (·.fields[slot]?) =
  (t.static? id).bind (·.fields[slot]?))

include hstatic

theorem eval_congr (hheap : s.heap = t.heap) (locals : List Value) (e : Expr) :
    p.eval s locals e = p.eval t locals e := by
  have hobject : s.object = t.object := by
    funext h
    rw [State.object, State.object, hheap]
  have hfield : p.readField s = p.readField t := by
    funext h name
    rw [Program.readField, Program.readField, hobject]
  induction e with
  | int | null | localVar => rfl
  | staticVar => simp only [Program.eval, hstatic]
  | field _ _ ih => simp only [Program.eval, ih, hfield]
  | index _ _ ih ih' | contains _ _ ih ih' => simp only [Program.eval, ih, ih', hobject]
  | len _ ih | size _ ih => simp only [Program.eval, ih, hobject]
  | unary op _ ih => cases op <;> simp only [Program.eval, ih]
  | binary op _ _ ih ih' => cases op <;> simp only [Program.eval, ih, ih']

theorem lockRef_congr (hheap : s.heap = t.heap) (f : StackFrame) (target : LockTarget) :
    p.lockRef s f target = p.lockRef t f target := by
  cases target with
  | ofClass id => rfl
  | object e => simp only [Program.lockRef, eval_congr hstatic hheap]

end

theorem statusOf_congr (hstatics : s.statics = t.statics) (hheap : s.heap = t.heap) (i : ThreadId)
    {a b : Thread} (halive : a.isAlive = b.isAlive) (hframes : a.frames = b.frames) :
    p.statusOf s i a = p.statusOf t i b := by
  have hmonitor : s.monitor? = t.monitor? := by
    funext l
    cases l with
    | object h => simp only [State.monitor?, hheap]
    | ofClass id => simp only [State.monitor?, State.static?, hstatics]
  have hlock : ∀ f target, p.lockRef s f target = p.lockRef t f target :=
    lockRef_congr (fun id slot => by rw [State.static?, State.static?, hstatics]) hheap
  simp only [Program.statusOf, halive, hframes, hmonitor, hlock]

theorem statusOf_alive (i : ThreadId) (thread : Thread) :
    ({ thread with status := p.statusOf s i thread } : Thread).isAlive = thread.isAlive := by
  unfold Program.statusOf
  cases halive : thread.isAlive with
  | false => simp [Thread.isAlive]
  | true =>
    simp only [Thread.isAlive, decide_eq_true_eq, Bool.not_true, Bool.false_eq_true, if_false]
    split
    · simp
    · split
      · split
        · split <;> simp
        · simp
      · simp

theorem updateStatuses_settled (p : Program) (s : State) : p.Settled (p.updateStatuses s) := by
  intro i thread hthread
  simp only [Program.updateStatuses, List.getElem?_mapIdx, Option.map_eq_some_iff] at hthread
  obtain ⟨before, _, rfl⟩ := hthread
  have halive := statusOf_alive (s := s) (p := p) i before
  exact (statusOf_congr (s := p.updateStatuses s) (t := s) rfl rfl i halive rfl).symm

theorem execute_settled (h : p.execute layout s i data = .ok (t, fault)) : p.Settled t := by
  unfold Program.execute at h
  split at h
  · cases h
  · obtain ⟨rfl, _⟩ := Prod.mk.inj (Except.ok.inj h)
    exact updateStatuses_settled p _
  · split at h
    · cases h
    · obtain ⟨rfl, _⟩ := Prod.mk.inj (Except.ok.inj h)
      exact updateStatuses_settled p _

theorem initialState_settled (h : p.initialState = .ok s) : p.Settled s := by
  unfold Program.initialState at h
  cases hthreads : p.initialThreads p.threads with
  | error d =>
    rw [hthreads] at h
    cases h
  | ok threads =>
    rw [hthreads] at h
    cases h
    exact updateStatuses_settled p _

end Settled

/-- A state whose statuses are settled and where every reachable handle stands for an object. -/
structure Program.Coherent (p : Program) (s : State) : Prop where
  settled : p.Settled s
  closed : s.SameMemory (s.cut Eq) s

section Coherent

variable {R : Pairing} {s t : State} {p : Program} {a : Handle}

theorem values_refl (values : List Value) : List.Forall₂ (Value.Matches Eq) values values := by
  refine List.forall₂_same.2 fun v _ => ?_
  cases v with
  | int v => exact .int v
  | null => exact .null
  | ref h => exact .ref rfl

theorem frames_refl (frames : List StackFrame) :
    List.Forall₂ (StackFrame.Matches Eq) frames frames :=
  List.forall₂_same.2 fun f _ => ⟨rfl, rfl, values_refl f.locals⟩

theorem Program.Coherent.live (h : p.Coherent s) (ha : s.Reaches a) :
    ∃ o, s.heap.get? a = some o := by
  obtain ⟨o, _, ho, _⟩ := h.closed.objects a a ⟨ha, rfl⟩
  exact ⟨o, ho⟩

theorem alike_self (s : State) : List.Forall₂ (Thread.Alike (s.cut Eq)) s.threads s.threads :=
  List.forall₂_same.2 fun thread hthread =>
    ⟨rfl, rfl, frames_cut hthread (frames_refl thread.frames), rfl⟩

theorem Program.Coherent.self (h : p.Coherent s) : s.Corresponds (s.cut Eq) s :=
  h.closed.settle h.settled h.settled (alike_self s)

theorem State.Corresponds.coherent (h : s.Corresponds R t) (hs : p.Settled s) : p.Coherent s := by
  have hcut : s.cut (Relation.Comp R (Function.swap R)) = s.cut Eq := by
    funext a b
    refine propext ⟨fun ⟨ha, c, hac, hbc⟩ => ⟨ha, h.oneToOne.1 hac hbc⟩, ?_⟩
    rintro ⟨ha, rfl⟩
    obtain ⟨c, hac, _⟩ := h.reaches ha
    exact ⟨ha, c, hac, hac⟩
  refine ⟨hs, ?_⟩
  rw [← hcut]
  exact (h.comp h.swap).toSameMemory.cut

theorem Program.Coherent.execute (h : p.Coherent s)
    (hstep : p.execute layout s i data = .ok (t, fault)) : p.Coherent t := by
  have hmatch := execute_matches_alike p h.self layout i data
  rw [hstep] at hmatch
  cases hmatch with
  | ok hgrown =>
    obtain ⟨S, hcorr, _⟩ := hgrown.pairing
    exact hcorr.coherent (execute_settled hstep)

theorem initialThreads_matches (R : Pairing) {decls : List ThreadDecl} {threads : List Thread}
    (h : p.initialThreads decls = .ok threads) :
    List.Forall₂ (Thread.Matches R) threads threads := by
  induction decls generalizing threads with
  | nil =>
    cases h
    exact .nil
  | cons decl rest ih =>
    unfold Program.initialThreads Program.newFrame at h
    cases hm : p.methods[decl.entry]? with
    | none =>
      rw [hm] at h
      cases h
    | some m =>
      cases hrest : p.initialThreads rest with
      | error d =>
        rw [hm, hrest] at h
        cases h
      | ok others =>
        rw [hm, hrest] at h
        cases h
        refine .cons (unwind_matches p ⟨rfl, .runnable, .cons ⟨rfl, rfl, ?_⟩ .nil, rfl⟩) (ih hrest)
        refine List.forall₂_same.2 fun v hv => ?_
        rw [List.eq_of_mem_replicate hv]
        exact .int 0

theorem initialStatics_matches (R : Pairing) (p : Program) :
    List.Forall₂ (StaticRecord.Matches R) p.initialStatics p.initialStatics := by
  refine List.forall₂_same.2 fun r hr => ⟨rfl, rfl, ?_, rfl⟩
  obtain ⟨⟨decl, id⟩, _, hdecl⟩ := List.mem_filterMap.1 hr
  dsimp only at hdecl
  split at hdecl
  · cases hdecl
    exact List.forall₂_map_left_iff.2 (List.forall₂_map_right_iff.2
      (List.forall₂_same.2 fun field _ => start_matches field))
  · cases hdecl

theorem initialState_coherent (h : p.initialState = .ok s) : p.Coherent s := by
  refine State.Corresponds.coherent (R := fun _ _ => False) (t := s) ?_ (initialState_settled h)
  unfold Program.initialState at h
  cases hthreads : p.initialThreads p.threads with
  | error d =>
    rw [hthreads] at h
    cases h
  | ok threads =>
    rw [hthreads] at h
    cases h
    refine updateStatuses_corresponds p ⟨⟨?_, initialStatics_matches _ p, ?_⟩,
      initialThreads_matches _ hthreads⟩
    · exact ⟨fun _ _ _ hac => hac.elim, fun _ _ _ hab => hab.elim⟩
    · exact fun _ _ hab => hab.elim

theorem Program.Coherent.mem_reachable (h : p.Coherent s) (ha : s.Reaches a) :
    a ∈ s.heap.reachable s.roots := by
  have hlive : ∀ {b}, s.Reaches b → s.heap.isLive b = true :=
    fun hb => Heap.isLive_iff.2 (h.live hb)
  induction ha with
  | root hroot => exact Heap.mem_reachable_of_root hroot (hlive (.root hroot))
  | next hb ho hk ih =>
    refine Heap.mem_reachable_of_outgoing ih ?_ (hlive (.next hb ho hk))
    simpa [Heap.outgoing, ho] using hk

theorem ThreadStatus.Matches.eq (hR : ∀ a b, R a b → a = b) {x y : ThreadStatus}
    (h : x.Matches R y) : x = y := by
  cases h with
  | runnable | terminated => rfl
  | blocked hlm =>
    cases hlm with
    | object hab => rw [hR _ _ hab]
    | ofClass id => rfl

theorem Program.Coherent.collect (h : p.Coherent s) :
    s.Corresponds (s.cut Eq) s.collect.2 ∧ p.Settled s.collect.2 := by
  have hmemory : s.SameMemory (s.cut Eq) s.collect.2 := by
    refine ⟨h.closed.oneToOne, h.closed.statics, ?_⟩
    rintro a b ⟨ha, rfl⟩
    obtain ⟨o, q, ho, hq, hoq⟩ := h.closed.objects a a ⟨ha, rfl⟩
    refine ⟨o, q, ho, ?_, hoq⟩
    exact (Heap.get?_retain_of_mem (h.mem_reachable ha)).trans hq
  have hsettled : p.Settled s.collect.2 := by
    intro i thread hthread
    have hmem : thread ∈ s.threads := List.mem_of_getElem? hthread
    have hframes := frames_cut hmem (frames_refl thread.frames)
    rw [h.settled i thread hthread]
    exact (statusOf_matches p hmemory i rfl hframes).eq fun a b hab => hab.2
  exact ⟨hmemory.settle h.settled hsettled (alike_self s), hsettled⟩

/-- The pairing is a bijection between the reachable objects of two states, under which they
correspond. -/
structure State.IsIsomorphism (s : State) (R : Pairing) (t : State) : Prop
    extends State.Corresponds s R t where
  left : ∀ a, s.Reaches a ↔ ∃ b, R a b
  right : ∀ b, t.Reaches b ↔ ∃ a, R a b

def State.Isomorphic (s t : State) : Prop := ∃ R : Pairing, s.IsIsomorphism R t

theorem State.Corresponds.isomorphic (h : s.Corresponds R t) (hs : p.Settled s)
    (ht : p.Settled t) : s.Isomorphic t := by
  refine ⟨s.cut R, h.cut hs ht, fun a => ⟨fun ha => ?_, fun ⟨b, hab⟩ => hab.1⟩, fun b => ?_⟩
  · obtain ⟨b, hab, _⟩ := h.reaches ha
    exact ⟨b, ha, hab⟩
  · refine ⟨fun hb => ?_, fun ⟨a, ha, hab⟩ => h.reaches_right hab ha⟩
    obtain ⟨a, hab, ha⟩ := h.swap.reaches hb
    exact ⟨a, ha, hab⟩

theorem State.Corresponds.runnable (h : s.Corresponds R t) : s.runnable = t.runnable := by
  have hzip : ∀ {l m : List Thread} (n : Nat), List.Forall₂ (Thread.Matches R) l m →
      ((l.zipIdx n).filterMap fun x => if x.1.isRunnable then some x.2 else none) =
        (m.zipIdx n).filterMap fun x => if x.1.isRunnable then some x.2 else none := by
    intro l m n hlm
    induction hlm generalizing n with
    | nil => rfl
    | cons hab _ ih =>
      simp only [List.zipIdx_cons, List.filterMap_cons, hab.isRunnable, ih]
  exact hzip 0 h.threads

theorem State.Corresponds.isEnd (h : s.Corresponds R t) : s.isEnd = t.isEnd := by
  rw [State.isEnd, State.isEnd, h.runnable]

theorem State.Corresponds.isDeadlocked (h : s.Corresponds R t) :
    s.isDeadlocked = t.isDeadlocked := by
  have hany : ∀ {l m : List Thread}, List.Forall₂ (Thread.Matches R) l m →
      l.any (·.isAlive) = m.any (·.isAlive) := by
    intro l m hlm
    induction hlm with
    | nil => rfl
    | cons hab _ ih => rw [List.any_cons, List.any_cons, hab.isAlive, ih]
  rw [State.isDeadlocked, State.isDeadlocked, h.isEnd, hany h.threads]

theorem firstViolated_eq (h : s.SameMemory R t) (p : Program) (invariants : List (Located Expr)) :
    p.firstViolated s invariants = p.firstViolated t invariants := by
  induction invariants with
  | nil => rfl
  | cons invariant rest ih =>
    have heval := eval_matches h p .nil invariant.value
    unfold Program.firstViolated
    revert heval
    generalize p.eval s [] invariant.value = x
    generalize p.eval t [] invariant.value = y
    intro heval
    cases heval with
    | ok hvw =>
      dsimp only
      rw [hvw.isTrue, ih]
    | stop e => cases e <;> rfl

theorem State.SameMemory.violated (h : s.SameMemory R t) (p : Program) :
    p.violated s = p.violated t := by
  rw [Program.violated, Program.violated, firstViolated_eq h p]

end Coherent

end Interleave
