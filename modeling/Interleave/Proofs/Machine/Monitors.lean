import Interleave.Proofs.Machine.Effects
import Interleave.Proofs.Program.Denotation
import Interleave.Search.Property

set_option autoImplicit false

/-! The completed lock and unlock steps of an execution account for every monitor of its last state:
a monitor is free, or its owner has entered it more often than left it, by its count, and since the
owner acquired it no other thread was inside. -/

namespace Interleave

inductive LockStep where
  | enter (t : ThreadId) (l : LockRef)
  | leave (t : ThreadId) (l : LockRef)
deriving DecidableEq

def LockStep.thread : LockStep → ThreadId
  | enter t _ | leave t _ => t

def LockStep.lock : LockStep → LockRef
  | enter _ l | leave _ l => l

def Program.lockStep? (p : Program) (s : State) (t : ThreadId) : Option LockStep :=
  match s.topFrame? t with
  | none => none
  | some f =>
    match p.statement? f.method f.pc with
    | some ⟨.lock target, _⟩ => (p.lockRef s f target).toOption.map (.enter t)
    | some ⟨.unlock target, _⟩ => (p.lockRef s f target).toOption.map (.leave t)
    | _ => none

def Program.record (p : Program) (mode : Symmetry) (r : State × List LockStep)
    (choice : ThreadId × Option Int64) : State × List LockStep :=
  match p.execute mode r.1 choice.1 choice.2 with
  | .error _ => r
  | .ok (s, none) => (s, r.2 ++ (p.lockStep? r.1 choice.1).toList)
  | .ok (s, some _) => (s, r.2)

def Program.lockSteps (p : Program) (mode : Symmetry) (choices : List (ThreadId × Option Int64)) :
    List LockStep :=
  match p.initialState with
  | .error _ => []
  | .ok s => (choices.foldl (p.record mode) (s, [])).2

section Log

variable {p : Program} {mode : Symmetry} {choices : List (ThreadId × Option Int64)} {s s' : State}
  {fault last : Option Uncaught} {t : ThreadId} {data : Option Int64}

theorem State.Relisted.lockStep? {r : State} (h : s.Relisted r) (t : ThreadId) :
    p.lockStep? r t = p.lockStep? s t := by
  obtain ⟨R, hcorr, heq⟩ := h.pairing
  unfold Program.lockStep?
  obtain ⟨hs, hr⟩ | ⟨f, g, hs, hr, hfg⟩ := optionRel_cases (hcorr.topFrame? t)
  · rw [hs, hr]
  · obtain rfl := hfg.eq heq
    have hlock : ∀ target, p.lockRef r f target = p.lockRef s f target := by
      intro target
      have hmatch := lockRef_matches p hcorr.toSameMemory hfg target
      generalize p.lockRef s f target = x at hmatch
      generalize p.lockRef r f target = y at hmatch
      cases hmatch with
      | ok hl =>
        cases hl with
        | object hab => rw [heq _ _ hab]
        | ofClass => rfl
      | stop => rfl
    simp only [hs, hr, hlock]

theorem Program.Execution.record (h : p.Execution mode choices s fault) :
    ∃ s₀ r, p.initialState = .ok s₀ ∧ s.Relisted r ∧
      choices.foldl (p.record mode) (s₀, []) = (r, p.lockSteps mode choices) := by
  induction h with
  | @start s h =>
    exact ⟨s, s, h, .refl (initialState_coherent h), by simp [Program.lockSteps, h]⟩
  | @step choices s s' _ fault t data _ hstep ih =>
    obtain ⟨s₀, r, hs₀, hrelisted, hfold⟩ := ih
    obtain ⟨_, hexecuted⟩ := hstep.executed
    obtain ⟨r', hr', hrelisted'⟩ := hrelisted.execute hexecuted fun _ _ _ => []
    refine ⟨s₀, r', hs₀, hrelisted', ?_⟩
    simp only [Program.lockSteps, hs₀, List.foldl_append, List.foldl_cons, List.foldl_nil]
    rw [hfold, Program.record, Layout.plain, hr']
    cases fault <;> rfl

theorem Program.Execution.lockSteps_append (h : p.Execution mode choices s last)
    {arrange : Handle → Arrangement Handle}
    (hexecute : p.execute ⟨mode, arrange⟩ s t data = .ok (s', fault)) :
    p.lockSteps mode (choices ++ [(t, data)]) = p.lockSteps mode choices ++
      if fault = none then (p.lockStep? s t).toList else [] := by
  obtain ⟨s₀, r, hs₀, hrelisted, hfold⟩ := h.record
  obtain ⟨r', hr', _⟩ := hrelisted.execute hexecute fun _ _ _ => []
  have hlog : p.lockSteps mode (choices ++ [(t, data)]) =
      (p.record mode (r, p.lockSteps mode choices) (t, data)).2 := by
    simp only [Program.lockSteps, hs₀, List.foldl_append, List.foldl_cons, List.foldl_nil] at hfold ⊢
    rw [hfold]
  rw [hlog, Program.record, Layout.plain, hr', ← hrelisted.lockStep?]
  cases fault <;> simp

@[simp] theorem Program.lockSteps_nil : p.lockSteps mode [] = [] := by
  unfold Program.lockSteps
  cases p.initialState <;> rfl

end Log

def State.monitorOf (s : State) (l : LockRef) : Monitor := (s.monitor? l).getD .free

section Monitors

variable {p : Program} {layout : Layout} {made : ClassId → Prop} {s s' s₁ : State} {f : StackFrame}
  {t : ThreadId} {data : Option Int64} {l : LockRef} {m : Monitor} {target : LockTarget} {α : Type}
  {g : α → α} {P : α → Bool} {x : Eval State}

theorem State.Inherits.monitorOf (h : s.Inherits made s') (l : LockRef) :
    s'.monitorOf l = s.monitorOf l := by
  unfold State.monitorOf
  cases l with
  | ofClass id => exact congrArg (·.getD .free) (h.classes id)
  | object a =>
    simp only [State.monitor?]
    cases ho : s.heap.get? a with
    | some o =>
      obtain ⟨o', ho', _, hmonitor⟩ := h.kept a o ho
      simp [ho', hmonitor]
    | none =>
      cases ho' : s'.heap.get? a with
      | none => rfl
      | some o' => simp [(h.made a o' ho' ho).2]

theorem find?_modify_findIdx (hg : ∀ a, P (g a) = P a) (xs : List α) :
    (xs.modify (xs.findIdx P) g).find? P = (xs.find? P).map g := by
  induction xs with
  | nil => rfl
  | cons a xs ih =>
    rw [List.findIdx_cons]
    cases ha : P a with
    | true => simp [ha, hg]
    | false => simp [ha, ih]

theorem find?_modify_findIdx_of_disjoint {Q : α → Bool}
    (hPQ : ∀ a, P a = true → Q a = false ∧ Q (g a) = false) (xs : List α) :
    (xs.modify (xs.findIdx P) g).find? Q = xs.find? Q := by
  induction xs with
  | nil => rfl
  | cons a xs ih =>
    rw [List.findIdx_cons]
    cases ha : P a with
    | true => simp [hPQ a ha]
    | false => simp [List.find?_cons, ih]

theorem State.monitorOf_setMonitor (hm : s.monitor? l = some m) (n : Monitor) :
    (s.setMonitor n l).monitorOf = Function.update s.monitorOf l n := by
  funext k
  by_cases hkl : k = l
  · subst hkl
    rw [Function.update_self]
    cases k with
    | object a =>
      obtain ⟨o, ho, _⟩ := Option.map_eq_some_iff.1 hm
      have hself := Heap.get?_put_self (Heap.lt_of_get? ho) { o with monitor := n }
      simp [State.setMonitor, State.monitorOf, State.monitor?, State.putObject, ho, hself]
    | ofClass id =>
      obtain ⟨r, hr, _⟩ := Option.map_eq_some_iff.1 hm
      have hfind := find?_modify_findIdx (g := fun r : StaticRecord => { r with monitor := n })
        (P := fun r => decide (r.owner = id)) (fun _ => rfl) s.statics
      simp only [State.static?] at hr
      rw [hr] at hfind
      simp [State.setMonitor, State.monitorOf, State.monitor?, State.modifyStatic, State.static?,
        hfind]
  · rw [Function.update_of_ne hkl]
    cases l with
    | object a =>
      obtain ⟨o, ho, _⟩ := Option.map_eq_some_iff.1 hm
      simp only [State.setMonitor, ho]
      cases k with
      | ofClass id => rfl
      | object b =>
        have hba : b ≠ a := fun heq => hkl (congrArg _ heq)
        simp only [State.monitorOf, State.monitor?, State.putObject, Heap.get?_put_of_ne hba]
    | ofClass id =>
      cases k with
      | object b => rfl
      | ofClass k =>
        have hki : k ≠ id := fun heq => hkl (congrArg _ heq)
        refine congrArg (fun r : Option StaticRecord => (r.map (·.monitor)).getD .free) ?_
        refine find?_modify_findIdx_of_disjoint (fun r hr => ?_) s.statics
        have hother : ¬ r.owner = k := fun heq => hki (heq.symm.trans (of_decide_eq_true hr))
        exact ⟨decide_eq_false hother, decide_eq_false hother⟩

theorem monitor_eq_ok (h : p.monitor s f target = .ok (l, m)) :
    p.lockRef s f target = .ok l ∧ s.monitor? l = some m := by
  obtain ⟨k, hk, h⟩ := bind_eq_ok.1 h
  split at h
  · next n hn =>
    cases h
    exact ⟨hk, hn⟩
  · cases h

/-- What an effect on a lock does: it is the lock that the target stands for that is entered or left,
and all other monitors stay as they are. -/
theorem enterLock_eq_ok (h : p.enterLock s t f target = .ok s') :
    ∃ l, p.lockRef s f target = .ok l ∧ (s.monitorOf l).isFreeFor t = true ∧
      s'.monitorOf = Function.update s.monitorOf l ((s.monitorOf l).enter t) := by
  obtain ⟨⟨l, m⟩, hmonitor, h⟩ := bind_eq_ok.1 h
  obtain ⟨hl, hm⟩ := monitor_eq_ok hmonitor
  have hof : s.monitorOf l = m := by rw [State.monitorOf, hm, Option.getD_some]
  dsimp only at h
  split at h
  · next hfree =>
    cases h
    exact ⟨l, hl, hof ▸ hfree, hof ▸ State.monitorOf_setMonitor hm _⟩
  · cases h

theorem leaveLock_eq_ok (h : p.leaveLock s t f target = .ok s') :
    ∃ l, p.lockRef s f target = .ok l ∧ (s.monitorOf l).owner = some t ∧
      s'.monitorOf = Function.update s.monitorOf l (s.monitorOf l).leave := by
  obtain ⟨⟨l, m⟩, hmonitor, h⟩ := bind_eq_ok.1 h
  obtain ⟨hl, hm⟩ := monitor_eq_ok hmonitor
  have hof : s.monitorOf l = m := by rw [State.monitorOf, hm, Option.getD_some]
  dsimp only at h
  split at h
  · next howner =>
    cases h
    exact ⟨l, hl, hof ▸ howner, hof ▸ State.monitorOf_setMonitor hm _⟩
  · cases h

inductive LockStep.Applies (s s' : State) : LockStep → Prop where
  | enter {t : ThreadId} {l : LockRef} (hfree : (s.monitorOf l).isFreeFor t = true)
      (h : s'.monitorOf = Function.update s.monitorOf l ((s.monitorOf l).enter t)) :
      Applies s s' (.enter t l)
  | leave {t : ThreadId} {l : LockRef} (howner : (s.monitorOf l).owner = some t)
      (h : s'.monitorOf = Function.update s.monitorOf l (s.monitorOf l).leave) :
      Applies s s' (.leave t l)

theorem monitorOf_markInitialized (s : State) (ids : List ClassId) :
    (s.markInitialized ids).monitorOf = s.monitorOf := by
  have hkept : s.Inherits (fun _ => False) (s.markInitialized ids) := .markInitialized ids
  exact funext hkept.monitorOf

theorem execute_monitors {fault : Option Uncaught}
    (h : p.execute layout s t data = .ok (s', fault)) :
    (fault = none ∧ ∃ e, p.lockStep? s t = some e ∧ e.Applies s s') ∨
      ((fault = none → p.lockStep? s t = none) ∧ s'.monitorOf = s.monitorOf) := by
  obtain ⟨f, ⟨stmt, span⟩, s₁, hf, hstmt, heffect⟩ := execute_effect h
  have hbefore := monitorOf_markInitialized s stmt.owners
  rcases heffect with ⟨heffect, rfl, rfl⟩ | ⟨e, thread, heffect, _, rfl, rfl⟩
  · cases stmt with
    | lock target =>
      obtain ⟨s₂, hs₂, heq⟩ := Outcome.after_eq_next heffect
      cases heq
      obtain ⟨l, hl, hfree, hset⟩ := enterLock_eq_ok hs₂
      rw [markInitialized_lockRef] at hl
      rw [hbefore] at hfree hset
      refine .inl ⟨rfl, .enter t l, ?_, .enter hfree hset⟩
      simp [Program.lockStep?, hf, hstmt, hl, Except.toOption]
    | unlock target =>
      obtain ⟨s₂, hs₂, heq⟩ := Outcome.after_eq_next heffect
      cases heq
      obtain ⟨l, hl, howner, hset⟩ := leaveLock_eq_ok hs₂
      rw [markInitialized_lockRef] at hl
      rw [hbefore] at howner hset
      refine .inl ⟨rfl, .leave t l, ?_, .leave howner hset⟩
      simp [Program.lockStep?, hf, hstmt, hl, Except.toOption]
    | _ =>
      obtain ⟨f', stmt', hf', hstmt', hinherits⟩ := execute_inherits h
      cases hf.symm.trans hf'
      cases hstmt.symm.trans hstmt'
      exact .inr ⟨fun _ => by simp [Program.lockStep?, hf, hstmt], funext (hinherits id).monitorOf⟩
  · -- a statement on a lock that faults does not complete, and leaves the monitors as they are
    have hacts : p.Acts layout (s.markInitialized stmt.owners) t f data stmt (.raised e s₁) :=
      heffect ▸ effect_acts stmt
    cases hacts with
    | raises _ _ hinherits => exact .inr ⟨nofun, (funext hinherits.monitorOf).trans hbefore⟩

end Monitors

/-- The steps by which a thread has come to hold a lock: when it entered, nobody was inside; from
then on it has stayed inside, and nobody else entered or left. -/
def Acquired (log : List LockStep) (l : LockRef) (t : ThreadId) : Prop :=
  ∃ before after, log = before ++ .enter t l :: after ∧
    (∀ u, before.count (.enter u l) = before.count (.leave u l)) ∧
    (∀ e ∈ after, e.lock = l → e.thread = t) ∧
    ∀ part, part <+: after → part.count (.leave t l) ≤ part.count (.enter t l)

/-- What the completed lock steps of an execution say about a monitor. -/
inductive Monitor.Accounts (log : List LockStep) (l : LockRef) : Monitor → Prop where
  | free (h : ∀ u, log.count (.enter u l) = log.count (.leave u l)) : Accounts log l ⟨none, 0⟩
  | held {t : ThreadId} {count : Nat} (hcount : 0 < count)
      (howner : log.count (.enter t l) = log.count (.leave t l) + count)
      (hothers : ∀ u, u ≠ t → log.count (.enter u l) = log.count (.leave u l))
      (hacquired : Acquired log l t) : Accounts log l ⟨some t, count⟩

section Accounts

variable {log : List LockStep} {l : LockRef} {t : ThreadId} {m : Monitor} {e : LockStep}

theorem count_concat_self (log : List LockStep) (e : LockStep) :
    (log ++ [e]).count e = log.count e + 1 := by
  simp

theorem count_concat_of_ne {k : LockStep} (h : e ≠ k) (log : List LockStep) :
    (log ++ [e]).count k = log.count k := by
  rw [List.count_append, List.count_singleton, if_neg (by simpa using h), Nat.add_zero]

theorem Acquired.append (h : Acquired log l t) (he : e.lock = l → e.thread = t)
    (hinside : (log ++ [e]).count (.leave t l) < (log ++ [e]).count (.enter t l)) :
    Acquired (log ++ [e]) l t := by
  obtain ⟨before, after, rfl, hbefore, hafter, hparts⟩ := h
  have hcount : ∀ k, (before ++ .enter t l :: after ++ [e]).count k =
      (before ++ [LockStep.enter t l]).count k + (after ++ [e]).count k := by
    intro k
    rw [← List.count_append, List.append_assoc, List.append_assoc]
    rfl
  refine ⟨before, after ++ [e], by simp, hbefore, ?_, ?_⟩
  · intro k hk
    rcases List.mem_append.1 hk with hk | hk
    · exact hafter k hk
    · rw [List.mem_singleton.1 hk]
      exact he
  · intro part hpart
    rcases List.prefix_concat_iff.1 hpart with rfl | hpart
    · -- The steps before are balanced, so those since then keep the thread inside.
      have hsum := hbefore t
      rw [hcount, hcount, count_concat_self, count_concat_of_ne (by simp)] at hinside
      omega
    · exact hparts part hpart

theorem Monitor.Accounts.other (h : m.Accounts log l) (he : e.lock ≠ l) :
    m.Accounts (log ++ [e]) l := by
  have hcount : ∀ k : LockStep, k.lock = l → (log ++ [e]).count k = log.count k := by
    intro k hk
    refine count_concat_of_ne ?_ log
    rintro rfl
    exact he hk
  cases h with
  | free h => exact .free fun u => by rw [hcount _ rfl, hcount _ rfl, h u]
  | @held t count hpos howner hothers hacquired =>
    refine .held hpos (by rw [hcount _ rfl, hcount _ rfl, howner]) (fun u hu => ?_) ?_
    · rw [hcount _ rfl, hcount _ rfl, hothers u hu]
    · refine hacquired.append (fun hl => absurd hl he) ?_
      rw [hcount _ rfl, hcount _ rfl]
      omega

theorem Monitor.Accounts.enter (h : m.Accounts log l) (hfree : m.isFreeFor t = true) :
    (m.enter t).Accounts (log ++ [.enter t l]) l := by
  have hentered : (log ++ [LockStep.enter t l]).count (.enter t l) = log.count (.enter t l) + 1 :=
    count_concat_self log _
  have hleft : (log ++ [LockStep.enter t l]).count (.leave t l) = log.count (.leave t l) :=
    count_concat_of_ne (by simp) log
  cases h with
  | free h =>
    have hsum := h t
    refine .held (Nat.succ_pos _) ?_ (fun u hu => ?_) ?_
    · dsimp only
      omega
    · simp [Ne.symm hu, h u]
    · exact ⟨log, [], rfl, h, by simp, by simp⟩
  | @held owner count hpos howner hothers hacquired =>
    obtain rfl : owner = t := by simpa [Monitor.isFreeFor] using hfree
    refine .held (Nat.succ_pos _) ?_ (fun u hu => ?_) ?_
    · dsimp only
      omega
    · simp [Ne.symm hu, hothers u hu]
    · exact hacquired.append (fun _ => rfl) (by omega)

theorem Monitor.Accounts.leave (h : m.Accounts log l) (howner : m.owner = some t) :
    m.leave.Accounts (log ++ [.leave t l]) l := by
  have hentered : (log ++ [LockStep.leave t l]).count (.enter t l) = log.count (.enter t l) :=
    count_concat_of_ne (by simp) log
  have hleft : (log ++ [LockStep.leave t l]).count (.leave t l) = log.count (.leave t l) + 1 :=
    count_concat_self log _
  cases h with
  | free h => cases howner
  | @held owner count hpos hcount hothers hacquired =>
    obtain rfl := Option.some.inj howner
    have hrest : ∀ u, u ≠ owner → (log ++ [LockStep.leave owner l]).count (.enter u l) =
        (log ++ [LockStep.leave owner l]).count (.leave u l) := by
      intro u hu
      simp [Ne.symm hu, hothers u hu]
    unfold Monitor.leave
    dsimp only
    split
    · refine .free fun u => ?_
      by_cases hu : u = owner
      · subst hu
        omega
      · exact hrest u hu
    · refine .held (by omega) (by omega) hrest ?_
      exact hacquired.append (fun _ => rfl) (by omega)

theorem Monitor.Accounts.applies {s s' : State} (h : ∀ l, (s.monitorOf l).Accounts log l)
    (he : e.Applies s s') (l : LockRef) : (s'.monitorOf l).Accounts (log ++ [e]) l := by
  have hupdate : ∀ k m, s'.monitorOf = Function.update s.monitorOf k m → e.lock = k →
      m.Accounts (log ++ [e]) k → (s'.monitorOf l).Accounts (log ++ [e]) l := by
    intro k m hset hk hm
    rw [hset]
    by_cases hlk : l = k
    · subst hlk
      rwa [Function.update_self]
    · rw [Function.update_of_ne hlk]
      exact (h l).other (hk ▸ Ne.symm hlk)
  cases he with
  | enter hfree hset => exact hupdate _ _ hset rfl ((h _).enter hfree)
  | leave howner hset => exact hupdate _ _ hset rfl ((h _).leave howner)

end Accounts

section Executions

variable {p : Program} {mode : Symmetry} {choices : List (ThreadId × Option Int64)} {s : State}
  {fault : Option Uncaught}

theorem initialState_monitorOf (h : p.initialState = .ok s) (l : LockRef) :
    s.monitorOf l = .free := by
  obtain ⟨threads, _, h⟩ := bind_eq_ok.1 h
  cases h
  cases l with
  | object a => rfl
  | ofClass id =>
    unfold State.monitorOf
    cases hr : State.static? (p.updateStatuses ⟨threads, p.initialStatics, .empty⟩) id with
    | none => simp [State.monitor?, hr]
    | some r =>
      obtain ⟨_, _, _, _, rfl⟩ := mem_initialStatics.1 (List.mem_of_find?_eq_some hr)
      simp [State.monitor?, hr]

/-- The lock steps of an execution account for every monitor. -/
theorem Program.Execution.accounts (h : p.Execution mode choices s fault) (l : LockRef) :
    (s.monitorOf l).Accounts (p.lockSteps mode choices) l := by
  induction h generalizing l with
  | start h =>
    rw [initialState_monitorOf h, Program.lockSteps_nil]
    exact .free fun _ => rfl
  | @step choices s s' last fault t data hbefore hstep ih =>
    obtain ⟨_, hexecuted⟩ := hstep.executed
    rw [hbefore.lockSteps_append hexecuted]
    rcases execute_monitors hexecuted with ⟨rfl, e, he, happlies⟩ | ⟨hnone, hsame⟩
    · rw [if_pos rfl, he]
      exact Monitor.Accounts.applies ih happlies l
    · have hlog : (if fault = none then (p.lockStep? s t).toList else []) = [] := by
        split
        · next hfault => rw [hnone hfault, Option.toList_none]
        · rfl
      rw [hlog, List.append_nil, hsame]
      exact ih l

end Executions

def Program.WaitsFor (p : Program) (s : State) (i : ThreadId) (l : LockRef) : Prop :=
  ∃ f target span m owner, s.topFrame? i = some f ∧
    p.statement? f.method f.pc = some ⟨.lock target, span⟩ ∧ p.lockRef s f target = .ok l ∧
    s.monitor? l = some m ∧ m.owner = some owner ∧ owner ≠ i

section Statuses

variable {p : Program} {s : State} {i : ThreadId} {thread : Thread}

theorem Monitor.isFreeFor_eq_false {m : Monitor} {t : ThreadId} :
    m.isFreeFor t = false ↔ ∃ owner, m.owner = some owner ∧ owner ≠ t := by
  unfold Monitor.isFreeFor
  cases m.owner <;> simp

variable (hs : p.WellFormed s)

include hs

theorem Program.WellFormed.monitor?_of_lockRef (hp : p.Sound) {f : StackFrame}
    {rest : List StackFrame} {target : LockTarget} {span : Span} {l : LockRef}
    (hthread : s.threads[i]? = some thread) (hframes : thread.frames = f :: rest)
    (hstmt : p.statement? f.method f.pc = some ⟨.lock target, span⟩)
    (hl : p.lockRef s f target = .ok l) : ∃ m, s.monitor? l = some m := by
  obtain ⟨hsound, hmatch⟩ := hs.statement_sound hp hthread hframes hstmt
  exact (lockRef_gives hs.toTyped hs.closed hmatch hsound).result l hl

theorem Program.WellFormed.terminated_iff (hthread : s.threads[i]? = some thread) :
    thread.status = .terminated ↔ thread.frames = [] := by
  rw [(hs.calls thread (List.mem_of_getElem? hthread)).finished]
  simp [Thread.isAlive]

theorem Program.WellFormed.blocked_iff (hp : p.Sound) (hthread : s.threads[i]? = some thread)
    (l : LockRef) : thread.status = .blocked l ↔ p.WaitsFor s i l := by
  have hstatus := hs.settled i thread hthread
  constructor
  · intro hblocked
    rw [hstatus] at hblocked
    unfold Program.statusOf at hblocked
    split at hblocked
    · cases hblocked
    split at hblocked
    · cases hblocked
    next f rest hframes =>
    split at hblocked
    · next target span hstmt =>
      split at hblocked
      · next k hk =>
        obtain ⟨m, hm⟩ := hs.monitor?_of_lockRef hp hthread hframes hstmt hk
        split at hblocked
        · cases hblocked
        · next hheld =>
          cases hblocked
          rw [hm, Option.any_some, Bool.not_eq_true] at hheld
          obtain ⟨owner, howner, hother⟩ := Monitor.isFreeFor_eq_false.1 hheld
          have htop : s.topFrame? i = some f := by simp [State.topFrame?, hthread, hframes]
          exact ⟨f, target, span, m, owner, htop, hstmt, hk, hm, howner, hother⟩
      · cases hblocked
    · cases hblocked
  · rintro ⟨f, target, span, m, owner, htop, hstmt, hl, hm, howner, hother⟩
    obtain ⟨rest, hframes⟩ := State.frames_of_topFrame? hthread htop
    have halive : thread.isAlive = true := by
      have hfinished := (hs.calls thread (List.mem_of_getElem? hthread)).finished
      rw [hframes] at hfinished
      simpa using hfinished
    have hheld : m.isFreeFor i = false := Monitor.isFreeFor_eq_false.2 ⟨owner, howner, hother⟩
    rw [hstatus]
    simp [Program.statusOf, halive, hframes, hstmt, hl, hm, hheld]

theorem Program.WellFormed.runnable_iff (hp : p.Sound) (hthread : s.threads[i]? = some thread) :
    thread.status = .runnable ↔ thread.frames ≠ [] ∧ ∀ l, ¬ p.WaitsFor s i l := by
  rw [Ne, ← hs.terminated_iff hthread]
  simp only [← hs.blocked_iff hp hthread]
  cases thread.status <;> simp

/-- A deadlock: some thread is alive, and every live thread waits for a lock of another thread. -/
theorem Program.WellFormed.isDeadlocked_iff (hp : p.Sound) :
    s.isDeadlocked = true ↔ (∃ thread ∈ s.threads, thread.isAlive = true) ∧
      ∀ (i : ThreadId) (thread : Thread), s.threads[i]? = some thread → thread.isAlive = true →
        ∃ l, p.WaitsFor s i l := by
  rw [State.isDeadlocked_iff]
  unfold State.Deadlocked
  simp only [Thread.isAlive, decide_eq_true_eq]
  refine and_congr_right fun _ => ⟨fun hnone i thread hthread halive => ?_, ?_⟩
  · have hstuck := hnone thread (List.mem_of_getElem? hthread)
    by_contra hfree
    refine hstuck ((hs.runnable_iff hp hthread).2 ⟨?_, not_exists.1 hfree⟩)
    rwa [Ne, ← hs.terminated_iff hthread]
  · intro hwaits thread hmem hrunnable
    obtain ⟨i, hthread⟩ := List.mem_iff_getElem?.1 hmem
    obtain ⟨l, hl⟩ := hwaits i thread hthread (by simp [hrunnable])
    exact ((hs.runnable_iff hp hthread).1 hrunnable).2 l hl

end Statuses

/-- What holds of the monitors and statuses of the state that an execution leads to. -/
structure Program.Orderly (p : Program) (mode : Symmetry)
    (choices : List (ThreadId × Option Int64)) (s : State) : Prop where
  monitors : ∀ l m, s.monitor? l = some m → m.Accounts (p.lockSteps mode choices) l
  terminated : ∀ (i : ThreadId) (thread : Thread), s.threads[i]? = some thread →
    (thread.status = .terminated ↔ thread.frames = [])
  blocked : ∀ (i : ThreadId) (thread : Thread), s.threads[i]? = some thread →
    ∀ l, thread.status = .blocked l ↔ p.WaitsFor s i l
  runnable : ∀ (i : ThreadId) (thread : Thread), s.threads[i]? = some thread →
    (thread.status = .runnable ↔ thread.frames ≠ [] ∧ ∀ l, ¬ p.WaitsFor s i l)
  deadlock : ∀ (b : Session) (x : Explorer), x.state = s →
    ((∃ finding, Property.notDeadlocked.check b x = .ok (some finding) ∧ finding.violated = true) ↔
      (∃ thread ∈ s.threads, thread.isAlive = true) ∧
        ∀ (i : ThreadId) (thread : Thread), s.threads[i]? = some thread →
          thread.isAlive = true → ∃ l, p.WaitsFor s i l)

/-- Monitors exclude each other's threads, and every status is exact. -/
theorem execution_orderly {source path : String} {p : Program} {mode : Symmetry}
    {choices : List (ThreadId × Option Int64)} {s : State} {fault : Option Uncaught}
    (hp : Program.ofSource source path = .ok p) (h : p.Execution mode choices s fault) :
    p.Orderly mode choices s := by
  have hsound := ofSource_sound hp
  have hs := h.wellFormed hsound
  refine ⟨?_, fun _ _ => hs.terminated_iff, fun _ _ => hs.blocked_iff hsound,
    fun _ _ => hs.runnable_iff hsound, ?_⟩
  · intro l m hm
    have haccounts := h.accounts l
    rwa [State.monitorOf, hm, Option.getD_some] at haccounts
  · rintro b x rfl
    rw [← hs.isDeadlocked_iff hsound]
    unfold Property.notDeadlocked Explorer.isDeadlocked
    cases hstuck : x.state.isDeadlocked <;> simp [hstuck]

/-- A thread that enters a lock twice and ends inside, and one that waits for it. -/
def hoard : Program where
  path := "hoard"
  classes := builtinClasses
  methods := [
    ⟨"a", false, [],
      [⟨.lock (.ofClass 0), .onLine 2 3 11⟩, ⟨.lock (.ofClass 0), .onLine 3 3 11⟩],
      ["lock Main", "lock Main"]⟩,
    ⟨"b", false, [], [⟨.lock (.ofClass 0), .onLine 6 3 11⟩], ["lock Main"]⟩]
  threads := [⟨"a", 0⟩, ⟨"b", 1⟩]
  invariants := []

/-- The lock stays with its dead owner, and the execution has come to a deadlock. -/
theorem hoard_orderly : ∃ s, Program.ofSource
      "thread a \x7b\n  lock Main\n  lock Main\n\x7d\nthread b \x7b\n  lock Main\n\x7d\n" "hoard" =
        .ok hoard ∧
    hoard.Execution .fast [(0, none), (0, none)] s none ∧
    hoard.lockSteps .fast [(0, none), (0, none)] =
      [.enter 0 (.ofClass 0), .enter 0 (.ofClass 0)] ∧
    s.monitor? (.ofClass 0) = some ⟨some 0, 2⟩ ∧
    s.threads.map (·.status) = [.terminated, .blocked (.ofClass 0)] ∧ s.isDeadlocked = true ∧
    hoard.Orderly .fast [(0, none), (0, none)] s := by
  have hsource : Program.ofSource
      "thread a \x7b\n  lock Main\n  lock Main\n\x7d\nthread b \x7b\n  lock Main\n\x7d\n" "hoard" =
        .ok hoard := by
    decide +kernel
  have hexecution : ∃ s, hoard.Execution .fast [(0, none), (0, none)] s none ∧
      s.monitor? (.ofClass 0) = some ⟨some 0, 2⟩ ∧
      s.threads.map (·.status) = [.terminated, .blocked (.ofClass 0)] ∧ s.isDeadlocked = true := by
    refine ⟨_, .step (.step (.start rfl) ⟨?_, ?_, fun _ _ _ => [], rfl⟩)
      ⟨?_, ?_, fun _ _ _ => [], rfl⟩, ?_, ?_, ?_⟩
    · decide
    · exact ⟨_, _, rfl, rfl, rfl⟩
    · decide
    · exact ⟨_, _, rfl, rfl, rfl⟩
    · decide
    · decide
    · decide
  obtain ⟨s, hs, hmonitor, hstatuses, hdeadlock⟩ := hexecution
  exact ⟨s, hsource, hs, by decide, hmonitor, hstatuses, hdeadlock, execution_orderly hsource hs⟩

end Interleave
