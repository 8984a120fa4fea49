import Interleave.Proofs.Fingerprint.Script
import Interleave.Proofs.Machine.Effects

set_option autoImplicit false

namespace Interleave

inductive State.At (entry : MethodId) (size : Nat) (s : State) : Nat → Prop where
  | inside {name : String} {i : Nat} {locals : List Value} (hi : i < size)
      (hs : s.threads = [⟨name, .runnable, [⟨entry, i, locals⟩], none⟩]) : At entry size s i
  | ended {name : String} (hs : s.threads = [⟨name, .terminated, [], none⟩]) : At entry size s size

structure Program.Straight (p : Program) (entry : MethodId) (size : Nat) : Prop where
  threads : ∃ name, p.threads = [⟨name, entry⟩]
  method : ∃ m, p.methods[entry]? = some m ∧ m.body.length = size ∧ m.filtered = false ∧
    ∀ stmt ∈ m.body, stmt.value.isStraight = true

section Statements

variable {p : Program} {layout : Layout} {s s' : State} {name : String} {f : StackFrame}
  {data : Option Int64}

theorem State.Stores.single {v : Value} (h : s.Stores 0 v s')
    (hs : s.threads = [⟨name, .runnable, [f], none⟩]) :
    ∃ locals, s'.threads = [⟨name, .runnable, [{ f with locals }], none⟩] := by
  cases h with
  | locals g => exact ⟨g f, by simp [modifyTop, modifyThread, hs]⟩
  | static | object => exact ⟨f.locals, hs⟩

theorem Program.Acts.straight {stmt : Stmt} {o : Outcome} (h : p.Acts layout s 0 f data stmt o)
    (hstmt : stmt.isStraight = true) (hs : s.threads = [⟨name, .runnable, [f], none⟩])
    (ho : o = .next s') :
    ∃ locals, s'.threads = [⟨name, .runnable, [⟨f.method, f.pc + 1, locals⟩], none⟩] := by
  have hgoOn : ∀ {s₁ : State},
      (∃ locals, s₁.threads = [⟨name, .runnable, [{ f with locals }], none⟩]) →
      ∃ locals, (s₁.modifyTop 0 fun k => { k with pc := f.pc + 1 }).threads =
        [⟨name, .runnable, [⟨f.method, f.pc + 1, locals⟩], none⟩] := by
    rintro s₁ ⟨locals, hs₁⟩
    exact ⟨locals, by simp [State.modifyTop, State.modifyThread, hs₁]⟩
  cases h with
  | fails | raises => cases ho
  | writes hspawns _ _ hstores =>
    cases ho
    exact hgoOn (hstores.single (hspawns.threads.trans hs))
  | locks _ m l =>
    cases ho
    exact hgoOn ⟨f.locals, (setMonitor_threads s m l).trans hs⟩
  | passes =>
    cases ho
    exact hgoOn ⟨f.locals, hs⟩
  | jumps hjump => cases hjump.symm.trans hstmt

end Statements

section Places

variable {p : Program} {entry : MethodId} {size i j : Nat} {s s' : State}

theorem State.At.isEnd_iff (h : s.At entry size i) : s.isEnd = true ↔ i = size := by
  rw [State.isEnd_iff]
  cases h with
  | inside hi hs => simp [hs, hi.ne]
  | ended hs => simp [hs]

theorem State.At.le (h : s.At entry size i) : i ≤ size := by
  cases h with
  | inside hi => exact hi.le
  | ended => exact le_rfl

/-- Calls that are done are left, and a thread that alone is alive and not stuck can run. -/
theorem State.at_of_unwind {name : String} {locals : List Value}
    (hs : s.threads = [⟨name, .runnable, [⟨entry, i, locals⟩], none⟩])
    (hsize : p.bodyLength entry = size) (hi : i ≤ size)
    (hlive : ¬ (p.updateStatuses (s.modifyThread 0 p.unwind)).Deadlocked) :
    (p.updateStatuses (s.modifyThread 0 p.unwind)).At entry size i := by
  rcases hi.lt_or_eq with hi | rfl
  · have hthreads : (p.updateStatuses (s.modifyThread 0 p.unwind)).threads =
        [⟨name, p.statusOf (s.modifyThread 0 p.unwind) 0 ⟨name, .runnable, [⟨entry, i, locals⟩], none⟩,
          [⟨entry, i, locals⟩], none⟩] := by
      simp [Program.updateStatuses, State.modifyThread, hs, Program.unwind, hsize, hi]
    have halive := statusOf_alive (p := p) (s := s.modifyThread 0 p.unwind) 0
      ⟨name, .runnable, [⟨entry, i, locals⟩], none⟩
    cases hstatus : p.statusOf (s.modifyThread 0 p.unwind) 0
        ⟨name, .runnable, [⟨entry, i, locals⟩], none⟩ with
    | runnable => exact .inside hi (hthreads.trans (by rw [hstatus]))
    | terminated =>
      rw [hstatus] at halive
      cases halive
    | blocked l =>
      rw [hstatus] at hthreads
      exact absurd (by simp [State.Deadlocked, hthreads]) hlive
  · have hended : (p.updateStatuses (s.modifyThread 0 p.unwind)).threads =
        [⟨name, .terminated, [], none⟩] := by
      simp [Program.updateStatuses, State.modifyThread, hs, Program.unwind, hsize, Program.statusOf,
        Thread.isAlive]
    exact .ended hended

variable (hp : p.Straight entry size)

include hp

theorem Program.Straight.bodyLength : p.bodyLength entry = size := by
  obtain ⟨m, hm, hlength, _⟩ := hp.method
  simp [Program.bodyLength, hm, hlength]

theorem Program.Straight.isStraight {stmt : Located Stmt}
    (h : p.statement? entry i = some stmt) : stmt.value.isStraight = true := by
  obtain ⟨m, hm, _, _, hstraight⟩ := hp.method
  rw [Program.statement?, hm, Option.bind_some] at h
  exact hstraight stmt (List.mem_of_getElem? h)

theorem Program.Straight.initial (h : p.initialState = .ok s) (hlive : ¬ s.Deadlocked) :
    s.At entry size 0 := by
  obtain ⟨name, hthreads⟩ := hp.threads
  obtain ⟨threads, hinitial, h⟩ := bind_eq_ok.1 h
  rw [hthreads] at hinitial
  obtain ⟨frame, hframe, hinitial⟩ := bind_eq_ok.1 hinitial
  cases hinitial
  cases h
  unfold Program.newFrame at hframe
  split at hframe <;> cases hframe
  exact State.at_of_unwind (s := ⟨[_], p.initialStatics, .empty⟩) rfl hp.bodyLength
    (Nat.zero_le size) hlive

/-- A step that neither faults nor gets the thread stuck leads to the next place. -/
theorem State.At.execute {layout : Layout} {t : ThreadId} {data : Option Int64}
    (hs : s.At entry size i) (h : p.execute layout s t data = .ok (s', none))
    (hlive : ¬ s'.Deadlocked) : s'.At entry size (i + 1) := by
  obtain ⟨f, stmt, s₁, hf, hstmt, ⟨heffect, _, rfl⟩ | ⟨_, _, _, _, hfault, _⟩⟩ := execute_effect h
  · cases hs with
    | ended hs =>
      rw [topFrame?, hs] at hf
      cases t <;> cases hf
    | inside hi hs =>
      rw [topFrame?, hs] at hf
      cases t with
      | succ t => cases hf
      | zero =>
        cases hf
        obtain ⟨locals, hs₁⟩ := (effect_acts stmt.value).straight (hp.isStraight hstmt)
          ((markInitialized_threads s _).trans hs) heffect
        exact State.at_of_unwind hs₁ hp.bodyLength hi hlive
  · cases hfault

end Places

section Words

variable {entry : MethodId} {size i j : Nat} {s s' : State} {masks : Masks} {f : Fingerprint}
  (hkept : masks.filteredMethods[entry]? = some false)

include hkept

theorem State.At.words (hs : s.At entry size i) (hf : s.fingerprint ⟨.full, true⟩ masks = .ok f) :
    ∃ rest, f.words = 1 :: (if i < size then [1, 0, 1, entry, i] else [3]) ++ rest := by
  obtain ⟨⟨words, met⟩, hwords, hf⟩ := bind_eq_ok.1 hf
  cases hf
  obtain ⟨objects, rfl, -⟩ := Walk.stateWords_script (K := fun _ => True) rfl
    (fun _ _ => trivial) (fun _ _ _ _ _ _ => trivial) hwords
  cases hs with
  | inside hi hs =>
    simp [State.opening, hs, hi, Thread.items, ThreadStatus.items, ThreadStatus.code,
      StackFrame.items, Masks.keeps, hkept, Item.code]
  | ended hs => simp [State.opening, hs, Thread.items, ThreadStatus.items, ThreadStatus.code, Item.code]

/-- The place can be read from the fingerprint. -/
theorem State.At.eq_of_fingerprint (hs : s.At entry size i) (hs' : s'.At entry size j)
    (hf : s.fingerprint ⟨.full, true⟩ masks = .ok f)
    (hf' : s'.fingerprint ⟨.full, true⟩ masks = .ok f) : i = j := by
  obtain ⟨rest, hwords⟩ := hs.words hkept hf
  obtain ⟨rest', hwords'⟩ := hs'.words hkept hf'
  rw [hwords] at hwords'
  have hi := hs.le
  have hj := hs'.le
  split at hwords' <;> split at hwords'
  · obtain ⟨hij, -⟩ : i = j ∧ rest = rest' := by simpa using hwords'
    exact hij
  · simp at hwords'
  · simp at hwords'
  · omega

end Words

end Interleave
