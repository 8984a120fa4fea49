import Interleave.Explore.Explorer
import Interleave.Proofs.Machine.Preservation

set_option autoImplicit false

namespace Interleave

namespace Interval

structure Spans (g : Interval) (min max : Int64) : Prop where
  low : g.min = min
  length : g.length = (max.toInt + 1 - min.toInt).toNat
  shuffles : ∀ s ∈ g.shuffles, s.first < g.length
  cursor : ∀ i, g.progress.cursor = some i → i < g.length

def valueAt (g : Interval) (i : Nat) : Int64 := Int64.ofInt (g.min.toInt + g.offsetAt i)

def Upcoming (g : Interval) (v : Int64) : Prop :=
  g.progress.closed = false ∧ ∃ i, g.progress.next ≤ i ∧ i < g.length ∧ g.valueAt i = v

variable {g g' : Interval} {min max v : Int64}

theorem permute_lt {length position : Nat} {s : Shuffle} (hs : s.first < length)
    (hlt : position < length) : permute length s position < length := by
  unfold permute
  split
  · have hmod := Nat.mod_lt ((position - s.first) * s.stride + s.start) (Nat.sub_pos_of_lt hs)
    omega
  · exact hlt

theorem Spans.offsetAt_lt (h : g.Spans min max) {i : Nat} (hi : i < g.length) :
    g.offsetAt i < g.length := by
  have hall : ∀ l : List Shuffle, (∀ s ∈ l, s.first < g.length) →
      l.foldr (permute g.length) i < g.length := by
    intro l hl
    induction l with
    | nil => exact hi
    | cons s rest ih =>
      have hrest := ih fun s hs => hl s (List.mem_cons_of_mem _ hs)
      exact permute_lt (hl s List.mem_cons_self) hrest
  exact hall g.shuffles h.shuffles

theorem Spans.current?_mem (h : g.Spans min max) (hv : g.current? = some v) :
    min ≤ v ∧ v ≤ max := by
  obtain ⟨i, hi, rfl⟩ := Option.map_eq_some_iff.1 hv
  have hoffset := h.offsetAt_lt (h.cursor i hi)
  rw [h.length] at hoffset
  have hlow := Int64.le_toInt min
  have hhigh := Int64.toInt_lt max
  have hvalue : (Int64.ofInt (g.min.toInt + g.offsetAt i)).toInt = min.toInt + g.offsetAt i := by
    rw [h.low]
    exact Int64.toInt_ofInt_of_le (by omega) (by omega)
  rw [Int64.le_iff_toInt_le, Int64.le_iff_toInt_le, hvalue]
  omega

theorem spans_between (id : String) (min max : Int64) : (between id min max).Spans min max :=
  ⟨rfl, rfl, by simp [between], by simp [between, Progress.start]⟩

theorem Spans.setCascaded (h : g.Spans min max) (cascaded : Bool) :
    (g.setCascaded cascaded).Spans min max :=
  ⟨h.low, h.length, h.shuffles, h.cursor⟩

theorem Spans.randomize (h : g.Spans min max) (s : Random.Source) :
    (g.randomize s).1.Spans min max := by
  unfold Interval.randomize
  dsimp only
  split
  · exact h
  · next hmodulus =>
    refine ⟨h.low, h.length, ?_, h.cursor⟩
    intro sh hsh
    rcases List.mem_append.1 hsh with hold | hnew
    · exact h.shuffles sh hold
    · rw [List.mem_singleton.1 hnew]
      dsimp only
      omega

theorem advance?_eq_some :
    g.advance? = some g' ↔ g.progress.closed = false ∧ g.progress.next < g.length ∧
      g' = { g with progress := g.progress.advance } := by
  simp only [advance?, hasMore, Progress.hasMore, Option.ite_none_right_eq_some, Bool.and_eq_true,
    Bool.not_eq_true', decide_eq_true_iff, Option.some.injEq, and_assoc, eq_comm (b := g')]

theorem Spans.advance? (h : g.Spans min max) (hg : g.advance? = some g') : g'.Spans min max := by
  obtain ⟨_, hlt, rfl⟩ := advance?_eq_some.1 hg
  refine ⟨h.low, h.length, h.shuffles, ?_⟩
  intro i hi
  cases hi
  exact hlt

theorem isSome_current? (hg : g.advance? = some g') : ∃ v, g'.current? = some v := by
  obtain ⟨_, _, rfl⟩ := advance?_eq_some.1 hg
  exact ⟨_, rfl⟩

theorem Upcoming.advance? (h : g.Upcoming v) (hg : g.advance? = some g') :
    g'.current? = some v ∨ g'.Upcoming v := by
  obtain ⟨hclosed, _, rfl⟩ := advance?_eq_some.1 hg
  obtain ⟨_, i, hnext, hlt, hv⟩ := h
  rcases Nat.eq_or_lt_of_le hnext with rfl | hlater
  · exact .inl (congrArg some hv)
  · exact .inr ⟨hclosed, i, hlater, hlt, hv⟩

theorem Upcoming.ne_none (h : g.Upcoming v) : g.advance? ≠ none := by
  obtain ⟨hclosed, i, hnext, hlt, _⟩ := h
  have hmore := advance?_eq_some.2 ⟨hclosed, Nat.lt_of_le_of_lt hnext hlt, rfl⟩
  simp [hmore]

theorem upcoming_between (id : String) (hmin : min ≤ v) (hmax : v ≤ max) :
    ((between id min max).setCascaded true).Upcoming v := by
  rw [Int64.le_iff_toInt_le] at hmin hmax
  refine ⟨rfl, (v.toInt - min.toInt).toNat, Nat.zero_le _, ?_, ?_⟩
  · change _ < (max.toInt + 1 - min.toInt).toNat
    omega
  · have hoffset : min.toInt + (v.toInt - min.toInt).toNat = v.toInt := by omega
    change Int64.ofInt (min.toInt + (v.toInt - min.toInt).toNat) = v
    rw [hoffset, Int64.ofInt_toInt]

end Interval

theorem Explorer.openChoice_spans {random random' : Option Random.Source} {id : String}
    {min max : Int64} {g : Interval} (h : openChoice random id min max = (some g, random')) :
    g.Spans min max ∧ (∃ v, g.current? = some v) ∧
      (random = none → random' = none ∧
        ∀ v, min ≤ v → v ≤ max → g.current? = some v ∨ g.Upcoming v) := by
  have hspans := (Interval.spans_between id min max).setCascaded true
  cases random with
  | none =>
    obtain ⟨hg, rfl⟩ := Prod.mk.inj h
    refine ⟨hspans.advance? hg, Interval.isSome_current? hg, fun _ => ⟨rfl, ?_⟩⟩
    intro v hmin hmax
    exact (Interval.upcoming_between id hmin hmax).advance? hg
  | some source =>
    obtain ⟨hg, rfl⟩ := Prod.mk.inj h
    refine ⟨(hspans.randomize source).advance? hg, Interval.isSome_current? hg, ?_⟩
    exact fun hnone => absurd hnone (by simp)

namespace Listed

def Upcoming {α : Type} (g : Listed α) (a : α) : Prop :=
  g.progress.closed = false ∧ a ∈ g.items.drop g.progress.next

variable {α : Type} {g g' : Listed α} {a : α} {s : Random.Source}

theorem upcoming_ofList {id : String} {items : List α} : (ofList id items).Upcoming a ↔ a ∈ items :=
  ⟨fun h => h.2, fun h => ⟨rfl, h⟩⟩

theorem advance?_eq_some :
    g.advance? = some g' ↔ g.progress.closed = false ∧ g.progress.next < g.items.length ∧
      g' = { g with progress := g.progress.advance } := by
  simp only [advance?, hasMore, Progress.hasMore, Option.ite_none_right_eq_some, Bool.and_eq_true,
    Bool.not_eq_true', decide_eq_true_iff, Option.some.injEq, and_assoc, eq_comm (b := g')]
  exact Iff.rfl

theorem Upcoming.advance? (h : g.Upcoming a) (hg : g.advance? = some g') :
    g'.current? = some a ∨ g'.Upcoming a := by
  obtain ⟨hclosed, hlt, rfl⟩ := advance?_eq_some.1 hg
  obtain ⟨_, hmem⟩ := h
  rw [List.drop_eq_getElem_cons hlt] at hmem
  rcases List.mem_cons.1 hmem with rfl | hmem
  · exact .inl (List.getElem?_eq_getElem hlt)
  · exact .inr ⟨hclosed, hmem⟩

theorem Upcoming.ne_none (h : g.Upcoming a) : g.advance? ≠ none := by
  obtain ⟨hclosed, hmem⟩ := h
  have hlt : g.progress.next < g.items.length := by
    have hpos := List.length_pos_of_mem hmem
    rw [List.length_drop] at hpos
    omega
  have hmore := advance?_eq_some.2 ⟨hclosed, hlt, rfl⟩
  simp [hmore]

theorem current?_mem (h : g.current? = some a) : a ∈ g.items := by
  obtain ⟨i, _, hi⟩ := Option.bind_eq_some_iff.1 h
  exact List.mem_of_getElem? hi

theorem swapIfInBounds_perm (xs : Array α) (i j : Nat) : (xs.swapIfInBounds i j).Perm xs := by
  rw [Array.swapIfInBounds_def]
  split
  · split
    · exact Array.swap_perm _ _
    · exact .refl xs
  · exact .refl xs

theorem shuffle_perm (items : List α) (s : Random.Source) :
    (Random.Source.shuffle items s).1.Perm items := by
  unfold Random.Source.shuffle
  dsimp only
  generalize List.range (items.length - 1) = l
  induction l with
  | nil => exact .refl items
  | cons i rest ih => exact (swapIfInBounds_perm _ _ _).toList.trans ih

theorem mem_randomize : a ∈ (g.randomize s).1.items ↔ a ∈ g.items := by
  have hperm := shuffle_perm (g.items.drop g.progress.next) s
  have hall : ((g.randomize s).1.items).Perm g.items := by
    calc (g.randomize s).1.items
      _ = g.items.take g.progress.next ++
          (Random.Source.shuffle (g.items.drop g.progress.next) s).1 := rfl
      _ |>.Perm (g.items.take g.progress.next ++ g.items.drop g.progress.next) :=
          hperm.append_left _
      _ = g.items := List.take_append_drop _ _
  exact hall.mem_iff

theorem current?_randomize (h : g.current? = some a) : (g.randomize s).1.current? = some a := by
  obtain ⟨i, hi, hitem⟩ := Option.bind_eq_some_iff.1 h
  have hlt := (List.getElem?_eq_some_iff.1 hitem).1
  have hnext : g.progress.next = i + 1 := by
    unfold Progress.next
    rw [hi]
    rfl
  refine Option.bind_eq_some_iff.2 ⟨i, hi, ?_⟩
  change (g.items.take g.progress.next ++ _)[i]? = some a
  rw [List.getElem?_append_left (by rw [List.length_take]; omega),
    List.getElem?_take_of_lt (by omega)]
  exact hitem

end Listed

def ChoicePoint.threads (schedule : ChoicePoint) : List ThreadId := schedule.candidates?.getD []

def ChoicePoint.Upcoming (schedule : ChoicePoint) (t : ThreadId) : Prop :=
  ∃ g, schedule = .thread g ∧ g.Upcoming t

section Schedules

variable {schedule schedule' : ChoicePoint} {t : ThreadId} {s : Random.Source}

theorem ChoicePoint.mem_threads_of_current? (h : schedule.current? = some (.thread t)) :
    t ∈ schedule.threads := by
  cases schedule with
  | thread g =>
    obtain ⟨u, hu, heq⟩ := Option.map_eq_some_iff.1 h
    cases heq
    exact Listed.current?_mem hu
  | int g =>
    obtain ⟨v, _, heq⟩ := Option.map_eq_some_iff.1 h
    cases heq

theorem ChoicePoint.threads_advance? (h : schedule.advance? = some schedule') :
    schedule'.threads = schedule.threads := by
  cases schedule with
  | thread g =>
    obtain ⟨g', hg, rfl⟩ := Option.map_eq_some_iff.1 h
    obtain ⟨_, _, rfl⟩ := Listed.advance?_eq_some.1 hg
    rfl
  | int g =>
    obtain ⟨g', hg, rfl⟩ := Option.map_eq_some_iff.1 h
    rfl

theorem ChoicePoint.Upcoming.advance? (h : schedule.Upcoming t)
    (hadvance : schedule.advance? = some schedule') :
    schedule'.current? = some (.thread t) ∨ schedule'.Upcoming t := by
  obtain ⟨g, rfl, hg⟩ := h
  obtain ⟨g', hg', rfl⟩ := Option.map_eq_some_iff.1 hadvance
  rcases hg.advance? hg' with hcurrent | hlater
  · exact .inl (congrArg (Option.map Choice.thread) hcurrent)
  · exact .inr ⟨g', rfl, hlater⟩

theorem ChoicePoint.Upcoming.ne_none (h : schedule.Upcoming t) : schedule.advance? ≠ none := by
  obtain ⟨g, rfl, hg⟩ := h
  intro hnone
  exact hg.ne_none (Option.map_eq_none_iff.1 hnone)

theorem ChoicePoint.current?_randomize (h : schedule.current? = some (.thread t)) :
    (schedule.randomize s).1.current? = some (.thread t) := by
  cases schedule with
  | thread g =>
    obtain ⟨u, hu, heq⟩ := Option.map_eq_some_iff.1 h
    rw [← heq]
    exact congrArg (Option.map Choice.thread) (Listed.current?_randomize hu)
  | int g =>
    obtain ⟨v, _, heq⟩ := Option.map_eq_some_iff.1 h
    cases heq

theorem ChoicePoint.mem_threads_randomize :
    t ∈ (schedule.randomize s).1.threads ↔ t ∈ schedule.threads := by
  cases schedule with
  | thread g => exact Listed.mem_randomize
  | int g => exact Iff.rfl

end Schedules

structure Agenda.Fits (p : Program) (s : State) (a : Agenda) : Prop where
  threads : ∀ t ∈ a.schedule.threads, t ∈ s.runnable
  data : ∀ g, a.data = some g → ∃ t f stmt min max, a.schedule.current? = some (.thread t) ∧
    s.topFrame? t = some f ∧ p.statement? f.method f.pc = some stmt ∧
    stmt.value.choice? = some (min, max) ∧ g.Spans min max

def Agenda.Pending (a : Agenda) (t : ThreadId) (data : Option Int64) : Prop :=
  (∃ g v, a.data = some g ∧ data = some v ∧ g.Upcoming v ∧
    a.schedule.current? = some (.thread t)) ∨ a.schedule.Upcoming t

/-- How a move is taken from an agenda: the next integer for the same thread, or the next thread,
which starts with the first integer when its statement chooses one. -/
inductive Agenda.Takes (p : Program) (s : State) :
    Agenda → Option Random.Source → Move → Agenda → Option Random.Source → Prop where
  | integer {a : Agenda} {random : Option Random.Source} {t : ThreadId} {f : StackFrame}
      {g g' : Interval} (hdata : a.data = some g) (hadvance : g.advance? = some g')
      (hthread : a.schedule.current? = some (.thread t)) (hframe : s.topFrame? t = some f) :
      Takes p s a random ⟨t, f, g'.current?⟩ { a with data := some g' } random
  | thread {a : Agenda} {random : Option Random.Source} {t : ThreadId} {f : StackFrame}
      {schedule : ChoicePoint} (hdone : a.data.bind Interval.advance? = none)
      (hadvance : a.schedule.advance? = some schedule)
      (hthread : schedule.current? = some (.thread t)) (hframe : s.topFrame? t = some f)
      (hplain : (p.statement? f.method f.pc).bind (·.value.choice?) = none) :
      Takes p s a random ⟨t, f, none⟩ ⟨schedule, none⟩ random
  | choice {a : Agenda} {random random' : Option Random.Source} {t : ThreadId} {f : StackFrame}
      {schedule : ChoicePoint} {min max : Int64} {g : Interval}
      (hdone : a.data.bind Interval.advance? = none)
      (hadvance : a.schedule.advance? = some schedule)
      (hthread : schedule.current? = some (.thread t)) (hframe : s.topFrame? t = some f)
      (hchoice : (p.statement? f.method f.pc).bind (·.value.choice?) = some (min, max))
      (hopen : Explorer.openChoice random f.choiceId min max = (some g, random')) :
      Takes p s a random ⟨t, f, g.current?⟩ ⟨schedule, some g⟩ random'

section Agendas

variable {p : Program} {s : State} {a a' : Agenda} {random random' : Option Random.Source}
  {move : Move}

theorem Agenda.ofState_fits (h : Agenda.ofState s = some a) : a.Fits p s := by
  unfold Agenda.ofState at h
  split at h
  · cases h
  · cases h
    exact ⟨fun t ht => ht, fun g hg => by cases hg⟩

theorem Agenda.data_ofState (h : Agenda.ofState s = some a) : a.data = none := by
  unfold Agenda.ofState at h
  split at h
  · cases h
  · rw [← Option.some.inj h]

theorem Agenda.fits_of_threads {schedule : ChoicePoint}
    (h : ∀ t ∈ schedule.threads, t ∈ s.runnable) : Agenda.Fits p s ⟨schedule, none⟩ :=
  ⟨h, fun g hg => by cases hg⟩

section

variable (h : Agenda.Takes p s a random move a' random')

include h

theorem Agenda.Takes.fits (ha : a.Fits p s) : a'.Fits p s := by
  cases h with
  | @integer t f g g' hdata hadvance hthread hframe =>
    refine ⟨ha.threads, ?_⟩
    intro _ heq
    cases heq
    obtain ⟨u, k, stmt, min, max, hu, hk, hstmt, hchoice, hspans⟩ := ha.data g hdata
    exact ⟨u, k, stmt, min, max, hu, hk, hstmt, hchoice, hspans.advance? hadvance⟩
  | thread _ hadvance =>
    refine Agenda.fits_of_threads ?_
    rw [ChoicePoint.threads_advance? hadvance]
    exact ha.threads
  | @choice _ t f schedule min max g hdone hadvance hthread hframe hchoice hopen =>
    obtain ⟨stmt, hstmt, hrange⟩ := Option.bind_eq_some_iff.1 hchoice
    refine ⟨?_, ?_⟩
    · rw [ChoicePoint.threads_advance? hadvance]
      exact ha.threads
    · intro _ heq
      cases heq
      exact ⟨t, f, stmt, min, max, hthread, hframe, hstmt, hrange,
        (Explorer.openChoice_spans hopen).1⟩

theorem Agenda.Takes.frame : s.topFrame? move.thread = some move.frame := by
  cases h with
  | integer _ _ _ hframe => exact hframe
  | thread _ _ _ hframe => exact hframe
  | choice _ _ _ hframe => exact hframe

theorem Agenda.Takes.threads : a'.schedule.threads = a.schedule.threads := by
  cases h with
  | integer => rfl
  | thread _ hadvance | choice _ hadvance => exact ChoicePoint.threads_advance? hadvance

theorem Agenda.Takes.mem_threads : move.thread ∈ a.schedule.threads := by
  have hcurrent : a'.schedule.current? = some (.thread move.thread) := by
    cases h with
    | integer _ _ hthread => exact hthread
    | thread _ _ hthread => exact hthread
    | choice _ _ hthread => exact hthread
  exact h.threads ▸ ChoicePoint.mem_threads_of_current? hcurrent

theorem Agenda.Takes.runnable (ha : a.Fits p s) :
    move.thread ∈ s.runnable := ha.threads _ h.mem_threads

theorem Agenda.Takes.offers (ha : a.Fits p s) {stmt : Located Stmt}
    (hstmt : p.statement? move.frame.method move.frame.pc = some stmt) :
    stmt.value.Offers move.data := by
  have hin : ∀ {g : Interval} {min max : Int64}, stmt.value.choice? = some (min, max) →
      g.Spans min max → (∃ v, g.current? = some v) → stmt.value.Offers g.current? := by
    rintro g min max hchoice hspans ⟨v, hv⟩
    unfold Stmt.Offers
    rw [hchoice]
    exact ⟨v, hv, hspans.current?_mem hv⟩
  cases h with
  | @integer t f g g' hdata hadvance hthread hframe =>
    obtain ⟨u, k, stmt', min, max, hu, hk, hstmt', hchoice, hspans⟩ := ha.data g hdata
    obtain rfl : t = u := by
      have heq := Option.some.inj (hthread.symm.trans hu)
      cases heq
      rfl
    cases hframe.symm.trans hk
    cases hstmt.symm.trans hstmt'
    exact hin hchoice (hspans.advance? hadvance) (Interval.isSome_current? hadvance)
  | thread _ _ _ _ hplain =>
    rw [hstmt, Option.bind_some] at hplain
    unfold Stmt.Offers
    rw [hplain]
  | choice _ _ _ _ hchoice hopen =>
    rw [hstmt, Option.bind_some] at hchoice
    obtain ⟨hspans, hcurrent, _⟩ := Explorer.openChoice_spans hopen
    exact hin hchoice hspans hcurrent

end

theorem Agenda.Takes.unshuffled (h : Agenda.Takes p s a none move a' random') : random' = none := by
  cases h with
  | integer | thread => rfl
  | choice _ _ _ _ _ hopen => exact ((Explorer.openChoice_spans hopen).2.2 rfl).1

theorem Agenda.Takes.pending (h : Agenda.Takes p s a none move a' random') {t : ThreadId}
    {data : Option Int64} (hoffers : p.Offers s t data) (hpending : a.Pending t data) :
    (t = move.thread ∧ data = move.data) ∨ a'.Pending t data := by
  have hnew : ∀ {schedule : ChoicePoint}, a.data.bind Interval.advance? = none →
      a.schedule.advance? = some schedule →
      schedule.current? = some (.thread t) ∨ schedule.Upcoming t := by
    intro schedule hdone hadvance
    rcases hpending with ⟨g, v, hg, _, hupcoming, _⟩ | hupcoming
    · rw [hg, Option.bind_some] at hdone
      exact absurd hdone hupcoming.ne_none
    · exact hupcoming.advance? hadvance
  have hsame : ∀ {u : ThreadId} {schedule : ChoicePoint}, schedule.current? = some (.thread t) →
      schedule.current? = some (.thread u) → t = u := by
    intro u schedule ht hu
    have heq := Option.some.inj (ht.symm.trans hu)
    cases heq
    rfl
  obtain ⟨f', stmt, hf', hstmt, hoffer⟩ := hoffers
  cases h with
  | @integer u f g g' hdata hadvance hthread hframe =>
    rcases hpending with ⟨g₁, v, hg, rfl, hupcoming, hcurrent⟩ | hupcoming
    · cases hdata.symm.trans hg
      obtain rfl := hsame hcurrent hthread
      rcases hupcoming.advance? hadvance with hnow | hlater
      · exact .inl ⟨rfl, hnow.symm⟩
      · exact .inr (.inl ⟨g', v, rfl, rfl, hlater, hthread⟩)
    · exact .inr (.inr hupcoming)
  | @thread u f schedule hdone hadvance hthread hframe hplain =>
    rcases hnew hdone hadvance with hcurrent | hlater
    · obtain rfl := hsame hcurrent hthread
      cases hf'.symm.trans hframe
      rw [hstmt, Option.bind_some] at hplain
      unfold Stmt.Offers at hoffer
      rw [hplain] at hoffer
      exact .inl ⟨rfl, hoffer⟩
    · exact .inr (.inr hlater)
  | @choice _ u f schedule min max g hdone hadvance hthread hframe hchoice hopen =>
    obtain ⟨_, _, hall⟩ := Explorer.openChoice_spans hopen
    obtain ⟨_, hall⟩ := hall rfl
    rcases hnew hdone hadvance with hcurrent | hlater
    · obtain rfl := hsame hcurrent hthread
      cases hf'.symm.trans hframe
      rw [hstmt, Option.bind_some] at hchoice
      unfold Stmt.Offers at hoffer
      rw [hchoice] at hoffer
      obtain ⟨v, rfl, hmin, hmax⟩ := hoffer
      rcases hall v hmin hmax with hnow | hlater
      · exact .inl ⟨rfl, hnow.symm⟩
      · exact .inr (.inl ⟨g, v, rfl, rfl, hlater, hthread⟩)
    · exact .inr (.inr hlater)

end Agendas

end Interleave
