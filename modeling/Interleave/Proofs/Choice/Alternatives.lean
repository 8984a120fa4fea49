import Mathlib.Data.List.Perm.Subperm
import Interleave.Proofs.Choice.Arithmetic
import Interleave.Proofs.Explore.Enumeration

set_option autoImplicit false

namespace Interleave

structure Generator (γ α : Type) where
  hasMore : γ → Bool
  advance? : γ → Option γ
  current? : γ → Option α
  randomize : γ → Random.Source → γ × Random.Source
  reset : γ → γ
  processed : γ → Nat

def Listed.generator (α : Type) : Generator (Listed α) α where
  hasMore := Listed.hasMore
  advance? := Listed.advance?
  current? := Listed.current?
  randomize := Listed.randomize
  reset := Listed.reset
  processed g := g.progress.processed

def Interval.generator : Generator Interval Int64 where
  hasMore := Interval.hasMore
  advance? := Interval.advance?
  current? := Interval.current?
  randomize := Interval.randomize
  reset := Interval.reset
  processed g := g.progress.processed

namespace Generator

variable {γ α : Type}

/-- What becomes of a generator: after any operations, the number of advances since the last reset and
the alternatives that they led to. Each shuffle draws from whatever source it is given. -/
inductive Used (G : Generator γ α) (first : γ) : γ → Nat → List α → Prop where
  | created : Used G first first 0 []
  | advanced {g g' : γ} {n : Nat} {taken : List α} (h : Used G first g n taken)
      (hg : G.advance? g = some g') :
      Used G first g' (n + 1) (taken ++ (G.current? g').toList)
  | randomized {g : γ} {n : Nat} {taken : List α} (h : Used G first g n taken)
      (source : Random.Source) : Used G first (G.randomize g source).1 n taken
  | reset {g : γ} {n : Nat} {taken : List α} (h : Used G first g n taken) :
      Used G first (G.reset g) 0 []

inductive Drains (G : Generator γ α) : γ → List α → Prop where
  | exhausted {g : γ} (hmore : G.hasMore g = false) : Drains G g []
  | next {g g' : γ} {a : α} {rest : List α} (hmore : G.hasMore g = true)
      (hg : G.advance? g = some g') (ha : G.current? g' = some a) (h : Drains G g' rest) :
      Drains G g (a :: rest)

structure Enumerates (G : Generator γ α) (all : List α) (g : γ) (n : Nat) (taken : List α) :
    Prop where
  processed : G.processed g = n
  produced : taken.length = n
  advances : (G.advance? g).isSome = G.hasMore g
  complete : G.hasMore g = false → taken.Perm all
  current : G.current? g = taken.getLast?
  /-- A shuffle leaves the current alternative, and those before it are the first ones of the next
  round. -/
  kept : ∀ source, G.current? (G.randomize g source).1 = G.current? g ∧
    ∃ rest, G.Drains (G.reset (G.randomize g source).1) (taken ++ rest)
  /-- The next round repeats what has come and what would have come. -/
  replays : ∃ rest, G.Drains g rest ∧ (taken ++ rest).Perm all ∧
    G.Drains (G.reset g) (taken ++ rest)

structure Lawful (G : Generator γ α) (At : γ → List α → Nat → Prop) : Prop where
  le_length : ∀ {g order n}, At g order n → n ≤ order.length
  hasMore : ∀ {g order n}, At g order n → G.hasMore g = decide (n < order.length)
  processed : ∀ {g order n}, At g order n → G.processed g = n
  current : ∀ {g order n}, At g order n → G.current? g = (order.take n).getLast?
  advance? : ∀ {g order n}, At g order n →
    if n < order.length then ∃ g', G.advance? g = some g' ∧ At g' order (n + 1)
    else G.advance? g = none
  randomize : ∀ {g order n}, At g order n → ∀ source, ∃ order', order'.Perm order ∧
    order'.take n = order.take n ∧ At (G.randomize g source).1 order' n
  reset : ∀ {g order n}, At g order n → At (G.reset g) order 0

section Lawful

variable {G : Generator γ α} {At : γ → List α → Nat → Prop} {first g : γ} {all order taken : List α}
  {n : Nat}

theorem getLast?_take_succ {l : List α} {i : Nat} (h : i < l.length) :
    (l.take (i + 1)).getLast? = l[i]? := by
  rw [List.take_add_one, List.getElem?_eq_getElem h, Option.toList_some, List.getLast?_concat]

theorem Lawful.used (hG : G.Lawful At) (hfirst : At first all 0) (h : G.Used first g n taken) :
    ∃ order, At g order n ∧ order.Perm all ∧ taken = order.take n := by
  induction h with
  | created => exact ⟨all, hfirst, .refl all, rfl⟩
  | @advanced g g' n taken _ hg ih =>
    obtain ⟨order, hat, hperm, rfl⟩ := ih
    have hnext := hG.advance? hat
    split at hnext
    · next hlt =>
      obtain ⟨g'', hg', hat'⟩ := hnext
      cases hg.symm.trans hg'
      refine ⟨order, hat', hperm, ?_⟩
      rw [hG.current hat', getLast?_take_succ hlt, List.take_add_one]
    · cases hnext.symm.trans hg
  | randomized _ source ih =>
    obtain ⟨order, hat, hperm, rfl⟩ := ih
    obtain ⟨order', hperm', hsame, hat'⟩ := hG.randomize hat source
    exact ⟨order', hat', hperm'.trans hperm, hsame.symm⟩
  | reset _ ih =>
    obtain ⟨order, hat, hperm, _⟩ := ih
    exact ⟨order, hG.reset hat, hperm, rfl⟩

theorem Lawful.drains (hG : G.Lawful At) (hat : At g order n) : G.Drains g (order.drop n) := by
  induction hleft : order.length - n generalizing g n with
  | zero =>
    rw [List.drop_eq_nil_of_le (by omega)]
    apply Drains.exhausted
    rw [hG.hasMore hat]
    exact decide_eq_false (by omega)
  | succ left ih =>
    have hlt : n < order.length := by omega
    have hnext := hG.advance? hat
    rw [if_pos hlt] at hnext
    obtain ⟨g', hg, hat'⟩ := hnext
    rw [List.drop_eq_getElem_cons hlt]
    refine .next ?_ hg ?_ (ih hat' (by omega))
    · rw [hG.hasMore hat]
      exact decide_eq_true hlt
    · rw [hG.current hat', getLast?_take_succ hlt, List.getElem?_eq_getElem hlt]

theorem Lawful.replays (hG : G.Lawful At) (hat : At g order n) : G.Drains (G.reset g) order :=
  hG.drains (hG.reset hat)

theorem Lawful.enumerates (hG : G.Lawful At) (hfirst : At first all 0)
    (h : G.Used first g n taken) : G.Enumerates all g n taken := by
  obtain ⟨order, hat, hperm, rfl⟩ := hG.used hfirst h
  have hle := hG.le_length hat
  have hnext := hG.advance? hat
  refine ⟨hG.processed hat, List.length_take_of_le hle, ?_, ?_, hG.current hat, fun source => ?_,
    order.drop n, hG.drains hat, ?_, ?_⟩
  · rw [hG.hasMore hat]
    split at hnext
    · next hlt =>
      obtain ⟨g', hg, _⟩ := hnext
      simp [hg, hlt]
    · next hend => simp [hnext, hend]
  · intro hmore
    rw [hG.hasMore hat, decide_eq_false_iff_not] at hmore
    rwa [List.take_of_length_le (by omega)]
  · obtain ⟨order', _, hsame, hat'⟩ := hG.randomize hat source
    refine ⟨?_, order'.drop n, ?_⟩
    · rw [hG.current hat', hG.current hat, hsame]
    · rw [← hsame, List.take_append_drop]
      exact hG.replays hat'
  · rwa [List.take_append_drop]
  · rw [List.take_append_drop]
    exact hG.replays hat

end Lawful

end Generator

structure Progress.Stands (p : Progress) (n : Nat) : Prop where
  next : p.next = n
  processed : p.processed = n
  closed : p.closed = false

namespace Progress.Stands

variable {p : Progress} {n : Nat}

theorem advance (h : p.Stands n) : p.advance.Stands (n + 1) :=
  ⟨congrArg (· + 1) h.next, congrArg (· + 1) h.processed, h.closed⟩

theorem reset (p : Progress) : p.reset.Stands 0 := ⟨rfl, rfl, rfl⟩

theorem hasMore (h : p.Stands n) (total : Nat) : p.hasMore total = decide (n < total) := by
  simp [Progress.hasMore, h.closed, h.next]

theorem cursor (h : p.Stands n) : n = 0 ∧ p.cursor = none ∨ ∃ i, n = i + 1 ∧ p.cursor = some i := by
  have hnext := h.next
  unfold Progress.next at hnext
  cases hcursor : p.cursor with
  | none =>
    rw [hcursor] at hnext
    exact .inl ⟨hnext.symm, rfl⟩
  | some i =>
    rw [hcursor] at hnext
    exact .inr ⟨i, hnext.symm, rfl⟩

end Progress.Stands

namespace Listed

variable {α : Type}

def At (g : Listed α) (order : List α) (n : Nat) : Prop :=
  g.items = order ∧ g.progress.Stands n ∧ n ≤ order.length

theorem lawful : (generator α).Lawful At where
  le_length h := h.2.2
  hasMore := by
    rintro g order n ⟨rfl, hstands, _⟩
    exact hstands.hasMore _
  processed h := h.2.1.processed
  current := by
    rintro g order n ⟨rfl, hstands, hle⟩
    change g.progress.cursor.bind (g.items[·]?) = _
    rcases hstands.cursor with ⟨rfl, hcursor⟩ | ⟨i, rfl, hcursor⟩
    · simp [hcursor]
    · rw [hcursor, Generator.getLast?_take_succ hle]
      rfl
  advance? := by
    rintro g order n ⟨rfl, hstands, _⟩
    change if n < g.items.length then ∃ g', g.advance? = some g' ∧ _ else g.advance? = none
    have hmore : g.hasMore = decide (n < g.items.length) := hstands.hasMore _
    rw [Listed.advance?, hmore]
    split
    · next hlt => exact ⟨_, if_pos (decide_eq_true hlt), rfl, hstands.advance, hlt⟩
    · next hend => exact if_neg (by simpa using hend)
  randomize := by
    rintro g order n ⟨rfl, hstands, hle⟩ source
    have hitems : (g.randomize source).1.items =
        g.items.take n ++ (Random.Source.shuffle (g.items.drop n) source).1 := by
      rw [← hstands.next]
      rfl
    have hperm : ((g.randomize source).1.items).Perm g.items := by
      rw [hitems]
      conv_rhs => rw [← List.take_append_drop n g.items]
      exact (shuffle_perm _ source).append_left _
    refine ⟨_, hperm, ?_, rfl, hstands, hperm.length_eq.symm ▸ hle⟩
    rw [hitems, List.take_left' (List.length_take_of_le hle)]
  reset := by
    rintro g order n ⟨rfl, _, _⟩
    exact ⟨rfl, .reset _, Nat.zero_le _⟩

end Listed

namespace Interval

variable {total i n : Nat} {s : Shuffle} {g : Interval} {order : List Int64}

theorem permute_of_lt (h : i < s.first) : permute total s i = i :=
  if_neg (by omega)

theorem permute_injOn (hs : s.first < total) (hcoprime : Nat.Coprime s.stride (total - s.first))
    {j : Nat} (hi : i < total) (hj : j < total) (h : permute total s i = permute total s j) : i = j := by
  unfold permute at h
  split at h
  · next hfirst =>
    split at h
    · next hfirst' =>
      have hsame : (i - s.first) * s.stride + s.start ≡ (j - s.first) * s.stride + s.start
          [MOD total - s.first] := Nat.add_left_cancel h
      have hcancel : i - s.first ≡ j - s.first [MOD total - s.first] :=
        (Nat.ModEq.add_right_cancel' _ hsame).cancel_right_of_coprime
          (Nat.coprime_comm.1 hcoprime)
      have heq := hcancel.eq_of_lt_of_lt (by omega) (by omega)
      omega
    · omega
  · next hfirst =>
    split at h
    · omega
    · exact h

theorem map_permute_perm (hs : s.first < total)
    (hcoprime : Nat.Coprime s.stride (total - s.first)) :
    ((List.range total).map (permute total s)).Perm (List.range total) := by
  have hnodup : ((List.range total).map (permute total s)).Nodup := by
    apply List.Nodup.map_on _ List.nodup_range
    intro i hi j hj heq
    exact permute_injOn hs hcoprime (List.mem_range.1 hi) (List.mem_range.1 hj) heq
  have hsubset : (List.range total).map (permute total s) ⊆ List.range total := by
    intro i hi
    obtain ⟨j, hj, rfl⟩ := List.mem_map.1 hi
    exact List.mem_range.2 (permute_lt hs (List.mem_range.1 hj))
  apply (List.subperm_of_subset hnodup hsubset).perm_of_length_le
  simp

def At (g : Interval) (order : List Int64) (n : Nat) : Prop :=
  order = (List.range g.length).map g.valueAt ∧ g.progress.Stands n ∧ n ≤ g.length

theorem At.getElem? (h : g.At order n) (hi : i < g.length) : order[i]? = some (g.valueAt i) := by
  rw [h.1, List.getElem?_map, List.getElem?_range hi]
  rfl

theorem At.length (h : g.At order n) : order.length = g.length := by
  rw [h.1, List.length_map, List.length_range]

theorem valueAt_append (g : Interval) (s : Shuffle) (i : Nat) :
    valueAt { g with shuffles := g.shuffles ++ [s] } i = g.valueAt (permute g.length s i) := by
  simp [valueAt, offsetAt]

theorem At.randomize (h : g.At order n) (source : Random.Source) :
    ∃ order' : List Int64, order'.Perm order ∧
      order'.take n = order.take n ∧ (g.randomize source).1.At order' n := by
  obtain ⟨rfl, hstands, hle⟩ := h
  rcases randomize_cases g source with ⟨-, hsame⟩ | ⟨s, hs, hnew⟩
  · rw [hsame]
    exact ⟨_, .refl _, rfl, rfl, hstands, hle⟩
  · rw [hnew]
    refine ⟨_, ?_, ?_, rfl, hstands, hle⟩
    · have hmap := (map_permute_perm hs.sound.first hs.sound.coprime).map g.valueAt
      rw [List.map_map] at hmap
      rwa [show valueAt { g with shuffles := g.shuffles ++ [s] } = g.valueAt ∘ permute g.length s
        from funext (valueAt_append g s)]
    · rw [← List.map_take, ← List.map_take]
      apply List.map_congr_left
      intro i hi
      rw [List.take_range, List.mem_range] at hi
      have hnext := hs.first.trans hstands.next
      rw [valueAt_append, permute_of_lt (by omega)]

theorem at_between (id : String) (min max : Int64) :
    (between id min max).At (integersBetween min max) 0 := by
  refine ⟨?_, .reset .start, Nat.zero_le _⟩
  unfold integersBetween
  apply List.map_congr_left
  intro i _
  rfl

theorem lawful : generator.Lawful At where
  le_length h := (At.length h).symm ▸ h.2.2
  hasMore := by
    intro g order n h
    rw [At.length h]
    exact h.2.1.hasMore _
  processed h := h.2.1.processed
  current := by
    intro g order n h
    change g.progress.cursor.map g.valueAt = _
    rcases h.2.1.cursor with ⟨rfl, hcursor⟩ | ⟨i, rfl, hcursor⟩
    · simp [hcursor]
    · rw [hcursor, Generator.getLast?_take_succ ((At.length h).symm ▸ h.2.2), At.getElem? h h.2.2]
      rfl
  advance? := by
    intro g order n h
    rw [At.length h]
    obtain ⟨horder, hstands, _⟩ := h
    change if n < g.length then ∃ g', g.advance? = some g' ∧ _ else g.advance? = none
    have hmore : g.hasMore = decide (n < g.length) := hstands.hasMore _
    rw [Interval.advance?, hmore]
    split
    · next hlt => exact ⟨_, if_pos (decide_eq_true hlt), horder, hstands.advance, hlt⟩
    · next hend => exact if_neg (by simpa using hend)
  randomize h := h.randomize
  reset h := ⟨h.1, .reset _, Nat.zero_le _⟩

end Interval

/-- However a generator is advanced, shuffled and started over, each item of its list comes once
between two resets, and so does each integer of its interval. -/
theorem alternatives_come_once :
    (∀ {α : Type} (id : String) (items : List α) {g : Listed α} {n : Nat} {taken : List α},
      (Listed.generator α).Used (.ofList id items) g n taken →
        (Listed.generator α).Enumerates items g n taken) ∧
    (∀ (id : String) (min max : Int64) {g : Interval} {n : Nat} {taken : List Int64},
      Interval.generator.Used (.between id min max) g n taken →
        ∃ all : List Int64, all.Nodup ∧ (∀ v, v ∈ all ↔ min ≤ v ∧ v ≤ max) ∧
          Interval.generator.Enumerates all g n taken) := by
  constructor
  · intro α id items g n taken h
    exact Listed.lawful.enumerates ⟨rfl, .reset .start, Nat.zero_le _⟩ h
  · intro id min max g n taken h
    refine ⟨integersBetween min max, ?_, fun v => mem_integersBetween, ?_⟩
    · exact (integersBetween_ascending min max).imp fun hlt heq => by
        rw [heq, Int64.lt_iff_toInt_lt] at hlt
        exact Int.lt_irrefl _ hlt
    · exact Interval.lawful.enumerates (Interval.at_between id min max) h

/-- A die whose faces are shuffled after the first one, and a schedule of three threads that is
shuffled, started over and advanced. -/
theorem die_and_schedule_come_once :
    (∃ g, Interval.generator.Used (.between "die" 1 6) g 2 [1, 5] ∧
      ∃ all : List Int64, all.Nodup ∧ (∀ v, v ∈ all ↔ 1 ≤ v ∧ v ≤ 6) ∧
        Interval.generator.Enumerates all g 2 [1, 5]) ∧
    (∃ g, (Listed.generator ThreadId).Used (.ofList "schedule" [0, 2, 3]) g 1 [2] ∧
      (Listed.generator ThreadId).Enumerates [0, 2, 3] g 1 [2]) := by
  have hdie : ∃ g, Interval.generator.Used (.between "die" 1 6) g 2 [1, 5] := by
    have hnew : Interval.generator.Used (.between "die" 1 6) (.between "die" 1 6) 0 [] := .created
    have hfirst : Interval.generator.advance? (.between "die" 1 6) =
        some ⟨"die", 1, 6, [], ⟨some 0, 1, false, false⟩⟩ := by rfl
    have hsecond : Interval.generator.advance? ⟨"die", 1, 6, [⟨1, 3, 2⟩], ⟨some 0, 1, false, false⟩⟩ =
        some ⟨"die", 1, 6, [⟨1, 3, 2⟩], ⟨some 1, 2, false, false⟩⟩ := by rfl
    exact ⟨_, ((hnew.advanced hfirst).randomized (.ofList [3, 1])).advanced hsecond⟩
  have hschedule : ∃ g,
      (Listed.generator ThreadId).Used (.ofList "schedule" [0, 2, 3]) g 1 [2] := by
    have hnew : (Listed.generator ThreadId).Used (.ofList "schedule" [0, 2, 3])
      (.ofList "schedule" [0, 2, 3]) 0 [] := .created
    have hnext : (Listed.advance? (Listed.randomize (.ofList "schedule" [0, 2, 3])
      (.ofList [0])).1.reset).isSome = true := by decide
    exact ⟨_, (hnew.randomized (.ofList [0])).reset.advanced (Option.some_get hnext).symm⟩
  obtain ⟨die, hdie⟩ := hdie
  obtain ⟨schedule, hschedule⟩ := hschedule
  exact ⟨⟨die, hdie, alternatives_come_once.2 "die" 1 6 hdie⟩,
    ⟨schedule, hschedule, alternatives_come_once.1 "schedule" [0, 2, 3] hschedule⟩⟩

end Interleave
