import Mathlib.Data.Nat.ModEq
import Interleave.Proofs.Explore.Agenda

set_option autoImplicit false

namespace Interleave.Interval

def euclid (a b : Nat) : Nat := if b = 0 then a else euclid b (a % b)
termination_by b
decreasing_by
  rename_i hb
  exact Nat.mod_lt a (Nat.pos_of_ne_zero hb)

theorem euclid_eq_gcd (a b : Nat) : euclid a b = Nat.gcd a b := by
  fun_induction euclid a b with
  | case1 a => exact (Nat.gcd_zero_right a).symm
  | case2 a b _ ih => rw [ih, Nat.gcd_comm b, ← Nat.gcd_rec, Nat.gcd_comm]

/-- The loop that looks for a factor, from `stride` on, comes to an end at `last`. -/
inductive SettlesOn (modulus : Nat) : (stride last : Nat) → Prop where
  | found {stride : Nat} (h : euclid stride modulus = 1) : SettlesOn modulus stride stride
  | next {stride last : Nat} (h : euclid stride modulus ≠ 1)
      (rest : SettlesOn modulus (stride % (modulus - 1) + 1) last) : SettlesOn modulus stride last

/-- From a stride on, the largest one is met before the tries are used up; it has no divisor in common
with the modulus, so the search never starts over with one. -/
theorem coprimeStride_settles {modulus fuel stride : Nat} (hmodulus : 2 ≤ modulus)
    (hpos : 0 < stride) (hlt : stride < modulus) (hfuel : modulus ≤ stride + fuel) :
    SettlesOn modulus stride (coprimeStride modulus fuel stride) ∧
      0 < coprimeStride modulus fuel stride ∧ coprimeStride modulus fuel stride < modulus ∧
      Nat.Coprime (coprimeStride modulus fuel stride) modulus := by
  induction fuel generalizing stride with
  | zero => omega
  | succ fuel ih =>
    rw [coprimeStride]
    split
    · next hcoprime =>
      exact ⟨.found ((euclid_eq_gcd _ _).trans hcoprime), hpos, hlt, hcoprime⟩
    · next hcommon =>
      have hlast : stride ≠ modulus - 1 := by
        rintro rfl
        apply hcommon
        rw [← Nat.coprime_iff_gcd_eq_one, Nat.coprime_comm]
        exact Nat.coprime_self_sub_right (by omega) |>.2 (Nat.coprime_one_right modulus)
      have hnext : stride % (modulus - 1) = stride := Nat.mod_eq_of_lt (by omega)
      obtain ⟨hsettles, hrest⟩ := @ih (stride % (modulus - 1) + 1) (by omega) (by omega) (by omega)
      exact ⟨.next (by rwa [euclid_eq_gcd]) hsettles, hrest⟩

structure Sound (length : Nat) (s : Shuffle) : Prop where
  first : s.first < length
  start : s.start < length - s.first
  positive : 1 ≤ s.stride
  stride : s.stride ≤ length - s.first - 1
  coprime : Nat.gcd s.stride (length - s.first) = 1

/-- A shuffle of the positions that are left, made of the next two words of a source. -/
structure Draws (g : Interval) (source : Random.Source) (s : Shuffle) : Prop where
  first : s.first = g.progress.next
  start : s.start = source.next64.1.toNat % (g.length - s.first)
  settles : SettlesOn (g.length - s.first)
    (source.next64.2.next64.1.toNat % (g.length - s.first - 1) + 1) s.stride
  sound : Sound g.length s

theorem randomize_cases (g : Interval) (source : Random.Source) :
    g.length - g.progress.next < 2 ∧ g.randomize source = (g, source) ∨
      ∃ s, g.Draws source s ∧
        (g.randomize source).1 = { g with shuffles := g.shuffles ++ [s] } := by
  unfold randomize
  dsimp only
  split
  · next hfew => exact .inl ⟨hfew, rfl⟩
  · next hmodulus =>
    have hmod := Nat.mod_lt (source.next64.2.next64.1.toNat)
      (show 0 < g.length - g.progress.next - 1 by omega)
    obtain ⟨hsettles, hpos, hlt, hcoprime⟩ := coprimeStride_settles
      (Nat.le_of_not_lt hmodulus) (Nat.add_one_pos _) (Nat.add_lt_of_lt_sub hmod)
      (Nat.le_add_left (g.length - g.progress.next) _)
    exact .inr ⟨⟨_, _, _⟩, ⟨rfl, rfl, hsettles, show g.progress.next < g.length by omega,
      Nat.mod_lt _ (by omega), hpos, Nat.le_sub_one_of_lt hlt, hcoprime⟩, rfl⟩

def fit128? (n : Nat) : Option Nat := if n < 2 ^ 128 then some n else none

/-- `permute`, step by step: nothing where a result does not fit, a difference is below zero or a
remainder by zero is asked for. -/
def permute128? (length : Nat) (s : Shuffle) (position : Nat) : Option Nat :=
  if s.first ≤ position then
    if length < s.first then none
    else if length - s.first = 0 then none
    else do
      let product ← fit128? ((position - s.first) * s.stride)
      let sum ← fit128? (product + s.start)
      fit128? (s.first + sum % (length - s.first))
  else some position

def offset128? (g : Interval) (position : Nat) : Option Nat :=
  g.shuffles.foldr (fun s found => found.bind (permute128? g.length s)) (some position)

theorem fit128?_of_lt {n : Nat} (h : n < 2 ^ 128) : fit128? n = some n := if_pos h

/-- The product of two numbers below the length has room for another one. -/
theorem permute128?_eq {length position : Nat} {s : Shuffle} (hlength : length ≤ 2 ^ 64)
    (hs : Sound length s) (hposition : position < length) :
    permute128? length s position = some (permute length s position) := by
  have hfirst := hs.first
  have hstart := hs.start
  have hstride := hs.stride
  unfold permute128? permute
  split
  · have hproduct : (position - s.first) * s.stride ≤ (2 ^ 64 - 1) * (2 ^ 64 - 1) :=
      Nat.mul_le_mul (by omega) (by omega)
    have hrest := Nat.mod_lt ((position - s.first) * s.stride + s.start)
      (show 0 < length - s.first by omega)
    rw [if_neg (by omega), if_neg (by omega), fit128?_of_lt (by omega), Option.bind_eq_bind,
      Option.bind_some, fit128?_of_lt (by omega), Option.bind_some, fit128?_of_lt (by omega)]
  · rfl

/-- What shuffles can make of the integers between two bounds: each is made wherever the generator
stands, with whatever a source gives. -/
inductive Shuffled (id : String) (min max : Int64) : Interval → Prop where
  | created : Shuffled id min max (between id min max)
  | moved {g : Interval} (h : Shuffled id min max g) (progress : Progress) :
      Shuffled id min max { g with progress }
  | randomized {g : Interval} (h : Shuffled id min max g) (source : Random.Source) :
      Shuffled id min max (g.randomize source).1

section Shuffled

variable {id : String} {min max : Int64} {g : Interval} {position : Nat}

theorem Shuffled.sound (h : Shuffled id min max g) :
    g.min = min ∧ g.length = (max.toInt + 1 - min.toInt).toNat ∧
      ∀ s ∈ g.shuffles, Sound g.length s := by
  induction h with
  | created => exact ⟨rfl, rfl, by simp [between]⟩
  | moved _ _ ih => exact ih
  | @randomized g _ source ih =>
    rcases randomize_cases g source with ⟨-, hsame⟩ | ⟨s, hs, hnew⟩
    · rwa [hsame]
    · rw [hnew]
      refine ⟨ih.1, ih.2.1, fun r hr => ?_⟩
      rcases List.mem_append.1 hr with hr | hr
      · exact ih.2.2 r hr
      · rw [List.mem_singleton.1 hr]
        exact hs.sound

theorem Shuffled.offset128?_eq (h : Shuffled id min max g) (hposition : position < g.length) :
    g.offset128? position = some (g.offsetAt position) ∧ g.offsetAt position < g.length := by
  obtain ⟨-, hspan, hsound⟩ := h.sound
  have hlength : g.length ≤ 2 ^ 64 := by
    have hlow := Int64.le_toInt min
    have hhigh := Int64.toInt_lt max
    omega
  unfold offset128? offsetAt
  revert hsound
  -- The newest shuffle stands last in the list and acts first.
  induction g.shuffles with
  | nil => exact fun _ => ⟨rfl, hposition⟩
  | cons s older ih =>
    intro hsound
    obtain ⟨hsame, hlt⟩ := ih fun r hr => hsound r (List.mem_cons_of_mem s hr)
    have hs := hsound s List.mem_cons_self
    rw [List.foldr_cons, List.foldr_cons, hsame, Option.bind_some]
    exact ⟨permute128?_eq hlength hs hlt, permute_lt hs.first hlt⟩

end Shuffled

/-- Shuffling is safe. The loop that looks for a factor ends, with one below the number of positions
that are left and without a divisor in common with it; and whichever shuffles were made before, each
position is permuted within 128 bits and leads to an integer of the interval. -/
theorem shuffling_safe :
    (∀ a b, euclid a b = Nat.gcd a b) ∧
    (∀ (g : Interval) (source : Random.Source),
      g.length - g.progress.next < 2 ∧ g.randomize source = (g, source) ∨
      ∃ s, g.Draws source s ∧
        (g.randomize source).1 = { g with shuffles := g.shuffles ++ [s] }) ∧
    ∀ (id : String) (min max : Int64) (g : Interval) (position : Nat),
      Shuffled id min max g → position < g.length →
        g.offset128? position = some (g.offsetAt position) ∧ g.offsetAt position < g.length ∧
        min.toInt ≤ g.min.toInt + g.offsetAt position ∧
        g.min.toInt + g.offsetAt position ≤ max.toInt := by
  refine ⟨euclid_eq_gcd, randomize_cases, fun id min max g position h hposition => ?_⟩
  obtain ⟨hlow, hspan, -⟩ := h.sound
  obtain ⟨hsame, hlt⟩ := h.offset128?_eq hposition
  rw [hlow]
  exact ⟨hsame, hlt, by omega, by omega⟩

/-- All 64-bit integers, shuffled with the largest words: the last position needs all but the last of
the 128-bit integers' room. -/
theorem widest_shuffling_safe :
    ∃ g : Interval, Shuffled "any" Int64.minValue Int64.maxValue g ∧ g.length = 2 ^ 64 ∧
      g.shuffles = [⟨0, 2 ^ 64 - 1, 2 ^ 64 - 1⟩] ∧
      g.offset128? (2 ^ 64 - 1) = some (g.offsetAt (2 ^ 64 - 1)) ∧
      g.offsetAt (2 ^ 64 - 1) < 2 ^ 64 := by
  have hshuffled : Shuffled "any" Int64.minValue Int64.maxValue _ :=
    .randomized .created (.ofList [2 ^ 64 - 1, 2 ^ 64 - 2])
  have hsafe := shuffling_safe.2.2 _ _ _ _ (2 ^ 64 - 1) hshuffled (by decide +kernel)
  exact ⟨_, hshuffled, by decide +kernel, by decide +kernel, hsafe.1, hsafe.2.1⟩

end Interleave.Interval
