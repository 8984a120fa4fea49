import Interleave.Random.ChaCha

set_option autoImplicit false

/-! A source is an endless sequence of words and the position of the next one. A number below a
bound is drawn by multiplication, and draws that would favour some numbers are rejected. -/

namespace Interleave.Random

inductive Source where
  | words32 (word : Nat → UInt32) (position : Nat)
  | words64 (word : Nat → UInt64) (position : Nat)

namespace Source

def ofSeed (seed : UInt64) : Source := words32 (ChaCha.wordAt (ChaCha.keyOf seed)) 0

def ofList (words : List UInt64) : Source := words64 (fun i => words.getD (i % words.length) 0) 0

def next32 : Source → UInt32 × Source
  | words32 word i => (word i, words32 word (i + 1))
  | words64 word i => ((word i).toUInt32, words64 word (i + 1))

def next64 : Source → UInt64 × Source
  | words32 word i => ((word i).toUInt64 ||| ((word (i + 1)).toUInt64 <<< 32), words32 word (i + 2))
  | words64 word i => (word i, words64 word (i + 1))

def zone (n : Nat) : Nat := n * Nat.pow 2 (31 - n.log2) - 1

def drawWithin (n : Nat) : Nat → Source → Nat × Source
  | 0, s => (0, s)
  | fuel + 1, s =>
    let (v, s) := s.next32
    let product := v.toNat * n
    if product % Nat.pow 2 32 ≤ zone n then (product / Nat.pow 2 32, s) else drawWithin n fuel s

/-- A number below `n`. Each draw is accepted with a chance above one half, so that the bound on
their number is not met in practice; where it were met, the number would be 0. -/
def draw (n : Nat) (s : Source) : Nat × Source := drawWithin n 4096 s

/-- Shuffles a list: each position from the last one down is exchanged with one that is not after
it. -/
def shuffle {α : Type} (items : List α) (s : Source) : List α × Source :=
  let (shuffled, s) := (List.range (items.length - 1)).foldr
    (fun i (xs, s) =>
      let (j, s) := draw (i + 2) s
      (xs.swapIfInBounds (i + 1) j, s))
    (items.toArray, s)
  (shuffled.toList, s)

end Source

end Interleave.Random
