import Interleave.Choice.Progress
import Interleave.Random.Source

set_option autoImplicit false

/-! A generator over the integers from `min` on. Values are computed from positions, so the interval
may span all 64-bit integers. A shuffle permutes the positions from some position on by an affine
map whose factor has no divisor in common with their number. -/

namespace Interleave

/-- Sends position `first + i` to `first + (i * stride + start) % (length - first)`. -/
structure Shuffle where
  first : Nat
  start : Nat
  stride : Nat
deriving DecidableEq

structure Interval where
  id : String
  min : Int64
  length : Nat
  shuffles : List Shuffle
  progress : Progress

namespace Interval

/-- The integers from `min` to `max`; none when `max` is smaller. -/
def between (id : String) (min max : Int64) : Interval :=
  ⟨id, min, (max.toInt + 1 - min.toInt).toNat, [], .start⟩

def hasMore (g : Interval) : Bool := g.progress.hasMore g.length

def isDone (g : Interval) : Bool := g.progress.isDone g.length

/-- The number of alternatives as a 64-bit word, or the largest word. -/
def total (g : Interval) : Nat := Nat.min g.length (Nat.pow 2 64 - 1)

def permute (length : Nat) (s : Shuffle) (position : Nat) : Nat :=
  if s.first ≤ position then
    s.first + ((position - s.first) * s.stride + s.start) % (length - s.first)
  else position

/-- The distance from `min` of the value at a position; the newest shuffle acts first. -/
def offsetAt (g : Interval) (position : Nat) : Nat :=
  g.shuffles.foldr (permute g.length) position

def current? (g : Interval) : Option Int64 :=
  g.progress.cursor.map fun i => Int64.ofInt (g.min.toInt + g.offsetAt i)

def advance? (g : Interval) : Option Interval :=
  if g.hasMore then some { g with progress := g.progress.advance } else none

def close (g : Interval) : Interval := { g with progress := g.progress.close }

def reset (g : Interval) : Interval := { g with progress := g.progress.reset }

def setCascaded (g : Interval) (cascaded : Bool) : Interval :=
  { g with progress := { g.progress with cascaded } }

/-- The first factor from `stride` on that has no divisor in common with `modulus`; after the
largest factor the search goes on with one. -/
def coprimeStride (modulus : Nat) : Nat → Nat → Nat
  | 0, stride => stride
  | fuel + 1, stride =>
    if Nat.gcd stride modulus = 1 then stride
    else coprimeStride modulus fuel (stride % (modulus - 1) + 1)

def randomize (g : Interval) (s : Random.Source) : Interval × Random.Source :=
  let modulus := g.length - g.progress.next
  if modulus < 2 then (g, s)
  else
    let (a, s) := s.next64
    let (b, s) := s.next64
    let stride := coprimeStride modulus modulus (b.toNat % (modulus - 1) + 1)
    ({ g with shuffles := g.shuffles ++ [⟨g.progress.next, a.toNat % modulus, stride⟩] }, s)

end Interval

end Interleave
