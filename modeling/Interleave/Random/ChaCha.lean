set_option autoImplicit false

namespace Interleave.Random

namespace ChaCha

def rotl (x : UInt32) (n : UInt32) : UInt32 := (x <<< n) ||| (x >>> (32 - n))

def quarterRound (s : Array UInt32) (a b c d : Nat) : Array UInt32 :=
  let xa := s.getD a 0
  let xb := s.getD b 0
  let xc := s.getD c 0
  let xd := s.getD d 0
  let xa := xa + xb
  let xd := rotl (xd ^^^ xa) 16
  let xc := xc + xd
  let xb := rotl (xb ^^^ xc) 12
  let xa := xa + xb
  let xd := rotl (xd ^^^ xa) 8
  let xc := xc + xd
  let xb := rotl (xb ^^^ xc) 7
  (((s.setIfInBounds a xa).setIfInBounds b xb).setIfInBounds c xc).setIfInBounds d xd

def doubleRound (s : Array UInt32) : Array UInt32 :=
  let s := quarterRound s 0 4 8 12
  let s := quarterRound s 1 5 9 13
  let s := quarterRound s 2 6 10 14
  let s := quarterRound s 3 7 11 15
  let s := quarterRound s 0 5 10 15
  let s := quarterRound s 1 6 11 12
  let s := quarterRound s 2 7 8 13
  quarterRound s 3 4 9 14

def start (key : Array UInt32) (block : Nat) : Array UInt32 :=
  #[0x61707865, 0x3320646e, 0x79622d32, 0x6b206574] ++ key
    ++ #[UInt32.ofNat block, UInt32.ofNat (block / Nat.pow 2 32), 0, 0]

def block (key : Array UInt32) (number : Nat) : Array UInt32 :=
  let first := start key number
  let mixed := (List.range 6).foldl (fun s _ => doubleRound s) first
  first.zipWith (· + ·) mixed

def wordAt (key : Array UInt32) (position : Nat) : UInt32 :=
  (block key (position / 16)).getD (position % 16) 0

def stretch (state : UInt64) : UInt64 := state * 6364136223846793005 + 11634580027462260723

def keyWord (state : UInt64) : UInt32 :=
  let x := (((state >>> 18) ^^^ state) >>> 27).toUInt32
  let n := (state >>> 59).toUInt32
  (x >>> n) ||| (x <<< ((32 - n) % 32))

def keyOf (seed : UInt64) : Array UInt32 :=
  ((List.range 8).foldl
    (fun (key, state) _ =>
      let state := stretch state
      (key.push (keyWord state), state))
    ((#[] : Array UInt32), seed)).1

end ChaCha

end Interleave.Random
