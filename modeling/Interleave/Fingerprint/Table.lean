import Std.Data.TreeMap
import Interleave.Digest.Sha256
import Interleave.Fingerprint.Basic
import Interleave.Text.Basic

set_option autoImplicit false

namespace Interleave

namespace Fingerprint

/-- Eight bytes, the lowest first. -/
def pushWord (bytes : ByteArray) (word : Nat) : ByteArray :=
  (List.range 8).foldl (fun out i => out.push (UInt8.ofNat (word / Nat.pow 256 i))) bytes

def digest (f : Fingerprint) : ByteArray :=
  Sha256.digest (f.words.foldl pushWord ByteArray.empty)

def hex (f : Fingerprint) : String := Text.hexBytes f.digest

def shortHash (f : Fingerprint) : Nat :=
  (f.digest.toList.take 8).foldr (fun b n => 256 * n + b.toNat) 0

end Fingerprint

abbrev StateId := Nat

inductive TableKind where
  | exact
  | compact
deriving DecidableEq

inductive StateTable where
  | exact (ids : Std.TreeMap (List Nat) StateId)
  | compact (short : Fingerprint → Nat) (ids : Std.TreeMap Nat StateId)

def addKey {κ : Type} [Ord κ] (ids : Std.TreeMap κ StateId) (key : κ) :
    StateId × Bool × Std.TreeMap κ StateId :=
  match ids[key]? with
  | some id => (id, false, ids)
  | none =>
    let id := ids.size
    (id, true, ids.insert key id)

namespace StateTable

def empty (kind : TableKind) (short : Fingerprint → Nat := Fingerprint.shortHash) : StateTable :=
  match kind with
  | .exact => exact ∅
  | .compact => compact short ∅

def size : StateTable → Nat
  | exact ids => ids.size
  | compact _ ids => ids.size

def add (table : StateTable) (f : Fingerprint) : StateId × Bool × StateTable :=
  match table with
  | exact ids =>
    let (id, isNew, ids) := addKey ids f.words
    (id, isNew, exact ids)
  | compact short ids =>
    let (id, isNew, ids) := addKey ids (short f)
    (id, isNew, compact short ids)

def clear : StateTable → StateTable
  | exact _ => exact ∅
  | compact short _ => compact short ∅

end StateTable

end Interleave
