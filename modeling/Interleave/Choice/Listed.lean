import Interleave.Choice.Progress
import Interleave.Random.Source

set_option autoImplicit false

namespace Interleave

structure Listed (α : Type) where
  id : String
  items : List α
  progress : Progress

namespace Listed

variable {α : Type}

def ofList (id : String) (items : List α) : Listed α := ⟨id, items, .start⟩

def total (g : Listed α) : Nat := g.items.length

def hasMore (g : Listed α) : Bool := g.progress.hasMore g.total

def isDone (g : Listed α) : Bool := g.progress.isDone g.total

def current? (g : Listed α) : Option α := g.progress.cursor.bind (g.items[·]?)

def advance? (g : Listed α) : Option (Listed α) :=
  if g.hasMore then some { g with progress := g.progress.advance } else none

def close (g : Listed α) : Listed α := { g with progress := g.progress.close }

def reset (g : Listed α) : Listed α := { g with progress := g.progress.reset }

def setCascaded (g : Listed α) (cascaded : Bool) : Listed α :=
  { g with progress := { g.progress with cascaded } }

def randomize (g : Listed α) (s : Random.Source) : Listed α × Random.Source :=
  let (rest, s) := Random.Source.shuffle (g.items.drop g.progress.next) s
  ({ g with items := g.items.take g.progress.next ++ rest }, s)

def restrictTo [DecidableEq α] (g : Listed α) (kept : List α) : Listed α :=
  ofList g.id (g.items.filter (· ∈ kept))

end Listed

end Interleave
