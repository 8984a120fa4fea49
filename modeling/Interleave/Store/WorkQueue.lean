set_option autoImplicit false

namespace Interleave

/-- The items to be taken next, in order, and the newer ones, the newest first. -/
structure WorkQueue (α : Type) where
  front : List α
  back : List α

namespace WorkQueue

variable {α : Type}

def empty : WorkQueue α := ⟨[], []⟩

def toList (q : WorkQueue α) : List α := q.front ++ q.back.reverse

def size (q : WorkQueue α) : Nat := q.front.length + q.back.length

def isEmpty (q : WorkQueue α) : Bool := q.front.isEmpty && q.back.isEmpty

def push (q : WorkQueue α) (a : α) : WorkQueue α := { q with back := a :: q.back }

def pop? (q : WorkQueue α) : Option (α × WorkQueue α) :=
  match q.front with
  | a :: front => some (a, { q with front })
  | [] =>
    match q.back.reverse with
    | a :: front => some (a, ⟨front, []⟩)
    | [] => none

end WorkQueue

end Interleave
