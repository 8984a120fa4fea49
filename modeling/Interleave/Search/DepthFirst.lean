import Interleave.Search.Basic

set_option autoImplicit false

namespace Interleave.Search.DepthFirst

def isLeaf (s : Search) (ignored : Bool) : Bool :=
  ignored || !s.session.isNew || s.explorer.isEnd || s.depthLimitReached

def proceed : Run Unit := do
  if ← forward then
    afterForward fun _ => []
  else
    processed

def turn : Run Bool := do
  if (← get).session.done then return false
  if ← checkTerminated then return false
  let ignored ← takeIgnored
  if isLeaf (← get) ignored then
    if !(← backtrack) then return false
  proceed
  return true

end Interleave.Search.DepthFirst
