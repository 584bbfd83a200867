import Radiance.Scalar

/-!
# Progress

A count of finished work that reports every tenth once.  A worker first adds its amount and then
offers the tenth it has seen; other workers may come between the two.

## Main definitions

* `Progress.add`, `Progress.offer`: the two steps of a worker.
* `Progress.advance`: both at once.
-/

namespace Radiance

/-- Finished work, the last reported tenth, and all work, counted in words of 64 bits. -/
structure Progress where
  completed : UInt64 := 0
  reported : UInt64 := 0
  total : UInt64
  deriving Repr, DecidableEq, Inhabited

namespace Progress

/-- Adds finished work, and gives the sum. -/
def add (p : Progress) (amount : UInt64) : UInt64 × Progress :=
  (p.completed + amount, { p with completed := p.completed + amount })

/-- The tenths that an amount of finished work is. -/
def tenths (p : Progress) (done : UInt64) : UInt64 := min (done * 10 / p.total) 10

/-- Reports a tenth, unless it has been reported before. -/
def offer (p : Progress) (tenth : UInt64) : Option UInt64 × Progress :=
  (if p.reported < tenth then some tenth else none, { p with reported := max p.reported tenth })

/-- Adds finished work and reports a newly reached tenth. -/
def advance (p : Progress) (amount : UInt64) : Option UInt64 × Progress :=
  let (done, p) := p.add amount
  if p.total = 0 then (none, p) else p.offer (p.tenths done)

/-- The text of a reported tenth. -/
def message (tenth : UInt64) : String := s!"Rendering: {tenth * 10}%"

/-- The part of the work that is finished, at most one. -/
def fraction {α : Type} [Scalar α] (p : Progress) : α :=
  if p.total = 0 then 1
  else Scalar.min (Scalar.ofNat p.completed.toNat / Scalar.ofNat p.total.toNat) 1

def isDone (p : Progress) : Bool := p.total ≤ p.completed

end Progress

end Radiance
