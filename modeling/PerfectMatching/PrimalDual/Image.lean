import PerfectMatching.PrimalDual

/-!
# The same run on other numbers

A function of numbers takes what a matcher holds and reports on one kind of numbers to what it would hold and report on another:
it changes every number, and nothing else. Two runs go in lockstep if at every point the one is the image of the other.
-/

namespace PerfectMatching

variable {α β : Type} {n : Nat}

/-- A failure with its numbers changed. -/
def Failure.map (f : α → β) : Failure α → Failure β
  | .sizeMismatch expected found => .sizeMismatch expected found
  | .notFinite row col => .notFinite row col
  | .noEdge => .noEdge
  | .noPerfectMatching matched n => .noPerfectMatching matched n
  | .unshiftable min max => .unshiftable (f min) (f max)
  | .inconsistent cause => .inconsistent cause
  | .tooLarge n limit => .tooLarge n limit
  | .unknownMethod name => .unknownMethod name
  | .malformed defect => .malformed defect

/-- An event with its numbers changed. -/
def Event.map (f : α → β) : Event α → Event β
  | .flipped row col => .flipped row col
  | .dualUpdate amount => .dualUpdate (f amount)
  | .searched n goal effort weight => .searched n goal effort (f weight)
  | .searchFailed n goal error => .searchFailed n goal (error.map f)
  | .enumerated n goal weight => .enumerated n goal (f weight)
  | .enumerationFailed n goal => .enumerationFailed n goal

/-- A result with its weight changed. -/
def Assignment.map (f : α → β) (a : Assignment α) : Assignment β := ⟨a.source, a.dest, f a.weight⟩

namespace PrimalDual

/-- A table with its weights changed. -/
def mapTable (f : α → β) (work : Table α n) : Table β n := work.map (·.map (Option.map f))

/-- A state with its numbers changed. -/
def State.map (f : α → β) (s : State α n) : State β n where
  rowMate := s.rowMate
  colMate := s.colMate
  rowLabel := s.rowLabel
  colLabel := s.colLabel
  rowDual := s.rowDual.map f
  colDual := s.colDual.map f
  slack := s.slack.map f
  rowStack := s.rowStack
  colStack := s.colStack

/-- A way back along a path with its numbers changed. -/
def Trail.map (f : α → β) (t : Trail α n) : Trail β n := ⟨t.state.map f, t.fault, t.events.map (·.map f)⟩

/-- Where a search stands, with its numbers changed. -/
def Progress.map (f : α → β) (p : Progress α n) : Progress β n :=
  ⟨p.state.map f, p.effort, p.verdict, p.events.map (·.map f)⟩

/-- A matcher with its numbers changed. -/
def map (f : α → β) (m : PrimalDual α n) : PrimalDual β n where
  work := mapTable f m.work
  offset := f m.offset
  goal := m.goal
  state := m.state.map f
  result := m.result.map f
  effort := m.effort

end PrimalDual

/-- What a call leads to, with its numbers changed. -/
def Solved.map (f : α → β) (r : Solved α (PrimalDual α n)) : Solved β (PrimalDual β n) :=
  ⟨r.outcome.mapError (·.map f), r.matcher.map f, r.events.map (·.map f)⟩

end PerfectMatching
