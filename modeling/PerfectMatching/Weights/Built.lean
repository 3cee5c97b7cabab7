import PerfectMatching.Weights.Sample
import PerfectMatching.Weights.Text

/-!
# The matrices that can be built

Every matrix comes from one of the constructors and is then changed by forbidding edges, taking opposites and shifting.
What holds of all of these holds of every matrix a matcher is given.
-/

namespace PerfectMatching.Weights

/-- A matrix as the constructors make it. The function that gives the entries may have a state. -/
inductive Constructed : Weights Float → Prop where
  | ofFnM {σ : Type} (n : Nat) (f : Nat → Nat → StateM σ (Option Float)) (s : σ) :
      Constructed (Id.run ((ofFnM n f).run s)).1
  | sample {σ : Type} (draws : Draws σ) (n : Nat) (forbid : Float) (s : σ) :
      Constructed (Id.run ((sample draws n forbid).run s)).1
  | ofRows {rows : List (List (Option Float))} {w : Weights Float} : ofRows rows = .ok w → Constructed w
  | ofMarkedRows {rows : List (List Float)} {w : Weights Float} : ofMarkedRows rows = .ok w → Constructed w
  | ofText {text : String} {w : Weights Float} : ofText text = .ok w → Constructed w

/-- A function without a state constructs a matrix as well. -/
theorem Constructed.ofFn (n : Nat) (f : Nat → Nat → Option Float) : Constructed (ofFn n f) := by
  have h := Constructed.ofFnM n (fun i j => (pure (f i j) : StateM Unit (Option Float))) ()
  rw [ofFnM_pure] at h
  exact h

/-- A change of a matrix. -/
inductive Change where
  /-- The entry at the place of row `i` and column `j` is forbidden. -/
  | forbid (i j : Nat)
  /-- Every weight is turned into its opposite. -/
  | negate
  /-- Every weight is increased by `c`. -/
  | shift (c : Float)

/-- The matrix after a change, unless that has no place in it. -/
def change? (w : Weights Float) : Change → Option (Weights Float)
  | .forbid i j => w.forbid? i j
  | .negate => some w.negated
  | .shift c => some (w.shifted c)

/-- The matrix after some changes, one after another, unless one of them has no place in it. -/
def changed? (w : Weights Float) (changes : List Change) : Option (Weights Float) := changes.foldlM change? w

/-- A matrix that has been constructed and then changed any number of times. -/
def Built (w : Weights Float) : Prop := ∃ v changes, Constructed v ∧ v.changed? changes = some w

end PerfectMatching.Weights
