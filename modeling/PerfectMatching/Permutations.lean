/-!
# Permutations in Heap's order

The permutations of `0, …, n - 1`, the identity first, each next one by a single exchange. Place `k` has a counter that
runs from zero to `k`, so the counters are the digits of a number in the factorial number system, the place of value `k!`
holding a digit at most `k`. Counting up once says which two places are exchanged: place `k`, the one whose counter goes
up, and place zero if `k` is even, or else the place that the counter of `k` names. The number on the counters is the
number of permutations passed (`Permutations.rank`), which is why the enumeration ends. The place that counting up has come
to, the cursor, is part of the state: it goes back to the first place with a counter when a permutation is found, and when
none is found it stays behind the last place, so that no later call finds one.
-/

namespace PerfectMatching

/-- The number of permutations of `n` things. -/
def factorial : Nat → Nat
  | 0 => 1
  | n + 1 => (n + 1) * factorial n

/-- A point in the enumeration for `n` things. -/
structure Permutations (n : Nat) where
  /-- The permutation reached. -/
  current : Vector Nat n
  /-- The counter of each place. -/
  counters : Vector Nat n
  /-- The place whose counter is looked at next. The counter of place zero never goes up. -/
  cursor : Nat
  /-- The permutation reached is still to be handed out. -/
  fresh : Bool

namespace Permutations

variable {n : Nat}

/-- The beginning of the enumeration for `n` things. -/
def ofSize (n : Nat) : Permutations n := ⟨.range n, .replicate n 0, 1, true⟩

/-- Counts up from the cursor on. Counters at their end are set to zero; the first one that is not goes up, the exchange for it
is made, and the cursor goes back. If there is none, the cursor is left behind the last place. -/
def advance (p : Permutations n) : Option (List Nat) × Permutations n :=
  if hplace : p.cursor < n then
    let digit := p.counters[p.cursor]
    if hdigit : digit < p.cursor then
      let other := if p.cursor % 2 = 0 then 0 else digit
      have hother : other < n := by
        dsimp only [other]
        split <;> omega
      let current := p.current.swap other p.cursor
      (some current.toList, { p with current, counters := p.counters.set p.cursor (digit + 1), cursor := 1 })
    else advance { p with counters := p.counters.set p.cursor 0, cursor := p.cursor + 1 }
  else (none, p)
termination_by n - p.cursor

/-- A call for the next permutation: the answer, if there is one, and the enumeration after the call. -/
def next (p : Permutations n) : Option (List Nat) × Permutations n :=
  if p.fresh then (some p.current.toList, { p with fresh := false }) else p.advance

/-- What `count` calls answer, one after another. -/
def answers : Nat → Permutations n → List (Option (List Nat))
  | 0, _ => []
  | count + 1, p => p.next.1 :: answers count p.next.2

/-- The number on the counters from place `k` on. -/
def rank (k : Nat) : List Nat → Nat
  | [] => 0
  | c :: counters => c * factorial k + rank (k + 1) counters

/-- How many permutations are still to come. -/
def remaining (p : Permutations n) : Nat :=
  if p.fresh then factorial n
  else if p.cursor < n then factorial n - 1 - rank 0 p.counters.toList
  else 0

/-- Passes the next `count` permutations, as far as there are so many, to `f` one by one. -/
def fold {β : Type} (f : β → List Nat → β) : Nat → Permutations n → β → β
  | 0, _, acc => acc
  | count + 1, p, acc =>
    match p.next with
    | (none, _) => acc
    | (some permutation, p) => fold f count p (f acc permutation)

/-- The next `count` permutations, as far as there are so many. -/
def take : Nat → Permutations n → List (List Nat)
  | 0, _ => []
  | count + 1, p =>
    match p.next with
    | (none, _) => []
    | (some permutation, p) => permutation :: take count p

/-- All permutations of `n` things in order. -/
def all (n : Nat) : List (List Nat) := (ofSize n).take (ofSize n).remaining

/-- Passing permutations to a function one by one is passing the list of them. -/
theorem fold_eq_foldl_take {β : Type} (f : β → List Nat → β) (count : Nat) (p : Permutations n) (acc : β) :
    fold f count p acc = (take count p).foldl f acc := by
  induction count generalizing p acc with
  | zero => rfl
  | succ count ih =>
    unfold fold take
    cases p.next with
    | mk answer q =>
      cases answer with
      | none => rfl
      | some permutation => exact ih q (f acc permutation)

/-! ## The end of the enumeration -/

/-- A call that finds nothing has left the cursor behind the last place. -/
theorem le_cursor_of_advance {p : Permutations n} (h : p.advance.1 = none) :
    n ≤ p.advance.2.cursor ∧ p.advance.2.fresh = p.fresh := by
  induction p using advance.induct with
  | case1 p hplace digit hdigit =>
    rw [advance, dif_pos hplace, dif_pos hdigit] at h
    exact nomatch h
  | case2 p hplace digit hdigit ih =>
    rw [advance, dif_pos hplace, dif_neg hdigit] at h ⊢
    exact ih h
  | case3 p hplace =>
    rw [advance, dif_neg hplace]
    exact ⟨Nat.le_of_not_lt hplace, rfl⟩

/-- A call without an answer leaves the enumeration where every further call is without an answer and changes nothing. -/
theorem next_of_next_eq_none {p : Permutations n} (h : p.next.1 = none) : p.next.2.next = (none, p.next.2) := by
  by_cases hfresh : p.fresh = true
  · rw [next, if_pos hfresh] at h
    exact nomatch h
  · have hnext : p.next = p.advance := if_neg hfresh
    rw [hnext] at h ⊢
    obtain ⟨hcursor, hkept⟩ := le_cursor_of_advance h
    rw [next, if_neg (by rwa [hkept]), advance, dif_neg (Nat.not_lt.2 hcursor)]

end Permutations

end PerfectMatching
