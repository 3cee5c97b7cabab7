import Mathlib.Data.List.Permutation
import Mathlib.GroupTheory.Perm.List
import PerfectMatching.Permutations
import PerfectMatching.Proofs.Perfect

/-!
# Heap's order is complete

While the counters below place `k` run through all their values, the exchanges made amount to `turn k`, whatever stood in the
places before; the whole run for place `k` is such a run for each digit of its counter, with one exchange in between. So the
enumeration passes what stands in the places times each of `arrangements n` (`visits_arrangements`). That these are all
permutations rests on what a turn is (`turn_eq`): an exchange of the first and the last place if the number of
places is odd, a single cycle through all of them if it is even. Either way the runs for the digits of a counter begin with
different numbers in its place, each number once (`exists_entry_eq`). Hence `mem_all`, and since there are as many
arrangements as permutations, calls for the next permutation are answered by each of them once and then no more
(`answers_ofSize`): the call after the last of them leaves the cursor behind all places (`next_of_next_eq_none`).
-/

namespace PerfectMatching

namespace Permutations

open Equiv

/-! ## Runs of the enumeration -/

/-- From `p` to `q` the enumeration stands at the permutations of the list, one after the other. -/
inductive Visits {n : ℕ} : Permutations n → List (List ℕ) → Permutations n → Prop where
  | here (p : Permutations n) : Visits p [p.current.toList] p
  | step {p q r : Permutations n} {l : List (List ℕ)} :
      p.next = (some q.current.toList, q) → Visits q l r → Visits p (p.current.toList :: l) r

/-- Two runs with one step in between. -/
theorem Visits.append {n : ℕ} {p q r s : Permutations n} {l l' : List (List ℕ)} (h : Visits p l q)
    (hnext : q.next = (some r.current.toList, r)) (h' : Visits r l' s) : Visits p (l ++ l') s := by
  induction h with
  | here q => exact .step hnext h'
  | step hfirst _ ih => exact .step hfirst (ih hnext)

/-- A run that ends where the enumeration ends is what is still to come. -/
theorem Visits.take_eq {n : ℕ} {p q : Permutations n} {l : List (List ℕ)} (h : Visits p l q) (hend : q.next.1 = none) (count : ℕ)
    (hcount : l.length ≤ count + 1) : p.current.toList :: take count p = l := by
  induction h generalizing count with
  | here p =>
    obtain ⟨q, hq⟩ : ∃ q, p.next = (none, q) := ⟨p.next.2, Prod.ext hend rfl⟩
    cases count <;> simp [take, hq]
  | @step p q r l hnext _ ih =>
    cases count with
    | zero =>
      rename_i hrest
      cases hrest <;> simp at hcount
    | succ count =>
      rw [take, hnext]
      exact congrArg (p.current.toList :: ·) (ih hend count (by simpa using hcount))

/-! ## Counting up -/

/-- What a function says of each of `n` places. -/
def places (n : ℕ) (f : ℕ → ℕ) : Vector ℕ n := (Vector.range n).map f

/-- What is said of a place. -/
theorem getElem_places {n i : ℕ} (f : ℕ → ℕ) (h : i < n) : (places n f)[i] = f i := by simp [places]

/-- Only what is said of the places below `n` counts. -/
theorem places_congr {n : ℕ} {f g : ℕ → ℕ} (h : ∀ i < n, f i = g i) : places n f = places n g := by
  refine Vector.ext fun i hi => ?_
  rw [getElem_places, getElem_places, h i hi]

/-- Something else is said of one place. -/
theorem set_places {n i : ℕ} (f : ℕ → ℕ) (h : i < n) (x : ℕ) : (places n f).set i x = places n (Function.update f i x) := by
  refine Vector.ext fun j hj => ?_
  rw [Vector.getElem_set, getElem_places, getElem_places, Function.update_apply]
  simp only [eq_comm]

/-- The counters while they are counted up: those before the cursor are zero again, those from there to place `k` are at their
end. -/
def digits (cursor k : ℕ) (c : ℕ → ℕ) (i : ℕ) : ℕ := if i < cursor then 0 else if i < k then i else c i

/-- Place zero is passed without a look at its counter. -/
theorem digits_one {n k : ℕ} {c : ℕ → ℕ} (hk : 0 < k) : places n (digits 0 k c) = places n (digits 1 k c) := by
  refine places_congr fun i _ => ?_
  unfold digits
  split_ifs <;> omega

/-- A counter at its end is set to zero, and the cursor moves on. -/
theorem advance_digits_of_lt {n j k : ℕ} (current : Vector ℕ n) (c : ℕ → ℕ) (hj : j < n) (hjk : j < k) :
    advance ⟨current, places n (digits j k c), j, false⟩ = advance ⟨current, places n (digits (j + 1) k c), j + 1, false⟩ := by
  have hdigit : (places n (digits j k c))[j] = j := by simp [getElem_places, digits, hjk]
  have hset : (places n (digits j k c)).set j 0 = places n (digits (j + 1) k c) := by
    rw [set_places]
    refine places_congr fun i _ => ?_
    simp only [digits, Function.update_apply]
    split_ifs <;> omega
  rw [advance, dif_pos hj, dif_neg (by rw [hdigit]; exact lt_irrefl j), hset]

/-- Counting up passes the counters that are at their end and stops at the first one that is not. -/
theorem advance_digits {n j k : ℕ} (current : Vector ℕ n) (c : ℕ → ℕ) (hjk : j ≤ k) (hk : k ≤ n) :
    advance ⟨current, places n (digits j k c), j, false⟩ = advance ⟨current, places n (digits k k c), k, false⟩ := by
  induction hjk using Nat.decreasingInduction with
  | self => rfl
  | of_succ j hlt ih => rw [advance_digits_of_lt current c (by omega) hlt, ih]

/-! ## What the exchanges amount to -/

/-- The exchange that is made when the counter of place `k` goes up from `digit`. -/
def exchange (k digit : ℕ) : Perm ℕ := swap (if k % 2 = 0 then 0 else digit) k

/-- What the exchanges amount to when the counter of place `k` has come to a digit, given what a turn of the places below is. -/
def entry (below : Perm ℕ) (k : ℕ) : ℕ → Perm ℕ
  | 0 => 1
  | digit + 1 => entry below k digit * below * exchange k digit

/-- What the exchanges amount to while the counters below place `k` run through all their values. -/
def turn : ℕ → Perm ℕ
  | 0 => 1
  | k + 1 => entry (turn k) k k * turn k

/-- What the exchanges amount to at each value of the counters below place `k`. -/
def arrangements : ℕ → List (Perm ℕ)
  | 0 => [1]
  | k + 1 => (List.range (k + 1)).flatMap fun digit => (arrangements k).map (entry (turn k) k digit * ·)

/-- The numbers below `n` in the order that a permutation puts them. -/
def listing (n : ℕ) (π : Perm ℕ) : Vector ℕ n := places n π

/-- A run has as many arrangements as there are permutations. -/
theorem length_arrangements (k : ℕ) : (arrangements k).length = factorial k := by
  induction k with
  | zero => rfl
  | succ k ih => simp [arrangements, factorial, List.length_flatMap, ih]

/-- Exchanging two places composes with the exchange. -/
theorem listing_swap (π : Perm ℕ) {n i j : ℕ} (hi : i < n) (hj : j < n) :
    (listing n π).swap i j = listing n (π * swap i j) := by
  refine Vector.ext fun k hk => ?_
  rw [Vector.getElem_swap]
  simp only [listing, getElem_places, Perm.mul_apply, swap_apply_def]
  split_ifs <;> rfl

/-- The step from one digit of place `k` to the next. -/
theorem next_listing {n k : ℕ} (π : Perm ℕ) (c : ℕ → ℕ) (hk : k < n) (hdigit : c k < k) :
    next ⟨listing n π, places n (digits 0 k c), 1, false⟩ =
      (some (listing n (π * exchange k (c k))).toList,
        ⟨listing n (π * exchange k (c k)), places n (digits k k (Function.update c k (c k + 1))), 1, false⟩) := by
  have hcounter : (places n (digits k k c))[k] = c k := by simp [getElem_places, digits]
  have hset : (places n (digits k k c)).set k (c k + 1) = places n (digits k k (Function.update c k (c k + 1))) := by
    rw [set_places]
    refine places_congr fun i _ => ?_
    simp only [digits, Function.update_apply]
    split_ifs <;> omega
  have hother : (if k % 2 = 0 then 0 else c k) < n := by split <;> omega
  rw [next, if_neg Bool.false_ne_true, digits_one (by omega), advance_digits _ c (by omega) hk.le, advance, dif_pos hk]
  simp only [hcounter, dif_pos hdigit, hset, listing_swap π hother hk, exchange]

/-- A run through the digits of place `k` up to some digit, given a run through all values of the counters below place `k`. -/
theorem visits_digits {n k : ℕ} (hk : k < n)
    (hrun : ∀ (π : Perm ℕ) (c : ℕ → ℕ), Visits ⟨listing n π, places n (digits k k c), 1, false⟩
      ((arrangements k).map fun x => (listing n (π * x)).toList) ⟨listing n (π * turn k), places n (digits 0 k c), 1, false⟩)
    (π : Perm ℕ) (c : ℕ → ℕ) {digit : ℕ} (hdigit : digit ≤ k) :
    Visits ⟨listing n π, places n (digits k k (Function.update c k 0)), 1, false⟩
      (((List.range (digit + 1)).flatMap fun d => (arrangements k).map (entry (turn k) k d * ·)).map fun x => (listing n (π * x)).toList)
      ⟨listing n (π * entry (turn k) k digit * turn k), places n (digits 0 k (Function.update c k digit)), 1, false⟩ := by
  induction digit with
  | zero => simpa [entry] using hrun π (Function.update c k 0)
  | succ digit ih =>
    have hblock := hrun (π * entry (turn k) k (digit + 1)) (Function.update c k (digit + 1))
    have hnext := next_listing (π * entry (turn k) k digit * turn k) (Function.update c k digit) hk
      (by rw [Function.update_self]; exact hdigit)
    have hentry : π * entry (turn k) k digit * turn k * exchange k digit = π * entry (turn k) k (digit + 1) := by
      simp only [entry, mul_assoc]
    rw [Function.update_self, Function.update_idem, hentry] at hnext
    have := (ih (Nat.le_of_succ_le hdigit)).append hnext hblock
    rw [List.range_succ, List.flatMap_append, List.map_append]
    simpa [Function.comp_def, mul_assoc] using this

/-- A run through all values of the counters below place `k`. -/
theorem visits_arrangements {n k : ℕ} (hk : k ≤ n) (π : Perm ℕ) (c : ℕ → ℕ) :
    Visits ⟨listing n π, places n (digits k k c), 1, false⟩ ((arrangements k).map fun x => (listing n (π * x)).toList)
      ⟨listing n (π * turn k), places n (digits 0 k c), 1, false⟩ := by
  induction k generalizing π c with
  | zero => simpa [arrangements, turn] using Visits.here ⟨listing n π, places n (digits 0 0 c), 1, false⟩
  | succ k ih =>
    have hzero : digits (k + 1) (k + 1) c = digits k k (Function.update c k 0) := by
      funext i
      simp only [digits, Function.update_apply]
      split_ifs <;> omega
    have hlast : digits 0 k (Function.update c k k) = digits 0 (k + 1) c := by
      funext i
      simp only [digits, Function.update_apply]
      split_ifs <;> omega
    rw [hzero, ← hlast]
    simpa [arrangements, turn, List.range_succ, mul_assoc] using visits_digits hk (ih (Nat.le_of_succ_le hk)) π c le_rfl

/-- There is a permutation of any number of things. -/
theorem factorial_pos (n : ℕ) : 0 < factorial n := by
  induction n with
  | zero => decide
  | succ n ih => exact Nat.mul_pos n.succ_pos ih

/-- When every counter is at its end, a call finds nothing. -/
theorem next_of_digits (n : ℕ) (current : Vector ℕ n) (c : ℕ → ℕ) :
    (next ⟨current, places n (digits 0 n c), 1, false⟩).1 = none := by
  rw [next, if_neg Bool.false_ne_true]
  rcases n.eq_zero_or_pos with rfl | hn
  · rw [advance, dif_neg (Nat.not_lt_zero 1)]
  · rw [digits_one hn, advance_digits current c hn le_rfl, advance, dif_neg (lt_irrefl n)]

/-- So many calls for the next permutation that the enumeration comes to its end pass the arrangements of all places. -/
theorem take_ofSize {n count : ℕ} (h : factorial n ≤ count) :
    take count (ofSize n) = (arrangements n).map fun π => (listing n π).toList := by
  have hvisits := visits_arrangements (le_refl n) 1 fun _ => 0
  simp only [one_mul] at hvisits
  obtain ⟨count, rfl⟩ := Nat.exists_eq_succ_of_ne_zero ((factorial_pos n).trans_le h).ne'
  have htake := hvisits.take_eq (next_of_digits n _ _) count (by rwa [List.length_map, length_arrangements])
  have hcurrent : listing n 1 = .range n := Vector.ext fun i hi => by simp [listing, getElem_places]
  have hcounters : places n (digits n n fun _ => 0) = .replicate n 0 :=
    Vector.ext fun i hi => by simp [getElem_places, digits, hi]
  rw [hcurrent, hcounters] at htake
  exact htake

/-- The enumeration passes the arrangements of all places. -/
theorem all_eq (n : ℕ) : all n = (arrangements n).map fun π => (listing n π).toList :=
  take_ofSize (by simp [remaining, ofSize])

/-! ## What a turn is -/

/-- Renaming the numbers of a cycle conjugates it. -/
theorem formPerm_map_perm (τ : Perm ℕ) (l : List ℕ) : (l.map τ).formPerm = τ * l.formPerm * τ⁻¹ := by
  induction l with
  | nil => simp
  | cons x l ih =>
    cases l with
    | nil => simp
    | cons y l =>
      simp only [List.map_cons, List.formPerm_cons_cons] at ih ⊢
      rw [ih, swap_apply_apply]
      simp only [mul_assoc, inv_mul_cancel_left]

/-- A number is put into a cycle behind its first one by an exchange with it, made beforehand. -/
theorem formPerm_cons_cons_eq {x z : ℕ} {l : List ℕ} (hx : x ∉ l) (hz : z ∉ l) :
    (x :: z :: l).formPerm = (x :: l).formPerm * swap x z := by
  cases l with
  | nil => simp
  | cons y l =>
    have hfix : ∀ i ∉ y :: l, (y :: l).formPerm i = i := fun i hi => List.formPerm_apply_of_notMem hi
    rw [List.formPerm_cons_cons, List.formPerm_cons_cons, List.formPerm_cons_cons, mul_assoc (swap x y),
      mul_swap_eq_swap_mul, hfix x hx, hfix z hz, ← mul_assoc, ← mul_assoc]
    congr 1
    have hyx : y ≠ x := fun h => hx (h ▸ List.mem_cons_self)
    have hyz : y ≠ z := fun h => hz (h ▸ List.mem_cons_self)
    rw [mul_swap_eq_swap_mul (swap x z), swap_apply_right, swap_apply_of_ne_of_ne hyx hyz]

/-- A cycle with the number `k` in front and all smaller ones below `digit` behind it, going down. -/
def fan (k digit : ℕ) : Perm ℕ := (k :: (List.range digit).reverse).formPerm

/-- A fan with one more number. -/
theorem fan_succ {k digit : ℕ} (h : digit < k) : fan k (digit + 1) = fan k digit * swap digit k := by
  rw [fan, List.range_succ, List.reverse_append, List.reverse_singleton, List.singleton_append,
    formPerm_cons_cons_eq (by simp; omega) (by simp), swap_comm]
  rfl

/-- An odd number of places, exchanged at their ends `digit` times: the number `digit` stays where it is. -/
theorem swap_pow_apply_self {k digit : ℕ} (hk : k % 2 = 1) (h : digit < k) : (swap 0 (k - 1) ^ digit) digit = digit := by
  by_cases hends : digit ≠ 0 ∧ digit ≠ k - 1
  · exact Perm.pow_apply_eq_self_of_apply_eq_self (swap_apply_of_ne_of_ne hends.1 hends.2) digit
  · obtain ⟨half, rfl⟩ : ∃ half, digit = 2 * half := ⟨digit / 2, by omega⟩
    rw [pow_mul, pow_two, swap_mul_self, one_pow, Perm.one_apply]

/-- The place behind the exchanged ones stays as it is. -/
theorem swap_pow_apply_of_pos {k : ℕ} (hk : k % 2 = 1) (count : ℕ) : (swap 0 (k - 1) ^ count) k = k :=
  Perm.pow_apply_eq_self_of_apply_eq_self (swap_apply_of_ne_of_ne (by omega) (by omega)) count

/-- If `k` is odd and a turn of the places below it exchanges the first and the last of them, what stands in the places after
the turn for a digit is a fan between turns. -/
theorem entry_mul_swap {k : ℕ} (hk : k % 2 = 1) {digit : ℕ} (h : digit ≤ k) :
    entry (swap 0 (k - 1)) k digit * swap 0 (k - 1) = swap 0 (k - 1) * fan k digit * swap 0 (k - 1) ^ digit := by
  induction digit with
  | zero => simp [entry, fan]
  | succ digit ih =>
    have hcomm : swap 0 (k - 1) ^ digit * swap digit k = swap digit k * swap 0 (k - 1) ^ digit := by
      rw [mul_swap_eq_swap_mul, swap_pow_apply_self hk h, swap_pow_apply_of_pos hk]
    have hexchange : exchange k digit = swap digit k := by simp [exchange, hk]
    calc entry (swap 0 (k - 1)) k (digit + 1) * swap 0 (k - 1)
        = entry (swap 0 (k - 1)) k digit * swap 0 (k - 1) * swap digit k * swap 0 (k - 1) := by rw [entry, hexchange]
      _ = swap 0 (k - 1) * fan k digit * (swap 0 (k - 1) ^ digit * swap digit k) * swap 0 (k - 1) := by
        rw [ih (Nat.le_of_succ_le h), mul_assoc _ (_ ^ digit)]
      _ = swap 0 (k - 1) * fan k (digit + 1) * swap 0 (k - 1) ^ (digit + 1) := by
        rw [hcomm, fan_succ h, pow_succ]
        simp only [mul_assoc]

/-- With an odd number of places below `k`, the run for the next digit begins with the number that a turn puts there. -/
theorem entry_apply_odd {k : ℕ} (hk : k % 2 = 1) {digit : ℕ} (h : digit < k) :
    entry (swap 0 (k - 1)) k (digit + 1) k = swap 0 (k - 1) digit := by
  have hexchange : exchange k digit = swap digit k := by simp [exchange, hk]
  have hfan : fan k digit digit = digit := List.formPerm_apply_of_notMem (by simp; omega)
  rw [entry, entry_mul_swap hk h.le, hexchange]
  simp only [Perm.mul_apply, swap_apply_right, swap_pow_apply_self hk h, hfan]

/-- With an even number of places below `k`, the digits are the powers of a turn followed by the one exchange that is made. -/
theorem entry_even {k : ℕ} (hk : k % 2 = 0) (below : Perm ℕ) (digit : ℕ) : entry below k digit = (below * swap 0 k) ^ digit := by
  have hexchange : ∀ digit, exchange k digit = swap 0 k := fun digit => by simp [exchange, hk]
  induction digit with
  | zero => rfl
  | succ digit ih => rw [entry, ih, hexchange, pow_succ, mul_assoc]

/-- A cycle through the places below `k`, not none of them, and the exchange of place `k` with the first one are a cycle through
one place more. -/
theorem exists_cycle_mul_swap {k : ℕ} (hk : 0 < k) {l : List ℕ} (hl : l.Perm (List.range k)) :
    ∃ rest : List ℕ, (0 :: k :: rest).Perm (List.range (k + 1)) ∧ l.formPerm * swap 0 k = (0 :: k :: rest).formPerm := by
  have hnodup : l.Nodup := hl.nodup_iff.2 List.nodup_range
  obtain ⟨front, rest, rfl⟩ := List.append_of_mem (hl.mem_iff.2 (List.mem_range.2 hk))
  have hrotated : (front ++ 0 :: rest) ~r (0 :: (rest ++ front)) := List.isRotated_append
  have hperm : (0 :: (rest ++ front)).Perm (List.range k) := hrotated.perm.symm.trans hl
  have hlt : ∀ i ∈ rest ++ front, i < k := fun i hi => List.mem_range.1 (hperm.mem_iff.1 (List.mem_cons_of_mem _ hi))
  refine ⟨rest ++ front, ?_, ?_⟩
  · rw [List.range_succ]
    exact (List.Perm.swap k 0 _).trans ((hperm.cons k).trans (List.perm_append_singleton k _).symm)
  · rw [List.formPerm_eq_of_isRotated hnodup hrotated, formPerm_cons_cons_eq _ fun hi => (hlt k hi).false]
    exact (List.nodup_cons.1 (hperm.nodup_iff.2 List.nodup_range)).1

/-- A permutation that moves only numbers below `n` takes these to one another. -/
theorem apply_lt_iff {π : Perm ℕ} {n : ℕ} (h : ∀ i, n ≤ i → π i = i) (i : ℕ) : π i < n ↔ i < n := by
  refine ⟨fun hlt => ?_, fun hlt => ?_⟩ <;> by_contra hle
  · exact hle (h i (not_lt.1 hle) ▸ hlt)
  · exact hle ((π.injective (h (π i) (not_lt.1 hle))).trans_lt hlt)

/-- A permutation that moves only numbers below `n` lists them in another order. -/
theorem map_range_perm {π : Perm ℕ} {n : ℕ} (h : ∀ i, n ≤ i → π i = i) : ((List.range n).map π).Perm (List.range n) := by
  refine (List.perm_ext_iff_of_nodup (List.nodup_range.map π.injective) List.nodup_range).2 fun j => ?_
  rw [List.mem_map, List.mem_range]
  refine ⟨fun ⟨i, hi, hj⟩ => hj ▸ (apply_lt_iff h i).2 (List.mem_range.1 hi), fun hj => ?_⟩
  refine ⟨π.symm j, List.mem_range.2 ((apply_lt_iff h _).1 ?_), π.apply_symm_apply j⟩
  rwa [π.apply_symm_apply]

/-- A turn of an odd number of places exchanges the first and the last one, a turn of an even number is a cycle through all
of them. -/
theorem turn_eq (k : ℕ) : (k % 2 = 1 → turn k = swap 0 (k - 1)) ∧
    (k % 2 = 0 → ∃ l : List ℕ, l.Perm (List.range k) ∧ turn k = l.formPerm) := by
  induction k with
  | zero => exact ⟨fun h => (by omega), fun _ => ⟨[], List.Perm.refl _, rfl⟩⟩
  | succ k ih =>
    obtain ⟨ihOdd, ihEven⟩ := ih
    refine ⟨fun hodd => ?_, fun heven => ?_⟩
    · have hk : k % 2 = 0 := by omega
      obtain ⟨l, hl, hturn⟩ := ihEven hk
      have hmul : turn (k + 1) = (turn k * swap 0 k) ^ (k + 1) * swap 0 k := by
        rw [turn, entry_even hk, pow_succ, mul_assoc, mul_assoc, swap_mul_self, mul_one]
      rcases k.eq_zero_or_pos with rfl | hpos
      · exact (swap_self 0).symm
      · obtain ⟨rest, hperm, hcycle⟩ := exists_cycle_mul_swap hpos hl
        have hlength : (0 :: k :: rest).length = k + 1 := by rw [hperm.length_eq, List.length_range]
        have hpow := List.formPerm_pow_length_eq_one_of_nodup _ (hperm.nodup_iff.2 List.nodup_range)
        rw [hlength] at hpow
        rw [hmul, hturn, hcycle, hpow, one_mul, Nat.add_sub_cancel]
    · have hk : k % 2 = 1 := by omega
      have hpow : swap 0 (k - 1) ^ k = swap 0 (k - 1) := by
        obtain ⟨half, rfl⟩ : ∃ half, k = 2 * half + 1 := ⟨k / 2, by omega⟩
        rw [pow_succ, pow_mul, pow_two, swap_mul_self, one_pow, one_mul]
      refine ⟨(k :: (List.range k).reverse).map (swap 0 (k - 1)), ?_, ?_⟩
      · refine (((List.reverse_perm _).cons k).map _).trans ?_
        refine (((List.perm_append_singleton k _).symm.map _).trans ?_)
        rw [← List.range_succ]
        exact map_range_perm fun i hi => swap_apply_of_ne_of_ne (by omega) (by omega)
      · rw [turn, ihOdd hk, entry_mul_swap hk le_rfl, formPerm_map_perm, swap_inv, hpow]
        rfl

/-- Every number up to `k` stands in place `k` at the beginning of the run for some digit. -/
theorem exists_entry_eq {k j : ℕ} (hj : j ≤ k) : ∃ digit ≤ k, entry (turn k) k digit k = j := by
  rcases Nat.mod_two_eq_zero_or_one k with hk | hk
  · obtain ⟨l, hl, hturn⟩ := (turn_eq k).2 hk
    rcases k.eq_zero_or_pos with rfl | hpos
    · exact ⟨0, le_rfl, (Nat.le_zero.1 hj).symm⟩
    · obtain ⟨rest, hperm, hcycle⟩ := exists_cycle_mul_swap hpos hl
      have hlength : (0 :: k :: rest).length = k + 1 := by rw [hperm.length_eq, List.length_range]
      obtain ⟨i, hi, rfl⟩ := List.getElem_of_mem (hperm.mem_iff.2 (List.mem_range.2 (Nat.lt_succ_of_le hj)))
      rw [hlength] at hi
      refine ⟨(i + k) % (k + 1), Nat.le_of_lt_succ (Nat.mod_lt _ k.succ_pos), ?_⟩
      have happly := List.formPerm_pow_apply_getElem _ (hperm.nodup_iff.2 List.nodup_range) ((i + k) % (k + 1)) 1 (by simp)
      rw [entry_even hk, hturn, hcycle]
      refine happly.trans ?_
      congr 1
      rw [hlength, Nat.add_mod_mod, show 1 + (i + k) = i + (k + 1) by omega, Nat.add_mod_right, Nat.mod_eq_of_lt hi]
  · rw [(turn_eq k).1 hk]
    rcases hj.lt_or_eq with hlt | rfl
    · have hswap : swap 0 (k - 1) j < k := by
        rw [swap_apply_def]
        split_ifs <;> omega
      exact ⟨swap 0 (k - 1) j + 1, hswap, (entry_apply_odd hk hswap).trans (swap_apply_self _ _ _)⟩
    · exact ⟨0, j.zero_le, rfl⟩

/-! ## Completeness -/

/-- The exchanges for place `k` leave the places behind it alone. -/
theorem entry_apply_of_lt {k i : ℕ} {below : Perm ℕ} (hbelow : below i = i) (hi : k < i) (digit : ℕ) (hdigit : digit ≤ k) :
    entry below k digit i = i := by
  induction digit with
  | zero => rfl
  | succ digit ih =>
    have hexchange : exchange k digit i = i := swap_apply_of_ne_of_ne (by split <;> omega) hi.ne'
    simp only [entry, Perm.mul_apply, hexchange, hbelow, ih (Nat.le_of_succ_le hdigit)]

/-- A turn of the places below `k` exchanges only these. -/
theorem turn_apply_of_le {k i : ℕ} (hi : k ≤ i) : turn k i = i := by
  induction k with
  | zero => rfl
  | succ k ih =>
    have hturn := ih (Nat.le_of_succ_le hi)
    rw [turn, Perm.mul_apply, hturn, entry_apply_of_lt hturn hi k le_rfl]

/-- The arrangements of the places below `k` are the permutations of these. -/
theorem mem_arrangements_iff {k : ℕ} {π : Perm ℕ} : π ∈ arrangements k ↔ ∀ i, k ≤ i → π i = i := by
  induction k generalizing π with
  | zero => simp [arrangements, Perm.ext_iff]
  | succ k ih =>
    have hentry : ∀ digit ≤ k, ∀ i, k < i → entry (turn k) k digit i = i := fun digit hdigit i hi =>
      entry_apply_of_lt (turn_apply_of_le hi.le) hi digit hdigit
    simp only [arrangements, List.mem_flatMap, List.mem_range, Nat.lt_succ_iff, List.mem_map]
    refine ⟨fun ⟨digit, hdigit, x, hx, hπ⟩ i hi => ?_, fun h => ?_⟩
    · rw [← hπ, Perm.mul_apply, ih.1 hx i (Nat.le_of_succ_le hi), hentry digit hdigit i hi]
    · obtain ⟨digit, hdigit, hplace⟩ := exists_entry_eq (Nat.le_of_lt_succ ((apply_lt_iff h k).2 k.lt_succ_self))
      refine ⟨digit, hdigit, (entry (turn k) k digit)⁻¹ * π, ih.2 fun i hi => ?_, mul_inv_cancel_left _ _⟩
      rw [Perm.mul_apply, Perm.inv_eq_iff_eq]
      rcases hi.eq_or_lt with rfl | hlt
      · exact hplace.symm
      · rw [h i hlt, hentry digit hdigit i hlt]

/-- The enumeration passes the permutations and nothing else. -/
theorem mem_all {n : ℕ} {columns : List ℕ} : columns ∈ all n ↔ columns.Perm (List.range n) := by
  have hlisting : ∀ π : Perm ℕ, (listing n π).toList = (List.range n).map π := fun π => by
    rw [listing, places, Vector.toList_map, Vector.toList_range]
  simp only [all_eq, List.mem_map, mem_arrangements_iff, hlisting]
  refine ⟨fun ⟨π, hπ, hcolumns⟩ => hcolumns ▸ map_range_perm hπ, fun h => ?_⟩
  obtain ⟨e, rfl⟩ := exists_columnsOf_eq h
  refine ⟨e.extendDomain Fin.equivSubtype, fun i hi => Perm.extendDomain_apply_not_subtype _ _ hi.not_gt, ?_⟩
  rw [← List.map_coe_finRange_eq_range, List.map_map, columnsOf]
  exact List.map_congr_left fun i _ => Perm.extendDomain_apply_image e Fin.equivSubtype i

/-! ## Calls for the next permutation -/

/-- The number of permutations of `n` things, as the library has it. -/
theorem factorial_eq (n : ℕ) : factorial n = n.factorial := by
  induction n with
  | zero => rfl
  | succ n ih => rw [factorial, ih, Nat.factorial_succ]

/-- As many permutations are passed as there are. -/
theorem length_all (n : ℕ) : (all n).length = n.factorial := by
  rw [all_eq, List.length_map, length_arrangements, factorial_eq]

/-- The identity is passed first. -/
theorem head?_all (n : ℕ) : (all n).head? = some (List.range n) := by
  obtain ⟨count, hcount⟩ := Nat.exists_eq_succ_of_ne_zero (factorial_pos n).ne'
  have hremaining : (ofSize n).remaining = count + 1 := by simp [remaining, ofSize, hcount]
  rw [all, hremaining]
  simp [take, next, ofSize, Vector.toList_range]

/-- No permutation is passed twice: all of them are passed, and there are no more of them than are passed. -/
theorem nodup_all (n : ℕ) : (all n).Nodup := by
  have hdistinct : (List.range n).permutations.Nodup := List.nodup_permutations _ List.nodup_range
  have hpassed : (List.range n).permutations ⊆ all n := fun columns h => mem_all.2 (List.mem_permutations.1 h)
  have hlength : (all n).length ≤ (List.range n).permutations.length := by
    rw [length_all, List.length_permutations, List.length_range]
  exact ((hdistinct.subperm hpassed).perm_of_length_le hlength).nodup_iff.1 hdistinct

/-- Where a call is without an answer and changes nothing, so are all further calls. -/
theorem answers_of_next_eq {n : ℕ} {p : Permutations n} (h : p.next = (none, p)) (count : ℕ) :
    answers count p = List.replicate count none := by
  induction count with
  | zero => rfl
  | succ count ih => rw [answers, h, ih, List.replicate_succ]

/-- Calls are answered by the permutations still to come, as far as there are so many, and those after the last one are left without
an answer. -/
theorem answers_eq_take {n : ℕ} (count : ℕ) (p : Permutations n) :
    answers count p = (take count p).map some ++ List.replicate (count - (take count p).length) none := by
  induction count generalizing p with
  | zero => rfl
  | succ count ih =>
    obtain ⟨⟨_ | permutation, q⟩, hnext⟩ : ∃ r, p.next = r := ⟨_, rfl⟩
    · have hend : q.next = (none, q) := by
        have := next_of_next_eq_none (p := p) (by rw [hnext])
        rwa [hnext] at this
      simp [answers, take, hnext, answers_of_next_eq hend, List.replicate_succ]
    · simp [answers, take, hnext, ih]

/-- The enumeration for `n` things answers exactly `n!` calls, the first one with the identity, each with a permutation of
`0, …, n - 1`, no two with the same one, so that every permutation is an answer; all later calls are left without an answer. -/
theorem answers_ofSize (n later : ℕ) :
    answers (n.factorial + later) (ofSize n) = (all n).map some ++ List.replicate later none ∧
      (all n).length = n.factorial ∧ (all n).head? = some (List.range n) ∧ (all n).Nodup ∧
      ∀ columns, columns ∈ all n ↔ columns.Perm (List.range n) := by
  have htake : take (n.factorial + later) (ofSize n) = all n := by
    rw [all_eq, take_ofSize (by simp [factorial_eq])]
  refine ⟨?_, length_all n, head?_all n, nodup_all n, fun columns => mem_all⟩
  rw [answers_eq_take, htake, length_all, Nat.add_sub_cancel_left]

example : answers 8 (ofSize 3) =
    [some [0, 1, 2], some [1, 0, 2], some [2, 0, 1], some [0, 2, 1], some [1, 2, 0], some [2, 1, 0], none, none] := by decide +kernel

end Permutations

end PerfectMatching
