import PerfectMatching.PrimalDual.Tight
import PerfectMatching.Proofs.Scalar.Lawful
import PerfectMatching.Proofs.Search.Steps

/-!
# The trees

What the bookkeeping of a search maintains whatever the numbers are: the mates agree, every row that has been reached hangs in
a tree (`Rooted`), and every tight column is still to be visited or matched to a row that has been reached (`Grown`). Labels
of tight columns never change, which is what keeps the trees from falling apart. Main statements: the labels lead back along
paths that meet no node twice (`Traced.nodup`), a step of a search and a dual update keep the trees (`Step.grown`,
`Grown.update`), and a search starts with them (`Fresh.grown`).
-/

namespace PerfectMatching.PrimalDual.State

variable {α : Type} {n : ℕ} {work : Table α n} {s t : State α n} {i j : Fin n}

/-- The row has been reached. -/
def Reached (s : State α n) (i : Fin n) : Prop := s.rowLabel.get i ≠ .unreached

/-- The labels lead from the row to a root in so many steps. -/
inductive Rooted (s : State α n) : ℕ → Fin n → Prop where
  | root {i : Fin n} : s.rowLabel.get i = .root → Rooted s 0 i
  | child {k : ℕ} {a i j : Fin n} : Rooted s k a → s.rowLabel.get i = .via j → s.colLabel.get j = some a → Rooted s (k + 1) i

/-- The label of a row says whether it has been reached. -/
theorem isReached_iff : (s.rowLabel.get i).isReached = true ↔ s.Reached i := by
  unfold Reached
  cases s.rowLabel.get i <;> simp [Label.isReached]

/-! ## Depth -/

/-- A row hangs at one depth only. -/
theorem Rooted.depth_unique {k l : ℕ} (h : Rooted s k i) (h' : Rooted s l i) : k = l := by
  induction h generalizing l with
  | root hroot =>
    cases h' with
    | root _ => rfl
    | child _ hvia _ =>
      rw [hroot] at hvia
      exact nomatch hvia
  | child _ hvia hlabel ih =>
    cases h' with
    | root hroot =>
      rw [hroot] at hvia
      exact nomatch hvia
    | child h' hvia' hlabel' =>
      obtain rfl : _ = _ := Label.via.inj (hvia.symm.trans hvia')
      obtain rfl : _ = _ := Option.some.inj (hlabel.symm.trans hlabel')
      rw [ih h']

/-- Above a row that hangs at some depth there is a row at every smaller depth. -/
theorem Rooted.exists_of_le {k l : ℕ} (h : Rooted s k i) (hl : l ≤ k) : ∃ a, Rooted s l a := by
  induction h with
  | root hroot =>
    rw [Nat.le_zero.1 hl]
    exact ⟨_, .root hroot⟩
  | child ha hvia hlabel ih =>
    rcases hl.lt_or_eq with hlt | rfl
    · exact ih (Nat.lt_succ_iff.1 hlt)
    · exact ⟨_, ha.child hvia hlabel⟩

/-- The depth of a row is less than the number of rows. -/
theorem Rooted.depth_lt {k : ℕ} (h : Rooted s k i) : k < n := by
  have hex : ∀ l : Fin (k + 1), ∃ a, Rooted s l a := fun l => h.exists_of_le (Nat.lt_succ_iff.1 l.isLt)
  choose row hrow using hex
  have hinj : Function.Injective row := by
    intro l l' heq
    have := hrow l
    rw [heq] at this
    exact Fin.ext (this.depth_unique (hrow l'))
  have := Fintype.card_le_of_injective row hinj
  rwa [Fintype.card_fin, Fintype.card_fin] at this

/-- A row keeps its place if the labels of the rows reached and of the columns they are reached through stay. -/
theorem Rooted.mono {k : ℕ} (h : Rooted s k i) (hrow : ∀ a, s.Reached a → t.rowLabel.get a = s.rowLabel.get a)
    (hcol : ∀ a b, s.rowLabel.get a = .via b → t.colLabel.get b = s.colLabel.get b) : Rooted t k i := by
  induction h with
  | root hroot =>
    refine .root ((hrow _ ?_).trans hroot)
    rw [Reached, hroot]
    exact nofun
  | child _ hvia hlabel ih =>
    refine .child ih ((hrow _ ?_).trans hvia) ((hcol _ _ hvia).trans hlabel)
    rw [Reached, hvia]
    exact nofun

/-! ## Paths -/

/-- The labels lead from column `j` back to the root `root`, along edges of which the last one comes first: from a column to the row
that labels it, and from a row to the column that it has been reached through. -/
inductive Traced (s : State α n) (root : Fin n) : Fin n → List (Fin n × Fin n) → Prop where
  | root {j : Fin n} : s.colLabel.get j = some root → s.rowLabel.get root = .root → Traced s root j [(root, j)]
  | via {i j k : Fin n} {path : List (Fin n × Fin n)} : Traced s root k path → s.colLabel.get j = some i →
      s.rowLabel.get i = .via k → Traced s root j ((i, j) :: path)

section Paths

variable {root : Fin n} {path : List (Fin n × Fin n)}

/-- Only the labels matter to the paths that they lead along. -/
theorem Traced.of_labels (h : Traced s root j path) (hrow : t.rowLabel = s.rowLabel) (hcol : t.colLabel = s.colLabel) :
    Traced t root j path := by
  induction h with
  | root hlabel hroot => exact .root (by rw [hcol, hlabel]) (by rw [hrow, hroot])
  | via _ hlabel hvia ih => exact ih.via (by rw [hcol, hlabel]) (by rw [hrow, hvia])

/-- The edges of a path lead from rows to columns that these label. -/
theorem Traced.label (h : Traced s root j path) : ∀ e ∈ path, s.colLabel.get e.2 = some e.1 := by
  induction h with
  | root hlabel _ => simpa using hlabel
  | via _ hlabel _ ih =>
    intro e he
    rcases List.mem_cons.1 he with rfl | he
    · exact hlabel
    · exact ih e he

/-- A path begins with the column that it leads from, and its rows hang at smaller and smaller depths. -/
theorem Traced.rooted (h : Traced s root j path) :
    ∃ i rest, path = (i, j) :: rest ∧ s.Rooted rest.length i ∧ ∀ e ∈ rest, ∃ k < rest.length, s.Rooted k e.1 := by
  induction h with
  | root _ hroot => exact ⟨root, [], rfl, .root hroot, nofun⟩
  | @via i j k path hpath _ hvia ih =>
    obtain ⟨a, rest, rfl, ha, hrest⟩ := ih
    refine ⟨i, (a, k) :: rest, rfl, ha.child hvia (hpath.label (a, k) List.mem_cons_self), fun e he => ?_⟩
    rcases List.mem_cons.1 he with rfl | he
    · exact ⟨rest.length, Nat.lt_succ_self _, ha⟩
    · obtain ⟨l, hl, he⟩ := hrest e he
      exact ⟨l, Nat.lt_succ_of_lt hl, he⟩

/-- A path meets no row and no column twice. -/
theorem Traced.nodup (h : Traced s root j path) : (path.map Prod.fst).Nodup ∧ (path.map Prod.snd).Nodup := by
  induction h with
  | root _ _ => simp
  | @via i j k path hpath hlabel hvia ih =>
    obtain ⟨a, rest, heq, ha, hrest⟩ := (hpath.via hlabel hvia).rooted
    obtain ⟨⟨rfl, -⟩, rfl⟩ : ((i = a ∧ j = j) ∧ path = rest) := by simpa using heq
    have hrow : i ∉ path.map Prod.fst := by
      intro hi
      obtain ⟨e, he, rfl⟩ := List.mem_map.1 hi
      obtain ⟨l, hl, he⟩ := hrest e he
      exact hl.ne (he.depth_unique ha)
    have hcol : j ∉ path.map Prod.snd := by
      intro hj
      obtain ⟨e, he, rfl⟩ := List.mem_map.1 hj
      -- A column has one label only, so its row would be met twice.
      obtain rfl := Option.some.inj (hlabel.symm.trans (hpath.label e he))
      exact hrow (List.mem_map_of_mem he)
    exact ⟨List.nodup_cons.2 ⟨hrow, ih.1⟩, List.nodup_cons.2 ⟨hcol, ih.2⟩⟩

/-- A path of labels ends in a root. -/
theorem Traced.root_spec (h : Traced s root j path) : s.rowLabel.get root = .root ∧ root ∈ path.map Prod.fst := by
  induction h with
  | root _ hroot => simp [hroot]
  | via _ _ _ ih => exact ⟨ih.1, List.mem_cons_of_mem _ ih.2⟩

/-- A path of labels begins with the column that it leads from. -/
theorem Traced.mem_cols (h : Traced s root j path) : j ∈ path.map Prod.snd := by
  cases h <;> exact List.mem_cons_self

/-- The rows on a path but the root have been reached through columns on it. -/
theorem Traced.row_cases (h : Traced s root j path) {a : Fin n} (ha : a ∈ path.map Prod.fst) :
    a = root ∨ ∃ k ∈ path.map Prod.snd, s.rowLabel.get a = .via k := by
  induction h with
  | root _ _ => exact Or.inl (by simpa using ha)
  | @via i j k path hpath _ hvia ih =>
    rcases List.mem_cons.1 ha with rfl | ha
    · exact Or.inr ⟨k, List.mem_cons_of_mem _ hpath.mem_cols, hvia⟩
    · refine (ih ha).imp_right ?_
      rintro ⟨c, hc, hac⟩
      exact ⟨c, List.mem_cons_of_mem _ hc, hac⟩

/-- Through the columns on a path but the first one, rows have been reached. -/
theorem Traced.col_cases (h : Traced s root j path) {b : Fin n} (hb : b ∈ path.map Prod.snd) :
    b = j ∨ ∃ i, s.rowLabel.get i = .via b := by
  induction h with
  | root _ _ => exact Or.inl (by simpa using hb)
  | @via i j k path _ _ hvia ih =>
    rcases List.mem_cons.1 hb with rfl | hb
    · exact Or.inl rfl
    · rcases ih hb with rfl | hb
      · exact Or.inr ⟨i, hvia⟩
      · exact Or.inr hb

end Paths

/-! ## Visits -/

/-- What a visit changes: the column is taken off the stack, and the row that it is matched to is reached unless it has been
before. -/
structure Visited (i j : Fin n) (cols : List (Fin n)) (s t : State α n) : Prop where
  rowMate_eq : t.rowMate = s.rowMate
  colMate_eq : t.colMate = s.colMate
  colLabel_eq : t.colLabel = s.colLabel
  rowDual_eq : t.rowDual = s.rowDual
  colDual_eq : t.colDual = s.colDual
  slack_eq : t.slack = s.slack
  colStack_eq : t.colStack = cols
  rowLabel_eq : ∀ a, s.Reached a → t.rowLabel.get a = s.rowLabel.get a
  rowLabel_or : ∀ a, t.rowLabel.get a = s.rowLabel.get a ∨ a = i ∧ t.rowLabel.get a = .via j
  reached : t.Reached i
  mem_rowStack : ∀ a ∈ t.rowStack, a ∈ s.rowStack ∨ a = i
  scanned : ∀ a, t.Reached a → a ∉ t.rowStack → s.Reached a ∧ a ∉ s.rowStack

/-- A visit. -/
theorem visited_reach (s : State α n) (i j : Fin n) (cols : List (Fin n)) :
    Visited i j cols s (State.reach { s with colStack := cols } i j) := by
  unfold State.reach
  split
  · rename_i hreached
    exact ⟨rfl, rfl, rfl, rfl, rfl, rfl, rfl, fun _ _ => rfl, fun _ => Or.inl rfl, isReached_iff.1 hreached, fun _ => Or.inl,
      fun _ => And.intro⟩
  · rename_i hreached
    have hi : ¬s.Reached i := fun h => hreached (isReached_iff.2 h)
    refine ⟨rfl, rfl, rfl, rfl, rfl, rfl, rfl, ?_, ?_, ?_, ?_, ?_⟩
    · intro a ha
      exact get_set_of_ne _ _ fun heq => hi (heq ▸ ha)
    · intro a
      by_cases ha : a = i
      · subst ha
        exact Or.inr ⟨rfl, get_set_self _ _ _⟩
      · exact Or.inl (get_set_of_ne _ _ ha)
    · rw [Reached, get_set_self]
      exact nofun
    · intro a ha
      rcases List.mem_cons.1 ha with rfl | ha
      · exact Or.inr rfl
      · exact Or.inl ha
    · intro a ha hstack
      rw [List.mem_cons, not_or] at hstack
      rw [Reached, get_set_of_ne _ _ hstack.1] at ha
      exact ⟨ha, hstack.2⟩

/-- The rows that have been reached after a visit. -/
theorem Visited.reached_of {cols : List (Fin n)} (h : Visited i j cols s t) {a : Fin n} (ha : s.Reached a) : t.Reached a := by
  rw [Reached, h.rowLabel_eq a ha]
  exact ha

/-! ## What is maintained -/

variable [Scalar α]

/-- There is an edge, and its weight is defined. -/
def HasEdge (work : Table α n) (i j : Fin n) : Prop := ∃ w, (work.get i).get j = some w ∧ Scalar.le w w = true

/-- What the bookkeeping of the trees maintains. -/
structure Grown (work : Table α n) (s : State α n) : Prop where
  agree : s.MatesAgree
  mate_edge : ∀ i j, s.rowMate.get i = some j → HasEdge work i j
  root_iff : ∀ i, s.rowLabel.get i = .root ↔ s.rowMate.get i = none
  via : ∀ i j, s.rowLabel.get i = .via j → s.rowMate.get i = some j ∧ Scalar.positive (s.slack.get j) = false
  rooted : ∀ i, s.Reached i → ∃ k, s.Rooted k i
  label : ∀ i j, s.colLabel.get j = some i → s.Reached i ∧ s.rowMate.get i ≠ some j ∧ HasEdge work i j
  unlabelled : ∀ j, s.colLabel.get j = none → s.slack.get j = Scalar.infinity
  rowStack : ∀ i ∈ s.rowStack, s.Reached i
  colStack : ∀ j ∈ s.colStack, Scalar.positive (s.slack.get j) = false
  visited : ∀ j, Scalar.positive (s.slack.get j) = false → j ∉ s.colStack →
    ∃ i, s.colMate.get j = some i ∧ s.Reached i

/-! ## Between searches -/

/-- A dual update keeps the trees. -/
theorem Grown.update (h : Grown work s) (amount : α) : Grown work (s.update amount) := by
  have hslack : ∀ b, (s.update amount).slack.get b = s.slackAfter amount b := fun b => get_ofFn _ b
  have htight : ∀ b, Scalar.positive (s.slack.get b) = false → s.slackAfter amount b = s.slack.get b := by
    intro b hb
    rw [slackAfter, hb, Bool.false_and]
    exact if_neg Bool.false_ne_true
  constructor
  · exact h.agree
  · exact h.mate_edge
  · exact h.root_iff
  · intro a b hab
    rw [hslack, htight b (h.via a b hab).2]
    exact h.via a b hab
  · intro a ha
    obtain ⟨k, hk⟩ := h.rooted a ha
    exact ⟨k, hk.mono (fun _ _ => rfl) fun _ _ _ => rfl⟩
  · exact h.label
  · intro b hb
    have hunlabelled : (s.colLabel.get b).isSome = false := by
      rw [show s.colLabel.get b = none from hb]
      rfl
    rw [hslack, slackAfter, hunlabelled, Bool.and_false, if_neg Bool.false_ne_true]
    exact h.unlabelled b hb
  · exact h.rowStack
  · intro b hb
    rw [hslack]
    rcases List.mem_append.1 hb with hb | hb
    · rw [List.mem_reverse, List.mem_filter, tightens, Bool.and_eq_true, Bool.not_eq_true'] at hb
      exact hb.2.2
    · rw [htight b (h.colStack b hb)]
      exact h.colStack b hb
  · intro b hb hstack
    rw [hslack] at hb
    have hmem : b ∉ (List.finRange n).filter (s.tightens amount) ∧ b ∉ s.colStack := by
      rw [← not_or, ← List.mem_reverse, ← List.mem_append]
      exact hstack
    have hold : Scalar.positive (s.slack.get b) = false := by
      by_contra hpos
      rw [Bool.not_eq_false] at hpos
      refine hmem.1 (List.mem_filter.2 ⟨List.mem_finRange b, ?_⟩)
      rw [tightens, hpos, hb]
      rfl
    exact h.visited b hold hmem.2

/-- The trees are as after they have been cleared: only roots, no labels, no slacks. -/
structure Fresh (s : State α n) : Prop where
  rowLabel_eq : ∀ i, s.rowLabel.get i = if (s.rowMate.get i).isNone then .root else .unreached
  colLabel_eq : ∀ j, s.colLabel.get j = none
  slack_eq : ∀ j, s.slack.get j = Scalar.infinity
  mem_rowStack : ∀ i, i ∈ s.rowStack ↔ s.rowMate.get i = none
  colStack_eq : s.colStack = []

/-- The first search starts afresh. -/
theorem fresh_start (work : Table α n) : Fresh (start work) where
  rowLabel_eq i := by simp [start, restart]
  colLabel_eq j := by simp [start, restart]
  slack_eq j := by simp [start, restart]
  mem_rowStack i := by simp [start, restart]
  colStack_eq := rfl

/-- Clearing the trees starts afresh. -/
theorem fresh_reseed (s : State α n) : Fresh { s.reseed with colStack := [] } where
  rowLabel_eq i := by simp [reseed]
  colLabel_eq j := by simp [reseed]
  slack_eq j := by simp [reseed]
  mem_rowStack i := by simp [reseed]
  colStack_eq := rfl

/-- At the beginning of a search no row that has been reached has been scanned. -/
theorem Fresh.mem_rowStack_of_reached (h : Fresh s) (hi : s.Reached i) : i ∈ s.rowStack := by
  rw [h.mem_rowStack]
  by_contra hmate
  refine hi ?_
  rw [h.rowLabel_eq, if_neg]
  rwa [Option.isNone_iff_eq_none]

variable [LawfulScalar α]

open LawfulScalar

/-- A search starts with trees. -/
theorem Fresh.grown (h : Fresh s) (hagree : s.MatesAgree) (hedge : ∀ i j, s.rowMate.get i = some j → HasEdge work i j) :
    Grown work s := by
  have hroot : ∀ a, s.rowLabel.get a = .root ↔ s.rowMate.get a = none := by
    intro a
    rw [h.rowLabel_eq]
    cases s.rowMate.get a <;> simp
  have hor : ∀ a, s.rowLabel.get a = .root ∨ s.rowLabel.get a = .unreached := by
    intro a
    rw [h.rowLabel_eq]
    cases s.rowMate.get a <;> simp
  constructor
  · exact hagree
  · exact hedge
  · exact hroot
  · intro a b hab
    rcases hor a with ha | ha <;> exact nomatch ha.symm.trans hab
  · intro a ha
    exact ⟨0, .root ((hor a).resolve_right ha)⟩
  · intro a b hab
    exact nomatch (h.colLabel_eq b).symm.trans hab
  · intro b _
    exact h.slack_eq b
  · intro a ha
    rw [Reached, (hroot a).2 ((h.mem_rowStack a).1 ha)]
    exact nofun
  · intro b hb
    rw [h.colStack_eq] at hb
    exact absurd hb List.not_mem_nil
  · intro b hb _
    rw [h.slack_eq, positive_infinity] at hb
    exact nomatch hb

/-! ## The steps of a search -/

/-- An edge whose slack has been taken has a weight. -/
theorem Lowers.hasEdge {x : α} (h : Lowers work s i j x) : HasEdge work i j := by
  obtain ⟨w, hw, rfl⟩ := h.edge
  exact ⟨w, hw, (le_self_of_sub (le_self (le_of_lt h.lt)).1).2⟩

/-- A tight column has a label. -/
theorem Grown.exists_label (h : Grown work s) (hj : Scalar.positive (s.slack.get j) = false) :
    ∃ i, s.colLabel.get j = some i := by
  cases hlabel : s.colLabel.get j with
  | some i => exact ⟨i, rfl⟩
  | none =>
    rw [h.unlabelled j hlabel, positive_infinity] at hj
    exact Bool.noConfusion hj

/-- A scan keeps the trees. -/
theorem Grown.scan (h : Grown work s) {rows : List (Fin n)} (hrows : s.rowStack = i :: rows) :
    Grown work (State.scan work i { s with rowStack := rows }) := by
  have hscan := rowScanned_scan work i rows s
  generalize State.scan work i { s with rowStack := rows } = t at hscan
  have hi : s.Reached i := h.rowStack i (hrows ▸ List.mem_cons_self)
  have hreached : ∀ a, t.Reached a ↔ s.Reached a := fun a => by rw [Reached, hscan.rowLabel_eq, Reached]
  have htight : ∀ b, Scalar.positive (s.slack.get b) = false →
      t.slack.get b = s.slack.get b ∧ t.colLabel.get b = s.colLabel.get b := by
    intro b hb
    rcases hscan.column b with ⟨x, hx, _⟩ | ⟨_, h'⟩
    · rw [hx.positive] at hb
      exact Bool.noConfusion hb
    · exact h'
  have hvia : ∀ a b, s.rowLabel.get a = .via b → t.colLabel.get b = s.colLabel.get b := fun a b hab =>
    (htight b (h.via a b hab).2).2
  constructor
  · intro a b
    rw [hscan.rowMate_eq, hscan.colMate_eq]
    exact h.agree a b
  · intro a b hab
    rw [hscan.rowMate_eq] at hab
    exact h.mate_edge a b hab
  · intro a
    rw [hscan.rowMate_eq, hscan.rowLabel_eq]
    exact h.root_iff a
  · intro a b hab
    rw [hscan.rowLabel_eq] at hab
    rw [hscan.rowMate_eq, (htight b (h.via a b hab).2).1]
    exact h.via a b hab
  · intro a ha
    obtain ⟨k, hk⟩ := h.rooted a ((hreached a).1 ha)
    exact ⟨k, hk.mono (fun c _ => by rw [hscan.rowLabel_eq]) hvia⟩
  · intro a b hab
    rw [hreached, hscan.rowMate_eq]
    rcases hscan.column b with ⟨x, hx, _, hlabel⟩ | ⟨_, _, hlabel⟩
    · obtain rfl := Option.some.inj (hlabel.symm.trans hab)
      exact ⟨hi, hx.not_mate, hx.hasEdge⟩
    · exact h.label a b (hlabel.symm.trans hab)
  · intro b hb
    rcases hscan.column b with ⟨x, hx, _, hlabel⟩ | ⟨_, hslack, hlabel⟩
    · rw [hlabel] at hb
      exact nomatch hb
    · rw [hslack]
      exact h.unlabelled b (hlabel.symm.trans hb)
  · intro a ha
    rw [hscan.rowStack_eq] at ha
    exact (hreached a).2 (h.rowStack a (hrows ▸ List.mem_cons_of_mem i ha))
  · intro b hb
    rcases (hscan.mem_colStack b).1 hb with hb | ⟨x, hx, hpos⟩
    · rw [(htight b (h.colStack b hb)).1]
      exact h.colStack b hb
    · rcases hscan.column b with ⟨y, hy, hslack, _⟩ | ⟨hnone, _⟩
      · obtain rfl := hx.unique hy
        rw [hslack]
        exact hpos
      · exact absurd hx (hnone x)
  · intro b hb hstack
    rw [hscan.mem_colStack, not_or] at hstack
    have hb : Scalar.positive (s.slack.get b) = false := by
      rcases hscan.column b with ⟨x, hx, hslack, _⟩ | ⟨_, hslack, _⟩
      · rw [hslack] at hb
        exact absurd ⟨x, hx, hb⟩ hstack.2
      · rwa [hslack] at hb
    obtain ⟨a, ha, hra⟩ := h.visited b hb hstack.1
    exact ⟨a, by rwa [hscan.colMate_eq], (hreached a).2 hra⟩

/-- A visit keeps the trees. -/
theorem Grown.visit (h : Grown work s) {cols : List (Fin n)} (hcols : s.colStack = j :: cols)
    (hmate : s.colMate.get j = some i) (hvisit : Visited i j cols s t) : Grown work t := by
  have htight := h.colStack j (hcols ▸ List.mem_cons_self)
  obtain ⟨p, hp⟩ := h.exists_label htight
  obtain ⟨k, hk⟩ := h.rooted p (h.label p j hp).1
  have hpair : s.rowMate.get i = some j := (h.agree i j).2 hmate
  have hmono : ∀ {l : ℕ} {a : Fin n}, Rooted s l a → Rooted t l a := fun hl =>
    hl.mono hvisit.rowLabel_eq fun _ _ _ => by rw [hvisit.colLabel_eq]
  constructor
  · intro a b
    rw [hvisit.rowMate_eq, hvisit.colMate_eq]
    exact h.agree a b
  · intro a b hab
    rw [hvisit.rowMate_eq] at hab
    exact h.mate_edge a b hab
  · intro a
    rw [hvisit.rowMate_eq]
    rcases hvisit.rowLabel_or a with ha | ⟨rfl, ha⟩
    · rw [ha]
      exact h.root_iff a
    · rw [ha, hpair]
      exact iff_of_false nofun nofun
  · intro a b hab
    rw [hvisit.rowMate_eq, hvisit.slack_eq]
    rcases hvisit.rowLabel_or a with ha | ⟨rfl, ha⟩
    · exact h.via a b (ha.symm.trans hab)
    · obtain rfl := Label.via.inj (ha.symm.trans hab)
      exact ⟨hpair, htight⟩
  · intro a ha
    rcases hvisit.rowLabel_or a with hsame | ⟨rfl, hvia⟩
    · rw [Reached, hsame] at ha
      obtain ⟨l, hl⟩ := h.rooted a ha
      exact ⟨l, hmono hl⟩
    · exact ⟨k + 1, (hmono hk).child hvia (by rw [hvisit.colLabel_eq, hp])⟩
  · intro a b hab
    rw [hvisit.colLabel_eq] at hab
    obtain ⟨hreached, hrest⟩ := h.label a b hab
    rw [hvisit.rowMate_eq]
    exact ⟨hvisit.reached_of hreached, hrest⟩
  · intro b hb
    rw [hvisit.colLabel_eq] at hb
    rw [hvisit.slack_eq]
    exact h.unlabelled b hb
  · intro a ha
    rcases hvisit.mem_rowStack a ha with ha | rfl
    · exact hvisit.reached_of (h.rowStack a ha)
    · exact hvisit.reached
  · intro b hb
    rw [hvisit.colStack_eq] at hb
    rw [hvisit.slack_eq]
    exact h.colStack b (hcols ▸ List.mem_cons_of_mem j hb)
  · intro b hb hstack
    rw [hvisit.slack_eq] at hb
    rw [hvisit.colStack_eq] at hstack
    rw [hvisit.colMate_eq]
    by_cases hbj : b = j
    · exact ⟨i, hbj ▸ hmate, hvisit.reached⟩
    · have hmem : b ∉ s.colStack := by
        rw [hcols, List.mem_cons, not_or]
        exact ⟨hbj, hstack⟩
      obtain ⟨a, ha, hreached⟩ := h.visited b hb hmem
      exact ⟨a, ha, hvisit.reached_of hreached⟩

/-- A step of a search keeps the trees. -/
theorem Step.grown (hstep : Step work s t) (h : Grown work s) : Grown work t := by
  cases hstep with
  | scan hrows => exact h.scan hrows
  | visit _ hcols hmate => exact h.visit hcols hmate (visited_reach s _ _ _)

end PerfectMatching.PrimalDual.State
