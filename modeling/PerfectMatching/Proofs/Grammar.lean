import Mathlib.Data.List.Forall2
import PerfectMatching.Proofs.Entries
import PerfectMatching.Weights.Grammar

/-!
# The reader of matrix texts

The reader accepts the texts of the grammar and no others, reads every entry from its own token, and names the first defect of any
other text (`Weights.ofText_spec`). That every text is of one kind or the other (`spells_or_flawed`) needs no reader; what the reader
makes of each kind is computed (`ofTokens_of_spells`, `ofTokens_of_flawed`).
-/

namespace PerfectMatching

/-! ## Reading one after another -/

section Collect

variable {α β ε : Type} {f : α → Except ε β}

/-- All can be read exactly if each can. -/
theorem mapM_eq_ok_iff {xs : List α} {ys : List β} : xs.mapM f = .ok ys ↔ List.Forall₂ (fun x y => f x = .ok y) xs ys := by
  induction xs generalizing ys with
  | nil =>
    rw [List.forall₂_nil_left_iff]
    exact ⟨fun h => (Except.ok.inj h).symm, fun h => congrArg Except.ok h.symm⟩
  | cons x xs ih =>
    rw [List.forall₂_cons_left_iff, List.mapM_cons]
    cases hx : f x with
    | error e => exact ⟨nofun, fun ⟨_, _, h, _⟩ => nomatch h⟩
    | ok y =>
      cases hxs : xs.mapM f with
      | error e => 
        refine ⟨nofun, fun ⟨_, ys, _, h, _⟩ => ?_⟩
        rw [← ih, hxs] at h
        exact nomatch h
      | ok zs =>
        constructor
        · intro h
          obtain rfl := Except.ok.inj h
          exact ⟨y, zs, rfl, ih.1 hxs, rfl⟩
        · rintro ⟨_, ys, hy, hys, rfl⟩
          obtain rfl := Except.ok.inj hy
          obtain rfl := Except.ok.inj (hxs.symm.trans (ih.2 hys))
          rfl

/-- The first that cannot be read decides what is wrong. -/
theorem mapM_eq_error {before after : List α} {x : α} {e : ε} (hbefore : ∀ y ∈ before, ∃ z, f y = .ok z) (hx : f x = .error e) :
    (before ++ x :: after).mapM f = .error e := by
  induction before with
  | nil =>
    rw [List.nil_append, List.mapM_cons, hx]
    rfl
  | cons y before ih =>
    obtain ⟨z, hz⟩ := hbefore y List.mem_cons_self
    rw [List.cons_append, List.mapM_cons, hz, ih fun y hy => hbefore y (List.mem_cons_of_mem _ hy)]
    rfl

end Collect

namespace Weights

/-! ## Single tokens -/

/-- A numeral has a digit. -/
theorem exists_digit_of_read? {token : List Char} {numeral : Numeral} (h : Numeral.read? token = some numeral) :
    ∃ c ∈ token, c.isDigit = true := by
  by_contra hnone
  have hnone : ∀ {text : List Char}, text ⊆ token → text.takeWhile Char.isDigit = [] := by
    intro text hsub
    cases text with
    | nil => rfl
    | cons c text => exact List.takeWhile_cons_of_neg fun hc => hnone ⟨c, hsub List.mem_cons_self, hc⟩
  have hsign : (Numeral.splitSign token).2 ⊆ token := by
    unfold Numeral.splitSign
    split
    · exact List.subset_cons_self _ _
    · exact List.subset_cons_self _ _
    · exact fun _ hc => hc
  have hfraction : ∀ {text : List Char}, text ⊆ token → (Numeral.splitFraction text).1 = [] := by
    intro text hsub
    unfold Numeral.splitFraction
    split
    · exact hnone fun c hc => hsub (List.mem_cons_of_mem _ hc)
    · rfl
  have hrest : (Numeral.splitSign token).2.dropWhile Char.isDigit ⊆ token := fun c hc =>
    hsign (List.dropWhile_subset _ hc)
  unfold Numeral.read? at h
  simp only [hnone hsign, hfraction hrest] at h
  exact nomatch h

/-- A digit is the same in small letters. -/
theorem toLower_of_isDigit {c : Char} (h : c.isDigit = true) : c.toLower = c := by
  refine dif_neg fun hupper => ?_
  have hdigit := (Bool.and_eq_true _ _).mp h
  have hle := of_decide_eq_true hdigit.2
  exact absurd (UInt32.le_trans hupper.1 hle) (by decide)

/-- A word for a forbidden edge is no numeral. -/
theorem not_mark_of_read? {token : List Char} {numeral : Numeral} (h : Numeral.read? token = some numeral) :
    token.map Char.toLower ∉ forbiddenMarks := by
  intro hmark
  obtain ⟨c, hc, hdigit⟩ := exists_digit_of_read? h
  have hmem : c ∈ token.map Char.toLower := List.mem_map.2 ⟨c, hc, toLower_of_isDigit hdigit⟩
  have hmarks : ∀ mark ∈ forbiddenMarks, ∀ c ∈ mark, c.isDigit = false := by simp [forbiddenMarks]
  exact Bool.noConfusion ((hmarks _ hmark c hmem).symm.trans hdigit)

/-- A token is read as an entry exactly if it stands for it. -/
theorem readEntry_eq_ok_iff {token : List Char} {entry : Option Float} : readEntry token = .ok entry ↔ Denotes token entry := by
  constructor
  · intro h
    unfold readEntry at h
    split at h
    · rename_i hmark
      obtain rfl := Except.ok.inj h
      exact .forbidden hmark
    · cases hread : Numeral.read? token with
      | none =>
        rw [hread] at h
        exact nomatch h
      | some numeral =>
        simp only [hread, Option.map_some] at h
        split at h
        · rename_i hfin
          obtain rfl := Except.ok.inj h
          exact .weight hread hfin
        · exact nomatch h
  · intro h
    cases h with
    | forbidden hmark => exact if_pos hmark
    | weight hread hfin =>
      rw [readEntry, if_neg (not_mark_of_read? hread), hread]
      exact if_pos hfin

/-- A token that stands for no entry is called a bad weight. -/
theorem readEntry_of_not_isEntry {token : List Char} (h : ¬IsEntry token) : readEntry token = .error (.badWeight token) := by
  cases hread : readEntry token with
  | ok entry => exact absurd ⟨entry, readEntry_eq_ok_iff.1 hread⟩ h
  | error d =>
    unfold readEntry at hread
    split at hread
    · exact nomatch hread
    · split at hread
      · split at hread
        · exact nomatch hread
        · exact hread.symm
      · exact hread.symm

/-! ## Matrices -/

/-- The token for the edge of a row and a column. -/
theorem getElem?_weights (dimension : List Char) (weights : List (List Char)) {n : ℕ} (i j : Fin n) :
    (dimension :: weights)[1 + i.val * n + j.val]? = weights[i.val * n + j.val]? := by
  rw [Nat.add_assoc, Nat.add_comm, List.getElem?_cons_succ]

/-- A matrix is that of some tokens exactly if the first stands for its dimension and the others for its entries in order. -/
theorem spells_cons_iff {dimension : List Char} {weights : List (List Char)} {w : Weights Float} :
    Spells (dimension :: weights) w ↔ wordNumeral? dimension = some w.n ∧ w.n * w.n < wordLimit ∧
      List.Forall₂ Denotes weights w.entries.toList := by
  constructor
  · rintro ⟨⟨token, hget, hdimension⟩, hsize, hlength, hentry⟩
    obtain rfl := Option.some.inj hget
    have hlength : weights.length = w.entries.toList.length := by
      rw [List.length_cons, Nat.add_comm] at hlength
      rw [Vector.length_toList, Nat.add_left_cancel hlength]
    refine ⟨hdimension, hsize, List.forall₂_iff_get.2 ⟨hlength, fun k hk hk' => ?_⟩⟩
    obtain ⟨i, j, rfl⟩ := exists_position (hk'.trans_eq Vector.length_toList)
    obtain ⟨token, htoken, hdenotes⟩ := hentry i j
    rw [getElem?_weights, List.getElem?_eq_getElem hk] at htoken
    obtain rfl := Option.some.inj htoken
    exact hdenotes
  · rintro ⟨hdimension, hsize, hentries⟩
    obtain ⟨hlength, hget⟩ := List.forall₂_iff_get.1 hentries
    have hcount : weights.length = w.n * w.n := hlength.trans Vector.length_toList
    refine ⟨⟨dimension, rfl, hdimension⟩, hsize, by rw [List.length_cons, hcount, Nat.add_comm], fun i j => ?_⟩
    have hplace := position_lt i j
    rw [getElem?_weights]
    exact ⟨_, List.getElem?_eq_getElem (hplace.trans_eq hcount.symm),
      hget _ (hplace.trans_eq hcount.symm) (hplace.trans_eq Vector.length_toList.symm)⟩

/-- Tokens each of which stands for an entry stand for a list of entries. -/
theorem exists_entries {weights : List (List Char)} (h : ∀ token ∈ weights, IsEntry token) :
    ∃ entries, List.Forall₂ Denotes weights entries := by
  induction weights with
  | nil => exact ⟨[], .nil⟩
  | cons token weights ih =>
    obtain ⟨⟨entry, hentry⟩, hweights⟩ := List.forall_mem_cons.1 h
    obtain ⟨entries, hentries⟩ := ih hweights
    exact ⟨entry :: entries, .cons hentry hentries⟩

/-- What the reader does after the entries. -/
theorem ofTokens_cons {dimension : List Char} {weights : List (List Char)} {n : ℕ} {entries : List (Option Float)}
    (hdimension : wordNumeral? dimension = some n) (hsize : n * n < wordLimit)
    (hentries : List.Forall₂ Denotes (weights.take (n * n)) entries) :
    ofTokens (dimension :: weights) =
      if h : entries.length = n * n then
        match weights.drop (n * n) with
        | [] => .ok ⟨n, ⟨entries.toArray, h⟩⟩
        | extra :: _ => .error (.trailing extra)
      else .error (.tooFew (n * n) entries.length) := by
  have hread : (weights.take (n * n)).mapM readEntry = .ok entries :=
    mapM_eq_ok_iff.2 (hentries.imp fun _ _ => readEntry_eq_ok_iff.2)
  simp only [ofTokens, hdimension]
  rw [if_neg (not_le.2 hsize), hread]
  rfl

/-- The tokens of a matrix are read as the matrix. -/
theorem ofTokens_of_spells {tokens : List (List Char)} {w : Weights Float} (h : Spells tokens w) : ofTokens tokens = .ok w := by
  cases tokens with
  | nil => exact nomatch h.length_eq.trans (Nat.add_comm 1 _)
  | cons dimension weights =>
    obtain ⟨hdimension, hsize, hentries⟩ := spells_cons_iff.1 h
    have hcount : weights.length = w.n * w.n := hentries.length_eq.trans Vector.length_toList
    rw [ofTokens_cons hdimension hsize (by rwa [List.take_of_length_le hcount.le]), List.drop_eq_nil_of_le hcount.le]
    exact dif_pos Vector.length_toList

/-- Tokens that are flawed are refused for their flaw. -/
theorem ofTokens_of_flawed {tokens : List (List Char)} {d : TextDefect} (h : Flawed tokens d) : ofTokens tokens = .error d := by
  cases h with
  | missingDimension => rfl
  | badDimension hdimension => simp only [ofTokens, hdimension]
  | dimensionTooLarge hdimension hsize =>
    simp only [ofTokens, hdimension]
    exact if_pos hsize
  | @badWeight dimension token n before after hdimension hsize hlength hbefore htoken =>
    obtain ⟨k, hk⟩ := Nat.exists_eq_add_of_lt hlength
    have htake : (before ++ token :: after).take (n * n) = before ++ token :: after.take k := by
      rw [hk, Nat.add_assoc, List.take_length_add_append]
      rfl
    have hread : ∀ t ∈ before, ∃ entry, readEntry t = .ok entry := fun t ht =>
      (hbefore t ht).imp fun _ => readEntry_eq_ok_iff.2
    simp only [ofTokens, hdimension]
    rw [if_neg (not_le.2 hsize), htake, mapM_eq_error hread (readEntry_of_not_isEntry htoken)]
    rfl
  | @tooFew dimension n weights hdimension hsize hlength hweights =>
    obtain ⟨entries, hentries⟩ := exists_entries hweights
    rw [ofTokens_cons hdimension hsize (by rwa [List.take_of_length_le hlength.le]), hentries.length_eq]
    exact dif_neg (hentries.length_eq ▸ hlength.ne)
  | @trailing dimension token n weights after hdimension hsize hlength hweights =>
    obtain ⟨entries, hentries⟩ := exists_entries hweights
    have htake : (weights ++ token :: after).take (n * n) = weights := List.take_left' hlength
    have hdrop : (weights ++ token :: after).drop (n * n) = token :: after := List.drop_left' hlength
    rw [ofTokens_cons hdimension hsize (by rwa [htake]), hdrop]
    exact dif_pos (hentries.length_eq.symm.trans hlength)

/-! ## Texts -/

/-- Tokens after a dimension are those of a matrix, or there is a first one that stands for no entry, or there are too few or too many. -/
theorem spells_or_flawed_cons {dimension : List Char} {weights : List (List Char)} {n : ℕ}
    (hdimension : wordNumeral? dimension = some n) (hsize : n * n < wordLimit) :
    (∃ w, Spells (dimension :: weights) w) ∨ ∃ d, Flawed (dimension :: weights) d := by
  have hsplit : weights.take (n * n) ++ weights.drop (n * n) = weights := List.take_append_drop _ _
  have hle : (weights.take (n * n)).length ≤ n * n := List.length_take_le _ _
  rcases forall_or_exists_first IsEntry (weights.take (n * n)) with hall | ⟨before, token, after, heq, hbefore, htoken⟩
  · rcases hle.lt_or_eq with hlt | hcount
    · rw [List.length_take] at hlt
      have hlt : weights.length < n * n := by omega
      rw [List.take_of_length_le hlt.le] at hall
      exact Or.inr ⟨_, .tooFew hdimension hsize hlt hall⟩
    · cases hdrop : weights.drop (n * n) with
      | nil =>
        rw [hdrop, List.append_nil] at hsplit
        rw [hsplit] at hall hcount
        obtain ⟨entries, hentries⟩ := exists_entries hall
        exact Or.inl ⟨⟨n, ⟨entries.toArray, hentries.length_eq.symm.trans hcount⟩⟩,
          spells_cons_iff.2 ⟨hdimension, hsize, hentries⟩⟩
      | cons extra after =>
        rw [← hsplit, hdrop]
        exact Or.inr ⟨_, .trailing hdimension hsize hcount hall⟩
  · rw [heq, List.length_append, List.length_cons] at hle
    rw [← hsplit, heq, List.append_assoc, List.cons_append]
    exact Or.inr ⟨_, .badWeight hdimension hsize (by omega) hbefore htoken⟩

/-- All tokens are those of a matrix or flawed. -/
theorem spells_or_flawed (tokens : List (List Char)) : (∃ w, Spells tokens w) ∨ ∃ d, Flawed tokens d := by
  cases tokens with
  | nil => exact Or.inr ⟨_, .missingDimension⟩
  | cons dimension weights =>
    cases hdimension : wordNumeral? dimension with
    | none => exact Or.inr ⟨_, .badDimension hdimension⟩
    | some n =>
      rcases lt_or_ge (n * n) wordLimit with hsize | hsize
      · exact spells_or_flawed_cons hdimension hsize
      · exact Or.inr ⟨_, .dimensionTooLarge hdimension hsize⟩

/-- Tokens are read as a matrix exactly if they are its tokens. -/
theorem ofTokens_eq_ok_iff {tokens : List (List Char)} {w : Weights Float} : ofTokens tokens = .ok w ↔ Spells tokens w := by
  refine ⟨fun h => ?_, ofTokens_of_spells⟩
  rcases spells_or_flawed tokens with ⟨v, hv⟩ | ⟨d, hd⟩
  · obtain rfl := Except.ok.inj ((ofTokens_of_spells hv).symm.trans h)
    exact hv
  · exact nomatch (ofTokens_of_flawed hd).symm.trans h

/-- Tokens are refused for a defect exactly if it is their flaw. -/
theorem ofTokens_eq_error_iff {tokens : List (List Char)} {d : TextDefect} : ofTokens tokens = .error d ↔ Flawed tokens d := by
  refine ⟨fun h => ?_, ofTokens_of_flawed⟩
  rcases spells_or_flawed tokens with ⟨w, hw⟩ | ⟨e, he⟩
  · exact nomatch (ofTokens_of_spells hw).symm.trans h
  · obtain rfl := Except.error.inj ((ofTokens_of_flawed he).symm.trans h)
    exact he

/-- Some matrix has these tokens exactly if they are a dimension and as many entries as it asks for. -/
theorem exists_spells_iff {tokens : List (List Char)} : (∃ w, Spells tokens w) ↔ IsMatrix tokens := by
  constructor
  · rintro ⟨w, hw⟩
    cases tokens with
    | nil => exact nomatch hw.length_eq.trans (Nat.add_comm 1 _)
    | cons dimension weights =>
      obtain ⟨hdimension, hsize, hentries⟩ := spells_cons_iff.1 hw
      refine ⟨hdimension, hsize, hentries.length_eq.trans Vector.length_toList, fun token htoken => ?_⟩
      obtain ⟨k, rfl⟩ := List.mem_iff_get.1 htoken
      obtain ⟨hlength, hget⟩ := List.forall₂_iff_get.1 hentries
      exact ⟨_, hget k k.isLt (k.isLt.trans_eq hlength)⟩
  · rintro ⟨hdimension, hsize, hcount, hweights⟩
    obtain ⟨entries, hentries⟩ := exists_entries hweights
    exact ⟨⟨_, ⟨entries.toArray, hentries.length_eq.symm.trans hcount⟩⟩, spells_cons_iff.2 ⟨hdimension, hsize, hentries⟩⟩

/-- A text is read as a matrix exactly if its tokens are those of the matrix. -/
theorem ofText_eq_ok_iff {text : String} {w : Weights Float} : ofText text = .ok w ↔ Spells (Text.tokens text.toList) w := by
  rw [← ofTokens_eq_ok_iff, ofText]
  cases ofTokens (Text.tokens text.toList) with
  | ok v => exact ⟨fun h => congrArg Except.ok (Except.ok.inj h), fun h => congrArg Except.ok (Except.ok.inj h)⟩
  | error d => exact ⟨nofun, nofun⟩

/-- A text is refused exactly for the flaw of its tokens. -/
theorem ofText_eq_error_iff {text : String} {e : Failure Float} :
    ofText text = .error e ↔ ∃ d, e = .malformed d ∧ Flawed (Text.tokens text.toList) d := by
  simp only [← ofTokens_eq_error_iff, ofText]
  cases ofTokens (Text.tokens text.toList) with
  | ok v => exact ⟨nofun, fun ⟨_, _, h⟩ => nomatch h⟩
  | error d =>
    constructor
    · intro h
      exact ⟨d, (Except.error.inj h).symm, rfl⟩
    · rintro ⟨_, rfl, h⟩
      rw [← Except.error.inj h]
      rfl

/-- A text is read as a matrix exactly if its tokens are a dimension whose square is a word of 64 bits and as many entries, and then the
entry of row `i` and column `j` is what the token at place `1 + i * n + j` stands for. A text that is refused is refused for the first
of its defects: without a dimension, for a bad one, for one that is too large, for the first bad entry, for too few entries, or for the
first token after the last entry. -/
theorem ofText_spec (text : String) :
    ((∃ w, ofText text = .ok w) ↔ IsMatrix (Text.tokens text.toList)) ∧
      (∀ w, ofText text = .ok w ↔ Spells (Text.tokens text.toList) w) ∧
      ∀ e, ofText text = .error e ↔ ∃ d, e = .malformed d ∧ Flawed (Text.tokens text.toList) d :=
  ⟨(exists_congr fun _ => ofText_eq_ok_iff).trans exists_spells_iff, fun _ => ofText_eq_ok_iff, fun _ => ofText_eq_error_iff⟩

end Weights

end PerfectMatching
