import Mathlib.Data.List.Basic
import PerfectMatching.CommandLine.Run

/-!
# Runs of several problems

A run of several problems is made up of the runs of the single ones (`Options.run_eq_alone`): its output is that of those that
succeed, in the order of the paths and each under its path, and it fails if one of them does. Only the standard input is shared,
which a run can read once; so its path may stand once among the others.
-/

namespace PerfectMatching.CommandLine

variable {input : Reading} {read : String → Reading}

/-! ## The texts -/

/-- The text of a path, if the standard input has not been read. -/
def readingOf (input : Reading) (read : String → Reading) (path : String) : Reading :=
  if path = "-" then input else read path

/-- Paths among which the standard input is not have their own texts. -/
theorem readings_of_notMem {paths : List String} (h : "-" ∉ paths) (input input' : Reading) :
    readings input read paths = paths.map fun path => (path, readingOf input' read path) := by
  induction paths with
  | nil => rfl
  | cons path rest ih =>
    have hpath : path ≠ "-" := fun heq => h (heq ▸ List.mem_cons_self)
    simp [readings, readingOf, hpath, ih fun hrest => h (List.mem_cons_of_mem path hrest)]

/-- Paths among which the standard input is at most once have their own texts. -/
theorem readings_eq_map {paths : List String} (h : paths.count "-" ≤ 1) :
    readings input read paths = paths.map fun path => (path, readingOf input read path) := by
  induction paths with
  | nil => rfl
  | cons path rest ih =>
    by_cases hpath : path = "-"
    · subst hpath
      rw [List.count_cons_self] at h
      have hrest : "-" ∉ rest := List.count_eq_zero.1 (by omega)
      simp [readings, readingOf, readings_of_notMem hrest (.ok "") input]
    · rw [List.count_cons_of_ne hpath] at h
      simp [readings, readingOf, hpath, ih h]

/-! ## Single problems -/

/-- What the problem at a path leads to, in whatever run. -/
def Options.attemptAt (o : Options) (input : Reading) (read : String → Reading) (path : String) : Attempt :=
  o.attempt path (readingOf input read path)

/-- A run from what its problems lead to. -/
theorem Options.run_eq (o : Options) (input : Reading) (read : String → Reading) (h : o.paths.count "-" ≤ 1) :
    (o.run input read).output =
        String.join (o.paths.map fun path => block (1 < o.paths.length) path (o.attemptAt input read path)) ∧
      (o.run input read).ending =
        .tried (o.paths.countP fun path => !(o.attemptAt input read path).outcome.isOk) o.paths.length := by
  unfold Options.run
  rw [readings_eq_map h]
  simp [attemptAt, List.map_map, List.countP_map, Function.comp_def]

/-- What an attempt that succeeds adds to the output of several is what it adds to its own, under its path. -/
theorem block_of_isOk {a : Attempt} (h : a.outcome.isOk = true) (several : Bool) (path : String) :
    block several path a = (if several then "# " ++ path ++ "\n" else "") ++ block false path a := by
  cases hout : a.outcome with
  | ok text => simp [block, hout, String.append_assoc]
  | error message =>
    rw [hout] at h
    exact nomatch h

/-- An attempt that fails adds nothing to the output. -/
theorem block_of_not_isOk {a : Attempt} (h : a.outcome.isOk = false) (several : Bool) (path : String) :
    block several path a = "" := by
  cases hout : a.outcome with
  | ok text =>
    rw [hout] at h
    exact nomatch h
  | error message => simp [block, hout]

/-- The run of a single problem from what the problem leads to. -/
theorem Options.runAlone_eq (o : Options) (input : Reading) (read : String → Reading) (path : String) :
    (o.runAlone input read path).output = block false path (o.attemptAt input read path) ∧
      ((o.runAlone input read path).code = 0 ↔ (o.attemptAt input read path).outcome.isOk = true) := by
  have hcount : [path].count "-" ≤ 1 := List.count_le_length
  obtain ⟨houtput, hending⟩ := Options.run_eq { o with paths := [path] } input read hcount
  have hattempt : ({ o with paths := [path] } : Options).attemptAt input read path = o.attemptAt input read path := rfl
  constructor
  · rw [runAlone, houtput]
    simp [hattempt]
  · rw [runAlone, Report.code, hending]
    cases hok : (o.attemptAt input read path).outcome.isOk <;> simp [Ending.code, hattempt, hok]

/-! ## Several problems -/

/-- Texts some of which are empty, one after another. -/
theorem join_map_eq_join_filter {paths : List String} {succeeds : String → Bool} {f g : String → String}
    (h : ∀ path, succeeds path = true → f path = g path) (h' : ∀ path, succeeds path = false → f path = "") :
    String.join (paths.map f) = String.join ((paths.filter succeeds).map g) := by
  induction paths with
  | nil => rfl
  | cons path rest ih =>
    cases hpath : succeeds path with
    | true => simp [hpath, h path hpath, ih]
    | false => simp [hpath, h' path hpath, ih]

/-- A run among whose paths the standard input is at most once puts out, in the order of the paths, what the runs of the single
problems that succeed put out, each under its path if there are several paths. It succeeds if all of them do, and else says how
many fail; one that fails puts out nothing. -/
theorem Options.run_eq_alone (o : Options) (input : Reading) (read : String → Reading) (h : o.paths.count "-" ≤ 1) :
    let alone := o.runAlone input read
    let problems := o.paths.length
    let failures := o.paths.countP fun path => (alone path).code ≠ 0
    (o.run input read).output =
        String.join ((o.paths.filter fun path => (alone path).code = 0).map fun path =>
          (if 1 < problems then "# " ++ path ++ "\n" else "") ++ (alone path).output) ∧
      (∀ path, (alone path).code ≠ 0 → (alone path).output = "") ∧
      ((o.run input read).code = 0 ↔ ∀ path ∈ o.paths, (alone path).code = 0) ∧
      ((o.run input read).code ≠ 0 →
        (o.run input read).ending.lines = [s!"Error: {failures} of {problems} problems failed"]) := by
  intro alone problems failures
  obtain ⟨houtput, hending⟩ := o.run_eq input read h
  have halone := o.runAlone_eq input read
  have hfailed : ∀ path, (alone path).code ≠ 0 ↔ (o.attemptAt input read path).outcome.isOk = false := fun path => by
    rw [Ne, (halone path).2, Bool.not_eq_true]
  have hfailures : (o.run input read).ending = .tried failures problems := by
    rw [hending]
    congr 1
    refine List.countP_congr fun path _ => ?_
    simp [hfailed path]
  have hcode : (o.run input read).code = 0 ↔ failures = 0 := by
    rw [Report.code, hfailures, Ending.code]
    split <;> simp_all
  refine ⟨?_, fun path hpath => ?_, ?_, fun hne => ?_⟩
  · rw [houtput]
    refine join_map_eq_join_filter (fun path hpath => ?_) fun path hpath => ?_
    · rw [block_of_isOk ((halone path).2.1 (of_decide_eq_true hpath)), ← (halone path).1]
      simp [alone, problems]
    · exact block_of_not_isOk ((hfailed path).1 (of_decide_eq_false hpath)) _ path
  · rw [(halone path).1, block_of_not_isOk ((hfailed path).1 hpath)]
  · rw [hcode, List.countP_eq_zero]
    simp
  · rw [hfailures, Ending.lines, if_neg fun hzero => hne (hcode.2 hzero)]

/-- Of two files and the standard input between them the second file is missing. -/
theorem Options.run_eq_alone_three :
    let o : Options := ⟨["a", "-", "b"], some .enumeration, [.min, .oneBased]⟩
    let input : Reading := .ok "1 0.5"
    let read (path : String) : Reading := if path = "a" then .ok "2 1 2 x 4" else .error .missing
    o.paths.count "-" ≤ 1 ∧ (o.run input read).output = "# a\n1 1\n2 2\nweight: 5\n# -\n1 1\nweight: 0.5\n" ∧
      (o.run input read).code = 1 ∧ (o.run input read).ending.lines = ["Error: 1 of 3 problems failed"] := by
  intro o input read
  have hdash : o.paths.count "-" ≤ 1 := by decide
  have hcode : (o.run input read).code = 1 := by decide +kernel
  obtain ⟨houtput, _, _, hlines⟩ := o.run_eq_alone input read hdash
  exact ⟨hdash, houtput.trans (by decide +kernel), hcode, (hlines (by rw [hcode]; decide)).trans (by decide +kernel)⟩

end PerfectMatching.CommandLine
