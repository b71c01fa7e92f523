import Rage.RootTask
import Rage.WeakCollisions

/-!
What the root fingerprint tells apart.  A file's bytes are hashed with nothing behind them, so they
may go on with the records of what comes after the file.
-/

namespace Rage

/-! The text behind the command: a record for each input path, and one for each pair. -/

def inputRecord (fs : FileSystem) (path : Path) : Bytes :=
  match fs.read path with
  | some bytes => utf8 "present:" ++ toStringLossy path ++ nul ++ bytes
  | none => utf8 "missing:" ++ toStringLossy path ++ nul

def envField (pair : Bytes × Bytes) : Bytes := utf8 "env:" ++ joinedPair pair

def envText (pairs : List (Bytes × Bytes)) : Bytes :=
  (sortByKey pairs).flatMap fun pair => envField pair ++ [0]

def recordsText (fs : FileSystem) (paths : List Path) (pairs : List (Bytes × Bytes)) : Bytes :=
  paths.flatMap (inputRecord fs) ++ envText pairs

theorem rootTaskText_eq (fs : FileSystem) (task : Task) :
    rootTaskText fs task = utf8 "rage.root-task.v2" ++ nul ++ task.command ++ nul ++
      recordsText fs task.inputPaths task.envHashInputs := by
  have fields : (fun pair : Bytes × Bytes =>
      utf8 "env:" ++ pair.1 ++ utf8 "=" ++ pair.2 ++ nul) = fun pair => envField pair ++ [0] := by
    funext pair
    simp [envField, joinedPair, nul, (by decide : utf8 "=" = [equals])]
  rw [recordsText, ← List.append_assoc, envText, ← fields]
  rfl

theorem missing_ne_present (rest more : Bytes) :
    utf8 "missing:" ++ rest ≠ utf8 "present:" ++ more := by
  rw [(by decide : utf8 "missing:" = 109 :: utf8 "issing:"),
    (by decide : utf8 "present:" = 112 :: utf8 "resent:")]
  simp

/-! Pairs that are written alike. -/

/-- Different pairs with one text: the `=` of a key or value is taken for the separator, or a value
goes on behind a NUL with the records of other pairs. -/
def EnvImitated (pairs others : List (Bytes × Bytes)) : Prop :=
  ((sortByKey pairs).map joinedPair = (sortByKey others).map joinedPair ∧
    sortByKey pairs ≠ sortByKey others) ∨
  Framing.MovedTerminator 0 ((sortByKey pairs).map envField) ((sortByKey others).map envField)

theorem EnvImitated.ne {pairs others : List (Bytes × Bytes)} (imitated : EnvImitated pairs others) :
    sortByKey pairs ≠ sortByKey others := by
  rcases imitated with ⟨_, differ⟩ | moved
  · exact differ
  · intro same
    exact ((Framing.recut_lines_iff 0 _ _).mpr moved).ne (by rw [same])

theorem envText_eq_iff {pairs others : List (Bytes × Bytes)} :
    envText pairs = envText others ↔
      sortByKey pairs = sortByKey others ∨ EnvImitated pairs others := by
  have fields (pairs : List (Bytes × Bytes)) : envText pairs =
      ((sortByKey pairs).map envField).flatMap fun field => field ++ [0] := by
    simp only [envText, List.flatMap_map]
  have joined : (sortByKey pairs).map envField = (sortByKey others).map envField ↔
      (sortByKey pairs).map joinedPair = (sortByKey others).map joinedPair := by
    have tagged (pairs : List (Bytes × Bytes)) : pairs.map envField =
        (pairs.map joinedPair).map (utf8 "env:" ++ ·) := by
      rw [List.map_map]
      rfl
    rw [tagged, tagged]
    exact (List.map_injective_iff.mpr (List.append_right_injective _)).eq_iff
  rw [fields, fields, Framing.flatMap_eq_iff _ _ _ (by simp) (by simp), Framing.recut_lines_iff,
    joined, EnvImitated]
  by_cases same : sortByKey pairs = sortByKey others
  · simp [same]
  · simp [same]

/-! Contents that are written alike. -/

section

variable (fs now : FileSystem) (pairs others : List (Bytes × Bytes)) (paths : List Path)

def SameContents : Prop := ∀ path ∈ paths, fs.read path = now.read path

/-- The first file that differs has more bytes in the second state, and these are what the first
state has in the records behind that file. -/
def ContentGoesOn : Prop :=
  ∃ before path after content more, paths = before ++ path :: after ∧
    SameContents fs now before ∧ fs.read path = some content ∧
    now.read path = some (content ++ more) ∧ more ≠ [] ∧
    recordsText fs after pairs = more ++ recordsText now after others

variable {fs now pairs others paths}

theorem recordsText_cons (path : Path) : recordsText fs (path :: paths) pairs =
    inputRecord fs path ++ recordsText fs paths pairs := by
  rw [recordsText, List.flatMap_cons, List.append_assoc, recordsText]

theorem recordsText_append {before : List Path} : recordsText fs (before ++ paths) pairs =
    before.flatMap (inputRecord fs) ++ recordsText fs paths pairs := by
  rw [recordsText, List.flatMap_append, List.append_assoc, recordsText]

theorem inputRecord_congr {path : Path} (same : fs.read path = now.read path) :
    inputRecord fs path = inputRecord now path := by
  rw [inputRecord, inputRecord, same]

theorem SameContents.records (same : SameContents fs now paths) :
    paths.flatMap (inputRecord fs) = paths.flatMap (inputRecord now) := by
  rw [List.flatMap_congr fun path member => inputRecord_congr (same path member)]

theorem ContentGoesOn.text (goesOn : ContentGoesOn fs now pairs others paths) :
    recordsText fs paths pairs = recordsText now paths others := by
  obtain ⟨before, path, after, content, more, rfl, same, here, there, _, behind⟩ := goesOn
  rw [recordsText_append, recordsText_append, same.records, recordsText_cons, recordsText_cons,
    behind, inputRecord, inputRecord, here, there]
  simp

theorem ContentGoesOn.ne (goesOn : ContentGoesOn fs now pairs others paths) :
    ¬ SameContents fs now paths := by
  obtain ⟨before, path, after, content, more, rfl, _, here, there, filled, _⟩ := goesOn
  intro same
  have equal := same path (by simp)
  rw [here, there, Option.some.injEq] at equal
  exact filled (by simpa using equal)

theorem ContentGoesOn.cons {path : Path} (same : fs.read path = now.read path)
    (goesOn : ContentGoesOn fs now pairs others paths) :
    ContentGoesOn fs now pairs others (path :: paths) := by
  obtain ⟨before, first, after, content, more, rfl, contents, ends⟩ := goesOn
  refine ⟨path :: before, first, after, content, more, rfl, ?_, ends⟩
  intro read member
  rcases List.mem_cons.mp member with rfl | later
  · exact same
  · exact contents read later

theorem SameContents.symm (same : SameContents fs now paths) : SameContents now fs paths :=
  fun path member => (same path member).symm

/-- Where the texts agree, either nothing differs, or the first difference is imitated. -/
theorem recordsText_cases (same : recordsText fs paths pairs = recordsText now paths others) :
    (SameContents fs now paths ∧ envText pairs = envText others) ∨
      ContentGoesOn fs now pairs others paths ∨ ContentGoesOn now fs others pairs paths := by
  induction paths with
  | nil => exact Or.inl ⟨by simp [SameContents], same⟩
  | cons path rest ih =>
      rw [recordsText_cons, recordsText_cons] at same
      have deeper (reads : fs.read path = now.read path) :
          (SameContents fs now (path :: rest) ∧ envText pairs = envText others) ∨
            ContentGoesOn fs now pairs others (path :: rest) ∨
              ContentGoesOn now fs others pairs (path :: rest) := by
        rw [inputRecord_congr reads] at same
        rcases ih (List.append_cancel_left same) with ⟨contents, env⟩ | goesOn | goesOn
        · refine Or.inl ⟨fun read member => ?_, env⟩
          rcases List.mem_cons.mp member with rfl | later
          · exact reads
          · exact contents read later
        · exact Or.inr (Or.inl (goesOn.cons reads))
        · exact Or.inr (Or.inr (goesOn.cons reads.symm))
      cases here : fs.read path with
      | none =>
          cases there : now.read path with
          | none => exact deeper (by rw [here, there])
          | some bytes =>
              simp only [inputRecord, here, there, List.append_assoc] at same
              exact (missing_ne_present _ _ same).elim
      | some content =>
          cases there : now.read path with
          | none =>
              simp only [inputRecord, here, there, List.append_assoc] at same
              exact (missing_ne_present _ _ same.symm).elim
          | some bytes =>
              by_cases equal : content = bytes
              · exact deeper (by rw [here, there, equal])
              · simp only [inputRecord, here, there, List.append_assoc] at same
                have tails := List.append_cancel_left (List.append_cancel_left
                  (List.append_cancel_left same))
                rcases List.append_eq_append_iff.mp tails with
                  ⟨more, longer, ends⟩ | ⟨more, longer, ends⟩
                · refine Or.inr (Or.inl ⟨[], path, rest, content, more, rfl, by simp [SameContents],
                    here, by rw [there, longer], ?_, ends⟩)
                  rintro rfl
                  exact equal (by simpa using longer.symm)
                · refine Or.inr (Or.inr ⟨[], path, rest, bytes, more, rfl, by simp [SameContents],
                    there, by rw [here, longer], ?_, ends⟩)
                  rintro rfl
                  exact equal (by simpa using longer)

theorem recordsText_eq_iff : recordsText fs paths pairs = recordsText now paths others ↔
    (SameContents fs now paths ∧ envText pairs = envText others) ∨
      ContentGoesOn fs now pairs others paths ∨ ContentGoesOn now fs others pairs paths := by
  constructor
  · exact recordsText_cases
  · rintro (⟨contents, env⟩ | goesOn | goesOn)
    · rw [recordsText, recordsText, contents.records, env]
    · exact goesOn.text
    · exact goesOn.text.symm

end

theorem root_separates_iff (crates : Crates) (injective : Function.Injective crates.blake3)
    (fs now : FileSystem) (task other : Task) (sameCommand : task.command = other.command)
    (samePaths : task.inputPaths = other.inputPaths) :
    (rootTaskFingerprint crates fs task = rootTaskFingerprint crates now other →
      SameContents fs now task.inputPaths ∧
        sortByKey task.envHashInputs = sortByKey other.envHashInputs) ↔
    ¬ ContentGoesOn fs now task.envHashInputs other.envHashInputs task.inputPaths ∧
      ¬ ContentGoesOn now fs other.envHashInputs task.envHashInputs task.inputPaths ∧
      ¬ (SameContents fs now task.inputPaths ∧
        EnvImitated task.envHashInputs other.envHashInputs) := by
  have texts : rootTaskFingerprint crates fs task = rootTaskFingerprint crates now other ↔
      recordsText fs task.inputPaths task.envHashInputs =
        recordsText now task.inputPaths other.envHashInputs := by
    rw [rootTaskFingerprint, rootTaskFingerprint, hex_injective.eq_iff, injective.eq_iff,
      rootTaskText_eq, rootTaskText_eq, sameCommand, samePaths, List.append_cancel_left_eq]
  rw [texts, recordsText_eq_iff, envText_eq_iff]
  constructor
  · intro separates
    refine ⟨fun goesOn => ?_, fun goesOn => ?_, fun ⟨contents, imitated⟩ => ?_⟩
    · exact goesOn.ne (separates (Or.inr (Or.inl goesOn))).1
    · exact goesOn.ne (separates (Or.inr (Or.inr goesOn))).1.symm
    · exact imitated.ne (separates (Or.inl ⟨contents, Or.inr imitated⟩)).2
  · rintro ⟨stays, staysBack, plain⟩ (⟨contents, same | imitated⟩ | goesOn | goesOn)
    · exact ⟨contents, same⟩
    · exact (plain ⟨contents, imitated⟩).elim
    · exact (stays goesOn).elim
    · exact (staysBack goesOn).elim

/-! A file whose bytes are the record of the next one. -/

namespace TwoInputs

def first : Path := utf8 "/ws/a"

def second : Path := utf8 "/ws/b"

def install : Task := { Sample.install with inputPaths := [first, second] }

def disk (content other : Bytes) : FileSystem :=
  ⟨[(components first, ⟨.file content true, false⟩), (components second, ⟨.file other true, false⟩)]⟩

def record : Bytes := utf8 "present:/ws/b" ++ nul

def before : FileSystem := disk [] (record ++ utf8 "1")

def after : FileSystem := disk record (utf8 "1")

end TwoInputs

open TwoInputs in
theorem root_separates_once :
    (rootTaskFingerprint .plain before install = rootTaskFingerprint .plain after install →
      SameContents before after [first, second] ∧ sortByKey [] = sortByKey []) ↔
    ¬ ContentGoesOn before after [] [] [first, second] ∧
      ¬ ContentGoesOn after before [] [] [first, second] ∧
      ¬ (SameContents before after [first, second] ∧ EnvImitated [] []) :=
  root_separates_iff .plain Crates.plain_ideal.injective before after install install rfl rfl

open TwoInputs in
theorem root_imitated :
    ¬ ∀ (crates : Crates), Function.Injective crates.blake3 → ∀ (fs now : FileSystem)
        (task other : Task), task.command = other.command → task.inputPaths = other.inputPaths →
      rootTaskFingerprint crates fs task = rootTaskFingerprint crates now other →
      SameContents fs now task.inputPaths ∧
        sortByKey task.envHashInputs = sortByKey other.envHashInputs := by
  intro claimed
  have same := claimed .plain Crates.plain_ideal.injective before after install install rfl rfl
    (by decide +kernel)
  exact absurd (same.1 first (by decide)) (by decide)

end Rage
