import Rage.LockText
import Rage.PostinstallKeys

/-!
What the package manager says about install scripts, as `postinstall_tasks` reads it: two files line
by line, with no parser of YAML or of ini, and the lists of pnpm in `package.json`.
-/

namespace Rage.InstallScripts

open Lockfile PostinstallKeys

/-- A value of `serde_json`. -/
inductive Value
  | string (text : Bytes)
  | array (items : List Value)
  | object (entries : List (Bytes × Value))
  | other

namespace Value

def get (key : String) : Value → Option Value
  | object entries => (entries.find? fun entry => entry.1 = utf8 key).map Prod.snd
  | _ => none

def asArray : Value → Option (List Value)
  | array items => some items
  | _ => none

def asStr : Value → Option Bytes
  | string text => some text
  | _ => none

end Value

/-- What the formats themselves make of a file. -/
structure Formats where
  /-- The setting `enableScripts` of a YAML document. -/
  enableScripts : Bytes → Option Bool
  /-- The setting `ignore-scripts` of an ini file. -/
  ignoreScripts : Bytes → Option Bool
  /-- `serde_json::from_str`. -/
  fromStr : List Char → Option Value

/-- The workspace, with the files at its root that are there. -/
structure Root where
  yarnrc : Option Bytes
  npmrc : Option Bytes
  packageJson : Option Bytes
  nodeModules : List TopEntry
  lockfile : Option (List LockfilePackage)

/-! `read_pm_script_policy`. -/

def readToString (file : Option Bytes) : Option (List Char) :=
  file.bind fun bytes => (String.fromUTF8? ⟨bytes.toArray⟩).map String.toList

def yarnrcDisables (line : List Char) : Bool :=
  let trimmed := trim line
  if trimmed.head? = some '#' then false
  else
    match stripPrefix "enableScripts:" trimmed with
    | some rest => trim rest = "false".toList
    | none => false

def eqIgnoreAsciiCase (text : List Char) (word : String) : Bool :=
  text.map Char.toLower = word.toList.map Char.toLower

def npmrcDisables (line : List Char) : Bool :=
  let trimmed := trim line
  if trimmed.head? = some '#' ∨ trimmed.head? = some ';' then false
  else
    match trimmed.dropWhile (· ≠ '=') with
    | [] => false
    | _ :: rest =>
        let key := trim (trimmed.takeWhile (· ≠ '='))
        let value := trim ((trim rest).dropWhile (· = '='))
        eqIgnoreAsciiCase key "ignore-scripts" && eqIgnoreAsciiCase value "true"

def anyLine (disables : List Char → Bool) (file : Option Bytes) : Bool :=
  ((readToString file).map fun content => (lines content).any disables).getD false

/-- The strings of an array under `pnpm`. -/
def pnpmList (formats : Formats) (root : Root) (key : String) : Option (List Bytes) := do
  let content ← readToString root.packageJson
  let json ← formats.fromStr content
  let pnpm ← json.get "pnpm"
  let list ← pnpm.get key
  let items ← list.asArray
  return items.filterMap Value.asStr

def onlyBuilt (formats : Formats) (root : Root) : Option (List Bytes) :=
  pnpmList formats root "onlyBuiltDependencies"

def neverBuilt (formats : Formats) (root : Root) : Option (List Bytes) :=
  pnpmList formats root "neverBuiltDependencies"

def readPmScriptPolicy (formats : Formats) (root : Root) : ScriptPolicy :=
  if anyLine yarnrcDisables root.yarnrc then .allDisabled
  else if anyLine npmrcDisables root.npmrc then .allDisabled
  else
    match onlyBuilt formats root with
    | some names => .allowlist names
    | none =>
        match neverBuilt formats root with
        | some names => .neverList names
        | none => .allEnabled

def Root.workspace (formats : Formats) (root : Root) : PostinstallKeys.Workspace where
  policy := readPmScriptPolicy formats root
  nodeModules := root.nodeModules
  lockfile := root.lockfile

def Root.postinstallTasks (formats : Formats) (root : Root) : List PostinstallTask :=
  PostinstallKeys.postinstallTasks (root.workspace formats)

/-! What the configuration forbids. -/

inductive Disabled (formats : Formats) (root : Root) : Prop
  | yarnrc (content : Bytes) (isFile : root.yarnrc = some content)
      (disables : formats.enableScripts content = some false)
  | npmrc (content : Bytes) (isFile : root.npmrc = some content)
      (disables : formats.ignoreScripts content = some true)

inductive Forbidden (formats : Formats) (root : Root) (name : Bytes) : Prop
  | disabled (isDisabled : Disabled formats root)
  | notOnlyBuilt (names : List Bytes) (isList : onlyBuilt formats root = some names)
      (absent : name ∉ names)
  | neverBuilt (names : List Bytes) (isList : neverBuilt formats root = some names)
      (listed : name ∈ names)

/-! Lines that the scanners know. -/

def Blank (text : List Char) : Prop := ∀ char ∈ text, isWhitespace char = true

/-- A plain key, a plain lower-case value, and nothing after it. -/
structure YarnrcLine (line : List Char) where
  front : List Char
  gap : List Char
  back : List Char
  isLine : line = front ++ ("enableScripts:".toList ++ (gap ++ ("false".toList ++ back)))
  frontBlank : Blank front
  gapBlank : Blank gap
  backBlank : Blank back

/-- The same for `.npmrc`, where `=` may be repeated and the case of letters does not matter. -/
structure NpmrcLine (line : List Char) where
  front : List Char
  key : List Char
  gap : List Char
  inner : List Char
  equals : List Char
  space : List Char
  value : List Char
  back : List Char
  isLine : line =
    front ++ ((key ++ (gap ++ '=' :: (inner ++ (equals ++ (space ++ value))))) ++ back)
  isKey : key.map Char.toLower = "ignore-scripts".toList
  isValue : value.map Char.toLower = "true".toList
  allEquals : ∀ char ∈ equals, char = '='
  frontBlank : Blank front
  gapBlank : Blank gap
  innerBlank : Blank inner
  spaceBlank : Blank space
  backBlank : Blank back

/-- Some line of the files says in so many words that scripts are off. -/
inductive SpelledOut (root : Root) : Prop
  | yarnrc (content line : List Char) (isText : readToString root.yarnrc = some content)
      (isLine : line ∈ lines content) (spelled : YarnrcLine line)
  | npmrc (content line : List Char) (isText : readToString root.npmrc = some content)
      (isLine : line ∈ lines content) (spelled : NpmrcLine line)

/-- What the lists of pnpm alone let through, the first of them before the second. -/
inductive Listed (formats : Formats) (root : Root) (name : Bytes) : Prop
  | onlyBuilt (names : List Bytes) (isList : onlyBuilt formats root = some names)
      (listed : name ∈ names)
  | neverBuilt (names : List Bytes) (noList : InstallScripts.onlyBuilt formats root = none)
      (isList : neverBuilt formats root = some names) (absent : name ∉ names)
  | noList (noOnly : InstallScripts.onlyBuilt formats root = none)
      (noNever : InstallScripts.neverBuilt formats root = none)

def scripted (root : Root) : List Bytes :=
  (scanPostinstallScripts root.nodeModules).map RawPostinstallTask.packageName

/-- Where scripts are off they are so in a spelling that the scanners know, or there are none that
the lists let through; and no package with a script is in both lists. -/
structure Plain (formats : Formats) (root : Root) : Prop where
  disabled : Disabled formats root →
    SpelledOut root ∨ ∀ name ∈ scripted root, ¬ Listed formats root name
  bothLists : ∀ only never, onlyBuilt formats root = some only →
    neverBuilt formats root = some never → ∀ name ∈ scripted root, name ∈ only → name ∈ never →
      SpelledOut root

/-! The scanners know these lines and no others. -/

theorem blank_append {first second : List Char} (firstBlank : Blank first)
    (secondBlank : Blank second) : Blank (first ++ second) := by
  intro char member
  exact (List.mem_append.mp member).elim (firstBlank char) (secondBlank char)

theorem blank_takeWhile (text : List Char) : Blank (text.takeWhile isWhitespace) :=
  fun _ member => List.mem_takeWhile_imp member

/-- What `trim` takes away. -/
theorem exists_trim (text : List Char) :
    ∃ front back, Blank front ∧ Blank back ∧ text = front ++ (trim text ++ back) := by
  let core := text.dropWhile isWhitespace
  refine ⟨text.takeWhile isWhitespace, (core.reverse.takeWhile isWhitespace).reverse,
    blank_takeWhile text, ?_, ?_⟩
  · intro char member
    exact List.mem_takeWhile_imp (List.mem_reverse.mp member)
  · have isCore : core = trimEndMatches isWhitespace core ++
        (core.reverse.takeWhile isWhitespace).reverse := by
      rw [trimEndMatches, ← List.reverse_append, List.takeWhile_append_dropWhile,
        List.reverse_reverse]
    calc text = text.takeWhile isWhitespace ++ core := (List.takeWhile_append_dropWhile).symm
      _ = _ := by rw [trim, trimMatches, ← isCore]

theorem toLower_blank {char : Char} (blank : isWhitespace char = true) : char.toLower = char := by
  refine dif_neg fun upper => ?_
  have low : 65 ≤ char.toNat := upper.1
  have high : char.toNat ≤ 90 := upper.2
  simp [isWhitespace] at blank
  omega

theorem not_blank_of_lower {char lower : Char} (lowered : char.toLower = lower)
    (stays : isWhitespace lower = false) : isWhitespace char = false := by
  rw [Bool.eq_false_iff]
  intro blank
  rw [← lowered, toLower_blank blank, blank] at stays
  contradiction

theorem word_ends {text word : List Char} (first last : Char)
    (lowered : text.map Char.toLower = word) (isFirst : word.head? = some first)
    (isLast : word.getLast? = some last) (firstStays : isWhitespace first = false)
    (lastStays : isWhitespace last = false) : ∃ start stop, text.head? = some start ∧
      text.getLast? = some stop ∧ isWhitespace start = false ∧ isWhitespace stop = false := by
  rw [← lowered, List.head?_map, Option.map_eq_some_iff] at isFirst
  rw [← lowered, List.getLast?_map, Option.map_eq_some_iff] at isLast
  obtain ⟨start, isStart, lowerStart⟩ := isFirst
  obtain ⟨stop, isStop, lowerStop⟩ := isLast
  exact ⟨start, stop, isStart, isStop, not_blank_of_lower lowerStart firstStays,
    not_blank_of_lower lowerStop lastStays⟩

theorem key_ends {key : List Char} (isKey : key.map Char.toLower = "ignore-scripts".toList) :
    ∃ start stop, key.head? = some start ∧ key.getLast? = some stop ∧
      isWhitespace start = false ∧ isWhitespace stop = false :=
  word_ends 'i' 's' isKey (by decide) (by decide) (by decide) (by decide)

theorem value_ends {value : List Char} (isValue : value.map Char.toLower = "true".toList) :
    ∃ start stop, value.head? = some start ∧ value.getLast? = some stop ∧
      isWhitespace start = false ∧ isWhitespace stop = false :=
  word_ends 't' 'e' isValue (by decide) (by decide) (by decide) (by decide)

theorem yarnrcDisables_iff {line : List Char} :
    yarnrcDisables line = true ↔ Nonempty (YarnrcLine line) := by
  constructor
  · intro disables
    obtain ⟨front, back, frontBlank, backBlank, isLine⟩ := exists_trim line
    unfold yarnrcDisables at disables
    simp only at disables
    split at disables
    · simp at disables
    · split at disables
      · rename_i rest isRest
        obtain ⟨gap, after, gapBlank, afterBlank, isValue⟩ := exists_trim rest
        rw [of_decide_eq_true disables] at isValue
        rw [stripPrefix_eq_some.mp isRest, isValue] at isLine
        refine ⟨⟨front, gap, after ++ back, ?_, frontBlank, gapBlank,
          blank_append afterBlank backBlank⟩⟩
        rw [isLine]
        simp only [List.append_assoc]
      · simp at disables
  · rintro ⟨⟨front, gap, back, isLine, frontBlank, gapBlank, backBlank⟩⟩
    let core := "enableScripts:".toList ++ (gap ++ "false".toList)
    have isCore : trim line = core := by
      have isSplit : line = front ++ (core ++ back) := by
        rw [isLine]
        simp only [core, List.append_assoc]
      rw [isSplit]
      have isLast : core.getLast? = some 'e' := by
        have isSplit : core = ("enableScripts:".toList ++ gap) ++ "false".toList :=
          (List.append_assoc ..).symm
        rw [isSplit, List.getLast?_append_of_ne_nil _ (by decide)]
        rfl
      exact trim_core frontBlank backBlank (List.head?_cons) isLast (by decide) (by decide)
    have isValue : trim (gap ++ "false".toList) = "false".toList := by
      have trimmed : trim (gap ++ ("false".toList ++ [])) = "false".toList :=
        trim_core gapBlank (List.forall_mem_nil _) (List.head?_cons) (List.getLast?_singleton)
          (by decide) (by decide)
      simpa using trimmed
    have isRest : stripPrefix "enableScripts:" core = some (gap ++ "false".toList) :=
      stripPrefix_eq_some.mpr rfl
    have noComment : core.head? ≠ some '#' := by simp [core]
    simp only [yarnrcDisables, isCore, if_neg noComment, isRest, isValue, decide_true]

theorem dropWhile_ne {front : List Char} {char : Char} (free : char ∉ front) (rest : List Char) :
    (front ++ char :: rest).dropWhile (· ≠ char) = char :: rest ∧
    (front ++ char :: rest).takeWhile (· ≠ char) = front := by
  have stays : ∀ other ∈ front, decide (other ≠ char) = true := by
    intro other member
    exact decide_eq_true fun same => free (same ▸ member)
  constructor
  · rw [List.dropWhile_append_of_pos stays, List.dropWhile_cons_of_neg (by simp)]
  · rw [List.takeWhile_append_of_pos stays, List.takeWhile_cons_of_neg (by simp), List.append_nil]

theorem not_mem_of_lower {text : List Char} {word : String}
    (lowered : text.map Char.toLower = word.toList) {char : Char} (same : char.toLower = char)
    (free : char ∉ word.toList) : char ∉ text := by
  intro member
  have inWord := List.mem_map_of_mem (f := Char.toLower) member
  rw [lowered, same] at inWord
  exact free inWord

theorem not_mem_blank {text : List Char} (blank : Blank text) {char : Char}
    (stays : isWhitespace char = false) : char ∉ text := by
  intro member
  rw [blank char member] at stays
  contradiction

theorem eqIgnoreAsciiCase_iff {text : List Char} {word : String}
    (lower : word.toList.map Char.toLower = word.toList) :
    eqIgnoreAsciiCase text word = true ↔ text.map Char.toLower = word.toList := by
  rw [eqIgnoreAsciiCase, lower, decide_eq_true_iff]

theorem trim_value {inner equals space value : List Char} (innerBlank : Blank inner)
    (allEquals : ∀ char ∈ equals, char = '=') (spaceBlank : Blank space)
    (isValue : value.map Char.toLower = "true".toList) :
    trim ((trim (inner ++ (equals ++ (space ++ value)))).dropWhile (· = '=')) = value := by
  obtain ⟨start, stop, isStart, isStop, startStays, stopStays⟩ := value_ends isValue
  have trimmed {front : List Char} (blank : Blank front) : trim (front ++ value) = value := by
    have isTrim : trim (front ++ (value ++ [])) = value :=
      trim_core blank (List.forall_mem_nil _) isStart isStop startStays stopStays
    rwa [List.append_nil] at isTrim
  have noEquals : '=' ∉ space ++ value := by
    rw [List.mem_append, not_or]
    exact ⟨not_mem_blank spaceBlank (by decide),
      not_mem_of_lower isValue (by decide) (by decide)⟩
  have kept : (space ++ value).dropWhile (· = '=') = space ++ value :=
    dropWhile_free fun char member => decide_eq_false fun same => noEquals (same ▸ member)
  cases equals with
  | nil =>
      have keptValue : value.dropWhile (· = '=') = value :=
        dropWhile_free fun char member =>
          decide_eq_false fun same => noEquals (same ▸ List.mem_append_right _ member)
      have whole : trim value = value := trimmed (List.forall_mem_nil _)
      rw [List.nil_append, ← List.append_assoc, trimmed (blank_append innerBlank spaceBlank),
        keptValue, whole]
  | cons char rest =>
      obtain rfl : char = '=' := allEquals char (by simp)
      have restEquals : ∀ char ∈ rest, decide (char = '=') = true :=
        fun char member => decide_eq_true (allEquals char (List.mem_cons_of_mem _ member))
      have filled : value ≠ [] := by
        rintro rfl
        simp at isStop
      have isLast : ('=' :: (rest ++ (space ++ value))).getLast? = some stop := by
        have isSplit : '=' :: (rest ++ (space ++ value)) = ('=' :: (rest ++ space)) ++ value := by
          simp only [List.cons_append, List.append_assoc]
        rw [isSplit, List.getLast?_append_of_ne_nil _ filled, isStop]
      have isTrim : trim (inner ++ (('=' :: (rest ++ (space ++ value))) ++ [])) =
          '=' :: (rest ++ (space ++ value)) :=
        trim_core innerBlank (List.forall_mem_nil _) List.head?_cons isLast (by decide)
          stopStays
      rw [List.append_nil] at isTrim
      rw [List.cons_append, isTrim, List.dropWhile_cons_of_pos (by simp),
        List.dropWhile_append_of_pos restEquals, kept, trimmed spaceBlank]

theorem exists_npmrcLine {line : List Char} (disables : npmrcDisables line = true) :
    Nonempty (NpmrcLine line) := by
  obtain ⟨front, back, frontBlank, backBlank, isLine⟩ := exists_trim line
  unfold npmrcDisables at disables
  simp only at disables
  split at disables
  · simp at disables
  · split at disables
    · simp at disables
    · rename_i char rest isRest
      have isTrimmed : trim line = (trim line).takeWhile (· ≠ '=') ++ '=' :: rest := by
        have isEquals : char = '=' := by
          have stops := List.head?_dropWhile_not (· ≠ '=') (trim line)
          rw [isRest] at stops
          simpa using stops
        conv => lhs; rw [← List.takeWhile_append_dropWhile (p := (· ≠ '=')) (l := trim line)]
        rw [isRest, isEquals]
      rw [Bool.and_eq_true, eqIgnoreAsciiCase_iff (by decide), eqIgnoreAsciiCase_iff (by decide)]
        at disables
      obtain ⟨before, gap, beforeBlank, gapBlank, isBefore⟩ :=
        exists_trim ((trim line).takeWhile (· ≠ '='))
      obtain ⟨inner, after, innerBlank, afterBlank, isAfter⟩ := exists_trim rest
      obtain ⟨space, last, spaceBlank, lastBlank, isSpace⟩ :=
        exists_trim ((trim rest).dropWhile (· = '='))
      have isTrim : trim rest = (trim rest).takeWhile (· = '=') ++
          (trim rest).dropWhile (· = '=') := List.takeWhile_append_dropWhile.symm
      have allEquals : ∀ char ∈ (trim rest).takeWhile (· = '='), char = '=' :=
        fun char member => of_decide_eq_true
          (List.mem_takeWhile_imp (p := fun char => decide (char = '=')) member)
      generalize trim ((trim line).takeWhile (· ≠ '=')) = key at disables isBefore
      generalize trim ((trim rest).dropWhile (· = '=')) = value at disables isSpace
      generalize (trim rest).takeWhile (· = '=') = equals at isTrim allEquals
      rw [isBefore] at isTrimmed
      rw [isSpace] at isTrim
      rw [isTrim] at isAfter
      rw [isAfter] at isTrimmed
      rw [isTrimmed] at isLine
      refine ⟨⟨front ++ before, key, gap, inner, equals, space, value,
        last ++ (after ++ back), ?_, disables.1, disables.2, allEquals,
        blank_append frontBlank beforeBlank, gapBlank, innerBlank, spaceBlank,
        blank_append lastBlank (blank_append afterBlank backBlank)⟩⟩
      rw [isLine]
      simp only [List.append_assoc, List.cons_append]

theorem NpmrcLine.disables {line : List Char} (spelled : NpmrcLine line) :
    npmrcDisables line = true := by
  obtain ⟨front, key, gap, inner, equals, space, value, back, isLine, isKey, isValue, allEquals,
    frontBlank, gapBlank, innerBlank, spaceBlank, backBlank⟩ := spelled
  obtain ⟨first, keyLast, isFirst, isKeyLast, firstStays, keyLastStays⟩ := key_ends isKey
  obtain ⟨start, last, isStart, isLast, startStays, lastStays⟩ := value_ends isValue
  have isTrim : trim line = key ++ (gap ++ '=' :: (inner ++ (equals ++ (space ++ value)))) := by
    rw [isLine]
    refine trim_core frontBlank backBlank ?_ ?_ firstStays lastStays
    · rw [List.head?_append, isFirst, Option.some_or]
    · have filled : value ≠ [] := by
        rintro rfl
        simp at isLast
      have isSplit : key ++ (gap ++ '=' :: (inner ++ (equals ++ (space ++ value)))) =
          (key ++ (gap ++ '=' :: (inner ++ (equals ++ space)))) ++ value := by
        simp only [List.append_assoc, List.cons_append]
      rw [isSplit, List.getLast?_append_of_ne_nil _ filled, isLast]
  have noComment : ¬ ((trim line).head? = some '#' ∨ (trim line).head? = some ';') := by
    rw [isTrim, List.head?_append, isFirst, Option.some_or, Option.some.injEq, Option.some.injEq,
      not_or]
    have inKey : first ∈ key := List.mem_of_head? isFirst
    constructor
    · rintro rfl
      exact not_mem_of_lower isKey (by decide) (by decide) inKey
    · rintro rfl
      exact not_mem_of_lower isKey (by decide) (by decide) inKey
  have noEquals : '=' ∉ key ++ gap := by
    rw [List.mem_append, not_or]
    exact ⟨not_mem_of_lower isKey (by decide) (by decide), not_mem_blank gapBlank (by decide)⟩
  obtain ⟨isRest, isFront⟩ := dropWhile_ne noEquals (inner ++ (equals ++ (space ++ value)))
  rw [List.append_assoc] at isRest isFront
  have isKeyTrim : trim (key ++ gap) = key := by
    have trimmed : trim ([] ++ (key ++ gap)) = key :=
      trim_core (List.forall_mem_nil _) gapBlank isFirst isKeyLast firstStays keyLastStays
    rwa [List.nil_append] at trimmed
  simp only [npmrcDisables, if_neg noComment]
  rw [isTrim, isRest, isFront, isKeyTrim]
  simp only [trim_value innerBlank allEquals spaceBlank isValue]
  rw [Bool.and_eq_true, eqIgnoreAsciiCase_iff (by decide), eqIgnoreAsciiCase_iff (by decide)]
  exact ⟨isKey, isValue⟩

theorem npmrcDisables_iff {line : List Char} :
    npmrcDisables line = true ↔ Nonempty (NpmrcLine line) :=
  ⟨exists_npmrcLine, fun ⟨spelled⟩ => spelled.disables⟩

/-! The tasks that are yielded. -/

theorem anyLine_iff {disables : List Char → Bool} {file : Option Bytes} :
    anyLine disables file = true ↔ ∃ content line, readToString file = some content ∧
      line ∈ lines content ∧ disables line = true := by
  unfold anyLine
  cases readToString file with
  | none => simp
  | some content => simp

theorem spelledOut_iff {root : Root} : SpelledOut root ↔
    anyLine yarnrcDisables root.yarnrc = true ∨ anyLine npmrcDisables root.npmrc = true := by
  rw [anyLine_iff, anyLine_iff]
  constructor
  · intro spelledOut
    cases spelledOut with
    | yarnrc content line isText isLine spelled =>
        exact Or.inl ⟨content, line, isText, isLine, yarnrcDisables_iff.mpr ⟨spelled⟩⟩
    | npmrc content line isText isLine spelled =>
        exact Or.inr ⟨content, line, isText, isLine, npmrcDisables_iff.mpr ⟨spelled⟩⟩
  · rintro (⟨content, line, isText, isLine, disables⟩ | ⟨content, line, isText, isLine, disables⟩)
    · obtain ⟨spelled⟩ := yarnrcDisables_iff.mp disables
      exact .yarnrc content line isText isLine spelled
    · obtain ⟨spelled⟩ := npmrcDisables_iff.mp disables
      exact .npmrc content line isText isLine spelled

section

variable {formats : Formats} {root : Root}

theorem readPmScriptPolicy_spelledOut (spelledOut : SpelledOut root) :
    readPmScriptPolicy formats root = .allDisabled := by
  unfold readPmScriptPolicy
  rcases spelledOut_iff.mp spelledOut with isYarnrc | isNpmrc
  · rw [if_pos isYarnrc]
  · rw [if_pos isNpmrc, ite_self]

theorem readPmScriptPolicy_lists (not_spelledOut : ¬ SpelledOut root) :
    readPmScriptPolicy formats root =
      match onlyBuilt formats root with
      | some names => .allowlist names
      | none =>
          match neverBuilt formats root with
          | some names => .neverList names
          | none => .allEnabled := by
  rw [spelledOut_iff, not_or] at not_spelledOut
  rw [readPmScriptPolicy, if_neg not_spelledOut.1, if_neg not_spelledOut.2]

theorem mem_applyPolicy {task : RawPostinstallTask} {tasks : List RawPostinstallTask}
    (not_spelledOut : ¬ SpelledOut root) :
    task ∈ applyPolicy tasks (readPmScriptPolicy formats root) ↔
      task ∈ tasks ∧ Listed formats root task.packageName := by
  rw [readPmScriptPolicy_lists not_spelledOut]
  cases isOnly : onlyBuilt formats root with
  | some names =>
      rw [applyPolicy, List.mem_filter, List.contains_iff_mem]
      constructor
      · rintro ⟨isTask, listed⟩
        exact ⟨isTask, .onlyBuilt names isOnly listed⟩
      · rintro ⟨isTask, listed⟩
        cases listed with
        | onlyBuilt other isList listed =>
            rw [isOnly] at isList
            exact ⟨isTask, Option.some.inj isList ▸ listed⟩
        | neverBuilt _ noList => simp [isOnly] at noList
        | noList noOnly => simp [isOnly] at noOnly
  | none =>
      cases isNever : neverBuilt formats root with
      | some names =>
          simp only [applyPolicy]
          rw [List.mem_filter, Bool.not_eq_true', ← Bool.not_eq_true, List.contains_iff_mem]
          constructor
          · rintro ⟨isTask, absent⟩
            exact ⟨isTask, .neverBuilt names isOnly isNever absent⟩
          · rintro ⟨isTask, listed⟩
            cases listed with
            | onlyBuilt _ isList => simp [isOnly] at isList
            | neverBuilt other _ isList absent =>
                rw [isNever] at isList
                exact ⟨isTask, Option.some.inj isList ▸ absent⟩
            | noList _ noNever => simp [isNever] at noNever
      | none =>
          constructor
          · intro isTask
            exact ⟨isTask, .noList isOnly isNever⟩
          · intro isTask
            exact isTask.1

theorem postinstallTasks_spelledOut (spelledOut : SpelledOut root) :
    root.postinstallTasks formats = [] :=
  if_pos (readPmScriptPolicy_spelledOut spelledOut)

theorem mem_packageName {name : Bytes} (not_spelledOut : ¬ SpelledOut root) :
    (∃ task ∈ root.postinstallTasks formats, task.packageName = name) ↔
      name ∈ scripted root ∧ Listed formats root name := by
  have enabled : (root.workspace formats).policy ≠ .allDisabled := by
    have isPolicy : (root.workspace formats).policy = _ := readPmScriptPolicy_lists not_spelledOut
    intro disabled
    rw [isPolicy] at disabled
    split at disabled
    · simp at disabled
    · split at disabled <;> simp at disabled
  rw [Root.postinstallTasks, PostinstallKeys.postinstallTasks, if_neg enabled]
  constructor
  · rintro ⟨task, isTask, rfl⟩
    obtain ⟨raw, isRaw, rfl⟩ := List.mem_map.mp isTask
    obtain ⟨scanned, listed⟩ := (mem_applyPolicy not_spelledOut).mp isRaw
    exact ⟨List.mem_map_of_mem scanned, listed⟩
  · rintro ⟨scanned, listed⟩
    obtain ⟨raw, isRaw, rfl⟩ := List.mem_map.mp scanned
    exact ⟨_, List.mem_map_of_mem ((mem_applyPolicy not_spelledOut).mpr ⟨isRaw, listed⟩), rfl⟩

end

/-- No task of a package that the configuration forbids. -/
theorem tasks_permitted_iff (formats : Formats) (root : Root) :
    (∀ task ∈ root.postinstallTasks formats, ¬ Forbidden formats root task.packageName) ↔
      Plain formats root := by
  by_cases spelledOut : SpelledOut root
  · rw [postinstallTasks_spelledOut spelledOut]
    constructor
    · intro _
      exact ⟨fun _ => Or.inl spelledOut, fun _ _ _ _ _ _ _ _ => spelledOut⟩
    · intro _ task isTask
      simp at isTask
  · constructor
    · intro permitted
      have free {name : Bytes} (scanned : name ∈ scripted root)
          (listed : Listed formats root name) : ¬ Forbidden formats root name := by
        obtain ⟨task, isTask, rfl⟩ := (mem_packageName spelledOut).mpr ⟨scanned, listed⟩
        exact permitted task isTask
      constructor
      · intro disabled
        exact Or.inr fun name scanned listed => free scanned listed (.disabled disabled)
      · intro only never isOnly isNever name scanned inOnly inNever
        have allowed := free scanned (.onlyBuilt only isOnly inOnly)
        exact (allowed (.neverBuilt never isNever inNever)).elim
    · intro plain task isTask forbidden
      obtain ⟨scanned, listed⟩ := (mem_packageName spelledOut).mp ⟨task, isTask, rfl⟩
      cases forbidden with
      | disabled disabled =>
          exact (plain.disabled disabled).elim spelledOut fun none => none _ scanned listed
      | notOnlyBuilt names isList absent =>
          cases listed with
          | onlyBuilt other isOther listed =>
              rw [isList] at isOther
              exact absent (Option.some.inj isOther ▸ listed)
          | neverBuilt _ noList => simp [isList] at noList
          | noList noOnly => simp [isList] at noOnly
      | neverBuilt names isList inNever =>
          cases listed with
          | onlyBuilt only isOnly inOnly =>
              exact spelledOut
                (plain.bothLists only names isOnly isList _ scanned inOnly inNever)
          | neverBuilt other _ isOther absent =>
              rw [isList] at isOther
              exact absent (Option.some.inj isOther ▸ inNever)
          | noList _ noNever => simp [isList] at noNever

/-! Ways to write one setting on a line of its own, and which of them are known. -/

inductive Quoting
  | plain
  | single
  | double
  deriving DecidableEq

def Quoting.around (word : List Char) : Quoting → List Char
  | .plain => word
  | .single => '\'' :: (word ++ ['\''])
  | .double => '"' :: (word ++ ['"'])

def spaces (count : Nat) : List Char := List.replicate count ' '

structure Spelling where
  indent : Nat
  key : Quoting
  before : Nat
  gap : Nat
  value : Quoting
  word : List Char
  back : Nat
  comment : Option (List Char)

/-- A comment stands apart from the value. -/
def Spelling.tail (spelling : Spelling) (mark : Char) : List Char :=
  match spelling.comment with
  | some comment => spaces (spelling.back + 1) ++ mark :: comment
  | none => spaces spelling.back

def Spelling.line (spelling : Spelling) (key : String) (separator mark : Char) : List Char :=
  spaces spelling.indent ++ (spelling.key.around key.toList ++ (spaces spelling.before ++
    separator :: (spaces spelling.gap ++ (spelling.value.around spelling.word ++
      spelling.tail mark))))

/-- In YAML a space follows the colon, and there are three ways to write the word. -/
structure YamlSpelling extends Spelling where
  apart : 0 < gap
  isFalse : word ∈ ["false".toList, "False".toList, "FALSE".toList]

def YamlSpelling.text (spelling : YamlSpelling) : List Char :=
  spelling.line "enableScripts" ':' '#'

structure IniSpelling extends Spelling where
  isTrue : word = "true".toList

def IniSpelling.text (spelling : IniSpelling) : List Char :=
  spelling.line "ignore-scripts" '=' ';'

theorem blank_spaces (count : Nat) : Blank (spaces count) := by
  intro char member
  rw [List.eq_of_mem_replicate member]
  decide

theorem YarnrcLine.mem {line : List Char} (known : YarnrcLine line) {char : Char}
    (member : char ∈ line) : isWhitespace char = true ∨ char ∈ "enableScripts:false".toList := by
  rw [known.isLine] at member
  simp only [List.mem_append] at member
  rcases member with inFront | inKey | inGap | inWord | inBack
  · exact Or.inl (known.frontBlank char inFront)
  · exact Or.inr (List.mem_append_left "false".toList inKey)
  · exact Or.inl (known.gapBlank char inGap)
  · exact Or.inr (List.mem_append_right "enableScripts:".toList inWord)
  · exact Or.inl (known.backBlank char inBack)

theorem NpmrcLine.mem {line : List Char} (known : NpmrcLine line) {char : Char}
    (member : char ∈ line) : isWhitespace char = true ∨ char = '=' ∨
      char.toLower ∈ "ignore-scripts".toList ∨ char.toLower ∈ "true".toList := by
  rw [known.isLine] at member
  simp only [List.mem_append, List.mem_cons] at member
  rcases member with
    inFront | (inKey | inGap | rfl | inInner | inEquals | inSpace | inValue) | inBack
  · exact Or.inl (known.frontBlank char inFront)
  · exact Or.inr (Or.inr (Or.inl (known.isKey ▸ List.mem_map_of_mem inKey)))
  · exact Or.inl (known.gapBlank char inGap)
  · exact Or.inr (Or.inl rfl)
  · exact Or.inl (known.innerBlank char inInner)
  · exact Or.inr (Or.inl (known.allEquals char inEquals))
  · exact Or.inl (known.spaceBlank char inSpace)
  · exact Or.inr (Or.inr (Or.inr (known.isValue ▸ List.mem_map_of_mem inValue)))
  · exact Or.inl (known.backBlank char inBack)

section

variable {spelling : Spelling} {key : String} {separator mark char : Char}

theorem mem_line_of_key (member : char ∈ spelling.key.around key.toList) :
    char ∈ spelling.line key separator mark :=
  List.mem_append_right _ (List.mem_append_left _ member)

theorem mem_line_of_value (member : char ∈ spelling.value.around spelling.word) :
    char ∈ spelling.line key separator mark := by
  refine List.mem_append_right _ (List.mem_append_right _ (List.mem_append_right _ ?_))
  exact List.mem_cons_of_mem _ (List.mem_append_right _ (List.mem_append_left _ member))

theorem mem_line_of_tail (member : char ∈ spelling.tail mark) :
    char ∈ spelling.line key separator mark := by
  refine List.mem_append_right _ (List.mem_append_right _ (List.mem_append_right _ ?_))
  exact List.mem_cons_of_mem _ (List.mem_append_right _ (List.mem_append_right _ member))

theorem mark_mem {comment : List Char} (isComment : spelling.comment = some comment) :
    mark ∈ spelling.line key separator mark := by
  refine mem_line_of_tail ?_
  rw [Spelling.tail, isComment]
  exact List.mem_append_right _ List.mem_cons_self

/-- A quoted part brings a quotation mark into the line. -/
theorem around_plain {quoting : Quoting} {word : List Char}
    (noSingle : '\'' ∉ quoting.around word) (noDouble : '"' ∉ quoting.around word) :
    quoting = .plain := by
  cases quoting with
  | plain => rfl
  | single => exact (noSingle List.mem_cons_self).elim
  | double => exact (noDouble List.mem_cons_self).elim

end

theorem yamlSpelling_known_iff (spelling : YamlSpelling) :
    Nonempty (YarnrcLine spelling.text) ↔ spelling.key = .plain ∧ spelling.before = 0 ∧
      spelling.value = .plain ∧ spelling.word = "false".toList ∧ spelling.comment = none := by
  constructor
  · rintro ⟨known⟩
    have free (char : Char) (stays : isWhitespace char = false)
        (other : char ∉ "enableScripts:false".toList) : char ∉ spelling.text := by
      intro member
      rcases known.mem member with blank | isOther
      · rw [blank] at stays
        contradiction
      · exact other isOther
    have isKey : spelling.key = .plain :=
      around_plain (fun member => free '\'' (by decide) (by decide) (mem_line_of_key member))
        (fun member => free '"' (by decide) (by decide) (mem_line_of_key member))
    have isValue : spelling.value = .plain :=
      around_plain (fun member => free '\'' (by decide) (by decide) (mem_line_of_value member))
        (fun member => free '"' (by decide) (by decide) (mem_line_of_value member))
    refine ⟨isKey, ?_, isValue, ?_, ?_⟩
    · have isLine : spaces spelling.indent ++ (spelling.key.around "enableScripts".toList ++
          (spaces spelling.before ++ ':' :: _)) = known.front ++ ("enableScripts:".toList ++ _) :=
        known.isLine
      rw [isKey] at isLine
      have same := congrArg (List.dropWhile isWhitespace) isLine
      rw [List.dropWhile_append_of_pos (blank_spaces _),
        List.dropWhile_append_of_pos known.frontBlank] at same
      have joined : "enableScripts".toList ++ (spaces spelling.before ++ ':' :: _) =
          "enableScripts".toList ++ ':' :: _ := same
      have after := List.append_cancel_left joined
      cases isBefore : spelling.before with
      | zero => rfl
      | succ count => simp [isBefore, spaces, List.replicate_succ] at after
    · have noUpper : 'F' ∉ spelling.word := by
        intro member
        refine free 'F' (by decide) (by decide) (mem_line_of_value ?_)
        rwa [isValue]
      have isFalse := spelling.isFalse
      simp only [List.mem_cons, List.not_mem_nil, or_false] at isFalse
      rcases isFalse with isWord | isWord | isWord
      · exact isWord
      · simp [isWord] at noUpper
      · simp [isWord] at noUpper
    · cases isComment : spelling.comment with
      | none => rfl
      | some comment => exact (free '#' (by decide) (by decide) (mark_mem isComment)).elim
  · rintro ⟨isKey, isBefore, isValue, isWord, noComment⟩
    refine ⟨⟨spaces spelling.indent, spaces spelling.gap, spaces spelling.back, ?_, blank_spaces _,
      blank_spaces _, blank_spaces _⟩⟩
    rw [YamlSpelling.text, Spelling.line, isKey, isBefore, isValue, isWord, Spelling.tail,
      noComment]
    rfl

theorem iniSpelling_known_iff (spelling : IniSpelling) :
    Nonempty (NpmrcLine spelling.text) ↔
      spelling.key = .plain ∧ spelling.value = .plain ∧ spelling.comment = none := by
  constructor
  · rintro ⟨known⟩
    have free (char : Char) (stays : isWhitespace char = false)
        (other : ¬ (char = '=' ∨ char.toLower ∈ "ignore-scripts".toList ∨
          char.toLower ∈ "true".toList)) : char ∉ spelling.text := by
      intro member
      rcases known.mem member with blank | isOther
      · rw [blank] at stays
        contradiction
      · exact other isOther
    refine ⟨?_, ?_, ?_⟩
    · exact around_plain (fun member => free '\'' (by decide) (by decide) (mem_line_of_key member))
        (fun member => free '"' (by decide) (by decide) (mem_line_of_key member))
    · exact around_plain
        (fun member => free '\'' (by decide) (by decide) (mem_line_of_value member))
        (fun member => free '"' (by decide) (by decide) (mem_line_of_value member))
    · cases isComment : spelling.comment with
      | none => rfl
      | some comment => exact (free ';' (by decide) (by decide) (mark_mem isComment)).elim
  · rintro ⟨isKey, isValue, noComment⟩
    refine ⟨⟨spaces spelling.indent, "ignore-scripts".toList, spaces spelling.before,
      spaces spelling.gap, [], [], "true".toList, spaces spelling.back, ?_, by decide, by decide,
      List.forall_mem_nil _, blank_spaces _, blank_spaces _, blank_spaces _, List.forall_mem_nil _,
      blank_spaces _⟩⟩
    rw [IniSpelling.text, Spelling.line, isKey, isValue, spelling.isTrue, Spelling.tail, noComment]
    simp only [Quoting.around, List.append_assoc, List.cons_append, List.nil_append]

/-! A reader of files that have one setting a line, for which all spellings are the same. -/

def unquote : List Char → List Char
  | '\'' :: rest => rest.dropLast
  | '"' :: rest => rest.dropLast
  | text => text

def settingIn (key : String) (separator mark : Char) (line : List Char) : Option (List Char) :=
  let text := line.takeWhile (· ≠ mark)
  match text.dropWhile (· ≠ separator) with
  | [] => none
  | _ :: value =>
      if unquote (trim (text.takeWhile (· ≠ separator))) = key.toList then
        some (unquote (trim value))
      else none

def readSetting (key : String) (separator mark : Char) (file : Bytes) : Option (List Char) :=
  (readToString (some file)).bind fun content =>
    (lines content).findSome? (settingIn key separator mark)

def yamlBool (word : List Char) : Option Bool :=
  if word ∈ ["false".toList, "False".toList, "FALSE".toList] then some false
  else if word ∈ ["true".toList, "True".toList, "TRUE".toList] then some true
  else none

def Formats.oneLine : Formats where
  enableScripts file := (readSetting "enableScripts" ':' '#' file).bind yamlBool
  ignoreScripts file := (readSetting "ignore-scripts" '=' ';' file).map fun word =>
    decide (word = "true".toList)
  fromStr _ := none

/-- A word that is read as it stands, with or without quotes. -/
structure Clean (word : List Char) (separator mark : Char) : Prop where
  filled : word ≠ []
  solid : ∀ char ∈ word, isWhitespace char = false
  unquoted : ∀ char ∈ word, char ≠ '\'' ∧ char ≠ '"'
  noSeparator : separator ∉ word
  noMark : mark ∉ word

section

variable {word : List Char} {separator mark : Char}

theorem unquote_around (clean : Clean word separator mark) (quoting : Quoting) :
    unquote (quoting.around word) = word := by
  cases quoting with
  | plain =>
      cases word with
      | nil => rfl
      | cons first rest =>
          have isFirst := clean.unquoted first List.mem_cons_self
          unfold Quoting.around unquote
          split
          · rename_i same
            exact (isFirst.1 (List.cons.inj same).1).elim
          · rename_i same
            exact (isFirst.2 (List.cons.inj same).1).elim
          · rfl
  | single => exact List.dropLast_concat
  | double => exact List.dropLast_concat

theorem not_mem_around {char : Char} (absent : char ∉ word)
    (notQuote : char ≠ '\'' ∧ char ≠ '"') (quoting : Quoting) : char ∉ quoting.around word := by
  cases quoting with
  | plain => exact absent
  | single => simp [Quoting.around, absent, notQuote.1]
  | double => simp [Quoting.around, absent, notQuote.2]

theorem trim_around (clean : Clean word separator mark) (quoting : Quoting) {front back : List Char}
    (frontBlank : Blank front) (backBlank : Blank back) :
    trim (front ++ (quoting.around word ++ back)) = quoting.around word := by
  cases quoting with
  | plain =>
      have isFirst := List.head?_eq_some_head clean.filled
      have isLast := List.getLast?_eq_some_getLast clean.filled
      exact trim_core frontBlank backBlank isFirst isLast
        (clean.solid _ (List.mem_of_head? isFirst)) (clean.solid _ (List.mem_of_getLast? isLast))
  | single =>
      exact trim_core frontBlank backBlank List.head?_cons
        (List.getLast?_concat (l := '\'' :: word)) (by decide) (by decide)
  | double =>
      exact trim_core frontBlank backBlank List.head?_cons
        (List.getLast?_concat (l := '"' :: word)) (by decide) (by decide)

/-- The comment is cut off, whether there is one or not. -/
theorem takeWhile_tail (spelling : Spelling) (isMark : isWhitespace mark = false) :
    ∃ back, Blank back ∧ (spelling.tail mark).takeWhile (· ≠ mark) = back := by
  cases isComment : spelling.comment with
  | none =>
      refine ⟨spaces spelling.back, blank_spaces _, ?_⟩
      rw [Spelling.tail, isComment, List.takeWhile_eq_self_iff]
      intro char member
      exact decide_eq_true fun same => not_mem_blank (blank_spaces _) isMark (same ▸ member)
  | some comment =>
      refine ⟨spaces (spelling.back + 1), blank_spaces _, ?_⟩
      rw [Spelling.tail, isComment]
      exact (dropWhile_ne (not_mem_blank (blank_spaces _) isMark) comment).2

/-- The reader takes every spelling for the word that it stands for. -/
theorem settingIn_line {spelling : Spelling} {key : String}
    (clean : Clean key.toList separator mark)
    (cleanWord : Clean spelling.word separator mark) (isMark : isWhitespace mark = false)
    (isSeparator : isWhitespace separator = false) (apart : mark ≠ separator)
    (markQuote : mark ≠ '\'' ∧ mark ≠ '"') (separatorQuote : separator ≠ '\'' ∧ separator ≠ '"') :
    settingIn key separator mark (spelling.line key separator mark) = some spelling.word := by
  obtain ⟨back, backBlank, isBack⟩ := takeWhile_tail spelling isMark
  let front := spaces spelling.indent ++ (spelling.key.around key.toList ++ spaces spelling.before)
  let value := spaces spelling.gap ++ (spelling.value.around spelling.word ++ back)
  have isText : (spelling.line key separator mark).takeWhile (· ≠ mark) =
      front ++ separator :: value := by
    let kept := front ++ separator :: (spaces spelling.gap ++ spelling.value.around spelling.word)
    have isSplit : spelling.line key separator mark = kept ++ spelling.tail mark := by
      simp only [Spelling.line, kept, front, List.append_assoc, List.cons_append]
    have noMark : mark ∉ kept := by
      have notSpaces (count : Nat) : mark ∉ spaces count := not_mem_blank (blank_spaces _) isMark
      simp only [kept, front, List.mem_append, List.mem_cons, not_or]
      exact ⟨⟨notSpaces _, not_mem_around clean.noMark markQuote _, notSpaces _⟩, apart,
        notSpaces _, not_mem_around cleanWord.noMark markQuote _⟩
    have stays : ∀ char ∈ kept, decide (char ≠ mark) = true :=
      fun char member => decide_eq_true fun same => noMark (same ▸ member)
    rw [isSplit, List.takeWhile_append_of_pos stays, isBack]
    simp only [kept, value, List.append_assoc, List.cons_append]
  have noSeparator : separator ∉ front := by
    simp only [front, List.mem_append, not_or]
    exact ⟨not_mem_blank (blank_spaces _) isSeparator,
      not_mem_around clean.noSeparator separatorQuote _, not_mem_blank (blank_spaces _) isSeparator⟩
  obtain ⟨isValue, isFront⟩ := dropWhile_ne noSeparator value
  simp only [settingIn, isText, isValue, isFront]
  rw [trim_around clean _ (blank_spaces _) (blank_spaces _), unquote_around clean, if_pos rfl,
    trim_around cleanWord _ (blank_spaces _) backBlank, unquote_around cleanWord]

end

def isClean (separator mark char : Char) : Bool :=
  !isWhitespace char && char != '\'' && char != '"' && char != separator && char != mark

theorem clean_of_all {word : List Char} {separator mark : Char} (filled : word ≠ [])
    (clean : word.all (isClean separator mark) = true) : Clean word separator mark := by
  have each (char : Char) (member : char ∈ word) := List.all_eq_true.mp clean char member
  simp only [isClean, Bool.and_eq_true, Bool.not_eq_true', bne_iff_ne] at each
  constructor
  · exact filled
  · intro char member
    exact (each char member).1.1.1.1
  · intro char member
    exact ⟨(each char member).1.1.1.2, (each char member).1.1.2⟩
  · intro member
    exact (each separator member).1.2 rfl
  · intro member
    exact (each mark member).2 rfl

/-- All these spellings turn scripts off, and the scanners know few of them
(`yamlSpelling_known_iff`, `iniSpelling_known_iff`). -/
theorem yamlSpelling_disables (spelling : YamlSpelling) :
    (settingIn "enableScripts" ':' '#' spelling.text).bind yamlBool = some false := by
  have clean : Clean spelling.word ':' '#' := by
    have isFalse := spelling.isFalse
    simp only [List.mem_cons, List.not_mem_nil, or_false] at isFalse
    rcases isFalse with isWord | isWord | isWord
    · exact isWord ▸ clean_of_all (by decide) (by decide)
    · exact isWord ▸ clean_of_all (by decide) (by decide)
    · exact isWord ▸ clean_of_all (by decide) (by decide)
  rw [YamlSpelling.text, settingIn_line (clean_of_all (by decide) (by decide)) clean
    (by decide) (by decide) (by decide) (by decide) (by decide), Option.bind_some]
  exact if_pos spelling.isFalse

theorem iniSpelling_disables (spelling : IniSpelling) :
    (settingIn "ignore-scripts" '=' ';' spelling.text).map
      (fun word => decide (word = "true".toList)) = some true := by
  have clean : Clean spelling.word '=' ';' :=
    spelling.isTrue ▸ clean_of_all (by decide) (by decide)
  rw [IniSpelling.text, settingIn_line (clean_of_all (by decide) (by decide)) clean
    (by decide) (by decide) (by decide) (by decide) (by decide), Option.map_some, spelling.isTrue]
  rfl

/-! A setting with a comment after it. -/

def commentedRoot : Root where
  yarnrc := some (utf8 "enableScripts: false # no third-party code\n")
  npmrc := none
  packageJson := none
  nodeModules := [⟨⟨utf8 "esbuild", true, ⟨some ⟨none, some "node install.js".toList⟩, []⟩⟩, []⟩]
  lockfile := none

/-- The task of a package whose scripts are off is yielded. -/
theorem commented_off_runs :
    Disabled Formats.oneLine commentedRoot ∧
    ¬ ∀ task ∈ commentedRoot.postinstallTasks Formats.oneLine,
      ¬ Forbidden Formats.oneLine commentedRoot task.packageName := by
  have disabled : Disabled Formats.oneLine commentedRoot := .yarnrc _ rfl (by decide +kernel)
  have yielded : (commentedRoot.postinstallTasks Formats.oneLine).map PostinstallTask.packageName =
      [utf8 "esbuild"] := by decide +kernel
  refine ⟨disabled, fun permitted => ?_⟩
  have isTask : utf8 "esbuild" ∈
      (commentedRoot.postinstallTasks Formats.oneLine).map PostinstallTask.packageName := by
    rw [yielded]
    exact List.mem_singleton_self _
  obtain ⟨task, isTask, _⟩ := List.mem_map.mp isTask
  exact permitted task isTask (.disabled disabled)

end Rage.InstallScripts
