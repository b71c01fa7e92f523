import Mathlib.Data.List.Infix
import Mathlib.Data.List.Sort
import Rage.NodePath

/-!
Which installed version a request names.  Directories are sorted as paths, so the bytes of their
names decide, and not the numbers that these spell.
-/

namespace Rage.VersionDirs

open NodePath

/-! Versions and their texts. -/

structure Release where
  major : Nat
  minor : Nat
  patch : Nat
  deriving DecidableEq

def Release.parts (release : Release) : List Nat := [release.major, release.minor, release.patch]

/-- The first number that differs decides. -/
def Release.Before (less : Nat → Nat → Prop) (first second : Release) : Prop :=
  less first.major second.major ∨ (first.major = second.major ∧
    (less first.minor second.minor ∨ (first.minor = second.minor ∧ less first.patch second.patch)))

abbrev Release.Below : Release → Release → Prop := Release.Before (· < ·)

def decimal (number : Nat) : Bytes :=
  (Nat.toDigits 10 number).map fun digit => UInt8.ofNat digit.toNat

def dotted (parts : List Nat) : Bytes := [dot].intercalate (parts.map decimal)

def spelled (leadingV : Bool) (parts : List Nat) : Bytes :=
  if leadingV then letterV :: dotted parts else dotted parts

structure VersionDir where
  leadingV : Bool
  release : Release
  deriving DecidableEq

def VersionDir.parts (dir : VersionDir) : List Nat := dir.release.parts

def VersionDir.name (dir : VersionDir) : Bytes := spelled dir.leadingV dir.parts

/-- A full version or a dotted prefix of one. -/
structure Request where
  leadingV : Bool
  parts : List Nat
  filled : parts ≠ []
  short : parts.length ≤ 3

namespace Request

def text (request : Request) : Bytes := spelled request.leadingV request.parts

def Asks (request : Request) (dir : VersionDir) : Prop := request.parts <+: dir.parts

instance (request : Request) (dir : VersionDir) : Decidable (request.Asks dir) :=
  inferInstanceAs (Decidable (_ <+: _))

end Request

/-- The directories below `base` are those of the installed versions.  Where there are any, `base`
can be listed. -/
structure Installed where
  machine : Machine
  base : Path
  dirs : List VersionDir
  isDir_iff : ∀ name : FileName,
    machine.isDir (Path.join base name.text) = true ↔ ∃ dir ∈ dirs, dir.name = name.text
  listed : ∀ dir ∈ dirs, ∃ names, machine.readDir base = some names ∧
    ∃ name ∈ names, name.text = dir.name

/-- The requested version, else the greatest one that extends it. -/
def Request.Resolves (request : Request) (installed : Installed) : Option Path → Prop
  | none => ∀ dir ∈ installed.dirs, ¬ request.Asks dir
  | some path => ∃ dir ∈ installed.dirs, path = Path.join installed.base dir.name ∧
      (dir.parts = request.parts ∨
        (∀ other ∈ installed.dirs, other.parts ≠ request.parts) ∧ request.Asks dir ∧
          ∀ other ∈ installed.dirs, request.Asks other → ¬ dir.release.Below other.release)

/-- A name without `v` comes first; otherwise the first number that differs decides, as a text. -/
def VersionDir.TextBelow (other dir : VersionDir) : Prop :=
  (other.leadingV = false ∧ dir.leadingV = true) ∨
    (other.leadingV = dir.leadingV ∧
      other.release.Before (fun first second => decimal first < decimal second) dir.release)

/-- Among those asked for, the greatest version is the last one in text order as well. -/
def Request.Ordered (request : Request) (installed : Installed) : Prop :=
  ∀ dir ∈ installed.dirs, request.Asks dir →
    ∃ best ∈ installed.dirs, request.Asks best ∧ ∀ other ∈ installed.dirs, request.Asks other →
      other.release = best.release ∨ (other.release.Below best.release ∧ other.TextBelow best)

/-! Decimal numbers. -/

theorem digit_range {number : Nat} {digit : Char} (member : digit ∈ Nat.toDigits 10 number) :
    48 ≤ digit.toNat ∧ digit.toNat ≤ 57 := by
  have isDigit := Nat.isDigit_of_mem_toDigits (by decide) (by decide) member
  rw [Char.isDigit, Bool.and_eq_true, decide_eq_true_eq, decide_eq_true_eq] at isDigit
  exact ⟨UInt32.le_iff_toNat_le.mp isDigit.1, UInt32.le_iff_toNat_le.mp isDigit.2⟩

/-- Every digit is a byte of its own. -/
theorem toNat_digit {number : Nat} {digit : Char} (member : digit ∈ Nat.toDigits 10 number) :
    (UInt8.ofNat digit.toNat).toNat = digit.toNat :=
  UInt8.toNat_ofNat_of_lt' (show digit.toNat < 256 by have := digit_range member; omega)

theorem decimal_range {number : Nat} {byte : UInt8} (member : byte ∈ decimal number) :
    48 ≤ byte ∧ byte ≤ 57 := by
  obtain ⟨digit, isDigit, rfl⟩ := List.mem_map.mp member
  rw [UInt8.le_iff_toNat_le, UInt8.le_iff_toNat_le, toNat_digit isDigit]
  exact digit_range isDigit

theorem decimal_ne_nil (number : Nat) : decimal number ≠ [] := by
  simp [decimal]

theorem decimal_injective {first second : Nat} (same : decimal first = decimal second) :
    first = second := by
  have read (number : Nat) :
      (decimal number).map (fun byte => Char.ofNat byte.toNat) = Nat.toDigits 10 number := by
    rw [decimal, List.map_map]
    refine (List.map_congr_left fun digit member => ?_).trans (List.map_id _)
    rw [Function.comp_apply, toNat_digit member, Char.ofNat_toNat, id]
  have digits := congrArg (List.map fun byte => Char.ofNat byte.toNat) same
  rw [read, read] at digits
  rw [← Nat.ofDigitChars_ten_toDigits (n := first), digits, Nat.ofDigitChars_ten_toDigits]

theorem dot_not_mem (number : Nat) : dot ∉ decimal number := fun member =>
  absurd (decimal_range member).1 (by decide)

/-! Dotted texts. -/

theorem dotted_single (number : Nat) : dotted [number] = decimal number := by
  simp [dotted]

theorem dotted_cons (number next : Nat) (rest : List Nat) :
    dotted (number :: next :: rest) = decimal number ++ dot :: dotted (next :: rest) := by
  simp [dotted]

theorem dotted_byte {parts : List Nat} {byte : UInt8} (member : byte ∈ dotted parts) :
    byte = dot ∨ (48 ≤ byte ∧ byte ≤ 57) := by
  induction parts with
  | nil => simp [dotted] at member
  | cons number rest ih =>
      cases rest with
      | nil =>
          rw [dotted_single] at member
          exact Or.inr (decimal_range member)
      | cons next rest =>
          rw [dotted_cons, List.mem_append, List.mem_cons] at member
          rcases member with digit | isDot | later
          · exact Or.inr (decimal_range digit)
          · exact Or.inl isDot
          · exact ih later

theorem dotted_head {parts : List Nat} (filled : parts ≠ []) :
    ∃ digit rest, dotted parts = digit :: rest ∧ 48 ≤ digit ∧ digit ≤ 57 := by
  obtain ⟨number, others, rfl⟩ := List.exists_cons_of_ne_nil filled
  obtain ⟨digit, digits, isDecimal⟩ := List.exists_cons_of_ne_nil (decimal_ne_nil number)
  have range : 48 ≤ digit ∧ digit ≤ 57 :=
    decimal_range (show digit ∈ decimal number by simp [isDecimal])
  cases others with
  | nil => exact ⟨digit, digits, by rw [dotted_single, isDecimal], range⟩
  | cons next rest =>
      exact ⟨digit, digits ++ dot :: dotted (next :: rest),
        by rw [dotted_cons, isDecimal, List.cons_append], range⟩

theorem splitOn_dotted {parts : List Nat} (filled : parts ≠ []) :
    (dotted parts).splitOn dot = parts.map decimal :=
  List.splitOn_intercalate dot (by simp [dot_not_mem]) (by simpa using filled)

theorem dotted_injective {first second : List Nat} (filled : first ≠ []) (others : second ≠ [])
    (same : dotted first = dotted second) : first = second := by
  have parts := congrArg (List.splitOn dot) same
  rw [splitOn_dotted filled, splitOn_dotted others] at parts
  exact List.map_injective_iff.mpr (fun _ _ => decimal_injective) parts

theorem dotted_append {first : List Nat} (filled : first ≠ []) (next : Nat) (rest : List Nat) :
    dotted (first ++ next :: rest) = dotted first ++ dot :: dotted (next :: rest) := by
  induction first with
  | nil => exact absurd rfl filled
  | cons number first ih =>
      cases first with
      | nil => rw [List.singleton_append, dotted_cons, dotted_single]
      | cons second first =>
          rw [List.cons_append, List.cons_append, dotted_cons, dotted_cons, ← List.cons_append,
            ih (by simp), List.append_assoc, List.cons_append]

/-- A text is a dotted start of another when its numbers are. -/
theorem dotted_prefix_iff {first second : List Nat} (filled : first ≠ []) (others : second ≠ []) :
    dotted second = dotted first ∨ dotted first ++ [dot] <+: dotted second ↔ first <+: second := by
  constructor
  · rintro (same | ⟨rest, isDotted⟩)
    · rw [dotted_injective others filled same]
    · have parts := congrArg (List.splitOn dot) isDotted
      rw [List.append_assoc, List.singleton_append, List.splitOn_append_cons_self,
        splitOn_dotted filled, splitOn_dotted others] at parts
      exact (List.prefix_map_iff_of_injective fun _ _ => decimal_injective).mp ⟨_, parts⟩
  · rintro ⟨rest, rfl⟩
    cases rest with
    | nil => exact Or.inl (by rw [List.append_nil])
    | cons next rest =>
        right
        rw [dotted_append filled]
        exact ⟨dotted (next :: rest), by simp⟩

/-! Text order. -/

/-- The first difference decides, also where texts go on behind with bytes below theirs. -/
theorem append_lt_append_iff {first second after others : Bytes} {bound : UInt8}
    (differ : first ≠ second) (above : ∀ byte ∈ first ++ second, bound < byte)
    (after_le : ∀ byte ∈ after.head?, byte ≤ bound)
    (others_le : ∀ byte ∈ others.head?, byte ≤ bound) :
    first ++ after < second ++ others ↔ first < second := by
  induction first generalizing second with
  | nil =>
      obtain ⟨head, rest, rfl⟩ := List.exists_cons_of_ne_nil differ.symm
      have aboveHead := above head (by simp)
      simp only [List.nil_append, List.cons_append, List.nil_lt_cons, iff_true]
      cases after with
      | nil => exact List.nil_lt_cons ..
      | cons byte after =>
          have below := UInt8.lt_of_le_of_lt (after_le byte (by simp)) aboveHead
          exact List.cons_lt_cons_iff.mpr (Or.inl below)
  | cons head first ih =>
      cases second with
      | nil =>
          have aboveHead := above head (by simp)
          simp only [List.nil_append, List.cons_append, List.not_lt_nil, iff_false]
          cases others with
          | nil => exact List.not_lt_nil _
          | cons byte others =>
              have below := UInt8.lt_of_le_of_lt (others_le byte (by simp)) aboveHead
              rw [List.cons_lt_cons_iff]
              rintro (less | ⟨same, -⟩)
              · exact UInt8.lt_asymm below less
              · exact absurd same.symm (UInt8.ne_of_lt below)
      | cons other second =>
          rw [List.cons_append, List.cons_append, List.cons_lt_cons_iff, List.cons_lt_cons_iff]
          by_cases same : head = other
          · subst same
            rw [ih (by simpa using differ) fun byte member => above byte (by simp at member ⊢; tauto)]
          · simp [same]

theorem append_lt_append_left_iff (base first second : Bytes) :
    base ++ first < base ++ second ↔ first < second := by
  induction base with
  | nil => rfl
  | cons byte base ih => simp [ih]

theorem decimal_above {first second : Nat} :
    ∀ byte ∈ decimal first ++ decimal second, dot < byte := by
  intro byte member
  have digit : 48 ≤ byte := by
    rcases List.mem_append.mp member with member | member
    · exact (decimal_range member).1
    · exact (decimal_range member).1
  exact UInt8.lt_of_lt_of_le (by decide : dot < 48) digit

theorem dotted_cons_lt_iff (number next other nextOther : Nat) (rest others : List Nat) :
    dotted (number :: next :: rest) < dotted (other :: nextOther :: others) ↔
      decimal number < decimal other ∨
        (number = other ∧ dotted (next :: rest) < dotted (nextOther :: others)) := by
  rw [dotted_cons, dotted_cons]
  by_cases same : number = other
  · rw [same, append_lt_append_left_iff, List.cons_lt_cons_iff]
    simp
  · have differ : decimal number ≠ decimal other := fun equal => same (decimal_injective equal)
    rw [append_lt_append_iff differ decimal_above (by simp) (by simp)]
    simp [same]

theorem dotted_lt_iff (first second : Release) : dotted first.parts < dotted second.parts ↔
    first.Before (fun number other => decimal number < decimal other) second := by
  unfold Release.parts Release.Before
  rw [dotted_cons_lt_iff, dotted_cons_lt_iff, dotted_single, dotted_single]

theorem VersionDir.filled (dir : VersionDir) : dir.parts ≠ [] := by
  simp [VersionDir.parts, Release.parts]

theorem name_lt_iff (other dir : VersionDir) : other.name < dir.name ↔ other.TextBelow dir := by
  have release : dotted other.parts < dotted dir.parts ↔
      other.release.Before (fun first second => decimal first < decimal second) dir.release :=
    dotted_lt_iff other.release dir.release
  obtain ⟨digit, rest, isOther, -, digit_le⟩ :=
    dotted_head other.filled
  obtain ⟨dirDigit, dirRest, isDir, -, dirDigit_le⟩ :=
    dotted_head dir.filled
  have digit_lt : digit < letterV := UInt8.lt_of_le_of_lt digit_le (by decide)
  have dirDigit_lt : dirDigit < letterV := UInt8.lt_of_le_of_lt dirDigit_le (by decide)
  unfold VersionDir.TextBelow VersionDir.name spelled
  cases other.leadingV with
  | false =>
      cases dir.leadingV with
      | false => simpa using release
      | true => simp [isOther, List.cons_lt_cons_iff, digit_lt]
  | true =>
      cases dir.leadingV with
      | false =>
          simp [isDir, List.cons_lt_cons_iff, UInt8.lt_asymm dirDigit_lt, (UInt8.ne_of_lt dirDigit_lt).symm]
      | true => simpa [List.cons_lt_cons_iff] using release

/-! Names below the base. -/

theorem spelled_byte {leadingV : Bool} {parts : List Nat} {byte : UInt8}
    (member : byte ∈ spelled leadingV parts) :
    byte = letterV ∨ byte = dot ∨ (48 ≤ byte ∧ byte ≤ 57) := by
  unfold spelled at member
  split at member
  · rcases List.mem_cons.mp member with isLetter | digit
    · exact Or.inl isLetter
    · exact Or.inr (dotted_byte digit)
  · exact Or.inr (dotted_byte member)

theorem spelled_head (leadingV : Bool) {parts : List Nat} (filled : parts ≠ []) :
    ∃ head rest, spelled leadingV parts = head :: rest ∧ head ≠ dot := by
  obtain ⟨digit, rest, isDotted, digit_ge, -⟩ := dotted_head filled
  cases leadingV with
  | false =>
      refine ⟨digit, rest, isDotted, ?_⟩
      rintro rfl
      exact absurd digit_ge (by decide)
  | true => exact ⟨letterV, dotted parts, rfl, by decide⟩

/-- A spelled version is a name that a directory can list. -/
def spelledName (leadingV : Bool) (parts : List Nat) (filled : parts ≠ []) : FileName where
  text := spelled leadingV parts
  filled := by
    obtain ⟨head, rest, isText, -⟩ := spelled_head leadingV filled
    simp [isText]
  noSlash := fun member => by
    rcases spelled_byte member with isLetter | isDot | range
    · exact absurd isLetter (by decide)
    · exact absurd isDot (by decide)
    · exact absurd range.1 (by decide)
  notDot := by
    obtain ⟨head, rest, isText, notDot⟩ := spelled_head leadingV filled
    rw [isText]
    exact fun same => notDot (List.cons.inj same).1
  notDotDot := by
    obtain ⟨head, rest, isText, notDot⟩ := spelled_head leadingV filled
    rw [isText]
    exact fun same => notDot (List.cons.inj same).1

theorem bare_spelled (leadingV : Bool) {parts : List Nat} (filled : parts ≠ []) :
    bare (spelled leadingV parts) = dotted parts := by
  obtain ⟨digit, rest, isDotted, -, digit_le⟩ := dotted_head filled
  have other : digit ≠ letterV := by
    rintro rfl
    exact absurd digit_le (by decide)
  have start : bare (dotted parts) = dotted parts := by simp [bare, isDotted, other]
  cases leadingV with
  | false => exact start
  | true => exact (List.dropWhile_cons_of_pos (by simp)).trans start

theorem toStr_spelled (leadingV : Bool) (parts : List Nat) :
    toStr (spelled leadingV parts) = spelled leadingV parts := by
  refine if_pos (beq_iff_eq.mpr (toStringLossy_ascii fun byte member => ?_))
  rcases spelled_byte member with rfl | rfl | range
  · decide
  · decide
  · exact UInt8.lt_of_le_of_lt range.2 (by decide)

def VersionDir.fileName (dir : VersionDir) : FileName :=
  spelledName dir.leadingV dir.parts dir.filled

theorem fileName_join (base : Path) (name : FileName) :
    FileSystem.fileName (components (Path.join base name.text)) = some name.text := by
  rw [name.components_join, FileSystem.fileName, List.getLast?_append]
  rfl

theorem join_injective {base : Path} (first second : FileName)
    (same : Path.join base first.text = Path.join base second.text) : first.text = second.text := by
  have names := congrArg (fun path => FileSystem.fileName (components path)) same
  simpa only [fileName_join, Option.some.injEq] using names

theorem matchesVersion_iff (request : Request) (base : Path) (dir : VersionDir) :
    matchesVersion (bare request.text) (Path.join base dir.name) = true ↔ request.Asks dir := by
  have named : FileSystem.fileName (components (Path.join base dir.name)) = some dir.name :=
    fileName_join base dir.fileName
  have text : bare (toStr dir.name) = dotted dir.parts := by
    rw [VersionDir.name, toStr_spelled, bare_spelled _ dir.filled]
  rw [matchesVersion, named, Option.getD_some, text, Request.text, bare_spelled _ request.filled,
    Bool.or_eq_true, decide_eq_true_eq, isPrefix_iff]
  exact dotted_prefix_iff request.filled dir.filled

/-- Paths of names in one directory are in the order of the names. -/
theorem le_join (base : Path) (first second : FileName) :
    Path.le (Path.join base first.text) (Path.join base second.text) = true ↔
      ¬ second.text < first.text := by
  rw [Path.le, first.components_join, second.components_join, componentsLe_append]
  by_cases same : first.text = second.text
  · simp [componentsLe, same]
  · simp only [componentsLe, Component.normal.injEq, same, if_false, Component.lt, decide_eq_true_eq]
    exact ⟨List.lt_asymm, fun above => (Std.lt_trichotomy first.text second.text).resolve_right
      (not_or.mpr ⟨same, above⟩)⟩

/-! What is resolved. -/

/-- The first of a sorted list comes before all of the list. -/
theorem head?_insertionSort {α : Type} (before : α → α → Prop) [DecidableRel before]
    (total : ∀ first second, before first second ∨ before second first)
    (trans : ∀ first second third, before first second → before second third → before first third)
    (list : List α) :
    ((list.insertionSort before).head? = none ∧ list = []) ∨
      ∃ first ∈ list, (list.insertionSort before).head? = some first ∧
        ∀ other ∈ list, before first other := by
  have : Std.Total before := ⟨total⟩
  have : IsTrans α before := ⟨trans⟩
  have sorted := List.pairwise_insertionSort before list
  have members (item : α) := List.mem_insertionSort before (l := list) (x := item)
  cases isSorted : list.insertionSort before with
  | nil =>
      left
      refine ⟨rfl, List.eq_nil_iff_forall_not_mem.mpr fun item member => ?_⟩
      have inSorted := (members item).mpr member
      simp [isSorted] at inSorted
  | cons first rest =>
      rw [isSorted, List.pairwise_cons] at sorted
      refine Or.inr ⟨first, (members first).mp (by simp [isSorted]), rfl, fun other member => ?_⟩
      have inSorted := (members other).mpr member
      rw [isSorted, List.mem_cons] at inSorted
      rcases inSorted with rfl | later
      · exact (total other other).elim id id
      · exact sorted.1 other later

theorem latest {paths : List Path} :
    let sorted := paths.insertionSort fun first second => Path.le second first
    (sorted.head? = none ∧ paths = []) ∨
      ∃ path ∈ paths, sorted.head? = some path ∧ ∀ other ∈ paths, Path.le other path = true :=
  head?_insertionSort (fun first second => Path.le second first = true)
    (fun _ _ => componentsLe_total _ _)
    (fun _ _ _ lower upper => componentsLe_trans _ _ _ upper lower) paths

section

variable (installed : Installed) (request : Request)

theorem exact_iff (leadingV : Bool) :
    installed.machine.isDir (Path.join installed.base (spelled leadingV request.parts)) = true ↔
      ∃ dir ∈ installed.dirs, dir.name = spelled leadingV request.parts :=
  installed.isDir_iff (spelledName leadingV request.parts request.filled)

theorem parts_of_name {dir : VersionDir} {leadingV : Bool} {parts : List Nat} (filled : parts ≠ [])
    (named : dir.name = spelled leadingV parts) : dir.parts = parts := by
  have bares := congrArg bare named
  rw [VersionDir.name, bare_spelled _ dir.filled, bare_spelled _ filled] at bares
  exact dotted_injective dir.filled filled bares

/-- The paths that the listing yields are those of the directories asked for. -/
theorem mem_matches {names : List FileName}
    (named : ∀ dir ∈ installed.dirs, ∃ name ∈ names, name.text = dir.name) (path : Path) :
    path ∈ ((names.map fun name => Path.join installed.base name.text).filter fun path =>
        installed.machine.isDir path && matchesVersion (bare request.text) path) ↔
      ∃ dir ∈ installed.dirs, request.Asks dir ∧ path = Path.join installed.base dir.name := by
  rw [List.mem_filter, List.mem_map, Bool.and_eq_true]
  constructor
  · rintro ⟨⟨name, -, rfl⟩, isDir, matched⟩
    obtain ⟨dir, member, isName⟩ := (installed.isDir_iff name).mp isDir
    rw [← isName] at matched ⊢
    exact ⟨dir, member, (matchesVersion_iff request installed.base dir).mp matched, rfl⟩
  · rintro ⟨dir, member, asked, rfl⟩
    obtain ⟨name, listed, isName⟩ := named dir member
    exact ⟨⟨name, listed, by rw [isName]⟩, (installed.isDir_iff dir.fileName).mpr ⟨dir, member, rfl⟩,
      (matchesVersion_iff request installed.base dir).mpr asked⟩

/-- A version that is asked for in full is the only one. -/
theorem parts_eq_of_asks {asked dir : VersionDir} (full : asked.parts = request.parts)
    (asks : request.Asks dir) : dir.parts = request.parts :=
  (asks.eq_of_length (by rw [← full]; rfl)).symm

theorem exact_found {path : Path}
    (found : ([request.text, letterV :: bare request.text].map (Path.join installed.base)).find?
      installed.machine.isDir = some path) :
    ∃ dir ∈ installed.dirs, dir.parts = request.parts ∧
      path = Path.join installed.base dir.name := by
  have isDir := List.find?_some found
  obtain ⟨text, candidate, rfl⟩ := List.mem_map.mp (List.mem_of_find?_eq_some found)
  have spelling : ∃ leadingV, text = spelled leadingV request.parts := by
    rw [Request.text, bare_spelled _ request.filled, List.mem_pair] at candidate
    exact candidate.elim (fun same => ⟨_, same⟩) fun same => ⟨true, same⟩
  obtain ⟨leadingV, rfl⟩ := spelling
  obtain ⟨dir, member, named⟩ := (exact_iff installed request leadingV).mp isDir
  exact ⟨dir, member, parts_of_name request.filled named, by rw [named]⟩

/-- What is found is the requested version or the one whose name is last. -/
theorem resolved :
    (resolveVersionDir installed.machine installed.base request.text = none ∧
      ∀ dir ∈ installed.dirs, ¬ request.Asks dir) ∨
    ∃ dir ∈ installed.dirs, request.Asks dir ∧
      resolveVersionDir installed.machine installed.base request.text =
        some (Path.join installed.base dir.name) ∧
      (dir.parts = request.parts ∨
        ∀ other ∈ installed.dirs, request.Asks other → ¬ dir.name < other.name) := by
  simp only [resolveVersionDir]
  cases exact_ : ([request.text, letterV :: bare request.text].map (Path.join installed.base)).find?
      installed.machine.isDir with
  | some path =>
      obtain ⟨dir, member, full, rfl⟩ := exact_found installed request exact_
      exact Or.inr ⟨dir, member, by rw [Request.Asks, full], rfl, Or.inl full⟩
  | none =>
      cases isListing : installed.machine.readDir installed.base with
      | none =>
          refine Or.inl ⟨rfl, fun dir member => ?_⟩
          obtain ⟨names, listing, -⟩ := installed.listed dir member
          simp [isListing] at listing
      | some names =>
          have named : ∀ dir ∈ installed.dirs, ∃ name ∈ names, name.text = dir.name := by
            intro dir member
            obtain ⟨others, listing, isNamed⟩ := installed.listed dir member
            obtain rfl := Option.some.inj (isListing.symm.trans listing)
            exact isNamed
          have members := mem_matches installed request named
          rw [Option.none_or, Option.bind_some]
          rcases latest with ⟨isNone, noMatch⟩ | ⟨path, isMatch, isSome, last⟩
          · refine Or.inl ⟨isNone, fun dir member asked => ?_⟩
            have isMatch := (members _).mpr ⟨dir, member, asked, rfl⟩
            rw [noMatch] at isMatch
            exact absurd isMatch List.not_mem_nil
          · obtain ⟨dir, member, asked, rfl⟩ := (members path).mp isMatch
            refine Or.inr ⟨dir, member, asked, isSome, Or.inr fun other otherMember otherAsked => ?_⟩
            have before := last _ ((members _).mpr ⟨other, otherMember, otherAsked, rfl⟩)
            exact (le_join installed.base other.fileName dir.fileName).mp before

theorem release_eq {first second : Release} (same : first.parts = second.parts) :
    first = second := by
  cases first
  cases second
  simpa [Release.parts] using same

theorem Release.below_of_ne {first second : Release} (differ : first ≠ second)
    (above : ¬ second.Below first) : first.Below second := by
  have parts : ¬ (first.major = second.major ∧ first.minor = second.minor ∧
      first.patch = second.patch) := fun ⟨majors, minors, patches⟩ =>
    differ (release_eq (by rw [parts, parts, majors, minors, patches]))
  unfold Release.Below Release.Before at *
  omega

theorem Release.Below.asymm {first second : Release} (below : first.Below second) :
    ¬ second.Below first := by
  unfold Release.Below Release.Before at *
  omega

theorem dir_of_join {base : Path} {first second : VersionDir}
    (same : Path.join base first.name = Path.join base second.name) : first.parts = second.parts :=
  parts_of_name second.filled
    (join_injective first.fileName second.fileName same)

/-- The greatest version asked for is found if its name is the last one as well. -/
theorem resolves_iff_ordered :
    request.Resolves installed
        (resolveVersionDir installed.machine installed.base request.text) ↔
      request.Ordered installed := by
  rcases resolved installed request with ⟨isNone, noMatch⟩ | ⟨dir, member, asked, isSome, found⟩
  · rw [isNone]
    exact ⟨fun _ dir member asked => absurd asked (noMatch dir member), fun _ => noMatch⟩
  · rw [isSome]
    constructor
    · rintro ⟨named, -, samePath, greatest⟩ _ _ _
      have same : dir.release = named.release := release_eq (dir_of_join samePath)
      refine ⟨dir, member, asked, fun other otherMember otherAsked => ?_⟩
      by_cases equal : other.release = dir.release
      · exact Or.inl equal
      · right
        have unfull : dir.parts ≠ request.parts := fun full =>
          equal (release_eq ((parts_eq_of_asks request full otherAsked).trans full.symm))
        have greatest := (greatest.resolve_left fun full =>
          unfull (by rw [VersionDir.parts, same]; exact full)).2.2 other otherMember otherAsked
        have last := found.resolve_left unfull other otherMember otherAsked
        rw [← same] at greatest
        refine ⟨Release.below_of_ne equal greatest, (name_lt_iff other dir).mp ?_⟩
        rcases Std.lt_trichotomy other.name dir.name with below | sameName | above
        · exact below
        · exact absurd (release_eq (parts_of_name dir.filled sameName)) equal
        · exact absurd above last
    · intro ordered
      refine ⟨dir, member, rfl, ?_⟩
      by_cases full : dir.parts = request.parts
      · exact Or.inl full
      · refine Or.inr ⟨fun other otherMember otherFull => ?_, asked, ?_⟩
        · exact full (parts_eq_of_asks request otherFull asked)
        · obtain ⟨best, bestMember, bestAsked, below⟩ := ordered dir member asked
          have last := found.resolve_left full best bestMember bestAsked
          have isBest : dir.release = best.release := by
            rcases below dir member asked with same | ⟨-, textBelow⟩
            · exact same
            · exact absurd ((name_lt_iff dir best).mpr textBelow) last
          intro other otherMember otherAsked
          rw [isBest]
          rcases below other otherMember otherAsked with same | ⟨less, -⟩
          · rw [same]
            exact fun above => above.asymm above
          · exact less.asymm

end

abbrev versions : Path := utf8 "/versions"

theorem absolute_join (name : FileName) (cwd : Path) :
    Path.join cwd (Path.join versions name.text) = Path.join versions name.text := by
  have relative : name.text.head? ≠ some slash := by simpa using name.relative []
  refine if_pos ?_
  rw [Path.join, if_neg relative, if_neg (by decide)]
  rfl

/-- Any versions at all may be installed. -/
def installedAt (dirs : List VersionDir) : Installed where
  machine :=
    { node := fun path =>
        if ∃ dir ∈ dirs, path = Path.join versions dir.name then some .directory else none
      listing := fun path => if path = versions then some (dirs.map VersionDir.fileName) else none
      env := fun _ => none
      processCwd := utf8 "/" }
  base := versions
  dirs := dirs
  isDir_iff := fun name => by
    have single (dir : VersionDir) : Path.join versions name.text = Path.join versions dir.name ↔
        dir.name = name.text :=
      ⟨fun same => (join_injective name dir.fileName same).symm, fun same => by rw [same]⟩
    simp only [Machine.isDir, absolute_join, decide_eq_true_eq, single]
    rw [Option.ite_none_right_eq_some, and_iff_left rfl]
  listed := fun dir member => by
    refine ⟨dirs.map VersionDir.fileName, ?_, dir.fileName, List.mem_map_of_mem member, rfl⟩
    have same : Path.join (utf8 "/") versions = versions := by decide
    simp [Machine.readDir, same]

abbrev eighteen : Request where
  leadingV := false
  parts := [18]
  filled := by decide
  short := by decide

abbrev nine : VersionDir := ⟨true, ⟨18, 9, 0⟩⟩
abbrev twenty : VersionDir := ⟨true, ⟨18, 20, 8⟩⟩

/-- `9` is above `20` as a text. -/
theorem older_found :
    resolveVersionDir (installedAt [nine, twenty]).machine versions eighteen.text =
        some (utf8 "/versions/v18.9.0") ∧
      ¬ eighteen.Resolves (installedAt [nine, twenty])
        (resolveVersionDir (installedAt [nine, twenty]).machine versions eighteen.text) := by
  have found : resolveVersionDir (installedAt [nine, twenty]).machine versions eighteen.text =
      some (utf8 "/versions/v18.9.0") := by decide +kernel
  refine ⟨found, ?_⟩
  rw [found]
  rintro ⟨dir, member, samePath, wanted⟩
  have isNine : dir = nine := by
    have member : dir ∈ [nine, twenty] := member
    rcases List.mem_pair.mp member with rfl | rfl
    · rfl
    · exact absurd samePath (by decide +kernel)
  subst isNine
  rcases wanted with full | ⟨-, -, greatest⟩
  · exact absurd full (by decide)
  · exact greatest twenty (by simp [installedAt]) (by decide) (Or.inr ⟨rfl, Or.inl (by decide)⟩)

end Rage.VersionDirs
