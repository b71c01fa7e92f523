import Mathlib.Data.List.TakeWhile
import Rage.Abi
import Rage.ArtifactStore
import Rage.PathSpelling
import Rage.Regex
import Rage.Utf8Text

/-!
The packages of a pnpm workspace, from the paths that were read.  One expression finds the entry of
the virtual store in each path, and the root is put together again from what it captured.
-/

namespace Rage.PnpmReads

open Regex

abbrev dot : UInt8 := 46
abbrev atSign : UInt8 := 64
abbrev plus : UInt8 := 43
abbrev underscore : UInt8 := 95

inductive Group
  | encodedName
  | version
  | dirName
  deriving DecidableEq

abbrev part (text : String) : Pattern UInt8 Group := .text (utf8 text)

def notIn (bytes : List UInt8) (byte : UInt8) : Bool := !bytes.contains byte

def startsSuffix (byte : UInt8) : Bool := byte = underscore || byte = plus

/-- `(?:@[^/+]+\+)?[^@/]+`; every class leaves out ASCII only, so bytes do for characters. -/
def encodedName : Pattern UInt8 Group :=
  .group .encodedName (.sequence
    (.optional (.sequence (part "@") (.sequence (.many (notIn [slash, plus])) (part "+"))))
    (.many (notIn [atSign, slash])))

/-- `(?:[_+][^/]+)?` -/
def peerSuffix : Pattern UInt8 Group :=
  .optional (.sequence (.one startsSuffix) (.many (notIn [slash])))

/-- `(?:@[^/]+/)?[^/]+` -/
def dirName : Pattern UInt8 Group :=
  .group .dirName (.sequence
    (.optional (.sequence (part "@") (.sequence (.many (notIn [slash])) (part "/"))))
    (.many (notIn [slash])))

def version : Pattern UInt8 Group := .group .version (.many (notIn [slash, underscore, plus]))

def installedDir : Pattern UInt8 Group :=
  .sequence (part "/node_modules/") (.sequence dirName (part "/"))

def storeEntry : Pattern UInt8 Group :=
  .sequence encodedName (.sequence (part "@") (.sequence version (.sequence peerSuffix installedDir)))

def virtualStorePath : Pattern UInt8 Group := .sequence (part ".pnpm/") storeEntry

/-- `Captures::name`, of groups that always take part. -/
def name (captures : Groups UInt8 Group) (group : Group) : Bytes :=
  (captures.lookup group).getD []

/-- The directory of a package below an entry of the virtual store. -/
def packageDir (workspaceRoot : Path) (pnpmDir dirName : Bytes) : Path :=
  Path.join (Path.join (Path.join (Path.join (Path.join workspaceRoot (utf8 "node_modules"))
    (utf8 ".pnpm")) pnpmDir) (utf8 "node_modules")) dirName

def extractFrom (workspaceRoot : Path) (seen : List (Bytes × Bytes)) :
    List Path → List PathsetPackageRef
  | [] => []
  | path :: rest =>
      match virtualStorePath.captures (normalizeSeparators (toStringLossy path)) with
      | none => extractFrom workspaceRoot seen rest
      | some captures =>
          let dirName := name captures .dirName
          let version := name captures .version
          if (dirName, version) ∈ seen then extractFrom workspaceRoot seen rest
          else
            let pnpmDir := name captures .encodedName ++ atSign :: version
            ⟨dirName, version, packageDir workspaceRoot pnpmDir dirName⟩ ::
              extractFrom workspaceRoot ((dirName, version) :: seen) rest

def extractPnpmPackages (pathsetReads : List Path) (workspaceRoot : Path) :
    List PathsetPackageRef :=
  extractFrom workspaceRoot [] pathsetReads

example : extractPnpmPackages
    [utf8 "/ws/node_modules/.pnpm/@types+react@18.2.37/node_modules/@types/react/index.d.ts"]
    (utf8 "/ws") =
      [⟨utf8 "@types/react", utf8 "18.2.37",
        utf8 "/ws/node_modules/.pnpm/@types+react@18.2.37/node_modules/@types/react"⟩] := by
  decide +kernel

/-! What the expression finds, in the parts of a path. -/

structure Captured where
  encodedName : Bytes
  version : Bytes
  dirName : Bytes
  deriving DecidableEq

namespace Captured

def groups (captured : Captured) : Groups UInt8 Group :=
  [(.encodedName, captured.encodedName), (.version, captured.version),
    (.dirName, captured.dirName)]

def key (captured : Captured) : Bytes × Bytes := (captured.dirName, captured.version)

def root (captured : Captured) (workspaceRoot : Path) : Path :=
  packageDir workspaceRoot (captured.encodedName ++ atSign :: captured.version) captured.dirName

end Captured

/-- A version, and a suffix that is not a separator alone. -/
def splitVersion (text : Bytes) : Option Bytes :=
  let version := text.takeWhile (notIn [slash, underscore, plus])
  if version = [] ∨ (text.dropWhile (notIn [slash, underscore, plus])).length = 1 then none
  else some version

def splitName (text : Bytes) : Option (Bytes × Bytes) :=
  let name := text.takeWhile (notIn [atSign, slash])
  match text.dropWhile (notIn [atSign, slash]) with
  | [] => none
  | _ :: rest => if name = [] then none else (splitVersion rest).map fun version => (name, version)

/-- The encoded name and the version of an entry of the virtual store. -/
def splitEntry : Bytes → Option (Bytes × Bytes)
  | [] => none
  | byte :: rest =>
      if byte = atSign then
        let scope := rest.takeWhile (notIn [slash, plus])
        match rest.dropWhile (notIn [slash, plus]) with
        | [] => none
        | _ :: behind =>
            if scope = [] then none
            else (splitName behind).map fun found => (atSign :: scope ++ plus :: found.1, found.2)
      else splitName (byte :: rest)

/-- A directory's name takes two parts when it is scoped; something lies below it. -/
def splitDir : List Bytes → Option Bytes
  | scope :: name :: _ :: _ =>
      if scope = [] then none
      else if scope.head? = some atSign ∧ scope ≠ [atSign] ∧ name ≠ [] then some (scope ++ slash :: name)
      else some scope
  | [dir, _] => if dir = [] then none else some dir
  | _ => none

def splitStore : List Bytes → Option Captured
  | entry :: nodeModules :: rest =>
      if nodeModules = utf8 "node_modules" then
        (splitEntry entry).bind fun found =>
          (splitDir rest).map fun dir => ⟨found.1, found.2, dir⟩
      else none
  | _ => none

/-- The first part that ends in `.pnpm` and is a virtual store. -/
def findStore : List Bytes → Option Captured
  | [] => none
  | part :: rest =>
      if utf8 ".pnpm" <:+ part then (splitStore rest).or (findStore rest) else findStore rest

/-! One entry of the virtual store, up to the slash behind it. -/

/-- What goes on at slashes only. -/
def SlashNext {β : Type} (next : Groups UInt8 Group → Bytes → Option β) : Prop :=
  ∀ groups byte rest, byte ≠ slash → next groups (byte :: rest) = none

theorem notIn_eq_true {bytes : List UInt8} {byte : UInt8} :
    notIn bytes byte = true ↔ byte ∉ bytes := by
  simp [notIn]

theorem notIn_eq_false {bytes : List UInt8} {byte : UInt8} :
    notIn bytes byte = false ↔ byte ∈ bytes := by
  simp [notIn]

section Entry

variable {β : Type} {next : Groups UInt8 Group → Bytes → Option β} {tail : Bytes}

theorem stops_of_slash {bytes : List UInt8} (member : slash ∈ bytes)
    (slashed : ∀ byte ∈ tail.head?, byte = slash) :
    ∀ byte ∈ tail.head?, notIn bytes byte = false := by
  intro byte first
  rw [notIn_eq_false, slashed byte first]
  exact member

theorem takeWhile_part {text : Bytes} (free : slash ∉ text) :
    text.takeWhile (notIn [slash]) = text := by
  rw [List.takeWhile_eq_self_iff]
  intro byte member
  rw [notIn_eq_true, List.mem_singleton]
  rintro rfl
  exact free member

theorem dropWhile_part {text : Bytes} (free : slash ∉ text) :
    text.dropWhile (notIn [slash]) = [] := by
  rw [List.dropWhile_eq_nil_iff]
  intro byte member
  rw [notIn_eq_true, List.mem_singleton]
  rintro rfl
  exact free member

/-- A run of a part's bytes ends at the slash. -/
theorem run_part (slashNext : SlashNext next) {groups : Groups UInt8 Group} {text : Bytes}
    (free : slash ∉ text) (slashed : ∀ byte ∈ tail.head?, byte = slash) :
    (Pattern.many (notIn [slash])).run groups (text ++ tail) next =
      if text = [] then none else next groups tail := by
  have stops : ∀ byte ∈ tail.head?, notIn [slash] byte = false :=
    stops_of_slash List.mem_cons_self slashed
  have stuck : ∀ byte rest, notIn [slash] byte = true → next groups (byte :: rest) = none := by
    intro byte rest accepted
    rw [notIn_eq_true, List.mem_singleton] at accepted
    exact slashNext groups byte rest accepted
  rw [run_many_append stuck stops, takeWhile_part free, dropWhile_part free, List.nil_append]

theorem run_peerSuffix (slashNext : SlashNext next) {groups : Groups UInt8 Group} {text : Bytes}
    (free : slash ∉ text) (slashed : ∀ byte ∈ tail.head?, byte = slash)
    (starts : ∀ byte ∈ text.head?, startsSuffix byte = true) :
    peerSuffix.run groups (text ++ tail) next =
      if text.length = 1 then none else next groups tail := by
  rw [peerSuffix, run_optional, run_sequence]
  cases text with
  | nil =>
      rw [List.nil_append, if_neg (by decide)]
      cases tail with
      | nil => rfl
      | cons byte tail =>
          rw [slashed byte rfl, run_one_cons, if_neg (by decide), Option.none_or]
  | cons byte text =>
      have notSlash : byte ≠ slash := by
        rintro rfl
        exact free List.mem_cons_self
      rw [List.cons_append, run_one_cons, if_pos (starts byte rfl),
        run_part slashNext (fun member => free (List.mem_cons_of_mem _ member)) slashed,
        slashNext _ _ _ notSlash, Option.or_none]
      cases text with
      | nil => rfl
      | cons second text => simp

theorem run_version (slashNext : SlashNext next) {groups : Groups UInt8 Group} {text : Bytes}
    (free : slash ∉ text) (slashed : ∀ byte ∈ tail.head?, byte = slash) :
    version.run groups (text ++ tail) (fun groups rest => peerSuffix.run groups rest next) =
      (splitVersion text).bind fun found => next (groups ++ [(.version, found)]) tail := by
  have stops : ∀ byte ∈ tail.head?, notIn [slash, underscore, plus] byte = false :=
    stops_of_slash List.mem_cons_self slashed
  have stuck : ∀ groups byte rest, notIn [slash, underscore, plus] byte = true →
      peerSuffix.run groups (byte :: rest) next = none := by
    intro groups byte rest accepted
    rw [notIn_eq_true] at accepted
    simp only [List.mem_cons, List.not_mem_nil, or_false, not_or] at accepted
    have noSuffix : startsSuffix byte = false := by simp [startsSuffix, accepted]
    rw [peerSuffix, run_optional, run_sequence, run_one_cons, noSuffix, if_neg Bool.false_ne_true,
      Option.none_or, slashNext _ _ _ accepted.1]
  rw [version, run_group_many stuck stops]
  have split := List.takeWhile_append_dropWhile (p := notIn [slash, underscore, plus]) (l := text)
  generalize isFound : text.takeWhile (notIn [slash, underscore, plus]) = found at split ⊢
  generalize isBehind : text.dropWhile (notIn [slash, underscore, plus]) = behind at split ⊢
  have behindFree : slash ∉ behind := fun member => free (split ▸ List.mem_append_right _ member)
  have starts : ∀ byte ∈ behind.head?, startsSuffix byte = true := by
    intro byte first
    have stopped := List.head?_dropWhile_not (notIn [slash, underscore, plus]) text
    rw [isBehind, Option.mem_def.mp first] at stopped
    have member := notIn_eq_false.mp (by simpa using stopped)
    simp only [List.mem_cons, List.not_mem_nil, or_false] at member
    rcases member with rfl | rfl | rfl
    · exact absurd (List.mem_of_mem_head? first) behindFree
    · rfl
    · rfl
  rw [run_peerSuffix slashNext behindFree slashed starts]
  simp only [splitVersion, isFound, isBehind]
  by_cases isEmpty : found = []
  · rw [if_pos isEmpty, if_pos (Or.inl isEmpty)]
    rfl
  · by_cases alone : behind.length = 1
    · rw [if_neg isEmpty, if_pos alone, if_pos (Or.inr alone)]
      rfl
    · rw [if_neg isEmpty, if_neg alone, if_neg (by simp [isEmpty, alone])]
      rfl

theorem run_byte {text : String} {byte : UInt8} (isByte : utf8 text = [byte])
    (groups : Groups UInt8 Group) (first : UInt8) (rest : Bytes) :
    (part text).run groups (first :: rest) next =
      if first = byte then next groups rest else none := by
  rw [run_text, isByte]
  by_cases same : first = byte
  · rw [if_pos (List.cons_prefix_cons.mpr ⟨same.symm, List.nil_prefix⟩), if_pos same]
    rfl
  · rw [if_neg (fun starts => same (List.cons_prefix_cons.mp starts).1.symm), if_neg same]

theorem run_byte_nil {text : String} {byte : UInt8} (isByte : utf8 text = [byte])
    (groups : Groups UInt8 Group) : (part text).run groups [] next = none := by
  rw [run_text, isByte, if_neg (by simp)]

theorem run_byte_slash {text : String} {byte : UInt8} (isByte : utf8 text = [byte])
    (other : byte ≠ slash) (groups : Groups UInt8 Group)
    (slashed : ∀ byte ∈ tail.head?, byte = slash) : (part text).run groups tail next = none := by
  cases tail with
  | nil => exact run_byte_nil isByte groups
  | cons first rest =>
      rw [run_byte isByte, if_neg]
      rw [slashed first rfl]
      exact other.symm

/-- What follows the encoded name. -/
def versionFrom (next : Groups UInt8 Group → Bytes → Option β) (groups : Groups UInt8 Group)
    (text : Bytes) : Option β :=
  (part "@").run groups text fun groups rest =>
    version.run groups rest fun groups rest => peerSuffix.run groups rest next

theorem run_name (slashNext : SlashNext next) (taken : Bytes → Groups UInt8 Group) {text : Bytes}
    (free : slash ∉ text) (slashed : ∀ byte ∈ tail.head?, byte = slash) :
    runMany (notIn [atSign, slash]) (fun rest => versionFrom next (taken rest) rest) (text ++ tail) =
      (splitName text).bind fun found =>
        next (taken (text.dropWhile (notIn [atSign, slash]) ++ tail) ++ [(.version, found.2)]) tail := by
  have isAt : utf8 "@" = [atSign] := by decide
  have stops : ∀ byte ∈ tail.head?, notIn [atSign, slash] byte = false :=
    stops_of_slash (List.mem_cons_of_mem _ List.mem_cons_self) slashed
  have stuck : ∀ byte rest, notIn [atSign, slash] byte = true →
      versionFrom next (taken (byte :: rest)) (byte :: rest) = none := by
    intro byte rest accepted
    rw [notIn_eq_true] at accepted
    rw [versionFrom, run_byte isAt, if_neg]
    rintro rfl
    exact accepted List.mem_cons_self
  rw [runMany_append stuck stops, versionFrom]
  have split := List.takeWhile_append_dropWhile (p := notIn [atSign, slash]) (l := text)
  cases isBehind : text.dropWhile (notIn [atSign, slash]) with
  | nil =>
      rw [List.nil_append, run_byte_slash isAt (by decide) _ slashed, splitName, isBehind, ite_self]
      rfl
  | cons byte rest =>
      rw [isBehind] at split
      have stopped := List.head?_dropWhile_not (notIn [atSign, slash]) text
      rw [isBehind] at stopped
      have member := notIn_eq_false.mp (by simpa using stopped)
      have isByte : byte = atSign := by
        simp only [List.mem_cons, List.not_mem_nil, or_false] at member
        rcases member with isByte | rfl
        · exact isByte
        · exact absurd (split ▸ by simp) free
      have restFree : slash ∉ rest := by
        intro inRest
        exact free (split ▸ by simp [inRest])
      rw [List.cons_append, run_byte isAt, if_pos isByte, run_version slashNext restFree slashed,
        splitName, isBehind]
      by_cases isEmpty : text.takeWhile (notIn [atSign, slash]) = []
      · simp only [if_pos isEmpty]
        rfl
      · simp only [if_neg isEmpty]
        cases splitVersion rest with
        | none => rfl
        | some found => rfl

theorem takeWhile_of_splitName {text : Bytes} {found : Bytes × Bytes}
    (isFound : splitName text = some found) :
    text.takeWhile (notIn [atSign, slash]) = found.1 := by
  rw [splitName] at isFound
  split at isFound
  · simp at isFound
  · rw [ite_eq_iff] at isFound
    obtain ⟨-, impossible⟩ | ⟨-, mapped⟩ := isFound
    · simp at impossible
    · obtain ⟨version, -, rfl⟩ := Option.map_eq_some_iff.mp mapped
      rfl

theorem runMany_nil_of_first {accepts : UInt8 → Bool} {goOn : Bytes → Option β} {first : UInt8}
    {rest : Bytes} (refused : accepts first = false) : runMany accepts goOn (first :: rest) = none := by
  rw [runMany, refused, if_neg Bool.false_ne_true]

theorem run_encodedName (slashNext : SlashNext next) {text : Bytes} (free : slash ∉ text)
    (slashed : ∀ byte ∈ tail.head?, byte = slash) :
    encodedName.run [] (text ++ tail) (versionFrom next) = (splitEntry text).bind fun found =>
      next [(.encodedName, found.1), (.version, found.2)] tail := by
  have isAt : utf8 "@" = [atSign] := by decide
  have isPlus : utf8 "+" = [plus] := by decide
  rw [encodedName, run_group, run_sequence, run_optional, run_sequence, run_many]
  cases text with
  | nil =>
      rw [List.nil_append, run_byte_slash isAt (by decide) _ slashed, Option.none_or]
      cases tail with
      | nil => rfl
      | cons byte tail =>
          exact runMany_nil_of_first (notIn_eq_false.mpr (by simp [slashed byte rfl]))
  | cons first rest =>
      have restFree : slash ∉ rest := fun member => free (List.mem_cons_of_mem _ member)
      rw [List.cons_append, run_byte isAt]
      by_cases isScoped : first = atSign
      · rw [if_pos isScoped, runMany_nil_of_first (notIn_eq_false.mpr (by simp [isScoped])),
          Option.or_none, run_sequence, run_many, isScoped, splitEntry, if_pos rfl]
        have stops : ∀ byte ∈ tail.head?, notIn [slash, plus] byte = false :=
          stops_of_slash List.mem_cons_self slashed
        refine (runMany_append ?_ stops).trans ?_
        · intro byte behind accepted
          rw [run_byte isPlus, if_neg]
          rintro rfl
          exact notIn_eq_true.mp accepted (by simp)
        · have split := List.takeWhile_append_dropWhile (p := notIn [slash, plus]) (l := rest)
          cases isBehind : rest.dropWhile (notIn [slash, plus]) with
          | nil =>
              rw [List.nil_append, run_byte_slash isPlus (by decide) _ slashed, ite_self]
              rfl
          | cons byte behind =>
              rw [isBehind] at split
              have stopped := List.head?_dropWhile_not (notIn [slash, plus]) rest
              rw [isBehind] at stopped
              have isByte : byte = plus := by
                have member := notIn_eq_false.mp (by simpa using stopped)
                simp only [List.mem_cons, List.not_mem_nil, or_false] at member
                rcases member with rfl | isByte
                · exact absurd (split ▸ by simp) restFree
                · exact isByte
              have behindFree : slash ∉ behind := by
                intro inBehind
                exact restFree (split ▸ by simp [inBehind])
              rw [List.cons_append, run_byte isPlus, if_pos isByte, run_many,
                run_name slashNext _ behindFree slashed]
              by_cases isEmpty : rest.takeWhile (notIn [slash, plus]) = []
              · simp only [if_pos isEmpty]
                rfl
              · simp only [if_neg isEmpty]
                cases isFound : splitName behind with
                | none => rfl
                | some found =>
                    have named := List.takeWhile_append_dropWhile (p := notIn [atSign, slash])
                      (l := behind)
                    rw [takeWhile_of_splitName isFound] at named
                    have taken : (atSign :: (rest ++ tail)).take
                        ((atSign :: (rest ++ tail)).length -
                          (behind.dropWhile (notIn [atSign, slash]) ++ tail).length) =
                        atSign :: rest.takeWhile (notIn [slash, plus]) ++ plus :: found.1 := by
                      refine take_behind ?_
                      conv_lhs => rw [← split, ← named, isByte]
                      simp
                    rw [taken]
                    rfl
      · rw [if_neg isScoped, Option.none_or, splitEntry, if_neg isScoped, ← List.cons_append,
          run_name slashNext _ free slashed]
        cases isFound : splitName (first :: rest) with
        | none => rfl
        | some found =>
            have taken : (first :: rest ++ tail).take ((first :: rest ++ tail).length -
                ((first :: rest).dropWhile (notIn [atSign, slash]) ++ tail).length) = found.1 := by
              refine take_behind ?_
              rw [← takeWhile_of_splitName isFound, ← List.append_assoc,
                List.takeWhile_append_dropWhile]
            rw [taken]
            rfl

end Entry

/-! The directory of the package, and what lies below it. -/

/-- A text up to its first slash. -/
theorem first_part (text : Bytes) : ∃ part, slash ∉ part ∧
    (text = part ∧ text.splitOn slash = [part] ∨
      ∃ rest, text = part ++ slash :: rest ∧
        text.splitOn slash = part :: rest.splitOn slash) := by
  by_cases member : slash ∈ text
  · obtain ⟨part, rest, rfl, free⟩ := List.eq_append_cons_of_mem member
    refine ⟨part, free, Or.inr ⟨rest, rfl, ?_⟩⟩
    rw [List.splitOn_append_cons_self, List.splitOn_eq_singleton free, List.singleton_append]
  · exact ⟨text, member, Or.inl ⟨rfl, List.splitOn_eq_singleton member⟩⟩

/-- The match goes on after the slash that ends the directory. -/
def afterDir (groups : Groups UInt8 Group) (text : Bytes) : Option (Groups UInt8 Group) :=
  (part "/").run groups text fun groups _ => some groups

theorem isSlash : utf8 "/" = [slash] := by decide

theorem afterDir_next : SlashNext afterDir := by
  intro groups byte rest other
  rw [afterDir, run_byte isSlash, if_neg other]

theorem afterDir_slash (groups : Groups UInt8 Group) (rest : Bytes) :
    afterDir groups (slash :: rest) = some groups := by
  rw [afterDir, run_byte isSlash, if_pos rfl]

theorem afterDir_nil (groups : Groups UInt8 Group) : afterDir groups [] = none :=
  run_byte_nil isSlash groups

section Dir

variable {groups : Groups UInt8 Group} {text : Bytes}

/-- One part, for what is captured from the start of `text`. -/
theorem run_dirPart {front here dir tail : Bytes} (isText : text = front ++ here)
    (isHere : here = dir ++ tail) (free : slash ∉ dir) (slashed : ∀ byte ∈ tail.head?, byte = slash) :
    (Pattern.many (notIn [slash])).run groups here (fun groups rest =>
        afterDir (groups ++ [(.dirName, text.take (text.length - rest.length))]) rest) =
      if dir = [] ∨ tail = [] then none else some (groups ++ [(.dirName, front ++ dir)]) := by
  have slashNext : SlashNext fun captured rest =>
      afterDir (captured ++ [(.dirName, text.take (text.length - rest.length))]) rest :=
    fun captured byte rest other => afterDir_next _ byte rest other
  rw [isHere, run_part slashNext free slashed,
    take_behind (isText.trans (by rw [isHere, List.append_assoc]))]
  by_cases isEmpty : dir = []
  · rw [if_pos isEmpty, if_pos (Or.inl isEmpty)]
  · rw [if_neg isEmpty]
    cases tail with
    | nil => rw [if_pos (Or.inr rfl), afterDir_nil]
    | cons byte tail => rw [if_neg (by simp [isEmpty]), slashed byte rfl, afterDir_slash]

def scope : Pattern UInt8 Group :=
  .sequence (part "@") (.sequence (.many (notIn [slash])) (part "/"))

theorem scope_next {next : Groups UInt8 Group → Bytes → Option (Groups UInt8 Group)} :
    SlashNext fun groups xs => (part "/").run groups xs next := by
  intro groups byte rest other
  refine (run_byte isSlash groups byte rest).trans ?_
  rw [if_neg other]

theorem run_scope {dir : Bytes} (free : slash ∉ dir) (rest : Bytes)
    (next : Groups UInt8 Group → Bytes → Option (Groups UInt8 Group)) :
    scope.run groups (dir ++ slash :: rest) next =
      if dir.head? = some atSign ∧ dir ≠ [atSign] then next groups rest else none := by
  have isAt : utf8 "@" = [atSign] := by decide
  have slashed : ∀ byte ∈ (slash :: rest).head?, byte = slash := by simp
  rw [scope, run_sequence]
  cases dir with
  | nil => rw [List.nil_append, run_byte_slash isAt (by decide) _ slashed, if_neg (by simp)]
  | cons first dir =>
      rw [List.cons_append, run_byte isAt, run_sequence,
        run_part scope_next (fun member => free (List.mem_cons_of_mem _ member)) slashed,
        run_byte isSlash, if_pos rfl]
      by_cases isScoped : first = atSign
      · simp [isScoped]
      · simp [isScoped]

/-- Nothing lies below a last part. -/
theorem run_scope_last {dir : Bytes} (free : slash ∉ dir)
    {next : Groups UInt8 Group → Bytes → Option (Groups UInt8 Group)} :
    scope.run groups dir next = none := by
  have isAt : utf8 "@" = [atSign] := by decide
  have slashed : ∀ byte ∈ ([] : Bytes).head?, byte = slash := by simp
  rw [scope, run_sequence]
  cases dir with
  | nil => exact run_byte_nil isAt groups
  | cons first dir =>
      have onPart : (Pattern.many (notIn [slash])).run groups (dir ++ [])
          (fun groups xs => (part "/").run groups xs next) = _ :=
        run_part scope_next (fun member => free (List.mem_cons_of_mem first member)) slashed
      rw [List.append_nil] at onPart
      rw [run_byte isAt, run_sequence, onPart, run_byte_nil isSlash, ite_self, ite_self]

theorem run_dirName :
    dirName.run groups text afterDir =
      (splitDir (text.splitOn slash)).map fun dir => groups ++ [(.dirName, dir)] := by
  rw [dirName, run_group, run_sequence, run_optional, ← scope]
  obtain ⟨dir, free, ⟨isText, isSplit⟩ | ⟨rest, isText, isSplit⟩⟩ := first_part text
  · rw [run_dirPart (List.nil_append text).symm (isText.trans (List.append_nil dir).symm) free (by simp),
      if_pos (Or.inr rfl), Option.or_none, isSplit, isText]
    exact run_scope_last free
  · have slashed : ∀ byte ∈ (slash :: rest).head?, byte = slash := by simp
    have front : text = (dir ++ [slash]) ++ rest := by rw [isText, List.append_assoc]; rfl
    rw [run_dirPart (List.nil_append text).symm isText free slashed, isSplit]
    have onScope : scope.run groups text _ = _ := (congrArg (scope.run groups · _) isText).trans
      (run_scope free rest fun groups rest => (Pattern.many (notIn [slash])).run groups rest
        fun groups rest => afterDir (groups ++ [(.dirName, text.take (text.length - rest.length))]) rest)
    rw [onScope]
    obtain ⟨name, nameFree, ⟨isRest, isSplitRest⟩ | ⟨below, isRest, isSplitRest⟩⟩ := first_part rest
    · rw [run_dirPart front (isRest.trans (List.append_nil name).symm) nameFree (by simp),
        if_pos (Or.inr rfl), ite_self, Option.none_or, isSplitRest, splitDir]
      by_cases isEmpty : dir = []
      · simp [isEmpty]
      · simp [isEmpty]
    · rw [run_dirPart front isRest nameFree (by simp), isSplitRest]
      obtain ⟨first, others, isBelow⟩ := List.exists_cons_of_ne_nil (List.splitOn_ne_nil slash below)
      rw [isBelow, splitDir]
      by_cases isEmpty : dir = []
      · simp [isEmpty]
      · by_cases isScoped : dir.head? = some atSign ∧ dir ≠ [atSign]
        · by_cases unnamed : name = []
          · simp [isEmpty, unnamed]
          · simp [isEmpty, unnamed, isScoped]
        · have plain : ¬(dir.head? = some atSign ∧ dir ≠ [atSign] ∧ name ≠ []) :=
            fun all => isScoped ⟨all.1, all.2.1⟩
          rw [if_neg isScoped, if_neg isEmpty, if_neg plain]
          simp [isEmpty]

end Dir

/-! A virtual store, and the first one of a path. -/

theorem part_prefix_iff {first second front behind : Bytes} (firstFree : slash ∉ first)
    (secondFree : slash ∉ second) :
    first ++ slash :: front <+: second ++ slash :: behind ↔ first = second ∧ front <+: behind := by
  constructor
  · rintro ⟨rest, same⟩
    rw [List.append_assoc, List.cons_append] at same
    have parts := congrArg (List.splitOn slash) same
    rw [List.splitOn_append_cons_self, List.splitOn_append_cons_self,
      List.splitOn_eq_singleton firstFree, List.splitOn_eq_singleton secondFree] at parts
    have isFirst : first = second := List.head_eq_of_cons_eq parts
    rw [isFirst] at same
    exact ⟨isFirst, rest, List.tail_eq_of_cons_eq (List.append_cancel_left same)⟩
  · rintro ⟨rfl, rest, rfl⟩
    exact ⟨rest, by simp⟩

def afterEntry (groups : Groups UInt8 Group) (text : Bytes) : Option (Groups UInt8 Group) :=
  installedDir.run groups text fun groups _ => some groups

theorem afterEntry_eq (groups : Groups UInt8 Group) (text : Bytes) :
    afterEntry groups text = if utf8 "/node_modules/" <+: text then
      dirName.run groups (text.drop 14) afterDir else none := by
  rw [afterEntry, installedDir, run_sequence, run_text]
  rfl

theorem nodeModules_eq : utf8 "/node_modules/" = slash :: (utf8 "node_modules" ++ [slash]) := by
  decide

theorem afterEntry_next : SlashNext afterEntry := by
  intro groups byte rest other
  rw [afterEntry_eq, nodeModules_eq, if_neg]
  exact fun starts => other (List.cons_prefix_cons.mp starts).1.symm

theorem afterEntry_slash (groups : Groups UInt8 Group) (rest : Bytes) :
    afterEntry groups (slash :: rest) =
      match rest.splitOn slash with
      | nodeModules :: more =>
          if nodeModules = utf8 "node_modules" then
            (splitDir more).map fun dir => groups ++ [(.dirName, dir)]
          else none
      | [] => none := by
  have dirFree : slash ∉ utf8 "node_modules" := by decide
  rw [afterEntry_eq, nodeModules_eq]
  obtain ⟨middle, free, ⟨isRest, isSplit⟩ | ⟨below, isRest, isSplit⟩⟩ := first_part rest
  · have alone : ¬ slash :: (utf8 "node_modules" ++ [slash]) <+: slash :: rest := by
      intro starts
      exact free (isRest ▸ (List.cons_prefix_cons.mp starts).2.subset (by simp))
    rw [isSplit, if_neg alone]
    simp [splitDir]
  · have starts_iff : slash :: (utf8 "node_modules" ++ [slash]) <+: slash :: rest ↔
        utf8 "node_modules" = middle := by
      rw [List.cons_prefix_cons, isRest, part_prefix_iff dirFree free]
      simp
    rw [isSplit]
    by_cases isMiddle : utf8 "node_modules" = middle
    · have dropped : (slash :: rest).drop 14 = below := by
        rw [isRest, ← isMiddle]
        rfl
      rw [if_pos (starts_iff.mpr isMiddle), dropped, run_dirName]
      simp [isMiddle]
    · rw [if_neg (starts_iff.not.mpr isMiddle)]
      simp [Ne.symm isMiddle]

theorem runHere_storeEntry (text : Bytes) :
    storeEntry.runHere text = (splitStore (text.splitOn slash)).map Captured.groups := by
  have unfolded : storeEntry.runHere text = encodedName.run [] text (versionFrom afterEntry) := by
    rw [Pattern.runHere, storeEntry, run_sequence]
    rfl
  rw [unfolded]
  obtain ⟨entry, free, ⟨isText, isSplit⟩ | ⟨rest, isText, isSplit⟩⟩ := first_part text
  · have onEntry : encodedName.run [] (entry ++ []) (versionFrom afterEntry) = _ :=
      run_encodedName afterEntry_next free (by simp)
    rw [List.append_nil, ← isText] at onEntry
    rw [onEntry, isSplit, isText]
    cases splitEntry entry with
    | none => rfl
    | some found => rfl
  · have onEntry : encodedName.run [] (entry ++ slash :: rest) (versionFrom afterEntry) = _ :=
      run_encodedName afterEntry_next free (by simp)
    rw [← isText] at onEntry
    rw [onEntry, isSplit]
    obtain ⟨nodeModules, more, isRest⟩ := List.exists_cons_of_ne_nil (List.splitOn_ne_nil slash rest)
    rw [isRest, splitStore]
    cases splitEntry entry with
    | none => simp
    | some found =>
        rw [Option.bind_some, Option.bind_some, afterEntry_slash, isRest]
        by_cases isMiddle : nodeModules = utf8 "node_modules"
        · simp only [if_pos isMiddle]
          cases splitDir more with
          | none => rfl
          | some dir => rfl
        · simp only [if_neg isMiddle]
          rfl

theorem runHere_virtualStorePath (text : Bytes) :
    virtualStorePath.runHere text =
      if utf8 ".pnpm/" <+: text then storeEntry.runHere (text.drop 6) else none := by
  rw [Pattern.runHere, virtualStorePath, run_sequence, run_text]
  rfl

theorem captures_eq (text : Bytes) :
    virtualStorePath.captures text = (findStore (text.splitOn slash)).map Captured.groups := by
  induction text with
  | nil => rfl
  | cons byte text ih =>
      rw [Pattern.captures, ih, runHere_virtualStorePath]
      by_cases starts : utf8 ".pnpm/" <+: byte :: text
      · obtain ⟨rest, isText⟩ := starts
        have isWhole : byte :: text = utf8 ".pnpm" ++ slash :: rest := isText.symm
        have isTail : text = utf8 "pnpm" ++ slash :: rest := List.tail_eq_of_cons_eq isWhole
        have split (front : Bytes) (free : slash ∉ front) :
            (front ++ slash :: rest).splitOn slash = front :: rest.splitOn slash := by
          rw [List.splitOn_append_cons_self, List.splitOn_eq_singleton free, List.singleton_append]
        rw [if_pos ⟨rest, isText⟩, isWhole, isTail, split _ (by decide), split _ (by decide), findStore,
          findStore, if_neg (by decide), if_pos List.suffix_rfl, Option.map_or]
        exact congrArg (Option.or · _) (runHere_storeEntry rest)
      · rw [if_neg starts, Option.none_or, List.splitOn_cons_eq_if_modifyHead]
        by_cases isByte : byte = slash
        · rw [if_pos (by simpa using isByte), findStore, if_neg (by decide)]
        · rw [if_neg (by simpa using isByte)]
          obtain ⟨front, -, ⟨isText, isSplit⟩ | ⟨rest, isText, isSplit⟩⟩ := first_part text
          · rw [isSplit, List.modifyHead_cons, findStore, findStore]
            simp [splitStore, findStore]
          · rw [isSplit, List.modifyHead_cons, findStore, findStore]
            have other : utf8 ".pnpm" ≠ byte :: front := by
              intro same
              refine starts ⟨rest, ?_⟩
              rw [isText, ← List.cons_append, ← same]
              rfl
            simp only [List.suffix_cons_iff, other, false_or]

/-! The text of a path. -/

def pathText (path : Path) : Bytes := normalizeSeparators (toStringLossy path)

theorem pathText_append {byte : UInt8} (ascii : byte < 0x80) (other : byte ≠ backslash)
    (front rest : Bytes) : pathText (front ++ byte :: rest) = pathText front ++ byte :: pathText rest := by
  rw [pathText, toStringLossy_append ascii, normalizeSeparators, List.map_append, List.map_cons,
    if_neg other]
  rfl

theorem pathText_slash (front rest : Bytes) :
    (pathText (front ++ slash :: rest)).splitOn slash =
      (pathText front).splitOn slash ++ (pathText rest).splitOn slash := by
  rw [pathText_append (by decide) (by decide), List.splitOn_append_cons_self]

theorem pathText_of_plain {text : Bytes} (unicode : toStringLossy text = text)
    (noBackslash : backslash ∉ text) : pathText text = text := by
  rw [pathText, unicode, normalizeSeparators]
  refine (List.map_congr_left fun byte member => if_neg ?_).trans (List.map_id _)
  rintro rfl
  exact noBackslash member

theorem slash_notMem_pathText {text : Bytes} (noSlash : slash ∉ text) (noBackslash : backslash ∉ text) :
    slash ∉ pathText text := by
  intro member
  rw [pathText, normalizeSeparators, List.mem_map] at member
  obtain ⟨byte, inText, isSlash⟩ := member
  by_cases isBackslash : byte = backslash
  · exact noBackslash (mem_toStringLossy (by decide) (isBackslash ▸ inText))
  · rw [if_neg isBackslash] at isSlash
    exact noSlash (mem_toStringLossy (by decide) (isSlash ▸ inText))

theorem pathText_ne_nil {text : Bytes} (filled : text ≠ []) : pathText text ≠ [] := by
  rw [pathText, normalizeSeparators, Ne, List.map_eq_nil_iff]
  exact toStringLossy_ne_nil filled

/-! Reads below the virtual store of a workspace. -/

/-- A part of a package's name: a scope, or the name itself. -/
structure NamePart where
  text : Bytes
  filled : text ≠ []
  unicode : toStringLossy text = text
  free : ∀ byte ∈ text, byte ∉ [slash, backslash, atSign, plus]

structure PackageName where
  scope : Option NamePart
  name : NamePart

namespace PackageName

def text (name : PackageName) : Bytes :=
  match name.scope with
  | none => name.name.text
  | some scope => atSign :: scope.text ++ slash :: name.name.text

/-- The name of its entry in the virtual store. -/
def encoded (name : PackageName) : Bytes :=
  match name.scope with
  | none => name.name.text
  | some scope => atSign :: scope.text ++ plus :: name.name.text

end PackageName

/-- A version; build metadata may follow a `+`. -/
structure Version where
  text : Bytes
  filled : text ≠ []
  unicode : toStringLossy text = text
  noSlash : slash ∉ text
  noBackslash : backslash ∉ text
  starts : ∀ byte ∈ text.head?, startsSuffix byte = false
  ends : ∀ byte ∈ text.getLast?, startsSuffix byte = false

structure PeerSuffix where
  separator : UInt8
  separates : startsSuffix separator = true
  text : Bytes
  filled : text ≠ []
  noSlash : slash ∉ text
  noBackslash : backslash ∉ text

/-- A read below the entry of `host`, in the directory `dir` of the host or of a sibling. -/
structure Read where
  host : PackageName
  version : Version
  suffix : Option PeerSuffix
  dir : PackageName
  rest : Bytes

namespace Read

variable (read : Read)

def suffixText : Bytes := (read.suffix.map fun suffix => suffix.separator :: suffix.text).getD []

/-- The entry of the virtual store. -/
def entry : Bytes := read.host.encoded ++ atSign :: (read.version.text ++ read.suffixText)

def directory (workspaceRoot : Path) : Path := packageDir workspaceRoot read.entry read.dir.text

def path (workspaceRoot : Path) : Path := read.directory workspaceRoot ++ slash :: read.rest

/-- The version ends at its first separator. -/
def seenVersion : Bytes := read.version.text.takeWhile (notIn [slash, underscore, plus])

def captured : Captured := ⟨read.host.encoded, read.seenVersion, read.dir.text⟩

end Read

/-- The directory `.pnpm`. -/
def virtualStore (workspaceRoot : Path) : Path :=
  Path.join (Path.join workspaceRoot (utf8 "node_modules")) (utf8 ".pnpm")

/-- A virtual store that the path of the workspace itself goes through. -/
def storeAbove (workspaceRoot : Path) : Option Captured :=
  findStore ((pathText (virtualStore workspaceRoot ++ [slash])).splitOn slash)

/-- What the expression sees of a read. -/
def Read.seen (workspaceRoot : Path) (read : Read) : Captured :=
  (storeAbove workspaceRoot).getD read.captured

/-! A read, in parts. -/

theorem NamePart.notMem (part : NamePart) {byte : UInt8}
    (excluded : byte ∈ [slash, backslash, atSign, plus]) : byte ∉ part.text :=
  fun member => part.free byte member excluded

theorem takeWhile_name {bytes : List UInt8} {stop : UInt8} (listed : stop ∈ bytes) {text : Bytes}
    (free : ∀ byte ∈ text, byte ∉ bytes) (rest : Bytes) :
    (text ++ stop :: rest).takeWhile (notIn bytes) = text := by
  rw [takeWhile_append_stop (by simpa using notIn_eq_false.mpr listed), List.takeWhile_eq_self_iff]
  exact fun byte member => notIn_eq_true.mpr (free byte member)

theorem dropWhile_name {bytes : List UInt8} {stop : UInt8} (listed : stop ∈ bytes) {text : Bytes}
    (free : ∀ byte ∈ text, byte ∉ bytes) (rest : Bytes) :
    (text ++ stop :: rest).dropWhile (notIn bytes) = stop :: rest := by
  have all : text.dropWhile (notIn bytes) = [] :=
    List.dropWhile_eq_nil_iff.mpr fun byte member => notIn_eq_true.mpr (free byte member)
  rw [dropWhile_append_stop (by simpa using notIn_eq_false.mpr listed), all, List.nil_append]

theorem NamePart.free_of (part : NamePart) (bytes : List UInt8)
    (listed : bytes ⊆ [slash, backslash, atSign, plus]) : ∀ byte ∈ part.text, byte ∉ bytes :=
  fun byte member inBytes => part.free byte member (listed inBytes)

theorem splitName_part (part : NamePart) (rest : Bytes) :
    splitName (part.text ++ atSign :: rest) =
      (splitVersion rest).map fun version => (part.text, version) := by
  have free := part.free_of [atSign, slash] (by decide)
  rw [splitName, takeWhile_name (by decide) free, dropWhile_name (by decide) free]
  exact if_neg part.filled

theorem splitEntry_encoded (name : PackageName) (rest : Bytes) :
    splitEntry (name.encoded ++ atSign :: rest) =
      (splitVersion rest).map fun version => (name.encoded, version) := by
  obtain ⟨scope, part⟩ := name
  cases scope with
  | none =>
      obtain ⟨first, others, isText⟩ := List.exists_cons_of_ne_nil part.filled
      have notAt : first ≠ atSign := by
        rintro rfl
        exact part.notMem (by decide) (isText ▸ List.mem_cons_self)
      refine Eq.trans ?_ (splitName_part part rest)
      simp only [PackageName.encoded]
      rw [isText, List.cons_append, splitEntry, if_neg notAt]
  | some scope =>
      have free := scope.free_of [slash, plus] (by decide)
      simp only [PackageName.encoded, List.cons_append, List.append_assoc]
      rw [splitEntry, if_pos rfl, takeWhile_name (by decide) free, dropWhile_name (by decide) free]
      simp only [if_neg scope.filled]
      rw [splitName_part]
      cases splitVersion rest with
      | none => rfl
      | some version => rfl

theorem splitDir_name (name : PackageName) {below : List Bytes} (filled : below ≠ []) :
    splitDir (name.text.splitOn slash ++ below) = some name.text := by
  obtain ⟨first, others, rfl⟩ := List.exists_cons_of_ne_nil filled
  obtain ⟨scope, part⟩ := name
  have partFree : slash ∉ part.text := part.notMem (by decide)
  cases scope with
  | none =>
      have plain : part.text.head? ≠ some atSign := fun starts =>
        part.notMem (by decide) (List.mem_of_mem_head? starts)
      simp only [PackageName.text]
      rw [List.splitOn_eq_singleton partFree, List.singleton_append]
      cases others with
      | nil => rw [splitDir, if_neg part.filled]
      | cons second others => rw [splitDir, if_neg part.filled, if_neg fun all => plain all.1]
  | some scope =>
      have scopeFree : slash ∉ atSign :: scope.text := by
        rw [List.mem_cons, not_or]
        exact ⟨by decide, scope.notMem (by decide)⟩
      simp only [PackageName.text]
      rw [List.splitOn_append_cons_self, List.splitOn_eq_singleton scopeFree,
        List.splitOn_eq_singleton partFree]
      simp only [List.cons_append, List.nil_append]
      rw [splitDir, if_neg (List.cons_ne_nil _ _), if_pos ⟨rfl, by simp [scope.filled], part.filled⟩]
      rfl

theorem seenVersion_ne_nil (read : Read) : read.seenVersion ≠ [] := by
  obtain ⟨first, others, isText⟩ := List.exists_cons_of_ne_nil read.version.filled
  have starts := read.version.starts first (by rw [isText]; rfl)
  have accepted : notIn [slash, underscore, plus] first = true := by
    have noSlash : first ≠ slash := by
      rintro rfl
      exact read.version.noSlash (isText ▸ List.mem_cons_self)
    simp only [startsSuffix, Bool.or_eq_false_iff, decide_eq_false_iff_not] at starts
    simp [notIn, noSlash, starts]
  rw [Read.seenVersion, isText, List.takeWhile_cons_of_pos accepted]
  exact List.cons_ne_nil _ _

/-- What stops the version is not alone. -/
theorem rest_of_version (version : Version) {suffix : Bytes} (notAlone : suffix.length ≠ 1) :
    (version.text.dropWhile (notIn [slash, underscore, plus]) ++ suffix).length ≠ 1 := by
  have split := List.takeWhile_append_dropWhile (p := notIn [slash, underscore, plus])
    (l := version.text)
  have stopped := List.head?_dropWhile_not (notIn [slash, underscore, plus]) version.text
  cases isBehind : version.text.dropWhile (notIn [slash, underscore, plus]) with
  | nil => exact notAlone
  | cons byte rest =>
      rw [isBehind] at split stopped
      intro alone
      have isLast : rest = [] := by
        rw [List.cons_append, List.length_cons, List.length_append] at alone
        exact List.eq_nil_of_length_eq_zero (by omega)
      rw [isLast] at split
      have ends := version.ends byte (by rw [← split, List.getLast?_concat]; rfl)
      have member := notIn_eq_false.mp (by simpa using stopped)
      simp only [List.mem_cons, List.not_mem_nil, or_false] at member
      rcases member with rfl | rfl | rfl
      · exact version.noSlash (split ▸ by simp)
      · exact absurd ends (by decide)
      · exact absurd ends (by decide)

theorem splitVersion_read (read : Read) {suffix : Bytes} (notAlone : suffix.length ≠ 1)
    (separated : ∀ byte ∈ suffix.head?, startsSuffix byte = true) :
    splitVersion (read.version.text ++ suffix) = some read.seenVersion := by
  have stops : ∀ byte ∈ suffix.head?, notIn [slash, underscore, plus] byte = false := by
    intro byte first
    have separates := separated byte first
    simp only [startsSuffix, Bool.or_eq_true, decide_eq_true_eq] at separates
    rw [notIn_eq_false]
    rcases separates with rfl | rfl
    · simp
    · simp
  rw [splitVersion, takeWhile_append_stop stops, dropWhile_append_stop stops, if_neg]
  · rfl
  · rw [not_or]
    exact ⟨seenVersion_ne_nil read, rest_of_version read.version notAlone⟩

theorem pathText_part (part : NamePart) : pathText part.text = part.text :=
  pathText_of_plain part.unicode (part.notMem (by decide))

theorem pathText_cons {byte : UInt8} (ascii : byte < 0x80) (other : byte ≠ backslash) (rest : Bytes) :
    pathText (byte :: rest) = byte :: pathText rest :=
  pathText_append ascii other [] rest

theorem pathText_encoded (name : PackageName) : pathText name.encoded = name.encoded := by
  obtain ⟨scope, part⟩ := name
  cases scope with
  | none => exact pathText_part part
  | some scope =>
      simp only [PackageName.encoded, List.cons_append]
      rw [pathText_cons (by decide) (by decide), pathText_append (by decide) (by decide),
        pathText_part, pathText_part]

theorem pathText_name (name : PackageName) : pathText name.text = name.text := by
  obtain ⟨scope, part⟩ := name
  cases scope with
  | none => exact pathText_part part
  | some scope =>
      simp only [PackageName.text, List.cons_append]
      rw [pathText_cons (by decide) (by decide), pathText_append (by decide) (by decide),
        pathText_part, pathText_part]

theorem slash_notMem_encoded (name : PackageName) : slash ∉ name.encoded := by
  obtain ⟨scope, part⟩ := name
  have partFree : slash ∉ part.text := part.notMem (by decide)
  cases scope with
  | none => exact partFree
  | some scope =>
      have scopeFree : slash ∉ scope.text := scope.notMem (by decide)
      have notAt : slash ≠ atSign := by decide
      have notPlus : slash ≠ plus := by decide
      simp [PackageName.encoded, partFree, scopeFree, notAt, notPlus]

theorem separator_plain {separator : UInt8} (separates : startsSuffix separator = true) :
    separator < 0x80 ∧ separator ≠ backslash ∧ separator ≠ slash := by
  simp only [startsSuffix, Bool.or_eq_true, decide_eq_true_eq] at separates
  rcases separates with rfl | rfl
  · decide
  · decide

/-- The text of an entry is split as the entry is. -/
theorem pathText_entry (read : Read) : slash ∉ pathText read.entry ∧
    splitEntry (pathText read.entry) = some (read.host.encoded, read.seenVersion) := by
  have onVersion : pathText read.version.text = read.version.text :=
    pathText_of_plain read.version.unicode read.version.noBackslash
  have isText : pathText read.entry =
      read.host.encoded ++ atSign :: pathText (read.version.text ++ read.suffixText) := by
    rw [Read.entry, pathText_append (by decide) (by decide), pathText_encoded]
  have notAt : slash ≠ atSign := by decide
  rw [isText, splitEntry_encoded]
  simp only [List.mem_append, List.mem_cons, slash_notMem_encoded, notAt, false_or]
  cases hasSuffix : read.suffix with
  | none =>
      have noSuffix : read.suffixText = [] := by rw [Read.suffixText, hasSuffix]; rfl
      rw [noSuffix, List.append_nil, onVersion]
      have seen : splitVersion (read.version.text ++ []) = some read.seenVersion :=
        splitVersion_read read (by decide) (by simp)
      rw [List.append_nil] at seen
      rw [seen]
      exact ⟨read.version.noSlash, rfl⟩
  | some suffix =>
      have isSuffix : read.suffixText = suffix.separator :: suffix.text := by
        rw [Read.suffixText, hasSuffix]; rfl
      obtain ⟨ascii, notBackslash, notSlash⟩ := separator_plain suffix.separates
      have notAlone : (suffix.separator :: pathText suffix.text).length ≠ 1 := by
        simpa using pathText_ne_nil suffix.filled
      rw [isSuffix, pathText_append ascii notBackslash, onVersion,
        splitVersion_read read notAlone (by simpa using suffix.separates)]
      simp only [List.mem_append, List.mem_cons, read.version.noSlash, notSlash.symm, false_or]
      exact ⟨slash_notMem_pathText suffix.noSlash suffix.noBackslash, rfl⟩

theorem join_part (front last : Path) {base part : Path} (isBase : base = front ++ last) (filled : last ≠ [])
    (free : slash ∉ last) (relative : part.head? ≠ some slash) :
    Path.join base part = base ++ slash :: part := by
  have notEnded : base.getLast? ≠ some slash := by
    rw [isBase, List.getLast?_append_of_ne_nil _ filled]
    exact fun ended => free (List.mem_of_getLast? ended)
  have notNil : base ≠ [] := by
    rw [isBase]
    simp [filled]
  rw [Path.join, if_neg relative, if_neg (by simp [notNil, notEnded])]

theorem pathText_nodeModules :
    (pathText (utf8 "node_modules")).splitOn slash = [utf8 "node_modules"] := by
  decide

theorem join_nodeModules (workspaceRoot : Path) :
    Path.join workspaceRoot (utf8 "node_modules") = utf8 "node_modules" ∨
      ∃ above, Path.join workspaceRoot (utf8 "node_modules") =
        above ++ slash :: utf8 "node_modules" := by
  rw [Path.join, if_neg (by decide)]
  by_cases isEmpty : workspaceRoot = []
  · rw [if_pos (Or.inl isEmpty), isEmpty]
    exact Or.inl rfl
  · by_cases ended : workspaceRoot.getLast? = some slash
    · obtain ⟨above, rfl⟩ := List.getLast?_eq_some_iff.mp ended
      rw [if_pos (Or.inr ended), List.append_assoc]
      exact Or.inr ⟨above, rfl⟩
    · rw [if_neg (by simp [isEmpty, ended])]
      exact Or.inr ⟨workspaceRoot, rfl⟩

theorem virtualStore_eq (workspaceRoot : Path) : virtualStore workspaceRoot =
    Path.join workspaceRoot (utf8 "node_modules") ++ slash :: utf8 ".pnpm" := by
  have filled : utf8 "node_modules" ≠ [] := by decide
  have free : slash ∉ utf8 "node_modules" := by decide
  rcases join_nodeModules workspaceRoot with isJoin | ⟨above, isJoin⟩
  · exact join_part [] _ isJoin filled free (by decide)
  · refine join_part (above ++ [slash]) _ (isJoin.trans ?_) filled free (by decide)
    rw [List.append_assoc, List.singleton_append]

/-- What stands above the virtual store, for every path below it. -/
theorem workspace_parts (workspaceRoot : Path) : ∃ above : List Bytes, ∀ below,
    (pathText (virtualStore workspaceRoot ++ slash :: below)).splitOn slash =
      above ++ utf8 "node_modules" :: utf8 ".pnpm" :: (pathText below).splitOn slash := by
  have isStore : (pathText (utf8 ".pnpm")).splitOn slash = [utf8 ".pnpm"] := by decide
  rcases join_nodeModules workspaceRoot with isJoin | ⟨above, isJoin⟩
  · refine ⟨[], fun below => ?_⟩
    rw [virtualStore_eq, isJoin, pathText_slash, pathText_slash, pathText_nodeModules, isStore]
    rfl
  · refine ⟨(pathText above).splitOn slash, fun below => ?_⟩
    rw [virtualStore_eq, isJoin, pathText_slash, pathText_slash, pathText_slash, pathText_nodeModules,
      isStore]
    simp

theorem packageDir_eq (workspaceRoot : Path) {pnpmDir dirName : Bytes} (filled : pnpmDir ≠ [])
    (free : slash ∉ pnpmDir) (relative : dirName.head? ≠ some slash) :
    packageDir workspaceRoot pnpmDir dirName = virtualStore workspaceRoot ++
      slash :: (pnpmDir ++ slash :: (utf8 "node_modules" ++ slash :: dirName)) := by
  have relativeEntry : pnpmDir.head? ≠ some slash := fun first =>
    free (List.mem_of_mem_head? first)
  have onEntry : Path.join (virtualStore workspaceRoot) pnpmDir =
      virtualStore workspaceRoot ++ slash :: pnpmDir := by
    refine join_part (Path.join workspaceRoot (utf8 "node_modules") ++ [slash]) (utf8 ".pnpm")
      ((virtualStore_eq workspaceRoot).trans ?_) (by decide) (by decide) relativeEntry
    rw [List.append_assoc, List.singleton_append]
  have onModules : Path.join (virtualStore workspaceRoot ++ slash :: pnpmDir) (utf8 "node_modules") =
      virtualStore workspaceRoot ++ slash :: (pnpmDir ++ slash :: utf8 "node_modules") := by
    refine (join_part (virtualStore workspaceRoot ++ [slash]) pnpmDir ?_ filled free
      (by decide)).trans ?_
    · rw [List.append_assoc, List.singleton_append]
    · rw [List.append_assoc, List.cons_append]
  rw [packageDir, ← virtualStore, onEntry, onModules]
  refine (join_part (virtualStore workspaceRoot ++ slash :: (pnpmDir ++ [slash]))
    (utf8 "node_modules") ?_ (by decide) (by decide) relative).trans ?_
  · simp
  · simp

/-! A virtual store above decides for every read. -/

theorem splitStore_above (above : List Bytes) {more : List Bytes} (filled : more ≠ []) :
    splitStore (above ++ utf8 "node_modules" :: utf8 ".pnpm" :: more) =
      splitStore (above ++ [utf8 "node_modules", utf8 ".pnpm", []]) := by
  obtain ⟨first, others, rfl⟩ := List.exists_cons_of_ne_nil filled
  have notModules : utf8 ".pnpm" ≠ utf8 "node_modules" := by decide
  have unscoped (dir : Bytes) (plain : dir ≠ [] ∧ dir.head? ≠ some atSign) (name : Bytes)
      (below : List Bytes) : splitDir (dir :: name :: below) = some dir := by
    cases below with
    | nil => rw [splitDir, if_neg plain.1]
    | cons second below => rw [splitDir, if_neg plain.1, if_neg fun all => plain.2 all.1]
  match above with
  | [] =>
      simp only [List.nil_append, splitStore]
      rw [if_neg notModules, if_neg notModules]
  | [entry] =>
      simp only [List.cons_append, List.nil_append, splitStore]
      rw [unscoped _ (by decide), unscoped _ (by decide)]
  | [entry, nodeModules] =>
      simp only [List.cons_append, List.nil_append, splitStore]
      rw [unscoped _ (by decide), unscoped _ (by decide)]
  | [entry, nodeModules, dir] =>
      simp only [List.cons_append, List.nil_append, splitStore, splitDir]
  | entry :: nodeModules :: dir :: name :: [] =>
      simp only [List.cons_append, List.nil_append, splitStore, splitDir]
  | entry :: nodeModules :: dir :: name :: second :: above =>
      simp only [List.cons_append, splitStore, splitDir]

theorem findStore_above (above : List Bytes) {more : List Bytes} {captured : Captured}
    (isFound : splitStore more = some captured) :
    findStore (above ++ utf8 "node_modules" :: utf8 ".pnpm" :: more) =
      some ((findStore (above ++ [utf8 "node_modules", utf8 ".pnpm", []])).getD captured) := by
  have filled : more ≠ [] := by
    rintro rfl
    simp [splitStore] at isFound
  induction above with
  | nil =>
      have notStore : ¬ utf8 ".pnpm" <:+ utf8 "node_modules" := by decide
      simp only [List.nil_append, findStore]
      rw [if_neg notStore, if_pos List.suffix_rfl, isFound, Option.some_or]
      rfl
  | cons part above ih =>
      simp only [List.cons_append, findStore]
      rw [ih, splitStore_above above filled]
      split
      · cases splitStore (above ++ [utf8 "node_modules", utf8 ".pnpm", []]) with
        | none => simp
        | some found => simp
      · rfl

/-! What is extracted from a list of reads. -/

section Extracted

variable (workspaceRoot : Path) (read : Read)

theorem entry_plain : read.entry ≠ [] ∧ slash ∉ read.entry := by
  have notAt : slash ≠ atSign := by decide
  have suffixFree : slash ∉ read.suffixText := by
    cases hasSuffix : read.suffix with
    | none => simp [Read.suffixText, hasSuffix]
    | some suffix =>
        have notSeparator := (separator_plain suffix.separates).2.2
        simp [Read.suffixText, hasSuffix, notSeparator.symm, suffix.noSlash]
  simp [Read.entry, slash_notMem_encoded, read.version.noSlash, notAt, suffixFree]

theorem name_relative (name : PackageName) : name.text.head? ≠ some slash := by
  obtain ⟨scope, part⟩ := name
  cases scope with
  | none =>
      intro first
      have free : slash ∉ part.text := part.notMem (by decide)
      exact free (List.mem_of_mem_head? first)
  | some scope =>
      have notSlash : atSign ≠ slash := by decide
      simp [PackageName.text, notSlash]

theorem directory_eq : read.directory workspaceRoot = virtualStore workspaceRoot ++
    slash :: (read.entry ++ slash :: (utf8 "node_modules" ++ slash :: read.dir.text)) :=
  packageDir_eq workspaceRoot (entry_plain read).1 (entry_plain read).2 (name_relative read.dir)

theorem path_eq : read.path workspaceRoot = virtualStore workspaceRoot ++
    slash :: (read.entry ++ slash :: (utf8 "node_modules" ++ slash :: (read.dir.text ++
      slash :: read.rest))) := by
  rw [Read.path, directory_eq]
  simp

theorem splitStore_read : splitStore ((pathText (read.entry ++
      slash :: (utf8 "node_modules" ++ slash :: (read.dir.text ++ slash :: read.rest)))).splitOn slash) =
    some read.captured := by
  obtain ⟨entryFree, isEntry⟩ := pathText_entry read
  rw [pathText_slash, pathText_slash, pathText_slash, pathText_nodeModules, pathText_name,
    List.splitOn_eq_singleton entryFree]
  simp only [List.singleton_append, splitStore]
  rw [if_pos trivial, isEntry, splitDir_name read.dir (List.splitOn_ne_nil slash (pathText read.rest))]
  rfl

theorem captures_read : virtualStorePath.captures (normalizeSeparators (toStringLossy
    (read.path workspaceRoot))) = some (read.seen workspaceRoot).groups := by
  obtain ⟨above, parts⟩ := workspace_parts workspaceRoot
  have isAbove : storeAbove workspaceRoot =
      findStore (above ++ [utf8 "node_modules", utf8 ".pnpm", []]) :=
    congrArg findStore (parts [])
  rw [captures_eq, ← pathText, path_eq, parts, findStore_above above (splitStore_read read), ← isAbove]
  rfl

end Extracted

def Captured.reference (workspaceRoot : Path) (captured : Captured) : PathsetPackageRef :=
  ⟨captured.dirName, captured.version, captured.root workspaceRoot⟩

theorem extractFrom_cons (workspaceRoot : Path) (seen : List (Bytes × Bytes)) (read : Read)
    (rest : List Path) : extractFrom workspaceRoot seen (read.path workspaceRoot :: rest) =
      if (read.seen workspaceRoot).key ∈ seen then extractFrom workspaceRoot seen rest
      else (read.seen workspaceRoot).reference workspaceRoot ::
        extractFrom workspaceRoot ((read.seen workspaceRoot).key :: seen) rest := by
  rw [extractFrom, captures_read]
  rfl

/-- The first read of its name and version. -/
def First (workspaceRoot : Path) (reads : List Read) (read : Read) : Prop :=
  ∃ before after, reads = before ++ read :: after ∧
    ∀ earlier ∈ before, (earlier.seen workspaceRoot).key ≠ (read.seen workspaceRoot).key

theorem first_cons_iff {workspaceRoot : Path} {reads : List Read} {head read : Read} :
    First workspaceRoot (head :: reads) read ↔ read = head ∨
      First workspaceRoot reads read ∧
        (head.seen workspaceRoot).key ≠ (read.seen workspaceRoot).key := by
  constructor
  · rintro ⟨before, after, isReads, fresh⟩
    cases before with
    | nil => exact Or.inl (List.head_eq_of_cons_eq isReads).symm
    | cons earlier before =>
        rw [List.cons_append, List.cons.injEq] at isReads
        obtain ⟨rfl, isReads⟩ := isReads
        exact Or.inr ⟨⟨before, after, isReads, fun other member =>
          fresh other (List.mem_cons_of_mem _ member)⟩, fresh head List.mem_cons_self⟩
  · rintro (rfl | ⟨⟨before, after, rfl, fresh⟩, other⟩)
    · exact ⟨[], reads, rfl, by simp⟩
    · exact ⟨head :: before, after, rfl, by simpa using ⟨other, fresh⟩⟩

theorem mem_extractFrom_iff {workspaceRoot : Path} {reads : List Read} {seen : List (Bytes × Bytes)}
    {ref : PathsetPackageRef} :
    ref ∈ extractFrom workspaceRoot seen (reads.map (·.path workspaceRoot)) ↔
      ∃ read, First workspaceRoot reads read ∧ (read.seen workspaceRoot).key ∉ seen ∧
        ref = (read.seen workspaceRoot).reference workspaceRoot := by
  induction reads generalizing seen with
  | nil => simp [extractFrom, First]
  | cons head reads ih =>
      rw [List.map_cons, extractFrom_cons]
      by_cases known : (head.seen workspaceRoot).key ∈ seen
      · rw [if_pos known, ih]
        constructor
        · rintro ⟨read, first, fresh, isRef⟩
          exact ⟨read, first_cons_iff.mpr (Or.inr ⟨first, fun same => fresh (same ▸ known)⟩), fresh,
            isRef⟩
        · rintro ⟨read, first, fresh, isRef⟩
          rcases first_cons_iff.mp first with rfl | ⟨first, -⟩
          · exact absurd known fresh
          · exact ⟨read, first, fresh, isRef⟩
      · rw [if_neg known, List.mem_cons, ih]
        constructor
        · rintro (isRef | ⟨read, first, fresh, isRef⟩)
          · exact ⟨head, first_cons_iff.mpr (Or.inl rfl), known, isRef⟩
          · rw [List.mem_cons, not_or] at fresh
            exact ⟨read, first_cons_iff.mpr (Or.inr ⟨first, Ne.symm fresh.1⟩), fresh.2, isRef⟩
        · rintro ⟨read, first, fresh, isRef⟩
          rcases first_cons_iff.mp first with rfl | ⟨first, other⟩
          · exact Or.inl isRef
          · refine Or.inr ⟨read, first, ?_, isRef⟩
            rw [List.mem_cons, not_or]
            exact ⟨Ne.symm other, fresh⟩

theorem mem_extract_iff {workspaceRoot : Path} {reads : List Read} {ref : PathsetPackageRef} :
    ref ∈ extractPnpmPackages (reads.map (·.path workspaceRoot)) workspaceRoot ↔
      ∃ read, First workspaceRoot reads read ∧
        ref = (read.seen workspaceRoot).reference workspaceRoot := by
  rw [extractPnpmPackages, mem_extractFrom_iff]
  simp

theorem exists_first {workspaceRoot : Path} {reads : List Read} {read : Read} (member : read ∈ reads) :
    ∃ first, First workspaceRoot reads first ∧
      (first.seen workspaceRoot).key = (read.seen workspaceRoot).key := by
  induction reads with
  | nil => simp at member
  | cons head reads ih =>
      by_cases same : (head.seen workspaceRoot).key = (read.seen workspaceRoot).key
      · exact ⟨head, first_cons_iff.mpr (Or.inl rfl), same⟩
      · rcases List.mem_cons.mp member with rfl | member
        · exact absurd rfl same
        · obtain ⟨first, isFirst, isKey⟩ := ih member
          exact ⟨first, first_cons_iff.mpr (Or.inr ⟨isFirst, isKey ▸ same⟩), isKey⟩

theorem First.mem {workspaceRoot : Path} {reads : List Read} {read : Read}
    (first : First workspaceRoot reads read) : read ∈ reads := by
  obtain ⟨before, after, rfl, -⟩ := first
  simp

/-! When the references stand for what was read. -/

/-- What is installed in a directory, as a name and a version. -/
abbrev Installed := Path → Bytes × Bytes

structure Represents (installed : Installed) (workspaceRoot : Path) (reads : List Read)
    (refs : List PathsetPackageRef) : Prop where
  below : ∀ ref ∈ refs, ∃ read ∈ reads, ref.packageRoot ++ [slash] <+: read.path workspaceRoot
  named : ∀ ref ∈ refs, installed ref.packageRoot = (ref.name, ref.version)
  all : ∀ read ∈ reads, ∃ ref ∈ refs, installed (read.directory workspaceRoot) = (ref.name, ref.version)

/-- As `Represents`, of what the expression sees. -/
structure SeenFaithful (installed : Installed) (workspaceRoot : Path) (reads : List Read) :
    Prop where
  kept : ∀ read, First workspaceRoot reads read →
    (∃ other ∈ reads,
      (read.seen workspaceRoot).root workspaceRoot ++ [slash] <+: other.path workspaceRoot) ∧
    installed ((read.seen workspaceRoot).root workspaceRoot) = (read.seen workspaceRoot).key
  all : ∀ read ∈ reads, ∃ other ∈ reads,
    installed (read.directory workspaceRoot) = (other.seen workspaceRoot).key

theorem represents_iff_seen {installed : Installed} {workspaceRoot : Path} {reads : List Read} :
    Represents installed workspaceRoot reads
        (extractPnpmPackages (reads.map (·.path workspaceRoot)) workspaceRoot) ↔
      SeenFaithful installed workspaceRoot reads := by
  constructor
  · intro represents
    refine ⟨fun read first => ?_, fun read member => ?_⟩
    · have isRef := mem_extract_iff.mpr ⟨read, first, rfl⟩
      exact ⟨represents.below _ isRef, represents.named _ isRef⟩
    · obtain ⟨ref, isRef, isInstalled⟩ := represents.all read member
      obtain ⟨other, first, rfl⟩ := mem_extract_iff.mp isRef
      exact ⟨other, first.mem, isInstalled⟩
  · intro faithful
    refine ⟨fun ref isRef => ?_, fun ref isRef => ?_, fun read member => ?_⟩
    · obtain ⟨read, first, rfl⟩ := mem_extract_iff.mp isRef
      exact (faithful.kept read first).1
    · obtain ⟨read, first, rfl⟩ := mem_extract_iff.mp isRef
      exact (faithful.kept read first).2
    · obtain ⟨other, inReads, isInstalled⟩ := faithful.all read member
      obtain ⟨first, isFirst, sameKey⟩ := exists_first inReads
      exact ⟨_, mem_extract_iff.mpr ⟨first, isFirst, rfl⟩, isInstalled.trans sameKey.symm⟩

/-! The condition on the reads themselves. -/

namespace Read

def key (read : Read) : Bytes × Bytes := (read.dir.text, read.seenVersion)

/-- `other` is in the same directory of the same host, whose entry has no suffix. -/
def Plain (read other : Read) : Prop :=
  other.entry = read.host.encoded ++ atSign :: read.seenVersion ∧ other.dir.text = read.dir.text

end Read

/-- The first read of a directory's name and a host's version: the entry without a suffix was read as
well, and holds the package of that name in that version.  Every package read is named so. -/
structure PlainFaithful (installed : Installed) (workspaceRoot : Path) (reads : List Read) :
    Prop where
  kept : ∀ before read after, reads = before ++ read :: after →
    (∀ earlier ∈ before, earlier.key ≠ read.key) →
      ∃ other ∈ reads, read.Plain other ∧ installed (other.directory workspaceRoot) = read.key
  all : ∀ read ∈ reads, ∃ other ∈ reads, installed (read.directory workspaceRoot) = other.key

/-- Below another virtual store, every read is taken for the same package of that store. -/
structure OneRead (installed : Installed) (workspaceRoot : Path) (above : Captured)
    (reads : List Read) : Prop where
  below : ∃ read ∈ reads, above.root workspaceRoot ++ [slash] <+: read.path workspaceRoot
  named : installed (above.root workspaceRoot) = above.key
  all : ∀ read ∈ reads, installed (read.directory workspaceRoot) = above.key

def Faithful (installed : Installed) (workspaceRoot : Path) (reads : List Read) : Prop :=
  match storeAbove workspaceRoot with
  | none => PlainFaithful installed workspaceRoot reads
  | some above => reads = [] ∨ OneRead installed workspaceRoot above reads

theorem head_ne_at (part : NamePart) (rest : Bytes) : part.text ≠ atSign :: rest := by
  intro same
  have free : atSign ∉ part.text := part.notMem (by decide)
  exact free (same ▸ List.mem_cons_self)

theorem append_slash_append (front name tail : Bytes) :
    front ++ slash :: name ++ tail = front ++ slash :: (name ++ tail) := by
  rw [List.append_assoc, List.cons_append]

theorem name_prefix_iff (name other : PackageName) (rest : Bytes) :
    name.text ++ [slash] <+: other.text ++ slash :: rest ↔ other.text = name.text := by
  obtain ⟨scope, part⟩ := name
  obtain ⟨otherScope, otherPart⟩ := other
  have free (part : NamePart) : slash ∉ part.text := part.notMem (by decide)
  have scopeFree (part : NamePart) : slash ∉ atSign :: part.text := by
    rw [List.mem_cons, not_or]
    exact ⟨by decide, free part⟩
  cases scope with
  | none =>
      cases otherScope with
      | none =>
          simp only [PackageName.text]
          rw [part_prefix_iff (free part) (free otherPart)]
          simp [eq_comm]
      | some otherScope =>
          simp only [PackageName.text]
          rw [append_slash_append, part_prefix_iff (free part) (scopeFree otherScope)]
          constructor
          · exact fun both => absurd both.1 (head_ne_at part _)
          · exact fun same => absurd same.symm (head_ne_at part _)
  | some scope =>
      cases otherScope with
      | none =>
          simp only [PackageName.text]
          rw [append_slash_append, part_prefix_iff (scopeFree scope) (free otherPart)]
          constructor
          · exact fun both => absurd both.1.symm (head_ne_at otherPart _)
          · exact fun same => absurd same (head_ne_at otherPart _)
      | some otherScope =>
          simp only [PackageName.text]
          rw [append_slash_append, append_slash_append, part_prefix_iff (scopeFree scope) (scopeFree otherScope),
            part_prefix_iff (free part) (free otherPart)]
          constructor
          · rintro ⟨isScope, isPart, -⟩
            rw [isScope, isPart]
          · intro same
            have prefixes : (atSign :: otherScope.text) ++ slash :: otherPart.text <+:
                (atSign :: scope.text) ++ slash :: part.text := same ▸ List.prefix_rfl
            obtain ⟨isScope, -⟩ := (part_prefix_iff (scopeFree otherScope) (scopeFree scope)).mp prefixes
            rw [isScope] at same
            exact ⟨isScope.symm, (List.tail_eq_of_cons_eq (List.append_cancel_left same)).symm,
              List.nil_prefix⟩

theorem root_below_iff {workspaceRoot : Path} (read other : Read) :
    read.captured.root workspaceRoot ++ [slash] <+: other.path workspaceRoot ↔ read.Plain other := by
  have notAt : slash ≠ atSign := by decide
  have versionFree : slash ∉ read.seenVersion := fun member =>
    read.version.noSlash (List.takeWhile_subset _ member)
  have entryFree : slash ∉ read.host.encoded ++ atSign :: read.seenVersion := by
    simp [slash_notMem_encoded, notAt, versionFree]
  have modulesFree : slash ∉ utf8 "node_modules" := by decide
  have isRoot : read.captured.root workspaceRoot = virtualStore workspaceRoot ++
      slash :: (read.host.encoded ++ atSign :: read.seenVersion ++
        slash :: (utf8 "node_modules" ++ slash :: read.dir.text)) :=
    packageDir_eq workspaceRoot (by simp) entryFree (name_relative read.dir)
  rw [isRoot, path_eq, append_slash_append, List.prefix_append_right_inj,
    List.cons_prefix_cons, append_slash_append, part_prefix_iff entryFree (entry_plain other).2,
    append_slash_append, part_prefix_iff modulesFree modulesFree]
  simp only [name_prefix_iff, Read.Plain, true_and, eq_comm]

theorem Read.Plain.root {read other : Read} (plain : read.Plain other) (workspaceRoot : Path) :
    read.captured.root workspaceRoot = other.directory workspaceRoot := by
  rw [Read.directory, plain.1, plain.2]
  rfl

theorem seenFaithful_iff_plain {installed : Installed} {workspaceRoot : Path} {reads : List Read}
    (clear : storeAbove workspaceRoot = none) :
    SeenFaithful installed workspaceRoot reads ↔ PlainFaithful installed workspaceRoot reads := by
  have seen (read : Read) : read.seen workspaceRoot = read.captured := by
    rw [Read.seen, clear]
    rfl
  have sameKey (read : Read) : (read.seen workspaceRoot).key = read.key := congrArg Captured.key (seen read)
  constructor
  · intro faithful
    refine ⟨fun before read after isReads fresh => ?_, fun read member => ?_⟩
    · have first : First workspaceRoot reads read :=
        ⟨before, after, isReads, fun earlier member => by
          rw [sameKey, sameKey]
          exact fresh earlier member⟩
      obtain ⟨⟨other, inReads, below⟩, isInstalled⟩ := faithful.kept read first
      rw [seen] at below isInstalled
      have plain := (root_below_iff read other).mp below
      exact ⟨other, inReads, plain, plain.root workspaceRoot ▸ isInstalled⟩
    · obtain ⟨other, inReads, isInstalled⟩ := faithful.all read member
      exact ⟨other, inReads, isInstalled.trans (sameKey other)⟩
  · intro faithful
    refine ⟨fun read first => ?_, fun read member => ?_⟩
    · obtain ⟨before, after, isReads, fresh⟩ := first
      simp only [sameKey] at fresh
      obtain ⟨other, inReads, plain, isInstalled⟩ := faithful.kept before read after isReads fresh
      rw [seen]
      refine ⟨⟨other, inReads, (root_below_iff read other).mpr plain⟩, ?_⟩
      rw [plain.root workspaceRoot]
      exact isInstalled
    · obtain ⟨other, inReads, isInstalled⟩ := faithful.all read member
      exact ⟨other, inReads, isInstalled.trans (sameKey other).symm⟩

theorem seenFaithful_iff_oneRead {installed : Installed} {workspaceRoot : Path} {reads : List Read}
    {above : Captured} (isAbove : storeAbove workspaceRoot = some above) :
    SeenFaithful installed workspaceRoot reads ↔
      reads = [] ∨ OneRead installed workspaceRoot above reads := by
  have seen (read : Read) : read.seen workspaceRoot = above := by
    rw [Read.seen, isAbove]
    rfl
  constructor
  · intro faithful
    cases reads with
    | nil => exact Or.inl rfl
    | cons head reads =>
        obtain ⟨below, named⟩ := faithful.kept head (first_cons_iff.mpr (Or.inl rfl))
        rw [seen] at below named
        refine Or.inr ⟨below, named, fun read member => ?_⟩
        obtain ⟨other, -, isInstalled⟩ := faithful.all read member
        rwa [seen] at isInstalled
  · rintro (rfl | one)
    · refine ⟨fun read first => ?_, by simp⟩
      exact absurd first.mem List.not_mem_nil
    · refine ⟨fun read first => ?_, fun read member => ⟨read, member, ?_⟩⟩
      · rw [seen]
        exact ⟨one.below, one.named⟩
      · rw [seen]
        exact one.all read member

theorem pnpm_reads_iff (installed : Installed) (workspaceRoot : Path) (reads : List Read) :
    Represents installed workspaceRoot reads
        (extractPnpmPackages (reads.map (·.path workspaceRoot)) workspaceRoot) ↔
      Faithful installed workspaceRoot reads := by
  rw [represents_iff_seen, Faithful]
  cases isAbove : storeAbove workspaceRoot with
  | none => exact seenFaithful_iff_plain isAbove
  | some above => exact seenFaithful_iff_oneRead isAbove

/-- Without suffixes, and with the versions of the hosts, the references stand for the reads. -/
theorem represents_of_plain {installed : Installed} {workspaceRoot : Path} {reads : List Read}
    (clear : storeAbove workspaceRoot = none)
    (plain : ∀ read ∈ reads, read.suffix = none ∧ read.seenVersion = read.version.text ∧
      installed (read.directory workspaceRoot) = (read.dir.text, read.version.text)) :
    Represents installed workspaceRoot reads
      (extractPnpmPackages (reads.map (·.path workspaceRoot)) workspaceRoot) := by
  have isKey (read : Read) (member : read ∈ reads) :
      installed (read.directory workspaceRoot) = read.key := by
    rw [(plain read member).2.2, Read.key, (plain read member).2.1]
  rw [represents_iff_seen, seenFaithful_iff_plain clear]
  refine ⟨fun before read after isReads fresh => ?_, fun read member => ⟨read, member, isKey read member⟩⟩
  have member : read ∈ reads := by
    rw [isReads]
    simp
  refine ⟨read, member, ⟨?_, rfl⟩, isKey read member⟩
  obtain ⟨noSuffix, isVersion, -⟩ := plain read member
  rw [Read.entry, isVersion, Read.suffixText, noSuffix]
  simp

/-! A package with a peer. -/

def reactDom : NamePart := ⟨utf8 "react-dom", by decide, by decide, by decide +kernel⟩

def withPeer : Read where
  host := ⟨none, reactDom⟩
  version := ⟨utf8 "18.2.0", by decide, by decide, by decide, by decide, by decide +kernel,
    by decide +kernel⟩
  suffix := some ⟨underscore, rfl, utf8 "react@18.2.0", by decide, by decide +kernel, by decide +kernel⟩
  dir := ⟨none, reactDom⟩
  rest := utf8 "index.js"

/-- The root leaves out the suffix of the only directory that was read. -/
theorem suffix_dropped :
    withPeer.path (utf8 "/ws") =
        utf8 "/ws/node_modules/.pnpm/react-dom@18.2.0_react@18.2.0/node_modules/react-dom/index.js" ∧
      extractPnpmPackages [withPeer.path (utf8 "/ws")] (utf8 "/ws") =
        [⟨utf8 "react-dom", utf8 "18.2.0",
          utf8 "/ws/node_modules/.pnpm/react-dom@18.2.0/node_modules/react-dom"⟩] ∧
      ¬ Represents (fun _ => (utf8 "react-dom", utf8 "18.2.0")) (utf8 "/ws") [withPeer]
        (extractPnpmPackages ([withPeer].map (·.path (utf8 "/ws"))) (utf8 "/ws")) := by
  have found : extractPnpmPackages [withPeer.path (utf8 "/ws")] (utf8 "/ws") =
      [⟨utf8 "react-dom", utf8 "18.2.0",
        utf8 "/ws/node_modules/.pnpm/react-dom@18.2.0/node_modules/react-dom"⟩] := by
    decide +kernel
  refine ⟨by decide +kernel, found, fun represents => ?_⟩
  obtain ⟨read, member, below⟩ := represents.below _ (by
    rw [List.map_singleton, found]
    exact List.mem_cons_self)
  rw [List.mem_singleton.mp member] at below
  exact absurd below (by decide +kernel)

end Rage.PnpmReads
