import Rage.LockText

/-!
The lockfile of pnpm, in its versions 5, 6 and 9, and what its parser gets back from it.  The parser
goes through the lines and keeps what it has read of one entry until the next one begins.
-/

namespace Rage.PnpmLockfile

open Lockfile

/-! `parse_pnpm_lockfile`. -/

/-- The name and the version are set together and taken together. -/
structure State where
  packages : List UrlPackage
  inPackages : Bool
  current : Option (List Char × List Char)
  integrity : Option (List Char)

def start : State := ⟨[], false, none, none⟩

def package (name version integrity : List Char) : UrlPackage :=
  { name := toBytes name
    version := toBytes version
    integrity := toBytes integrity
    tarballUrl := none }

def push (state : State) : State :=
  match state.current with
  | none => state
  | some (name, version) =>
      let integrity := state.integrity.getD []
      { state with
        packages :=
          if integrity = [] then state.packages
          else state.packages ++ [package name version integrity]
        current := none
        integrity := none }

/-- `/ms@2.1.3:` or `/@types/node@20.0.0:`, cut at the last at-sign. -/
def readKey (state : State) (trimmed : List Char) : State :=
  let spec := (trimEndMatches (· = ':') trimmed).dropWhile (· = '/')
  { push state with
    current := (beforeLast '@' spec).map fun name => (name, spec.drop (name.length + 1)) }

/-- What a line says about the integrity. -/
def saying (trimmed : List Char) : Option (List Char) :=
  match stripPrefix "integrity:" trimmed with
  | some stripped => some (trim stripped)
  | none =>
      if (find "integrity:".toList trimmed).isSome ∧ "resolution:".toList.isPrefixOf trimmed then
        (find "integrity: ".toList trimmed).map fun found =>
          trim ((found.drop "integrity: ".length).takeWhile fun char => char ≠ ',' ∧ char ≠ '}')
      else none

def readLine (state : State) (line : List Char) : State :=
  if "packages:".toList.isPrefixOf line then { state with inPackages := true }
  else if !state.inPackages then state
  else if line.head? ≠ some ' ' ∧ line.head? ≠ some '\t' ∧ line.getLast? = some ':' then
    { state with inPackages := false }
  else
    let trimmed := trim line
    if trimmed.getLast? = some ':' ∧ ¬ "resolution:".toList.isPrefixOf trimmed ∧
        "  /".toList.isPrefixOf line then
      readKey state trimmed
    else
      match saying trimmed with
      | some integrity => { state with integrity := some integrity }
      | none => state

def finish (state : State) : List UrlPackage := (push state).packages

def parsePnpmLockfile (content : List Char) : List UrlPackage :=
  sortPackages (finish ((lines content).foldl readLine start))

/-! The lockfile that pnpm writes. -/

inductive Format
  | v5
  | v6
  | v9
  deriving DecidableEq

/-- A package of the registry, with the peers it was resolved for, or one from somewhere else. -/
inductive Key
  | registry (name version peers : List Char)
  | other (text : List Char)
  deriving DecidableEq

def Key.text : Format → Key → List Char
  | .v5, .registry name version _ => '/' :: (name ++ '/' :: version)
  | .v6, .registry name version peers => '/' :: (name ++ '@' :: (version ++ peers))
  | .v9, .registry name version _ => name ++ '@' :: version
  | _, .other text => text

structure Entry where
  key : Key
  quoted : Bool
  block : Bool
  integrity : Option (List Char)
  /-- The other fields of the resolution. -/
  fields : List (List Char × List Char)
  /-- The other lines of the entry, with the depth of each. -/
  rest : List (Nat × List Char)
  deriving DecidableEq

namespace Entry

variable (entry : Entry)

def resolution : List (List Char × List Char) :=
  (entry.integrity.toList.map fun integrity => ("integrity".toList, integrity)) ++ entry.fields

def pair (field : List Char × List Char) : List Char := field.1 ++ (": ".toList ++ field.2)

/-- `{integrity: sha512-XXX, tarball: https://...}`. -/
def inline : List Char :=
  '{' :: (List.intercalate ", ".toList (entry.resolution.map pair) ++ ['}'])

/-- The lines of the resolution, with the depth of each. -/
def resolutionLines : List (Nat × List Char) :=
  if entry.block then (4, "resolution:".toList) :: entry.resolution.map fun field => (6, pair field)
  else [(4, "resolution: ".toList ++ entry.inline)]

def keyText (format : Format) : List Char :=
  if entry.quoted then '\'' :: (entry.key.text format ++ ['\'']) else entry.key.text format

def indented (line : Nat × List Char) : List Char := List.replicate line.1 ' ' ++ line.2

def keyLine (format : Format) : List Char := indented (2, entry.keyText format ++ [':'])

def body : List (Nat × List Char) := entry.resolutionLines ++ entry.rest

def lines (format : Format) : List (List Char) :=
  [] :: entry.keyLine format :: entry.body.map indented

def package : Option UrlPackage :=
  match entry.key, entry.integrity with
  | .registry name version _, some integrity => some (PnpmLockfile.package name version integrity)
  | _, _ => none

end Entry

/-- A text that trimming leaves as it is. -/
structure IsText (text : List Char) : Prop where
  free : '\n' ∉ text
  ends : ∃ first last, text.head? = some first ∧ text.getLast? = some last ∧
    isWhitespace first = false ∧ isWhitespace last = false

/-- A name or a version. -/
def IsPlain (text : List Char) : Prop :=
  text ≠ [] ∧ ∀ char ∈ text, isWhitespace char = false ∧ char ≠ ':'

def Key.Valid : Key → Prop
  | .registry name version peers => (IsPlain name ∧ name.head? ≠ some '/') ∧
      (IsPlain version ∧ '@' ∉ version) ∧
      (peers = [] ∨ IsText peers ∧ peers.getLast? ≠ some ':')
  | .other text => IsText text ∧ text.head? ≠ some '/'

structure Entry.Valid (format : Format) (entry : Entry) : Prop where
  key : entry.key.Valid
  quoted : entry.quoted = true → format = .v9 ∨ ∃ text, entry.key = .other text
  /-- No key is written like the integrity. -/
  apart : ∀ text, entry.key = .other text → saying (entry.keyText format ++ [':']) = none
  integrity : ∀ integrity, entry.integrity = some integrity →
    IsText integrity ∧ ∀ char ∈ integrity, char ≠ ',' ∧ char ≠ '}'
  fields : ∀ field ∈ entry.fields, IsPlain field.1 ∧ IsText field.2 ∧
    field.1 ≠ "integrity".toList ∧ field.1 ≠ "resolution".toList
  inline : ¬ "integrity:".toList <:+: List.intercalate ", ".toList (entry.fields.map Entry.pair)
  rest : ∀ line ∈ entry.rest, 4 ≤ line.1 ∧ IsText line.2

structure LockFile where
  ending : LineEnding
  format : Format
  header : List (List Char)
  entries : List Entry
  /-- The sections behind the packages. -/
  sections : List (List Char)

namespace LockFile

variable (file : LockFile)

/-- The lines up to the end of some of the entries. -/
def upTo (count : Nat) : List (List Char) :=
  file.header ++ "packages:".toList ::
    (file.entries.take count).flatMap fun entry => entry.lines file.format

def content : List Char :=
  written file.ending (file.upTo file.entries.length ++ file.sections)

structure Valid : Prop where
  header : ∀ line ∈ file.header, IsLine line ∧ ¬ "packages:".toList.isPrefixOf line
  entries : ∀ entry ∈ file.entries, entry.Valid file.format
  sections : ∀ line ∈ file.sections, IsLine line ∧ ¬ "packages:".toList.isPrefixOf line
  titled : ∀ line, file.sections.head? = some line →
    line.head? ≠ some ' ' ∧ line.head? ≠ some '\t' ∧ line.getLast? = some ':'

/-- After each of the entries the packages of just these are there, one of them still to be pushed,
and in the end they are returned, up to deduplication. -/
def Inverted : Prop :=
  (∀ count, finish ((file.upTo count).foldl readLine start) =
    (file.entries.take count).filterMap Entry.package) ∧
  parsePnpmLockfile file.content = sortPackages (file.entries.filterMap Entry.package)

end LockFile

/-! Lines. -/

theorem IsPlain.isText {text : List Char} (plain : IsPlain text) : IsText text where
  free member := by
    have stays := (plain.2 _ member).1
    revert stays
    decide
  ends := ⟨_, _, List.head?_eq_some_head plain.1, List.getLast?_eq_some_getLast plain.1,
    (plain.2 _ (List.head_mem plain.1)).1, (plain.2 _ (List.getLast_mem plain.1)).1⟩

section Indented

variable {depth : Nat} {core : List Char}

theorem trim_indented (isText : IsText core) : trim (Entry.indented (depth, core)) = core := by
  obtain ⟨first, last, isFirst, isLast, firstStays, lastStays⟩ := isText.ends
  have blank : ∀ char ∈ List.replicate depth ' ', isWhitespace char = true := by
    intro char member
    rw [List.eq_of_mem_replicate member]
    decide
  have whole : trim (List.replicate depth ' ' ++ (core ++ [])) = core :=
    trim_core blank (List.forall_mem_nil _) isFirst isLast firstStays lastStays
  rwa [List.append_nil] at whole

theorem indented_free (isText : IsText core) : '\n' ∉ Entry.indented (depth, core) := by
  intro member
  rcases List.mem_append.mp member with inIndent | inCore
  · simpa using List.eq_of_mem_replicate inIndent
  · exact isText.free inCore

/-- A line below `packages:` that is not the key of an entry. -/
theorem readLine_indented {state : State} (inside : state.inPackages = true) (deep : 2 ≤ depth)
    (isText : IsText core) (notKey : depth = 2 → core.head? ≠ some '/') :
    readLine state (Entry.indented (depth, core)) =
      { state with integrity := (saying core).or state.integrity } := by
  obtain ⟨packages, inPackages, current, integrity⟩ := state
  obtain rfl : inPackages = true := inside
  obtain ⟨more, rfl⟩ := Nat.exists_eq_add_of_le deep
  have isLine : Entry.indented (2 + more, core) = ' ' :: ' ' :: (List.replicate more ' ' ++ core) := by
    rw [Entry.indented, List.replicate_add]
    rfl
  have notSlash : ¬ "  /".toList.isPrefixOf (Entry.indented (2 + more, core)) = true := by
    intro starts
    rw [isLine] at starts
    obtain ⟨tail, same⟩ := List.isPrefixOf_iff_prefix.mp starts
    have third : '/' :: tail = List.replicate more ' ' ++ core := by simpa using same
    cases more with
    | zero => exact notKey rfl (by rw [← List.nil_append core, ← List.replicate_zero, ← third]; rfl)
    | succ more => simp [List.replicate_succ] at third
  have notPackages : "packages:".toList.isPrefixOf (Entry.indented (2 + more, core)) = false := by
    rw [isLine]
    rfl
  rw [readLine, notPackages, if_neg Bool.false_ne_true, trim_indented isText]
  simp only [isLine, List.head?_cons] at notSlash ⊢
  simp only [Bool.not_true, Bool.false_eq_true, ne_eq, not_true, false_and, notSlash,
    and_false, if_false]
  cases saying core with
  | none => rfl
  | some integrity => rfl

end Indented

theorem saying_eq_none {text : List Char} (notIntegrity : ¬ "integrity:".toList <+: text)
    (notResolution : ¬ "resolution:".toList <+: text) : saying text = none := by
  have stripped : stripPrefix "integrity:" text = none := by
    cases isRest : stripPrefix "integrity:" text with
    | none => rfl
    | some rest => exact (notIntegrity ⟨rest, (stripPrefix_eq_some.mp isRest).symm⟩).elim
  rw [saying, stripped]
  exact if_neg fun both => notResolution (List.isPrefixOf_iff_prefix.mp both.2)

/-- A field is read by the word before its first colon. -/
theorem key_of_starts {key word rest : List Char} (free : ':' ∉ key) (wordFree : ':' ∉ word)
    (starts : word ++ [':'] <+: key ++ ':' :: rest) : key = word := by
  obtain ⟨tail, same⟩ := starts
  rw [List.append_assoc] at same
  exact (Framing.split_at_first wordFree free same).1.symm

theorem saying_pair {field : List Char × List Char} (free : ':' ∉ field.1)
    (notIntegrity : field.1 ≠ "integrity".toList) (notResolution : field.1 ≠ "resolution".toList) :
    saying (Entry.pair field) = none := by
  have isIntegrity : "integrity:".toList = "integrity".toList ++ [':'] := rfl
  have isResolution : "resolution:".toList = "resolution".toList ++ [':'] := rfl
  refine saying_eq_none (fun starts => ?_) fun starts => ?_
  · rw [isIntegrity] at starts
    exact notIntegrity (key_of_starts free (by decide) starts)
  · rw [isResolution] at starts
    exact notResolution (key_of_starts free (by decide) starts)

/-! What the lines of an entry say. -/

namespace Entry

variable {format : Format} {entry : Entry}

def lineSays (line : Nat × List Char) : Option (List Char) := saying line.2

/-- What the last of the other lines that are written like an integrity says. -/
def misread (entry : Entry) : Option (List Char) :=
  (entry.rest.filterMap lineSays).getLast?

def said (entry : Entry) : Option (List Char) := entry.misread.or entry.integrity

theorem saying_inline (valid : entry.Valid format) :
    saying ("resolution: ".toList ++ entry.inline) = entry.integrity := by
  have stripped : stripPrefix "integrity:" ("resolution: ".toList ++ entry.inline) = none := rfl
  have isResolution : "resolution:".toList.isPrefixOf ("resolution: ".toList ++ entry.inline) =
      true := rfl
  cases isIntegrity : entry.integrity with
  | none =>
      have isInline : entry.inline =
          '{' :: (List.intercalate ", ".toList (entry.fields.map pair) ++ ['}']) := by
        rw [inline, resolution, isIntegrity]
        rfl
      have absent : find "integrity:".toList ("resolution: ".toList ++ entry.inline) = none := by
        have behind : find "integrity:".toList ("resolution: ".toList ++ entry.inline) =
            find "integrity:".toList
              (List.intercalate ", ".toList (entry.fields.map pair) ++ ['}']) := by
          rw [isInline]
          rfl
        have filled : "integrity:".toList ≠ [] := by decide
        rw [behind, find_eq_none_iff filled, ← beforeLastPart_eq_none_iff filled,
          beforeLastPart_append_free rfl (by decide), beforeLastPart_eq_none_iff filled]
        exact valid.inline
      rw [saying, stripped, absent]
      rfl
  | some integrity =>
      obtain ⟨isText, plain⟩ := valid.integrity integrity isIntegrity
      obtain ⟨first, last, isFirst, isLast, firstStays, lastStays⟩ := isText.ends
      have isInline : ∃ stop rest, entry.inline =
          '{' :: ("integrity: ".toList ++ (integrity ++ stop :: rest)) ∧ (stop = ',' ∨ stop = '}') := by
        rw [inline, resolution, isIntegrity]
        cases entry.fields with
        | nil => exact ⟨'}', [], by simp [pair], Or.inr rfl⟩
        | cons field fields =>
            exact ⟨',', _, by simp [pair, List.intercalate]; rfl, Or.inl rfl⟩
      obtain ⟨stop, rest, isInline, stops⟩ := isInline
      have found : find "integrity: ".toList ("resolution: ".toList ++ entry.inline) =
          some ("integrity: ".toList ++ (integrity ++ stop :: rest)) := by
        rw [isInline]
        rfl
      have contains : (find "integrity:".toList
          ("resolution: ".toList ++ entry.inline)).isSome = true := by
        rw [isInline]
        rfl
      have cut : (integrity ++ stop :: rest).takeWhile (fun char => char ≠ ',' ∧ char ≠ '}') =
          integrity := by
        rw [List.takeWhile_append_of_pos fun char member => decide_eq_true (plain char member),
          List.takeWhile_cons_of_neg (by rcases stops with rfl | rfl <;> simp), List.append_nil]
      rw [saying, stripped]
      simp only [contains, isResolution, and_self, if_true, found, Option.map_some]
      have dropped : ("integrity: ".toList ++ (integrity ++ stop :: rest)).drop
          "integrity: ".length = integrity ++ stop :: rest := List.drop_left' (by decide)
      rw [dropped, cut, trim_whole isFirst isLast firstStays lastStays]

theorem resolution_says (valid : entry.Valid format) :
    entry.resolutionLines.filterMap lineSays = entry.integrity.toList := by
  rw [resolutionLines]
  split
  · have untitled (ls : List (Nat × List Char)) : ((4, "resolution:".toList) :: ls).filterMap
        lineSays = ls.filterMap lineSays := rfl
    have others : (entry.fields.map fun field => (6, pair field)).filterMap lineSays = [] := by
      rw [List.filterMap_map, List.filterMap_eq_nil_iff]
      intro field member
      obtain ⟨plain, _, notIntegrity, notResolution⟩ := valid.fields field member
      exact saying_pair (fun colon => (plain.2 _ colon).2 rfl) notIntegrity notResolution
    rw [untitled, resolution, List.map_append, List.filterMap_append, others, List.append_nil]
    cases isIntegrity : entry.integrity with
    | none => rfl
    | some integrity =>
        obtain ⟨first, last, isFirst, isLast, firstStays, lastStays⟩ :=
          (valid.integrity integrity isIntegrity).1.ends
        have isPair : saying (pair ("integrity".toList, integrity)) = some integrity := by
          have stripped : stripPrefix "integrity:" (pair ("integrity".toList, integrity)) =
              some (' ' :: integrity) := stripPrefix_eq_some.mpr rfl
          have trimmed : trim ([' '] ++ (integrity ++ [])) = integrity :=
            trim_core (List.all_eq_true.mp (by decide)) (List.forall_mem_nil _) isFirst isLast firstStays
              lastStays
          rw [List.append_nil] at trimmed
          rw [saying, stripped]
          exact congrArg some trimmed
        exact List.filterMap_cons_some isPair
  · have isInline := saying_inline valid
    cases isIntegrity : entry.integrity with
    | none =>
        rw [isIntegrity] at isInline
        exact List.filterMap_cons_none isInline
    | some integrity =>
        rw [isIntegrity] at isInline
        exact List.filterMap_cons_some isInline

/-- Of the lines that are written like an integrity the last one counts. -/
theorem body_says (valid : entry.Valid format) :
    (entry.body.filterMap lineSays).getLast? = entry.said := by
  rw [body, List.filterMap_append, resolution_says valid, List.getLast?_append, said, misread]
  cases entry.integrity with
  | none => rfl
  | some integrity => rfl

/-- The parser takes the key for a key. -/
def slash (format : Format) (entry : Entry) : Bool :=
  match format, entry.key with
  | .v9, _ => false
  | _, .registry _ _ _ => true
  | _, .other _ => false

/-- What the parser takes for the name and the version. -/
def cut (format : Format) (entry : Entry) : Option (List Char × List Char) :=
  let spec := (entry.key.text format).dropWhile (· = '/')
  (beforeLast '@' spec).map fun name => (name, spec.drop (name.length + 1))

def apply (format : Format) (state : State) (entry : Entry) : State :=
  if entry.slash format then
    { push state with
      current := entry.cut format
      integrity := entry.said.or (push state).integrity }
  else { state with integrity := entry.said.or state.integrity }

theorem pair_isText {field : List Char × List Char} (plain : IsPlain field.1)
    (value : IsText field.2) : IsText (pair field) where
  free := by simp [pair, plain.isText.free, value.free]
  ends := by
    obtain ⟨first, _, isFirst, _, firstStays, _⟩ := plain.isText.ends
    obtain ⟨_, last, _, isLast, _, lastStays⟩ := value.ends
    refine ⟨first, last, ?_, ?_, firstStays, lastStays⟩
    · rw [pair, List.head?_append, isFirst]
      rfl
    · rw [pair, List.getLast?_append, List.getLast?_append, isLast]
      rfl

theorem resolution_isText (valid : entry.Valid format) :
    ∀ field ∈ entry.resolution, IsText (pair field) := by
  intro field member
  rcases List.mem_append.mp member with own | other
  · obtain ⟨integrity, isIntegrity, rfl⟩ := List.mem_map.mp own
    have plain : IsPlain "integrity".toList := by
      have each : ∀ char ∈ "integrity".toList, decide (isWhitespace char = false ∧ char ≠ ':') = true :=
        List.all_eq_true.mp (by decide)
      exact ⟨by decide, fun char inside => of_decide_eq_true (each char inside)⟩
    exact pair_isText plain (valid.integrity integrity (by simpa using isIntegrity)).1
  · exact pair_isText (valid.fields field other).1 (valid.fields field other).2.1

theorem intercalate_free {separator : List Char} (separatorFree : '\n' ∉ separator)
    {parts : List (List Char)} (free : ∀ part ∈ parts, '\n' ∉ part) :
    '\n' ∉ List.intercalate separator parts := by
  induction parts with
  | nil => simp
  | cons part parts ih =>
      have rest := ih fun other member => free other (List.mem_cons_of_mem _ member)
      cases parts with
      | nil => simpa using free part (by simp)
      | cons next parts => simp [free part (by simp), separatorFree, rest]

theorem inline_isText (valid : entry.Valid format) :
    IsText ("resolution: ".toList ++ entry.inline) where
  free := by
    have inner : '\n' ∉ List.intercalate ", ".toList (entry.resolution.map pair) := by
      refine intercalate_free (by decide) fun part member => ?_
      obtain ⟨field, listed, rfl⟩ := List.mem_map.mp member
      exact (resolution_isText valid field listed).free
    intro member
    rcases List.mem_append.mp member with inTitle | member
    · revert inTitle
      decide
    · rcases List.mem_cons.mp member with isBrace | member
      · revert isBrace
        decide
      · rcases List.mem_append.mp member with inFields | inBrace
        · exact inner inFields
        · revert inBrace
          decide
  ends := by
    refine ⟨'r', '}', rfl, ?_, by decide, by decide⟩
    rw [inline, ← List.cons_append, ← List.append_assoc, List.getLast?_concat]

theorem body_valid (valid : entry.Valid format) :
    ∀ line ∈ entry.body, 4 ≤ line.1 ∧ IsText line.2 := by
  have title : IsText "resolution:".toList := ⟨by decide, 'r', ':', by decide⟩
  intro line member
  rcases List.mem_append.mp member with inResolution | inRest
  · rw [resolutionLines] at inResolution
    split at inResolution
    · rcases List.mem_cons.mp inResolution with rfl | inFields
      · exact ⟨Nat.le_refl 4, title⟩
      · obtain ⟨field, listed, rfl⟩ := List.mem_map.mp inFields
        have deep : 4 ≤ 6 := by decide
        exact ⟨deep, resolution_isText valid field listed⟩
    · rw [List.mem_singleton.mp inResolution]
      exact ⟨Nat.le_refl 4, inline_isText valid⟩
  · exact valid.rest line inRest

theorem foldl_body {body : List (Nat × List Char)}
    (bodyValid : ∀ line ∈ body, 4 ≤ line.1 ∧ IsText line.2) {state : State}
    (inside : state.inPackages = true) :
    (body.map indented).foldl readLine state = { state with
      integrity := (body.filterMap lineSays).getLast?.or state.integrity } := by
  induction body generalizing state with
  | nil => rfl
  | cons line body ih =>
      obtain ⟨deep, isText⟩ := bodyValid line (by simp)
      have rest := fun other member => bodyValid other (List.mem_cons_of_mem _ member)
      have here := readLine_indented inside (Nat.le_of_lt (Nat.lt_of_succ_lt deep)) isText
        fun shallow => by omega
      have stillInside : ({ state with
          integrity := (lineSays line).or state.integrity } : State).inPackages = true := inside
      rw [List.map_cons, List.foldl_cons, here, ← lineSays, ih rest stillInside]
      congr 1
      cases isSaying : lineSays line with
      | none => rw [List.filterMap_cons_none isSaying, Option.none_or]
      | some integrity =>
          rw [List.filterMap_cons_some isSaying, List.getLast?_cons, Option.some_or]
          cases (body.filterMap lineSays).getLast? with
          | none => rfl
          | some later => rfl

/-! Keys. -/

theorem plain_last {text : List Char} (plain : IsPlain text) : ∃ last, text.getLast? = some last ∧
    isWhitespace last = false ∧ last ≠ ':' :=
  ⟨_, List.getLast?_eq_some_getLast plain.1, plain.2 _ (List.getLast_mem plain.1)⟩

/-- Behind the slash comes the name, and at the end neither a colon nor a blank. -/
theorem keyText_slash (valid : entry.Valid format) (isSlash : entry.slash format = true) :
    ∃ spec last, entry.keyText format = '/' :: spec ∧ entry.key.text format = '/' :: spec ∧
      '\n' ∉ spec ∧ spec.getLast? = some last ∧ isWhitespace last = false ∧ last ≠ ':' := by
  cases isKey : entry.key with
  | other text =>
      have notSlash : entry.slash format = false := by
        cases format <;> simp [slash, isKey]
      rw [notSlash] at isSlash
      simp at isSlash
  | registry name version peers =>
      have keyValid := valid.key
      rw [isKey] at keyValid
      obtain ⟨⟨namePlain, _⟩, ⟨versionPlain, _⟩, peersValid⟩ := keyValid
      obtain ⟨versionLast, isLast, stays, notColon⟩ := plain_last versionPlain
      have notNine : format ≠ .v9 := by
        rintro rfl
        simp [slash] at isSlash
      have bare : entry.quoted = false := by
        by_contra isQuoted
        rcases valid.quoted (by simpa using isQuoted) with isNine | ⟨text, isOther⟩
        · exact notNine isNine
        · rw [isKey] at isOther
          simp at isOther
      have isText : entry.keyText format = entry.key.text format := by
        rw [keyText, bare, if_neg Bool.false_ne_true]
      rw [isText, isKey]
      have nameFree := namePlain.isText.free
      have versionFree := versionPlain.isText.free
      cases format with
      | v9 => exact (notNine rfl).elim
      | v5 =>
          refine ⟨name ++ '/' :: version, versionLast, rfl, rfl, by simp [nameFree, versionFree], ?_,
            stays, notColon⟩
          rw [List.getLast?_append, List.getLast?_cons, isLast]
          rfl
      | v6 =>
          rcases peersValid with rfl | ⟨peersText, peersColon⟩
          · refine ⟨name ++ '@' :: (version ++ []), versionLast, rfl, rfl,
              by simp [nameFree, versionFree], ?_, stays, notColon⟩
            rw [List.append_nil, List.getLast?_append, List.getLast?_cons, isLast]
            rfl
          · obtain ⟨_, last, _, peersLast, _, lastStays⟩ := peersText.ends
            refine ⟨name ++ '@' :: (version ++ peers), last, rfl, rfl,
              by simp [nameFree, versionFree, peersText.free], ?_, lastStays, ?_⟩
            · rw [List.getLast?_append, List.getLast?_cons, List.getLast?_append, peersLast]
              rfl
            · rintro rfl
              exact peersColon peersLast

theorem readLine_key (valid : entry.Valid format) {state : State} (inside : state.inPackages = true)
    (isSlash : entry.slash format = true) :
    readLine state (entry.keyLine format) = { push state with current := entry.cut format } := by
  obtain ⟨spec, last, isText, isKey, free, isLast, stays, notColon⟩ := keyText_slash valid isSlash
  have isCore : IsText ('/' :: spec ++ [':']) :=
    ⟨by simp [free], '/', ':', rfl, List.getLast?_concat, by decide, by decide⟩
  have isLine : entry.keyLine format = ' ' :: ' ' :: ('/' :: spec ++ [':']) := by
    rw [keyLine, isText]
    rfl
  have trimmed : trim (entry.keyLine format) = '/' :: spec ++ [':'] := by
    rw [keyLine, isText]
    exact trim_indented isCore
  have noColons : trimEndMatches (· = ':') ('/' :: spec ++ [':']) = '/' :: spec := by
    obtain ⟨front, rfl⟩ := List.getLast?_eq_some_iff.mp isLast
    have kept : trimEndMatches (· = ':') (('/' :: front) ++ last :: [':']) =
        ('/' :: front) ++ last :: trimEndMatches (· = ':') [':'] :=
      trimEndMatches_keep (by simpa using notColon) _ _
    have nothing : trimEndMatches (· = ':') [':'] = [] := rfl
    rw [nothing] at kept
    simpa using kept
  have isEnd : ('/' :: spec ++ [':']).getLast? = some ':' := List.getLast?_concat
  have notPackages : "packages:".toList.isPrefixOf (entry.keyLine format) = false := by
    rw [isLine]
    rfl
  have notResolution : ¬ "resolution:".toList.isPrefixOf ('/' :: spec ++ [':']) = true :=
    Bool.false_ne_true
  have isSlashLine : "  /".toList.isPrefixOf (entry.keyLine format) = true := by
    rw [isLine]
    rfl
  have indented_ : (entry.keyLine format).head? = some ' ' := by
    rw [isLine]
    rfl
  rw [readLine, notPackages, if_neg Bool.false_ne_true, inside, trimmed]
  simp only [indented_, Bool.not_true, Bool.false_eq_true, if_false, ne_eq, not_true, false_and,
    isEnd, notResolution, not_false_eq_true, isSlashLine, and_self, if_true]
  rw [readKey, noColons, cut, isKey]

theorem bare_isText {text : List Char} (free : '\n' ∉ text) {first : Char}
    (isFirst : text.head? = some first) (stays : isWhitespace first = false) :
    IsText (text ++ [':']) where
  free := by simp [free]
  ends := ⟨first, ':', by rw [List.head?_append, isFirst]; rfl, List.getLast?_concat, stays,
    by decide⟩

/-- A key of another kind is a line that does not say anything. -/
theorem keyText_plain (valid : entry.Valid format) (notSlash : entry.slash format = false) :
    IsText (entry.keyText format ++ [':']) ∧
      (entry.keyText format ++ [':']).head? ≠ some '/' ∧
        saying (entry.keyText format ++ [':']) = none := by
  have around {text : List Char} (isKey : entry.key.text format = text) (free : '\n' ∉ text)
      {first : Char} (isFirst : text.head? = some first) (stays : isWhitespace first = false)
      (notSlash : first ≠ '/') : IsText (entry.keyText format ++ [':']) ∧
        (entry.keyText format ++ [':']).head? ≠ some '/' := by
    rw [keyText, isKey]
    split
    · exact ⟨bare_isText (by simp [free]) rfl (by decide), by simp⟩
    · refine ⟨bare_isText free isFirst stays, ?_⟩
      rw [List.head?_append, isFirst]
      simpa using notSlash
  have keyValid := valid.key
  cases isKey : entry.key with
  | other text =>
      rw [isKey] at keyValid
      obtain ⟨isText, notHead⟩ := keyValid
      obtain ⟨first, _, isFirst, _, stays, _⟩ := isText.ends
      have isOther : entry.key.text format = text := by
        rw [isKey]
        cases format <;> rfl
      have plain := around isOther isText.free isFirst stays fun same => notHead (same ▸ isFirst)
      exact ⟨plain.1, plain.2, valid.apart text isKey⟩
  | registry name version peers =>
      rw [isKey] at keyValid
      obtain ⟨⟨namePlain, notHead⟩, ⟨versionPlain, _⟩, _⟩ := keyValid
      have isNine : format = .v9 := by
        cases format with
        | v5 => simp [slash, isKey] at notSlash
        | v6 => simp [slash, isKey] at notSlash
        | v9 => rfl
      have isNamed : entry.key.text format = name ++ '@' :: version := by
        rw [isKey, isNine]
        rfl
      obtain ⟨first, _, isFirst, _, stays, _⟩ := namePlain.isText.ends
      have starts : (name ++ '@' :: version).head? = some first := by
        rw [List.head?_append, isFirst]
        rfl
      have plain := around isNamed (by simp [namePlain.isText.free, versionPlain.isText.free]) starts
        stays fun same => notHead (same ▸ isFirst)
      have noColon : ':' ∉ entry.keyText format := by
        have nameFree : ':' ∉ name := fun member => (namePlain.2 _ member).2 rfl
        have versionFree : ':' ∉ version := fun member => (versionPlain.2 _ member).2 rfl
        rw [keyText, isNamed]
        split
        · simp [nameFree, versionFree]
        · simp [nameFree, versionFree]
      have atSign : '@' ∈ entry.keyText format := by
        rw [keyText, isNamed]
        split
        · simp
        · simp
      have different {word : List Char} (wordFree : ':' ∉ word) (noAt : '@' ∉ word) :
          ¬ word ++ [':'] <+: entry.keyText format ++ [':'] := by
        intro starts
        rw [key_of_starts noColon wordFree starts] at atSign
        exact noAt atSign
      refine ⟨plain.1, plain.2, saying_eq_none ?_ ?_⟩
      · have absent : ¬ "integrity".toList ++ [':'] <+: entry.keyText format ++ [':'] :=
          different (by decide) (by decide)
        exact absent
      · have absent : ¬ "resolution".toList ++ [':'] <+: entry.keyText format ++ [':'] :=
          different (by decide) (by decide)
        exact absent

theorem Valid.foldl_lines (valid : entry.Valid format) {state : State}
    (inside : state.inPackages = true) :
    (entry.lines format).foldl readLine state = entry.apply format state := by
  have blank : readLine state [] = state := by
    obtain ⟨packages, inPackages, current, integrity⟩ := state
    obtain rfl : inPackages = true := inside
    rfl
  rw [lines, List.foldl_cons, blank, List.foldl_cons, apply]
  cases isSlash : entry.slash format with
  | true =>
      have stillInside : ({ push state with current := entry.cut format } : State).inPackages =
          true := by
        rw [push]
        split
        · exact inside
        · exact inside
      rw [readLine_key valid inside isSlash, foldl_body (body_valid valid) stillInside,
        body_says valid]
      rfl
  | false =>
      obtain ⟨isText, notKey, plain⟩ := keyText_plain valid isSlash
      have here : readLine state (entry.keyLine format) = state := by
        rw [keyLine, readLine_indented inside (Nat.le_refl 2) isText fun _ => notKey, plain]
        rfl
      rw [here, foldl_body (body_valid valid) inside, body_says valid]
      rfl

/-! What is carried from entry to entry. -/

end Entry

/-- Whether a package is still to be pushed, and what has been read of its integrity. -/
structure Carried where
  pending : Bool
  integrity : Option (List Char)

def filled (integrity : Option (List Char)) : Option (List Char) := integrity.filter (· ≠ [])

def State.carried (state : State) : Carried := ⟨state.current.isSome, state.integrity⟩

/-- The package that is still to be pushed. -/
def State.last (state : State) : Option UrlPackage :=
  state.current.bind fun current => (filled state.integrity).map (package current.1 current.2)

theorem finish_eq (state : State) : finish state = state.packages ++ state.last.toList := by
  rw [finish, push, State.last]
  cases state.current with
  | none => simp
  | some current =>
      obtain ⟨name, version⟩ := current
      cases state.integrity with
      | none => simp [filled]
      | some integrity =>
          by_cases isNil : integrity = []
          · simp [filled, isNil]
          · simp [filled, isNil, Option.filter]

namespace Entry

variable (format : Format)

def named (entry : Entry) : Bool := '@' ∈ entry.key.text format

/-- An entry with a slash begins a new package, and the last one is pushed if it has a name. -/
def note (carried : Carried) (entry : Entry) : Carried :=
  if entry.slash format then
    { pending := entry.named format
      integrity := entry.said.or (if carried.pending then none else carried.integrity) }
  else { carried with integrity := entry.said.or carried.integrity }

/-- When the parser reads the entry as it was written, after what has been carried to it. -/
def Faithful (carried : Carried) (entry : Entry) : Prop :=
  match entry.key, entry.integrity with
  | .registry _ _ peers, some integrity =>
      format = .v6 ∧ peers = [] ∧ ∀ other, entry.misread = some other → other = integrity
  | .registry _ _ _, none =>
      entry.slash format = true → entry.named format = true →
        filled (entry.note format carried).integrity = none
  | .other _, _ => carried.pending = true →
      filled (entry.note format carried).integrity = filled carried.integrity

variable {format} {entry : Entry}

theorem push_carried (state : State) : (push state).carried =
    ⟨false, if state.carried.pending then none else state.integrity⟩ := by
  obtain ⟨packages, inPackages, current, integrity⟩ := state
  cases current with
  | none => rfl
  | some current => rfl

/-- Without its slash the key of a slash entry is cut. -/
theorem cut_eq (isSlash : entry.slash format = true) (valid : entry.Valid format) :
    ∃ name version peers, entry.key = .registry name version peers ∧
      ((format = .v5 ∧ entry.cut format = (beforeLast '@' (name ++ '/' :: version)).map fun front =>
          (front, (name ++ '/' :: version).drop (front.length + 1))) ∨
        format = .v6 ∧ entry.cut format =
          (beforeLast '@' (name ++ '@' :: (version ++ peers))).map fun front =>
            (front, (name ++ '@' :: (version ++ peers)).drop (front.length + 1))) := by
  have keyValid := valid.key
  cases isKey : entry.key with
  | other text =>
      have notSlash : entry.slash format = false := by
        cases format <;> simp [slash, isKey]
      rw [notSlash] at isSlash
      simp at isSlash
  | registry name version peers =>
      rw [isKey] at keyValid
      obtain ⟨⟨namePlain, notHead⟩, _⟩ := keyValid
      obtain ⟨first, tail, rfl⟩ := List.exists_cons_of_ne_nil namePlain.1
      have stays : first ≠ '/' := fun same => notHead (by rw [same]; rfl)
      have dropped (rest : List Char) : ('/' :: (first :: tail ++ rest)).dropWhile (· = '/') =
          first :: tail ++ rest := by
        rw [List.dropWhile_cons_of_pos (by decide), List.cons_append,
          List.dropWhile_cons_of_neg (by simpa using stays)]
      refine ⟨first :: tail, version, peers, rfl, ?_⟩
      rw [cut, isKey]
      cases format with
      | v5 =>
          refine Or.inl ⟨rfl, ?_⟩
          simp only [Key.text, dropped]
      | v6 =>
          refine Or.inr ⟨rfl, ?_⟩
          simp only [Key.text, dropped]
      | v9 => simp [slash] at isSlash

theorem cut_isSome (valid : entry.Valid format) (isSlash : entry.slash format = true) :
    (entry.cut format).isSome = entry.named format := by
  obtain ⟨name, version, peers, isKey, ⟨rfl, isCut⟩ | ⟨rfl, isCut⟩⟩ := cut_eq isSlash valid
  · rw [isCut, Option.isSome_map, Bool.eq_iff_iff, beforeLast_isSome_iff, named, isKey]
    simp [Key.text]
  · rw [isCut, Option.isSome_map, Bool.eq_iff_iff, beforeLast_isSome_iff, named, isKey]
    simp [Key.text]

/-- The key is cut between the name and the version in version 6, where no peers follow. -/
theorem cut_eq_iff (valid : entry.Valid format) (isSlash : entry.slash format = true)
    {name version peers : List Char} (isKey : entry.key = .registry name version peers) :
    entry.cut format = some (name, version) ↔ format = .v6 ∧ peers = [] := by
  have keyValid := valid.key
  rw [isKey] at keyValid
  obtain ⟨_, ⟨_, noAt⟩, _⟩ := keyValid
  obtain ⟨_, _, _, isCutKey, ⟨rfl, isCut⟩ | ⟨rfl, isCut⟩⟩ := cut_eq isSlash valid
  · obtain ⟨rfl, rfl, rfl⟩ := Key.registry.inj (isKey.symm.trans isCutKey)
    refine iff_of_false (fun same => ?_) (by simp)
    rw [isCut] at same
    obtain ⟨front, isFront, isPair⟩ := Option.map_eq_some_iff.mp same
    obtain ⟨rest, isText, _⟩ := beforeLast_eq_some_iff.mp isFront
    rw [← (Prod.mk.inj isPair).1] at isText
    have tails := List.append_cancel_left (isText.symm.trans (by rw [(Prod.mk.inj isPair).1]))
    simp at tails
  · obtain ⟨rfl, rfl, rfl⟩ := Key.registry.inj (isKey.symm.trans isCutKey)
    have dropped : (name ++ '@' :: (version ++ peers)).drop (name.length + 1) = version ++ peers := by
      simp
    rw [isCut]
    constructor
    · intro same
      obtain ⟨front, isFront, isPair⟩ := Option.map_eq_some_iff.mp same
      obtain ⟨rfl, isVersion⟩ := Prod.mk.inj isPair
      rw [dropped] at isVersion
      exact ⟨rfl, by simpa using isVersion⟩
    · rintro ⟨-, rfl⟩
      rw [beforeLast_append (by simpa using noAt), Option.map_some, dropped, List.append_nil]

theorem apply_carried (valid : entry.Valid format) (state : State) :
    (entry.apply format state).carried = entry.note format state.carried := by
  rw [apply, note]
  cases isSlash : entry.slash format with
  | true =>
      have pushed := congrArg Carried.integrity (push_carried state)
      rw [if_pos rfl, if_pos rfl, State.carried, ← cut_isSome valid isSlash]
      exact congrArg (Carried.mk _) (congrArg (Option.or entry.said) pushed)
  | false => rfl

theorem package_eq_iff {name version integrity name' version' integrity' : List Char} :
    PnpmLockfile.package name version integrity = PnpmLockfile.package name' version' integrity' ↔
      (name = name' ∧ version = version') ∧ integrity = integrity' := by
  rw [PnpmLockfile.package, PnpmLockfile.package, UrlPackage.mk.injEq, LockfilePackage.mk.injEq,
    toBytes_inj, toBytes_inj, toBytes_inj]
  simp [and_assoc]

theorem filled_eq_some_iff {said : Option (List Char)} {integrity : List Char} (some_ : integrity ≠ []) :
    filled said = some integrity ↔ said = some integrity := by
  cases said with
  | none => simp [filled]
  | some other =>
      rw [filled, Option.filter_eq_some_iff, Option.some.injEq]
      exact and_iff_left_of_imp fun same => by simpa [same] using some_

/-- Of an integrity that the entry has only another line of it can say something else. -/
theorem said_eq_some_iff {integrity : List Char} (isIntegrity : entry.integrity = some integrity)
    (carried : Option (List Char)) :
    entry.said.or carried = some integrity ↔
      ∀ other, entry.misread = some other → other = integrity := by
  rw [said, isIntegrity]
  cases entry.misread with
  | none => simp
  | some other => simp

theorem note_integrity (isSlash : entry.slash format = true) (state : State) :
    (entry.note format state.carried).integrity = entry.said.or (push state).integrity := by
  rw [note, if_pos isSlash]
  exact congrArg (Option.or entry.said) (congrArg Carried.integrity (push_carried state)).symm

theorem last_slash (isSlash : entry.slash format = true) (state : State) :
    (entry.apply format state).last = (entry.cut format).bind fun current =>
      (filled (entry.note format state.carried).integrity).map
        (PnpmLockfile.package current.1 current.2) := by
  rw [apply, if_pos isSlash, note_integrity isSlash]
  rfl

theorem faithful_slash (valid : entry.Valid format) (isSlash : entry.slash format = true)
    (state : State) :
    (entry.apply format state).last = entry.package ↔ entry.Faithful format state.carried := by
  obtain ⟨name, version, peers, isKey, _⟩ := cut_eq isSlash valid
  rw [last_slash isSlash, package, Faithful, isKey]
  cases isIntegrity : entry.integrity with
  | none =>
      rw [← cut_isSome valid isSlash]
      cases entry.cut format with
      | none => simp
      | some current => simp [isSlash]
  | some integrity =>
      have some_ : integrity ≠ [] := by
        obtain ⟨first, _, isFirst, _⟩ := (valid.integrity integrity isIntegrity).1.ends
        rintro rfl
        simp at isFirst
      change _ = some (PnpmLockfile.package name version integrity) ↔
        format = .v6 ∧ peers = [] ∧ ∀ other, entry.misread = some other → other = integrity
      rw [← said_eq_some_iff isIntegrity (push state).integrity, ← note_integrity isSlash,
        ← filled_eq_some_iff some_, ← and_assoc, ← cut_eq_iff valid isSlash isKey]
      cases entry.cut format with
      | none => simp
      | some current =>
          cases filled (entry.note format state.carried).integrity with
          | none => simp
          | some other => simp [package_eq_iff, Prod.ext_iff]

theorem faithful_plain (notSlash : entry.slash format = false) {state : State}
    (outside : format = .v9 → state.current = none) :
    state.packages ++ (entry.apply format state).last.toList =
        finish state ++ entry.package.toList ↔ entry.Faithful format state.carried := by
  have isApplied : entry.apply format state =
      { state with integrity := entry.said.or state.integrity } := by
    rw [apply, notSlash, if_neg Bool.false_ne_true]
  have isNoted : (entry.note format state.carried).integrity = entry.said.or state.integrity := by
    rw [note, notSlash, if_neg Bool.false_ne_true]
    rfl
  rw [finish_eq, isApplied, package, Faithful, State.last, State.last]
  cases isKey : entry.key with
  | other text =>
      rw [isNoted, Option.toList_none, List.append_nil, List.append_cancel_left_eq, State.carried]
      cases state.current with
      | none => simp
      | some current =>
          cases filled (entry.said.or state.integrity) with
          | none =>
              cases filled state.integrity with
              | none => simp
              | some before => simp
          | some after =>
              cases filled state.integrity with
              | none => simp
              | some before => simp [package_eq_iff]
  | registry name version peers =>
      have isNine : format = .v9 := by
        cases format with
        | v5 => simp [slash, isKey] at notSlash
        | v6 => simp [slash, isKey] at notSlash
        | v9 => rfl
      cases entry.integrity with
      | none => simp [outside isNine, notSlash]
      | some integrity => simp [outside isNine, isNine]

theorem faithful_iff (valid : entry.Valid format) {state : State}
    (outside : format = .v9 → state.current = none) :
    finish (entry.apply format state) = finish state ++ entry.package.toList ↔
      entry.Faithful format state.carried := by
  cases isSlash : entry.slash format with
  | true =>
      have isPushed : (entry.apply format state).packages = finish state := by
        rw [apply, if_pos isSlash]
        rfl
      rw [finish_eq, isPushed, List.append_cancel_left_eq, ← faithful_slash valid isSlash]
      cases (entry.apply format state).last with
      | none => cases entry.package <;> simp
      | some last => cases entry.package <;> simp
  | false =>
      have isKept : (entry.apply format state).packages = state.packages := by
        rw [apply, isSlash, if_neg Bool.false_ne_true]
      rw [finish_eq, isKept]
      exact faithful_plain isSlash outside

end Entry

namespace LockFile

variable {file : LockFile}

def Faithful (file : LockFile) : Prop :=
  ∀ before entry after, file.entries = before ++ entry :: after →
    entry.Faithful file.format (before.foldl (Entry.note file.format) ⟨false, none⟩)

theorem foldl_outside {ls : List (List Char)}
    (others : ∀ line ∈ ls, ¬ "packages:".toList.isPrefixOf line = true) {state : State}
    (outside : state.inPackages = false) : ls.foldl readLine state = state := by
  induction ls with
  | nil => rfl
  | cons line ls ih =>
      have here : readLine state line = state := by
        rw [readLine, if_neg (others line (by simp)), outside]
        rfl
      rw [List.foldl_cons, here]
      exact ih fun other member => others other (List.mem_cons_of_mem _ member)

theorem apply_inPackages (format : Format) (entry : Entry) (state : State) :
    (entry.apply format state).inPackages = state.inPackages := by
  rw [Entry.apply]
  split
  · rw [push]
    split
    · rfl
    · rfl
  · rfl

theorem foldl_entries {format : Format} {entries : List Entry}
    (valid : ∀ entry ∈ entries, entry.Valid format) {state : State}
    (inside : state.inPackages = true) :
    (entries.flatMap fun entry => entry.lines format).foldl readLine state =
      entries.foldl (fun state entry => entry.apply format state) state := by
  induction entries generalizing state with
  | nil => rfl
  | cons entry entries ih =>
      rw [List.flatMap_cons, List.foldl_append, (valid entry (by simp)).foldl_lines inside,
        List.foldl_cons]
      exact ih (fun other member => valid other (List.mem_cons_of_mem _ member))
        ((apply_inPackages format entry state).trans inside)

def inside : State := { start with inPackages := true }

theorem Valid.foldl_upTo (valid : file.Valid) (count : Nat) :
    (file.upTo count).foldl readLine start =
      (file.entries.take count).foldl (fun state entry => entry.apply file.format state) inside := by
  have header := foldl_outside (fun line member => (valid.header line member).2)
    (rfl : start.inPackages = false)
  rw [upTo, List.foldl_append, header, List.foldl_cons]
  exact foldl_entries (fun entry member => valid.entries entry (List.mem_of_mem_take member)) rfl

theorem foldl_carried {format : Format} {entries : List Entry}
    (valid : ∀ entry ∈ entries, entry.Valid format) (state : State) :
    (entries.foldl (fun state entry => entry.apply format state) state).carried =
      entries.foldl (Entry.note format) state.carried := by
  induction entries generalizing state with
  | nil => rfl
  | cons entry entries ih =>
      rw [List.foldl_cons, List.foldl_cons, ← Entry.apply_carried (valid entry (by simp))]
      exact ih (fun other member => valid other (List.mem_cons_of_mem _ member)) _

/-- In version 9 no key is taken for a key. -/
theorem foldl_current {entries : List Entry} {state : State} (nothing : state.current = none) :
    (entries.foldl (fun state entry => entry.apply .v9 state) state).current = none := by
  induction entries generalizing state with
  | nil => exact nothing
  | cons entry entries ih =>
      have notSlash : entry.slash .v9 = false := rfl
      have stays : (entry.apply .v9 state).current = none := by
        rw [Entry.apply, notSlash, if_neg Bool.false_ne_true]
        exact nothing
      exact ih stays

theorem read_iff (valid : file.Valid) :
    (∀ count, finish ((file.upTo count).foldl readLine start) =
      (file.entries.take count).filterMap Entry.package) ↔ file.Faithful := by
  have steps : (∀ count, finish ((file.entries.take count).foldl
      (fun state entry => entry.apply file.format state) inside) =
        finish inside ++ (file.entries.take count).filterMap Entry.package) ↔
      ∀ before entry after, file.entries = before ++ entry :: after →
        finish (entry.apply file.format
          (before.foldl (fun state entry => entry.apply file.format state) inside)) =
          finish (before.foldl (fun state entry => entry.apply file.format state) inside) ++
            entry.package.toList := outputs_iff
  have nothing : finish inside = [] := rfl
  simp only [nothing, List.nil_append] at steps
  simp only [valid.foldl_upTo]
  refine steps.trans (forall₄_congr fun before entry after split => ?_)
  have beforeValid : ∀ other ∈ before, other.Valid file.format :=
    fun other member => valid.entries other (by simp [split, member])
  have outside (isNine : file.format = .v9) :
      (before.foldl (fun state entry => entry.apply file.format state) inside).current = none := by
    rw [isNine]
    exact foldl_current rfl
  rw [Entry.faithful_iff (valid.entries entry (by simp [split])) outside,
    foldl_carried beforeValid]
  rfl

theorem Entry.lines_isLine {format : Format} {entry : Entry} (valid : entry.Valid format) :
    ∀ line ∈ entry.lines format, IsLine line := by
  have indented {depth : Nat} {core : List Char} (isText : IsText core) :
      IsLine (Entry.indented (depth, core)) := by
    refine ⟨indented_free isText, fun isReturn => ?_⟩
    obtain ⟨_, last, _, isLast, _, stays⟩ := isText.ends
    rw [Entry.indented, List.getLast?_append, isLast] at isReturn
    rw [Option.some.inj isReturn] at stays
    revert stays
    decide
  intro line member
  rcases List.mem_cons.mp member with rfl | member
  · decide
  · rcases List.mem_cons.mp member with rfl | inBody
    · cases isSlash : entry.slash format with
      | true =>
          obtain ⟨spec, _, isText, _, free, _⟩ := Entry.keyText_slash valid isSlash
          rw [Entry.keyLine, isText]
          exact indented ⟨by simp [free], '/', ':', rfl, List.getLast?_concat, by decide, by decide⟩
      | false => exact indented (Entry.keyText_plain valid isSlash).1
    · obtain ⟨bodyLine, listed, rfl⟩ := List.mem_map.mp inBody
      exact indented (Entry.body_valid valid bodyLine listed).2

/-- The sections behind the packages are not read. -/
theorem Valid.foldl_sections (valid : file.Valid) (state : State) :
    finish (file.sections.foldl readLine state) = finish state := by
  cases isSections : file.sections with
  | nil => rfl
  | cons title rest =>
      obtain ⟨notSpace, notTab, isTitle⟩ := valid.titled title (by rw [isSections]; rfl)
      have notPackages := (valid.sections title (by simp [isSections])).2
      have restFree : ∀ line ∈ rest, ¬ "packages:".toList.isPrefixOf line = true :=
        fun line member => (valid.sections line (by simp [isSections, member])).2
      have here : (readLine state title).inPackages = false ∧
          finish (readLine state title) = finish state := by
        rw [readLine, if_neg notPackages]
        cases isInside : state.inPackages with
        | false => exact ⟨isInside, rfl⟩
        | true =>
            have isEnd : title.head? ≠ some ' ' ∧ title.head? ≠ some '\t' ∧
                title.getLast? = some ':' := ⟨notSpace, notTab, isTitle⟩
            rw [if_neg (by decide), if_pos isEnd]
            exact ⟨rfl, by rw [finish_eq, finish_eq]; rfl⟩
      rw [List.foldl_cons, foldl_outside restFree here.1, here.2]

theorem pnpm_inverts_iff (file : LockFile) (valid : file.Valid) :
    file.Inverted ↔ file.Faithful := by
  have isLines : ∀ line ∈ file.upTo file.entries.length ++ file.sections, IsLine line := by
    intro line member
    rcases List.mem_append.mp member with inPackages | inSections
    · rcases List.mem_append.mp inPackages with inHeader | inEntries
      · exact (valid.header line inHeader).1
      · rcases List.mem_cons.mp inEntries with rfl | inEntries
        · decide
        · obtain ⟨entry, listed, within⟩ := List.mem_flatMap.mp inEntries
          exact Entry.lines_isLine (valid.entries entry (List.mem_of_mem_take listed)) line within
    · exact (valid.sections line inSections).1
  have parsed : parsePnpmLockfile file.content =
      sortPackages (finish ((file.upTo file.entries.length).foldl readLine start)) := by
    rw [parsePnpmLockfile, content, lines_written isLines, List.foldl_append,
      valid.foldl_sections]
  rw [Inverted, ← read_iff valid, parsed]
  refine and_iff_left_of_imp fun outputs => ?_
  rw [outputs, List.take_length]

end LockFile

/-! One file in two versions of the format. -/

def ms : Entry where
  key := .registry "ms".toList "2.1.3".toList []
  quoted := false
  block := false
  integrity := some "sha512-XXX".toList
  fields := []
  rest := [(4, "dev: false".toList)]

def fileOf (format : Format) : LockFile where
  ending := .lf
  format := format
  header := ["dependencies:".toList, []]
  entries := [ms]
  sections := []

instance (text : List Char) : Decidable (IsPlain text) :=
  decidable_of_iff (text ≠ [] ∧ text.all (fun char => isWhitespace char = false ∧ char ≠ ':') = true)
    (by simp [IsPlain])

theorem ms_valid (format : Format) : ms.Valid format where
  key := by
    have each : (IsPlain "ms".toList ∧ "ms".toList.head? ≠ some '/') ∧
        (IsPlain "2.1.3".toList ∧ '@' ∉ "2.1.3".toList) := by decide
    exact ⟨each.1, each.2, Or.inl rfl⟩
  quoted := by simp [ms]
  apart := by simp [ms]
  integrity := by
    intro integrity same
    rw [← Option.some.inj same]
    have plain : ∀ char ∈ "sha512-XXX".toList, decide (char ≠ ',' ∧ char ≠ '}') = true :=
      List.all_eq_true.mp (by decide)
    exact ⟨⟨by decide, 's', 'X', by decide⟩, fun char member => of_decide_eq_true (plain char member)⟩
  fields := List.forall_mem_nil _
  inline := by
    have absent : ¬ "integrity:".toList <:+: List.intercalate ", ".toList [] := by decide
    exact absent
  rest := by
    intro line member
    rw [List.mem_singleton.mp member]
    exact ⟨Nat.le_refl 4, by decide, 'd', 'e', by decide⟩

theorem fileOf_valid (format : Format) : (fileOf format).Valid where
  header := by
    have each : ∀ line ∈ ["dependencies:".toList, []],
        IsLine line ∧ ¬ "packages:".toList.isPrefixOf line = true := by decide
    exact each
  entries := by
    intro entry member
    rw [List.mem_singleton.mp member]
    exact ms_valid format
  sections := List.forall_mem_nil _
  titled := by simp [fileOf]

theorem pnpm_inverts_iff_ms : parsePnpmLockfile (fileOf .v6).content =
    [⟨⟨utf8 "ms", utf8 "2.1.3", utf8 "sha512-XXX"⟩, none⟩] := by
  have faithful : (fileOf .v6).Faithful := by
    intro before entry after split
    obtain ⟨rfl, rfl, rfl⟩ : before = [] ∧ entry = ms ∧ after = [] := by
      cases before with
      | nil =>
          obtain ⟨same, rest⟩ := List.cons.inj split
          exact ⟨rfl, same.symm, rest.symm⟩
      | cons first before =>
          have lengths := congrArg List.length split
          simp [fileOf] at lengths
    have nothing : ms.misread = none := by decide +kernel
    refine ⟨rfl, rfl, fun other isOther => ?_⟩
    rw [nothing] at isOther
    simp at isOther
  exact ((LockFile.pnpm_inverts_iff _ (fileOf_valid .v6)).mpr faithful).2.trans (by decide +kernel)

/-- A key of version 5, as `/ms/2.1.3:`, has no at-sign to be cut at. -/
theorem slash_key_dropped : (fileOf .v5).Valid ∧
    (fileOf .v5).entries.filterMap Entry.package =
      [⟨⟨utf8 "ms", utf8 "2.1.3", utf8 "sha512-XXX"⟩, none⟩] ∧
    parsePnpmLockfile (fileOf .v5).content = [] ∧ ¬ (fileOf .v5).Inverted := by
  have read : parsePnpmLockfile (fileOf .v5).content = [] := by decide +kernel
  have meant : (fileOf .v5).entries.filterMap Entry.package =
      [⟨⟨utf8 "ms", utf8 "2.1.3", utf8 "sha512-XXX"⟩, none⟩] := by decide +kernel
  refine ⟨fileOf_valid .v5, meant, read, fun inverted => ?_⟩
  have same := inverted.2
  rw [read, meant] at same
  revert same
  decide +kernel

end Rage.PnpmLockfile
