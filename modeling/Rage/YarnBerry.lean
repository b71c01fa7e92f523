import Rage.StrongSet
import Rage.YarnClassic

/-!
The lockfile of yarn berry as yarn writes it, and what its parser gets back from it.
-/

namespace Rage.YarnBerry

open Lockfile
open YarnClassic (Word IsIdentifier)

/-! `parse_yarn_berry_lockfile`. -/

structure Fields where
  name : Option (List Char)
  version : Option (List Char)
  checksum : Option (List Char)
  resolution : Option (List Char)
  isWorkspace : Bool
  deriving DecidableEq

/-- Of `"@scope/pkg@npm:version, other@npm:version":` the first specifier. -/
def firstSpecifier (line : List Char) : List Char :=
  let inner := trimEndMatches (· = ':') (line.dropWhile (· = '"'))
  trimMatches (· = '"') (trim ((inner.splitOn ',').headD []))

def npm : List Char := "@npm:".toList

def workspace : List Char := "@workspace:".toList

def readKey (fields : Fields) (line : List Char) : Fields :=
  match beforeLastPart npm (firstSpecifier line) with
  | some name => { fields with name := some name }
  | none =>
      if (beforeLastPart workspace (firstSpecifier line)).isSome then
        { fields with isWorkspace := true }
      else fields

def readLine (fields : Fields) (line : List Char) : Fields :=
  let line := trim line
  if line.head? = some '"' ∧ line.getLast? = some ':' ∧ fields.name = none then
    readKey fields line
  else
    match stripPrefix "version: " line with
    | some version => { fields with version := some (trim version) }
    | none =>
        match stripPrefix "checksum: " line with
        | some checksum => { fields with checksum := some (trim checksum) }
        | none =>
            match stripPrefix "resolution: " line with
            | some resolution =>
                { fields with resolution := some (trimMatches (· = '"') (trim resolution)) }
            | none =>
                if line = "languageName: unknown".toList ∨ line = "linkType: soft".toList then
                  { fields with isWorkspace := true }
                else fields

/-- The name of the resolution, where it has one, goes before the alias of the key. -/
def realName (keyName : List Char) (resolution : Option (List Char)) : List Char :=
  match resolution.bind (beforeLastPart npm) with
  | some name => if name ≠ keyName then name else keyName
  | none => keyName

def Fields.package (fields : Fields) : Option UrlPackage :=
  if fields.isWorkspace then none
  else
    match fields.name, fields.version, fields.checksum with
    | some keyName, some version, some checksum => some
        { name := toBytes (realName keyName fields.resolution)
          version := toBytes version
          integrity := toBytes checksum
          tarballUrl := none }
    | _, _, _ => none

def start : Fields := ⟨none, none, none, none, false⟩

def readBlock (block : List Char) : Option UrlPackage :=
  let block := trim block
  if block = [] ∨ "__metadata".toList.isPrefixOf block then none
  else ((lines block).foldl readLine start).package

def readPackages (content : List Char) : List UrlPackage := (splitBlocks content).filterMap readBlock

def parseYarnBerryLockfile (content : List Char) : List UrlPackage :=
  sortPackages (readPackages content)

/-! The lockfile that yarn writes. -/

/-- A name and, behind an at-sign, what stands for a version of it. -/
structure Locator where
  name : List Char
  reference : List Char
  deriving DecidableEq

def Locator.text (locator : Locator) : List Char := locator.name ++ '@' :: locator.reference

inductive LinkType
  | hard
  | soft
  deriving DecidableEq

def LinkType.text : LinkType → List Char
  | .hard => "hard".toList
  | .soft => "soft".toList

def utf16Size (char : Char) : Nat := if char.toNat ≤ 0xFFFF then 1 else 2

/-- A line of an entry is a key with its value, or the title of what is indented below it. -/
structure Line where
  indent : Nat
  key : Word
  value : Option Word
  deriving DecidableEq

namespace Line

variable (line : Line)

/-- What stands behind the indentation. -/
def core : List Char :=
  match line.value with
  | none => line.key.written ++ [':']
  | some value => (line.key.written ++ [':']) ++ ' ' :: value.written

def text : List Char := List.replicate line.indent ' ' ++ line.core

def pair : Option (List Char × Word) := line.value.map fun value => (line.key.written, value)

end Line

/-- A member of a section: a dependency with its range, or a dependency with flags. -/
inductive Item
  | ranged (name range : Word)
  | flagged (name : Word) (flags : List (Word × Word))
  deriving DecidableEq

def Item.lines : Item → List Line
  | .ranged name range => [⟨4, name, some range⟩]
  | .flagged name flags => ⟨4, name, none⟩ :: flags.map fun flag => ⟨6, flag.1, some flag.2⟩

def fieldLine (key : String) (value : Word) : Line := ⟨2, ⟨key.toList, false⟩, some value⟩

def sectionLines (section_ : List Char × List Item) : List Line :=
  ⟨2, ⟨section_.1, false⟩, none⟩ :: section_.2.flatMap Item.lines

structure Entry where
  descriptor : Locator
  others : List Locator
  version : List Char
  resolution : Locator
  sections : List (List Char × List Item)
  checksum : Option (List Char)
  conditions : Option Word
  languageName : List Char
  linkType : LinkType
  deriving DecidableEq

namespace Entry

variable (entry : Entry)

def key : List Char :=
  '"' :: (entry.descriptor.text ++
    (entry.others.flatMap fun other => ", ".toList ++ other.text) ++ ['"'])

/-- Yaml wants keys of more than 1024 characters to be marked. -/
def Long : Prop := 1024 < (entry.key.map utf16Size).sum

instance : Decidable entry.Long := by
  unfold Long
  infer_instance

def keyLines : List (List Char) :=
  if entry.Long then ["? ".toList ++ entry.key, [':']] else [entry.key ++ [':']]

def nestedLines : List Line := entry.sections.flatMap sectionLines

def ownLines : List Line :=
  (entry.checksum.toList.map fun checksum => fieldLine "checksum" ⟨checksum, false⟩) ++
    (entry.conditions.toList.map (fieldLine "conditions") ++
      [fieldLine "languageName" ⟨entry.languageName, false⟩,
        fieldLine "linkType" ⟨entry.linkType.text, false⟩])

def body : List Line :=
  fieldLine "version" ⟨entry.version, false⟩ ::
    fieldLine "resolution" ⟨entry.resolution.text, true⟩ :: (entry.nestedLines ++ entry.ownLines)

def lines : List (List Char) := entry.keyLines ++ entry.body.map Line.text

def Workspace : Prop := entry.linkType = .soft ∨ entry.languageName = "unknown".toList

instance : Decidable entry.Workspace := by
  unfold Workspace
  infer_instance

def package : Option UrlPackage :=
  if entry.Workspace then none
  else entry.checksum.map fun checksum =>
    { name := toBytes entry.resolution.name
      version := toBytes entry.version
      integrity := toBytes checksum
      tarballUrl := none }

end Entry

/-- What a line can hold behind its key.  A plain word has no colon in it. -/
structure IsValue (word : Word) : Prop where
  free : '\n' ∉ word.text
  unescaped : word.text.head? ≠ some '"'
  plain : word.quoted = false → ':' ∉ word.text ∧
    ∃ first last, word.text.head? = some first ∧ word.text.getLast? = some last ∧
      isWhitespace first = false ∧ isWhitespace last = false

def Item.Valid : Item → Prop
  | .ranged name range => IsIdentifier name.text ∧ IsValue range
  | .flagged name flags => IsIdentifier name.text ∧
      ∀ flag ∈ flags, IsIdentifier flag.1.text ∧ IsValue flag.2

structure Locator.Valid (locator : Locator) : Prop where
  name : IsIdentifier locator.name
  reference : '\n' ∉ locator.reference

structure Entry.Valid (entry : Entry) : Prop where
  descriptors : ∀ descriptor ∈ entry.descriptor :: entry.others, descriptor.Valid
  resolution : entry.resolution.Valid
  sections : ∀ section_ ∈ entry.sections, IsIdentifier section_.1 ∧ ∀ item ∈ section_.2, item.Valid
  version : IsValue ⟨entry.version, false⟩
  checksum : ∀ checksum, entry.checksum = some checksum → IsValue ⟨checksum, false⟩
  conditions : ∀ conditions, entry.conditions = some conditions → IsValue conditions
  languageName : IsValue ⟨entry.languageName, false⟩

structure LockFile where
  ending : LineEnding
  header : List (List Char)
  metadata : List (List Char)
  entries : List Entry

namespace LockFile

variable (file : LockFile)

def content : List Char :=
  written file.ending (paragraphs file.header
    (("__metadata:".toList :: file.metadata) :: file.entries.map Entry.lines))

structure Valid : Prop where
  header : Solid file.header ∧ ∀ line ∈ file.header, line.head? = some '#'
  metadata : ∀ line ∈ file.metadata, IsLine line ∧ line ≠ []
  entries : ∀ entry ∈ file.entries, entry.Valid
  /-- The project itself has an entry. -/
  project : ∃ entry ∈ file.entries, entry.linkType = .soft

end LockFile

/-! Words and lines. -/

section Words

variable {word : Word}

theorem colon_stays : isWhitespace ':' = false := by decide

theorem identifier_noColon {name : List Char} (isName : IsIdentifier name) : ':' ∉ name :=
  fun member => (isName.2 _ member).2.2.2.1 rfl

theorem written_head (isName : IsIdentifier word.text) :
    ∃ first, word.written.head? = some first ∧ isWhitespace first = false := by
  rw [Word.written]
  split
  · exact ⟨'"', rfl, YarnClassic.quote_stays⟩
  · obtain ⟨first, isFirst, stays, _⟩ := isName.head
    exact ⟨first, isFirst, stays⟩

theorem written_isKey (isName : IsIdentifier word.text) :
    YarnClassic.IsKey (word.written ++ [':']) := by
  rw [Word.written]
  split
  · exact Or.inr rfl
  · refine Or.inl fun member => ?_
    rcases List.mem_append.mp member with inName | inColon
    · exact isName.noSpace inName
    · simp at inColon

theorem written_noColon (isName : IsIdentifier word.text) : ':' ∉ word.written := by
  have free := identifier_noColon isName
  rw [Word.written]
  split
  · simp [free]
  · exact free

theorem written_noNewline (free : '\n' ∉ word.text) : '\n' ∉ word.written := by
  rw [Word.written]
  split
  · simp [free]
  · exact free

theorem IsValue.ends (value : IsValue word) : ∃ first last, word.written.head? = some first ∧
    word.written.getLast? = some last ∧ isWhitespace first = false ∧ isWhitespace last = false ∧
      last ≠ ':' := by
  cases isQuoted : word.quoted with
  | true =>
      refine ⟨'"', '"', ?_, ?_, YarnClassic.quote_stays, YarnClassic.quote_stays, by decide⟩
      · simp [Word.written, isQuoted]
      · rw [Word.written, if_pos isQuoted, ← List.cons_append, List.getLast?_concat]
  | false =>
      obtain ⟨noColon, first, last, isFirst, isLast, firstStays, lastStays⟩ := value.plain isQuoted
      refine ⟨first, last, ?_, ?_, firstStays, lastStays, ?_⟩
      · simpa [Word.written, isQuoted] using isFirst
      · simpa [Word.written, isQuoted] using isLast
      · rintro rfl
        exact noColon (List.mem_of_getLast? isLast)

theorem IsValue.trim_written (value : IsValue word) : trim word.written = word.written := by
  obtain ⟨first, last, isFirst, isLast, firstStays, lastStays, _⟩ := value.ends
  exact trim_whole isFirst isLast firstStays lastStays

end Words

/-- What a line `key: value` does to the fields. -/
def assign (fields : Fields) (pair : List Char × Word) : Fields :=
  if pair.1 = "version".toList then { fields with version := some pair.2.written }
  else if pair.1 = "checksum".toList then { fields with checksum := some pair.2.written }
  else if pair.1 = "resolution".toList then
    { fields with resolution := some (trimMatches (· = '"') pair.2.written) }
  else if (pair.1 = "languageName".toList ∧ pair.2.written = "unknown".toList) ∨
      pair.1 = "linkType".toList ∧ pair.2.written = "soft".toList then
    { fields with isWorkspace := true }
  else fields

structure Line.Valid (line : Line) : Prop where
  key : IsIdentifier line.key.text
  value : ∀ value, line.value = some value → IsValue value

namespace Line.Valid

variable {line : Line}

theorem core_ends (valid : line.Valid) : ∃ first last, line.core.head? = some first ∧
    line.core.getLast? = some last ∧ isWhitespace first = false ∧ isWhitespace last = false ∧
      (last = ':' ↔ line.value = none) := by
  obtain ⟨first, isFirst, firstStays⟩ := written_head valid.key
  obtain ⟨tail, isKey⟩ := List.head?_eq_some_iff.mp isFirst
  cases isValue : line.value with
  | none =>
      refine ⟨first, ':', ?_, ?_, firstStays, colon_stays, by simp⟩
      · simp [core, isValue, isKey]
      · simp [core, isValue]
  | some value =>
      obtain ⟨_, last, _, isLast, _, lastStays, notColon⟩ := (valid.value value isValue).ends
      refine ⟨first, last, ?_, ?_, firstStays, lastStays, by simp [notColon]⟩
      · simp [core, isValue, isKey]
      · simp only [core, isValue]
        rw [List.getLast?_append, List.getLast?_cons, isLast]
        rfl

theorem trim_text (valid : line.Valid) : trim line.text = line.core := by
  obtain ⟨first, last, isFirst, isLast, firstStays, lastStays, _⟩ := valid.core_ends
  have blank : ∀ char ∈ List.replicate line.indent ' ', isWhitespace char = true := by
    intro char member
    rw [List.eq_of_mem_replicate member]
    exact YarnClassic.isWhitespace_space
  have whole : trim (List.replicate line.indent ' ' ++ (line.core ++ [])) = line.core :=
    trim_core blank (List.forall_mem_nil _) isFirst isLast firstStays lastStays
  rwa [List.append_nil] at whole

theorem text_free (valid : line.Valid) : '\n' ∉ line.text := by
  have spaces : '\n' ∉ List.replicate line.indent ' ' :=
    fun member => by simpa using List.eq_of_mem_replicate member
  have keyFree := written_noNewline valid.key.noNewline
  rw [Line.text, Line.core, List.mem_append, not_or]
  refine ⟨spaces, ?_⟩
  cases isValue : line.value with
  | none => simp [keyFree]
  | some value => simp [keyFree, written_noNewline (valid.value value isValue).free]

theorem text_ends (valid : line.Valid) :
    ∃ last, line.text.getLast? = some last ∧ isWhitespace last = false := by
  obtain ⟨_, last, _, isLast, _, stays, _⟩ := valid.core_ends
  refine ⟨last, ?_, stays⟩
  rw [Line.text, List.getLast?_append, isLast]
  rfl

end Line.Valid

/-! Specifiers. -/

/-- Of a quoted key the text up to its first comma is searched. -/
theorem beforeLast_firstSpecifier {part text : List Char} {first : Char}
    (isLast : part.getLast? = some ':') (isFirst : text.head? = some first)
    (stays : isWhitespace first = false) (notQuote : first ≠ '"') (notComma : first ≠ ',') :
    beforeLastPart part (firstSpecifier ('"' :: (text ++ ['"']) ++ [':'])) =
      beforeLastPart part (text.takeWhile (· ≠ ',')) := by
  obtain ⟨tail, isText⟩ := List.head?_eq_some_iff.mp isFirst
  have inner : trimEndMatches (· = ':') (('"' :: (text ++ ['"']) ++ [':']).dropWhile (· = '"')) =
      text ++ ['"'] := by
    have unquoted : ('"' :: (text ++ ['"']) ++ [':']).dropWhile (· = '"') = text ++ '"' :: [':'] := by
      rw [isText, List.cons_append, List.dropWhile_cons_of_pos (by decide), List.append_assoc,
        List.cons_append, List.dropWhile_cons_of_neg (by simpa using notQuote)]
      rfl
    rw [unquoted, trimEndMatches_keep (by decide)]
    rfl
  have cut : ∃ back, (text ++ ['"']).takeWhile (· ≠ ',') = text.takeWhile (· ≠ ',') ++ back ∧
      ':' ∉ back := by
    rw [List.takeWhile_append]
    split
    · rename_i whole
      rw [(List.takeWhile_prefix (fun char => decide (char ≠ ','))).eq_of_length whole]
      exact ⟨['"'], rfl, by decide⟩
    · exact ⟨[], (List.append_nil _).symm, List.not_mem_nil⟩
  obtain ⟨back, isCut, free⟩ := cut
  have cutFirst : (text.takeWhile (· ≠ ',') ++ back).head? = some first := by
    rw [isText, List.takeWhile_cons_of_pos (by simpa using notComma)]
    rfl
  rw [firstSpecifier, inner, headD_splitOn, isCut, trim, trimMatches_eq_trimEnd cutFirst stays,
    trimMatches_eq_trimEnd (trimEndMatches_head cutFirst stays) (by simpa using notQuote),
    beforeLastPart_trimEndMatches isLast (by decide),
    beforeLastPart_trimEndMatches isLast colon_stays, beforeLastPart_append_free isLast free]

theorem npm_last : npm.getLast? = some ':' := rfl

theorem workspace_last : workspace.getLast? = some ':' := rfl

theorem readKey_title {fields : Fields} {title : List Char} (isTitle : IsIdentifier title) :
    readKey fields ('"' :: (title ++ ['"']) ++ [':']) = fields := by
  obtain ⟨first, isFirst, stays, notQuote, _⟩ := isTitle.head
  have notComma : first ≠ ',' := (isTitle.2 first (List.mem_of_head? isFirst)).2.2.1
  have absent {part : List Char} (isLast : part.getLast? = some ':') :
      beforeLastPart part (firstSpecifier ('"' :: (title ++ ['"']) ++ [':'])) = none := by
    have filled : part ≠ [] := by
      rintro rfl
      simp at isLast
    rw [beforeLast_firstSpecifier isLast isFirst stays notQuote notComma,
      beforeLastPart_eq_none_iff filled]
    intro within
    have inTitle := (List.takeWhile_prefix _).subset (within.subset (List.mem_of_getLast? isLast))
    exact identifier_noColon isTitle inTitle
  rw [readKey, absent npm_last, absent workspace_last]
  rfl

namespace Line.Valid

variable {line : Line}

theorem readLine_title (valid : line.Valid) (isTitle : line.value = none) (fields : Fields) :
    readLine fields line.text = fields := by
  have noSpace : ' ' ∉ line.core := by
    have free : ' ' ∉ line.key.written := by
      rw [Word.written]
      split
      · simp [valid.key.noSpace]
      · exact valid.key.noSpace
    simp [core, isTitle, free]
  have other (line_ : List Char) (spaced : ' ' ∈ line_) : line.core ≠ line_ :=
    fun same => noSpace (same ▸ spaced)
  have version : stripPrefix "version: " line.core = none := stripPrefix_of_free (by decide) noSpace
  have checksum : stripPrefix "checksum: " line.core = none :=
    stripPrefix_of_free (by decide) noSpace
  have resolution : stripPrefix "resolution: " line.core = none :=
    stripPrefix_of_free (by decide) noSpace
  have neither : ¬ (line.core = "languageName: unknown".toList ∨
      line.core = "linkType: soft".toList) :=
    not_or.mpr ⟨other _ (by decide), other _ (by decide)⟩
  simp only [readLine, valid.trim_text, version, checksum, resolution, if_neg neither]
  split
  · rename_i isKey
    have isQuoted : line.key.quoted = true := by
      by_contra bare
      obtain ⟨first, isFirst, _, notQuote, _⟩ := valid.key.head
      have isHead : line.core.head? = some first := by
        obtain ⟨tail, isText⟩ := List.head?_eq_some_iff.mp isFirst
        simp [core, isTitle, Word.written, bare, isText]
      exact notQuote (Option.some.inj (isHead.symm.trans isKey.1))
    have isCore : line.core = '"' :: (line.key.text ++ ['"']) ++ [':'] := by
      simp only [core, isTitle, Word.written, if_pos isQuoted]
    rw [isCore]
    exact readKey_title valid.key
  · rfl

theorem readLine_pair (valid : line.Valid) {value : Word} (isValue : line.value = some value)
    (fields : Fields) :
    readLine fields line.text = assign fields (line.key.written, value) := by
  have isCore : line.core = (line.key.written ++ [':']) ++ ' ' :: value.written := by
    simp only [core, isValue]
  have notKey : ¬ (line.core.head? = some '"' ∧ line.core.getLast? = some ':' ∧
      fields.name = none) := by
    rintro ⟨_, isColon, _⟩
    obtain ⟨_, last, _, isLast, _, _, colon⟩ := valid.core_ends
    rw [isLast] at isColon
    rw [isValue] at colon
    simpa using colon.mp (Option.some.inj isColon)
  have trimmed := (valid.value value isValue).trim_written
  have strip (start key : String) (isStart : start.toList = (key.toList ++ [':']) ++ [' '])
      (plain : ' ' ∉ key.toList ++ [':'] ∧ (key.toList ++ [':']).head? ≠ some '"') :
      stripPrefix start line.core =
        if line.key.written = key.toList then some value.written else none := by
    rw [isCore, YarnClassic.stripPrefix_key start _ _ isStart plain (written_isKey valid.key)]
    simp only [List.append_cancel_right_eq]
  have whole (key text : String) (free : ':' ∉ key.toList) :
      line.core = key.toList ++ ':' :: ' ' :: text.toList ↔
        line.key.written = key.toList ∧ value.written = text.toList := by
    rw [isCore, List.append_assoc, List.singleton_append]
    constructor
    · intro same
      obtain ⟨isName, rests⟩ := Framing.split_at_first (written_noColon valid.key) free same
      exact ⟨isName, (List.cons.inj rests).2⟩
    · rintro ⟨isName, isText⟩
      rw [isName, isText]
  have unknown := whole "languageName" "unknown" (by decide)
  have soft := whole "linkType" "soft" (by decide)
  have isUnknown : "languageName: unknown".toList =
      "languageName".toList ++ ':' :: ' ' :: "unknown".toList := by decide
  have isSoft : "linkType: soft".toList = "linkType".toList ++ ':' :: ' ' :: "soft".toList := by
    decide
  rw [readLine, valid.trim_text]
  simp only [if_neg notKey, isUnknown, isSoft, unknown, soft, assign,
    strip "version: " "version" (by decide) (by decide),
    strip "checksum: " "checksum" (by decide) (by decide),
    strip "resolution: " "resolution" (by decide) (by decide)]
  by_cases isVersion : line.key.written = "version".toList
  · simp only [if_pos isVersion, trimmed]
  · by_cases isChecksum : line.key.written = "checksum".toList
    · simp only [if_neg isVersion, if_pos isChecksum, trimmed]
    · by_cases isResolution : line.key.written = "resolution".toList
      · simp only [if_neg isVersion, if_neg isChecksum, if_pos isResolution, trimmed]
      · simp only [if_neg isVersion, if_neg isChecksum, if_neg isResolution]

end Line.Valid

theorem foldl_readLine {listed : List Line} (valid : ∀ line ∈ listed, line.Valid) (fields : Fields) :
    (listed.map Line.text).foldl readLine fields =
      (listed.filterMap Line.pair).foldl assign fields := by
  induction listed generalizing fields with
  | nil => rfl
  | cons line listed ih =>
      have here := valid line (by simp)
      have rest := ih fun other member => valid other (List.mem_cons_of_mem _ member)
      cases isValue : line.value with
      | none =>
          have noPair : line.pair = none := by rw [Line.pair, isValue]; rfl
          rw [List.map_cons, List.foldl_cons, here.readLine_title isValue, rest,
            List.filterMap_cons_none noPair]
      | some value =>
          have isPair : line.pair = some (line.key.written, value) := by rw [Line.pair, isValue]; rfl
          rw [List.map_cons, List.foldl_cons, here.readLine_pair isValue, rest,
            List.filterMap_cons_some isPair, List.foldl_cons]

/-- A line of another kind does nothing. -/
theorem readLine_other {line : List Char} {char : Char} (isHead : (trim line).head? = some char)
    (other : char ∉ "\"vcrl".toList) (fields : Fields) : readLine fields line = fields := by
  have strip (start : String) {first : Char} (isFirst : start.toList.head? = some first)
      (within : first ∈ "\"vcrl".toList) : stripPrefix start (trim line) = none := by
    cases isRest : stripPrefix start (trim line) with
    | none => rfl
    | some rest =>
        rw [stripPrefix_eq_some] at isRest
        obtain ⟨tail, isStart⟩ := List.head?_eq_some_iff.mp isFirst
        rw [isRest, isStart, List.cons_append, List.head?_cons] at isHead
        exact (other (Option.some.inj isHead ▸ within)).elim
  have differs (text : String) {first : Char} (isFirst : text.toList.head? = some first)
      (within : first ∈ "\"vcrl".toList) : trim line ≠ text.toList := by
    intro same
    rw [same, isFirst] at isHead
    exact other (Option.some.inj isHead ▸ within)
  have notKey : ¬ ((trim line).head? = some '"' ∧ (trim line).getLast? = some ':' ∧
      fields.name = none) := by
    rintro ⟨isQuote, _⟩
    rw [isHead] at isQuote
    exact other (Option.some.inj isQuote ▸ by decide)
  have neither : ¬ (trim line = "languageName: unknown".toList ∨
      trim line = "linkType: soft".toList) :=
    not_or.mpr ⟨differs _ rfl (by decide), differs _ rfl (by decide)⟩
  rw [readLine]
  simp only [if_neg notKey, strip "version: " rfl (by decide), strip "checksum: " rfl (by decide),
    strip "resolution: " rfl (by decide), if_neg neither]

/-! What a key and its value do to each field. -/

def marks (pair : List Char × Word) : Bool :=
  (pair.1 = "languageName".toList ∧ pair.2.written = "unknown".toList) ∨
    pair.1 = "linkType".toList ∧ pair.2.written = "soft".toList

theorem assign_name (fields : Fields) (pair : List Char × Word) :
    (assign fields pair).name = fields.name := by
  fun_cases assign <;> rfl

theorem assign_version (fields : Fields) (pair : List Char × Word) : (assign fields pair).version =
    if pair.1 = "version".toList then some pair.2.written else fields.version := by
  fun_cases assign fields pair with
  | case1 isVersion => rw [if_pos isVersion]
  | case2 notVersion => rw [if_neg notVersion]
  | case3 notVersion => rw [if_neg notVersion]
  | case4 notVersion => rw [if_neg notVersion]
  | case5 notVersion => rw [if_neg notVersion]

theorem assign_checksum (fields : Fields) (pair : List Char × Word) :
    (assign fields pair).checksum =
      if pair.1 = "checksum".toList then some pair.2.written else fields.checksum := by
  fun_cases assign fields pair with
  | case1 isVersion => rw [isVersion, if_neg (by decide)]
  | case2 _ isChecksum => rw [if_pos isChecksum]
  | case3 _ notChecksum => rw [if_neg notChecksum]
  | case4 _ notChecksum => rw [if_neg notChecksum]
  | case5 _ notChecksum => rw [if_neg notChecksum]

theorem assign_resolution (fields : Fields) (pair : List Char × Word) :
    (assign fields pair).resolution = if pair.1 = "resolution".toList then
      some (trimMatches (· = '"') pair.2.written) else fields.resolution := by
  fun_cases assign fields pair with
  | case1 isVersion => rw [isVersion, if_neg (by decide)]
  | case2 _ isChecksum => rw [isChecksum, if_neg (by decide)]
  | case3 _ _ isResolution => rw [if_pos isResolution]
  | case4 _ _ notResolution => rw [if_neg notResolution]
  | case5 _ _ notResolution => rw [if_neg notResolution]

theorem marks_other {pair : List Char × Word} (notLanguage : pair.1 ≠ "languageName".toList)
    (notLink : pair.1 ≠ "linkType".toList) : marks pair = false := by
  rw [marks, decide_eq_false]
  exact not_or.mpr ⟨fun both => notLanguage both.1, fun both => notLink both.1⟩

theorem assign_isWorkspace (fields : Fields) (pair : List Char × Word) :
    (assign fields pair).isWorkspace = (fields.isWorkspace || marks pair) := by
  have plain {key : List Char} (isKey : pair.1 = key) (notLanguage : key ≠ "languageName".toList)
      (notLink : key ≠ "linkType".toList) : marks pair = false :=
    marks_other (fun same => notLanguage (isKey.symm.trans same))
      fun same => notLink (isKey.symm.trans same)
  fun_cases assign fields pair with
  | case1 isVersion =>
      have noMark := plain isVersion (by decide) (by decide)
      rw [noMark, Bool.or_false]
  | case2 _ isChecksum =>
      have noMark := plain isChecksum (by decide) (by decide)
      rw [noMark, Bool.or_false]
  | case3 _ _ isResolution =>
      have noMark := plain isResolution (by decide) (by decide)
      rw [noMark, Bool.or_false]
  | case4 _ _ _ isMark =>
      have here : marks pair = true := decide_eq_true isMark
      rw [here, Bool.or_true]
  | case5 _ _ _ noMark =>
      have here : marks pair = false := decide_eq_false noMark
      rw [here, Bool.or_false]

theorem foldl_name (pairs : List (List Char × Word)) (fields : Fields) :
    (pairs.foldl assign fields).name = fields.name := by
  induction pairs generalizing fields with
  | nil => rfl
  | cons pair pairs ih => rw [List.foldl_cons, ih, assign_name]

theorem foldl_isWorkspace (pairs : List (List Char × Word)) (fields : Fields) :
    (pairs.foldl assign fields).isWorkspace = (fields.isWorkspace || pairs.any marks) := by
  induction pairs generalizing fields with
  | nil => rw [List.foldl_nil, List.any_nil, Bool.or_false]
  | cons pair pairs ih =>
      rw [List.foldl_cons, ih, assign_isWorkspace, List.any_cons, Bool.or_assoc]

theorem foldl_assign (pairs : List (List Char × Word)) (fields : Fields) :
    pairs.foldl assign fields =
      { name := fields.name
        version := ((lastOf "version".toList pairs).map Word.written).or fields.version
        checksum := ((lastOf "checksum".toList pairs).map Word.written).or fields.checksum
        resolution := ((lastOf "resolution".toList pairs).map fun word =>
          trimMatches (· = '"') word.written).or fields.resolution
        isWorkspace := fields.isWorkspace || pairs.any marks } := by
  have version := foldl_lastOf Fields.version "version".toList Word.written assign_version pairs
    fields
  have checksum := foldl_lastOf Fields.checksum "checksum".toList Word.written assign_checksum pairs
    fields
  have resolution := foldl_lastOf Fields.resolution "resolution".toList
    (fun word => trimMatches (· = '"') word.written) assign_resolution pairs fields
  have whole (fields : Fields) : fields = ⟨fields.name, fields.version, fields.checksum,
      fields.resolution, fields.isWorkspace⟩ := rfl
  rw [whole (pairs.foldl assign fields), version, checksum, resolution, foldl_name,
    foldl_isWorkspace]

/-! What the parser reads of an entry. -/

namespace Entry

variable (entry : Entry)

def nestedPairs : List (List Char × Word) := entry.nestedLines.filterMap Line.pair

/-- What the last line of a section that begins like a field says. -/
def nested (key : String) : Option Word := lastOf key.toList entry.nestedPairs

/-- A line of a section says that the package belongs to the workspace. -/
def Marked : Prop := entry.nestedPairs.any marks = true

instance : Decidable entry.Marked := by
  unfold Marked
  infer_instance

/-- The first specifier, which ends at the first comma. -/
def firstText : List Char := entry.descriptor.text.takeWhile (· ≠ ',')

def keyName : Option (List Char) :=
  if entry.Long then none else beforeLastPart npm entry.firstText

/-- Where the name of the resolution is looked for. -/
def resolutionText : List Char :=
  match entry.nested "resolution" with
  | some word => word.text
  | none => entry.resolution.text

def versionText : List Char :=
  match entry.nested "version" with
  | some word => word.written
  | none => entry.version

def checksumText : Option (List Char) :=
  entry.checksum.or ((entry.nested "checksum").map Word.written)

def parsed : Option UrlPackage :=
  if entry.Workspace ∨ entry.Marked then none
  else
    match entry.keyName, entry.checksumText with
    | some keyName, some checksum => some
        { name := toBytes ((beforeLastPart npm entry.resolutionText).getD keyName)
          version := toBytes entry.versionText
          integrity := toBytes checksum
          tarballUrl := none }
    | _, _ => none

variable {entry}

theorem fieldLine_valid {key : String} (isName : IsIdentifier key.toList) {value : Word}
    (isValue : IsValue value) : (fieldLine key value).Valid :=
  ⟨isName, fun _ same => Option.some.inj same ▸ isValue⟩

theorem Valid.nestedLines (valid : entry.Valid) : ∀ line ∈ entry.nestedLines, line.Valid := by
  intro line member
  obtain ⟨section_, listed, within⟩ := List.mem_flatMap.mp member
  obtain ⟨isTitle, itemsValid⟩ := valid.sections section_ listed
  rcases List.mem_cons.mp within with rfl | inItems
  · exact ⟨isTitle, by simp⟩
  · obtain ⟨item, isItem, inItem⟩ := List.mem_flatMap.mp inItems
    have itemValid := itemsValid item isItem
    cases item with
    | ranged name range =>
        rw [List.mem_singleton.mp inItem]
        exact ⟨itemValid.1, fun value same => Option.some.inj same ▸ itemValid.2⟩
    | flagged name flags =>
        rcases List.mem_cons.mp inItem with rfl | inFlags
        · exact ⟨itemValid.1, by simp⟩
        · obtain ⟨flag, isFlag, rfl⟩ := List.mem_map.mp inFlags
          obtain ⟨isName, isValue⟩ := itemValid.2 flag isFlag
          exact ⟨isName, fun value same => Option.some.inj same ▸ isValue⟩

theorem linkType_isValue (linkType : LinkType) : IsValue ⟨linkType.text, false⟩ := by
  cases linkType with
  | hard => exact ⟨by decide, by decide, fun _ => ⟨by decide, 'h', 'd', by decide⟩⟩
  | soft => exact ⟨by decide, by decide, fun _ => ⟨by decide, 's', 't', by decide⟩⟩

theorem Valid.resolution_isValue (valid : entry.Valid) : IsValue ⟨entry.resolution.text, true⟩ where
  free := by
    have nameFree := valid.resolution.name.noNewline
    simp [Locator.text, nameFree, valid.resolution.reference]
  unescaped := by
    obtain ⟨first, isFirst, _, notQuote, _⟩ := valid.resolution.name.head
    obtain ⟨tail, isName⟩ := List.head?_eq_some_iff.mp isFirst
    simpa [Locator.text, isName] using notQuote
  plain := by simp

theorem Valid.body (valid : entry.Valid) : ∀ line ∈ entry.body, line.Valid := by
  intro line member
  rcases List.mem_cons.mp member with rfl | member
  · exact fieldLine_valid (by decide) valid.version
  · rcases List.mem_cons.mp member with rfl | member
    · exact fieldLine_valid (by decide) valid.resolution_isValue
    · rcases List.mem_append.mp member with inNested | member
      · exact valid.nestedLines line inNested
      · rcases List.mem_append.mp member with inChecksum | member
        · obtain ⟨checksum, isChecksum, rfl⟩ := List.mem_map.mp inChecksum
          exact fieldLine_valid (by decide) (valid.checksum checksum (by simpa using isChecksum))
        · rcases List.mem_append.mp member with inConditions | member
          · obtain ⟨conditions, isConditions, rfl⟩ := List.mem_map.mp inConditions
            exact fieldLine_valid (by decide)
              (valid.conditions conditions (by simpa using isConditions))
          · rcases List.mem_cons.mp member with rfl | member
            · exact fieldLine_valid (by decide) valid.languageName
            · rw [List.mem_singleton.mp member]
              exact fieldLine_valid (by decide) (linkType_isValue _)

theorem field_pair (key : String) (value : Word) :
    (fieldLine key value).pair = some (key.toList, value) := rfl

def ownPairs (entry : Entry) : List (List Char × Word) := entry.ownLines.filterMap Line.pair

theorem body_pairs : entry.body.filterMap Line.pair =
    ("version".toList, ⟨entry.version, false⟩) ::
      ("resolution".toList, ⟨entry.resolution.text, true⟩) :: (entry.nestedPairs ++ entry.ownPairs) := by
  rw [Entry.body, List.filterMap_cons_some (field_pair _ _), List.filterMap_cons_some (field_pair _ _),
    List.filterMap_append]
  rfl

theorem ownPairs_eq : entry.ownPairs =
    (entry.checksum.toList.map fun checksum => ("checksum".toList, ⟨checksum, false⟩)) ++
      (entry.conditions.toList.map (fun conditions => ("conditions".toList, conditions)) ++
        [("languageName".toList, ⟨entry.languageName, false⟩),
          ("linkType".toList, ⟨entry.linkType.text, false⟩)]) := by
  cases isChecksum : entry.checksum with
  | none =>
      cases isConditions : entry.conditions with
      | none => simp [ownPairs, ownLines, isChecksum, isConditions, field_pair]
      | some conditions => simp [ownPairs, ownLines, isChecksum, isConditions, field_pair]
  | some checksum =>
      cases isConditions : entry.conditions with
      | none => simp [ownPairs, ownLines, isChecksum, isConditions, field_pair]
      | some conditions => simp [ownPairs, ownLines, isChecksum, isConditions, field_pair]

theorem lastOf_ownPairs {key : List Char} (notConditions : key ≠ "conditions".toList)
    (notLanguage : key ≠ "languageName".toList) (notLink : key ≠ "linkType".toList) :
    lastOf key entry.ownPairs = if key = "checksum".toList then
      entry.checksum.map fun checksum => ⟨checksum, false⟩ else none := by
  have rest : lastOf key (entry.conditions.toList.map (fun conditions =>
      ("conditions".toList, conditions)) ++
        [("languageName".toList, (⟨entry.languageName, false⟩ : Word)),
          ("linkType".toList, ⟨entry.linkType.text, false⟩)]) = none := by
    refine lastOf_of_ne fun pair member => ?_
    rcases List.mem_append.mp member with inConditions | member
    · obtain ⟨conditions, _, rfl⟩ := List.mem_map.mp inConditions
      exact Ne.symm notConditions
    · rcases List.mem_cons.mp member with rfl | member
      · exact Ne.symm notLanguage
      · rw [List.mem_singleton.mp member]
        exact Ne.symm notLink
  rw [ownPairs_eq, lastOf_append, rest, Option.none_or]
  split
  · rename_i isChecksum
    rw [isChecksum]
    cases entry.checksum with
    | none => rfl
    | some checksum => rfl
  · rename_i notChecksum
    refine lastOf_of_ne fun pair member => ?_
    obtain ⟨checksum, _, rfl⟩ := List.mem_map.mp member
    exact Ne.symm notChecksum

theorem marks_ownPairs : entry.ownPairs.any marks = true ↔ entry.Workspace := by
  have others : ∀ pair ∈ (entry.checksum.toList.map fun checksum =>
      ("checksum".toList, (⟨checksum, false⟩ : Word))) ++
        entry.conditions.toList.map (fun conditions => ("conditions".toList, conditions)),
      marks pair = false := by
    intro pair member
    rcases List.mem_append.mp member with inChecksum | inConditions
    · obtain ⟨checksum, _, rfl⟩ := List.mem_map.mp inChecksum
      have differs : "checksum".toList ≠ "languageName".toList ∧
          "checksum".toList ≠ "linkType".toList := by decide
      exact marks_other differs.1 differs.2
    · obtain ⟨conditions, _, rfl⟩ := List.mem_map.mp inConditions
      have differs : "conditions".toList ≠ "languageName".toList ∧
          "conditions".toList ≠ "linkType".toList := by decide
      exact marks_other differs.1 differs.2
  have language : marks ("languageName".toList, ⟨entry.languageName, false⟩) = true ↔
      entry.languageName = "unknown".toList := by
    rw [marks, decide_eq_true_iff]
    constructor
    · rintro (⟨_, isUnknown⟩ | ⟨isLink, _⟩)
      · exact isUnknown
      · have differs : "languageName".toList ≠ "linkType".toList := by decide
        exact (differs isLink).elim
    · exact fun isUnknown => Or.inl ⟨rfl, isUnknown⟩
  have link : marks ("linkType".toList, ⟨entry.linkType.text, false⟩) = true ↔
      entry.linkType = .soft := by
    cases entry.linkType with
    | hard => decide
    | soft => decide
  have first := List.any_eq_false.mpr fun pair member => Bool.eq_false_iff.mp (others pair member)
  rw [ownPairs_eq, ← List.append_assoc, List.any_append, first, Bool.false_or, List.any_cons,
    List.any_cons, List.any_nil, Bool.or_false, Bool.or_eq_true, language, link]
  exact or_comm

/-- The text between the quotes of the key. -/
def keyText (entry : Entry) : List Char :=
  entry.descriptor.text ++ entry.others.flatMap fun other => ", ".toList ++ other.text

theorem key_eq : entry.key = '"' :: (entry.keyText ++ ['"']) := rfl

theorem keyText_cut : entry.keyText.takeWhile (· ≠ ',') = entry.firstText := by
  rw [keyText, firstText, List.takeWhile_append]
  split
  · rename_i whole
    rw [(List.takeWhile_prefix (fun char => decide (char ≠ ','))).eq_of_length whole]
    cases entry.others with
    | nil => simp
    | cons other others => simp
  · rfl

theorem Valid.keyText_head (valid : entry.Valid) : ∃ first, entry.keyText.head? = some first ∧
    isWhitespace first = false ∧ first ≠ '"' ∧ first ≠ ',' := by
  have isName := (valid.descriptors entry.descriptor (by simp)).name
  obtain ⟨first, isFirst, stays, notQuote, _⟩ := isName.head
  have notComma : first ≠ ',' := (isName.2 first (List.mem_of_head? isFirst)).2.2.1
  obtain ⟨tail, isTail⟩ := List.head?_eq_some_iff.mp isFirst
  exact ⟨first, by simp [keyText, Locator.text, isTail], stays, notQuote, notComma⟩

theorem readLine_key {line : List Char} (isHead : line.head? = some '"')
    (isLast : line.getLast? = some ':') : readLine start line = readKey start line := by
  have trimmed := trim_whole isHead isLast YarnClassic.quote_stays colon_stays
  rw [readLine, trimmed]
  exact if_pos ⟨isHead, isLast, rfl⟩

/-- A key without a name may say that its package belongs to the workspace. -/
theorem Valid.foldl_keyLines (valid : entry.Valid) : ∃ flag,
    entry.keyLines.foldl readLine start = ⟨entry.keyName, none, none, none, flag⟩ ∧
      (entry.keyName.isSome → flag = false) := by
  by_cases long : entry.Long
  · have noName : entry.keyName = none := if_pos long
    have marked (fields : Fields) : readLine fields ("? ".toList ++ entry.key) = fields := by
      have isHead : (trim ("? ".toList ++ entry.key)).head? = some '?' := trim_head rfl (by decide)
      exact readLine_other isHead (by decide) fields
    have colon (fields : Fields) : readLine fields [':'] = fields := by
      have isHead : (trim [':']).head? = some ':' := trim_head rfl (by decide)
      exact readLine_other isHead (by decide) fields
    refine ⟨false, ?_, fun _ => rfl⟩
    rw [keyLines, if_pos long, List.foldl_cons, marked, List.foldl_cons, colon, noName]
    rfl
  · obtain ⟨first, isFirst, stays, notQuote, notComma⟩ := valid.keyText_head
    have isName : entry.keyName = beforeLastPart npm entry.firstText := if_neg long
    have found {part : List Char} (isLast : part.getLast? = some ':') :
        beforeLastPart part (firstSpecifier (entry.key ++ [':'])) =
          beforeLastPart part entry.firstText := by
      rw [key_eq, beforeLast_firstSpecifier isLast isFirst stays notQuote notComma, keyText_cut]
    have read : entry.keyLines.foldl readLine start = readKey start (entry.key ++ [':']) := by
      rw [keyLines, if_neg long]
      exact readLine_key rfl (by rw [List.getLast?_concat])
    rw [read, readKey, found npm_last, found workspace_last, isName]
    cases beforeLastPart npm entry.firstText with
    | some name => exact ⟨false, rfl, fun _ => rfl⟩
    | none =>
        cases (beforeLastPart workspace entry.firstText).isSome with
        | false => exact ⟨false, rfl, fun _ => rfl⟩
        | true => exact ⟨true, rfl, by simp⟩

theorem Valid.fields_read (valid : entry.Valid) : ∃ flag,
    entry.lines.foldl readLine start =
      { name := entry.keyName
        version := some entry.versionText
        checksum := entry.checksumText
        resolution := some (trimMatches (· = '"')
          ((entry.nested "resolution").getD ⟨entry.resolution.text, true⟩).written)
        isWorkspace := flag } ∧
      (entry.keyName.isSome → (flag = true ↔ entry.Workspace ∨ entry.Marked)) := by
  obtain ⟨flag, isFlag, notMarked⟩ := valid.foldl_keyLines
  have own {key : String} (isKey : key ≠ "conditions" ∧ key ≠ "languageName" ∧ key ≠ "linkType") :
      lastOf key.toList (entry.body.filterMap Line.pair) =
        (if key.toList = "checksum".toList then
          entry.checksum.map fun checksum => (⟨checksum, false⟩ : Word) else none).or
          ((entry.nested key).or
            ((if "resolution".toList = key.toList then some ⟨entry.resolution.text, true⟩
              else none).or
                (if "version".toList = key.toList then some ⟨entry.version, false⟩ else none))) := by
    have apart {other : String} (differs : key ≠ other) : key.toList ≠ other.toList :=
      fun same => differs (String.toList_inj.mp same)
    rw [body_pairs, lastOf_cons, lastOf_cons, lastOf_append,
      lastOf_ownPairs (apart isKey.1) (apart isKey.2.1) (apart isKey.2.2), Option.or_assoc,
      Option.or_assoc]
    rfl
  have version : lastOf "version".toList (entry.body.filterMap Line.pair) =
      (entry.nested "version").or (some ⟨entry.version, false⟩) := own (by decide)
  have checksum : lastOf "checksum".toList (entry.body.filterMap Line.pair) =
      (entry.checksum.map fun checksum => ⟨checksum, false⟩).or
        ((entry.nested "checksum").or none) := own (by decide)
  have resolution : lastOf "resolution".toList (entry.body.filterMap Line.pair) =
      (entry.nested "resolution").or (some ⟨entry.resolution.text, true⟩) := own (by decide)
  have marked : (entry.body.filterMap Line.pair).any marks = true ↔
      entry.Workspace ∨ entry.Marked := by
    have versionPlain : marks ("version".toList, ⟨entry.version, false⟩) = false := by
      have differs : "version".toList ≠ "languageName".toList ∧ "version".toList ≠ "linkType".toList :=
        by decide
      exact marks_other differs.1 differs.2
    have resolutionPlain : marks ("resolution".toList, ⟨entry.resolution.text, true⟩) = false := by
      have differs : "resolution".toList ≠ "languageName".toList ∧
          "resolution".toList ≠ "linkType".toList := by decide
      exact marks_other differs.1 differs.2
    rw [body_pairs, List.any_cons, List.any_cons, versionPlain, resolutionPlain, Bool.false_or,
      Bool.false_or, List.any_append, Bool.or_eq_true, marks_ownPairs]
    exact or_comm
  refine ⟨flag || (entry.body.filterMap Line.pair).any marks, ?_, fun named => ?_⟩
  · have versionRead : (((entry.nested "version").or (some ⟨entry.version, false⟩)).map
        Word.written).or none = some entry.versionText := by
      rw [versionText]
      cases entry.nested "version" with
      | none => rfl
      | some range => rfl
    have checksumRead : (((entry.checksum.map fun checksum => (⟨checksum, false⟩ : Word)).or
        ((entry.nested "checksum").or none)).map Word.written).or none = entry.checksumText := by
      rw [checksumText]
      cases entry.checksum with
      | none =>
          cases entry.nested "checksum" with
          | none => rfl
          | some range => rfl
      | some checksum => rfl
    have resolutionRead : (((entry.nested "resolution").or
        (some ⟨entry.resolution.text, true⟩)).map fun word =>
          trimMatches (· = '"') word.written).or none = some (trimMatches (· = '"')
            ((entry.nested "resolution").getD ⟨entry.resolution.text, true⟩).written) := by
      cases entry.nested "resolution" with
      | none => rfl
      | some range => rfl
    rw [Entry.lines, List.foldl_append, isFlag, foldl_readLine valid.body, foldl_assign, version,
      checksum, resolution, versionRead, checksumRead, resolutionRead]
  · rw [notMarked named, Bool.false_or]
    exact marked

/-- The quotes around a value do not matter for the name in it. -/
theorem beforeLast_unquoted {word : Word} (value : IsValue word) :
    beforeLastPart npm (trimMatches (· = '"') word.written) = beforeLastPart npm word.text := by
  cases isText : word.text with
  | nil =>
      rw [Word.written, isText]
      split
      · rfl
      · rfl
  | cons first tail =>
      have notQuote : first ≠ '"' := fun same => value.unescaped (by rw [isText, same]; rfl)
      rw [Word.written, isText]
      split
      · have dropped : ('"' :: (first :: tail ++ ['"'])).dropWhile (· = '"') =
            (first :: tail) ++ ['"'] := by
          rw [List.dropWhile_cons_of_pos (by decide), List.cons_append,
            List.dropWhile_cons_of_neg (by simpa using notQuote)]
        rw [trimMatches, dropped, beforeLastPart_trimEndMatches npm_last (by decide),
          beforeLastPart_append_free npm_last (by decide)]
      · rw [trimMatches, List.dropWhile_cons_of_neg (by simpa using notQuote),
          beforeLastPart_trimEndMatches npm_last (by decide)]

theorem nested_isValue (valid : entry.Valid) {key : String} {word : Word}
    (isNested : entry.nested key = some word) : IsValue word := by
  obtain ⟨pair, isLast, rfl⟩ := Option.map_eq_some_iff.mp isNested
  have member := (List.mem_filter.mp (List.mem_of_getLast? isLast)).1
  obtain ⟨line, listed, isPair⟩ := List.mem_filterMap.mp member
  obtain ⟨value, isValue, rfl⟩ := Option.map_eq_some_iff.mp isPair
  exact (valid.nestedLines line listed).value value isValue

theorem realName_eq (valid : entry.Valid) (keyName : List Char) :
    realName keyName (some (trimMatches (· = '"')
      ((entry.nested "resolution").getD ⟨entry.resolution.text, true⟩).written)) =
      (beforeLastPart npm entry.resolutionText).getD keyName := by
  have isText : beforeLastPart npm (trimMatches (· = '"')
      ((entry.nested "resolution").getD ⟨entry.resolution.text, true⟩).written) =
        beforeLastPart npm entry.resolutionText := by
    rw [resolutionText]
    cases isNested : entry.nested "resolution" with
    | none => exact beforeLast_unquoted valid.resolution_isValue
    | some word => exact beforeLast_unquoted (nested_isValue valid isNested)
  rw [realName, Option.bind_some, isText]
  cases beforeLastPart npm entry.resolutionText with
  | none => rfl
  | some name =>
      simp only [Option.getD_some]
      split
      · rfl
      · rename_i same
        exact (Decidable.not_not.mp same).symm

theorem Valid.package_read (valid : entry.Valid) :
    (entry.lines.foldl readLine start).package = entry.parsed := by
  obtain ⟨flag, isRead, isMarked⟩ := valid.fields_read
  rw [isRead, Fields.package, parsed]
  cases isName : entry.keyName with
  | none => simp
  | some keyName =>
      have marked := isMarked (by rw [isName]; rfl)
      by_cases isFlag : flag = true
      · rw [if_pos isFlag, if_pos (marked.mp isFlag)]
      · rw [if_neg isFlag, if_neg fun either => isFlag (marked.mpr either)]
        cases entry.checksumText with
        | none => rfl
        | some checksum =>
            simp only [realName_eq valid]

/-! Blocks. -/

theorem Valid.key_free (valid : entry.Valid) : '\n' ∉ entry.key := by
  have text {locator : Locator} (isValid : locator.Valid) : '\n' ∉ locator.text := by
    simp [Locator.text, isValid.name.noNewline, isValid.reference]
  intro member
  rw [key_eq, List.mem_cons, List.mem_append, keyText, List.mem_append] at member
  rcases member with quote | (first | others) | quote
  · simp at quote
  · exact text (valid.descriptors entry.descriptor (by simp)) first
  · obtain ⟨other, listed, within⟩ := List.mem_flatMap.mp others
    rcases List.mem_append.mp within with comma | inOther
    · simp at comma
    · exact text (valid.descriptors other (List.mem_cons_of_mem _ listed)) inOther
  · simp at quote

theorem keyLines_eq (entry : Entry) : ∃ first rest, entry.keyLines = first :: rest ∧
    (first.head? = some '"' ∨ first.head? = some '?') := by
  rw [keyLines]
  split
  · exact ⟨_, _, rfl, Or.inr rfl⟩
  · exact ⟨_, _, rfl, Or.inl rfl⟩

theorem Valid.solid (valid : entry.Valid) : Solid entry.lines where
  starts := by
    obtain ⟨first, rest, isKey, isHead⟩ := keyLines_eq entry
    rw [Entry.lines, isKey, List.cons_append]
    rcases isHead with isQuote | isMark
    · exact ⟨'"', isQuote, YarnClassic.quote_stays⟩
    · exact ⟨'?', isMark, by decide⟩
  free := by
    intro line member
    rcases List.mem_append.mp member with inKey | inBody
    · rw [keyLines] at inKey
      split at inKey
      · rcases List.mem_cons.mp inKey with rfl | inKey
        · simp [valid.key_free]
        · rw [List.mem_singleton.mp inKey]
          decide
      · rw [List.mem_singleton.mp inKey]
        simp [valid.key_free]
    · obtain ⟨bodyLine, listed, rfl⟩ := List.mem_map.mp inBody
      exact (valid.body bodyLine listed).text_free
  ends := by
    intro line member
    rcases List.mem_append.mp member with inKey | inBody
    · rw [keyLines] at inKey
      split at inKey
      · rcases List.mem_cons.mp inKey with rfl | inKey
        · refine ⟨'"', ?_, YarnClassic.quote_stays⟩
          rw [key_eq, ← List.cons_append, ← List.append_assoc, List.getLast?_concat]
        · rw [List.mem_singleton.mp inKey]
          exact ⟨':', rfl, colon_stays⟩
      · rw [List.mem_singleton.mp inKey]
        exact ⟨':', List.getLast?_concat, colon_stays⟩
    · obtain ⟨bodyLine, listed, rfl⟩ := List.mem_map.mp inBody
      exact (valid.body bodyLine listed).text_ends

end Entry

theorem not_metadata {block : List Char} {char : Char} (isHead : block.head? = some char)
    (other : char ≠ '_') : ¬ (block = [] ∨ "__metadata".toList.isPrefixOf block = true) := by
  rintro (rfl | starts)
  · simp at isHead
  · obtain ⟨rest, rfl⟩ := List.isPrefixOf_iff_prefix.mp starts
    exact other (Option.some.inj isHead).symm

theorem Entry.Valid.readBlock_eq {entry : Entry} (valid : entry.Valid) (ending : LineEnding) :
    readBlock (joined ending entry.lines) = entry.parsed := by
  have notMetadata : ¬ (joined ending entry.lines = [] ∨
      "__metadata".toList.isPrefixOf (joined ending entry.lines) = true) := by
    obtain ⟨first, rest, isKey, isHead⟩ := Entry.keyLines_eq entry
    have isFirst : (joined ending entry.lines).head? = first.head? := by
      rw [valid.solid.joined_head, Entry.lines, isKey]
      rfl
    rcases isHead with isQuote | isMark
    · exact not_metadata (isFirst.trans isQuote) (by decide)
    · exact not_metadata (isFirst.trans isMark) (by decide)
  rw [readBlock, valid.solid.trim_joined]
  simp only [if_neg notMetadata, valid.solid.lines_joined, valid.package_read]

theorem readBlock_trims : Trims readBlock where
  trims := by
    intro first second same
    rw [readBlock, same, ← readBlock]
  empty := rfl

theorem readBlock_metadata (metadata : List (List Char)) :
    readBlock (joined .lf ("__metadata:".toList :: metadata)) = none := by
  have split : ∃ rest, joined .lf ("__metadata:".toList :: metadata) =
      "__metadata".toList ++ ':' :: rest := by
    cases metadata with
    | nil => exact ⟨[], rfl⟩
    | cons line metadata => exact ⟨_, rfl⟩
  obtain ⟨rest, isText⟩ := split
  have isFirst : "__metadata".toList.head? = some '_' := rfl
  have trimmed : trim (joined .lf ("__metadata:".toList :: metadata)) =
      "__metadata".toList ++ ':' :: trimEndMatches isWhitespace rest := by
    rw [isText]
    exact trimMatches_keep isFirst (by decide) colon_stays
  have starts : "__metadata".toList.isPrefixOf ("__metadata".toList ++ ':' ::
      trimEndMatches isWhitespace rest) = true :=
    List.isPrefixOf_iff_prefix.mpr (List.prefix_append _ _)
  rw [readBlock, trimmed]
  exact if_pos (Or.inr starts)

theorem foldl_comments {comments : List (List Char)}
    (isComment : ∀ line ∈ comments, line.head? = some '#') (fields : Fields) :
    comments.foldl readLine fields = fields := by
  induction comments with
  | nil => rfl
  | cons line comments ih =>
      have isHead := trim_head (isComment line (by simp)) (by decide)
      rw [List.foldl_cons, readLine_other isHead (by decide)]
      exact ih fun other member => isComment other (List.mem_cons_of_mem _ member)

theorem readBlock_comments {comments : List (List Char)} (solid : Solid comments)
    (isComment : ∀ line ∈ comments, line.head? = some '#') :
    readBlock (joined .lf comments) = none := by
  have isHash : (joined .lf comments).head? = some '#' := by
    obtain ⟨line, rest, isLines⟩ := List.exists_cons_of_ne_nil solid.filled
    rw [solid.joined_head, isLines]
    exact isComment line (by simp [isLines])
  rw [readBlock, solid.trim_joined]
  simp only [if_neg (not_metadata isHash (by decide)), solid.lines_joined, foldl_comments isComment]
  rfl

/-! A file that is one block. -/

theorem readLine_marked {fields : Fields} (isMarked : fields.isWorkspace = true) (line : List Char) :
    (readLine fields line).isWorkspace = true := by
  rw [readLine]
  split
  · rw [readKey]
    split
    · exact isMarked
    · split
      · rfl
      · exact isMarked
  · split
    · exact isMarked
    · split
      · exact isMarked
      · split
        · exact isMarked
        · split
          · rfl
          · exact isMarked

theorem foldl_marked (ls : List (List Char)) {fields : Fields} (isMarked : fields.isWorkspace = true) :
    (ls.foldl readLine fields).isWorkspace = true := by
  induction ls generalizing fields with
  | nil => exact isMarked
  | cons line ls ih => exact ih (readLine_marked isMarked line)

theorem foldl_soft {ls : List (List Char)} {line : List Char} (member : line ∈ ls)
    (isSoft : trim line = "linkType: soft".toList) (fields : Fields) :
    (ls.foldl readLine fields).isWorkspace = true := by
  obtain ⟨before, after, rfl⟩ := List.append_of_mem member
  rw [List.foldl_append, List.foldl_cons]
  refine foldl_marked after ?_
  rw [readLine, isSoft]
  rfl

theorem readBlock_whole {ls : List (List Char)} {line : List Char} {last : Char}
    (isHash : ls.head?.bind List.head? = some '#') (isLine : ls.getLast? = some line)
    (isLast : line.getLast? = some last) (stays : isWhitespace last = false)
    (isLines : ∀ line ∈ ls, IsLine line)
    (within : (fieldLine "linkType" ⟨LinkType.soft.text, false⟩).text ∈ ls) :
    readBlock (written .crlf ls) = none := by
  have filled : line ≠ [] := by
    rintro rfl
    simp at isLast
  have isHead : (joined .crlf ls).head? = some '#' := by
    cases ls with
    | nil => simp at isHash
    | cons comment rest =>
        obtain ⟨tail, rfl⟩ := List.head?_eq_some_iff.mp isHash
        cases rest with
        | nil => rfl
        | cons next rest => rfl
  have ends : (joined .crlf ls).getLast? = some last := (joined_getLast? isLine filled).trans isLast
  have trimmed : trim (written .crlf ls) = joined .crlf ls := by
    have around : trim ([] ++ (joined .crlf ls ++ LineEnding.crlf.text)) = joined .crlf ls :=
      trim_core (List.forall_mem_nil _) (by simp [LineEnding.text, isWhitespace]) isHead ends
        (by decide) stays
    rwa [List.nil_append, ← written_eq_joined (List.ne_nil_of_mem within)] at around
  have isSoft : trim (fieldLine "linkType" ⟨LinkType.soft.text, false⟩).text =
      "linkType: soft".toList :=
    (Entry.fieldLine_valid (by decide) (Entry.linkType_isValue .soft)).trim_text
  have isMarked := foldl_soft within isSoft start
  have isRead : lines (joined .crlf ls) = ls :=
    lines_joined isLines fun isEmpty => filled (Option.some.inj (isLine.symm.trans isEmpty))
  rw [readBlock, trimmed]
  simp only [if_neg (not_metadata isHead (by decide)), isRead, Fields.package, isMarked, if_true]

/-! When the parser reads the entry as it was written. -/

/-- The text begins with the name and with the last `@npm:` in it. -/
def NpmName (name text : List Char) : Prop := ∃ rest, text = name ++ (npm ++ rest) ∧ ¬ npm <:+: rest

theorem npmName_iff {name text : List Char} :
    NpmName name text ↔ beforeLastPart npm text = some name := by
  have once : '@' ∉ "npm:".toList := by decide
  exact (beforeLastPart_cons_iff once).symm

namespace Entry

variable (entry : Entry)

/-- The name is taken from the resolution or, where that has no `@npm:`, from the key. -/
def NameClear : Prop := NpmName entry.resolution.name entry.resolutionText ∨
  ¬ npm <:+: entry.resolutionText ∧ NpmName entry.resolution.name entry.firstText

/-- The parser finds a name in the key. -/
def Shown : Prop := ¬ entry.Long ∧ npm <:+: entry.firstText

def Kept : Prop := ¬ entry.Workspace ∧ entry.checksum.isSome

/-- An entry whose key does not show a name is dropped, and a line of a section that is written like
a field is taken for the field, unless the field comes behind it. -/
structure Faithful : Prop where
  shown : entry.Kept → entry.Shown ∧ ¬ entry.Marked
  version : entry.Kept → ∀ range, entry.nested "version" = some range →
    range.written = entry.version
  name : entry.Kept → entry.NameClear
  checksum : ¬ entry.Workspace → entry.checksum = none → entry.Shown → ¬ entry.Marked →
    entry.nested "checksum" = none

variable {entry}

theorem shown_iff : entry.Shown ↔ entry.keyName.isSome = true := by
  have filled : npm ≠ [] := by decide
  rw [Shown, keyName, Option.isSome_iff_ne_none]
  by_cases long : entry.Long
  · simp [long]
  · rw [if_neg long, Ne, beforeLastPart_eq_none_iff filled, Decidable.not_not]
    exact and_iff_right long

theorem versionText_iff : entry.versionText = entry.version ↔
    ∀ range, entry.nested "version" = some range → range.written = entry.version := by
  rw [versionText]
  cases entry.nested "version" with
  | none => simp
  | some range => simp

theorem nameClear_iff (notLong : ¬ entry.Long) {keyName : List Char}
    (isName : entry.keyName = some keyName) :
    (beforeLastPart npm entry.resolutionText).getD keyName = entry.resolution.name ↔
      entry.NameClear := by
  have filled : npm ≠ [] := by decide
  rw [Entry.keyName, if_neg notLong] at isName
  rw [NameClear, npmName_iff, npmName_iff, ← beforeLastPart_eq_none_iff filled, isName]
  cases beforeLastPart npm entry.resolutionText with
  | none => simp
  | some name => simp

theorem package_fields_iff {name version checksum : List Char} {entry : Entry} :
    (⟨⟨toBytes name, toBytes version, toBytes checksum⟩, none⟩ : UrlPackage) =
      ⟨⟨toBytes entry.resolution.name, toBytes entry.version, toBytes checksum⟩, none⟩ ↔
    name = entry.resolution.name ∧ version = entry.version := by
  rw [UrlPackage.mk.injEq, LockfilePackage.mk.injEq, toBytes_inj, toBytes_inj]
  simp

theorem parsed_of_marked (either : entry.Workspace ∨ entry.Marked) : entry.parsed = none :=
  if_pos either

theorem parsed_of_hidden (isName : entry.keyName = none) : entry.parsed = none := by
  rw [parsed, isName]
  split
  · rfl
  · rfl

theorem parsed_of_shown (neither : ¬ (entry.Workspace ∨ entry.Marked)) {keyName : List Char}
    (isName : entry.keyName = some keyName) :
    entry.parsed = entry.checksumText.map fun checksum =>
      ⟨⟨toBytes ((beforeLastPart npm entry.resolutionText).getD keyName),
        toBytes entry.versionText, toBytes checksum⟩, none⟩ := by
  rw [parsed, if_neg neither, isName]
  cases entry.checksumText with
  | none => rfl
  | some checksum => rfl

theorem parsed_eq_none_iff (outside : ¬ entry.Workspace) (noChecksum : entry.checksum = none) :
    entry.parsed = none ↔ (entry.Shown → ¬ entry.Marked → entry.nested "checksum" = none) := by
  by_cases isMarked : entry.Marked
  · exact iff_of_true (parsed_of_marked (Or.inr isMarked)) fun _ notMarked => (notMarked isMarked).elim
  · cases isName : entry.keyName with
    | none =>
        have hidden : ¬ entry.Shown := by simp [shown_iff, isName]
        exact iff_of_true (parsed_of_hidden isName) fun shown => (hidden shown).elim
    | some keyName =>
        have shown : entry.Shown := by simp [shown_iff, isName]
        rw [parsed_of_shown (not_or.mpr ⟨outside, isMarked⟩) isName, Option.map_eq_none_iff,
          checksumText, noChecksum, Option.none_or, Option.map_eq_none_iff]
        exact ⟨fun isNone _ _ => isNone, fun isNone => isNone shown isMarked⟩

theorem parsed_eq_some_iff (outside : ¬ entry.Workspace) {checksum : List Char}
    (isChecksum : entry.checksum = some checksum) :
    entry.parsed = some ⟨⟨toBytes entry.resolution.name, toBytes entry.version,
        toBytes checksum⟩, none⟩ ↔
      (entry.Shown ∧ ¬ entry.Marked) ∧
        (∀ range, entry.nested "version" = some range → range.written = entry.version) ∧
          entry.NameClear := by
  by_cases isMarked : entry.Marked
  · rw [parsed_of_marked (Or.inr isMarked)]
    exact iff_of_false (by simp) fun all => all.1.2 isMarked
  · cases isName : entry.keyName with
    | none =>
        have hidden : ¬ entry.Shown := by simp [shown_iff, isName]
        rw [parsed_of_hidden isName]
        exact iff_of_false (by simp) fun all => hidden all.1.1
    | some keyName =>
        have shown : entry.Shown := by simp [shown_iff, isName]
        have isText : entry.checksumText = some checksum := by
          rw [checksumText, isChecksum, Option.some_or]
        rw [parsed_of_shown (not_or.mpr ⟨outside, isMarked⟩) isName, isText, Option.map_some,
          Option.some.injEq, package_fields_iff, nameClear_iff shown.1 isName, versionText_iff]
        exact ⟨fun both => ⟨⟨shown, isMarked⟩, both.2, both.1⟩, fun all => ⟨all.2.2, all.2.1⟩⟩

theorem parsed_eq_package_iff : entry.parsed = entry.package ↔ entry.Faithful := by
  by_cases inside : entry.Workspace
  · have isPackage : entry.package = none := if_pos inside
    have notKept : ¬ entry.Kept := fun kept => kept.1 inside
    rw [isPackage]
    exact iff_of_true (parsed_of_marked (Or.inl inside))
      ⟨fun kept => (notKept kept).elim, fun kept => (notKept kept).elim,
        fun kept => (notKept kept).elim, fun outside => (outside inside).elim⟩
  · have isPackage : entry.package = entry.checksum.map fun checksum =>
        ⟨⟨toBytes entry.resolution.name, toBytes entry.version, toBytes checksum⟩, none⟩ :=
      if_neg inside
    cases isChecksum : entry.checksum with
    | none =>
        have notKept : ¬ entry.Kept := by simp [Kept, isChecksum]
        rw [isPackage, isChecksum, Option.map_none, parsed_eq_none_iff inside isChecksum]
        constructor
        · intro noPhantom
          exact ⟨fun kept => (notKept kept).elim, fun kept => (notKept kept).elim,
            fun kept => (notKept kept).elim, fun _ _ => noPhantom⟩
        · exact fun faithful => faithful.checksum inside isChecksum
    | some checksum =>
        have kept : entry.Kept := ⟨inside, by rw [isChecksum]; rfl⟩
        rw [isPackage, isChecksum, Option.map_some, parsed_eq_some_iff inside isChecksum]
        constructor
        · rintro ⟨shown, version, name⟩
          exact ⟨fun _ => shown, fun _ => version, fun _ => name, fun _ isNone => by
            simp [isChecksum] at isNone⟩
        · exact fun faithful => ⟨faithful.shown kept, faithful.version kept, faithful.name kept⟩

end Entry

/-! Packages of one name and version. -/

def SameRelease (first second : UrlPackage) : Prop :=
  first.name = second.name ∧ first.version = second.version

theorem samePackage_iff {first second : UrlPackage} :
    samePackage first.toLockfilePackage second.toLockfilePackage = true ↔
      SameRelease first second := by
  simp [samePackage, SameRelease]

theorem dedupBy_of_distinct {α : Type} {same : α → α → Bool} {xs : List α}
    (distinct : xs.Pairwise fun first second => same second first = false) :
    dedupBy same xs = xs := by
  have from_ (kept : α) (xs : List α)
      (distinct : (kept :: xs).Pairwise fun first second => same second first = false) :
      dedupFrom same kept xs = xs := by
    induction xs generalizing kept with
    | nil => rfl
    | cons next xs ih =>
        obtain ⟨others, rest⟩ := List.pairwise_cons.mp distinct
        rw [dedupFrom, others next (by simp), if_neg Bool.false_ne_true, ih next rest]
  cases xs with
  | nil => rfl
  | cons first xs => rw [dedupBy, from_ first xs distinct]

def releaseLe (first second : Bytes × Bytes) : Prop :=
  first.1 ≤ second.1 ∧ (first.1 = second.1 → first.2 ≤ second.2)

theorem urlPackageLe_iff {first second : UrlPackage} : urlPackageLe first second = true ↔
    releaseLe (first.name, first.version) (second.name, second.version) := by
  rw [urlPackageLe, packageLe, releaseLe, Bool.or_eq_true, Bool.and_eq_true, decide_eq_true_iff,
    decide_eq_true_iff, decide_eq_true_iff, Std.le_iff_lt_or_eq (a := first.name)]
  constructor
  · rintro (before | ⟨same, below⟩)
    · refine ⟨Or.inl before, fun same => ?_⟩
      have isName : first.name = second.name := same
      rw [isName] at before
      exact (Std.lt_irrefl before).elim
    · exact ⟨Or.inr same, fun _ => below⟩
  · rintro ⟨before | same, below⟩
    · exact Or.inl before
    · exact Or.inr ⟨same, below same⟩

theorem releaseLe_antisymm (first second : Bytes × Bytes) (lower : releaseLe first second)
    (upper : releaseLe second first) : first = second := by
  have names := Std.le_antisymm lower.1 upper.1
  exact Prod.ext names (Std.le_antisymm (lower.2 names) (upper.2 names.symm))

theorem releaseLe_total (first second : Bytes × Bytes) :
    releaseLe first second ∨ releaseLe second first := by
  by_cases names : first.1 = second.1
  · rcases Std.le_total (a := first.2) (b := second.2) with below | above
    · exact Or.inl ⟨names ▸ Std.le_refl _, fun _ => below⟩
    · exact Or.inr ⟨names ▸ Std.le_refl _, fun _ => above⟩
  · rcases Std.le_total (a := first.1) (b := second.1) with below | above
    · exact Or.inl ⟨below, fun same => (names same).elim⟩
    · exact Or.inr ⟨above, fun same => (names same.symm).elim⟩

theorem releaseLe_trans (first second third : Bytes × Bytes) (lower : releaseLe first second)
    (upper : releaseLe second third) : releaseLe first third := by
  refine ⟨Std.le_trans lower.1 upper.1, fun same => ?_⟩
  have names : first.1 = second.1 := Std.le_antisymm lower.1 (same ▸ upper.1)
  exact Std.le_trans (lower.2 names) (upper.2 (names.symm.trans same))

/-- Nothing is merged among packages of different names or versions, and only there. -/
theorem sortPackages_perm_iff (packages : List UrlPackage) :
    (sortPackages packages).Perm packages ↔
      packages.Pairwise fun first second => ¬ SameRelease first second := by
  have permuted := List.perm_insertionSort (fun first second => urlPackageLe first second = true)
    packages
  have symmetric {first second : UrlPackage} (differ : ¬ SameRelease first second) :
      ¬ SameRelease second first := fun same => differ ⟨same.1.symm, same.2.symm⟩
  constructor
  · intro kept
    let key (package : UrlPackage) : Bytes × Bytes := (package.name, package.version)
    have isKey (first second : UrlPackage) :
        samePackage first.toLockfilePackage second.toLockfilePackage =
          decide (key first = key second) := by
      rw [Bool.eq_iff_iff, samePackage_iff, decide_eq_true_iff, Prod.ext_iff, SameRelease]
    have isTotal : Std.Total fun first second => urlPackageLe first second = true :=
      ⟨fun first second => by
        rw [urlPackageLe_iff, urlPackageLe_iff]
        exact releaseLe_total _ _⟩
    have isTrans : IsTrans UrlPackage fun first second => urlPackageLe first second = true :=
      ⟨fun first second third => by
        rw [urlPackageLe_iff, urlPackageLe_iff, urlPackageLe_iff]
        exact releaseLe_trans _ _ _⟩
    have sorted : (packages.insertionSort fun first second => urlPackageLe first second).Pairwise
        fun first second => releaseLe (key first) (key second) :=
      (List.pairwise_insertionSort _ packages).imp urlPackageLe_iff.mp
    have distinct := pairwise_dedupBy isKey releaseLe_antisymm sorted
    refine (kept.pairwise_iff symmetric).mp (distinct.imp ?_)
    rintro first second ⟨_, differ⟩ same
    exact differ (Prod.ext same.1 same.2)
  · intro distinct
    have sortedDistinct := (permuted.pairwise_iff symmetric).mpr distinct
    rw [sortPackages, dedupBy_of_distinct]
    · exact permuted
    · refine sortedDistinct.imp fun differ => ?_
      rw [Bool.eq_false_iff, Ne, samePackage_iff]
      exact symmetric differ

namespace LockFile

variable {file : LockFile}

theorem Valid.paragraphs (valid : file.Valid) :
    ∀ paragraph ∈ file.header :: ("__metadata:".toList :: file.metadata) ::
        file.entries.map Entry.lines,
      paragraph ≠ [] ∧ ∀ line ∈ paragraph, line ≠ [] ∧ IsLine line := by
  have ofSolid {ls : List (List Char)} (solid : Solid ls) :
      ls ≠ [] ∧ ∀ line ∈ ls, line ≠ [] ∧ IsLine line :=
    ⟨solid.filled, fun line member =>
      ⟨fun isNil => solid.noEmpty (isNil ▸ member), solid.isLine line member⟩⟩
  intro paragraph member
  rcases List.mem_cons.mp member with rfl | member
  · exact ofSolid valid.header.1
  · rcases List.mem_cons.mp member with rfl | member
    · refine ⟨List.cons_ne_nil _ _, fun line within => ?_⟩
      rcases List.mem_cons.mp within with rfl | inMetadata
      · exact ⟨by decide, by decide⟩
      · exact (valid.metadata line inMetadata).symm
    · obtain ⟨entry, listed, rfl⟩ := List.mem_map.mp member
      exact ofSolid (valid.entries entry listed).solid

/-- With single newlines the blocks are the paragraphs. -/
theorem Valid.blocks_lf (valid : file.Valid) (isEnding : file.ending = .lf) :
    (splitBlocks file.content).map readBlock = none :: none :: file.entries.map Entry.parsed := by
  have filled : ∀ paragraph ∈ file.header :: ("__metadata:".toList :: file.metadata) ::
      file.entries.map Entry.lines, paragraph ≠ [] ∧ ∀ line ∈ paragraph, line ≠ [] ∧ '\n' ∉ line :=
    fun paragraph member => (valid.paragraphs paragraph member).imp_right
      fun isLine line within => (isLine line within).imp_right And.left
  have entries : (file.entries.map Entry.lines).map (fun paragraph =>
      readBlock (joined .lf paragraph)) = file.entries.map Entry.parsed := by
    rw [List.map_map]
    refine List.map_congr_left fun entry member => ?_
    rw [Function.comp_apply, (valid.entries entry member).readBlock_eq]
  have header := readBlock_comments valid.header.1 valid.header.2
  have metadata := readBlock_metadata file.metadata
  rw [content, isEnding, blocks_paragraphs readBlock_trims filled, List.map_cons, List.map_cons,
    header, metadata, entries]

theorem Valid.last_line (valid : file.Valid) : ∃ line last,
    (Lockfile.paragraphs file.header (("__metadata:".toList :: file.metadata) ::
      file.entries.map Entry.lines)).getLast? = some line ∧
        line.getLast? = some last ∧ isWhitespace last = false := by
  obtain ⟨project, listed, _⟩ := valid.project
  obtain ⟨before, entry, isEntries⟩ : ∃ before entry, file.entries = before ++ [entry] :=
    ⟨_, _, (List.dropLast_concat_getLast (List.ne_nil_of_mem listed)).symm⟩
  have solid := (valid.entries entry (by simp [isEntries])).solid
  have isLine := List.getLast?_eq_some_getLast solid.filled
  obtain ⟨last, isLast, stays⟩ := solid.ends _ (List.mem_of_getLast? isLine)
  refine ⟨_, last, ?_, isLast, stays⟩
  rw [Lockfile.paragraphs, isEntries, List.map_append, ← List.cons_append, List.flatMap_append,
    List.map_singleton, List.flatMap_singleton, List.getLast?_append, List.getLast?_append,
    List.getLast?_cons, isLine]
  rfl

theorem Valid.isLines (valid : file.Valid) : ∀ line ∈ Lockfile.paragraphs file.header
    (("__metadata:".toList :: file.metadata) :: file.entries.map Entry.lines), IsLine line := by
  intro line member
  rcases List.mem_append.mp member with inHeader | inRest
  · exact valid.header.1.isLine line inHeader
  · obtain ⟨paragraph, listed, within⟩ := List.mem_flatMap.mp inRest
    rcases List.mem_cons.mp within with rfl | inParagraph
    · decide
    · exact ((valid.paragraphs paragraph (List.mem_cons_of_mem _ listed)).2 line inParagraph).2

theorem Valid.soft_line (valid : file.Valid) :
    (fieldLine "linkType" ⟨LinkType.soft.text, false⟩).text ∈ Lockfile.paragraphs file.header
      (("__metadata:".toList :: file.metadata) :: file.entries.map Entry.lines) := by
  obtain ⟨project, listed, isSoft⟩ := valid.project
  have inBody : fieldLine "linkType" ⟨LinkType.soft.text, false⟩ ∈ project.body := by
    rw [← isSoft]
    simp [Entry.body, Entry.ownLines]
  have inLines : (fieldLine "linkType" ⟨LinkType.soft.text, false⟩).text ∈ project.lines :=
    List.mem_append_right _ (List.mem_map_of_mem inBody)
  exact List.mem_append_right _ (List.mem_flatMap.mpr ⟨project.lines,
    List.mem_cons_of_mem _ (List.mem_map_of_mem listed), List.mem_cons_of_mem _ inLines⟩)

/-- With carriage returns the file is one block, and that contains the project itself. -/
theorem Valid.blocks_crlf (valid : file.Valid) (isEnding : file.ending = .crlf) :
    (splitBlocks file.content).map readBlock = [none] := by
  obtain ⟨line, last, isLine, isLast, stays⟩ := valid.last_line
  obtain ⟨comment, rest, isHeader⟩ := List.exists_cons_of_ne_nil valid.header.1.filled
  have isComment := valid.header.2 comment (by simp [isHeader])
  have isHead := trim_head isComment (by decide)
  have free := fun line member => (valid.isLines line member).1
  rw [content, isEnding, Lockfile.blocks_crlf free, List.map_singleton,
    readBlock_whole ?_ isLine isLast stays valid.isLines valid.soft_line]
  rw [Lockfile.paragraphs, isHeader]
  exact isComment

/-- With carriage returns the parser returns nothing. -/
def Faithful (file : LockFile) : Prop :=
  match file.ending with
  | .lf => ∀ entry ∈ file.entries, entry.Faithful
  | .crlf => ∀ entry ∈ file.entries, entry.package = none

/-- No two packages have the same name and version. -/
def Distinct (file : LockFile) : Prop :=
  (file.entries.filterMap Entry.package).Pairwise fun first second => ¬ SameRelease first second

/-- After the header, the metadata and some of the entries, the packages of just these entries have
been read, and all of them are returned, in some order. -/
def Inverted (file : LockFile) : Prop :=
  (∀ count, ((splitBlocks file.content).take (count + 2)).filterMap readBlock =
    (file.entries.take count).filterMap Entry.package) ∧
  (parseYarnBerryLockfile file.content).Perm (file.entries.filterMap Entry.package)

theorem read_iff (valid : file.Valid) :
    (∀ count, ((splitBlocks file.content).take (count + 2)).filterMap readBlock =
      (file.entries.take count).filterMap Entry.package) ↔ file.Faithful := by
  have throughMap (count : Nat) : ((splitBlocks file.content).take (count + 2)).filterMap readBlock =
      (((splitBlocks file.content).map readBlock).take (count + 2)).filterMap id := by
    rw [← List.map_take, List.filterMap_map]
    rfl
  simp only [throughMap, Faithful]
  cases isEnding : file.ending with
  | lf =>
      have entries (count : Nat) : ((none :: none :: file.entries.map Entry.parsed).take
          (count + 2)).filterMap id = (file.entries.take count).filterMap Entry.parsed := by
        rw [List.take_succ_cons, List.take_succ_cons, List.filterMap_cons_none rfl,
          List.filterMap_cons_none rfl, ← List.map_take, List.filterMap_map]
        rfl
      simp only [valid.blocks_lf isEnding, entries, filterMap_take_eq_iff,
        Entry.parsed_eq_package_iff]
  | crlf =>
      have nothing (count : Nat) : ([none].take (count + 2)).filterMap id = ([] : List UrlPackage) :=
        rfl
      simp only [valid.blocks_crlf isEnding, nothing]
      constructor
      · intro same entry member
        have whole := same file.entries.length
        rw [List.take_length, eq_comm, List.filterMap_eq_nil_iff] at whole
        exact whole entry member
      · intro noPackage count
        rw [eq_comm, List.filterMap_eq_nil_iff]
        exact fun entry member => noPackage entry (List.mem_of_mem_take member)

theorem yarn_berry_inverts_iff (file : LockFile) (valid : file.Valid) :
    file.Inverted ↔ file.Faithful ∧ file.Distinct := by
  rw [Inverted, read_iff valid, and_congr_right_iff]
  intro faithful
  have all := (read_iff valid).mpr faithful
    (max file.entries.length (splitBlocks file.content).length)
  rw [List.take_of_length_le (by omega), List.take_of_length_le (by omega)] at all
  have isRead : readPackages file.content = file.entries.filterMap Entry.package := all
  rw [parseYarnBerryLockfile, isRead, sortPackages_perm_iff, Distinct]

end LockFile

/-! One package that is read, and one that is not. -/

def project : Entry where
  descriptor := ⟨"rage".toList, "workspace:.".toList⟩
  others := []
  version := "0.0.0-use.local".toList
  resolution := ⟨"rage".toList, "workspace:.".toList⟩
  sections := []
  checksum := none
  conditions := none
  languageName := "unknown".toList
  linkType := .soft

def release (name range version reference : String) : Entry where
  descriptor := ⟨name.toList, range.toList⟩
  others := []
  version := version.toList
  resolution := ⟨name.toList, reference.toList⟩
  sections := []
  checksum := some "10c0/abc".toList
  conditions := none
  languageName := "node".toList
  linkType := .hard

def fileOf (entry : Entry) : LockFile where
  ending := .lf
  header := ["# Manual changes might be lost - proceed with caution!".toList]
  metadata := ["  version: 8".toList, "  cacheKey: 10c0".toList]
  entries := [project, entry]

theorem word_isValue {text : List Char} (free : '\n' ∉ text) (unescaped : text.head? ≠ some '"')
    (noColon : ':' ∉ text) {first last : Char} (isFirst : text.head? = some first)
    (isLast : text.getLast? = some last) (firstStays : isWhitespace first = false)
    (lastStays : isWhitespace last = false) : IsValue ⟨text, false⟩ :=
  ⟨free, unescaped, fun _ => ⟨noColon, first, last, isFirst, isLast, firstStays, lastStays⟩⟩

theorem project_valid : project.Valid where
  descriptors := by
    intro descriptor member
    rw [List.mem_singleton.mp member]
    exact ⟨by decide, by decide⟩
  resolution := ⟨by decide, by decide⟩
  sections := List.forall_mem_nil _
  version := word_isValue (by decide) (by decide) (by decide) rfl rfl (by decide) (by decide)
  checksum := by simp [project]
  conditions := by simp [project]
  languageName := word_isValue (by decide) (by decide) (by decide) rfl rfl (by decide) (by decide)

theorem release_valid {name range version reference : String} (isName : IsIdentifier name.toList)
    (free : '\n' ∉ range.toList ∧ '\n' ∉ reference.toList)
    (isVersion : IsValue ⟨version.toList, false⟩) :
    (release name range version reference).Valid where
  descriptors := by
    intro descriptor member
    rw [List.mem_singleton.mp member]
    exact ⟨isName, free.1⟩
  resolution := ⟨isName, free.2⟩
  sections := List.forall_mem_nil _
  version := isVersion
  checksum := by
    intro checksum same
    rw [← Option.some.inj same]
    exact word_isValue (by decide) (by decide) (by decide) rfl rfl (by decide) (by decide)
  conditions := by simp [release]
  languageName := by
    have node : IsValue ⟨"node".toList, false⟩ :=
      word_isValue (by decide) (by decide) (by decide) rfl rfl (by decide) (by decide)
    exact node

theorem fileOf_valid {entry : Entry} (valid : entry.Valid) : (fileOf entry).Valid where
  header := by
    refine ⟨⟨⟨'#', rfl, by decide⟩, fun line member => ?_, fun line member => ?_⟩,
      fun line member => ?_⟩
    · rw [List.mem_singleton.mp member]
      decide
    · rw [List.mem_singleton.mp member]
      exact ⟨'!', rfl, by decide⟩
    · rw [List.mem_singleton.mp member]
      rfl
  metadata := by
    have each : ∀ line ∈ ["  version: 8".toList, "  cacheKey: 10c0".toList],
        IsLine line ∧ line ≠ [] := by decide
    exact each
  entries := by
    intro other member
    rcases List.mem_cons.mp member with rfl | later
    · exact project_valid
    · rw [List.mem_singleton.mp later]
      exact valid
  project := ⟨project, List.mem_cons_self, rfl⟩

theorem yarn_berry_inverts_iff_ms :
    (parseYarnBerryLockfile (fileOf (release "ms" "npm:^2.1.1" "2.1.3" "npm:2.1.3")).content).Perm
      [⟨⟨utf8 "ms", utf8 "2.1.3", utf8 "10c0/abc"⟩, none⟩] := by
  have valid : (release "ms" "npm:^2.1.1" "2.1.3" "npm:2.1.3").Valid :=
    release_valid (by decide) (by decide)
      (word_isValue (by decide) (by decide) (by decide) rfl rfl (by decide) (by decide))
  have faithful : (fileOf (release "ms" "npm:^2.1.1" "2.1.3" "npm:2.1.3")).Faithful := by
    intro entry member
    rcases List.mem_cons.mp member with rfl | later
    · exact Entry.parsed_eq_package_iff.mp (by decide +kernel)
    · rw [List.mem_singleton.mp later]
      exact Entry.parsed_eq_package_iff.mp (by decide +kernel)
  have distinct : (fileOf (release "ms" "npm:^2.1.1" "2.1.3" "npm:2.1.3")).Distinct :=
    List.pairwise_singleton _ _
  exact ((LockFile.yarn_berry_inverts_iff _ (fileOf_valid valid)).mpr ⟨faithful, distinct⟩).2

/-- The entry of a patched package, as yarn writes it for its builtin patches. -/
def patched : Entry := release "typescript" "patch:typescript@npm%3A^5.0.0#optional!builtin"
  "5.4.5" "patch:typescript@npm%3A5.4.5#optional!builtin::version=5.4.5"

theorem patch_dropped : (fileOf patched).Valid ∧
    (fileOf patched).entries.filterMap Entry.package =
      [⟨⟨utf8 "typescript", utf8 "5.4.5", utf8 "10c0/abc"⟩, none⟩] ∧
    parseYarnBerryLockfile (fileOf patched).content = [] ∧ ¬ (fileOf patched).Inverted := by
  have read : parseYarnBerryLockfile (fileOf patched).content = [] := by decide +kernel
  have meant : (fileOf patched).entries.filterMap Entry.package =
      [⟨⟨utf8 "typescript", utf8 "5.4.5", utf8 "10c0/abc"⟩, none⟩] := by decide +kernel
  refine ⟨fileOf_valid (release_valid (by decide) (by decide)
    (word_isValue (by decide) (by decide) (by decide) rfl rfl (by decide) (by decide))),
    meant, read, fun inverted => ?_⟩
  have permuted := inverted.2
  rw [read, meant] at permuted
  simpa using permuted.length_eq

end Rage.YarnBerry
