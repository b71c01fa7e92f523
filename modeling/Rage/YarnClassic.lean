import Rage.LockText

/-!
The lockfile of yarn classic as yarn writes it, and what its parser gets back from it.
-/

namespace Rage.YarnClassic

open Lockfile

/-! `parse_yarn_classic_lockfile`. -/

def readBlock (block : List Char) : Option UrlPackage :=
  let block := trim block
  if block = [] ∨ block.head? = some '#' then none
  else
    let fields := (lines block).tail.foldl readField ⟨none, none, none⟩
    match (lines block).head?.bind readName, fields.version with
    | some name, some version =>
        if fields.resolved = none ∧ fields.integrity = none then none
        else some
          { name := toBytes name
            version := toBytes version
            integrity := toBytes (fields.integrity.getD [])
            tarballUrl := fields.resolved.map toBytes }
    | _, _ => none

def readPackages (content : List Char) : List UrlPackage := (splitBlocks content).filterMap readBlock

def parseYarnClassicLockfile (content : List Char) : List UrlPackage :=
  sortPackages (readPackages content)

/-! The lockfile that yarn writes. -/

/-- A string is written in quotes unless it is a plain word. -/
structure Word where
  text : List Char
  quoted : Bool
  deriving DecidableEq

namespace Word

def written (word : Word) : List Char :=
  if word.quoted then '"' :: (word.text ++ ['"']) else word.text

structure Valid (word : Word) : Prop where
  /-- Nothing has to be escaped. -/
  unescaped : ∀ char ∈ word.text, char ≠ '\n' ∧ char ≠ '\r' ∧ char ≠ '"' ∧ char ≠ '\\'
  bare : word.quoted = false → word.text ≠ [] ∧
    ∀ char ∈ word.text, isWhitespace char = false ∧ char ≠ ':' ∧ char ≠ ','

end Word

/-- What follows the name in a specifier, and whether the specifier is quoted. -/
structure Range where
  text : List Char
  quoted : Bool
  deriving DecidableEq

structure Entry where
  name : List Char
  range : Range
  others : List Range
  fields : List (List Char × Word)
  sections : List (List Char × List (Word × Word))
  deriving DecidableEq

/-- A name of a package, of a field or of a section. -/
def IsIdentifier (name : List Char) : Prop :=
  name ≠ [] ∧ ∀ char ∈ name, isWhitespace char = false ∧ char ≠ '"' ∧ char ≠ ',' ∧ char ≠ ':' ∧
    char ≠ '#'

namespace Entry

variable (entry : Entry)

def specifier (range : Range) : Word := ⟨entry.name ++ '@' :: range.text, range.quoted⟩

def keyLine : List Char :=
  (entry.specifier entry.range).written ++
    (entry.others.flatMap fun range => ", ".toList ++ (entry.specifier range).written) ++ [':']

def fieldLine (field : List Char × Word) : List Char :=
  "  ".toList ++ (field.1 ++ ' ' :: field.2.written)

def dependencyLine (dependency : Word × Word) : List Char :=
  "    ".toList ++ (dependency.1.written ++ ' ' :: dependency.2.written)

def sectionLines (section_ : List Char × List (Word × Word)) : List (List Char) :=
  ("  ".toList ++ (section_.1 ++ [':'])) :: section_.2.map dependencyLine

def lines : List (List Char) :=
  entry.keyLine :: (entry.fields.map fieldLine ++ entry.sections.flatMap sectionLines)

def field (key : String) : Option Word := entry.fields.lookup key.toList

def dependencies : List (Word × Word) := entry.sections.flatMap Prod.snd

structure Valid : Prop where
  name : IsIdentifier entry.name
  specifiers : ∀ range ∈ entry.range :: entry.others, (entry.specifier range).Valid
  keys : (entry.fields.map Prod.fst).Nodup
  fields : ∀ field ∈ entry.fields, IsIdentifier field.1 ∧ field.2.Valid
  version : (entry.field "version").isSome
  sections : ∀ section_ ∈ entry.sections, IsIdentifier section_.1 ∧
    ∀ dependency ∈ section_.2, dependency.1.Valid ∧ dependency.2.Valid

/-- The package of an entry that was resolved to something outside of the workspace. -/
def package : Option UrlPackage :=
  match entry.field "version", entry.field "resolved", entry.field "integrity" with
  | none, _, _ => none
  | some _, none, none => none
  | some version, resolved, integrity => some
      { name := toBytes entry.name
        version := toBytes version.text
        integrity := toBytes ((integrity.map Word.text).getD [])
        tarballUrl := resolved.map fun word => toBytes word.text }

end Entry

structure LockFile where
  ending : LineEnding
  header : List (List Char)
  entries : List Entry

namespace LockFile

variable (file : LockFile)

/-- Two empty lines follow the header. -/
def content : List Char :=
  written file.ending (paragraphs file.header ([] :: file.entries.map Entry.lines))

structure Valid : Prop where
  header : file.header ≠ [] ∧ ∀ line ∈ file.header, IsLine line ∧ line.head? = some '#'
  entries : ∀ entry ∈ file.entries, entry.Valid

end LockFile

/-! Words and lines. -/

section Words

variable {word : Word}

theorem quote_stays : isWhitespace '"' = false := by decide

/-- A written word begins and ends with a character that no trimming takes away. -/
theorem Word.Valid.ends (valid : word.Valid) : ∃ first last, word.written.head? = some first ∧
    word.written.getLast? = some last ∧ isWhitespace first = false ∧ isWhitespace last = false := by
  cases isQuoted : word.quoted with
  | true =>
      refine ⟨'"', '"', ?_, ?_, quote_stays, quote_stays⟩
      · simp [Word.written, isQuoted]
      · rw [Word.written, if_pos isQuoted, ← List.cons_append, List.getLast?_concat]
  | false =>
      obtain ⟨filled, plain⟩ := valid.bare isQuoted
      refine ⟨word.text.head filled, word.text.getLast filled, ?_, ?_,
        (plain _ (List.head_mem filled)).1, (plain _ (List.getLast_mem filled)).1⟩
      · simp [Word.written, isQuoted, List.head?_eq_some_head filled]
      · simp [Word.written, isQuoted, List.getLast?_eq_some_getLast filled]

theorem Word.Valid.trim_written (valid : word.Valid) : trim word.written = word.written := by
  obtain ⟨first, last, isFirst, isLast, firstStays, lastStays⟩ := valid.ends
  exact trim_whole isFirst isLast firstStays lastStays

theorem Word.Valid.unquoted (valid : word.Valid) :
    trimMatches (· = '"') (trim word.written) = word.text := by
  have noQuote : ∀ char ∈ word.text, decide (char = '"') = false :=
    fun char member => decide_eq_false (valid.unescaped char member).2.2.1
  rw [valid.trim_written, Word.written]
  split
  · have whole : trimMatches (fun char => decide (char = '"')) (['"'] ++ (word.text ++ ['"'])) =
        word.text := trimMatches_free (by simp) (by simp) noQuote
    exact whole
  · have whole : trimMatches (fun char => decide (char = '"')) ([] ++ (word.text ++ [])) =
        word.text := trimMatches_free (List.forall_mem_nil _) (List.forall_mem_nil _) noQuote
    simpa using whole

end Words

/-! Fields. -/

/-- What a line `key value` does to the fields. -/
def assign (fields : Fields) (pair : List Char × List Char) : Fields :=
  if pair.1 = "version".toList then
    { fields with version := some (trimMatches (· = '"') (trim pair.2)) }
  else if pair.1 = "resolved".toList then
    { fields with resolved := some (trimMatches (· = '"') (trim pair.2)) }
  else if pair.1 = "integrity".toList then { fields with integrity := some (trim pair.2) }
  else fields

/-- The first part of a line is read as a key up to its first space. -/
def IsKey (key : List Char) : Prop := ' ' ∉ key ∨ key.head? = some '"'

theorem stripPrefix_key (start : String) (word : List Char) {key : List Char} (value : List Char)
    (isStart : start.toList = word ++ [' ']) (plain : ' ' ∉ word ∧ word.head? ≠ some '"')
    (isKey : IsKey key) : stripPrefix start (key ++ ' ' :: value) =
      if key = word then some value else none := by
  split
  · rename_i same
    rw [stripPrefix_eq_some, isStart, same]
    simp
  · rename_i different
    cases isRest : stripPrefix start (key ++ ' ' :: value) with
    | none => rfl
    | some rest =>
        rw [stripPrefix_eq_some, isStart, List.append_assoc, List.singleton_append] at isRest
        rcases isKey with free | isQuoted
        · exact (different (Framing.split_at_first free plain.1 isRest).1).elim
        · cases word with
          | nil =>
              obtain ⟨tail, rfl⟩ := List.head?_eq_some_iff.mp isQuoted
              simp at isRest
          | cons char word =>
              obtain ⟨tail, rfl⟩ := List.head?_eq_some_iff.mp isQuoted
              obtain ⟨rfl, -⟩ := List.cons.inj isRest
              exact (plain.2 rfl).elim

theorem readField_pair {fields : Fields} {indent key value : List Char}
    (spaces : ∀ char ∈ indent, isWhitespace char = true) (isKey : IsKey key) {first last : Char}
    (isFirst : key.head? = some first) (isLast : value.getLast? = some last)
    (firstStays : isWhitespace first = false) (lastStays : isWhitespace last = false) :
    readField fields (indent ++ (key ++ ' ' :: value)) = assign fields (key, value) := by
  have filled : key ≠ [] := by
    rintro rfl
    simp at isFirst
  have ends : (key ++ ' ' :: value).getLast? = some last := by
    rw [List.getLast?_append_of_ne_nil _ (by simp), List.getLast?_cons, isLast]
    rfl
  have trimmed : trim (indent ++ ((key ++ ' ' :: value) ++ [])) = key ++ ' ' :: value :=
    trim_core spaces (List.forall_mem_nil _) (by rw [List.head?_append_of_ne_nil _ filled, isFirst])
      ends firstStays lastStays
  rw [List.append_nil] at trimmed
  have version := stripPrefix_key "version " "version".toList value (by decide) (by decide) isKey
  have resolved := stripPrefix_key "resolved " "resolved".toList value (by decide) (by decide) isKey
  have integrity :=
    stripPrefix_key "integrity " "integrity".toList value (by decide) (by decide) isKey
  rw [readField, trimmed, assign, version, resolved, integrity]
  by_cases isVersion : key = "version".toList
  · rw [if_pos isVersion, if_pos isVersion]
  · rw [if_neg isVersion, if_neg isVersion]
    by_cases isResolved : key = "resolved".toList
    · rw [if_pos isResolved, if_pos isResolved]
    · rw [if_neg isResolved, if_neg isResolved]
      by_cases isIntegrity : key = "integrity".toList
      · rw [if_pos isIntegrity, if_pos isIntegrity]
      · rw [if_neg isIntegrity, if_neg isIntegrity]

theorem assign_version (fields : Fields) (pair : List Char × List Char) :
    (assign fields pair).version = if pair.1 = "version".toList then
      some (trimMatches (· = '"') (trim pair.2)) else fields.version := by
  unfold assign
  split
  · rfl
  · split
    · rfl
    · split
      · rfl
      · rfl

theorem assign_resolved (fields : Fields) (pair : List Char × List Char) :
    (assign fields pair).resolved = if pair.1 = "resolved".toList then
      some (trimMatches (· = '"') (trim pair.2)) else fields.resolved := by
  unfold assign
  split
  · rename_i isVersion
    rw [isVersion, if_neg (by decide)]
  · split
    · rfl
    · split
      · rfl
      · rfl

theorem assign_integrity (fields : Fields) (pair : List Char × List Char) :
    (assign fields pair).integrity = if pair.1 = "integrity".toList then some (trim pair.2)
      else fields.integrity := by
  unfold assign
  split
  · rename_i isVersion
    rw [isVersion, if_neg (by decide)]
  · split
    · rename_i isResolved
      rw [isResolved, if_neg (by decide)]
    · split
      · rfl
      · rfl

theorem isWhitespace_space : isWhitespace ' ' = true := by decide

theorem indent_blank : (∀ char ∈ "  ".toList, isWhitespace char = true) ∧
    ∀ char ∈ "    ".toList, isWhitespace char = true :=
  ⟨List.all_eq_true.mp (by decide), List.all_eq_true.mp (by decide)⟩

theorem IsIdentifier.noSpace {name : List Char} (isName : IsIdentifier name) : ' ' ∉ name := by
  intro member
  have plain := (isName.2 ' ' member).1
  rw [isWhitespace_space] at plain
  simp at plain

theorem IsIdentifier.head {name : List Char} (isName : IsIdentifier name) : ∃ first,
    name.head? = some first ∧ isWhitespace first = false ∧ first ≠ '"' ∧ first ≠ '#' := by
  have plain := isName.2 _ (List.head_mem isName.1)
  exact ⟨name.head isName.1, List.head?_eq_some_head isName.1, plain.1, plain.2.1, plain.2.2.2.2⟩

theorem Word.Valid.isKey {word : Word} (valid : word.Valid) : IsKey word.written := by
  cases isQuoted : word.quoted with
  | true => exact Or.inr (by simp [Word.written, isQuoted])
  | false =>
      refine Or.inl fun member => ?_
      rw [Word.written, isQuoted, if_neg Bool.false_ne_true] at member
      have plain := ((valid.bare isQuoted).2 ' ' member).1
      rw [isWhitespace_space] at plain
      simp at plain

theorem IsIdentifier.noNewline {name : List Char} (isName : IsIdentifier name) : '\n' ∉ name := by
  intro member
  have plain := (isName.2 _ member).1
  revert plain
  decide

theorem Word.Valid.noNewline {word : Word} (valid : word.Valid) : '\n' ∉ word.written := by
  have free : '\n' ∉ word.text := fun member => (valid.unescaped _ member).1 rfl
  unfold Word.written
  split
  · simp [free]
  · exact free

theorem readField_title {fields : Fields} {title : List Char} (isTitle : IsIdentifier title) :
    readField fields ("  ".toList ++ (title ++ [':'])) = fields := by
  obtain ⟨first, isFirst, firstStays, _⟩ := isTitle.head
  have trimmed : trim ("  ".toList ++ ((title ++ [':']) ++ [])) = title ++ [':'] :=
    trim_core indent_blank.1 (List.forall_mem_nil _)
      (by rw [List.head?_append_of_ne_nil _ isTitle.1, isFirst]) List.getLast?_concat firstStays
      (by decide)
  rw [List.append_nil] at trimmed
  have noSpace : ' ' ∉ title ++ [':'] := by
    rw [List.mem_append, not_or]
    exact ⟨isTitle.noSpace, by decide⟩
  have version : stripPrefix "version " (title ++ [':']) = none :=
    stripPrefix_of_free (by decide) noSpace
  have resolved : stripPrefix "resolved " (title ++ [':']) = none :=
    stripPrefix_of_free (by decide) noSpace
  have integrity : stripPrefix "integrity " (title ++ [':']) = none :=
    stripPrefix_of_free (by decide) noSpace
  rw [readField, trimmed, version, resolved, integrity]

/-! What the parser reads of an entry. -/

namespace Entry

variable (entry : Entry)

def pairs : List (List Char × List Char) :=
  entry.fields.map (fun field => (field.1, field.2.written)) ++
    entry.dependencies.map fun dependency => (dependency.1.written, dependency.2.written)

/-- What the last dependency whose name is written like a key says about its range. -/
def mistaken (key : String) : Option Word :=
  lastOf key.toList (entry.dependencies.map fun dependency => (dependency.1.written, dependency.2))

def said (key : String) : Option Word := (entry.mistaken key).or (entry.field key)

theorem foldl_sections {sections : List (List Char × List (Word × Word))}
    (valid : ∀ section_ ∈ sections, IsIdentifier section_.1 ∧
      ∀ dependency ∈ section_.2, dependency.1.Valid ∧ dependency.2.Valid) (fields : Fields) :
    (sections.flatMap sectionLines).foldl readField fields =
      ((sections.flatMap Prod.snd).map fun dependency =>
        (dependency.1.written, dependency.2.written)).foldl assign fields := by
  have dependencies {listed : List (Word × Word)}
      (valid : ∀ dependency ∈ listed, dependency.1.Valid ∧ dependency.2.Valid) (fields : Fields) :
      (listed.map dependencyLine).foldl readField fields =
        (listed.map fun dependency => (dependency.1.written, dependency.2.written)).foldl
          assign fields := by
    induction listed generalizing fields with
    | nil => rfl
    | cons dependency listed ih =>
        obtain ⟨nameValid, rangeValid⟩ := valid dependency (by simp)
        obtain ⟨first, _, isFirst, _, firstStays, _⟩ := nameValid.ends
        obtain ⟨_, last, _, isLast, _, lastStays⟩ := rangeValid.ends
        have here : readField fields (dependencyLine dependency) =
            assign fields (dependency.1.written, dependency.2.written) :=
          readField_pair indent_blank.2 nameValid.isKey isFirst isLast firstStays lastStays
        rw [List.map_cons, List.foldl_cons, List.map_cons, List.foldl_cons, here]
        exact ih (fun other member => valid other (List.mem_cons_of_mem _ member)) _
  induction sections generalizing fields with
  | nil => rfl
  | cons section_ sections ih =>
      obtain ⟨isTitle, depsValid⟩ := valid section_ (by simp)
      rw [List.flatMap_cons, List.foldl_append, List.flatMap_cons, List.map_append,
        List.foldl_append, sectionLines, List.foldl_cons, readField_title isTitle,
        dependencies depsValid]
      exact ih (fun other member => valid other (List.mem_cons_of_mem _ member)) _

variable {entry}

theorem Valid.foldl_lines (valid : entry.Valid) (fields : Fields) :
    entry.lines.tail.foldl readField fields = entry.pairs.foldl assign fields := by
  have ownFields {listed : List (List Char × Word)}
      (listedValid : ∀ field ∈ listed, IsIdentifier field.1 ∧ field.2.Valid) (fields : Fields) :
      (listed.map fieldLine).foldl readField fields =
        (listed.map fun field => (field.1, field.2.written)).foldl assign fields := by
    induction listed generalizing fields with
    | nil => rfl
    | cons field listed ih =>
        obtain ⟨isName, valueValid⟩ := listedValid field (by simp)
        obtain ⟨first, isFirst, firstStays, _⟩ := isName.head
        obtain ⟨_, last, _, isLast, _, lastStays⟩ := valueValid.ends
        have here : readField fields (fieldLine field) = assign fields (field.1, field.2.written) :=
          readField_pair indent_blank.1 (Or.inl isName.noSpace) isFirst isLast firstStays lastStays
        rw [List.map_cons, List.foldl_cons, List.map_cons, List.foldl_cons, here]
        exact ih (fun other member => listedValid other (List.mem_cons_of_mem _ member)) _
  rw [lines, List.tail_cons, List.foldl_append, ownFields valid.fields,
    foldl_sections valid.sections, pairs, List.foldl_append, dependencies]

theorem lastOf_pairs (valid : entry.Valid) (key : String) :
    lastOf key.toList entry.pairs = (entry.said key).map Word.written := by
  have inner : entry.dependencies.map (fun dependency =>
      (dependency.1.written, dependency.2.written)) =
      (entry.dependencies.map fun dependency => (dependency.1.written, dependency.2)).map
        fun pair => (pair.1, pair.2.written) := by simp
  rw [pairs, lastOf_append, lastOf_map _ Word.written, lastOf_distinct valid.keys, inner,
    lastOf_map _ Word.written, said, Option.map_or]
  rfl

theorem said_valid (valid : entry.Valid) {key : String} {word : Word}
    (isSaid : entry.said key = some word) : word.Valid := by
  rcases Option.or_eq_some_iff.mp isSaid with mistaken | ⟨-, own⟩
  · obtain ⟨pair, isLast, rfl⟩ := Option.map_eq_some_iff.mp mistaken
    have member := (List.mem_filter.mp (List.mem_of_getLast? isLast)).1
    obtain ⟨dependency, listed, rfl⟩ := List.mem_map.mp member
    obtain ⟨section_, isSection, within⟩ := List.mem_flatMap.mp listed
    exact ((valid.sections section_ isSection).2 dependency within).2
  · obtain ⟨before, after, isFields, -⟩ := List.lookup_eq_some_iff.mp own
    exact (valid.fields (key.toList, word) (by simp [isFields])).2

theorem unquote_said (valid : entry.Valid) (key : String) :
    ((entry.said key).map Word.written).map (fun text => trimMatches (· = '"') (trim text)) =
      (entry.said key).map Word.text := by
  cases isSaid : entry.said key with
  | none => rfl
  | some word => exact congrArg some (said_valid valid isSaid).unquoted

theorem trim_said (valid : entry.Valid) (key : String) :
    ((entry.said key).map Word.written).map trim = (entry.said key).map Word.written := by
  cases isSaid : entry.said key with
  | none => rfl
  | some word => exact congrArg some (said_valid valid isSaid).trim_written

/-- Of each field the parser keeps what is said last. -/
theorem Valid.fields_read (valid : entry.Valid) :
    entry.lines.tail.foldl readField ⟨none, none, none⟩ =
      ⟨(entry.said "version").map Word.text, (entry.said "resolved").map Word.text,
        (entry.said "integrity").map Word.written⟩ := by
  rw [valid.foldl_lines]
  have version := foldl_lastOf Fields.version "version".toList
    (fun text => trimMatches (· = '"') (trim text)) assign_version entry.pairs ⟨none, none, none⟩
  have resolved := foldl_lastOf Fields.resolved "resolved".toList
    (fun text => trimMatches (· = '"') (trim text)) assign_resolved entry.pairs ⟨none, none, none⟩
  have integrity := foldl_lastOf Fields.integrity "integrity".toList trim assign_integrity
    entry.pairs ⟨none, none, none⟩
  rw [lastOf_pairs valid, unquote_said valid, Option.or_none] at version resolved
  rw [lastOf_pairs valid, trim_said valid, Option.or_none] at integrity
  rw [← version, ← resolved, ← integrity]

/-! The name. -/

/-- Where a specifier is cut off: at its first comma. -/
def nameClear (entry : Entry) : Prop := '@' ∉ entry.range.text.takeWhile (· ≠ ',')

instance (entry : Entry) : Decidable entry.nameClear := by
  unfold nameClear
  infer_instance

theorem keyLine_split (entry : Entry) : ∃ quote rest,
    entry.keyLine = quote ++ (entry.name ++ '@' :: rest) ∧ (quote = [] ∨ quote = ['"']) ∧
      ('@' ∈ rest.takeWhile (· ≠ ',') ↔ '@' ∈ entry.range.text.takeWhile (· ≠ ',')) := by
  have behind {ending : List Char} (plain : '@' ∉ ending.takeWhile (· ≠ ',')) :
      '@' ∈ (entry.range.text ++ ending).takeWhile (· ≠ ',') ↔
        '@' ∈ entry.range.text.takeWhile (· ≠ ',') := by
    rw [List.takeWhile_append]
    split
    · rename_i whole
      have same : entry.range.text.takeWhile (· ≠ ',') = entry.range.text :=
        (List.takeWhile_prefix _).eq_of_length whole
      rw [List.mem_append, same]
      exact or_iff_left plain
    · rfl
  have others : ∃ tail, (entry.others.flatMap fun range =>
      ", ".toList ++ (entry.specifier range).written) ++ [':'] = tail ∧
        (tail.head? = some ',' ∨ tail = [':']) := by
    refine ⟨_, rfl, ?_⟩
    cases entry.others with
    | nil => exact Or.inr rfl
    | cons range others => exact Or.inl rfl
  obtain ⟨tail, isTail, ends⟩ := others
  have plainTail (quote : List Char) (isQuote : quote = [] ∨ quote = ['"']) :
      '@' ∉ (quote ++ tail).takeWhile (· ≠ ',') := by
    rcases ends with isComma | rfl
    · obtain ⟨more, rfl⟩ := List.head?_eq_some_iff.mp isComma
      rcases isQuote with rfl | rfl
      · simp
      · simp
    · rcases isQuote with rfl | rfl
      · decide
      · decide
  rw [keyLine, List.append_assoc, isTail, Word.written, specifier]
  cases isQuoted : entry.range.quoted with
  | true =>
      refine ⟨['"'], entry.range.text ++ (['"'] ++ tail), by simp, Or.inr rfl,
        behind (plainTail _ (Or.inr rfl))⟩
  | false =>
      refine ⟨[], entry.range.text ++ ([] ++ tail), by simp, Or.inl rfl,
        behind (plainTail _ (Or.inl rfl))⟩

theorem Valid.keyLine_head (valid : entry.Valid) : ∃ char, entry.keyLine.head? = some char ∧
    isWhitespace char = false ∧ char ≠ '#' := by
  obtain ⟨quote, rest, isLine, isQuote, _⟩ := keyLine_split entry
  obtain ⟨first, isFirst, firstStays, _, notHash⟩ := valid.name.head
  rw [isLine]
  rcases isQuote with rfl | rfl
  · exact ⟨first, by rw [List.nil_append, List.head?_append_of_ne_nil _ valid.name.1, isFirst],
      firstStays, notHash⟩
  · exact ⟨'"', rfl, quote_stays, by decide⟩

/-- The name is read up to the last at-sign of the first specifier. -/
theorem Valid.readName_keyLine (valid : entry.Valid) : ∃ name,
    readName entry.keyLine = some name ∧ (name = entry.name ↔ entry.nameClear) := by
  obtain ⟨quote, rest, isLine, isQuote, clear⟩ := keyLine_split entry
  obtain ⟨first, isFirst, firstStays, notQuote, _⟩ := valid.name.head
  have noComma : ∀ char ∈ entry.name, decide (char ≠ ',') = true :=
    fun char member => decide_eq_true (valid.name.2 char member).2.2.1
  have lineEnds : entry.keyLine.getLast? = some ':' := by
    rw [keyLine, List.getLast?_concat]
  obtain ⟨start, isStart, startStays, _⟩ := valid.keyLine_head
  have trimmed : trim entry.keyLine = entry.keyLine :=
    trim_whole isStart lineEnds startStays (by decide)
  have noColons : trimEndMatches (· = ':') entry.keyLine =
      quote ++ (entry.name ++ '@' :: trimEndMatches (· = ':') rest) := by
    rw [isLine, ← List.append_assoc, trimEndMatches_keep (by decide), List.append_assoc]
  have unquoted (tail : List Char) : trimMatches (· = '"') (quote ++ (entry.name ++ '@' :: tail)) =
      entry.name ++ '@' :: trimEndMatches (· = '"') tail := by
    have dropped : ∀ char ∈ quote, decide (char = '"') = true := by
      rcases isQuote with rfl | rfl
      · simp
      · simp
    rw [trimMatches, List.dropWhile_append_of_pos dropped, ← trimMatches]
    exact trimMatches_keep isFirst (by simpa using notQuote) (by decide)
  have spec : ∃ tail, trimMatches (· = '"') (trim (((trimMatches (· = '"')
      (trimEndMatches (· = ':') (trim entry.keyLine))).splitOn ',').headD [])) =
        entry.name ++ '@' :: tail ∧ ('@' ∈ tail ↔ '@' ∈ rest.takeWhile (· ≠ ',')) := by
    rw [trimmed, noColons, unquoted, headD_splitOn, List.takeWhile_append_of_pos noComma,
      List.takeWhile_cons_of_pos (by decide), trim, trimMatches_keep isFirst firstStays (by decide),
      trimMatches_keep isFirst (by simpa using notQuote) (by decide)]
    refine ⟨_, rfl, ?_⟩
    rw [mem_trimEndMatches (by decide), mem_trimEndMatches (by decide),
      mem_takeWhile_trimEndMatches (by decide) (by decide),
      mem_takeWhile_trimEndMatches (by decide) (by decide)]
  obtain ⟨tail, isSpec, member⟩ := spec
  have read : readName entry.keyLine = beforeLast '@' (entry.name ++ '@' :: tail) := by
    rw [readName, isSpec]
  obtain ⟨name, isName⟩ := beforeLast_of_mem (List.mem_append_right entry.name
    (List.mem_cons_self (a := '@') (l := tail)))
  have whole : beforeLast '@' (entry.name ++ '@' :: tail) = some entry.name ↔ '@' ∉ tail :=
    beforeLast_eq_iff
  refine ⟨name, read.trans isName, ?_⟩
  rw [nameClear, ← clear, ← member, ← whole, isName, Option.some.injEq]

/-! Blocks. -/

theorem Valid.keyLine_free (valid : entry.Valid) : '\n' ∉ entry.keyLine := by
  intro member
  rw [keyLine, List.mem_append, List.mem_append] at member
  rcases member with (first | others) | colon
  · exact (valid.specifiers entry.range (by simp)).noNewline first
  · obtain ⟨range, listed, within⟩ := List.mem_flatMap.mp others
    rcases List.mem_append.mp within with comma | inSpecifier
    · revert comma
      decide
    · exact (valid.specifiers range (List.mem_cons_of_mem _ listed)).noNewline inSpecifier
  · revert colon
    decide

theorem Valid.solid (valid : entry.Valid) : Solid entry.lines where
  starts := by
    obtain ⟨char, isChar, stays, _⟩ := valid.keyLine_head
    exact ⟨char, isChar, stays⟩
  free := by
    intro line member
    rcases List.mem_cons.mp member with rfl | later
    · exact valid.keyLine_free
    · rcases List.mem_append.mp later with inFields | inSections
      · obtain ⟨field, listed, rfl⟩ := List.mem_map.mp inFields
        obtain ⟨isName, valueValid⟩ := valid.fields field listed
        simp [fieldLine, isName.noNewline, valueValid.noNewline]
      · obtain ⟨section_, listed, within⟩ := List.mem_flatMap.mp inSections
        obtain ⟨isTitle, depsValid⟩ := valid.sections section_ listed
        rcases List.mem_cons.mp within with rfl | inDeps
        · simp [isTitle.noNewline]
        · obtain ⟨dependency, isListed, rfl⟩ := List.mem_map.mp inDeps
          obtain ⟨nameValid, rangeValid⟩ := depsValid dependency isListed
          simp [dependencyLine, nameValid.noNewline, rangeValid.noNewline]
  ends := by
    have ofWord {front : List Char} {word : Word} (wordValid : word.Valid) :
        ∃ last, (front ++ ' ' :: word.written).getLast? = some last ∧
          isWhitespace last = false := by
      obtain ⟨_, last, _, isLast, _, lastStays⟩ := wordValid.ends
      refine ⟨last, ?_, lastStays⟩
      rw [List.getLast?_append, List.getLast?_cons, isLast]
      rfl
    intro line member
    rcases List.mem_cons.mp member with rfl | later
    · exact ⟨':', by rw [keyLine, List.getLast?_concat], by decide⟩
    · rcases List.mem_append.mp later with inFields | inSections
      · obtain ⟨field, listed, rfl⟩ := List.mem_map.mp inFields
        rw [fieldLine, ← List.append_assoc]
        exact ofWord (valid.fields field listed).2
      · obtain ⟨section_, listed, within⟩ := List.mem_flatMap.mp inSections
        obtain ⟨isTitle, depsValid⟩ := valid.sections section_ listed
        rcases List.mem_cons.mp within with rfl | inDeps
        · exact ⟨':', by rw [← List.append_assoc, List.getLast?_concat], by decide⟩
        · obtain ⟨dependency, isListed, rfl⟩ := List.mem_map.mp inDeps
          rw [dependencyLine, ← List.append_assoc]
          exact ofWord (depsValid dependency isListed).2

/-- The name that the parser reads. -/
def readName (entry : Entry) : List Char := (Lockfile.readName entry.keyLine).getD []

/-- What the parser makes of an entry. -/
def parsed (entry : Entry) : Option UrlPackage :=
  match entry.said "version", entry.said "resolved", entry.said "integrity" with
  | none, _, _ => none
  | some _, none, none => none
  | some version, resolved, integrity => some
      { name := toBytes entry.readName
        version := toBytes version.text
        integrity := toBytes ((integrity.map Word.written).getD [])
        tarballUrl := resolved.map fun word => toBytes word.text }

theorem Valid.readBlock_eq (valid : entry.Valid) (ending : LineEnding) :
    readBlock (joined ending entry.lines) = entry.parsed := by
  obtain ⟨name, isName, _⟩ := valid.readName_keyLine
  have isRead : entry.readName = name := by rw [readName, isName]; rfl
  have notHeader : ¬ (joined ending entry.lines = [] ∨
      (joined ending entry.lines).head? = some '#') := by
    obtain ⟨char, isChar, _, notHash⟩ := valid.keyLine_head
    have isHead : (joined ending entry.lines).head? = some char :=
      valid.solid.joined_head.trans isChar
    rintro (isNil | isHash)
    · simp [isNil] at isHead
    · exact notHash (Option.some.inj (isHead.symm.trans isHash))
  have isKeyLine : entry.lines.head? = some entry.keyLine := rfl
  simp only [readBlock, valid.solid.trim_joined, valid.solid.lines_joined, if_neg notHeader,
    isKeyLine, Option.bind_some, isName, valid.fields_read, parsed, isRead]
  cases entry.said "version" with
  | none => rfl
  | some version =>
      cases entry.said "resolved" with
      | none =>
          cases entry.said "integrity" with
          | none => rfl
          | some integrity => rfl
      | some resolved => simp

/-! When the parser reads the entry as it was written. -/

/-- The entry was resolved to something outside of the workspace. -/
def Resolved (entry : Entry) : Prop :=
  (entry.field "resolved").isSome ∨ (entry.field "integrity").isSome

/-- A dependency that is written like a field is taken for the field.  Names are cut off at the last
at-sign, and the integrity keeps its quotes. -/
structure Faithful (entry : Entry) : Prop where
  name : entry.Resolved → entry.nameClear
  version : entry.Resolved → ∀ range, entry.mistaken "version" = some range →
    (entry.field "version").map Word.text = some range.text
  resolved : ∀ range, entry.mistaken "resolved" = some range →
    (entry.field "resolved").map Word.text = some range.text
  integrity : ∀ range, entry.mistaken "integrity" = some range →
    (entry.field "integrity").map Word.text = some range.written
  unquoted : ∀ own, entry.mistaken "integrity" = none → entry.field "integrity" = some own →
    own.quoted = false

/-- What is said, as the field says it. -/
theorem said_text_iff {key : String} : (entry.said key).map Word.text =
    (entry.field key).map Word.text ↔
      ∀ range, entry.mistaken key = some range →
        (entry.field key).map Word.text = some range.text := by
  rw [said]
  cases entry.mistaken key with
  | none => simp
  | some range =>
      simp only [Option.some_or, Option.map_some, Option.some.injEq, forall_eq']
      exact eq_comm

theorem said_written_iff (valid : entry.Valid) : (entry.said "integrity").map Word.written =
    (entry.field "integrity").map Word.text ↔
      (∀ range, entry.mistaken "integrity" = some range →
        (entry.field "integrity").map Word.text = some range.written) ∧
      ∀ own, entry.mistaken "integrity" = none → entry.field "integrity" = some own →
        own.quoted = false := by
  rw [said]
  cases entry.mistaken "integrity" with
  | some range =>
      simp only [Option.some_or, Option.map_some, Option.some.injEq, forall_eq', reduceCtorEq,
        false_implies, implies_true, and_true]
      exact eq_comm
  | none =>
      cases isOwn : entry.field "integrity" with
      | none => simp
      | some own =>
          have noQuote : '"' ∉ own.text := by
            obtain ⟨before, after, isFields, -⟩ := List.lookup_eq_some_iff.mp isOwn
            have ownValid := (valid.fields ("integrity".toList, own) (by simp [isFields])).2
            exact fun member => (ownValid.unescaped _ member).2.2.1 rfl
          simp only [Option.none_or, Option.map_some, Option.some.injEq, reduceCtorEq,
            false_implies, implies_true, true_and, forall_const, forall_eq']
          cases isQuoted : own.quoted with
          | true =>
              refine iff_of_false (fun same => noQuote ?_) (by simp)
              rw [← same, Word.written, isQuoted]
              simp
          | false => simp [Word.written, isQuoted]

theorem Valid.written_ne_nil (valid : entry.Valid) {key : String} {word : Word}
    (isSaid : entry.said key = some word) : word.written ≠ [] := by
  obtain ⟨first, _, isFirst, _⟩ := (said_valid valid isSaid).ends
  rintro isNil
  simp [isNil] at isFirst

/-- The packages of one entry are compared field by field. -/
theorem package_fields_iff (valid : entry.Valid) {version latest : Word}
    (isVersion : entry.field "version" = some version)
    (isSaid : entry.said "version" = some latest) :
    (⟨⟨toBytes entry.readName, toBytes latest.text,
        toBytes (((entry.said "integrity").map Word.written).getD [])⟩,
        (entry.said "resolved").map fun word => toBytes word.text⟩ : UrlPackage) =
      ⟨⟨toBytes entry.name, toBytes version.text,
        toBytes (((entry.field "integrity").map Word.text).getD [])⟩,
        (entry.field "resolved").map fun word => toBytes word.text⟩ ↔
    entry.nameClear ∧ (entry.said "version").map Word.text = (entry.field "version").map Word.text ∧
      (entry.said "integrity").map Word.written = (entry.field "integrity").map Word.text ∧
      (entry.said "resolved").map Word.text = (entry.field "resolved").map Word.text := by
  obtain ⟨name, isName, clear⟩ := valid.readName_keyLine
  have isRead : entry.readName = name := by rw [readName, isName]; rfl
  have integrity : ((entry.said "integrity").map Word.written).getD [] =
      ((entry.field "integrity").map Word.text).getD [] ↔
        (entry.said "integrity").map Word.written = (entry.field "integrity").map Word.text := by
    cases isOwn : entry.field "integrity" with
    | none =>
        cases isIntegrity : entry.said "integrity" with
        | none => simp
        | some word => simpa using valid.written_ne_nil isIntegrity
    | some own =>
        cases isIntegrity : entry.said "integrity" with
        | none => simp [said, isOwn] at isIntegrity
        | some word => simp
  have resolved : ((entry.said "resolved").map fun word => toBytes word.text) =
      ((entry.field "resolved").map fun word => toBytes word.text) ↔
        (entry.said "resolved").map Word.text = (entry.field "resolved").map Word.text := by
    cases entry.said "resolved" with
    | none => cases entry.field "resolved" <;> simp
    | some word =>
        cases entry.field "resolved" with
        | none => simp
        | some own => simp [toBytes_inj]
  rw [UrlPackage.mk.injEq, LockfilePackage.mk.injEq, toBytes_inj, toBytes_inj, toBytes_inj,
    integrity, resolved, isRead, clear, isVersion, isSaid, Option.map_some, Option.map_some, Option.some.injEq, and_assoc,
    and_assoc]

theorem parsed_eq_package_iff (valid : entry.Valid) :
    entry.parsed = entry.package ↔ entry.Faithful := by
  obtain ⟨version, isVersion⟩ := Option.isSome_iff_exists.mp valid.version
  obtain ⟨latest, isSaid⟩ : ∃ latest, entry.said "version" = some latest := by
    rw [said, isVersion]
    cases entry.mistaken "version" with
    | none => exact ⟨version, rfl⟩
    | some range => exact ⟨range, rfl⟩
  have isParsed : entry.parsed =
      if entry.said "resolved" = none ∧ entry.said "integrity" = none then none else some
        ⟨⟨toBytes entry.readName, toBytes latest.text,
          toBytes (((entry.said "integrity").map Word.written).getD [])⟩,
          (entry.said "resolved").map fun word => toBytes word.text⟩ := by
    rw [parsed, isSaid]
    cases entry.said "resolved" with
    | none => cases entry.said "integrity" <;> rfl
    | some resolved => rfl
  have isPackage : entry.package =
      if entry.field "resolved" = none ∧ entry.field "integrity" = none then none else some
        ⟨⟨toBytes entry.name, toBytes version.text,
          toBytes (((entry.field "integrity").map Word.text).getD [])⟩,
          (entry.field "resolved").map fun word => toBytes word.text⟩ := by
    rw [package, isVersion]
    cases entry.field "resolved" with
    | none => cases entry.field "integrity" <;> rfl
    | some resolved => rfl
  have absent (key : String) : entry.said key = none ↔
      entry.mistaken key = none ∧ entry.field key = none := Option.or_eq_none_iff
  rw [isParsed, isPackage]
  by_cases local_ : entry.field "resolved" = none ∧ entry.field "integrity" = none
  · have notResolved : ¬ entry.Resolved := by simp [Resolved, local_]
    rw [if_pos local_]
    simp only [absent, local_, and_true, ite_eq_left_iff, reduceCtorEq, imp_false, Decidable.not_not]
    constructor
    · rintro ⟨noResolved, noIntegrity⟩
      refine ⟨fun isResolved => (notResolved isResolved).elim,
        fun isResolved => (notResolved isResolved).elim, ?_, ?_, ?_⟩
      · simp [noResolved]
      · simp [noIntegrity]
      · simp [local_]
    · intro faithful
      constructor
      · refine Option.eq_none_iff_forall_ne_some.mpr fun range isRange => ?_
        simpa [local_] using faithful.resolved range isRange
      · refine Option.eq_none_iff_forall_ne_some.mpr fun range isRange => ?_
        simpa [local_] using faithful.integrity range isRange
  · have isResolved : entry.Resolved := by
      simpa [Resolved, Option.isSome_iff_ne_none, imp_iff_not_or] using local_
    have alsoSaid : ¬ (entry.said "resolved" = none ∧ entry.said "integrity" = none) := by
      rw [absent, absent]
      exact fun both => local_ ⟨both.1.2, both.2.2⟩
    rw [if_neg local_, if_neg alsoSaid, Option.some.injEq, package_fields_iff valid isVersion isSaid,
      said_text_iff, said_written_iff valid, said_text_iff]
    constructor
    · rintro ⟨clear, versions, ⟨integrities, unquoted⟩, resolved⟩
      exact ⟨fun _ => clear, fun _ => versions, resolved, integrities, unquoted⟩
    · intro faithful
      exact ⟨faithful.name isResolved, faithful.version isResolved,
        ⟨faithful.integrity, faithful.unquoted⟩, faithful.resolved⟩

end Entry

/-! The whole file. -/

theorem readBlock_trims : Trims readBlock where
  trims := by
    intro first second same
    rw [readBlock, same, ← readBlock]
  empty := rfl

theorem readBlock_header {block : List Char} (isHash : block.head? = some '#') :
    readBlock block = none := by
  rw [readBlock, if_pos (Or.inr (trim_head isHash (by decide)))]

namespace LockFile

variable {file : LockFile}

/-- Between carriage returns the header and all entries are one comment. -/
def Faithful (file : LockFile) : Prop :=
  match file.ending with
  | .lf => ∀ entry ∈ file.entries, entry.Faithful
  | .crlf => ∀ entry ∈ file.entries, ¬ entry.Resolved

theorem package_eq_none_iff {entry : Entry} (valid : entry.Valid) :
    entry.package = none ↔ ¬ entry.Resolved := by
  obtain ⟨version, isVersion⟩ := Option.isSome_iff_exists.mp valid.version
  rw [Entry.package, isVersion, Entry.Resolved]
  cases entry.field "resolved" with
  | none => cases entry.field "integrity" <;> simp
  | some resolved => simp

theorem package_of_parsed {entry : Entry} (valid : entry.Valid) (kept : entry.package.isSome) :
    entry.parsed.isSome := by
  have isResolved : entry.Resolved := by
    by_contra local_
    rw [(package_eq_none_iff valid).mpr local_] at kept
    simp at kept
  obtain ⟨version, isVersion⟩ := Option.isSome_iff_exists.mp valid.version
  have isSaid {key : String} (own : (entry.field key).isSome) : (entry.said key).isSome := by
    rw [Entry.said, Option.isSome_or, own, Bool.or_true]
  obtain ⟨latest, isLatest⟩ := Option.isSome_iff_exists.mp (isSaid valid.version)
  rw [Entry.parsed, isLatest]
  rcases isResolved with resolved | integrity
  · obtain ⟨word, isWord⟩ := Option.isSome_iff_exists.mp (isSaid resolved)
    rw [isWord]
    rfl
  · obtain ⟨word, isWord⟩ := Option.isSome_iff_exists.mp (isSaid integrity)
    rw [isWord]
    cases entry.said "resolved" <;> rfl

theorem Valid.paragraphs (valid : file.Valid) :
    ∀ paragraph ∈ file.header :: [] :: file.entries.map Entry.lines,
      ∀ line ∈ paragraph, line ≠ [] ∧ '\n' ∉ line := by
  intro paragraph member line within
  rcases List.mem_cons.mp member with rfl | later
  · obtain ⟨isLine, isHash⟩ := valid.header.2 line within
    refine ⟨?_, isLine.1⟩
    rintro rfl
    simp at isHash
  · rcases List.mem_cons.mp later with rfl | inEntries
    · simp at within
    · obtain ⟨entry, listed, rfl⟩ := List.mem_map.mp inEntries
      have solid := (valid.entries entry listed).solid
      exact ⟨fun isNil => solid.noEmpty (isNil ▸ within), solid.free line within⟩

theorem Valid.free (valid : file.Valid) :
    ∀ line ∈ Lockfile.paragraphs file.header ([] :: file.entries.map Entry.lines), '\n' ∉ line := by
  intro line member
  rcases List.mem_append.mp member with inHeader | inRest
  · exact (valid.paragraphs _ List.mem_cons_self line inHeader).2
  · obtain ⟨paragraph, listed, within⟩ := List.mem_flatMap.mp inRest
    rcases List.mem_cons.mp within with rfl | inParagraph
    · simp
    · exact (valid.paragraphs paragraph (List.mem_cons_of_mem _ listed) line inParagraph).2

theorem Valid.header_head (valid : file.Valid) (ending : LineEnding) :
    (joined ending file.header).head? = some '#' ∧ file.content.head? = some '#' := by
  obtain ⟨filled, isHeader⟩ := valid.header
  obtain ⟨line, rest, isLines⟩ := List.exists_cons_of_ne_nil filled
  have isHash := (isHeader line (by simp [isLines])).2
  obtain ⟨tail, rfl⟩ := List.head?_eq_some_iff.mp isHash
  constructor
  · rw [isLines]
    cases rest with
    | nil => rfl
    | cons next rest => rfl
  · rw [content, Lockfile.paragraphs, isLines, List.cons_append, written_cons]
    rfl

theorem Valid.readPackages_eq (valid : file.Valid) : readPackages file.content =
    match file.ending with
    | .lf => file.entries.filterMap Entry.parsed
    | .crlf => [] := by
  cases isEnding : file.ending with
  | lf =>
      have noEmpty : ∀ paragraph ∈ file.header :: [] :: file.entries.map Entry.lines,
          [] ∉ paragraph :=
        fun paragraph member within => (valid.paragraphs paragraph member [] within).1 rfl
      have nothing : readBlock (joined .lf []) = none := rfl
      have skipped := readBlock_header (valid.header_head .lf).1
      rw [readPackages, content, isEnding, blocks_written readBlock_trims valid.free,
        splitOn_paragraphs noEmpty, List.filterMap_cons, List.filterMap_cons]
      simp only [skipped, nothing, List.filterMap_map]
      refine List.filterMap_congr fun entry member => ?_
      exact (valid.entries entry member).readBlock_eq .lf
  | crlf =>
      have isHash := (valid.header_head .crlf).2
      rw [content, isEnding] at isHash
      rw [readPackages, content, isEnding, blocks_crlf valid.free,
        List.filterMap_cons_none (readBlock_header isHash)]
      rfl

/-- One package for each entry, as it was written, before those of one name and version are merged. -/
theorem yarn_classic_inverts_iff (file : LockFile) (valid : file.Valid) :
    (readPackages file.content = file.entries.filterMap Entry.package ∧
      parseYarnClassicLockfile file.content =
        sortPackages (file.entries.filterMap Entry.package)) ↔ file.Faithful := by
  have merged : (readPackages file.content = file.entries.filterMap Entry.package ∧
      parseYarnClassicLockfile file.content =
        sortPackages (file.entries.filterMap Entry.package)) ↔
      readPackages file.content = file.entries.filterMap Entry.package :=
    and_iff_left_of_imp fun same => by rw [parseYarnClassicLockfile, same]
  rw [merged, valid.readPackages_eq, Faithful]
  cases file.ending with
  | lf =>
      refine (filterMap_eq_iff fun entry member =>
        package_of_parsed (valid.entries entry member)).trans ?_
      exact forall₂_congr fun entry member =>
        Entry.parsed_eq_package_iff (valid.entries entry member)
  | crlf =>
      refine eq_comm.trans (List.filterMap_eq_nil_iff.trans ?_)
      exact forall₂_congr fun entry member => package_eq_none_iff (valid.entries entry member)

end LockFile

/-! The packages without their URLs. -/

theorem readBlock_package (block : List Char) :
    (readBlock block).map UrlPackage.toLockfilePackage = parseBlock block := by
  simp only [readBlock, parseBlock]
  split
  · rfl
  · cases (lines (trim block)).head?.bind readName with
    | none => rfl
    | some name =>
        cases ((lines (trim block)).tail.foldl readField ⟨none, none, none⟩).version with
        | none => rfl
        | some version =>
            simp only
            split
            · rfl
            · rfl

theorem dedupBy_map {α β : Type} (value : α → β) {same : α → α → Bool} {sameValue : β → β → Bool}
    (agrees : ∀ x y, same x y = sameValue (value x) (value y)) (xs : List α) :
    (dedupBy same xs).map value = dedupBy sameValue (xs.map value) := by
  have from_ (kept : α) (xs : List α) : (dedupFrom same kept xs).map value =
      dedupFrom sameValue (value kept) (xs.map value) := by
    induction xs generalizing kept with
    | nil => rfl
    | cons x xs ih =>
        rw [dedupFrom, List.map_cons, dedupFrom, ← agrees]
        split
        · exact ih kept
        · rw [List.map_cons, ih]
  cases xs with
  | nil => rfl
  | cons x xs => exact congrArg (value x :: ·) (from_ x xs)

theorem parse_packages (content : String) :
    (parseYarnClassicLockfile content.toList).map UrlPackage.toLockfilePackage =
      Lockfile.parseYarnClassicLockfile content := by
  have read : (readPackages content.toList).map UrlPackage.toLockfilePackage =
      (splitBlocks content.toList).filterMap parseBlock := by
    rw [readPackages, List.map_filterMap]
    exact List.filterMap_congr fun block _ => readBlock_package block
  have sorted : ((readPackages content.toList).insertionSort fun first second =>
      urlPackageLe first second).map UrlPackage.toLockfilePackage =
      ((readPackages content.toList).map UrlPackage.toLockfilePackage).insertionSort
        fun first second => packageLe first second :=
    List.map_insertionSort _ _ _ _ fun _ _ _ _ => Iff.rfl
  have merged (packages : List UrlPackage) :
      (dedupBy (fun next kept => samePackage next.toLockfilePackage kept.toLockfilePackage)
        packages).map UrlPackage.toLockfilePackage =
        dedupBy samePackage (packages.map UrlPackage.toLockfilePackage) :=
    dedupBy_map UrlPackage.toLockfilePackage (fun _ _ => rfl) packages
  rw [parseYarnClassicLockfile, sortPackages, merged, sorted, read]
  rfl

/-! One package under its own name, and one under another. -/

def entryOf (name range : String) : Entry where
  name := name.toList
  range := ⟨range.toList, true⟩
  others := []
  fields := [("version".toList, ⟨"2.1.3".toList, true⟩),
    ("integrity".toList, ⟨"sha512-XXX".toList, false⟩)]
  sections := []

def fileOf (entry : Entry) : LockFile where
  ending := .lf
  header := ["# yarn lockfile v1".toList]
  entries := [entry]

instance (name : List Char) : Decidable (IsIdentifier name) :=
  decidable_of_iff (name ≠ [] ∧ name.all (fun char => isWhitespace char = false ∧ char ≠ '"' ∧
      char ≠ ',' ∧ char ≠ ':' ∧ char ≠ '#') = true) (by simp [IsIdentifier])

instance (word : Word) : Decidable word.Valid :=
  decidable_of_iff (word.text.all (fun char => char ≠ '\n' ∧ char ≠ '\r' ∧ char ≠ '"' ∧
      char ≠ '\\') = true ∧ (word.quoted = false → word.text ≠ [] ∧
        word.text.all (fun char => isWhitespace char = false ∧ char ≠ ':' ∧ char ≠ ',') = true))
    ⟨fun valid => ⟨by simpa using valid.1, by simpa using valid.2⟩,
      fun valid => ⟨by simpa using valid.unescaped, by simpa using valid.bare⟩⟩

theorem fileOf_valid {entry : Entry} (valid : entry.Valid) : (fileOf entry).Valid where
  header := by
    refine ⟨List.cons_ne_nil _ _, fun line member => ?_⟩
    rw [List.mem_singleton.mp member]
    decide
  entries := by
    intro other member
    rw [List.mem_singleton.mp member]
    exact valid

theorem entryOf_valid {name range : String} (isName : IsIdentifier name.toList)
    (specifier : ((entryOf name range).specifier ⟨range.toList, true⟩).Valid) :
    (entryOf name range).Valid where
  name := isName
  specifiers := by
    intro other member
    rw [List.mem_singleton.mp member]
    exact specifier
  keys := by
    have distinct : ["version".toList, "integrity".toList].Nodup := by decide
    exact distinct
  fields := by
    have each : ∀ field ∈ [("version".toList, (⟨"2.1.3".toList, true⟩ : Word)),
        ("integrity".toList, ⟨"sha512-XXX".toList, false⟩)],
        IsIdentifier field.1 ∧ field.2.Valid := by decide
    exact each
  version := rfl
  sections := by simp [entryOf]

theorem yarn_classic_inverts_iff_ms :
    readPackages (fileOf (entryOf "ms" "^2.1.1")).content =
      [⟨⟨utf8 "ms", utf8 "2.1.3", utf8 "sha512-XXX"⟩, none⟩] := by
  have valid : (entryOf "ms" "^2.1.1").Valid := entryOf_valid (by decide) (by decide)
  have faithful : (fileOf (entryOf "ms" "^2.1.1")).Faithful := by
    intro entry member
    rw [List.mem_singleton.mp member]
    exact ⟨fun _ => by decide, by simp [Entry.mistaken, entryOf, Entry.dependencies, lastOf],
      by simp [Entry.mistaken, entryOf, Entry.dependencies, lastOf],
      by simp [Entry.mistaken, entryOf, Entry.dependencies, lastOf], fun own _ isOwn => by
        obtain rfl := Option.some.inj isOwn
        rfl⟩
  exact ((LockFile.yarn_classic_inverts_iff (fileOf (entryOf "ms" "^2.1.1"))
    (fileOf_valid valid)).mpr faithful).1

/-- An alias is taken up to the at-sign of the package that it stands for. -/
theorem alias_misnamed : (fileOf (entryOf "alias" "npm:real@^1")).Valid ∧
    parseYarnClassicLockfile (fileOf (entryOf "alias" "npm:real@^1")).content =
      [⟨⟨utf8 "alias@npm:real", utf8 "2.1.3", utf8 "sha512-XXX"⟩, none⟩] ∧
    ¬ parseYarnClassicLockfile (fileOf (entryOf "alias" "npm:real@^1")).content =
      sortPackages ((fileOf (entryOf "alias" "npm:real@^1")).entries.filterMap Entry.package) := by
  have read : parseYarnClassicLockfile (fileOf (entryOf "alias" "npm:real@^1")).content =
      [⟨⟨utf8 "alias@npm:real", utf8 "2.1.3", utf8 "sha512-XXX"⟩, none⟩] := by
    decide +kernel
  have meant : sortPackages ((fileOf (entryOf "alias" "npm:real@^1")).entries.filterMap
      Entry.package) = [⟨⟨utf8 "alias", utf8 "2.1.3", utf8 "sha512-XXX"⟩, none⟩] := by
    decide +kernel
  refine ⟨fileOf_valid (entryOf_valid (by decide) (by decide)), read, ?_⟩
  rw [read, meant]
  decide

end Rage.YarnClassic
