import Mathlib.Data.List.TakeWhile
import Rage.Lockfile
import Rage.PathSpelling
import Rage.Utf8Text

/-!
Texts that are written line by line, and what the functions of `str` make of them: the lines again,
and the blocks between empty lines.
-/

namespace Rage.Lockfile

inductive LineEnding
  | lf
  | crlf
  deriving DecidableEq

def LineEnding.text : LineEnding → List Char
  | .lf => ['\n']
  | .crlf => ['\r', '\n']

/-- Every line with its end. -/
def written (ending : LineEnding) (ls : List (List Char)) : List Char :=
  ls.flatMap fun line => line ++ ending.text

/-- Lines with an end between each two. -/
def joined (ending : LineEnding) : List (List Char) → List Char
  | [] => []
  | [line] => line
  | line :: next :: rest => line ++ (ending.text ++ joined ending (next :: rest))

/-- A line that is read as it was written. -/
def IsLine (line : List Char) : Prop := '\n' ∉ line ∧ line.getLast? ≠ some '\r'

instance (line : List Char) : Decidable (IsLine line) := by
  unfold IsLine
  infer_instance

theorem joined_cons {ending : LineEnding} {line : List Char} {rest : List (List Char)}
    (filled : rest ≠ []) : joined ending (line :: rest) = line ++ (ending.text ++ joined ending rest) := by
  cases rest with
  | nil => exact (filled rfl).elim
  | cons next rest => rfl

theorem written_cons (ending : LineEnding) (line : List Char) (rest : List (List Char)) :
    written ending (line :: rest) = line ++ (ending.text ++ written ending rest) := by
  simp [written]

theorem written_append (ending : LineEnding) (first second : List (List Char)) :
    written ending (first ++ second) = written ending first ++ written ending second :=
  List.flatMap_append

theorem written_eq_joined {ending : LineEnding} {ls : List (List Char)} (filled : ls ≠ []) :
    written ending ls = joined ending ls ++ ending.text := by
  induction ls with
  | nil => exact (filled rfl).elim
  | cons line rest ih =>
      cases rest with
      | nil => simp [written, joined]
      | cons next rest =>
          have more : next :: rest ≠ [] := List.cons_ne_nil next rest
          rw [written_cons, ih more, joined_cons more, List.append_assoc, List.append_assoc]

theorem joined_getLast? {ending : LineEnding} {ls : List (List Char)} {line : List Char}
    (isLast : ls.getLast? = some line) (filled : line ≠ []) :
    (joined ending ls).getLast? = line.getLast? := by
  induction ls with
  | nil => simp at isLast
  | cons first rest ih =>
      cases rest with
      | nil =>
          obtain rfl : first = line := by simpa using isLast
          rfl
      | cons next rest =>
          have later := ih (by simpa using isLast)
          have notNil : joined ending (next :: rest) ≠ [] := by
            intro isNil
            rw [isNil, List.getLast?_nil, eq_comm, List.getLast?_eq_none_iff] at later
            exact filled later
          rw [joined, List.getLast?_append_of_ne_nil _ (List.append_ne_nil_of_right_ne_nil _ notNil),
            List.getLast?_append_of_ne_nil _ notNil, later]

/-! `lines`. -/

theorem stripCarriageReturn_line {line : List Char} (isLine : IsLine line) :
    stripCarriageReturn line = line := if_neg isLine.2

theorem lines_cons {ending : LineEnding} {line rest : List Char} (isLine : IsLine line) :
    lines (line ++ (ending.text ++ rest)) = line :: lines rest := by
  have split (front : List Char) (free : '\n' ∉ front) :
      lines (front ++ '\n' :: rest) = stripCarriageReturn front :: lines rest := by
    obtain ⟨part, parts, isRest⟩ := List.exists_cons_of_ne_nil (List.splitOn_ne_nil '\n' rest)
    simp only [lines, List.splitOn_append_cons_self_of_not_mem free, isRest, List.dropLast_cons_cons,
      List.map_cons, List.getLast?_cons_cons, List.cons_append]
  cases ending with
  | lf =>
      have here := split line isLine.1
      rwa [stripCarriageReturn_line isLine] at here
  | crlf =>
      have here := split (line ++ ['\r']) (by simp [isLine.1])
      simpa [stripCarriageReturn, LineEnding.text] using here

theorem lines_written {ending : LineEnding} {ls : List (List Char)}
    (isLine : ∀ line ∈ ls, IsLine line) : lines (written ending ls) = ls := by
  induction ls with
  | nil => rfl
  | cons line rest ih =>
      rw [written_cons, lines_cons (isLine line (by simp)),
        ih fun other member => isLine other (List.mem_cons_of_mem _ member)]

theorem lines_joined {ending : LineEnding} {ls : List (List Char)}
    (isLine : ∀ line ∈ ls, IsLine line) (ends : ls.getLast? ≠ some []) :
    lines (joined ending ls) = ls := by
  induction ls with
  | nil => rfl
  | cons line rest ih =>
      cases rest with
      | nil =>
          have filled : line ≠ [] := by simpa using ends
          rw [joined, lines, List.splitOn_eq_singleton (isLine line (by simp)).1]
          simp [filled]
      | cons next rest =>
          rw [joined, lines_cons (isLine line (by simp)), ih _ (by simpa using ends)]
          exact fun other member => isLine other (List.mem_cons_of_mem _ member)

/-! `trim`. -/

theorem trim_core {front core back : List Char} {first last : Char}
    (frontBlank : ∀ char ∈ front, isWhitespace char = true)
    (backBlank : ∀ char ∈ back, isWhitespace char = true) (isFirst : core.head? = some first)
    (isLast : core.getLast? = some last) (firstStays : isWhitespace first = false)
    (lastStays : isWhitespace last = false) : trim (front ++ (core ++ back)) = core := by
  obtain ⟨rest, isCore⟩ := List.head?_eq_some_iff.mp isFirst
  obtain ⟨before, isEnd⟩ := List.getLast?_eq_some_iff.mp isLast
  have start : (front ++ (core ++ back)).dropWhile isWhitespace = core ++ back := by
    rw [List.dropWhile_append_of_pos frontBlank, isCore, List.cons_append,
      List.dropWhile_cons_of_neg (by simp [firstStays])]
  have backReverse : ∀ char ∈ back.reverse, isWhitespace char = true :=
    fun char member => backBlank char (List.mem_reverse.mp member)
  rw [trim, trimMatches, start, trimEndMatches, List.reverse_append,
    List.dropWhile_append_of_pos backReverse, isEnd]
  simp [lastStays]

theorem trim_whole {core : List Char} {first last : Char} (isFirst : core.head? = some first)
    (isLast : core.getLast? = some last) (firstStays : isWhitespace first = false)
    (lastStays : isWhitespace last = false) : trim core = core := by
  have trimmed : trim ([] ++ (core ++ [])) = core :=
    trim_core (List.forall_mem_nil _) (List.forall_mem_nil _) isFirst isLast firstStays lastStays
  simpa using trimmed

theorem dropWhile_free {drop : Char → Bool} {text : List Char}
    (stays : ∀ char ∈ text, drop char = false) : text.dropWhile drop = text := by
  cases text with
  | nil => rfl
  | cons char text => exact List.dropWhile_cons_of_neg (by simp [stays char (by simp)])

theorem trimMatches_free {drop : Char → Bool} {front text back : List Char}
    (frontDrops : ∀ char ∈ front, drop char = true) (backDrops : ∀ char ∈ back, drop char = true)
    (stays : ∀ char ∈ text, drop char = false) :
    trimMatches drop (front ++ (text ++ back)) = text := by
  have backReverse : ∀ char ∈ back.reverse, drop char = true :=
    fun char member => backDrops char (List.mem_reverse.mp member)
  have textReverse : ∀ char ∈ text.reverse, drop char = false :=
    fun char member => stays char (List.mem_reverse.mp member)
  have start : (text ++ back).dropWhile drop = text ++ back ∨ text = [] := by
    cases text with
    | nil => exact Or.inr rfl
    | cons char text =>
        exact Or.inl (List.dropWhile_cons_of_neg (by simp [stays char (by simp)]))
  rw [trimMatches, List.dropWhile_append_of_pos frontDrops]
  rcases start with isStart | rfl
  · rw [isStart, trimEndMatches, List.reverse_append, List.dropWhile_append_of_pos backReverse,
      dropWhile_free textReverse, List.reverse_reverse]
  · rw [List.nil_append, List.dropWhile_eq_nil_iff.mpr backDrops]
    rfl

theorem trim_blank {text : List Char} (blank : ∀ char ∈ text, isWhitespace char = true) :
    trim text = [] := by
  rw [trim, trimMatches, List.dropWhile_eq_nil_iff.mpr blank]
  rfl

/-- Whitespace around a text does not matter. -/
theorem trim_surrounded {front back : List Char} (core : List Char)
    (frontBlank : ∀ char ∈ front, isWhitespace char = true)
    (backBlank : ∀ char ∈ back, isWhitespace char = true) :
    trim (front ++ (core ++ back)) = trim core := by
  have reduced : trim (front ++ (core ++ back)) = trim (core ++ back) := by
    rw [trim, trimMatches, trimMatches, List.dropWhile_append_of_pos frontBlank]
  rw [reduced]
  by_cases blank : ∀ char ∈ core, isWhitespace char = true
  · rw [trim_blank blank, trim_blank]
    intro char member
    exact (List.mem_append.mp member).elim (blank char) (backBlank char)
  · have backReverse : ∀ char ∈ back.reverse, isWhitespace char = true :=
      fun char member => backBlank char (List.mem_reverse.mp member)
    have notNil : (core.dropWhile isWhitespace).isEmpty = false := by
      rw [Bool.eq_false_iff, Ne, List.isEmpty_iff, List.dropWhile_eq_nil_iff]
      exact blank
    have kept : (core ++ back).dropWhile isWhitespace = core.dropWhile isWhitespace ++ back := by
      rw [List.dropWhile_append, notNil, if_neg Bool.false_ne_true]
    rw [trim, trimMatches, trimMatches, kept, trimEndMatches, List.reverse_append,
      List.dropWhile_append_of_pos backReverse]
    rfl

/-! Blocks between empty lines. -/

theorem splitBlocks_append {block : List Char} (rest : List Char)
    (noGap : ¬ ['\n', '\n'] <:+: block ++ ['\n']) :
    splitBlocks (block ++ '\n' :: '\n' :: rest) = block :: splitBlocks rest := by
  induction block with
  | nil => simp [splitBlocks]
  | cons char block ih =>
      have here := ih fun within => noGap (List.infix_cons within)
      have apart : ¬ (char = '\n' ∧ (block ++ ['\n']).head? = some '\n') := by
        rintro ⟨rfl, isNext⟩
        obtain ⟨tail, isTail⟩ := List.head?_eq_some_iff.mp isNext
        exact noGap ⟨[], tail, by simp [isTail]⟩
      cases block with
      | nil =>
          have other : char ≠ '\n' := fun same => apart ⟨same, rfl⟩
          simp [splitBlocks, other]
      | cons next block =>
          have other : ¬ (char = '\n' ∧ next = '\n') := fun both => apart ⟨both.1, by simp [both.2]⟩
          rw [List.cons_append, List.cons_append, splitBlocks, if_neg other, ← List.cons_append, here]

theorem splitBlocks_whole {block : List Char} (noGap : ¬ ['\n', '\n'] <:+: block) :
    splitBlocks block = [block] := by
  induction block with
  | nil => rfl
  | cons char block ih =>
      cases block with
      | nil => rfl
      | cons next block =>
          have other : ¬ (char = '\n' ∧ next = '\n') := by
            rintro ⟨rfl, rfl⟩
            exact noGap ⟨[], block, rfl⟩
          rw [splitBlocks, if_neg other, ih fun within => noGap (List.infix_cons within)]

/-! Lines between empty lines. -/

def NoGap (text : List Char) : Prop := ¬ ['\n', '\n'] <:+: text

theorem noGap_line {line rest : List Char} (free : '\n' ∉ line) (noGap : NoGap rest) :
    NoGap (line ++ rest) := by
  induction line with
  | nil => exact noGap
  | cons char line ih =>
      rw [List.mem_cons, not_or] at free
      rw [List.cons_append, NoGap, List.infix_cons_iff]
      rintro (⟨tail, starts⟩ | later)
      · exact free.1 (List.cons.inj starts).1
      · exact ih free.2 later

theorem noGap_newline {rest : List Char} (apart : rest.head? ≠ some '\n') (noGap : NoGap rest) :
    NoGap ('\n' :: rest) := by
  rw [NoGap, List.infix_cons_iff]
  rintro (⟨tail, starts⟩ | later)
  · exact apart (by rw [← (List.cons.inj starts).2]; rfl)
  · exact noGap later

theorem written_head {ending : LineEnding} {group : List (List Char)}
    (lineFree : ∀ line ∈ group, line ≠ [] ∧ '\n' ∉ line) :
    (written ending group).head? ≠ some '\n' := by
  cases group with
  | nil => simp [written]
  | cons line group =>
      obtain ⟨filled, free⟩ := lineFree line (by simp)
      obtain ⟨char, tail, rfl⟩ := List.exists_cons_of_ne_nil filled
      rw [written_cons]
      rintro same
      exact free (by simp [Option.some.inj same])

theorem written_noGap {group : List (List Char)}
    (lineFree : ∀ line ∈ group, line ≠ [] ∧ '\n' ∉ line) : NoGap (written .lf group) := by
  induction group with
  | nil => simp [NoGap, written]
  | cons line group ih =>
      have restFree : ∀ line ∈ group, line ≠ [] ∧ '\n' ∉ line :=
        fun other member => lineFree other (List.mem_cons_of_mem _ member)
      rw [written_cons]
      exact noGap_line (lineFree line (by simp)).2
        (noGap_newline (written_head restFree) (ih restFree))

section Blocks

variable {β : Type} {parse : List Char → Option β}

/-- A parser of blocks that starts with `trim`. -/
structure Trims (parse : List Char → Option β) : Prop where
  trims : ∀ first second, trim first = trim second → parse first = parse second
  empty : parse [] = none

theorem Trims.surrounded (isTrims : Trims parse) {front back : List Char} (core : List Char)
    (frontLines : ∀ char ∈ front, char = '\n') (backLines : ∀ char ∈ back, char = '\n') :
    parse (front ++ (core ++ back)) = parse core := by
  have blank {text : List Char} (lines_ : ∀ char ∈ text, char = '\n') :
      ∀ char ∈ text, isWhitespace char = true := by
    intro char member
    rw [lines_ char member]
    decide
  exact isTrims.trims _ _ (trim_surrounded core (blank frontLines) (blank backLines))

/-- What a gap of three newlines leaves before a block. -/
def IsFront (front : List Char) : Prop := front = [] ∨ front = ['\n']

theorem IsFront.lines {front : List Char} (isFront : IsFront front) : ∀ char ∈ front, char = '\n' := by
  rcases isFront with rfl | rfl
  · simp
  · simp

theorem IsFront.noGap {front : List Char} (isFront : IsFront front) {group : List (List Char)}
    (groupFree : ∀ line ∈ group, line ≠ [] ∧ '\n' ∉ line) :
    NoGap (front ++ written .lf group) := by
  rcases isFront with rfl | rfl
  · exact written_noGap groupFree
  · exact noGap_newline (written_head groupFree) (written_noGap groupFree)

theorem Trims.front (isTrims : Trims parse) {front : List Char} (isFront : IsFront front)
    (group : List (List Char)) :
    parse (front ++ written .lf group) = parse (joined .lf group) := by
  by_cases isNil : group = []
  · have plain := isTrims.surrounded [] isFront.lines (List.forall_mem_nil _)
    simpa [isNil, written, joined] using plain
  · rw [written_eq_joined isNil]
    exact isTrims.surrounded _ isFront.lines (by simp [LineEnding.text])

/-- `group` is what has been read of a block. -/
theorem blocks_from (isTrims : Trims parse) {front : List Char} {group : List (List Char)}
    (isFront : IsFront front) (groupFree : ∀ line ∈ group, line ≠ [] ∧ '\n' ∉ line)
    {ls : List (List Char)} (free : ∀ line ∈ ls, '\n' ∉ line) :
    (splitBlocks (front ++ written .lf (group ++ ls))).filterMap parse =
      ((group ++ ls).splitOn []).filterMap fun block => parse (joined .lf block) := by
  have noEmpty {group : List (List Char)} (groupFree : ∀ line ∈ group, line ≠ [] ∧ '\n' ∉ line) :
      [] ∉ group := fun member => (groupFree [] member).1 rfl
  induction ls generalizing front group with
  | nil =>
      rw [List.append_nil, splitBlocks_whole (isFront.noGap groupFree),
        List.splitOn_eq_singleton (noEmpty groupFree)]
      simp only [List.filterMap_cons, List.filterMap_nil, isTrims.front isFront]
  | cons line ls ih =>
      have restFree : ∀ line ∈ ls, '\n' ∉ line :=
        fun other member => free other (List.mem_cons_of_mem _ member)
      have afterGap {front : List Char} (isFront : IsFront front) :
          (splitBlocks (front ++ written .lf ls)).filterMap parse =
            (ls.splitOn []).filterMap fun block => parse (joined .lf block) :=
        ih isFront (List.forall_mem_nil _) restFree
      have newline : written .lf ([] :: ls) = '\n' :: written .lf ls := rfl
      by_cases isGap : line = []
      · subst isGap
        rw [List.splitOn_append_cons_self_of_not_mem (noEmpty groupFree), List.filterMap_cons]
        by_cases isNil : group = []
        · subst isNil
          have nothing : parse (joined .lf []) = none := isTrims.empty
          rw [List.nil_append, newline]
          simp only [nothing]
          rcases isFront with rfl | rfl
          · exact afterGap (Or.inr rfl)
          · have split : splitBlocks (['\n'] ++ '\n' :: written .lf ls) =
                [] :: splitBlocks (written .lf ls) := by simp [splitBlocks]
            rw [split, List.filterMap_cons_none isTrims.empty]
            exact afterGap (Or.inl rfl)
        · have block : front ++ written .lf group = (front ++ joined .lf group) ++ ['\n'] := by
            rw [written_eq_joined isNil, List.append_assoc]
            rfl
          have split : front ++ written .lf (group ++ [] :: ls) =
              (front ++ joined .lf group) ++ '\n' :: '\n' :: written .lf ls := by
            rw [written_append, newline, ← List.append_assoc, block]
            simp
          have noGap := isFront.noGap groupFree
          rw [block] at noGap
          have alone : parse (front ++ joined .lf group) = parse (joined .lf group) := by
            have plain := isTrims.surrounded (joined .lf group) isFront.lines (List.forall_mem_nil _)
            rwa [List.append_nil] at plain
          rw [split, splitBlocks_append _ noGap, List.filterMap_cons, alone]
          have later := afterGap (Or.inl rfl)
          rw [List.nil_append] at later
          rw [later]
      · have extended : ∀ other ∈ group ++ [line], other ≠ [] ∧ '\n' ∉ other := by
          intro other member
          rcases List.mem_append.mp member with before | here
          · exact groupFree other before
          · rw [List.mem_singleton.mp here]
            exact ⟨isGap, free line (by simp)⟩
        have shifted := ih isFront extended restFree
        simpa using shifted

theorem blocks_written (isTrims : Trims parse) {ls : List (List Char)}
    (free : ∀ line ∈ ls, '\n' ∉ line) :
    (splitBlocks (written .lf ls)).filterMap parse =
      (ls.splitOn []).filterMap fun block => parse (joined .lf block) :=
  blocks_from isTrims (Or.inl rfl) (List.forall_mem_nil _) free

/-- Between carriage returns there is no gap. -/
theorem blocks_crlf {ls : List (List Char)} (free : ∀ line ∈ ls, '\n' ∉ line) :
    splitBlocks (written .crlf ls) = [written .crlf ls] := by
  apply splitBlocks_whole
  rw [← NoGap]
  induction ls with
  | nil => simp [NoGap, written]
  | cons line ls ih =>
      have restFree : ∀ line ∈ ls, '\n' ∉ line :=
        fun other member => free other (List.mem_cons_of_mem _ member)
      have apart : (written .crlf ls).head? ≠ some '\n' := by
        cases ls with
        | nil => simp [written]
        | cons next ls =>
            have nextFree := restFree next (by simp)
            rw [written_cons]
            cases next with
            | nil => simp [LineEnding.text]
            | cons char next =>
                rw [List.mem_cons, not_or] at nextFree
                simpa using Ne.symm nextFree.1
      have ended : NoGap (['\r'] ++ '\n' :: written .crlf ls) :=
        noGap_line (by decide) (noGap_newline apart (ih restFree))
      rw [written_cons]
      exact noGap_line (free line (by simp)) ended

end Blocks

/-! Paragraphs. -/

def paragraphs (first : List (List Char)) (rest : List (List (List Char))) : List (List Char) :=
  first ++ rest.flatMap fun paragraph => [] :: paragraph

theorem splitOn_paragraphs {first : List (List Char)} {rest : List (List (List Char))}
    (filled : ∀ paragraph ∈ first :: rest, [] ∉ paragraph) :
    (paragraphs first rest).splitOn [] = first :: rest := by
  induction rest generalizing first with
  | nil => simpa [paragraphs] using List.splitOn_eq_singleton (filled first (by simp))
  | cons next rest ih =>
      have split : paragraphs first (next :: rest) = first ++ [] :: paragraphs next rest := by
        simp [paragraphs]
      rw [split, List.splitOn_append_cons_self_of_not_mem (filled first (by simp)),
        ih fun paragraph member => filled paragraph (List.mem_cons_of_mem _ member)]

/-- Between paragraphs that are not empty there is one gap each. -/
theorem blocks_paragraphs {β : Type} {parse : List Char → Option β} (isTrims : Trims parse)
    {first : List (List Char)} {rest : List (List (List Char))}
    (filled : ∀ paragraph ∈ first :: rest, paragraph ≠ [] ∧
      ∀ line ∈ paragraph, line ≠ [] ∧ '\n' ∉ line) :
    (splitBlocks (written .lf (paragraphs first rest))).map parse =
      (first :: rest).map fun paragraph => parse (joined .lf paragraph) := by
  induction rest generalizing first with
  | nil =>
      obtain ⟨notNil, lineFree⟩ := filled first (by simp)
      have alone : parse ([] ++ (joined .lf first ++ LineEnding.lf.text)) =
          parse (joined .lf first) :=
        isTrims.surrounded _ (List.forall_mem_nil _) (by simp [LineEnding.text])
      rw [List.nil_append, ← written_eq_joined notNil] at alone
      simp only [paragraphs, List.flatMap_nil, List.append_nil, List.map_cons, List.map_nil,
        splitBlocks_whole (written_noGap lineFree), alone]
  | cons next rest ih =>
      obtain ⟨notNil, lineFree⟩ := filled first (by simp)
      have noGap := written_noGap lineFree
      rw [written_eq_joined notNil] at noGap
      have split : written .lf (paragraphs first (next :: rest)) =
          joined .lf first ++ '\n' :: '\n' :: written .lf (paragraphs next rest) := by
        have isSplit : paragraphs first (next :: rest) = first ++ [] :: paragraphs next rest := by
          simp [paragraphs]
        rw [isSplit, written_append, written_eq_joined notNil, List.append_assoc]
        rfl
      rw [split, splitBlocks_append _ noGap, List.map_cons,
        ih fun paragraph member => filled paragraph (List.mem_cons_of_mem _ member)]
      rfl

/-! Starts and ends of a text. -/

theorem stripPrefix_eq_some {start : String} {text rest : List Char} :
    stripPrefix start text = some rest ↔ text = start.toList ++ rest := by
  unfold stripPrefix
  have dropped (more : List Char) : (start.toList ++ more).drop start.length = more := by
    rw [← String.length_toList, List.drop_left]
  constructor
  · intro stripped
    split at stripped
    · rename_i starts
      obtain ⟨more, rfl⟩ := List.isPrefixOf_iff_prefix.mp starts
      rw [dropped] at stripped
      rw [Option.some.inj stripped]
    · simp at stripped
  · rintro rfl
    rw [if_pos (List.isPrefixOf_iff_prefix.mpr ⟨rest, rfl⟩), dropped]

theorem stripPrefix_of_free {start : String} {char : Char} (within : char ∈ start.toList)
    {text : List Char} (free : char ∉ text) : stripPrefix start text = none := by
  cases isRest : stripPrefix start text with
  | none => rfl
  | some rest =>
      rw [stripPrefix_eq_some] at isRest
      exact (free (isRest ▸ List.mem_append_left _ within)).elim

theorem trimEndMatches_keep {drop : Char → Bool} {char : Char} (stays : drop char = false)
    (front rest : List Char) :
    trimEndMatches drop (front ++ char :: rest) = front ++ char :: trimEndMatches drop rest := by
  have kept : (rest.reverse ++ char :: front.reverse).dropWhile drop =
      rest.reverse.dropWhile drop ++ char :: front.reverse := by
    rw [List.dropWhile_append]
    split
    · rename_i isNil
      rw [List.isEmpty_iff.mp isNil, List.nil_append, List.dropWhile_cons_of_neg (by simp [stays])]
    · rfl
  rw [trimEndMatches, List.reverse_append, List.reverse_cons, List.append_assoc,
    List.singleton_append, kept]
  simp [trimEndMatches]

theorem trimMatches_keep {drop : Char → Bool} {char first : Char} {front rest : List Char}
    (isFirst : front.head? = some first) (firstStays : drop first = false)
    (stays : drop char = false) :
    trimMatches drop (front ++ char :: rest) = front ++ char :: trimEndMatches drop rest := by
  obtain ⟨tail, isFront⟩ := List.head?_eq_some_iff.mp isFirst
  rw [trimMatches, isFront, List.cons_append, List.dropWhile_cons_of_neg (by simp [firstStays]),
    ← List.cons_append, ← isFront, trimEndMatches_keep stays]

theorem trimEndMatches_split (drop : Char → Bool) (text : List Char) :
    ∃ dropped, text = trimEndMatches drop text ++ dropped ∧ ∀ char ∈ dropped, drop char = true := by
  refine ⟨(text.reverse.takeWhile drop).reverse, ?_, fun char member => ?_⟩
  · have whole := congrArg List.reverse (List.takeWhile_append_dropWhile (p := drop) (l := text.reverse))
    rw [List.reverse_append, List.reverse_reverse] at whole
    exact whole.symm
  · exact List.mem_takeWhile_imp (List.mem_reverse.mp member)

theorem mem_trimEndMatches {drop : Char → Bool} {char : Char} (stays : drop char = false)
    (text : List Char) : char ∈ trimEndMatches drop text ↔ char ∈ text := by
  obtain ⟨dropped, isText, drops⟩ := trimEndMatches_split drop text
  have notDropped : char ∉ dropped := by
    intro member
    have contra := drops char member
    rw [stays] at contra
    simp at contra
  constructor
  · intro member
    rw [isText]
    exact List.mem_append_left _ member
  · intro member
    rw [isText] at member
    exact (List.mem_append.mp member).resolve_right notDropped

theorem trimMatches_eq_trimEnd {drop : Char → Bool} {text : List Char} {first : Char}
    (isFirst : text.head? = some first) (stays : drop first = false) :
    trimMatches drop text = trimEndMatches drop text := by
  obtain ⟨tail, rfl⟩ := List.head?_eq_some_iff.mp isFirst
  rw [trimMatches, List.dropWhile_cons_of_neg (by simp [stays])]

theorem trimEndMatches_head {drop : Char → Bool} {text : List Char} {first : Char}
    (isFirst : text.head? = some first) (stays : drop first = false) :
    (trimEndMatches drop text).head? = some first := by
  obtain ⟨tail, rfl⟩ := List.head?_eq_some_iff.mp isFirst
  have kept : trimEndMatches drop ([] ++ first :: tail) = [] ++ first :: trimEndMatches drop tail :=
    trimEndMatches_keep stays [] tail
  exact congrArg List.head? kept

/-- Up to a separator, too, an end without it and without the character does not matter. -/
theorem mem_takeWhile_trimEndMatches {drop : Char → Bool} {char separator : Char}
    (stays : drop char = false) (separatorStays : drop separator = false) (text : List Char) :
    char ∈ (trimEndMatches drop text).takeWhile (· ≠ separator) ↔
      char ∈ text.takeWhile (· ≠ separator) := by
  by_cases separated : separator ∈ text
  · obtain ⟨front, rest, rfl, first⟩ := List.eq_append_cons_of_mem separated
    rw [trimEndMatches_keep separatorStays]
    have cut (tail : List Char) : (front ++ separator :: tail).takeWhile (· ≠ separator) =
        front := by
      rw [List.takeWhile_append_of_pos, List.takeWhile_cons_of_neg (by simp), List.append_nil]
      intro other member
      refine decide_eq_true ?_
      rintro rfl
      exact first member
    rw [cut, cut]
  · have whole {tail : List Char} (free : separator ∉ tail) :
        tail.takeWhile (· ≠ separator) = tail := by
      rw [List.takeWhile_eq_self_iff]
      intro other member
      refine decide_eq_true ?_
      rintro rfl
      exact free member
    rw [whole separated, whole, mem_trimEndMatches stays]
    exact fun member => separated ((mem_trimEndMatches separatorStays text).mp member)

theorem headD_splitOn (separator : Char) (text : List Char) :
    (text.splitOn separator).headD [] = text.takeWhile (· ≠ separator) := by
  induction text with
  | nil => rfl
  | cons char text ih =>
      rw [List.splitOn_cons_eq_if_modifyHead]
      by_cases here : char = separator
      · simp [here]
      · obtain ⟨part, parts, isSplit⟩ :=
          List.exists_cons_of_ne_nil (List.splitOn_ne_nil separator text)
        rw [isSplit, List.headD_cons] at ih
        rw [List.takeWhile_cons_of_pos (by simpa using here), ← ih, isSplit]
        simp [here]

/-- What stands before the last of a character. -/
theorem beforeLast_append {char : Char} {front rest : List Char} (last : char ∉ rest) :
    beforeLast char (front ++ char :: rest) = some front := by
  have skipped : ∀ other ∈ rest.reverse, decide (other ≠ char) = true := by
    intro other member
    refine decide_eq_true ?_
    rintro rfl
    exact last (List.mem_reverse.mp member)
  have stops : (rest.reverse ++ char :: front.reverse).dropWhile (fun other => other ≠ char) =
      char :: front.reverse := by
    rw [List.dropWhile_append_of_pos skipped, List.dropWhile_cons_of_neg (by simp)]
  rw [beforeLast, List.reverse_append, List.reverse_cons, List.append_assoc,
    List.singleton_append, stops]
  simp

theorem split_at_last {char : Char} {text : List Char} (member : char ∈ text) :
    ∃ front rest, text = front ++ char :: rest ∧ char ∉ rest := by
  obtain ⟨after, before, isReverse, last⟩ :=
    List.eq_append_cons_of_mem (List.mem_reverse.mpr member)
  refine ⟨before.reverse, after.reverse, ?_, fun later => last (List.mem_reverse.mp later)⟩
  rw [← List.reverse_reverse text, isReverse]
  simp

theorem beforeLast_of_mem {char : Char} {text : List Char} (member : char ∈ text) :
    ∃ front, beforeLast char text = some front := by
  obtain ⟨front, rest, rfl, last⟩ := split_at_last member
  exact ⟨front, beforeLast_append last⟩

theorem beforeLast_eq_iff {char : Char} {front rest : List Char} :
    beforeLast char (front ++ char :: rest) = some front ↔ char ∉ rest := by
  constructor
  · intro isFront later
    obtain ⟨before, after, rfl, last⟩ := split_at_last later
    have longer : beforeLast char ((front ++ char :: before) ++ char :: after) =
        some (front ++ char :: before) := beforeLast_append last
    rw [List.append_assoc, List.cons_append, isFront] at longer
    have lengths := congrArg List.length (Option.some.inj longer)
    simp at lengths
  · exact beforeLast_append

theorem beforeLast_eq_some_iff {char : Char} {text front : List Char} :
    beforeLast char text = some front ↔ ∃ rest, text = front ++ char :: rest ∧ char ∉ rest := by
  constructor
  · intro isFront
    by_cases member : char ∈ text
    · obtain ⟨before, rest, rfl, last⟩ := split_at_last member
      rw [beforeLast_append last] at isFront
      exact ⟨rest, by rw [Option.some.inj isFront], last⟩
    · have nothing : text.reverse.dropWhile (fun other => other ≠ char) = [] := by
        rw [List.dropWhile_eq_nil_iff]
        intro other inText
        refine decide_eq_true ?_
        rintro rfl
        exact member (List.mem_reverse.mp inText)
      rw [beforeLast, nothing] at isFront
      simp at isFront
  · rintro ⟨rest, rfl, last⟩
    exact beforeLast_append last

theorem beforeLast_isSome_iff {char : Char} {text : List Char} :
    (beforeLast char text).isSome = true ↔ char ∈ text := by
  constructor
  · intro isSome
    obtain ⟨front, isFront⟩ := Option.isSome_iff_exists.mp isSome
    obtain ⟨rest, rfl, _⟩ := beforeLast_eq_some_iff.mp isFront
    simp
  · intro member
    obtain ⟨front, isFront⟩ := beforeLast_of_mem member
    rw [isFront]
    rfl

theorem trim_head {text : List Char} {char : Char} (isHead : text.head? = some char)
    (stays : isWhitespace char = false) : (trim text).head? = some char := by
  rw [trim, trimMatches_eq_trimEnd isHead stays]
  exact trimEndMatches_head isHead stays

/-! `find`. -/

/-- The text from the first occurrence of a part on. -/
def find (part : List Char) : List Char → Option (List Char)
  | [] => if part = [] then some [] else none
  | char :: rest => if part.isPrefixOf (char :: rest) then some (char :: rest) else find part rest

theorem prefix_before {part front found : List Char} (starts : part <+: found) (ahead : front ≠ []) :
    part <+: front ++ found ↔ part <+: front ++ part.dropLast := by
  have within : front ++ part.dropLast <+: front ++ found :=
    (List.prefix_append_right_inj front).mpr ((List.dropLast_prefix part).trans starts)
  constructor
  · intro here
    apply List.prefix_of_prefix_length_le here within
    have positive := List.length_pos_of_ne_nil ahead
    rw [List.length_append, List.length_dropLast]
    omega
  · exact fun here => here.trans within

theorem find_eq_some {part text found : List Char} (filled : part ≠ []) :
    find part text = some found ↔ ∃ front, text = front ++ found ∧ part <+: found ∧
      ¬ part <:+: front ++ part.dropLast := by
  have positive := List.length_pos_of_ne_nil filled
  have shorter : ¬ part <:+: part.dropLast := by
    intro within
    have lengths := within.length_le
    rw [List.length_dropLast] at lengths
    omega
  induction text with
  | nil =>
      simp only [find, filled, if_false, reduceCtorEq, false_iff, not_exists]
      rintro front ⟨isEmpty, starts, _⟩
      rw [(List.append_eq_nil_iff.mp isEmpty.symm).2] at starts
      exact filled (List.prefix_nil.mp starts)
  | cons char rest ih =>
      simp only [find]
      by_cases here : part <+: char :: rest
      · rw [if_pos (List.isPrefixOf_iff_prefix.mpr here)]
        constructor
        · rintro ⟨⟩
          exact ⟨[], rfl, here, shorter⟩
        · rintro ⟨front, split, starts, fresh⟩
          cases front with
          | nil => rw [split, List.nil_append]
          | cons head front =>
              rw [split] at here
              exact (fresh ((prefix_before starts (by simp)).mp here).isInfix).elim
      · rw [if_neg (fun isPrefix => here (List.isPrefixOf_iff_prefix.mp isPrefix))]
        refine ih.trans ?_
        constructor
        · rintro ⟨front, rfl, starts, fresh⟩
          refine ⟨char :: front, rfl, starts, fun within => ?_⟩
          rcases List.infix_cons_iff.mp within with atFront | behind
          · exact here ((prefix_before starts (List.cons_ne_nil char front)).mpr atFront)
          · exact fresh behind
        · rintro ⟨front, split, starts, fresh⟩
          cases front with
          | nil =>
              rw [List.nil_append] at split
              rw [split] at here
              exact (here starts).elim
          | cons head front =>
              obtain ⟨rfl, rfl⟩ := List.cons.inj split
              exact ⟨front, rfl, starts, fun within => fresh (List.infix_cons within)⟩

theorem find_eq_none_iff {part text : List Char} (filled : part ≠ []) :
    find part text = none ↔ ¬ part <:+: text := by
  induction text with
  | nil => simp [find, filled]
  | cons char text ih =>
      rw [find, List.infix_cons_iff, not_or, ← ih, ← List.isPrefixOf_iff_prefix]
      split
      · rename_i starts
        simp [starts]
      · rename_i different
        simp [different]

/-! `rfind` of a part. -/

/-- What stands before the last occurrence of a part. -/
def beforeLastPart (part : List Char) : List Char → Option (List Char)
  | [] => if part = [] then some [] else none
  | char :: text =>
      match beforeLastPart part text with
      | some front => some (char :: front)
      | none => if part.isPrefixOf (char :: text) then some [] else none

section Parts

variable {part : List Char}

theorem beforeLastPart_eq_none_iff (filled : part ≠ []) {text : List Char} :
    beforeLastPart part text = none ↔ ¬ part <:+: text := by
  induction text with
  | nil => simp [beforeLastPart, filled]
  | cons char text ih =>
      rw [beforeLastPart, List.infix_cons_iff, not_or, ← ih, ← List.isPrefixOf_iff_prefix]
      cases beforeLastPart part text with
      | none => simp
      | some front => simp

/-- Behind the last occurrence none begins, not within it either. -/
theorem beforeLastPart_eq_some_iff (filled : part ≠ []) {text front : List Char} :
    beforeLastPart part text = some front ↔
      ∃ rest, text = front ++ (part ++ rest) ∧ ¬ part <:+: (part ++ rest).tail := by
  have distribute (rest : List Char) : (part ++ rest).tail = part.tail ++ rest := by
    rw [List.tail_append_of_ne_nil filled]
  induction text generalizing front with
  | nil => simp [beforeLastPart, filled]
  | cons char text ih =>
      rw [beforeLastPart]
      cases isFront : beforeLastPart part text with
      | some before =>
          obtain ⟨rest, rfl, last⟩ := ih.mp isFront
          simp only [Option.some.injEq]
          constructor
          · rintro rfl
            exact ⟨rest, rfl, last⟩
          · rintro ⟨other, same, otherLast⟩
            cases front with
            | nil =>
                refine (otherLast ?_).elim
                have tails := congrArg List.tail same
                rw [List.tail_cons, List.nil_append] at tails
                rw [← tails]
                exact ⟨before, rest, List.append_assoc _ _ _⟩
            | cons first front =>
                obtain ⟨rfl, tails⟩ := List.cons.inj same
                have here := ih.mpr ⟨other, tails, otherLast⟩
                rw [isFront] at here
                rw [Option.some.inj here]
      | none =>
          have absent := (beforeLastPart_eq_none_iff filled).mp isFront
          change (if part.isPrefixOf (char :: text) then some [] else none) = some front ↔ _
          constructor
          · intro isNil
            split at isNil
            · rename_i starts
              obtain rfl := Option.some.inj isNil
              obtain ⟨rest, same⟩ := List.isPrefixOf_iff_prefix.mp starts
              refine ⟨rest, same.symm, ?_⟩
              rw [same]
              exact absent
            · simp at isNil
          · rintro ⟨rest, same, last⟩
            cases front with
            | nil =>
                rw [List.nil_append] at same
                rw [if_pos (List.isPrefixOf_iff_prefix.mpr ⟨rest, same.symm⟩)]
            | cons first front =>
                obtain ⟨rfl, rfl⟩ := List.cons.inj same
                exact (absent ⟨front, rest, List.append_assoc _ _ _⟩).elim

/-- Over characters that a part does not begin with, it is not found. -/
theorem infix_append_iff_of_free {char : Char} {more skipped rest : List Char}
    (free : char ∉ skipped) : (char :: more) <:+: skipped ++ rest ↔ (char :: more) <:+: rest := by
  induction skipped with
  | nil => rfl
  | cons first skipped ih =>
      rw [List.mem_cons, not_or] at free
      have different : ¬ (char :: more) <+: first :: (skipped ++ rest) := by
        rintro ⟨tail, same⟩
        exact free.1 (List.cons.inj same).1
      rw [List.cons_append, List.infix_cons_iff, ih free.2]
      exact or_iff_right different

/-- A part whose first character comes only once has no second occurrence within itself. -/
theorem beforeLastPart_cons_iff {char : Char} {more text front : List Char} (once : char ∉ more) :
    beforeLastPart (char :: more) text = some front ↔
      ∃ rest, text = front ++ (char :: more ++ rest) ∧ ¬ (char :: more) <:+: rest := by
  refine (beforeLastPart_eq_some_iff (List.cons_ne_nil _ _)).trans ?_
  simp only [List.cons_append, List.tail_cons, infix_append_iff_of_free once]

/-- Nothing is found at an end that the last character of the part is not in. -/
theorem beforeLastPart_append_free {last : Char} (isLast : part.getLast? = some last)
    {dropped : List Char} (free : last ∉ dropped) (text : List Char) :
    beforeLastPart part (text ++ dropped) = beforeLastPart part text := by
  have filled : part ≠ [] := by
    rintro rfl
    simp at isLast
  have shorter (text : List Char) : part <+: text ++ dropped ↔ part <+: text := by
    constructor
    · intro starts
      rcases List.prefix_or_prefix_of_prefix starts (List.prefix_append text dropped) with
        within | ⟨more, rfl⟩
      · exact within
      · cases more with
        | nil => simp
        | cons char more =>
            have inDropped := (List.prefix_append_right_inj text).mp starts
            rw [List.getLast?_append_of_ne_nil _ (List.cons_ne_nil char more)] at isLast
            exact (free (inDropped.subset (List.mem_of_getLast? isLast))).elim
    · exact fun starts => starts.trans (List.prefix_append text dropped)
  induction text with
  | nil =>
      have absent : beforeLastPart part dropped = none := by
        rw [beforeLastPart_eq_none_iff filled]
        exact fun within => free (within.subset (List.mem_of_getLast? isLast))
      rw [List.nil_append, absent, beforeLastPart, if_neg filled]
  | cons char text ih =>
      have here : part.isPrefixOf (char :: (text ++ dropped)) = part.isPrefixOf (char :: text) := by
        rw [Bool.eq_iff_iff, List.isPrefixOf_iff_prefix, List.isPrefixOf_iff_prefix,
          ← List.cons_append]
        exact shorter (char :: text)
      rw [List.cons_append, beforeLastPart, beforeLastPart, ih, here]

theorem beforeLastPart_trimEndMatches {last : Char} (isLast : part.getLast? = some last)
    {drop : Char → Bool} (stays : drop last = false) (text : List Char) :
    beforeLastPart part (trimEndMatches drop text) = beforeLastPart part text := by
  obtain ⟨dropped, isText, drops⟩ := trimEndMatches_split drop text
  have free : last ∉ dropped := by
    intro member
    have contra := drops last member
    rw [stays] at contra
    simp at contra
  have longer := beforeLastPart_append_free isLast free (trimEndMatches drop text)
  rw [← isText] at longer
  exact longer.symm

end Parts

/-! What is said last about a key. -/

section LastOf

variable {κ : Type} [DecidableEq κ]

def lastOf {β : Type} (key : κ) (pairs : List (κ × β)) : Option β :=
  ((pairs.filter fun pair => pair.1 = key).getLast?).map Prod.snd

theorem lastOf_append {β : Type} (key : κ) (first second : List (κ × β)) :
    lastOf key (first ++ second) = (lastOf key second).or (lastOf key first) := by
  rw [lastOf, lastOf, lastOf, List.filter_append, List.getLast?_append, Option.map_or]

theorem lastOf_cons {β : Type} (key : κ) (pair : κ × β) (pairs : List (κ × β)) :
    lastOf key (pair :: pairs) =
      (lastOf key pairs).or (if pair.1 = key then some pair.2 else none) := by
  rw [← List.singleton_append, lastOf_append]
  congr 1
  by_cases here : pair.1 = key
  · simp [lastOf, here]
  · simp [lastOf, here]

theorem lastOf_of_ne {β : Type} {key : κ} {pairs : List (κ × β)}
    (other : ∀ pair ∈ pairs, pair.1 ≠ key) : lastOf key pairs = none := by
  have nothing : (pairs.filter fun pair => pair.1 = key) = [] :=
    List.filter_eq_nil_iff.mpr fun pair member => by simpa using other pair member
  rw [lastOf, nothing]
  rfl

theorem lastOf_map {β γ : Type} (key : κ) (value : β → γ) (pairs : List (κ × β)) :
    lastOf key (pairs.map fun pair => (pair.1, value pair.2)) =
      (lastOf key pairs).map value := by
  induction pairs with
  | nil => rfl
  | cons pair pairs ih =>
      rw [List.map_cons, lastOf_cons, ih, lastOf_cons, Option.map_or]
      congr 1
      split
      · rfl
      · rfl

/-- Among distinct keys the last is the first. -/
theorem lastOf_distinct [BEq κ] [LawfulBEq κ] {β : Type} {key : κ} {pairs : List (κ × β)}
    (distinct : (pairs.map Prod.fst).Nodup) : lastOf key pairs = pairs.lookup key := by
  induction pairs with
  | nil => rfl
  | cons pair pairs ih =>
      obtain ⟨name, value⟩ := pair
      obtain ⟨fresh, restDistinct⟩ := List.nodup_cons.mp distinct
      rw [lastOf_cons, ih restDistinct, List.lookup_cons]
      by_cases here : name = key
      · have absent : pairs.lookup key = none := by
          rw [List.lookup_eq_none_iff]
          intro other member
          rw [bne_iff_ne]
          intro same
          exact fresh (List.mem_map.mpr ⟨other, member, by rw [← same, here]⟩)
        simp [absent, here]
      · simp [here, beq_eq_false_iff_ne.mpr (Ne.symm here)]

/-- A loop that overwrites a field keeps what is said last. -/
theorem foldl_lastOf {σ α β : Type} {step : σ → κ × α → σ} (get : σ → Option β) (key : κ)
    (value : α → β) (steps : ∀ state pair,
      get (step state pair) = if pair.1 = key then some (value pair.2) else get state)
    (pairs : List (κ × α)) (state : σ) :
    get (pairs.foldl step state) = ((lastOf key pairs).map value).or (get state) := by
  induction pairs generalizing state with
  | nil => rfl
  | cons pair pairs ih =>
      rw [List.foldl_cons, ih, steps, lastOf_cons, Option.map_or, Option.or_assoc]
      congr 1
      split
      · rfl
      · rfl

end LastOf

/-! Lines that trimming leaves as they are, but for indentation. -/

structure Solid (ls : List (List Char)) : Prop where
  starts : ∃ char, ls.head?.bind List.head? = some char ∧ isWhitespace char = false
  free : ∀ line ∈ ls, '\n' ∉ line
  ends : ∀ line ∈ ls, ∃ last, line.getLast? = some last ∧ isWhitespace last = false

namespace Solid

variable {ls : List (List Char)}

theorem isLine (solid : Solid ls) : ∀ line ∈ ls, IsLine line := by
  intro line member
  refine ⟨solid.free line member, fun isReturn => ?_⟩
  obtain ⟨last, isLast, stays⟩ := solid.ends line member
  rw [isReturn] at isLast
  rw [← Option.some.inj isLast] at stays
  revert stays
  decide

theorem filled (solid : Solid ls) : ls ≠ [] := by
  rintro rfl
  obtain ⟨char, isChar, _⟩ := solid.starts
  simp at isChar

theorem noEmpty (solid : Solid ls) : [] ∉ ls := by
  intro member
  obtain ⟨last, isLast, _⟩ := solid.ends [] member
  simp at isLast

theorem joined_head {ending : LineEnding} (solid : Solid ls) :
    (joined ending ls).head? = ls.head?.bind List.head? := by
  obtain ⟨char, isChar, _⟩ := solid.starts
  cases ls with
  | nil => simp at isChar
  | cons line rest =>
      have isHead : line.head? = some char := isChar
      obtain ⟨tail, rfl⟩ := List.head?_eq_some_iff.mp isHead
      cases rest with
      | nil => rfl
      | cons next rest => rfl

theorem trim_joined (solid : Solid ls) (ending : LineEnding) :
    trim (joined ending ls) = joined ending ls := by
  obtain ⟨char, isChar, stays⟩ := solid.starts
  have isLine := List.getLast?_eq_some_getLast solid.filled
  obtain ⟨last, isLast, lastStays⟩ := solid.ends _ (List.mem_of_getLast? isLine)
  have notNil : ls.getLast solid.filled ≠ [] := by
    intro isNil
    simp [isNil] at isLast
  exact trim_whole (solid.joined_head.trans isChar) ((joined_getLast? isLine notNil).trans isLast)
    stays lastStays

theorem lines_joined (solid : Solid ls) (ending : LineEnding) : lines (joined ending ls) = ls := by
  refine Lockfile.lines_joined solid.isLine fun isEmpty => ?_
  exact solid.noEmpty (List.mem_of_getLast? isEmpty)

end Solid

theorem toBytes_inj {first second : List Char} : toBytes first = toBytes second ↔ first = second := by
  constructor
  · intro same
    rw [toBytes, toBytes, utf8_eq, utf8_eq, String.toList_ofList, String.toList_ofList] at same
    exact encode_injective same
  · exact congrArg toBytes

/-! Lists that agree at each place. -/

theorem filterMap_eq_iff {α β : Type} {first second : α → Option β} {xs : List α}
    (fuller : ∀ x ∈ xs, (second x).isSome → (first x).isSome) :
    xs.filterMap first = xs.filterMap second ↔ ∀ x ∈ xs, first x = second x := by
  have longer {xs : List α} (fuller : ∀ x ∈ xs, (second x).isSome → (first x).isSome) :
      (xs.filterMap second).length ≤ (xs.filterMap first).length := by
    induction xs with
    | nil => simp
    | cons x xs ih =>
        have rest := ih fun other member => fuller other (List.mem_cons_of_mem _ member)
        have here := fuller x (by simp)
        cases isSecond : second x with
        | none =>
            cases isFirst : first x with
            | none => simpa [isFirst, isSecond] using rest
            | some y =>
                simp only [List.filterMap_cons, isFirst, isSecond, List.length_cons]
                omega
        | some y =>
            obtain ⟨z, isFirst⟩ := Option.isSome_iff_exists.mp (here (by simp [isSecond]))
            simpa [isFirst, isSecond] using rest
  constructor
  · induction xs with
    | nil => simp
    | cons x xs ih =>
        intro same
        have restFuller : ∀ x ∈ xs, (second x).isSome → (first x).isSome :=
          fun other member => fuller other (List.mem_cons_of_mem _ member)
        rw [List.filterMap_cons, List.filterMap_cons] at same
        have both : first x = second x ∧ xs.filterMap first = xs.filterMap second := by
          cases isFirst : first x with
          | none =>
              cases isSecond : second x with
              | none => simpa [isFirst, isSecond] using same
              | some y => simpa [isFirst, isSecond] using fuller x (by simp)
          | some y =>
              cases isSecond : second x with
              | none =>
                  simp only [isFirst, isSecond] at same
                  have lengths := congrArg List.length same
                  have atLeast := longer restFuller
                  rw [List.length_cons] at lengths
                  omega
              | some z => simpa [isFirst, isSecond] using same
        intro other member
        rcases List.mem_cons.mp member with rfl | later
        · exact both.1
        · exact ih restFuller both.2 other later
  · exact List.filterMap_congr

/-- Lists of which each beginning agrees agree at each place. -/
theorem filterMap_take_eq_iff {α β : Type} {first second : α → Option β} {xs : List α} :
    (∀ count, (xs.take count).filterMap first = (xs.take count).filterMap second) ↔
      ∀ x ∈ xs, first x = second x := by
  constructor
  · induction xs with
    | nil => simp
    | cons x xs ih =>
        intro same
        have here : first x = second x := by
          have one := same 1
          cases isFirst : first x with
          | none =>
              cases isSecond : second x with
              | none => rfl
              | some z => simp [isFirst, isSecond] at one
          | some y =>
              cases isSecond : second x with
              | none => simp [isFirst, isSecond] at one
              | some z => simpa [isFirst, isSecond] using one
        have rest : ∀ x ∈ xs, first x = second x := by
          refine ih fun count => ?_
          have longer := same (count + 1)
          rw [List.take_succ_cons, List.filterMap_cons, List.filterMap_cons, here] at longer
          cases isSecond : second x with
          | none => simpa [isSecond] using longer
          | some y => simpa [isSecond] using longer
        intro other member
        rcases List.mem_cons.mp member with rfl | later
        · exact here
        · exact rest other later
  · exact fun same count => List.filterMap_congr fun x member => same x (List.mem_of_mem_take member)

/-- A loop has made what is expected of each beginning if and only if each step has made what is
expected of it. -/
theorem outputs_iff {σ α β : Type} {step : σ → α → σ} {output : σ → List β}
    {expected : α → Option β} {xs : List α} {state : σ} :
    (∀ count, output ((xs.take count).foldl step state) =
      output state ++ (xs.take count).filterMap expected) ↔
      ∀ before x after, xs = before ++ x :: after →
        output (step (before.foldl step state) x) =
          output (before.foldl step state) ++ (expected x).toList := by
  constructor
  · rintro outputs before x after rfl
    have here := outputs before.length
    have next := outputs (before.length + 1)
    rw [List.take_left] at here
    rw [List.take_length_add_append, List.take_succ_cons, List.take_zero, List.foldl_append,
      List.filterMap_append, ← List.append_assoc, ← here] at next
    rw [List.foldl_cons, List.foldl_nil] at next
    rw [next]
    cases isExpected : expected x with
    | none => rw [List.filterMap_cons_none isExpected]; rfl
    | some y => rw [List.filterMap_cons_some isExpected]; rfl
  · intro steps count
    induction count with
    | zero => simp
    | succ count ih =>
        by_cases more : count < xs.length
        · have split := List.take_append_getElem (l := xs) more
          have isStep := steps (xs.take count) xs[count] (xs.drop (count + 1)) (by simp)
          rw [← split, List.foldl_append, List.filterMap_append, ← List.append_assoc, ← ih,
            List.foldl_cons, List.foldl_nil, isStep]
          cases isExpected : expected xs[count] with
          | none => rw [List.filterMap_cons_none isExpected]; rfl
          | some y => rw [List.filterMap_cons_some isExpected]; rfl
        · rw [List.take_of_length_le (by omega)]
          rwa [List.take_of_length_le (by omega)] at ih

end Rage.Lockfile
