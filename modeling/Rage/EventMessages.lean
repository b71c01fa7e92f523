import Mathlib.Tactic.IntervalCases
import Rage.JsonText
import Rage.LineStream
import Rage.PipeProto

/-!
The messages of the sandbox of macOS.  A library in each process sends a line of JSON for every
access, in which it escapes quotation marks and backslashes only.
-/

namespace Rage.Interpose

open JsonText
open PipeProto (AccessEvent)

/-! The calls that are interposed, and what is sent for them.  A path is `none` where the pointer is
null or the bytes are no UTF-8. -/

inductive Call
  | rageOpen (path : Option (List Char)) (flags : BitVec 32)
  | rageOpenat (path : Option (List Char)) (flags : BitVec 32)
  | rageStat (path : Option (List Char))
  | rageLstat (path : Option (List Char))
  | rageRename (old new : Option (List Char))
  | rageUnlink (path : Option (List Char))
  | rageMkdir (path : Option (List Char))

def oWronly : BitVec 32 := 0x1
def oRdwr : BitVec 32 := 0x2
def oCreat : BitVec 32 := 0x200
def oTrunc : BitVec 32 := 0x400

def isWrite (flags : BitVec 32) : Bool :=
  flags &&& oWronly != 0 || flags &&& oRdwr != 0 || flags &&& oCreat != 0 || flags &&& oTrunc != 0

def opened (pid : UInt32) (flags : BitVec 32) (path : List Char) : AccessEvent :=
  if isWrite flags then .write path pid else .read path pid

def Call.accesses (pid : UInt32) : Call → List AccessEvent
  | .rageOpen path flags | .rageOpenat path flags => path.toList.map (opened pid flags)
  | .rageStat path | .rageLstat path => path.toList.map fun path => .read path pid
  | .rageRename old new =>
      (old.toList ++ new.toList).map fun path => .write path pid
  | .rageUnlink path | .rageMkdir path => path.toList.map fun path => .write path pid

def opName : AccessEvent → List Char
  | .read _ _ => "read".toList
  | .write _ _ => "write".toList

/-- `str::replace` of one character. -/
def replaceChar (char : Char) (by_ : List Char) (text : List Char) : List Char :=
  text.flatMap fun other => if other = char then by_ else [other]

def escaped (text : List Char) : List Char :=
  replaceChar '"' ['\\', '"'] (replaceChar '\\' ['\\', '\\'] text)

/-- The line that `send_event` writes, up to its newline. -/
def message (event : AccessEvent) : List Char :=
  "\x7b\"op\":\"".toList ++ (escaped (opName event) ++ ("\",\"path\":\"".toList ++
    (escaped event.path ++ ("\",\"pid\":".toList ++ (Nat.toDigits 10 event.pid.toNat ++ ['}'])))))

/-! `serde_json`. -/

/-- The object that an event is written as. -/
def eventObject (event : AccessEvent) : Value :=
  .object [("op".toList, .string (opName event)), ("path".toList, .string event.path),
    ("pid".toList, .number (Nat.toDigits 10 event.pid.toNat))]

/-- An enumeration with an internal tag is read from a map, or from a sequence that starts with the
tag; the path is a string in either. -/
def Shows (value : Value) (event : AccessEvent) : Prop :=
  (∃ members, value = .object members ∧ ("path".toList, .string event.path) ∈ members) ∨
    ∃ values, value = .array values ∧ .string event.path ∈ values

def Printable (event : AccessEvent) : Prop := ∀ char ∈ event.path, isControl char = false

instance (event : AccessEvent) : Decidable (Printable event) :=
  List.decidableBAll _ event.path

/-- The object without blanks, and with no more escapes than it needs. -/
def eventText (event : AccessEvent) : List Char :=
  "\x7b\"op\":\"".toList ++ (opName event ++ ("\",\"path\":\"".toList ++
    (escape event.path ++ ("\",\"pid\":".toList ++
      (Nat.toDigits 10 event.pid.toNat ++ ['}'])))))

/-- What `from_str` accepts is JSON and shows the event, and it accepts the object of an event. -/
structure SerdeEvents (fromStr : List Char → Option AccessEvent) : Prop where
  reads : ∀ text event, fromStr text = some event →
    ∃ value, Document value text ∧ Shows value event
  accepts : ∀ event, Printable event → fromStr (eventText event) = some event

/-! The line of an event is its object, as far as quotation marks and backslashes go. -/

theorem escaped_eq (text : List Char) : escaped text = escape text := by
  induction text with
  | nil => rfl
  | cons char rest ih =>
      have split : escaped (char :: rest) = escaped [char] ++ escaped rest := by
        simp [escaped, replaceChar]
      rw [split, escape_cons, ih]
      congr 1
      by_cases isBackslash : char = '\\'
      · subst isBackslash
        decide
      · by_cases isQuote : char = '"'
        · subst isQuote
          decide
        · simp [escaped, replaceChar, escapeChar, isBackslash, isQuote]

theorem escaped_opName (event : AccessEvent) : escaped (opName event) = opName event := by
  cases event with
  | read path pid => exact show escaped "read".toList = "read".toList by decide
  | write path pid => exact show escaped "write".toList = "write".toList by decide

theorem message_eq (event : AccessEvent) : message event = eventText event := by
  unfold message eventText
  rw [escaped_opName, escaped_eq]

/-! Where the strings of that text are. -/

/-- What stands in front of the path, and behind it. -/
def head (event : AccessEvent) : List Char :=
  "\x7b\"op\":\"".toList ++ (opName event ++ "\",\"path\":\"".toList)

def tail (event : AccessEvent) : List Char :=
  "\",\"pid\":".toList ++ (Nat.toDigits 10 event.pid.toNat ++ ['}'])

theorem eventText_eq (event : AccessEvent) :
    eventText event = head event ++ (escape event.path ++ tail event) := by
  unfold eventText head tail
  rw [List.append_assoc, List.append_assoc]

theorem scan_head (event : AccessEvent) :
    scan ⟨.outside, 0⟩ (head event) = some ⟨.inside, 1⟩ := by
  cases event with
  | read path pid => rfl
  | write path pid => rfl

theorem escapeChar_cases (char : Char) :
    escapeChar char = ['\\', char] ∧ isControl char = false ∨
      escapeChar char = [char] ∧ char ≠ '"' ∧ char ≠ '\\' := by
  unfold escapeChar
  by_cases isBackslash : char = '\\'
  · subst isBackslash
    exact Or.inl (by decide)
  · by_cases isQuote : char = '"'
    · subst isQuote
      exact Or.inl (by decide)
    · rw [if_neg isBackslash, if_neg isQuote]
      exact Or.inr ⟨rfl, isQuote, isBackslash⟩

theorem scan_escapeChar (char : Char) (depth : Int) :
    scan ⟨.inside, depth⟩ (escapeChar char) =
      if isControl char then none else some ⟨.inside, depth⟩ := by
  rcases escapeChar_cases char with ⟨isEscape, printable⟩ | ⟨isPlain, noQuote, noBackslash⟩
  · rw [isEscape, scan_escape printable, scan_nil, printable]
    rfl
  · rw [isPlain]
    cases control : isControl char with
    | true => simp [scan_cons, Place.next, noBackslash, noQuote, control]
    | false => simp [scan_cons, scan_nil, Place.next, noBackslash, noQuote, control]

theorem scan_escape_inside (text : List Char) (depth : Int) :
    scan ⟨.inside, depth⟩ (escape text) =
      if text.any isControl then none else some ⟨.inside, depth⟩ := by
  induction text with
  | nil => simp [escape, scan_nil]
  | cons char rest ih =>
      rw [escape_cons, scan_append, scan_escapeChar]
      cases control : isControl char with
      | true => simp [control]
      | false => simp [control, ih]

theorem prefix_append_cases {α : Type} {part first second : List α}
    (isPrefix : part <+: first ++ second) :
    part <+: first ∨ ∃ rest, part = first ++ rest ∧ rest <+: second := by
  obtain ⟨more, same⟩ := isPrefix
  rcases List.append_eq_append_iff.mp same with ⟨within, isFirst, -⟩ | ⟨rest, isPart, isSecond⟩
  · exact Or.inl ⟨within, isFirst.symm⟩
  · exact Or.inr ⟨rest, isPart, more, isSecond.symm⟩

/-- Inside of a string nothing of an escaped text leads out. -/
theorem stays_inside {text part : List Char} (isPrefix : part <+: escape text) {depth : Int}
    {place : Place} (scanned : scan ⟨.inside, depth⟩ part = some place) :
    place.mode ≠ .outside := by
  induction text generalizing part with
  | nil =>
      obtain rfl := List.prefix_nil.mp isPrefix
      obtain rfl := Option.some.inj scanned
      simp
  | cons char rest ih =>
      rw [escape_cons] at isPrefix
      rcases prefix_append_cases isPrefix with within | ⟨more, rfl, later⟩
      · rcases escapeChar_cases char with ⟨isEscape, printable⟩ | ⟨isPlain, noQuote, noBackslash⟩
        · rw [isEscape] at within
          rcases List.prefix_cons_iff.mp within with rfl | ⟨more, rfl, inner⟩
          · obtain rfl := Option.some.inj scanned
            simp
          · rcases List.prefix_cons_iff.mp inner with rfl | ⟨none, rfl, isNil⟩
            · obtain rfl := Option.some.inj scanned
              simp
            · obtain rfl := List.prefix_nil.mp isNil
              rw [scan_escape printable] at scanned
              obtain rfl := Option.some.inj scanned
              simp
        · rw [isPlain] at within
          rcases List.prefix_cons_iff.mp within with rfl | ⟨none, rfl, isNil⟩
          · obtain rfl := Option.some.inj scanned
            simp
          · obtain rfl := List.prefix_nil.mp isNil
            rw [scan_cons] at scanned
            simp only [Place.next, noQuote, noBackslash, if_false] at scanned
            split at scanned
            · simp at scanned
            · obtain rfl := Option.some.inj scanned
              simp
      · rw [scan_append, scan_escapeChar] at scanned
        split at scanned
        · simp at scanned
        · exact ih later scanned

/-- Outside of strings an escaped text has no quotation mark that does not follow a backslash. -/
theorem stays_outside {text part : List Char} (isPrefix : part <+: escape text) {depth : Int}
    {place : Place} (scanned : scan ⟨.outside, depth⟩ part = some place) :
    place.mode = .outside ∧ '"' ∉ part := by
  induction text generalizing part depth with
  | nil =>
      obtain rfl := List.prefix_nil.mp isPrefix
      obtain rfl := Option.some.inj scanned
      simp
  | cons char rest ih =>
      rw [escape_cons] at isPrefix
      rcases escapeChar_cases char with ⟨isEscape, -⟩ | ⟨isPlain, noQuote, noBackslash⟩
      · rw [isEscape] at isPrefix
        rcases List.prefix_cons_iff.mp isPrefix with rfl | ⟨more, rfl, -⟩
        · obtain rfl := Option.some.inj scanned
          simp
        · rw [scan_cons] at scanned
          simp [Place.next] at scanned
      · rw [isPlain] at isPrefix
        rcases List.prefix_cons_iff.mp isPrefix with rfl | ⟨more, rfl, later⟩
        · obtain rfl := Option.some.inj scanned
          simp
        · rw [scan_cons] at scanned
          obtain ⟨depthNext, isNext⟩ : ∃ next, Place.next ⟨.outside, depth⟩ char =
              some ⟨.outside, next⟩ := by
            simp only [Place.next, noQuote, noBackslash, if_false]
            split
            · exact ⟨_, rfl⟩
            · split
              · exact ⟨_, rfl⟩
              · exact ⟨_, rfl⟩
          rw [isNext, Option.bind_some] at scanned
          obtain ⟨outside, noMore⟩ := ih later scanned
          exact ⟨outside, by simp [noMore, Ne.symm noQuote]⟩

/-! What stands behind the path is read the wrong way round after a line that starts in the path:
what is a key of the object is outside of all strings then. -/

def tailFixed : List Char := ['"', ',', '"', 'p', 'i', 'd', '"', ':']

theorem tail_eq (event : AccessEvent) :
    tail event = tailFixed ++ (Nat.toDigits 10 event.pid.toNat ++ ['}']) := rfl

def isPlain (char : Char) : Bool := !isControl char && char != '"' && char != '\\'

theorem scan_plain {text : List Char} (plain : ∀ char ∈ text, isPlain char = true) (depth : Int) :
    scan ⟨.inside, depth⟩ text = some ⟨.inside, depth⟩ := by
  induction text with
  | nil => rfl
  | cons char rest ih =>
      have here := plain char (List.mem_cons_self ..)
      simp only [isPlain, Bool.and_eq_true, Bool.not_eq_true', bne_iff_ne] at here
      rw [scan_cons, next_inside_plain here.1.1 here.1.2 here.2, Option.bind_some]
      exact ih fun other member => plain other (List.mem_cons_of_mem char member)

theorem isPlain_digits {number : Nat} {char : Char} (member : char ∈ Nat.toDigits 10 number) :
    isPlain char = true := by
  have digit := Nat.isDigit_of_mem_toDigits (by decide) (by decide) member
  obtain ⟨printable, noQuote, noBackslash⟩ := plain_of_hex (show isHexDigit char = true by
    simp [isHexDigit, digit])
  simp [isPlain, printable, noQuote, noBackslash]

theorem tailFixed_prefixes {part : List Char} (isPrefix : part <+: tailFixed) (filled : part ≠ [])
    {depth : Int} {place : Place} (scanned : scan ⟨.outside, depth⟩ part = some place)
    (outside : place.mode = .outside) :
    ∃ front last, part = front ++ [last] ∧ isBlank last = false ∧ last ≠ ']' ∧ last ≠ '}' := by
  have notInside (inside : scan ⟨.outside, depth⟩ part = some ⟨.inside, depth⟩) : False := by
    rw [inside] at scanned
    obtain rfl := Option.some.inj scanned
    simp at outside
  have taken := List.prefix_iff_eq_take.mp isPrefix
  have bound : part.length ≤ 8 := isPrefix.length_le
  generalize part.length = count at taken bound
  subst taken
  interval_cases count
  · exact (filled rfl).elim
  · exact (notInside rfl).elim
  · exact (notInside rfl).elim
  · exact ⟨['"', ','], '"', rfl, by decide⟩
  · exact ⟨['"', ',', '"'], 'p', rfl, by decide⟩
  · exact ⟨['"', ',', '"', 'p'], 'i', rfl, by decide⟩
  · exact ⟨['"', ',', '"', 'p', 'i'], 'd', rfl, by decide⟩
  · exact (notInside rfl).elim
  · exact (notInside rfl).elim

theorem tail_prefixes {event : AccessEvent} {part : List Char} (isPrefix : part <+: tail event)
    (filled : part ≠ []) {depth : Int} {place : Place}
    (scanned : scan ⟨.outside, depth⟩ part = some place) (outside : place.mode = .outside) :
    ∃ front last, part = front ++ [last] ∧ isBlank last = false ∧ last ≠ ']' ∧ last ≠ '}' := by
  rw [tail_eq] at isPrefix
  rcases prefix_append_cases isPrefix with within | ⟨more, rfl, later⟩
  · exact tailFixed_prefixes within filled scanned outside
  · have plain : ∀ char ∈ more, isPlain char = true := by
      intro char member
      rcases List.mem_append.mp (later.subset member) with digit | bracket
      · exact isPlain_digits digit
      · obtain rfl := List.mem_singleton.mp bracket
        decide
    have inside : scan ⟨.outside, depth⟩ (tailFixed ++ more) = some ⟨.inside, depth⟩ := by
      rw [scan_append]
      exact scan_plain plain depth
    rw [inside] at scanned
    obtain rfl := Option.some.inj scanned
    simp at outside

def isBracket (char : Char) : Bool := char == '{' || char == '[' || char == '}' || char == ']'

theorem isBracket_digit {char : Char} (digit : char.isDigit = true) : isBracket char = false := by
  have differs {bracket : Char} (noDigit : bracket.isDigit = false) : (char == bracket) = false := by
    rw [beq_eq_false_iff_ne]
    rintro rfl
    rw [digit] at noDigit
    contradiction
  simp only [isBracket, Bool.or_eq_false_iff]
  exact ⟨⟨⟨differs rfl, differs rfl⟩, differs rfl⟩, differs rfl⟩

theorem scan_depth {text : List Char} (noBracket : ∀ char ∈ text, isBracket char = false)
    {place last : Place} (scanned : scan place text = some last) : last.depth = place.depth := by
  induction text generalizing place with
  | nil =>
      obtain rfl := Option.some.inj scanned
      rfl
  | cons char rest ih =>
      rw [scan_cons] at scanned
      obtain ⟨next, isNext, later⟩ := Option.bind_eq_some_iff.mp scanned
      have sameDepth : next.depth = place.depth := by
        have noneHere := noBracket char (List.mem_cons_self ..)
        simp only [isBracket, Bool.or_eq_false_iff, beq_eq_false_iff_ne] at noneHere
        obtain ⟨mode, depth⟩ := place
        cases mode with
        | outside =>
            simp only [Place.next, noneHere, or_self, if_false] at isNext
            grind
        | inside =>
            simp only [Place.next] at isNext
            grind
        | escaped =>
            simp only [Place.next] at isNext
            grind
      rw [ih (fun other member => noBracket other (List.mem_cons_of_mem char member)) later,
        sameDepth]

theorem head_cons (event : AccessEvent) : ∃ inner, head event = '{' :: inner ∧
    ∀ char ∈ inner, isBracket char = false := by
  cases event with
  | read path pid => exact ⟨"\"op\":\"read\",\"path\":\"".toList, rfl,
      eq_false_of_any (by decide)⟩
  | write path pid => exact ⟨"\"op\":\"write\",\"path\":\"".toList, rfl,
      eq_false_of_any (by decide)⟩

/-- Of the text itself only the whole is balanced. -/
theorem unbalanced {event : AccessEvent} {part : List Char} (isPrefix : part <+: eventText event)
    (filled : part ≠ []) (proper : part ≠ eventText event) :
    scan ⟨.outside, 0⟩ part ≠ some ⟨.outside, 0⟩ := by
  intro balanced
  rw [eventText_eq] at isPrefix proper
  rcases prefix_append_cases isPrefix with within | ⟨rest, rfl, later⟩
  · obtain ⟨inner, isHead, noBracket⟩ := head_cons event
    rw [isHead] at within
    rcases List.prefix_cons_iff.mp within with rfl | ⟨more, rfl, later⟩
    · exact filled rfl
    · have depths : scan ⟨.outside, 1⟩ more = some ⟨.outside, 0⟩ := balanced
      have same := scan_depth (fun char member => noBracket char (later.subset member)) depths
      exact absurd same (by decide)
  · rw [scan_append, scan_head, Option.bind_some] at balanced
    rcases prefix_append_cases later with within | ⟨more, rfl, last⟩
    · exact stays_inside within balanced rfl
    · rw [scan_append, scan_escape_inside] at balanced
      split at balanced
      · simp at balanced
      · rw [tail_eq, ← List.append_assoc] at last
        rcases List.prefix_concat_iff.mp last with isTail | inner
        · refine proper ?_
          rw [isTail, List.append_assoc, ← tail_eq]
        · have noBracket : ∀ char ∈ more, isBracket char = false := by
            intro char member
            rcases List.mem_append.mp (inner.subset member) with fixed | digit
            · exact eq_false_of_any (show tailFixed.any isBracket = false by decide) char fixed
            · exact isBracket_digit (Nat.isDigit_of_mem_toDigits (by decide) (by decide) digit)
          exact absurd (scan_depth noBracket balanced) (by decide)

/-! Where a line starts that is not the first one of a text: after a newline of the path. -/

theorem suffix_of_escape {text front rest behind : List Char}
    (split : escape text ++ behind = front ++ '\n' :: rest) (noNewline : '\n' ∉ behind) :
    ∃ later, rest = escape later ++ behind := by
  induction text generalizing front with
  | nil =>
      have member : '\n' ∈ escape [] ++ behind := by simp [split]
      exact (noNewline (by simpa [escape] using member)).elim
  | cons char text ih =>
      rw [escape_cons, List.append_assoc] at split
      rcases List.append_eq_append_iff.mp split with ⟨more, isFront, isRest⟩ | ⟨more, isChar, isRest⟩
      · exact ih isRest
      · cases more with
        | nil => exact @ih [] isRest.symm
        | cons first more =>
            obtain ⟨rfl, isMore⟩ := List.cons.inj isRest
            have noMore : more = [] := by
              rcases escapeChar_cases char with ⟨isEscape, printable⟩ | ⟨isPlain, -, -⟩
              · have member : '\n' ∈ ['\\', char] := by simp [← isEscape, isChar]
                have isNewline : '\n' = char := by simpa using member
                exact absurd printable (by simp [← isNewline, isControl])
              · rw [isPlain] at isChar
                have lengths := congrArg List.length isChar
                simp only [List.length_append, List.length_cons, List.length_nil] at lengths
                exact List.eq_nil_of_length_eq_zero (by omega)
            subst noMore
            exact ⟨text, isMore⟩

theorem newline_notMem_head (event : AccessEvent) : '\n' ∉ head event := by
  cases event with
  | read path pid => exact show '\n' ∉ "\x7b\"op\":\"read\",\"path\":\"".toList by decide
  | write path pid => exact show '\n' ∉ "\x7b\"op\":\"write\",\"path\":\"".toList by decide

theorem newline_notMem_tail (event : AccessEvent) : '\n' ∉ tail event := by
  rw [tail_eq]
  simp only [List.mem_append, not_or, List.mem_singleton]
  refine ⟨by decide, fun digit => ?_, by decide⟩
  exact absurd (Nat.isDigit_of_mem_toDigits (by decide) (by decide) digit) (by decide)

theorem newline_mem_path {event : AccessEvent} (member : '\n' ∈ eventText event) :
    '\n' ∈ event.path := by
  rw [eventText_eq, List.mem_append, List.mem_append] at member
  have within := (member.resolve_left (newline_notMem_head event)).resolve_right
    (newline_notMem_tail event)
  obtain ⟨char, isIn, written⟩ := List.mem_flatMap.mp within
  rcases escapeChar_cases char with ⟨isEscape, -⟩ | ⟨isPlain, -, -⟩
  · rw [isEscape] at written
    have same : '\n' = char := by simpa using written
    exact same ▸ isIn
  · rw [isPlain, List.mem_singleton] at written
    exact written ▸ isIn

theorem not_printable_of_newline {event : AccessEvent} (member : '\n' ∈ eventText event) :
    ¬ Printable event := fun printable =>
  absurd (printable '\n' (newline_mem_path member)) (by decide)

theorem stripReturn_eventText (event : AccessEvent) :
    LineStream.stripReturn (eventText event) = eventText event := by
  have isLast : (eventText event).getLast? = some '}' := by
    rw [eventText_eq, tail_eq, ← List.append_assoc, ← List.append_assoc, ← List.append_assoc,
      List.getLast?_concat]
  rw [LineStream.stripReturn, isLast, if_neg (by decide)]

theorem suffix_of_eventText {event : AccessEvent} {front rest : List Char}
    (split : eventText event = front ++ '\n' :: rest) :
    ∃ later, rest = escape later ++ tail event := by
  rw [eventText_eq] at split
  rcases List.append_eq_append_iff.mp split with ⟨more, isFront, isRest⟩ | ⟨more, isHead, isRest⟩
  · exact suffix_of_escape isRest (newline_notMem_tail event)
  · cases more with
    | nil =>
        exact @suffix_of_escape event.path [] rest (tail event) isRest.symm
          (newline_notMem_tail event)
    | cons first more =>
        obtain ⟨rfl, -⟩ := List.cons.inj isRest
        exact (newline_notMem_head event (by simp [isHead])).elim

section Reading

variable {fromStr : List Char → Option AccessEvent} (serde : SerdeEvents fromStr)

include serde

/-- No part of a text that a line could be is accepted, but the whole. -/
theorem rejected {event : AccessEvent} {front line behind : List Char}
    (split : eventText event = front ++ (line ++ behind))
    (starts : front = [] ∨ front.getLast? = some '\n') (proper : front ≠ [] ∨ behind ≠ []) :
    fromStr line = none := by
  by_contra accepted
  obtain ⟨shown, isShown⟩ := Option.ne_none_iff_exists'.mp accepted
  obtain ⟨value, document, shows⟩ := serde.reads line shown isShown
  have balanced := scan_document document
  have quoted : Quoted value := by
    rcases shows with ⟨members, rfl, member⟩ | ⟨values, rfl, member⟩
    · exact .member (List.ne_nil_of_mem member)
    · exact .item member
  rcases starts with isNil | isNewline
  · subst isNil
    refine unbalanced ⟨behind, split.symm⟩ (document_filled document) ?_ balanced
    intro isWhole
    rw [List.nil_append, ← isWhole] at split
    have none := List.append_right_eq_self.mp split.symm
    exact proper.elim (fun filled => filled rfl) fun filled => filled none
  · obtain ⟨before, rfl⟩ : ∃ before, front = before ++ ['\n'] := by
      obtain ⟨filled, isLast⟩ := List.getLast?_eq_some_iff.mp isNewline
      exact ⟨filled, isLast⟩
    rw [List.append_assoc, List.singleton_append] at split
    obtain ⟨later, isLine⟩ := suffix_of_eventText split
    have isPrefix : line <+: escape later ++ tail event := ⟨behind, isLine⟩
    rcases prefix_append_cases isPrefix with within | ⟨rest, rfl, isTail⟩
    · exact (stays_outside within balanced).2 (quote_mem document quoted)
    · obtain ⟨place, isPlace, goesOn⟩ := Option.bind_eq_some_iff.mp
        ((scan_append _ _ _).symm.trans balanced)
      obtain ⟨outside, noQuote⟩ := stays_outside (List.prefix_refl (escape later)) isPlace
      obtain ⟨mode, depth⟩ := place
      obtain rfl : mode = .outside := outside
      have filled : rest ≠ [] := by
        rintro rfl
        exact noQuote (by simpa using quote_mem document quoted)
      obtain ⟨most, last, rfl, noBlank, noArray, noObject⟩ :=
        tail_prefixes isTail filled goesOn rfl
      obtain ⟨core, bracket, after, isBracket, blank, isText⟩ := bracket_last document quoted
      rcases List.eq_nil_or_concat after with rfl | ⟨blanks, char, rfl⟩
      · rw [← List.append_assoc] at isText
        have same := (List.append_inj' isText rfl).2
        rw [List.singleton_inj] at same
        exact isBracket.elim (fun array => noArray (same.trans array))
          fun object => noObject (same.trans object)
      · rw [← List.append_assoc, List.concat_eq_append, ← List.cons_append, ← List.append_assoc]
          at isText
        have same := (List.append_inj' isText rfl).2
        rw [List.singleton_inj] at same
        have isBlank := blank char (by simp)
        rw [← same, noBlank] at isBlank
        contradiction

theorem rejected_control {event : AccessEvent} (control : ¬ Printable event) :
    fromStr (eventText event) = none := by
  by_contra accepted
  obtain ⟨shown, isShown⟩ := Option.ne_none_iff_exists'.mp accepted
  obtain ⟨value, document, -⟩ := serde.reads _ shown isShown
  have balanced := scan_document document
  rw [eventText_eq, scan_append, scan_head, Option.bind_some, scan_append, scan_escape_inside]
    at balanced
  split at balanced
  · simp at balanced
  · rename_i printable
    exact control (eq_false_of_any (Bool.eq_false_iff.mpr printable))

theorem fromStr_eventText (event : AccessEvent) :
    fromStr (eventText event) = if Printable event then some event else none := by
  split
  · rename_i printable
    exact serde.accepts event printable
  · rename_i control
    exact rejected_control serde control

/-! Line by line.  `texts` stands for both ways to read a stream: as far as it has come, and to its
end. -/

theorem rejected_line {event : AccessEvent} {front line behind : List Char}
    (split : eventText event = front ++ (line ++ behind))
    (starts : front = [] ∨ front.getLast? = some '\n') (proper : front ≠ [] ∨ behind ≠ []) :
    fromStr (LineStream.stripReturn line) = none := by
  unfold LineStream.stripReturn
  split
  · rename_i isReturn
    obtain ⟨most, rfl⟩ := List.getLast?_eq_some_iff.mp isReturn
    rw [List.dropLast_concat]
    rw [List.append_assoc] at split
    exact rejected serde split starts (Or.inr (by simp))
  · exact rejected serde split starts proper

variable {texts : Bytes → List (List Char)} (byLine : ∀ line rest, '\n' ∉ line →
  texts (encode line ++ LineStream.newline :: rest) = LineStream.stripReturn line :: texts rest)

include byLine

/-- The lines of a text that has more than one of them. -/
theorem rejected_lines {event : AccessEvent} {front text : List Char}
    (split : eventText event = front ++ text) (starts : front = [] ∨ front.getLast? = some '\n')
    (several : front ≠ [] ∨ '\n' ∈ text) (more : Bytes) :
    (texts (encode text ++ LineStream.newline :: more)).filterMap fromStr =
      (texts more).filterMap fromStr := by
  induction isLength : text.length using Nat.strongRecOn generalizing front text with
  | ind length ih =>
      by_cases member : '\n' ∈ text
      · obtain ⟨line, rest, rfl, noNewline⟩ := List.eq_append_cons_of_mem member
        have isNewline : encode ['\n'] = [LineStream.newline] := by decide
        have bytes : encode (line ++ '\n' :: rest) ++ LineStream.newline :: more =
            encode line ++ LineStream.newline :: (encode rest ++ LineStream.newline :: more) := by
          rw [encode_append, ← List.singleton_append, encode_append, isNewline]
          simp
        have whole : eventText event = (front ++ (line ++ ['\n'])) ++ rest := by simp [split]
        rw [bytes, byLine line _ noNewline, List.filterMap_cons,
          rejected_line serde split starts (Or.inr (by simp))]
        refine ih rest.length ?_ whole (Or.inr (by simp)) (Or.inl (by simp)) rfl
        simp only [List.length_append, List.length_cons] at isLength
        omega
      · have whole : eventText event = front ++ (text ++ []) := by simp [split]
        rw [byLine text _ member, List.filterMap_cons,
          rejected_line serde whole starts (Or.inl (several.resolve_right member))]

/-- A line that has come whole. -/
theorem texts_message (event : AccessEvent) (more : Bytes) :
    (texts (encode (message event) ++ LineStream.newline :: more)).filterMap fromStr =
      (if Printable event then [event] else []) ++ (texts more).filterMap fromStr := by
  rw [message_eq]
  by_cases several : '\n' ∈ eventText event
  · rw [if_neg (not_printable_of_newline several), List.nil_append]
    exact rejected_lines serde byLine (List.nil_append _).symm (Or.inl rfl) (Or.inr several) more
  · rw [byLine _ _ several, stripReturn_eventText, List.filterMap_cons, fromStr_eventText serde]
    by_cases printable : Printable event
    · rw [if_pos printable, if_pos printable]
      rfl
    · rw [if_neg printable, if_neg printable]
      rfl

omit byLine

/-- A line that has come in part; at the end of a stream it counts if only its newline is missing. -/
theorem texts_partial {event : AccessEvent} {front text : List Char}
    (split : eventText event = front ++ text) (starts : front = [] ∨ front.getLast? = some '\n')
    {part : Bytes} (isPart : part <+: encode text) :
    (LineStream.soFar part).filterMap fromStr = [] ∧
      (LineStream.whole part).filterMap fromStr =
        if front = [] ∧ part = encode text ∧ Printable event then [event] else [] := by
  induction isLength : text.length using Nat.strongRecOn generalizing front text part with
  | ind length ih =>
      obtain ⟨more, isText⟩ := isPart
      by_cases member : LineStream.newline ∈ part
      · obtain ⟨line, rest, noNewline, rfl⟩ := LineStream.exists_line member
        rw [List.append_assoc, List.cons_append] at isText
        obtain ⟨before, after, rfl, noChar, rfl, isAfter⟩ :=
          LineStream.split_at_newline isText.symm noNewline
        have whole : eventText event = (front ++ (before ++ ['\n'])) ++ after := by simp [split]
        have shorter : after.length < length := by
          simp only [List.length_append, List.length_cons] at isLength
          omega
        obtain ⟨soFar, isWhole⟩ := ih after.length shorter whole (Or.inr (by simp)) ⟨more, isAfter⟩ rfl
        have rejects := rejected_line serde split starts (Or.inr (by simp))
        have control : ¬ Printable event :=
          not_printable_of_newline (by rw [split]; simp)
        rw [LineStream.soFar_line noChar, LineStream.whole_line noChar, List.filterMap_cons,
          List.filterMap_cons, rejects, soFar, isWhole]
        exact ⟨rfl, by simp [control]⟩
      · rw [LineStream.soFar_partial member, LineStream.whole_partial member]
        refine ⟨rfl, ?_⟩
        split
        · rename_i isNil
          have noPart : ¬ (front = [] ∧ part = encode text ∧ Printable event) := by
            rintro ⟨rfl, same, -⟩
            rw [isNil] at same
            have noText := encode_eq_nil.mp same.symm
            obtain ⟨inner, isHead, -⟩ := head_cons event
            rw [noText, eventText_eq, isHead] at split
            simp at split
          rw [if_neg noPart]
          rfl
        · cases isUtf8 : fromUtf8 part with
          | none =>
              have noPart : part ≠ encode text := by
                rintro rfl
                simp [fromUtf8_encode] at isUtf8
              simp [noPart]
          | some line =>
              obtain rfl := fromUtf8_eq_some.mp isUtf8
              obtain ⟨behind, rfl, -⟩ := prefix_of_encode isText
              by_cases proper : front ≠ [] ∨ behind ≠ []
              · have noPart : ¬ (front = [] ∧ encode line = encode (line ++ behind) ∧
                    Printable event) := by
                  rintro ⟨noFront, same, -⟩
                  have noBehind := List.append_right_eq_self.mp (encode_injective same).symm
                  exact proper.elim (fun filled => filled noFront) fun filled => filled noBehind
                rw [if_neg noPart]
                simp [rejected serde split starts proper]
              · simp only [not_or, not_not] at proper
                obtain ⟨rfl, rfl⟩ := proper
                rw [List.append_nil, List.nil_append] at split
                rw [List.append_nil, ← split]
                by_cases printable : Printable event
                · simp [fromStr_eventText serde, printable]
                · simp [fromStr_eventText serde, printable]

end Reading

/-! A reader of the texts that are written so. -/

theorem document_eventText {event : AccessEvent} (printable : Printable event) :
    Document (eventObject event) (eventText event) := by
  have plainOp : StringText (opName event) (opName event) := by
    cases event with
    | read path pid => exact @stringText_escape "read".toList (eq_false_of_any (by decide))
    | write path pid => exact @stringText_escape "write".toList (eq_false_of_any (by decide))
  have opKey : StringText "op".toList "op".toList :=
    @stringText_escape "op".toList (eq_false_of_any (by decide))
  have pathKey : StringText "path".toList "path".toList :=
    @stringText_escape "path".toList (eq_false_of_any (by decide))
  have pidKey : StringText "pid".toList "pid".toList :=
    @stringText_escape "pid".toList (eq_false_of_any (by decide))
  have pid : Derives (.members [("pid".toList, .number (Nat.toDigits 10 event.pid.toNat))])
      (['"', 'p', 'i', 'd', '"', ':'] ++ Nat.toDigits 10 event.pid.toNat) := by
    have isNumber := Derives.member blank_nil pidKey blank_nil blank_nil
      (.number Nat.toDigits_ne_nil (numeric_digits event.pid.toNat)) blank_nil
    simpa using isNumber
  have path := Derives.members blank_nil pathKey blank_nil blank_nil
    (.string (stringText_escape printable)) blank_nil pid
  have members := Derives.members blank_nil opKey blank_nil blank_nil
    (.string plainOp) blank_nil path
  refine ⟨[], _, [], blank_nil, blank_nil, .object members, ?_⟩
  have first : "\x7b\"op\":\"".toList = ['{', '"', 'o', 'p', '"', ':', '"'] := by decide
  have second : "\",\"path\":\"".toList = ['"', ',', '"', 'p', 'a', 't', 'h', '"', ':', '"'] := by
    decide
  have third : "\",\"pid\":".toList = ['"', ',', '"', 'p', 'i', 'd', '"', ':'] := by decide
  have op : "op".toList = ['o', 'p'] := by decide
  have isPath : "path".toList = ['p', 'a', 't', 'h'] := by decide
  unfold eventText
  rw [first, second, third, op, isPath]
  simp only [List.append_assoc, List.cons_append, List.nil_append, List.append_nil]

/-- Up to the quotation mark that ends a string, and what is behind it. -/
def unescape : List Char → Option (List Char × List Char)
  | [] => none
  | '"' :: rest => some ([], rest)
  | '\\' :: char :: rest => (unescape rest).map fun found => (char :: found.1, found.2)
  | char :: rest => (unescape rest).map fun found => (char :: found.1, found.2)

def compactEvent (text : List Char) : Option AccessEvent :=
  let isRead : Bool := text[7]? = some 'r'
  match unescape (text.drop (if isRead then 21 else 22)) with
  | none => none
  | some (path, rest) =>
      let pid := UInt32.ofNat (Nat.ofDigitChars 10 ((rest.drop 7).takeWhile Char.isDigit) 0)
      let event : AccessEvent := if isRead then .read path pid else .write path pid
      if Printable event ∧ eventText event = text then some event else none

theorem unescape_escape (text rest : List Char) :
    unescape (escape text ++ '"' :: rest) = some (text, rest) := by
  induction text with
  | nil => rfl
  | cons char text ih =>
      rw [escape_cons, List.append_assoc]
      rcases escapeChar_cases char with ⟨isEscape, -⟩ | ⟨isPlain, noQuote, noBackslash⟩
      · rw [isEscape]
        simp [unescape, ih]
      · rw [isPlain]
        simp [unescape, noBackslash, ih]

theorem compactEvent_serde : SerdeEvents compactEvent where
  reads := by
    intro text event found
    unfold compactEvent at found
    simp only at found
    split at found
    · simp at found
    · obtain ⟨⟨printable, isText⟩, same⟩ := Option.ite_none_right_eq_some.mp found
      rw [Option.some.inj same] at printable isText
      exact ⟨_, isText ▸ document_eventText printable, Or.inl ⟨_, rfl, by simp⟩⟩
  accepts := by
    intro event printable
    have pidRead : (Nat.toDigits 10 event.pid.toNat ++ ['}']).takeWhile Char.isDigit =
        Nat.toDigits 10 event.pid.toNat := by
      rw [List.takeWhile_append_of_pos fun char member =>
        Nat.isDigit_of_mem_toDigits (by decide) (by decide) member]
      simp
    have opRead : decide ((eventText event)[7]? = some 'r') =
        match event with
        | .read _ _ => true
        | .write _ _ => false := by
      cases event with
      | read path pid => rfl
      | write path pid => rfl
    have behind : (eventText event).drop (if decide ((eventText event)[7]? = some 'r') = true
        then 21 else 22) = escape event.path ++ tail event := by
      rw [opRead]
      cases event with
      | read path pid => rfl
      | write path pid => rfl
    have pathRead : unescape (escape event.path ++ tail event) = some (event.path,
        tailFixed.drop 1 ++ (Nat.toDigits 10 event.pid.toNat ++ ['}'])) :=
      unescape_escape _ _
    unfold compactEvent
    simp only [behind, pathRead]
    rw [opRead, show ((tailFixed.drop 1 ++ (Nat.toDigits 10 event.pid.toNat ++ ['}'])).drop 7) =
      Nat.toDigits 10 event.pid.toNat ++ ['}'] from rfl, pidRead, Nat.ofDigitChars_ten_toDigits,
      UInt32.ofNat_toNat]
    cases event with
    | read path pid => exact if_pos ⟨printable, rfl⟩
    | write path pid => exact if_pos ⟨printable, rfl⟩

end Rage.Interpose
