import Mathlib.Data.List.Basic

/-!
Texts in JSON.  Quotation marks say which characters of a text are in its strings, and outside of
them the brackets of a value are balanced.
-/

namespace Rage.JsonText

inductive Value
  | null
  | bool (value : Bool)
  | number (text : List Char)
  | string (text : List Char)
  | array (values : List Value)
  | object (members : List (List Char × Value))

def isBlank (char : Char) : Bool := char == ' ' || char == '\t' || char == '\n' || char == '\r'

def Blank (text : List Char) : Prop := ∀ char ∈ text, isBlank char = true

def isControl (char : Char) : Bool := char.toNat < 0x20

def isHexDigit (char : Char) : Bool :=
  char.isDigit || ('a' ≤ char && char ≤ 'f') || ('A' ≤ char && char ≤ 'F')

/-- A number has none of the characters that the rest of the grammar stands on. -/
def isNumeric (char : Char) : Bool :=
  char.isDigit || char == '-' || char == '+' || char == '.' || char == 'e' || char == 'E'

def hexValue (digits : List Char) : Nat :=
  digits.foldl (fun value digit =>
    16 * value +
      if digit.isDigit then digit.toNat - '0'.toNat
      else if 'a' ≤ digit then digit.toNat - 'a'.toNat + 10
      else digit.toNat - 'A'.toNat + 10) 0

/-- The letters of the short escapes, and what they stand for. -/
def shortEscapes : List (Char × Char) :=
  [('"', '"'), ('\\', '\\'), ('/', '/'), ('b', '\x08'), ('f', '\x0c'), ('n', '\n'), ('r', '\r'),
    ('t', '\t')]

/-- What stands between the quotation marks of a string. -/
inductive StringText : List Char → List Char → Prop
  | nil : StringText [] []
  | plain {char : Char} {text body : List Char} (printable : isControl char = false)
      (noQuote : char ≠ '"') (noBackslash : char ≠ '\\') (rest : StringText text body) :
      StringText (char :: text) (char :: body)
  | short {letter char : Char} {text body : List Char} (known : (letter, char) ∈ shortEscapes)
      (rest : StringText text body) : StringText (char :: text) ('\\' :: letter :: body)
  | unit {digits : List Char} {text body : List Char} (four : digits.length = 4)
      (hex : ∀ digit ∈ digits, isHexDigit digit = true) (rest : StringText text body) :
      StringText (Char.ofNat (hexValue digits) :: text) ('\\' :: 'u' :: (digits ++ body))
  | pair {high low : List Char} {text body : List Char} (fourHigh : high.length = 4)
      (hexHigh : ∀ digit ∈ high, isHexDigit digit = true) (fourLow : low.length = 4)
      (hexLow : ∀ digit ∈ low, isHexDigit digit = true) (rest : StringText text body) :
      StringText
        (Char.ofNat (0x10000 + (hexValue high - 0xD800) * 0x400 + (hexValue low - 0xDC00)) :: text)
        ('\\' :: 'u' :: (high ++ '\\' :: 'u' :: (low ++ body)))

inductive Form
  | value (value : Value)
  | items (values : List Value)
  | members (members : List (List Char × Value))

/-- The grammar.  Of a number it says only which characters it has. -/
inductive Derives : Form → List Char → Prop
  | null : Derives (.value .null) "null".toList
  | true : Derives (.value (.bool true)) "true".toList
  | false : Derives (.value (.bool false)) "false".toList
  | number {text : List Char} (filled : text ≠ []) (numeric : ∀ char ∈ text, isNumeric char = true) :
      Derives (.value (.number text)) text
  | string {text body : List Char} (isString : StringText text body) :
      Derives (.value (.string text)) ('"' :: (body ++ ['"']))
  | array {values : List Value} {text : List Char} (items : Derives (.items values) text) :
      Derives (.value (.array values)) ('[' :: (text ++ [']']))
  | object {members : List (List Char × Value)} {text : List Char}
      (isMembers : Derives (.members members) text) :
      Derives (.value (.object members)) ('{' :: (text ++ ['}']))
  | noItem {blank : List Char} (isBlank : Blank blank) : Derives (.items []) blank
  | item {value : Value} {before text after : List Char} (blankBefore : Blank before)
      (isValue : Derives (.value value) text) (blankAfter : Blank after) :
      Derives (.items [value]) (before ++ (text ++ after))
  | items {value next : Value} {values : List Value} {before text after others : List Char}
      (blankBefore : Blank before) (isValue : Derives (.value value) text)
      (blankAfter : Blank after) (rest : Derives (.items (next :: values)) others) :
      Derives (.items (value :: next :: values)) (before ++ (text ++ (after ++ ',' :: others)))
  | noMember {blank : List Char} (isBlank : Blank blank) : Derives (.members []) blank
  | member {key : List Char} {value : Value} {before body between afterColon text after : List Char}
      (blankBefore : Blank before) (isKey : StringText key body) (blankBetween : Blank between)
      (blankColon : Blank afterColon) (isValue : Derives (.value value) text)
      (blankAfter : Blank after) :
      Derives (.members [(key, value)])
        (before ++ '"' :: (body ++ '"' :: (between ++ ':' :: (afterColon ++ (text ++ after)))))
  | members {key : List Char} {value : Value} {next : List Char × Value}
      {members : List (List Char × Value)}
      {before body between afterColon text after others : List Char} (blankBefore : Blank before)
      (isKey : StringText key body) (blankBetween : Blank between) (blankColon : Blank afterColon)
      (isValue : Derives (.value value) text) (blankAfter : Blank after)
      (rest : Derives (.members (next :: members)) others) :
      Derives (.members ((key, value) :: next :: members))
        (before ++ '"' :: (body ++ '"' :: (between ++ ':' :: (afterColon ++ (text ++
          (after ++ ',' :: others))))))

/-- A whole text: a value with blanks around it. -/
def Document (value : Value) (text : List Char) : Prop :=
  ∃ before core after, Blank before ∧ Blank after ∧ Derives (.value value) core ∧
    text = before ++ (core ++ after)

/-! Where the strings of a text are, and how deep it is nested. -/

inductive Mode
  | outside
  | inside
  | escaped
  deriving DecidableEq

structure Place where
  mode : Mode
  depth : Int
  deriving DecidableEq

def Place.next : Place → Char → Option Place
  | ⟨.inside, depth⟩, char =>
      if char = '"' then some ⟨.outside, depth⟩
      else if char = '\\' then some ⟨.escaped, depth⟩
      else if isControl char then none
      else some ⟨.inside, depth⟩
  | ⟨.escaped, depth⟩, char => if isControl char then none else some ⟨.inside, depth⟩
  | ⟨.outside, depth⟩, char =>
      if char = '"' then some ⟨.inside, depth⟩
      else if char = '\\' then none
      else if char = '{' ∨ char = '[' then some ⟨.outside, depth + 1⟩
      else if char = '}' ∨ char = ']' then some ⟨.outside, depth - 1⟩
      else some ⟨.outside, depth⟩

def scan (place : Place) (text : List Char) : Option Place := text.foldlM Place.next place

theorem scan_nil (place : Place) : scan place [] = some place := rfl

theorem scan_cons (place : Place) (char : Char) (rest : List Char) :
    scan place (char :: rest) = (place.next char).bind fun next => scan next rest :=
  List.foldlM_cons

theorem scan_append (place : Place) (first second : List Char) :
    scan place (first ++ second) = (scan place first).bind fun next => scan next second :=
  List.foldlM_append

/-- A character outside that is neither a quotation mark nor a bracket nor a backslash. -/
def isNeutral (char : Char) : Bool :=
  char != '"' && char != '\\' && char != '{' && char != '[' && char != '}' && char != ']'

theorem scan_neutral {text : List Char} (neutral : ∀ char ∈ text, isNeutral char = true)
    (depth : Int) : scan ⟨.outside, depth⟩ text = some ⟨.outside, depth⟩ := by
  induction text with
  | nil => rfl
  | cons char rest ih =>
      have here := neutral char (List.mem_cons_self ..)
      simp only [isNeutral, Bool.and_eq_true, bne_iff_ne] at here
      rw [scan_cons]
      simp only [Place.next, here, if_false, or_self, Option.bind_some]
      exact ih fun later member => neutral later (List.mem_cons_of_mem char member)

theorem neutral_of_blank {char : Char} (blank : isBlank char = true) : isNeutral char = true := by
  simp only [isBlank, Bool.or_eq_true, beq_iff_eq] at blank
  rcases blank with ((rfl | rfl) | rfl) | rfl
  · decide
  · decide
  · decide
  · decide

theorem scan_blank {text : List Char} (blank : Blank text) (depth : Int) :
    scan ⟨.outside, depth⟩ text = some ⟨.outside, depth⟩ :=
  scan_neutral (fun char member => neutral_of_blank (blank char member)) depth

theorem neutral_of_numeric {char : Char} (numeric : isNumeric char = true) :
    isNeutral char = true := by
  by_contra charged
  have special : char = '"' ∨ char = '\\' ∨ char = '{' ∨ char = '[' ∨ char = '}' ∨ char = ']' := by
    by_contra none
    simp only [not_or] at none
    exact charged (by simp [isNeutral, none])
  rcases special with rfl | rfl | rfl | rfl | rfl | rfl
  · exact absurd numeric (by decide)
  · exact absurd numeric (by decide)
  · exact absurd numeric (by decide)
  · exact absurd numeric (by decide)
  · exact absurd numeric (by decide)
  · exact absurd numeric (by decide)

theorem next_inside_plain {char : Char} (printable : isControl char = false) (noQuote : char ≠ '"')
    (noBackslash : char ≠ '\\') (depth : Int) :
    Place.next ⟨.inside, depth⟩ char = some ⟨.inside, depth⟩ := by
  simp [Place.next, printable, noQuote, noBackslash]

theorem plain_of_hex {char : Char} (hex : isHexDigit char = true) :
    isControl char = false ∧ char ≠ '"' ∧ char ≠ '\\' := by
  refine ⟨?_, ?_, ?_⟩
  · by_contra control
    have low : char.toNat < 0x20 := by simpa [isControl] using control
    simp only [isHexDigit, Char.isDigit, Bool.or_eq_true, Bool.and_eq_true, decide_eq_true_eq]
      at hex
    have bounds : 0x30 ≤ char.toNat := by
      rcases hex with (hex | hex) | hex
      · exact hex.1
      · exact Nat.le_trans (by decide) (show 'a'.toNat ≤ char.toNat from hex.1)
      · exact Nat.le_trans (by decide) (show 'A'.toNat ≤ char.toNat from hex.1)
    omega
  · rintro rfl
    exact absurd hex (by decide)
  · rintro rfl
    exact absurd hex (by decide)

theorem scan_hex {digits : List Char} (hex : ∀ digit ∈ digits, isHexDigit digit = true)
    (depth : Int) : scan ⟨.inside, depth⟩ digits = some ⟨.inside, depth⟩ := by
  induction digits with
  | nil => rfl
  | cons digit rest ih =>
      obtain ⟨printable, noQuote, noBackslash⟩ := plain_of_hex (hex digit (List.mem_cons_self ..))
      rw [scan_cons, next_inside_plain printable noQuote noBackslash, Option.bind_some]
      exact ih fun later member => hex later (List.mem_cons_of_mem digit member)

theorem scan_escape {letter : Char} (printable : isControl letter = false) (depth : Int)
    (rest : List Char) : scan ⟨.inside, depth⟩ ('\\' :: letter :: rest) =
      scan ⟨.inside, depth⟩ rest := by
  rw [scan_cons]
  simp only [Place.next, Char.reduceEq, if_false, if_true, Option.bind_some]
  rw [scan_cons]
  simp [Place.next, printable]

theorem scan_stringText {text body : List Char} (isString : StringText text body) (depth : Int) :
    scan ⟨.inside, depth⟩ body = some ⟨.inside, depth⟩ := by
  induction isString with
  | nil => rfl
  | plain printable noQuote noBackslash _ ih =>
      rw [scan_cons, next_inside_plain printable noQuote noBackslash, Option.bind_some, ih]
  | short known _ ih =>
      rename_i letter char text body
      have printable : ∀ escape ∈ shortEscapes, isControl escape.1 = false := by decide
      rw [scan_escape (printable _ known), ih]
  | unit _ hex _ ih => rw [scan_escape (by decide), scan_append, scan_hex hex, Option.bind_some, ih]
  | pair _ hexHigh _ hexLow _ ih =>
      rw [scan_escape (by decide), scan_append, scan_hex hexHigh, Option.bind_some,
        scan_escape (by decide), scan_append, scan_hex hexLow, Option.bind_some, ih]

theorem scan_quoted {text body : List Char} (isString : StringText text body) (depth : Int)
    (rest : List Char) : scan ⟨.outside, depth⟩ ('"' :: (body ++ '"' :: rest)) =
      scan ⟨.outside, depth⟩ rest := by
  rw [scan_cons]
  simp only [Place.next, if_true, Option.bind_some]
  rw [scan_append, scan_stringText isString, Option.bind_some, scan_cons]
  simp [Place.next]

theorem scan_derives {form : Form} {text : List Char} (derived : Derives form text) (depth : Int) :
    scan ⟨.outside, depth⟩ text = some ⟨.outside, depth⟩ := by
  induction derived generalizing depth with
  | null => exact scan_neutral (List.all_eq_true.mp (by decide)) depth
  | true => exact scan_neutral (List.all_eq_true.mp (by decide)) depth
  | false => exact scan_neutral (List.all_eq_true.mp (by decide)) depth
  | number _ numeric =>
      exact scan_neutral (fun char member => neutral_of_numeric (numeric char member)) depth
  | string isString => rw [scan_quoted isString, scan_nil]
  | array _ ih =>
      rw [scan_cons]
      simp only [Place.next, or_true, if_true, Char.reduceEq, if_false, Option.bind_some]
      rw [scan_append, ih, Option.bind_some, scan_cons]
      simp [Place.next, scan_nil]
  | object _ ih =>
      rw [scan_cons]
      simp only [Place.next, true_or, if_true, Char.reduceEq, if_false, Option.bind_some]
      rw [scan_append, ih, Option.bind_some, scan_cons]
      simp [Place.next, scan_nil]
  | noItem isBlank => exact scan_blank isBlank depth
  | item blankBefore _ blankAfter ih =>
      rw [scan_append, scan_blank blankBefore, Option.bind_some, scan_append, ih, Option.bind_some,
        scan_blank blankAfter]
  | items blankBefore _ blankAfter _ ihValue ihRest =>
      rw [scan_append, scan_blank blankBefore, Option.bind_some, scan_append, ihValue,
        Option.bind_some, scan_append, scan_blank blankAfter, Option.bind_some, scan_cons]
      simp only [Place.next, Char.reduceEq, if_false, or_self, Option.bind_some]
      exact ihRest depth
  | noMember isBlank => exact scan_blank isBlank depth
  | member blankBefore isKey blankBetween blankColon _ blankAfter ih =>
      rw [scan_append, scan_blank blankBefore, Option.bind_some, scan_quoted isKey, scan_append,
        scan_blank blankBetween, Option.bind_some, scan_cons]
      simp only [Place.next, Char.reduceEq, if_false, or_self, Option.bind_some]
      rw [scan_append, scan_blank blankColon, Option.bind_some, scan_append, ih, Option.bind_some,
        scan_blank blankAfter]
  | members blankBefore isKey blankBetween blankColon _ blankAfter _ ihValue ihRest =>
      rw [scan_append, scan_blank blankBefore, Option.bind_some, scan_quoted isKey, scan_append,
        scan_blank blankBetween, Option.bind_some, scan_cons]
      simp only [Place.next, Char.reduceEq, if_false, or_self, Option.bind_some]
      rw [scan_append, scan_blank blankColon, Option.bind_some, scan_append, ihValue,
        Option.bind_some, scan_append, scan_blank blankAfter, Option.bind_some, scan_cons]
      simp only [Place.next, Char.reduceEq, if_false, or_self, Option.bind_some]
      exact ihRest depth

theorem scan_document {value : Value} {text : List Char} (document : Document value text) :
    scan ⟨.outside, 0⟩ text = some ⟨.outside, 0⟩ := by
  obtain ⟨before, core, after, blankBefore, blankAfter, derived, rfl⟩ := document
  rw [scan_append, scan_blank blankBefore, Option.bind_some, scan_append, scan_derives derived,
    Option.bind_some, scan_blank blankAfter]

theorem document_filled {value : Value} {text : List Char} (document : Document value text) :
    text ≠ [] := by
  obtain ⟨before, core, after, -, -, derived, rfl⟩ := document
  cases derived with
  | null => simp
  | true => simp
  | false => simp
  | number filled _ => simp [filled]
  | string _ => simp
  | array _ => simp
  | object _ => simp

/-- An array or an object with a string in it, or a member. -/
inductive Quoted : Value → Prop
  | item {values : List Value} {text : List Char} (member : .string text ∈ values) :
      Quoted (.array values)
  | member {members : List (List Char × Value)} (filled : members ≠ []) : Quoted (.object members)

theorem quote_mem_items {values : List Value} {body : List Char}
    (derived : Derives (.items values) body) {text : List Char} (member : .string text ∈ values) :
    '"' ∈ body := by
  generalize isForm : Form.items values = form at derived
  induction derived generalizing values with
  | item _ isValue _ _ =>
      obtain rfl := Form.items.inj isForm
      obtain rfl := List.mem_singleton.mp member
      cases isValue
      simp
  | items _ isValue _ _ _ ihRest =>
      obtain rfl := Form.items.inj isForm
      rcases List.mem_cons.mp member with rfl | later
      · cases isValue
        simp
      · simp [ihRest later rfl]
  | noItem _ =>
      obtain rfl := Form.items.inj isForm
      simp at member
  | _ => simp at isForm

theorem quote_mem_members {members : List (List Char × Value)} {body : List Char}
    (derived : Derives (.members members) body) (filled : members ≠ []) : '"' ∈ body := by
  cases derived with
  | noMember _ => exact (filled rfl).elim
  | member => simp
  | members => simp

theorem quote_mem {value : Value} {text : List Char} (document : Document value text)
    (quoted : Quoted value) : '"' ∈ text := by
  obtain ⟨before, core, after, -, -, derived, rfl⟩ := document
  cases quoted with
  | item member =>
      cases derived with
      | array items => simp [quote_mem_items items member]
  | member filled =>
      cases derived with
      | object isMembers => simp [quote_mem_members isMembers filled]

/-- Its last character that is no blank is a closing bracket. -/
theorem bracket_last {value : Value} {text : List Char} (document : Document value text)
    (quoted : Quoted value) : ∃ front bracket after, (bracket = ']' ∨ bracket = '}') ∧
      Blank after ∧ text = front ++ bracket :: after := by
  obtain ⟨before, core, after, -, blankAfter, derived, rfl⟩ := document
  cases quoted with
  | item =>
      cases derived with
      | array items =>
          rename_i body
          exact ⟨before ++ '[' :: body, ']', after, Or.inl rfl, blankAfter, by simp⟩
  | member =>
      cases derived with
      | object isMembers =>
          rename_i body
          exact ⟨before ++ '{' :: body, '}', after, Or.inr rfl, blankAfter, by simp⟩

/-! Texts that are written without blanks. -/

def escapeChar (char : Char) : List Char :=
  if char = '\\' then ['\\', '\\'] else if char = '"' then ['\\', '"'] else [char]

def escape (text : List Char) : List Char := text.flatMap escapeChar

theorem escape_cons (char : Char) (rest : List Char) :
    escape (char :: rest) = escapeChar char ++ escape rest := rfl

theorem eq_false_of_any {holds : Char → Bool} {text : List Char}
    (none : text.any holds = false) : ∀ char ∈ text, holds char = false :=
  fun char member => Bool.eq_false_iff.mpr (List.any_eq_false.mp none char member)

theorem stringText_escape {text : List Char} (printable : ∀ char ∈ text, isControl char = false) :
    StringText text (escape text) := by
  induction text with
  | nil => exact .nil
  | cons char rest ih =>
      have later := ih fun other member => printable other (List.mem_cons_of_mem char member)
      rw [escape_cons]
      unfold escapeChar
      split
      · rename_i isBackslash
        subst isBackslash
        exact .short (by decide) later
      · split
        · rename_i isQuote
          subst isQuote
          exact .short (by decide) later
        · rename_i noBackslash noQuote
          exact .plain (printable char (List.mem_cons_self ..)) noQuote noBackslash later

theorem numeric_digits (number : Nat) :
    ∀ char ∈ Nat.toDigits 10 number, isNumeric char = true := by
  intro char member
  simp [isNumeric, Nat.isDigit_of_mem_toDigits (by decide) (by decide) member]

theorem blank_nil : Blank [] := by simp [Blank]

end Rage.JsonText
