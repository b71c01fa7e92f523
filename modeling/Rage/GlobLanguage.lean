import Rage.Abi
import Rage.Utf8Text
import Rage.Wildcard

/-!
The language of output globs.  A `**` stands for any run of components and a `*` for any run of
characters in one; the matchers decide it by leftmost occurrences, and every slice that they take
on the way is within its string and at a character.
-/

namespace Rage

/-! The matchers with their slices.  `none` is a panic. -/

namespace Sliced

/-- `find`: where the first occurrence begins. -/
def find (part : Bytes) : Bytes → Option Nat
  | [] => if part = [] then some 0 else none
  | byte :: rest =>
      if isPrefix part (byte :: rest) then some 0 else (find part rest).map (· + 1)

/-- The loop that both matchers have over the parts of a pattern. -/
def matchParts (last : Nat) : Nat → List Bytes → Bytes → Option Bool
  | _, [], _ => some true
  | index, part :: parts, remaining =>
      if part = [] then matchParts last (index + 1) parts remaining
      else if index = 0 then
        if isPrefix part remaining then
          (sliceFrom remaining part.length).bind fun rest => matchParts last (index + 1) parts rest
        else some false
      else if index = last then some (isSuffix part remaining)
      else
        match find part remaining with
        | some pos =>
            (sliceFrom remaining (pos + part.length)).bind fun rest =>
              matchParts last (index + 1) parts rest
        | none => some false

def simpleGlobMatch (pattern name : Bytes) : Option Bool :=
  let parts := pattern.splitOn star
  if parts.length = 1 then some (pattern == name) else matchParts (parts.length - 1) 0 parts name

def simpleComponentMatch (pattern text : Bytes) : Option Bool :=
  if pattern = [star] then some true
  else if !pattern.contains star then some (pattern == text)
  else
    let parts := pattern.splitOn star
    matchParts (parts.length - 1) 0 parts text

/-- `path[i..]` for each `i` in turn, up to the first success. -/
def anySuffix {α : Type} (matches_ : List α → Option Bool) : List α → Option Bool
  | [] => matches_ []
  | x :: xs =>
      (matches_ (x :: xs)).bind fun found => if found then some true else anySuffix matches_ xs

def globMatchRecursive : List Bytes → List Bytes → Option Bool
  | [], [] => some true
  | [], _ :: _ => some false
  | pattern :: rest, path =>
      if pattern = [star, star] then
        if rest.isEmpty then some true else anySuffix (globMatchRecursive rest) path
      else
        match path with
        | [] => some false
        | name :: names =>
            (simpleComponentMatch pattern name).bind fun found =>
              if found then globMatchRecursive rest names else some false

def outputGlobMatches (glob path : Bytes) : Option Bool :=
  globMatchRecursive ((normalizeSeparators glob).splitOn slash)
    ((normalizeSeparators path).splitOn slash)

/-! Where no slice panics, the results are those of the matchers without slices. -/

theorem afterFirst_eq (part text : Bytes) :
    afterFirst part text = (find part text).map fun pos => text.drop (pos + part.length) := by
  induction text with
  | nil =>
      simp only [afterFirst, find]
      split
      · simp
      · rfl
  | cons byte rest ih =>
      simp only [afterFirst, find]
      split
      · simp
      · rw [ih, Option.map_map]
        congr 1
        funext pos
        simp [Nat.add_right_comm]

theorem drop_of_sliceFrom {text rest : Bytes} {index : Nat}
    (sliced : sliceFrom text index = some rest) : rest = text.drop index := by
  simp only [sliceFrom] at sliced
  split at sliced
  · exact (Option.some.inj sliced).symm
  · simp at sliced

theorem matchRest_cons {part other : Bytes} {parts : List Bytes} {remaining : Bytes} :
    matchRest (part :: other :: parts) remaining =
      if part = [] then matchRest (other :: parts) remaining
      else match afterFirst part remaining with
        | some rest => matchRest (other :: parts) rest
        | none => false :=
  matchRest.eq_3 remaining part (other :: parts) (by simp)

theorem matchParts_agrees {last index : Nat} {parts : List Bytes} {remaining : Bytes} {found : Bool}
    (inner : index ≠ 0) (behind : index + parts.length = last + 1)
    (isFound : matchParts last index parts remaining = some found) :
    found = matchRest parts remaining := by
  induction parts generalizing index remaining with
  | nil =>
      obtain rfl := Option.some.inj isFound
      rfl
  | cons part parts ih =>
      rw [List.length_cons] at behind
      have next {rest : Bytes} (isNext : matchParts last (index + 1) parts rest = some found) :
          found = matchRest parts rest := ih (by omega) (by omega) isNext
      cases parts with
      | nil =>
          have isLast : index = last := by simpa using behind
          by_cases isEmpty : part = []
          · simp only [matchParts, isEmpty, if_true] at isFound
            obtain rfl := Option.some.inj isFound
            simp [matchRest, isEmpty]
          · simp only [matchParts, isEmpty, if_false, isLast, if_true] at isFound
            rw [if_neg (by omega)] at isFound
            obtain rfl := Option.some.inj isFound
            simp [matchRest, isEmpty]
      | cons other parts =>
          have notLast : index ≠ last := by
            rw [List.length_cons] at behind
            omega
          by_cases isEmpty : part = []
          · rw [matchParts, if_pos isEmpty] at isFound
            rw [next isFound, matchRest_cons, if_pos isEmpty]
          · rw [matchParts, if_neg isEmpty, if_neg inner, if_neg notLast] at isFound
            rw [matchRest_cons, if_neg isEmpty, afterFirst_eq]
            cases isPos : find part remaining with
            | none =>
                simp only [isPos] at isFound
                simpa using isFound.symm
            | some pos =>
                simp only [isPos, Option.bind_eq_some_iff] at isFound
                obtain ⟨rest, sliced, isNext⟩ := isFound
                rw [Option.map_some, ← drop_of_sliceFrom sliced]
                exact next isNext

theorem simpleComponentMatch_agrees {pattern text : Bytes} {found : Bool}
    (isFound : simpleComponentMatch pattern text = some found) :
    found = Rage.simpleComponentMatch pattern text := by
  simp only [simpleComponentMatch] at isFound
  simp only [Rage.simpleComponentMatch]
  split at isFound
  · rename_i isStar
    rw [if_pos isStar, Option.some.inj isFound]
  · rename_i notStar
    rw [if_neg notStar]
    split at isFound
    · rename_i plain
      rw [if_pos plain, Option.some.inj isFound]
    · rename_i starred
      rw [if_neg starred]
      cases isSplit : pattern.splitOn star with
      | nil => exact (List.splitOn_ne_nil star pattern isSplit).elim
      | cons first parts =>
          rw [isSplit, List.length_cons, Nat.add_sub_cancel] at isFound
          have behind : 0 + 1 + parts.length = parts.length + 1 := by omega
          simp only [matchParts] at isFound
          by_cases isEmpty : first = []
          · rw [if_pos isEmpty] at isFound
            simpa [isEmpty, isPrefix] using matchParts_agrees (by omega) behind isFound
          · simp only [isEmpty, if_false, if_true] at isFound
            by_cases starts : isPrefix first text = true
            · simp only [starts, if_true, Option.bind_eq_some_iff] at isFound ⊢
              obtain ⟨rest, sliced, isRest⟩ := isFound
              rw [← drop_of_sliceFrom sliced]
              exact matchParts_agrees (by omega) behind isRest
            · simp only [starts, if_false, Bool.false_eq_true] at isFound ⊢
              simpa using isFound.symm

theorem anySuffix_agrees {α : Type} {sliced : List α → Option Bool} {plain : List α → Bool}
    (agrees : ∀ xs found, sliced xs = some found → found = plain xs) {path : List α} {found : Bool}
    (isFound : anySuffix sliced path = some found) : found = path.tails.any plain := by
  induction path with
  | nil => simpa using agrees [] found isFound
  | cons x xs ih =>
      obtain ⟨here, isHere, isRest⟩ := Option.bind_eq_some_iff.mp isFound
      rw [List.tails_cons, List.any_cons, ← agrees _ _ isHere]
      cases here with
      | true => simpa using isRest.symm
      | false => simpa using ih isRest

theorem globMatchRecursive_cons (pattern : Bytes) (rest path : List Bytes) :
    globMatchRecursive (pattern :: rest) path =
      if pattern = [star, star] then
        if rest.isEmpty then some true else anySuffix (globMatchRecursive rest) path
      else
        match path with
        | [] => some false
        | name :: names =>
            (simpleComponentMatch pattern name).bind fun found =>
              if found then globMatchRecursive rest names else some false := by
  cases path <;> simp only [globMatchRecursive]

theorem globMatchRecursive_agrees {glob path : List Bytes} {found : Bool}
    (isFound : globMatchRecursive glob path = some found) :
    found = Rage.globMatchRecursive glob path := by
  induction glob generalizing path found with
  | nil =>
      cases path with
      | nil => simpa [globMatchRecursive, Rage.globMatchRecursive] using isFound.symm
      | cons name names => simpa [globMatchRecursive, Rage.globMatchRecursive] using isFound.symm
  | cons pattern rest ih =>
      simp only [globMatchRecursive] at isFound
      simp only [Rage.globMatchRecursive]
      by_cases isRun : pattern = [star, star]
      · simp only [isRun, if_true] at isFound ⊢
        cases rest with
        | nil => simpa using isFound.symm
        | cons next rest =>
            simp only [List.isEmpty_cons, Bool.false_eq_true, if_false, Bool.false_or] at isFound ⊢
            exact anySuffix_agrees (fun _ _ => ih) isFound
      · simp only [isRun, if_false] at isFound ⊢
        cases path with
        | nil => simpa using isFound.symm
        | cons name names =>
            obtain ⟨here, isHere, isRest⟩ := Option.bind_eq_some_iff.mp isFound
            cases here with
            | true => simpa [← simpleComponentMatch_agrees isHere] using ih isRest
            | false => simpa [← simpleComponentMatch_agrees isHere] using isRest.symm

theorem outputGlobMatches_agrees {glob path : Bytes} {found : Bool}
    (isFound : outputGlobMatches glob path = some found) :
    found = Rage.outputGlobMatches glob path := globMatchRecursive_agrees isFound

end Sliced

/-! The language of a glob, in characters. -/

/-- A `*` stands for any run of characters. -/
def ComponentMatches (pattern name : List Char) : Prop :=
  Wildcard.Matches Eq (Wildcard.ofText '*' pattern) name

/-- A `**` stands for any run of components. -/
def InLanguage (glob path : List Char) : Prop :=
  Wildcard.Matches ComponentMatches (Wildcard.ofText ['*', '*'] (glob.splitOn '/'))
    (path.splitOn '/')

/-- The call returns, with the answer to a question. -/
def Decides (answer : Option Bool) (question : Prop) : Prop :=
  ∃ found, answer = some found ∧ (found = true ↔ question)

theorem decides_some {found : Bool} {question : Prop} (same : found = true ↔ question) :
    Decides (some found) question := ⟨found, rfl, same⟩

/-! Parts of a pattern in the bytes of a text. -/

section Parts

variable {part text : List Char}

theorem encode_prefix_iff : encode part <+: encode text ↔ part <+: text := by
  constructor
  · rintro ⟨rest, isText⟩
    obtain ⟨more, rfl, _⟩ := prefix_of_encode isText
    exact List.prefix_append part more
  · rintro ⟨more, rfl⟩
    rw [encode_append]
    exact List.prefix_append _ _

theorem encode_suffix_iff (filled : part ≠ []) : encode part <:+ encode text ↔ part <:+ text := by
  constructor
  · rintro ⟨front, isText⟩
    have split : encode text = front ++ (encode part ++ []) := by rw [List.append_nil, isText]
    obtain ⟨before, after, rfl, _, isEmpty⟩ := occurrence_of_encode filled split
    rw [encode_eq_nil.mp isEmpty.symm, List.append_nil]
    exact List.suffix_append before part
  · rintro ⟨front, rfl⟩
    rw [encode_append]
    exact List.suffix_append _ _

theorem find_some {part text : Bytes} {pos : Nat} (found : Sliced.find part text = some pos) :
    ∃ front rest, text = front ++ (part ++ rest) ∧ front.length = pos ∧
      ∀ other more, text = other ++ (part ++ more) → more <:+ rest := by
  induction text generalizing pos with
  | nil =>
      simp only [Sliced.find] at found
      split at found
      · rename_i isEmpty
        obtain rfl := Option.some.inj found
        exact ⟨[], [], by simp [isEmpty], rfl, by simp⟩
      · simp at found
  | cons byte text ih =>
      simp only [Sliced.find] at found
      split at found
      · rename_i starts
        obtain ⟨rest, isText⟩ := isPrefix_iff.mp starts
        obtain rfl := Option.some.inj found
        refine ⟨[], rest, isText.symm, rfl, fun other more split => ?_⟩
        have same : part ++ rest = (other ++ part) ++ more := by
          rw [isText, split, List.append_assoc]
        have shorter : more.length ≤ rest.length := by
          have lengths := congrArg List.length same
          simp only [List.length_append] at lengths
          omega
        exact List.suffix_of_suffix_length_le (List.suffix_append _ _)
          (same ▸ List.suffix_append part rest) shorter
      · rename_i notHere
        obtain ⟨later, isLater, rfl⟩ := Option.map_eq_some_iff.mp found
        obtain ⟨front, rest, rfl, rfl, first⟩ := ih isLater
        refine ⟨byte :: front, rest, rfl, rfl, fun other more split => ?_⟩
        cases other with
        | nil => exact (notHere (isPrefix_iff.mpr ⟨more, split.symm⟩)).elim
        | cons head other => exact first other more (List.cons.inj split).2

theorem find_none {part text : Bytes} (missing : Sliced.find part text = none) :
    ¬ part <:+: text := by
  induction text with
  | nil =>
      simp only [Sliced.find] at missing
      split at missing
      · simp at missing
      · rename_i filled
        simpa using filled
  | cons byte text ih =>
      simp only [Sliced.find] at missing
      split at missing
      · simp at missing
      · rename_i notHere
        rw [List.infix_cons_iff]
        rintro (starts | later)
        · exact notHere (isPrefix_iff.mpr starts)
        · exact ih (Option.map_eq_none_iff.mp missing) later

/-- A search in bytes is a search in characters, and the slice behind it does not panic. -/
theorem find_encode (text : List Char) (filled : part ≠ []) :
    (∃ pos rest, Sliced.find (encode part) (encode text) = some pos ∧
      sliceFrom (encode text) (pos + (encode part).length) = some (encode rest) ∧
      (∃ front, text = front ++ (part ++ rest)) ∧
      ∀ front more, text = front ++ (part ++ more) → more <:+ rest) ∨
    (Sliced.find (encode part) (encode text) = none ∧ ¬ part <:+: text) := by
  cases isPos : Sliced.find (encode part) (encode text) with
  | none =>
      refine Or.inr ⟨rfl, ?_⟩
      rintro ⟨front, rest, rfl⟩
      exact find_none isPos ⟨encode front, encode rest, by simp [encode_append]⟩
  | some pos =>
      obtain ⟨front, rest, isText, rfl, first⟩ := find_some isPos
      obtain ⟨before, after, rfl, rfl, rfl⟩ := occurrence_of_encode filled isText
      refine Or.inl ⟨_, after, rfl, ?_, ⟨before, rfl⟩, fun other more split => ?_⟩
      · have sliced := sliceFrom_encode (encode before ++ encode part) after
        rwa [List.length_append, List.append_assoc, ← encode_append part, ← encode_append] at sliced
      · have bytes := first (encode other) (encode more) (by rw [split, encode_append, encode_append])
        cases more with
        | nil => exact List.nil_suffix
        | cons char more => exact (encode_suffix_iff (List.cons_ne_nil char more)).mp bytes

theorem matchParts_decides {last index : Nat} {parts : List (List Char)} (filled : parts ≠ [])
    (inner : index ≠ 0) (behind : index + parts.length = last + 1) :
    Decides (Sliced.matchParts last index (parts.map encode) (encode text))
      (Wildcard.Matches Eq (none :: Wildcard.joined parts) text) := by
  induction parts generalizing index text with
  | nil => exact (filled rfl).elim
  | cons part parts ih =>
      rw [List.length_cons] at behind
      cases parts with
      | nil =>
          have isLast : index = last := by simpa using behind
          by_cases isEmpty : part = []
          · simp only [List.map_cons, List.map_nil, Sliced.matchParts, isEmpty, encode_nil, if_true]
            exact decides_some (iff_of_true rfl (Wildcard.wildcard_only text))
          · simp only [List.map_cons, Sliced.matchParts, encode_eq_nil, isEmpty, if_false, isLast,
              if_true]
            rw [if_neg (isLast ▸ inner)]
            exact decides_some (isSuffix_iff.trans
              ((encode_suffix_iff isEmpty).trans Wildcard.last_part_iff.symm))
      | cons other parts =>
          have notLast : index ≠ last := by
            rw [List.length_cons] at behind
            omega
          have next {rest : List Char} :
              Decides (Sliced.matchParts last (index + 1) ((other :: parts).map encode) (encode rest))
                (Wildcard.Matches Eq (none :: Wildcard.joined (other :: parts)) rest) :=
            ih (List.cons_ne_nil other parts) (Nat.succ_ne_zero index) (by omega)
          rw [Wildcard.joined_cons (List.cons_ne_nil other parts), List.map_cons]
          by_cases isEmpty : part = []
          · rw [isEmpty, encode_nil, Sliced.matchParts, if_pos rfl, List.map_nil, List.nil_append]
            simpa only [Decides, Wildcard.wildcard_twice] using next
          · rw [Sliced.matchParts, if_neg (encode_eq_nil.not.mpr isEmpty), if_neg inner,
              if_neg notLast]
            rcases find_encode text isEmpty with
              ⟨pos, rest, isPos, sliced, found, first⟩ | ⟨missing, absent⟩
            · simp only [isPos, sliced, Option.bind_some]
              simpa only [Decides, Wildcard.inner_part_iff found first] using next
            · simp only [missing]
              exact decides_some (iff_of_false (by simp) (Wildcard.no_inner_part absent))

end Parts

/-! The matchers decide the language. -/

section Language

variable {pattern name : List Char}

theorem star_split (pattern : List Char) :
    (encode pattern).splitOn star = (pattern.splitOn '*').map encode := by
  have ascii : '*'.val ≤ 127 := by decide
  exact splitOn_encode ascii pattern

theorem starred_cases (pattern : List Char) :
    ('*' ∉ pattern ∧ pattern.splitOn '*' = [pattern]) ∨
      ('*' ∈ pattern ∧ ∃ first next parts, pattern.splitOn '*' = first :: next :: parts) := by
  by_cases starred : '*' ∈ pattern
  · obtain ⟨front, rest, rfl⟩ := List.append_of_mem starred
    obtain ⟨first, parts, isFront⟩ := List.exists_cons_of_ne_nil (List.splitOn_ne_nil '*' front)
    obtain ⟨next, others, isRest⟩ := List.exists_cons_of_ne_nil (List.splitOn_ne_nil '*' rest)
    refine Or.inr ⟨starred, ?_⟩
    rw [List.splitOn_append_cons_self, isFront, isRest]
    cases parts with
    | nil => exact ⟨first, next, others, rfl⟩
    | cons second parts => exact ⟨first, second, parts ++ next :: others, rfl⟩
  · exact Or.inl ⟨starred, List.splitOn_eq_singleton starred⟩

theorem equal_decides (plain : '*' ∉ pattern) :
    Decides (some (encode pattern == encode name)) (ComponentMatches pattern name) := by
  apply decides_some
  rw [ComponentMatches, ← Wildcard.joined_splitOn, List.splitOn_eq_singleton plain, Wildcard.joined,
    Wildcard.part_iff, beq_iff_eq]
  constructor
  · intro same
    exact (encode_injective same).symm
  · intro same
    rw [same]

theorem starred_decides {first next : List Char} {parts : List (List Char)}
    (isSplit : pattern.splitOn '*' = first :: next :: parts) :
    Decides (Sliced.matchParts (((encode pattern).splitOn star).length - 1) 0
      ((encode pattern).splitOn star) (encode name)) (ComponentMatches pattern name) := by
  have behind {rest : List Char} :
      Decides (Sliced.matchParts (parts.length + 1) 1 ((next :: parts).map encode) (encode rest))
        (Wildcard.Matches Eq (none :: Wildcard.joined (next :: parts)) rest) :=
    matchParts_decides (List.cons_ne_nil next parts) (by omega) (by simp [Nat.add_comm])
  have isPattern : Wildcard.ofText '*' pattern =
      first.map some ++ none :: Wildcard.joined (next :: parts) := by
    rw [← Wildcard.joined_splitOn, isSplit, Wildcard.joined_cons (List.cons_ne_nil next parts)]
  have last : ((first :: next :: parts).map encode).length - 1 = parts.length + 1 := by simp
  rw [star_split, isSplit, last, List.map_cons, Sliced.matchParts, ComponentMatches, isPattern]
  by_cases isEmpty : first = []
  · rw [isEmpty, encode_nil, if_pos rfl, List.map_nil, List.nil_append]
    exact behind
  · rw [if_neg (encode_eq_nil.not.mpr isEmpty), if_pos rfl]
    by_cases starts : first <+: name
    · obtain ⟨rest, rfl⟩ := starts
      have prefixed : isPrefix (encode first) (encode (first ++ rest)) = true :=
        isPrefix_iff.mpr (encode_prefix_iff.mpr (List.prefix_append first rest))
      rw [if_pos prefixed, encode_append, sliceFrom_encode, Option.bind_some]
      simpa only [Decides, Wildcard.part_append_iff, List.append_cancel_left_eq, exists_eq_left',
        Nat.zero_add] using behind
    · have apart : ¬ isPrefix (encode first) (encode name) = true :=
        fun prefixed => starts (encode_prefix_iff.mp (isPrefix_iff.mp prefixed))
      rw [if_neg apart]
      refine decides_some (iff_of_false (by simp) fun within => starts ?_)
      obtain ⟨more, rfl, _⟩ := Wildcard.part_append_iff.mp within
      exact List.prefix_append first more

theorem simpleGlobMatch_decides (pattern name : List Char) :
    Decides (Sliced.simpleGlobMatch (encode pattern) (encode name))
      (ComponentMatches pattern name) := by
  rw [Sliced.simpleGlobMatch]
  rcases starred_cases pattern with ⟨plain, isSplit⟩ | ⟨starred, first, next, parts, isSplit⟩
  · rw [if_pos (by rw [star_split, isSplit]; rfl)]
    exact equal_decides plain
  · rw [if_neg (by rw [star_split, isSplit]; simp)]
    exact starred_decides isSplit

theorem simpleComponentMatch_decides (pattern name : List Char) :
    Decides (Sliced.simpleComponentMatch (encode pattern) (encode name))
      (ComponentMatches pattern name) := by
  have isStar : [star] = encode ['*'] := by decide
  have ascii : '*'.val ≤ 127 := by decide
  have contains : (encode pattern).contains star = true ↔ '*' ∈ pattern :=
    List.contains_iff_mem.trans (mem_encode_iff ascii)
  rw [Sliced.simpleComponentMatch]
  by_cases only : encode pattern = [star]
  · rw [if_pos only]
    rw [isStar] at only
    rw [encode_injective only]
    exact decides_some (iff_of_true rfl (Wildcard.wildcard_only name))
  · rw [if_neg only]
    rcases starred_cases pattern with ⟨plain, _⟩ | ⟨starred, first, next, parts, isSplit⟩
    · rw [if_pos (by simpa using contains.not.mpr plain)]
      exact equal_decides plain
    · rw [if_neg (by simpa using contains.mpr starred)]
      exact starred_decides isSplit

theorem anySuffix_decides {sliced : List Bytes → Option Bool} {rest : List (Option (List Char))}
    (decides : ∀ path : List (List Char), Decides (sliced (path.map encode))
      (Wildcard.Matches ComponentMatches rest path)) (path : List (List Char)) :
    Decides (Sliced.anySuffix sliced (path.map encode))
      (Wildcard.Matches ComponentMatches (none :: rest) path) := by
  induction path with
  | nil =>
      obtain ⟨found, isFound, iff⟩ := decides []
      refine ⟨found, isFound, iff.trans ?_⟩
      rw [Wildcard.wildcard_iff]
      simp
  | cons name names ih =>
      obtain ⟨here, isHere, hereIff⟩ := decides (name :: names)
      rw [List.map_cons] at isHere
      rw [List.map_cons, Sliced.anySuffix, isHere, Option.bind_some]
      cases here with
      | true => exact decides_some (iff_of_true rfl (.skip (hereIff.mp rfl)))
      | false =>
          obtain ⟨later, isLater, laterIff⟩ := ih
          refine ⟨later, isLater, laterIff.trans ⟨.take, fun within => ?_⟩⟩
          cases within with
          | skip behind => exact absurd (hereIff.mpr behind) (by simp)
          | take behind => exact behind

theorem globMatchRecursive_decides (glob path : List (List Char)) :
    Decides (Sliced.globMatchRecursive (glob.map encode) (path.map encode))
      (Wildcard.Matches ComponentMatches (Wildcard.ofText ['*', '*'] glob) path) := by
  induction glob generalizing path with
  | nil =>
      cases path with
      | nil => exact decides_some (iff_of_true rfl .nil)
      | cons name names =>
          exact decides_some (iff_of_false (by simp) (by simp [Wildcard.ofText, Wildcard.nil_iff]))
  | cons pattern rest ih =>
      have isRun : [star, star] = encode ['*', '*'] := by decide
      by_cases run : pattern = ['*', '*']
      · have isPattern : Wildcard.ofText ['*', '*'] (pattern :: rest) =
            none :: Wildcard.ofText ['*', '*'] rest := by
          simp [Wildcard.ofText, run]
        rw [isPattern, List.map_cons, Sliced.globMatchRecursive_cons, if_pos (by rw [run, isRun])]
        cases rest with
        | nil => exact decides_some (iff_of_true rfl (Wildcard.wildcard_only path))
        | cons next rest => exact anySuffix_decides ih path
      · have isPattern : Wildcard.ofText ['*', '*'] (pattern :: rest) =
            some pattern :: Wildcard.ofText ['*', '*'] rest := by
          simp [Wildcard.ofText, run]
        have notRun : ¬ encode pattern = [star, star] := by
          rw [isRun]
          exact fun same => run (encode_injective same)
        rw [isPattern, List.map_cons, Sliced.globMatchRecursive_cons, if_neg notRun]
        cases path with
        | nil => exact decides_some (iff_of_false (by simp) Wildcard.literal_nil)
        | cons name names =>
            obtain ⟨here, isHere, hereIff⟩ := simpleComponentMatch_decides pattern name
            rw [List.map_cons]
            simp only [isHere, Option.bind_some]
            cases here with
            | true =>
                obtain ⟨found, isFound, iff⟩ := ih names
                refine ⟨found, isFound, iff.trans ?_⟩
                rw [Wildcard.literal_cons_iff]
                exact ⟨fun behind => ⟨hereIff.mp rfl, behind⟩, And.right⟩
            | false =>
                refine decides_some (iff_of_false (by simp) fun within => ?_)
                exact absurd (hereIff.mpr (Wildcard.literal_cons_iff.mp within).1) (by simp)

end Language

/-! A `\` in either string counts as a `/`. -/

def normalized (text : String) : List Char :=
  text.toList.map fun char => if char = '\\' then '/' else char

theorem normalizeSeparators_encode (text : List Char) :
    normalizeSeparators (encode text) =
      encode (text.map fun char => if char = '\\' then '/' else char) := by
  have ascii : '\\'.val ≤ 127 := by decide
  induction text with
  | nil => rfl
  | cons char text ih =>
      rw [encode_cons, normalizeSeparators, List.map_append, ← normalizeSeparators,
        ← normalizeSeparators, ih, List.map_cons, encode_cons]
      congr 1
      by_cases isBackslash : char = '\\'
      · rw [isBackslash]
        decide
      · rw [if_neg isBackslash, normalizeSeparators]
        refine (List.map_congr_left fun byte member => if_neg ?_).trans (List.map_id _)
        rintro rfl
        exact separator_notMem ascii isBackslash member

theorem outputGlobMatches_decides (glob path : String) :
    Decides (Sliced.outputGlobMatches (utf8 glob) (utf8 path))
      (InLanguage (normalized glob) (normalized path)) := by
  have ascii : '/'.val ≤ 127 := by decide
  have split (text : List Char) : (encode text).splitOn slash = (text.splitOn '/').map encode :=
    splitOn_encode ascii text
  rw [Sliced.outputGlobMatches, utf8_eq, utf8_eq, normalizeSeparators_encode,
    normalizeSeparators_encode, split, split]
  exact globMatchRecursive_decides _ _

theorem single_component {pattern name : List Char} (other : pattern ≠ ['*', '*']) :
    Wildcard.Matches ComponentMatches (Wildcard.ofText ['*', '*'] [pattern]) [name] ↔
      ComponentMatches pattern name := by
  simp [Wildcard.ofText, other, Wildcard.literal_cons_iff, Wildcard.nil_iff]

theorem two_stars (name : List Char) : ComponentMatches ['*', '*'] name :=
  Wildcard.wildcard_twice.mpr (Wildcard.wildcard_only name)

/-- The matchers return on all strings.  A component of two stars is no exception among the
components: it matches every one of them, too. -/
theorem glob_language (glob path pattern name : String) :
    Decides (Sliced.outputGlobMatches (utf8 glob) (utf8 path))
        (InLanguage (normalized glob) (normalized path)) ∧
      Decides (Sliced.simpleGlobMatch (utf8 pattern) (utf8 name))
        (ComponentMatches pattern.toList name.toList) ∧
      Decides (Sliced.simpleComponentMatch (utf8 pattern) (utf8 name))
        (ComponentMatches pattern.toList name.toList) ∧
      (Wildcard.Matches ComponentMatches (Wildcard.ofText ['*', '*'] [pattern.toList])
          [name.toList] ↔ ComponentMatches pattern.toList name.toList) := by
  refine ⟨outputGlobMatches_decides glob path, ?_, ?_, ?_⟩
  · rw [utf8_eq, utf8_eq]
    exact simpleGlobMatch_decides _ _
  · rw [utf8_eq, utf8_eq]
    exact simpleComponentMatch_decides _ _
  · by_cases run : pattern.toList = ['*', '*']
    · rw [run]
      exact iff_of_true (Wildcard.wildcard_only _) (two_stars name.toList)
    · exact single_component run

/-- The separator of another system is one here. -/
theorem backslash_separates :
    Sliced.outputGlobMatches (utf8 "a\\b") (utf8 "a/b") = some true ∧
      ¬ InLanguage "a\\b".toList "a/b".toList := by
  refine ⟨by decide, fun within => ?_⟩
  have isGlob : "a\\b".toList.splitOn '/' = [['a', '\\', 'b']] := by decide
  have isPath : "a/b".toList.splitOn '/' = [['a'], ['b']] := by decide
  rw [InLanguage, isGlob, isPath] at within
  simp [Wildcard.ofText, Wildcard.literal_cons_iff, Wildcard.nil_iff] at within

end Rage
