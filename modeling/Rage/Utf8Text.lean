import Rage.PathSpelling

/-!
Texts and their UTF-8 bytes.  An encoded text occurs in another one only where the characters do,
so a search and a slice may work on bytes.
-/

namespace Rage

/-! `starts_with` and `ends_with`. -/

theorem isPrefix_iff {part text : Bytes} : isPrefix part text = true ↔ part <+: text := by
  rw [isPrefix, beq_iff_eq, List.prefix_iff_eq_take, eq_comm]

theorem isSuffix_iff {part text : Bytes} : isSuffix part text = true ↔ part <:+ text := by
  simp only [isSuffix, Bool.and_eq_true, decide_eq_true_eq, beq_iff_eq]
  rw [List.suffix_iff_eq_drop, eq_comm]
  constructor
  · exact And.right
  · intro same
    refine ⟨?_, same⟩
    have lengths := congrArg List.length same
    rw [List.length_drop] at lengths
    omega

/-! Encodings. -/

def encode (text : List Char) : Bytes := text.flatMap String.utf8EncodeChar

theorem encode_nil : encode [] = [] := rfl

theorem encode_cons (char : Char) (rest : List Char) :
    encode (char :: rest) = String.utf8EncodeChar char ++ encode rest := rfl

theorem encode_append (first second : List Char) :
    encode (first ++ second) = encode first ++ encode second := List.flatMap_append

theorem utf8Encode_eq (text : List Char) : text.utf8Encode.data.toList = encode text := by
  simp [List.utf8Encode, encode]

theorem utf8_eq (text : String) : utf8 text = encode text.toList := by
  rw [← utf8Encode_eq, String.utf8Encode_toList]
  rfl

theorem encode_eq_nil {text : List Char} : encode text = [] ↔ text = [] := by
  cases text with
  | nil => simp [encode_nil]
  | cons char rest => simp [encode_cons]

/-- An encoding starts another one only as characters do. -/
theorem prefix_of_encode {first second : List Char} {rest : Bytes}
    (starts : encode first ++ rest = encode second) :
    ∃ more, second = first ++ more ∧ rest = encode more := by
  have bytes : first.utf8Encode ++ ⟨rest.toArray⟩ = second.utf8Encode := by
    apply ByteArray.ext
    apply Array.toList_inj.mp
    simp [utf8Encode_eq, starts]
  obtain ⟨more, rfl⟩ := List.isPrefix_of_utf8Encode_append_eq_utf8Encode _ bytes
  rw [encode_append] at starts
  exact ⟨more, rfl, List.append_cancel_left starts⟩

theorem encode_injective {first second : List Char} (same : encode first = encode second) :
    first = second := by
  obtain ⟨more, isSecond, rest⟩ := prefix_of_encode ((List.append_nil _).trans same)
  rw [isSecond, encode_eq_nil.mp rest.symm, List.append_nil]

/-! Which bytes an encoded character has. -/

theorem continuation_bits (bits : UInt8) : isContinuation (bits &&& 0x3f ||| 0x80) = true := by
  obtain ⟨bits⟩ := bits
  revert bits
  decide +kernel

theorem leading_bits (bits : UInt8) : 192 ≤ (bits &&& 0x1f ||| 0xc0) ∧
    192 ≤ (bits &&& 0x0f ||| 0xe0) ∧ 192 ≤ (bits &&& 0x07 ||| 0xf0) := by
  obtain ⟨bits⟩ := bits
  revert bits
  decide +kernel

theorem encodeChar_ascii {char : Char} (ascii : char.val ≤ 127) :
    String.utf8EncodeChar char = [char.val.toUInt8] :=
  String.utf8EncodeChar_eq_singleton (Char.utf8Size_eq_one_iff.mpr ascii)

/-- A character beyond ASCII has a leading byte and continuation bytes. -/
theorem encodeChar_wide {char : Char} (wide : ¬ char.val ≤ 127) : ∃ first rest,
    String.utf8EncodeChar char = first :: rest ∧ 192 ≤ first ∧
      ∀ byte ∈ rest, isContinuation byte = true := by
  have notOne : char.utf8Size ≠ 1 := fun one => wide (Char.utf8Size_eq_one_iff.mp one)
  rcases char.utf8Size_eq with one | two | three | four
  · exact (notOne one).elim
  · exact ⟨_, _, String.utf8EncodeChar_eq_cons_cons two, (leading_bits _).1,
      by simp [continuation_bits]⟩
  · exact ⟨_, _, String.utf8EncodeChar_eq_cons_cons_cons three, (leading_bits _).2.1,
      by simp [continuation_bits]⟩
  · exact ⟨_, _, String.utf8EncodeChar_eq_cons_cons_cons_cons four, (leading_bits _).2.2,
      by simp [continuation_bits]⟩

theorem encodeChar_leading (char : Char) : ∃ first rest,
    String.utf8EncodeChar char = first :: rest ∧ isContinuation first = false ∧
      ∀ byte ∈ rest, isContinuation byte = true := by
  by_cases ascii : char.val ≤ 127
  · refine ⟨_, [], encodeChar_ascii ascii, ?_, by simp⟩
    have small : char.val.toUInt8.toNat < 128 := by
      have bound : char.val.toNat ≤ 127 := ascii
      simp only [UInt32.toNat_toUInt8]
      omega
    have below : ¬ 0x80 ≤ char.val.toUInt8 := fun above => by
      have above : 128 ≤ char.val.toUInt8.toNat := above
      omega
    simp only [isContinuation, below, decide_false, Bool.false_and]
  · obtain ⟨first, rest, isChar, leads, continues⟩ := encodeChar_wide ascii
    refine ⟨first, rest, isChar, ?_, continues⟩
    have above : ¬ first ≤ 0xBF := fun below => by
      have leads : 192 ≤ first.toNat := leads
      have below : first.toNat ≤ 191 := below
      omega
    simp [isContinuation, above]

/-- What begins with a byte that is no continuation begins with a character. -/
theorem split_at_leading {text : List Char} {front rest : Bytes} {byte : UInt8}
    (isText : encode text = front ++ byte :: rest) (leads : isContinuation byte = false) :
    ∃ before after, text = before ++ after ∧ front = encode before ∧
      byte :: rest = encode after := by
  induction text generalizing front with
  | nil => simp [encode_nil] at isText
  | cons char text ih =>
      cases front with
      | nil => exact ⟨[], char :: text, rfl, rfl, isText.symm⟩
      | cons head front =>
          obtain ⟨first, others, isChar, -, continues⟩ := encodeChar_leading char
          rw [encode_cons, isChar, List.cons_append, List.cons_append] at isText
          obtain ⟨rfl, tails⟩ := List.cons.inj isText
          rcases List.append_eq_append_iff.mp tails with ⟨extra, isFront, behind⟩ |
            ⟨extra, isOthers, behind⟩
          · obtain ⟨before, after, rfl, rfl, isRest⟩ := ih behind
            refine ⟨char :: before, after, rfl, ?_, isRest⟩
            rw [encode_cons, isChar, isFront, List.cons_append]
          · cases extra with
            | nil =>
                rw [List.append_nil] at isOthers
                refine ⟨[char], text, rfl, ?_, behind⟩
                rw [encode_cons, isChar, isOthers, encode_nil, List.append_nil]
            | cons next extra =>
                obtain ⟨rfl, -⟩ := List.cons.inj behind
                have continued := continues byte (by simp [isOthers])
                rw [leads] at continued
                simp at continued

/-- An occurrence of the bytes of a text is an occurrence of the text. -/
theorem occurrence_of_encode {text part : List Char} {front rest : Bytes} (filled : part ≠ [])
    (isText : encode text = front ++ (encode part ++ rest)) :
    ∃ before after, text = before ++ (part ++ after) ∧ front = encode before ∧
      rest = encode after := by
  cases part with
  | nil => exact (filled rfl).elim
  | cons char part =>
      obtain ⟨first, others, isChar, leads, -⟩ := encodeChar_leading char
      have isBytes : encode (char :: part) ++ rest = first :: (others ++ encode part ++ rest) := by
        rw [encode_cons, isChar, List.cons_append, List.cons_append]
      rw [isBytes] at isText
      obtain ⟨before, behind, rfl, rfl, isBehind⟩ := split_at_leading isText leads
      obtain ⟨after, rfl, isRest⟩ := prefix_of_encode (isBytes.trans isBehind)
      exact ⟨before, after, rfl, rfl, isRest⟩

/-! Replacement leaves a mark that is no ASCII. -/

theorem utf8Chunk_pos (first : UInt8) (rest : Bytes) : 0 < (utf8Chunk (first :: rest)).2 := by
  simp only [utf8Chunk]
  repeat' split
  all_goals simp

theorem eq_of_lossyFrom_ascii {fuel : Nat} {bytes : Bytes} (enough : bytes.length ≤ fuel)
    (ascii : ∀ byte ∈ lossyFrom fuel bytes, byte < 0x80) : lossyFrom fuel bytes = bytes := by
  induction fuel generalizing bytes with
  | zero => rw [List.eq_nil_of_length_eq_zero (by omega : bytes.length = 0)]; rfl
  | succ fuel ih =>
      cases bytes with
      | nil => rfl
      | cons first rest =>
          have positive := utf8Chunk_pos first rest
          simp only [lossyFrom] at ascii ⊢
          by_cases valid : (utf8Chunk (first :: rest)).1 = true
          · rw [if_pos valid] at ascii ⊢
            rw [ih, List.take_append_drop]
            · rw [List.length_drop]
              rw [List.length_cons] at enough ⊢
              omega
            · intro byte member
              exact ascii byte (List.mem_append_right _ member)
          · rw [if_neg valid] at ascii
            have above := ascii 0xEF (List.mem_append_left _ List.mem_cons_self)
            exact absurd above (by decide)
theorem toStringLossy_eq_iff {bytes text : Bytes} (ascii : ∀ byte ∈ text, byte < 0x80)
    (valid : toStringLossy text = text) : toStringLossy bytes = text ↔ bytes = text := by
  constructor
  · intro same
    have whole : toStringLossy bytes = bytes :=
      eq_of_lossyFrom_ascii le_rfl fun byte member => ascii byte (same ▸ member)
    rw [← whole, same]
  · rintro rfl
    exact valid

/-! Replacement goes on anew behind ASCII. -/

theorem not_le_of_ascii {byte : UInt8} (ascii : byte < 0x80) (bound : UInt8) (high : 0x80 ≤ bound) :
    ¬ bound ≤ byte := by
  rw [UInt8.lt_iff_toNat_lt] at ascii
  rw [UInt8.le_iff_toNat_le] at high ⊢
  omega

theorem isContinuation_ascii {byte : UInt8} (ascii : byte < 0x80) : isContinuation byte = false := by
  simp only [isContinuation, not_le_of_ascii ascii 0x80 (by decide), decide_false, Bool.false_and]

theorem secondByteOk_ascii {byte : UInt8} (ascii : byte < 0x80) (first : UInt8) :
    secondByteOk first byte = false := by
  simp only [secondByteOk, not_le_of_ascii ascii 0x80 (by decide), isContinuation_ascii ascii,
    not_le_of_ascii ascii 0x90 (by decide), not_le_of_ascii ascii 0xA0 (by decide), decide_false,
    Bool.false_and, ite_self]

theorem utf8Chunk_append_ascii {byte : UInt8} (ascii : byte < 0x80) (first : UInt8)
    (rest behind : Bytes) :
    utf8Chunk (first :: (rest ++ byte :: behind)) = utf8Chunk (first :: rest) := by
  have noContinuation := isContinuation_ascii ascii
  have noSecond := secondByteOk_ascii ascii first
  match rest with
  | [] => simp [utf8Chunk, noContinuation, noSecond]
  | [second] =>
      simp only [utf8Chunk, List.cons_append, List.nil_append, List.head?_cons, Option.map_some,
        Option.getD_some, List.drop_succ_cons, List.drop_zero, List.head?_nil, Option.map_none,
        Option.getD_none, noContinuation, Bool.false_eq_true, if_false]
      rfl
  | [second, third] =>
      simp only [utf8Chunk, List.cons_append, List.nil_append, List.head?_cons, Option.map_some,
        Option.getD_some, List.drop_succ_cons, List.drop_zero, List.head?_nil, Option.map_none,
        Option.getD_none, noContinuation, Bool.false_eq_true, if_false]
      rfl
  | second :: third :: fourth :: rest => rfl

theorem utf8Chunk_le (first : UInt8) (rest : Bytes) :
    (utf8Chunk (first :: rest)).2 ≤ (first :: rest).length := by
  match rest with
  | [] =>
      simp only [utf8Chunk, List.head?_nil, Option.map_none, Option.getD_none, Bool.false_eq_true,
        if_false, ite_self]
      repeat' split
      all_goals simp
  | [second] =>
      simp only [utf8Chunk, List.head?_nil, Option.map_none, Option.getD_none, Bool.false_eq_true,
        if_false, List.drop_succ_cons, List.drop_zero]
      repeat' split
      all_goals simp
  | [second, third] =>
      simp only [utf8Chunk, List.head?_nil, Option.map_none, Option.getD_none, Bool.false_eq_true,
        if_false, List.drop_succ_cons, List.drop_zero]
      repeat' split
      all_goals simp
  | second :: third :: fourth :: rest =>
      simp only [utf8Chunk]
      repeat' split
      all_goals simp

/-- More fuel than bytes makes no difference. -/
theorem lossyFrom_enough {fuel : Nat} {bytes : Bytes} (enough : bytes.length ≤ fuel) :
    lossyFrom fuel bytes = toStringLossy bytes := by
  rw [toStringLossy]
  generalize isMore : bytes.length = more
  have enoughMore : bytes.length ≤ more := isMore.le
  clear isMore
  induction fuel generalizing bytes more with
  | zero =>
      rw [List.eq_nil_of_length_eq_zero (by omega : bytes.length = 0)]
      cases more with
      | zero => rfl
      | succ more => rfl
  | succ fuel ih =>
      cases bytes with
      | nil =>
          cases more with
          | zero => rfl
          | succ more => rfl
      | cons first rest =>
          rw [List.length_cons] at enough enoughMore
          cases more with
          | zero => omega
          | succ more =>
              have positive := utf8Chunk_pos first rest
              have shorter : ((first :: rest).drop (utf8Chunk (first :: rest)).2).length ≤
                  rest.length := by
                rw [List.length_drop, List.length_cons]
                omega
              rw [lossyFrom, lossyFrom, ih (by omega) more (by omega)]

theorem toStringLossy_cons (first : UInt8) (rest : Bytes) :
    toStringLossy (first :: rest) =
      (if (utf8Chunk (first :: rest)).1 then (first :: rest).take (utf8Chunk (first :: rest)).2
        else [0xEF, 0xBF, 0xBD]) ++
      toStringLossy ((first :: rest).drop (utf8Chunk (first :: rest)).2) := by
  have positive := utf8Chunk_pos first rest
  rw [toStringLossy, List.length_cons, lossyFrom, lossyFrom_enough]
  rw [List.length_drop, List.length_cons]
  omega

theorem toStringLossy_ascii_cons {byte : UInt8} (ascii : byte < 0x80) (rest : Bytes) :
    toStringLossy (byte :: rest) = byte :: toStringLossy rest := by
  have chunk : utf8Chunk (byte :: rest) = (true, 1) := if_pos ascii
  rw [toStringLossy_cons, chunk]
  rfl

theorem toStringLossy_ascii {text : Bytes} (ascii : ∀ byte ∈ text, byte < 0x80) :
    toStringLossy text = text := by
  induction text with
  | nil => rfl
  | cons byte rest ih =>
      rw [toStringLossy_ascii_cons (ascii byte List.mem_cons_self),
        ih fun other member => ascii other (List.mem_cons_of_mem byte member)]

/-- Replacement goes on anew at ASCII. -/
theorem toStringLossy_append {byte : UInt8} (ascii : byte < 0x80) (front rest : Bytes) :
    toStringLossy (front ++ byte :: rest) = toStringLossy front ++ byte :: toStringLossy rest := by
  induction isLength : front.length using Nat.strongRecOn generalizing front with
  | ind length ih =>
      cases front with
      | nil => exact toStringLossy_ascii_cons ascii rest
      | cons first others =>
          have positive := utf8Chunk_pos first others
          have inside := utf8Chunk_le first others
          have shorter : ((first :: others).drop (utf8Chunk (first :: others)).2).length < length := by
            rw [List.length_drop]
            rw [List.length_cons] at inside isLength ⊢
            omega
          rw [List.cons_append, toStringLossy_cons, utf8Chunk_append_ascii ascii, ← List.cons_append,
            List.take_append_of_le_length inside, List.drop_append_of_le_length inside,
            ih _ shorter _ rfl, toStringLossy_cons first others, List.append_assoc]

theorem mem_toStringLossy {byte : UInt8} (ascii : byte < 0x80) {bytes : Bytes}
    (member : byte ∈ toStringLossy bytes) : byte ∈ bytes := by
  induction isLength : bytes.length using Nat.strongRecOn generalizing bytes with
  | ind length ih =>
      cases bytes with
      | nil => simp [toStringLossy, lossyFrom] at member
      | cons first rest =>
          have positive := utf8Chunk_pos first rest
          have shorter : ((first :: rest).drop (utf8Chunk (first :: rest)).2).length < length := by
            rw [List.length_drop]
            rw [List.length_cons] at isLength ⊢
            omega
          rw [toStringLossy_cons, List.mem_append] at member
          rcases member with here | behind
          · split at here
            · exact List.mem_of_mem_take here
            · simp only [List.mem_cons, List.not_mem_nil, or_false] at here
              rcases here with rfl | rfl | rfl
              · exact absurd ascii (by decide)
              · exact absurd ascii (by decide)
              · exact absurd ascii (by decide)
          · exact List.mem_of_mem_drop (ih _ shorter behind rfl)

theorem toStringLossy_ne_nil {bytes : Bytes} (filled : bytes ≠ []) : toStringLossy bytes ≠ [] := by
  cases bytes with
  | nil => exact absurd rfl filled
  | cons first rest =>
      have positive := utf8Chunk_pos first rest
      rw [toStringLossy_cons]
      split
      · obtain ⟨count, isCount⟩ := Nat.exists_eq_succ_of_ne_zero positive.ne'
        rw [isCount]
        simp
      · simp

/-! Slices of a `str`. -/

def isCharBoundary (text : Bytes) (index : Nat) : Bool :=
  index = 0 || index = text.length || ((text[index]?).map fun byte => !isContinuation byte).getD false

/-- `&text[index..]`, which panics out of bounds and inside of a character. -/
def sliceFrom (text : Bytes) (index : Nat) : Option Bytes :=
  if isCharBoundary text index then some (text.drop index) else none

theorem sliceFrom_encode (front : Bytes) (rest : List Char) :
    sliceFrom (front ++ encode rest) front.length = some (encode rest) := by
  have boundary : isCharBoundary (front ++ encode rest) front.length = true := by
    cases rest with
    | nil => simp [isCharBoundary, encode_nil]
    | cons char rest =>
        obtain ⟨first, others, isChar, leads, -⟩ := encodeChar_leading char
        simp [isCharBoundary, encode_cons, isChar, leads]
  rw [sliceFrom, if_pos boundary, List.drop_left]

/-! Separators of one byte. -/

theorem separator_notMem {separator char : Char} (ascii : separator.val ≤ 127)
    (other : char ≠ separator) : separator.val.toUInt8 ∉ String.utf8EncodeChar char := by
  have bound : separator.val.toNat ≤ 127 := ascii
  by_cases charAscii : char.val ≤ 127
  · have charBound : char.val.toNat ≤ 127 := charAscii
    rw [encodeChar_ascii charAscii, List.mem_singleton]
    intro same
    have codes := congrArg UInt8.toNat same
    simp only [UInt32.toNat_toUInt8] at codes
    exact other (Char.ext (UInt32.toNat_inj.mp (by omega)))
  · obtain ⟨first, rest, isChar, leads, continues⟩ := encodeChar_wide charAscii
    have small : separator.val.toUInt8.toNat ≤ 127 := by
      simp only [UInt32.toNat_toUInt8]
      omega
    rw [isChar, List.mem_cons]
    rintro (isFirst | isContinued)
    · have leads : 192 ≤ first.toNat := leads
      rw [← isFirst] at leads
      omega
    · have above := continues _ isContinued
      simp only [isContinuation, Bool.and_eq_true, decide_eq_true_eq] at above
      have above : 128 ≤ separator.val.toUInt8.toNat := above.1
      omega

theorem mem_encode_iff {separator : Char} (ascii : separator.val ≤ 127) {text : List Char} :
    separator.val.toUInt8 ∈ encode text ↔ separator ∈ text := by
  simp only [encode, List.mem_flatMap]
  constructor
  · rintro ⟨char, member, within⟩
    by_contra absent
    refine separator_notMem ascii ?_ within
    rintro rfl
    exact absent member
  · intro member
    exact ⟨separator, member, by simp [encodeChar_ascii ascii]⟩

theorem splitOn_encode {separator : Char} (ascii : separator.val ≤ 127) (text : List Char) :
    (encode text).splitOn separator.val.toUInt8 = (text.splitOn separator).map encode := by
  induction text with
  | nil => rfl
  | cons char text ih =>
      by_cases here : char = separator
      · rw [here, encode_cons, encodeChar_ascii ascii, List.singleton_append,
          List.splitOn_cons_eq_if_modifyHead, List.splitOn_cons_eq_if_modifyHead, ih]
        simp [encode_nil]
      · rw [encode_cons, splitOn_append (separator_notMem ascii here), ih,
          List.splitOn_cons_eq_if_modifyHead]
        simp only [beq_iff_eq, here, if_false]
        cases text.splitOn separator with
        | nil => rfl
        | cons part parts => rfl

end Rage
