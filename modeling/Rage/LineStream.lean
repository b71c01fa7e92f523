import Rage.StreamDecoding
import Rage.Utf8Text

/-!
Streams of bytes that are read line by line.  A line counts once its newline has come, and the rest
of a stream once it has ended; the reading stops at a line that is no UTF-8.
-/

namespace Rage

def fromUtf8 (bytes : Bytes) : Option (List Char) :=
  (String.fromUTF8? ⟨bytes.toArray⟩).map String.toList

theorem fromUtf8_eq_some {bytes : Bytes} {text : List Char} :
    fromUtf8 bytes = some text ↔ encode text = bytes := by
  unfold fromUtf8 String.fromUTF8?
  split
  · rename_i valid
    rw [Option.map_some, Option.some.injEq]
    constructor
    · rintro rfl
      rw [← utf8_eq]
      rfl
    · rintro rfl
      apply encode_injective
      rw [← utf8_eq]
      rfl
  · rename_i invalid
    simp only [Option.map_none, reduceCtorEq, false_iff]
    rintro rfl
    refine invalid ?_
    have isText : (⟨(encode text).toArray⟩ : ByteArray) = text.utf8Encode := by
      apply ByteArray.ext
      apply Array.toList_inj.mp
      rw [utf8Encode_eq]
    rw [isText]
    exact ⟨text, rfl⟩

theorem fromUtf8_encode (text : List Char) : fromUtf8 (encode text) = some text :=
  fromUtf8_eq_some.mpr rfl

namespace LineStream

open StreamDecoding

def newline : UInt8 := 10

def takeLine (bytes : Bytes) : Option (Bytes × Nat) :=
  if newline ∈ bytes then
    some (bytes.takeWhile (· != newline), (bytes.takeWhile (· != newline)).length + 1)
  else none

theorem takeLine_line {line : Bytes} (noNewline : newline ∉ line) (rest : Bytes) :
    takeLine (line ++ newline :: rest) = some (line, line.length + 1) := by
  have isLine : (line ++ newline :: rest).takeWhile (· != newline) = line := by
    rw [List.takeWhile_append_of_pos]
    · simp
    · intro byte member
      simp only [bne_iff_ne]
      rintro rfl
      exact noNewline member
  rw [takeLine, if_pos (by simp), isLine]

theorem exists_line {bytes : Bytes} (member : newline ∈ bytes) :
    ∃ line rest, newline ∉ line ∧ bytes = line ++ newline :: rest := by
  induction bytes with
  | nil => simp at member
  | cons byte bytes ih =>
      by_cases isNewline : byte = newline
      · exact ⟨[], bytes, by simp, by simp [isNewline]⟩
      · obtain ⟨line, rest, noNewline, rfl⟩ :=
          ih ((List.mem_cons.mp member).resolve_left (Ne.symm isNewline))
        exact ⟨byte :: line, rest, by simp [noNewline, Ne.symm isNewline], rfl⟩

theorem takeLine_some {bytes line : Bytes} {taken : Nat} (found : takeLine bytes = some (line, taken)) :
    ∃ rest, newline ∉ line ∧ bytes = line ++ newline :: rest ∧ taken = line.length + 1 := by
  have member : newline ∈ bytes := by
    by_contra absent
    simp [takeLine, absent] at found
  obtain ⟨other, rest, noNewline, rfl⟩ := exists_line member
  rw [takeLine_line noNewline] at found
  obtain ⟨rfl, rfl⟩ := Prod.mk.inj (Option.some.inj found)
  exact ⟨rest, noNewline, rfl, rfl⟩

def lineDecoder : Decoder UInt8 Bytes where
  decode := takeLine
  positive := by
    intro bytes line taken found
    obtain ⟨rest, -, -, rfl⟩ := takeLine_some found
    exact Nat.succ_pos _
  within := by
    intro bytes line taken found
    obtain ⟨rest, -, rfl, rfl⟩ := takeLine_some found
    simp
  stable := by
    intro bytes more found isFound
    obtain ⟨line, taken⟩ := found
    obtain ⟨rest, noNewline, rfl, rfl⟩ := takeLine_some isFound
    rw [List.append_assoc, List.cons_append]
    exact takeLine_line noNewline (rest ++ more)

theorem drain_line {line : Bytes} (noNewline : newline ∉ line) (rest : Bytes) :
    drain lineDecoder (line ++ newline :: rest) =
      (line :: (drain lineDecoder rest).1, (drain lineDecoder rest).2) := by
  rw [drain_some (show lineDecoder.decode (line ++ newline :: rest) = some (line, line.length + 1) from
    takeLine_line noNewline rest)]
  simp

theorem drain_partial {bytes : Bytes} (noNewline : newline ∉ bytes) :
    drain lineDecoder bytes = ([], bytes) :=
  drain_none (show takeLine bytes = none by simp [takeLine, noNewline])

/-! What is read: texts, of which a carriage return before the newline is no part. -/

def stripReturn (text : List Char) : List Char :=
  if text.getLast? = some '\r' then text.dropLast else text

/-- The texts of lines, and whether the reading goes on. -/
def texts : List Bytes → List (List Char) × Bool
  | [] => ([], true)
  | line :: rest =>
      match fromUtf8 line with
      | none => ([], false)
      | some text => (stripReturn text :: (texts rest).1, (texts rest).2)

/-- `pending` has come since the last newline. -/
structure Reader where
  pending : Bytes
  reading : Bool

def Reader.start : Reader := ⟨[], true⟩

def Reader.receive (reader : Reader) (bytes : Bytes) : List (List Char) × Reader :=
  if reader.reading then
    let drained := drain lineDecoder (reader.pending ++ bytes)
    ((texts drained.1).1, ⟨drained.2, (texts drained.1).2⟩)
  else ([], reader)

/-- The end of the stream. -/
def Reader.close (reader : Reader) : List (List Char) × Reader :=
  if reader.reading ∧ reader.pending ≠ [] then ((fromUtf8 reader.pending).toList, ⟨[], false⟩)
  else ([], ⟨[], false⟩)

/-- The texts of a stream of which these bytes have come. -/
def soFar (bytes : Bytes) : List (List Char) := (texts (drain lineDecoder bytes).1).1

/-- The texts of a stream that has ended. -/
def whole (bytes : Bytes) : List (List Char) :=
  soFar bytes ++
    if (texts (drain lineDecoder bytes).1).2 = true ∧ (drain lineDecoder bytes).2 ≠ [] then
      (fromUtf8 (drain lineDecoder bytes).2).toList
    else []

theorem texts_append (first second : List Bytes) :
    texts (first ++ second) =
      if (texts first).2 then ((texts first).1 ++ (texts second).1, (texts second).2)
      else ((texts first).1, false) := by
  induction first with
  | nil => rfl
  | cons line rest ih =>
      rw [List.cons_append, texts, texts]
      cases fromUtf8 line with
      | none => rfl
      | some text =>
          simp only [ih]
          split
          · rfl
          · rfl

/-- A reader that has received these bytes, in whatever pieces. -/
structure Reader.Has (reader : Reader) (bytes : Bytes) : Prop where
  reading : reader.reading = (texts (drain lineDecoder bytes).1).2
  pending : reader.reading = true → reader.pending = (drain lineDecoder bytes).2

theorem Reader.has_start : Reader.start.Has [] where
  reading := rfl
  pending := fun _ => rfl

theorem Reader.Has.receive {reader : Reader} {bytes : Bytes} (has : reader.Has bytes)
    (more : Bytes) : (reader.receive more).2.Has (bytes ++ more) ∧
      soFar (bytes ++ more) = soFar bytes ++ (reader.receive more).1 := by
  have drained : drain lineDecoder (bytes ++ more) =
      ((drain lineDecoder bytes).1 ++ (drain lineDecoder ((drain lineDecoder bytes).2 ++ more)).1,
        (drain lineDecoder ((drain lineDecoder bytes).2 ++ more)).2) := drain_append bytes more
  by_cases isReading : reader.reading = true
  · have goesOn : (texts (drain lineDecoder bytes).1).2 = true := has.reading ▸ isReading
    have joined : texts (drain lineDecoder (bytes ++ more)).1 =
        (soFar bytes ++ (texts (drain lineDecoder (reader.pending ++ more)).1).1,
          (texts (drain lineDecoder (reader.pending ++ more)).1).2) := by
      rw [drained, texts_append, goesOn, has.pending isReading]
      rfl
    rw [Reader.receive, if_pos isReading]
    refine ⟨⟨?_, fun _ => ?_⟩, ?_⟩
    · rw [joined]
    · rw [drained, has.pending isReading]
    · rw [soFar, joined]
  · have stopped : (texts (drain lineDecoder bytes).1).2 = false :=
      has.reading ▸ Bool.eq_false_iff.mpr isReading
    have same : texts (drain lineDecoder (bytes ++ more)).1 = (soFar bytes, false) := by
      rw [drained, texts_append, stopped]
      rfl
    rw [Reader.receive, if_neg isReading]
    refine ⟨⟨?_, fun reads => (isReading reads).elim⟩, ?_⟩
    · rw [same]
      exact Bool.eq_false_iff.mpr isReading
    · rw [soFar, same, List.append_nil]

theorem Reader.Has.close {reader : Reader} {bytes : Bytes} (has : reader.Has bytes) :
    whole bytes = soFar bytes ++ reader.close.1 := by
  rw [whole, ← has.reading]
  congr 1
  by_cases isReading : reader.reading = true
  · rw [Reader.close, ← has.pending isReading]
    split
    · rfl
    · rfl
  · simp [Reader.close, isReading]

/-! Line by line. -/

theorem soFar_partial {bytes : Bytes} (noNewline : newline ∉ bytes) : soFar bytes = [] := by
  rw [soFar, drain_partial noNewline]
  rfl

theorem whole_partial {bytes : Bytes} (noNewline : newline ∉ bytes) :
    whole bytes = if bytes = [] then [] else (fromUtf8 bytes).toList := by
  rw [whole, soFar_partial noNewline, drain_partial noNewline, List.nil_append]
  by_cases isNil : bytes = []
  · simp [isNil]
  · simp [isNil, texts]

theorem newline_mem_encode {text : List Char} : newline ∈ encode text ↔ '\n' ∈ text := by
  have isAscii : '\n'.val ≤ 127 := by decide
  exact mem_encode_iff isAscii

/-- A newline among the bytes of a text is one of its characters. -/
theorem split_at_newline {text : List Char} {line rest : Bytes}
    (isText : encode text = line ++ newline :: rest) (noNewline : newline ∉ line) :
    ∃ before after, text = before ++ '\n' :: after ∧ '\n' ∉ before ∧ line = encode before ∧
      rest = encode after := by
  obtain ⟨before, behind, rfl, rfl, isBehind⟩ := split_at_leading isText (by decide)
  have isNewline : encode ['\n'] = [newline] := by decide
  have starts : encode ['\n'] ++ rest = encode behind := by rw [isNewline, ← isBehind]; rfl
  obtain ⟨after, rfl, isRest⟩ := prefix_of_encode starts
  exact ⟨before, after, rfl, fun member => noNewline (newline_mem_encode.mpr member), rfl,
    isRest⟩

variable {line : List Char}

theorem soFar_line (noNewline : '\n' ∉ line) (rest : Bytes) :
    soFar (encode line ++ newline :: rest) = stripReturn line :: soFar rest := by
  rw [soFar, drain_line (fun member => noNewline (newline_mem_encode.mp member)), texts, fromUtf8_encode]
  rfl

theorem soFar_prefix (bytes more : Bytes) : soFar bytes <+: soFar (bytes ++ more) := by
  have has : Reader.Has ⟨(drain lineDecoder bytes).2, (texts (drain lineDecoder bytes).1).2⟩ bytes :=
    ⟨rfl, fun _ => rfl⟩
  exact ⟨_, (has.receive more).2.symm⟩

/-- Texts that are written as a line each. -/
def wire (lines : List (List Char)) : Bytes := lines.flatMap fun line => encode line ++ [newline]

/-- A line that is read as it is written. -/
def IsLine (line : List Char) : Prop := '\n' ∉ line ∧ line.getLast? ≠ some '\r'

theorem soFar_wire {lines : List (List Char)} (areLines : ∀ line ∈ lines, IsLine line) :
    soFar (wire lines) = lines := by
  induction lines with
  | nil => rfl
  | cons line rest ih =>
      obtain ⟨noNewline, noReturn⟩ := areLines line (List.mem_cons_self ..)
      have split : wire (line :: rest) = encode line ++ newline :: wire rest := by simp [wire]
      rw [split, soFar_line noNewline, stripReturn, if_neg noReturn,
        ih fun other member => areLines other (List.mem_cons_of_mem line member)]

/-- Of a part of such a stream, the first lines are read. -/
theorem soFar_part {lines : List (List Char)} (areLines : ∀ line ∈ lines, IsLine line)
    {bytes : Bytes} (part : bytes <+: wire lines) : soFar bytes <+: lines := by
  obtain ⟨more, isWire⟩ := part
  have within := soFar_prefix bytes more
  rwa [isWire, soFar_wire areLines] at within

theorem whole_line (noNewline : '\n' ∉ line) (rest : Bytes) :
    whole (encode line ++ newline :: rest) = stripReturn line :: whole rest := by
  rw [whole, soFar_line noNewline,
    drain_line (fun member => noNewline (newline_mem_encode.mp member)), texts, fromUtf8_encode]
  rfl

end LineStream

end Rage
