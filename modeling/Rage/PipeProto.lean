import Rage.AccessEvents
import Rage.StreamDecoding

/-!
The pipe on which a sandboxed process of Windows reports its accesses.  Paths go through UTF-16,
and their length is a field of 16 bits.
-/

namespace Rage.PipeProto

open StreamDecoding
open Ebpf (u32Bytes u32FromBytes u32FromBytes_u32Bytes)

inductive AccessEvent
  | read (path : List Char) (pid : UInt32)
  | write (path : List Char) (pid : UInt32)
  deriving DecidableEq

def AccessEvent.path : AccessEvent → List Char
  | .read path _ => path
  | .write path _ => path

def AccessEvent.pid : AccessEvent → UInt32
  | .read _ pid => pid
  | .write _ pid => pid

abbrev opRead : UInt8 := 1
abbrev opWrite : UInt8 := 2

def AccessEvent.op : AccessEvent → UInt8
  | .read _ _ => opRead
  | .write _ _ => opWrite

abbrev headerLen : Nat := 7

/-! UTF-16. -/

def encodeUtf16Char (char : Char) : List UInt16 :=
  if char.toNat < 0x10000 then [UInt16.ofNat char.toNat]
  else [UInt16.ofNat (0xD800 + (char.toNat - 0x10000) / 0x400),
    UInt16.ofNat (0xDC00 + (char.toNat - 0x10000) % 0x400)]

def encodeUtf16 (text : List Char) : List UInt16 := text.flatMap encodeUtf16Char

def isSurrogate (unit : UInt16) : Bool := 0xD800 ≤ unit.toNat && unit.toNat ≤ 0xDFFF

def isLow (unit : UInt16) : Bool := 0xDC00 ≤ unit.toNat && unit.toNat ≤ 0xDFFF

def replacement : Char := Char.ofNat 0xFFFD

/-- What follows a high surrogate is looked at again unless it is a low one. -/
def fromUtf16Lossy : List UInt16 → List Char
  | [] => []
  | unit :: rest =>
      if !isSurrogate unit then Char.ofNat unit.toNat :: fromUtf16Lossy rest
      else if isLow unit then replacement :: fromUtf16Lossy rest
      else
        match rest with
        | [] => [replacement]
        | low :: more =>
            if isLow low then
              Char.ofNat (0x10000 + (unit.toNat - 0xD800) * 0x400 + (low.toNat - 0xDC00)) ::
                fromUtf16Lossy more
            else replacement :: fromUtf16Lossy (low :: more)

/-! Records. -/

def u16Bytes (value : UInt16) : Bytes :=
  [UInt8.ofNat (value.toNat % 256), UInt8.ofNat (value.toNat / 256)]

def u16FromBytes (first second : UInt8) : UInt16 := UInt16.ofNat (first.toNat + 256 * second.toNat)

def encodeEvent (event : AccessEvent) (buf : Bytes) : Bytes :=
  let utf16 := encodeUtf16 event.path
  let pathLen := UInt16.ofNat utf16.length
  buf ++ (event.op :: (u32Bytes event.pid ++ (u16Bytes pathLen ++ utf16.flatMap u16Bytes)))

/-- `&buf[start..stop]`, which panics out of bounds. -/
def slice (buf : Bytes) (start stop : Nat) : Option Bytes :=
  if start ≤ stop ∧ stop ≤ buf.length then some ((buf.take stop).drop start) else none

def readU32 : Bytes → Option UInt32
  | first :: second :: third :: fourth :: _ =>
      some (UInt32.ofNat (u32FromBytes first second third fourth))
  | _ => none

def readU16 : Bytes → Option UInt16
  | first :: second :: _ => some (u16FromBytes first second)
  | _ => none

/-- `chunks_exact(2)` -/
def words : Bytes → List UInt16
  | first :: second :: rest => u16FromBytes first second :: words rest
  | _ => []

/-- `none` for a panic. -/
def decodeEvent (buf : Bytes) : Option (Option (AccessEvent × Nat)) :=
  if buf.length < headerLen then some none
  else do
    let op ← buf[0]?
    let pid ← (slice buf 1 5).bind readU32
    let pathWords ← (slice buf 5 7).bind readU16
    let total := headerLen + pathWords.toNat * 2
    if buf.length < total then some none
    else do
      let path := fromUtf16Lossy (words (← slice buf headerLen total))
      if op = opRead then some (some (.read path pid, total))
      else if op = opWrite then some (some (.write path pid, total))
      else some none

/-! UTF-16 and back. -/

theorem isSurrogate_eq_true {unit : UInt16} :
    isSurrogate unit = true ↔ 0xD800 ≤ unit.toNat ∧ unit.toNat ≤ 0xDFFF := by
  simp [isSurrogate]

theorem isLow_eq_true {unit : UInt16} :
    isLow unit = true ↔ 0xDC00 ≤ unit.toNat ∧ unit.toNat ≤ 0xDFFF := by
  simp [isLow]

theorem toNat_bounds (char : Char) :
    char.toNat < 0xD800 ∨ 0xDFFF < char.toNat ∧ char.toNat < 0x110000 :=
  char.valid

theorem fromUtf16Lossy_plain {unit : UInt16} (plain : isSurrogate unit = false) (rest : List UInt16) :
    fromUtf16Lossy (unit :: rest) = Char.ofNat unit.toNat :: fromUtf16Lossy rest := by
  rw [fromUtf16Lossy.eq_def]
  simp [plain]

theorem fromUtf16Lossy_pair {high low : UInt16} (isHigh : isSurrogate high = true)
    (notLow : isLow high = false) (isLow : isLow low = true) (rest : List UInt16) :
    fromUtf16Lossy (high :: low :: rest) =
      Char.ofNat (0x10000 + (high.toNat - 0xD800) * 0x400 + (low.toNat - 0xDC00)) ::
        fromUtf16Lossy rest := by
  rw [fromUtf16Lossy.eq_def]
  simp [isHigh, notLow, isLow]

theorem fromUtf16Lossy_encode (text : List Char) : fromUtf16Lossy (encodeUtf16 text) = text := by
  induction text with
  | nil => rfl
  | cons char text ih =>
      have bounds := toNat_bounds char
      rw [encodeUtf16, List.flatMap_cons, ← encodeUtf16, encodeUtf16Char]
      by_cases small : char.toNat < 0x10000
      · have isUnit : (UInt16.ofNat char.toNat).toNat = char.toNat := UInt16.toNat_ofNat_of_lt' small
        have plain : isSurrogate (UInt16.ofNat char.toNat) = false := by
          rw [Bool.eq_false_iff, Ne, isSurrogate_eq_true, isUnit]
          omega
        rw [if_pos small, List.singleton_append, fromUtf16Lossy_plain plain, isUnit, ih, Char.ofNat_toNat]
      · have high : (UInt16.ofNat (0xD800 + (char.toNat - 0x10000) / 0x400)).toNat =
            0xD800 + (char.toNat - 0x10000) / 0x400 :=
          UInt16.toNat_ofNat_of_lt' (by rw [UInt16.size]; omega)
        have low : (UInt16.ofNat (0xDC00 + (char.toNat - 0x10000) % 0x400)).toNat =
            0xDC00 + (char.toNat - 0x10000) % 0x400 :=
          UInt16.toNat_ofNat_of_lt' (by rw [UInt16.size]; omega)
        rw [if_neg small, List.cons_append, List.singleton_append, fromUtf16Lossy_pair, ih, high, low]
        · have value : 0x10000 + (0xD800 + (char.toNat - 0x10000) / 0x400 - 0xD800) * 0x400 +
              (0xDC00 + (char.toNat - 0x10000) % 0x400 - 0xDC00) = char.toNat := by
            omega
          rw [value, Char.ofNat_toNat]
        · rw [isSurrogate_eq_true, high]
          omega
        · rw [Bool.eq_false_iff, Ne, isLow_eq_true, high]
          omega
        · rw [isLow_eq_true, low]
          omega

theorem length_encodeChar_ofNat {value : Nat} (valid : value.isValidChar) :
    (encodeUtf16Char (Char.ofNat value)).length = if value < 0x10000 then 1 else 2 := by
  have isValue : (Char.ofNat value).toNat = value := by
    rw [Char.ofNat, dif_pos valid]
    rfl
  rw [encodeUtf16Char, isValue]
  split
  · rfl
  · rfl

theorem length_replacement : (encodeUtf16Char replacement).length = 1 := by
  decide

/-- A replacement is as long as what it stands for. -/
theorem length_encode_fromUtf16Lossy (units : List UInt16) :
    (encodeUtf16 (fromUtf16Lossy units)).length = units.length := by
  fun_induction fromUtf16Lossy units with
  | case1 => rfl
  | case2 unit rest plain ih =>
      have bound : unit.toNat < 0x10000 := unit.toNat_lt
      have valid : unit.toNat.isValidChar := by
        rw [Bool.not_eq_true', Bool.eq_false_iff, Ne, isSurrogate_eq_true] at plain
        rcases Nat.lt_or_ge unit.toNat 0xD800 with below | above
        · exact Or.inl below
        · exact Or.inr ⟨by omega, by omega⟩
      rw [encodeUtf16, List.flatMap_cons, List.length_append, ← encodeUtf16, ih,
        length_encodeChar_ofNat valid, if_pos bound, List.length_cons]
      omega
  | case3 unit rest surrogate low ih =>
      rw [encodeUtf16, List.flatMap_cons, List.length_append, ← encodeUtf16, ih, length_replacement,
        List.length_cons]
      omega
  | case4 unit surrogate notLow => exact length_replacement
  | case5 unit surrogate notLow low more isPair ih =>
      rw [Bool.not_eq_true', Bool.not_eq_false, isSurrogate_eq_true] at surrogate
      rw [isLow_eq_true] at notLow isPair
      have valid : (0x10000 + (unit.toNat - 0xD800) * 0x400 + (low.toNat - 0xDC00)).isValidChar :=
        Or.inr ⟨by omega, by omega⟩
      rw [encodeUtf16, List.flatMap_cons, List.length_append, ← encodeUtf16, ih,
        length_encodeChar_ofNat valid, if_neg (by omega), List.length_cons, List.length_cons]
      omega
  | case6 unit surrogate notLow low more notPair ih =>
      rw [encodeUtf16, List.flatMap_cons, List.length_append, ← encodeUtf16, ih, length_replacement]
      simp only [List.length_cons]
      omega

/-! Records and back. -/

theorem u16FromBytes_u16Bytes (value : UInt16) :
    ∃ first second, u16Bytes value = [first, second] ∧ u16FromBytes first second = value := by
  refine ⟨_, _, rfl, ?_⟩
  have bound := value.toNat_lt
  rw [← UInt16.toNat_inj, u16FromBytes, UInt16.toNat_ofNat', UInt8.toNat_ofNat', UInt8.toNat_ofNat']
  omega

theorem words_take (units : List UInt16) (count : Nat) :
    words ((units.flatMap u16Bytes).take (count * 2)) = units.take count := by
  induction units generalizing count with
  | nil => simp [words]
  | cons unit units ih =>
      obtain ⟨first, second, isBytes, isUnit⟩ := u16FromBytes_u16Bytes unit
      rw [List.flatMap_cons, isBytes]
      cases count with
      | zero => rfl
      | succ count =>
          have twoMore : (count + 1) * 2 = count * 2 + 1 + 1 := by omega
          rw [twoMore]
          simp only [List.cons_append, List.nil_append, List.take_succ_cons, words, isUnit, ih]

theorem length_units (units : List UInt16) : (units.flatMap u16Bytes).length = 2 * units.length := by
  induction units with
  | nil => rfl
  | cons unit units ih =>
      rw [List.flatMap_cons, List.length_append, ih, List.length_cons, u16Bytes]
      simp only [List.length_cons, List.length_nil]
      omega

theorem slice_path {header rest : Bytes} {count : Nat} (isHeader : header.length = headerLen)
    (there : count ≤ rest.length) :
    slice (header ++ rest) headerLen (headerLen + count) = some (rest.take count) := by
  rw [slice, if_pos ⟨Nat.le_add_right _ _, by rw [List.length_append]; omega⟩, ← isHeader,
    List.take_append, Nat.add_sub_cancel_left, List.take_of_length_le (Nat.le_add_right _ _),
    List.drop_left]

def eventOf (op : UInt8) (pid : UInt32) (path : List Char) : Option AccessEvent :=
  if op = opRead then some (.read path pid)
  else if op = opWrite then some (.write path pid)
  else none

theorem decodeEvent_header (op pid₀ pid₁ pid₂ pid₃ len₀ len₁ : UInt8) (rest : Bytes) :
    decodeEvent (op :: pid₀ :: pid₁ :: pid₂ :: pid₃ :: len₀ :: len₁ :: rest) =
      if rest.length < (u16FromBytes len₀ len₁).toNat * 2 then some none
      else some ((eventOf op (UInt32.ofNat (u32FromBytes pid₀ pid₁ pid₂ pid₃))
        (fromUtf16Lossy (words (rest.take ((u16FromBytes len₀ len₁).toNat * 2))))).map
          fun event => (event, headerLen + (u16FromBytes len₀ len₁).toNat * 2)) := by
  have isPid : (slice (op :: pid₀ :: pid₁ :: pid₂ :: pid₃ :: len₀ :: len₁ :: rest) 1 5).bind readU32 =
      some (UInt32.ofNat (u32FromBytes pid₀ pid₁ pid₂ pid₃)) := by
    rw [slice, if_pos ⟨by decide, by simp only [List.length_cons]; omega⟩]
    rfl
  have isLength : (slice (op :: pid₀ :: pid₁ :: pid₂ :: pid₃ :: len₀ :: len₁ :: rest) 5 7).bind readU16 =
      some (u16FromBytes len₀ len₁) := by
    rw [slice, if_pos ⟨by decide, by simp only [List.length_cons]; omega⟩]
    rfl
  have whole : (op :: pid₀ :: pid₁ :: pid₂ :: pid₃ :: len₀ :: len₁ :: rest).length =
      rest.length + headerLen := rfl
  rw [decodeEvent, if_neg (by rw [whole]; omega), isPid, isLength, whole]
  simp only [List.getElem?_cons_zero, Option.bind_eq_bind, Option.bind_some]
  by_cases short : rest.length < (u16FromBytes len₀ len₁).toNat * 2
  · rw [if_pos (by omega), if_pos short]
  · have there : (u16FromBytes len₀ len₁).toNat * 2 ≤ rest.length := Nat.le_of_not_lt short
    have isPath : slice ([op, pid₀, pid₁, pid₂, pid₃, len₀, len₁] ++ rest) headerLen
        (headerLen + (u16FromBytes len₀ len₁).toNat * 2) = _ :=
      slice_path rfl there
    simp only [List.cons_append, List.nil_append] at isPath
    rw [if_neg (by omega), if_neg short, isPath, Option.bind_some, eventOf]
    split
    · rfl
    · split
      · rfl
      · rfl

theorem decodeEvent_short {buf : Bytes} (short : buf.length < headerLen) :
    decodeEvent buf = some none :=
  if_pos short

/-- A buffer has a header, or is too short for one. -/
theorem short_or_header (buf : Bytes) : buf.length < headerLen ∨
    ∃ op pid₀ pid₁ pid₂ pid₃ len₀ len₁ rest,
      buf = op :: pid₀ :: pid₁ :: pid₂ :: pid₃ :: len₀ :: len₁ :: rest := by
  match buf with
  | op :: pid₀ :: pid₁ :: pid₂ :: pid₃ :: len₀ :: len₁ :: rest =>
      exact Or.inr ⟨op, pid₀, pid₁, pid₂, pid₃, len₀, len₁, rest, rfl⟩
  | [] => exact Or.inl (by decide)
  | [_] => exact Or.inl (by simp [headerLen])
  | [_, _] => exact Or.inl (by simp [headerLen])
  | [_, _, _] => exact Or.inl (by simp [headerLen])
  | [_, _, _, _] => exact Or.inl (by simp [headerLen])
  | [_, _, _, _, _] => exact Or.inl (by simp [headerLen])
  | [_, _, _, _, _, _] => exact Or.inl (by simp [headerLen])

/-- What is decoded is there in the buffer, whatever follows it. -/
theorem decodeEvent_cases (buf : Bytes) : decodeEvent buf = some none ∨
    ∃ event taken, 0 < taken ∧ taken ≤ buf.length ∧
      ∀ more, decodeEvent (buf ++ more) = some (some (event, taken)) := by
  obtain short | ⟨op, pid₀, pid₁, pid₂, pid₃, len₀, len₁, rest, rfl⟩ := short_or_header buf
  · exact Or.inl (decodeEvent_short short)
  · have seven : headerLen = 7 := rfl
    have onBuf := decodeEvent_header op pid₀ pid₁ pid₂ pid₃ len₀ len₁ rest
    have onMore (more : Bytes) :=
      decodeEvent_header op pid₀ pid₁ pid₂ pid₃ len₀ len₁ (rest ++ more)
    by_cases missing : rest.length < (u16FromBytes len₀ len₁).toNat * 2
    · exact Or.inl (onBuf.trans (if_pos missing))
    · have there : (u16FromBytes len₀ len₁).toNat * 2 ≤ rest.length := Nat.le_of_not_lt missing
      have still (more : Bytes) : ¬ (rest ++ more).length < (u16FromBytes len₀ len₁).toNat * 2 := by
        rw [List.length_append]
        omega
      rw [if_neg missing] at onBuf
      cases isEvent : eventOf op (UInt32.ofNat (u32FromBytes pid₀ pid₁ pid₂ pid₃))
          (fromUtf16Lossy (words (rest.take ((u16FromBytes len₀ len₁).toNat * 2)))) with
      | none =>
          rw [isEvent] at onBuf
          exact Or.inl onBuf
      | some event =>
          refine Or.inr ⟨event, headerLen + (u16FromBytes len₀ len₁).toNat * 2, by omega, ?_,
            fun more => ?_⟩
          · simp only [List.length_cons]
            omega
          · simp only [List.cons_append]
            rw [onMore, if_neg (still more), List.take_append_of_le_length there, isEvent]
            rfl

/-! The reader. -/

def decoder : Decoder UInt8 AccessEvent where
  decode buf := (decodeEvent buf).join
  positive buf event taken found := by
    rcases decodeEvent_cases buf with isNone | ⟨other, count, positive, -, onMore⟩
    · simp [isNone] at found
    · have onBuf := onMore []
      rw [List.append_nil] at onBuf
      simp only [onBuf, Option.join_some, Option.some.injEq, Prod.mk.injEq] at found
      exact found.2 ▸ positive
  within buf event taken found := by
    rcases decodeEvent_cases buf with isNone | ⟨other, count, -, within, onMore⟩
    · simp [isNone] at found
    · have onBuf := onMore []
      rw [List.append_nil] at onBuf
      simp only [onBuf, Option.join_some, Option.some.injEq, Prod.mk.injEq] at found
      exact found.2 ▸ within
  stable buf more found isFound := by
    rcases decodeEvent_cases buf with isNone | ⟨other, count, -, -, onMore⟩
    · simp [isNone] at isFound
    · have onBuf := onMore []
      rw [List.append_nil] at onBuf
      rw [onBuf] at isFound
      rw [onMore]
      exact isFound

/-- The events that the reader has when the pipe is closed, and the bytes that it has left. -/
def readEvents (reads : List Bytes) : List AccessEvent × Bytes := feed decoder reads [] []

def encodeAll (events : List AccessEvent) : Bytes :=
  events.foldl (fun buf event => encodeEvent event buf) []

/-- What `ReadFile` returns, read after read. -/
structure Division (stream : Bytes) (reads : List Bytes) : Prop where
  whole : reads.flatten = stream
  sizes : ∀ read ∈ reads, 1 ≤ read.length ∧ read.length ≤ 4096

structure Delivers (events : List AccessEvent) : Prop where
  events : ∀ reads, Division (encodeAll events) reads → readEvents reads = (events, [])
  total : ∀ buf, ∃ decoded, decodeEvent buf = some decoded ∧
    ∀ event consumed, decoded = some (event, consumed) → consumed ≤ buf.length

/-- The length of the path fits its field. -/
def AccessEvent.Fits (event : AccessEvent) : Prop := (encodeUtf16 event.path).length < 2 ^ 16

/-! When every event is delivered. -/

theorem encodeAll_eq (events : List AccessEvent) :
    encodeAll events = events.flatMap fun event => encodeEvent event [] := by
  have onBuf (events : List AccessEvent) (buf : Bytes) :
      events.foldl (fun buf event => encodeEvent event buf) buf =
        buf ++ events.flatMap fun event => encodeEvent event [] := by
    induction events generalizing buf with
    | nil => simp
    | cons event events ih =>
        rw [List.foldl_cons, ih, List.flatMap_cons, ← List.append_assoc]
        simp [encodeEvent]
  exact onBuf events []

/-- The record that is read in the place of an event: its path ends where the field says. -/
def AccessEvent.cut (event : AccessEvent) : AccessEvent :=
  let utf16 := encodeUtf16 event.path
  let path := fromUtf16Lossy (utf16.take (utf16.length % 2 ^ 16))
  match event with
  | .read _ pid => .read path pid
  | .write _ pid => .write path pid

theorem decode_encodeEvent (event : AccessEvent) (rest : Bytes) :
    decoder.decode (encodeEvent event [] ++ rest) =
      some (event.cut, headerLen + (encodeUtf16 event.path).length % 2 ^ 16 * 2) := by
  obtain ⟨pid₀, pid₁, pid₂, pid₃, pidBytes, isPid⟩ := u32FromBytes_u32Bytes event.pid
  obtain ⟨len₀, len₁, lenBytes, isLength⟩ :=
    u16FromBytes_u16Bytes (UInt16.ofNat (encodeUtf16 event.path).length)
  have count : (u16FromBytes len₀ len₁).toNat = (encodeUtf16 event.path).length % 2 ^ 16 := by
    rw [isLength, UInt16.toNat_ofNat']
  have units := length_units (encodeUtf16 event.path)
  have there : (encodeUtf16 event.path).length % 2 ^ 16 * 2 ≤
      ((encodeUtf16 event.path).flatMap u16Bytes).length := by
    have fewer := Nat.mod_le (encodeUtf16 event.path).length (2 ^ 16)
    omega
  have isBuf : encodeEvent event [] ++ rest = event.op :: pid₀ :: pid₁ :: pid₂ :: pid₃ :: len₀ :: len₁ ::
      ((encodeUtf16 event.path).flatMap u16Bytes ++ rest) := by
    rw [encodeEvent, pidBytes, lenBytes]
    simp
  have enough : ¬ ((encodeUtf16 event.path).flatMap u16Bytes ++ rest).length <
      (encodeUtf16 event.path).length % 2 ^ 16 * 2 := by
    rw [List.length_append]
    omega
  have onBuf := decodeEvent_header event.op pid₀ pid₁ pid₂ pid₃ len₀ len₁
    ((encodeUtf16 event.path).flatMap u16Bytes ++ rest)
  rw [← isBuf, isPid, UInt32.ofNat_toNat, count, if_neg enough, List.take_append_of_le_length there,
    words_take] at onBuf
  have joined : decoder.decode (encodeEvent event [] ++ rest) =
      (decodeEvent (encodeEvent event [] ++ rest)).join := rfl
  rw [joined, onBuf]
  cases event with
  | read path pid => rfl
  | write path pid => rfl

theorem AccessEvent.cut_path (event : AccessEvent) : event.cut.path =
    fromUtf16Lossy ((encodeUtf16 event.path).take ((encodeUtf16 event.path).length % 2 ^ 16)) := by
  cases event with
  | read path pid => rfl
  | write path pid => rfl

theorem AccessEvent.cut_eq_iff (event : AccessEvent) : event.cut = event ↔ event.Fits := by
  have fewer := Nat.mod_le (encodeUtf16 event.path).length (2 ^ 16)
  constructor
  · intro same
    have lengths := congrArg (fun event => (encodeUtf16 event.path).length) same
    simp only [event.cut_path, length_encode_fromUtf16Lossy, List.length_take] at lengths
    have below := Nat.mod_lt (encodeUtf16 event.path).length (Nat.two_pow_pos 16)
    rw [Fits]
    omega
  · intro fits
    have whole : fromUtf16Lossy ((encodeUtf16 event.path).take
        ((encodeUtf16 event.path).length % 2 ^ 16)) = event.path := by
      rw [Nat.mod_eq_of_lt fits, List.take_length, fromUtf16Lossy_encode]
    cases event with
    | read path pid => exact congrArg (AccessEvent.read · pid) whole
    | write path pid => exact congrArg (AccessEvent.write · pid) whole

theorem length_encodeEvent (event : AccessEvent) :
    (encodeEvent event []).length = headerLen + (encodeUtf16 event.path).length * 2 := by
  have units := length_units (encodeUtf16 event.path)
  simp only [encodeEvent, u32Bytes, u16Bytes, List.nil_append, List.length_cons, List.length_append,
    List.length_nil] at units ⊢
  have seven : headerLen = 7 := rfl
  omega

theorem drain_encodeEvent {event : AccessEvent} (fits : event.Fits) (rest : Bytes) :
    drain decoder (encodeEvent event [] ++ rest) =
      (event :: (drain decoder rest).1, (drain decoder rest).2) := by
  have found := decode_encodeEvent event rest
  rw [(event.cut_eq_iff).mpr fits, Nat.mod_eq_of_lt fits, ← length_encodeEvent] at found
  rw [drain_some found, List.drop_left]

theorem drained_iff (events : List AccessEvent) :
    drain decoder (encodeAll events) = (events, []) ↔ ∀ event ∈ events, event.Fits := by
  rw [encodeAll_eq]
  induction events with
  | nil => exact ⟨fun _ => by simp, fun _ => drain_none rfl⟩
  | cons event events ih =>
      rw [List.flatMap_cons, List.forall_mem_cons, ← ih]
      constructor
      · intro drained
        rw [drain_some (decode_encodeEvent event _)] at drained
        have fits := (event.cut_eq_iff).mp (List.head_eq_of_cons_eq (congrArg Prod.fst drained))
        have more := drain_encodeEvent fits (events.flatMap fun event => encodeEvent event [])
        rw [drain_some (decode_encodeEvent event _), drained] at more
        rw [Prod.mk.injEq, List.cons.injEq] at more
        exact ⟨fits, Prod.ext more.1.2.symm more.2.symm⟩
      · rintro ⟨fits, drained⟩
        rw [drain_encodeEvent fits, drained]

theorem readEvents_eq {stream : Bytes} {reads : List Bytes} (division : Division stream reads) :
    readEvents reads = drain decoder stream := by
  rw [readEvents, feed_eq, List.nil_append, List.nil_append, division.whole]

/-- A stream can be read byte after byte. -/
theorem division_of_bytes (stream : Bytes) : Division stream (stream.map fun byte => [byte]) := by
  refine ⟨?_, fun read member => ?_⟩
  · rw [← List.flatMap_def, List.flatMap_singleton']
  · obtain ⟨byte, -, rfl⟩ := List.mem_map.mp member
    exact ⟨Nat.le_refl 1, Nat.succ_le_succ (Nat.zero_le _)⟩

theorem delivers_iff_drained (events : List AccessEvent) :
    Delivers events ↔ drain decoder (encodeAll events) = (events, []) := by
  constructor
  · intro delivers
    have division := division_of_bytes (encodeAll events)
    rw [← readEvents_eq division]
    exact delivers.events _ division
  · intro drained
    refine ⟨fun reads division => (readEvents_eq division).trans drained, fun buf => ?_⟩
    rcases decodeEvent_cases buf with isNone | ⟨event, taken, -, within, onMore⟩
    · exact ⟨none, isNone, by simp⟩
    · have onBuf := onMore []
      rw [List.append_nil] at onBuf
      refine ⟨some (event, taken), onBuf, fun other consumed same => ?_⟩
      rw [Option.some.injEq, Prod.mk.injEq] at same
      exact same.2 ▸ within

theorem pipe_delivers_iff (events : List AccessEvent) :
    Delivers events ↔ ∀ event ∈ events, event.Fits := by
  rw [delivers_iff_drained, drained_iff]

theorem length_replicate (count : Nat) :
    (encodeUtf16 (List.replicate count 'a')).length = count := by
  induction count with
  | zero => rfl
  | succ count ih =>
      have one : (encodeUtf16Char 'a').length = 1 := by decide
      rw [List.replicate_succ, encodeUtf16, List.flatMap_cons, List.length_append, ← encodeUtf16, ih, one,
        Nat.add_comm]

/-- A path of 65536 characters: its field holds 0, and its text is read as further records. -/
theorem length_wraps :
    ¬ Delivers [.read (List.replicate 65536 'a') 1] ∧
      (AccessEvent.read (List.replicate 65536 'a') 1).cut = .read [] 1 := by
  have length := length_replicate 65536
  constructor
  · rw [delivers_iff_drained, drained_iff]
    intro fits
    have short := fits _ List.mem_cons_self
    rw [AccessEvent.Fits, AccessEvent.path, length] at short
    omega
  · have none : 65536 % 2 ^ 16 = 0 := by decide
    simp only [AccessEvent.cut, AccessEvent.path, length, none, List.take_zero, fromUtf16Lossy]

end Rage.PipeProto
