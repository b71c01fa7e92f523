import Mathlib.Logic.Function.Basic
import Rage.FileSystem
import Rage.Framing

/-!
The weak and the strong fingerprint.  Each is the hash of a text; what the text
is made of is a record (`WeakRecord`, `strongRecords`), and the results here say
when the text determines its record.
-/

namespace Rage

/-! The third-party functions the fingerprints call. -/

structure Crates where
  /-- The digest bytes of `blake3::hash`. -/
  blake3 : Bytes → Bytes
  /-- `Glob::new(glob).is_ok()`. -/
  globNew : Bytes → Bool
  /-- `GlobSetBuilder::build` over the accepted globs, and `GlobSet::is_match`. -/
  globSet : List Bytes → Option (Path → Bool)

/-- The hash as an ideal one: no collisions, and no digest is a proper prefix of another
(all digests of the real function have one length). -/
structure Crates.Ideal (crates : Crates) : Prop where
  injective : Function.Injective crates.blake3
  prefixFree : ∀ first second restFirst restSecond,
    crates.blake3 first ++ restFirst = crates.blake3 second ++ restSecond →
      crates.blake3 first = crates.blake3 second

/-! Crates that a run can be computed with: the digest is its text with the byte 255 escaped and
an end mark, and a glob without wildcards matches itself. -/

def escaped (byte : UInt8) : Bytes := if byte = 255 then [255, 1] else [byte]

def Crates.plain : Crates where
  blake3 := fun bytes => bytes.flatMap escaped ++ [255, 0]
  globNew := fun _ => true
  globSet := fun globs => some fun path => globs.contains path

theorem escaped_prefixFree (first second : Bytes) (restFirst restSecond : Bytes)
    (same : Crates.plain.blake3 first ++ restFirst = Crates.plain.blake3 second ++ restSecond) :
    first = second := by
  simp only [Crates.plain] at same
  induction first generalizing second with
  | nil =>
      cases second with
      | nil => rfl
      | cons other others =>
          by_cases marked : other = 255
          · simp [escaped, marked] at same
          · simp only [escaped, marked, ↓reduceIte, List.flatMap_nil, List.flatMap_cons,
              List.nil_append, List.cons_append, List.cons.injEq] at same
            exact (marked same.1.symm).elim
  | cons byte rest ih =>
      cases second with
      | nil =>
          by_cases marked : byte = 255
          · simp [escaped, marked] at same
          · simp only [escaped, marked, ↓reduceIte, List.flatMap_nil, List.flatMap_cons,
              List.nil_append, List.cons_append, List.cons.injEq] at same
            exact same.1.elim
      | cons other others =>
          by_cases marked : byte = 255 <;> by_cases otherMarked : other = 255 <;>
            simp only [escaped, marked, otherMarked, ↓reduceIte, List.flatMap_cons,
              List.cons_append, List.nil_append, List.cons.injEq, true_and] at same
          · rw [marked, otherMarked, ih others same]
          · exact (otherMarked same.1.symm).elim
          · exact same.1.elim
          · rw [same.1, ih others same.2]

theorem Crates.plain_ideal : Crates.plain.Ideal where
  injective := fun first second same =>
    escaped_prefixFree first second [] [] (by rw [same])
  prefixFree := fun first second restFirst restSecond same => by
    rw [escaped_prefixFree first second restFirst restSecond same]

def hexDigit (digit : Nat) : UInt8 :=
  if digit < 10 then UInt8.ofNat (48 + digit) else UInt8.ofNat (87 + digit)

def hex (digest : Bytes) : Bytes :=
  digest.flatMap fun byte => [hexDigit (byte.toNat / 16), hexDigit (byte.toNat % 16)]

theorem hexDigit_injective : ∀ first < 16, ∀ second < 16,
    hexDigit first = hexDigit second → first = second := by
  decide

theorem hexDigit_alphabet : ∀ digit < 16, hexDigit digit ≠ newline ∧ hexDigit digit ≠ colon ∧
    hexDigit digit ≠ equals ∧ hexDigit digit ≠ 60 := by
  decide

theorem hex_injective : Function.Injective hex := by
  intro first second same
  refine Framing.flatMap_injective _ (by simp) first second ?_ same
  intro byte _ other _ rest more starts
  simp only [List.cons_append, List.nil_append, List.cons.injEq] at starts
  have byteBound := byte.toNat_lt
  have otherBound := other.toNat_lt
  have high := hexDigit_injective _ (by omega) _ (by omega) starts.1
  have low := hexDigit_injective _ (by omega) _ (by omega) starts.2.1
  exact UInt8.toNat_inj.mp (by omega)

theorem hex_alphabet (digest : Bytes) :
    newline ∉ hex digest ∧ colon ∉ hex digest ∧ equals ∉ hex digest ∧ (60 : UInt8) ∉ hex digest := by
  have outside (byte : UInt8) (never : ∀ digit < 16, hexDigit digit ≠ byte) : byte ∉ hex digest := by
    intro member
    obtain ⟨source, _, digit⟩ := List.mem_flatMap.mp member
    have bound := source.toNat_lt
    simp only [List.mem_cons, List.not_mem_nil, or_false] at digit
    rcases digit with high | low
    · exact never _ (by omega) high.symm
    · exact never _ (by omega) low.symm
  exact ⟨outside _ fun d b => (hexDigit_alphabet d b).1,
    outside _ fun d b => (hexDigit_alphabet d b).2.1,
    outside _ fun d b => (hexDigit_alphabet d b).2.2.1,
    outside _ fun d b => (hexDigit_alphabet d b).2.2.2⟩

/-! The weak fingerprint. -/

structure WeakFpInputs where
  command : Bytes
  toolPath : Path
  packagePath : Path
  declaredInputGlobs : List Bytes
  trackedEnv : List (Bytes × Bytes)
  depAbiFingerprints : List (Bytes × Bytes)
  deriving DecidableEq

def skipDirs : List Bytes := [utf8 "node_modules", utf8 "target", utf8 "dist", utf8 ".git"]

section Weak

variable (crates : Crates)

def matchedFiles (fs : FileSystem) (packageDir : Path) (globs : List Bytes) :
    List (Path × Bytes) :=
  if globs.isEmpty then []
  else match crates.globSet (globs.filter crates.globNew) with
    | none => []
    | some isMatch =>
        let files := (fs.walkFiles skipDirs (components packageDir)).filterMap fun walked =>
          match walked.2 with
          | .file content true =>
              if isMatch (joinNames walked.1) then some (joinNames walked.1, content) else none
          | _ => none
        dedupBy (fun next kept => Path.eq next.1 kept.1)
          (files.insertionSort fun first second => Path.le first.1 second.1)

def resolveGlobs (fs : FileSystem) (packageDir : Path) (globs : List Bytes) :
    List (Path × Bytes) :=
  (matchedFiles crates fs packageDir globs).map fun file =>
    (file.1, hex (crates.blake3 file.2))

def hashToolBinary (fs : FileSystem) (path : Path) : Option Bytes :=
  (fs.read path).map fun bytes => hex (crates.blake3 bytes)

def sortByKey (pairs : List (Bytes × Bytes)) : List (Bytes × Bytes) :=
  pairs.insertionSort fun first second => first.1 ≤ second.1

structure WeakRecord where
  command : Bytes
  toolPath : Path
  tool : Option Bytes
  packagePath : Path
  inputs : List (Path × Bytes)
  env : List (Bytes × Bytes)
  depAbi : List (Bytes × Bytes)
  deriving DecidableEq

def WeakFpInputs.seen (inputs : WeakFpInputs) (fs : FileSystem) : WeakRecord where
  command := inputs.command
  toolPath := inputs.toolPath
  tool := fs.read inputs.toolPath
  packagePath := inputs.packagePath
  inputs := matchedFiles crates fs inputs.packagePath inputs.declaredInputGlobs
  env := sortByKey inputs.trackedEnv
  depAbi := sortByKey inputs.depAbiFingerprints

def weakLines (fs : FileSystem) (inputs : WeakFpInputs) : List Bytes :=
  [utf8 "command:" ++ inputs.command,
    utf8 "tool_path:" ++ toStringLossy inputs.toolPath,
    utf8 "tool_hash:" ++ (hashToolBinary crates fs inputs.toolPath).getD (utf8 "<missing>"),
    utf8 "pkg_path:" ++ toStringLossy inputs.packagePath] ++
  (resolveGlobs crates fs inputs.packagePath inputs.declaredInputGlobs).map (fun input =>
    utf8 "input:" ++ (toStringLossy input.1 ++ colon :: input.2)) ++
  ((sortByKey inputs.trackedEnv).map (fun pair =>
    utf8 "env:" ++ (pair.1 ++ equals :: pair.2)) ++
  (sortByKey inputs.depAbiFingerprints).map (fun pair =>
    utf8 "dep_abi:" ++ (pair.1 ++ equals :: pair.2)))

def computeWeakFingerprint (fs : FileSystem) (inputs : WeakFpInputs) : Bytes :=
  hex (crates.blake3 ((weakLines crates fs inputs).flatMap fun line => line ++ [newline]))

/-- No string of the record can be mistaken for the end of its line or of its key. -/
structure WeakRecord.Plain (record : WeakRecord) : Prop where
  command : newline ∉ record.command
  toolPath : newline ∉ record.toolPath ∧ isUtf8 record.toolPath = true
  packagePath : newline ∉ record.packagePath ∧ isUtf8 record.packagePath = true
  inputs : ∀ input ∈ record.inputs, newline ∉ input.1 ∧ isUtf8 input.1 = true
  env : ∀ pair ∈ record.env, newline ∉ pair.1 ∧ equals ∉ pair.1 ∧ newline ∉ pair.2
  depAbi : ∀ pair ∈ record.depAbi, newline ∉ pair.1 ∧ equals ∉ pair.1 ∧ newline ∉ pair.2

instance (record : WeakRecord) : Decidable record.Plain :=
  decidable_of_iff
    ((newline ∉ record.command ∧ newline ∉ record.toolPath ∧ isUtf8 record.toolPath = true) ∧
      (newline ∉ record.packagePath ∧ isUtf8 record.packagePath = true) ∧
      (∀ input ∈ record.inputs, newline ∉ input.1 ∧ isUtf8 input.1 = true) ∧
      (∀ pair ∈ record.env, newline ∉ pair.1 ∧ equals ∉ pair.1 ∧ newline ∉ pair.2) ∧
      ∀ pair ∈ record.depAbi, newline ∉ pair.1 ∧ equals ∉ pair.1 ∧ newline ∉ pair.2)
    ⟨fun plain => ⟨plain.1.1, plain.1.2, plain.2.1, plain.2.2.1, plain.2.2.2.1, plain.2.2.2.2⟩,
      fun plain => ⟨⟨plain.command, plain.toolPath⟩, plain.packagePath, plain.inputs, plain.env,
        plain.depAbi⟩⟩

def WeakRecord.lines (record : WeakRecord) : List Bytes :=
  [utf8 "command:" ++ record.command,
    utf8 "tool_path:" ++ record.toolPath,
    utf8 "tool_hash:" ++ (record.tool.map fun bytes => hex (crates.blake3 bytes)).getD
      (utf8 "<missing>"),
    utf8 "pkg_path:" ++ record.packagePath] ++
  record.inputs.map (fun input =>
    utf8 "input:" ++ (input.1 ++ colon :: hex (crates.blake3 input.2))) ++
  (record.env.map (fun pair => utf8 "env:" ++ (pair.1 ++ equals :: pair.2)) ++
  record.depAbi.map (fun pair => utf8 "dep_abi:" ++ (pair.1 ++ equals :: pair.2)))

end Weak

theorem isUtf8_lossy {bytes : Bytes} (valid : isUtf8 bytes = true) :
    toStringLossy bytes = bytes := by
  simpa [isUtf8] using valid

theorem weakLines_seen (crates : Crates) (fs : FileSystem) (inputs : WeakFpInputs)
    (plain : (inputs.seen crates fs).Plain) :
    weakLines crates fs inputs = (inputs.seen crates fs).lines crates := by
  have toolPath := isUtf8_lossy plain.toolPath.2
  have packagePath := isUtf8_lossy plain.packagePath.2
  have resolved : (resolveGlobs crates fs inputs.packagePath inputs.declaredInputGlobs).map
      (fun input => utf8 "input:" ++ (toStringLossy input.1 ++ colon :: input.2)) =
      (inputs.seen crates fs).inputs.map (fun input =>
        utf8 "input:" ++ (input.1 ++ colon :: hex (crates.blake3 input.2))) := by
    simp only [resolveGlobs, List.map_map, WeakFpInputs.seen]
    apply List.map_congr_left
    intro input member
    have valid := isUtf8_lossy (plain.inputs input member).2
    simp [valid]
  simp only [WeakFpInputs.seen] at toolPath packagePath resolved
  simp only [weakLines, WeakRecord.lines, WeakFpInputs.seen, hashToolBinary]
  rw [toolPath, packagePath, resolved]

theorem lines_newlineFree (crates : Crates) (record : WeakRecord) (plain : record.Plain) :
    ∀ line ∈ record.lines crates, newline ∉ line := by
  have tagFree : ∀ tag ∈ [utf8 "command:", utf8 "tool_path:", utf8 "tool_hash:", utf8 "pkg_path:",
      utf8 "input:", utf8 "env:", utf8 "dep_abi:", utf8 "<missing>"], newline ∉ tag := by
    decide
  intro line member
  simp only [WeakRecord.lines, List.mem_append, List.mem_cons, List.not_mem_nil, or_false,
    List.mem_map] at member
  rcases member with ((rfl | rfl | rfl | rfl) | ⟨input, within, rfl⟩) |
    (⟨pair, within, rfl⟩ | ⟨pair, within, rfl⟩)
  · simp [tagFree _ (List.mem_cons_self ..), plain.command]
  · simp [tagFree (utf8 "tool_path:") (by simp), plain.toolPath.1]
  · cases record.tool with
    | none => simp [tagFree (utf8 "tool_hash:") (by simp), tagFree (utf8 "<missing>") (by simp)]
    | some bytes => simp [tagFree (utf8 "tool_hash:") (by simp), (hex_alphabet _).1]
  · simp [tagFree (utf8 "pkg_path:") (by simp), plain.packagePath.1]
  · simp [tagFree (utf8 "input:") (by simp), (plain.inputs input within).1, (hex_alphabet _).1,
      (by decide : ¬newline = colon)]
  · have pieces := plain.env pair within
    simp [tagFree (utf8 "env:") (by simp), pieces.1, pieces.2.2, (by decide : ¬newline = equals)]
  · have pieces := plain.depAbi pair within
    simp [tagFree (utf8 "dep_abi:") (by simp), pieces.1, pieces.2.2,
      (by decide : ¬newline = equals)]

theorem toolHash_injective (crates : Crates) (ideal : crates.Ideal) (first second : Option Bytes)
    (same : (first.map fun bytes => hex (crates.blake3 bytes)).getD (utf8 "<missing>") =
      (second.map fun bytes => hex (crates.blake3 bytes)).getD (utf8 "<missing>")) :
    first = second := by
  have angle : (60 : UInt8) ∈ utf8 "<missing>" := by decide
  cases first with
  | none =>
      cases second with
      | none => rfl
      | some bytes =>
          simp only [Option.map_none, Option.getD_none, Option.map_some, Option.getD_some] at same
          rw [same] at angle
          exact ((hex_alphabet _).2.2.2 angle).elim
  | some bytes =>
      cases second with
      | none =>
          simp only [Option.map_none, Option.getD_none, Option.map_some, Option.getD_some] at same
          rw [← same] at angle
          exact ((hex_alphabet _).2.2.2 angle).elim
      | some others =>
          simp only [Option.map_some, Option.getD_some] at same
          rw [ideal.injective (hex_injective same)]

/-- The lines of inputs, environment and dependencies are told apart by their tags. -/
theorem sections_injective {inputs others env envs deps more : List Bytes}
    (same : inputs.map (utf8 "input:" ++ ·) ++
        (env.map (utf8 "env:" ++ ·) ++ deps.map (utf8 "dep_abi:" ++ ·)) =
      others.map (utf8 "input:" ++ ·) ++
        (envs.map (utf8 "env:" ++ ·) ++ more.map (utf8 "dep_abi:" ++ ·))) :
    inputs = others ∧ env = envs ∧ deps = more := by
  have tagged (tag : Bytes) (lines : List Bytes) (initial : UInt8)
      (starts : tag.head? = some initial) :
      ∀ line ∈ lines.map (tag ++ ·), (line.head? == some initial) = true := by
    simp only [List.mem_map]
    rintro _ ⟨line, _, rfl⟩
    rw [List.head?_append_of_ne_nil _ (by rintro rfl; simp at starts), starts, beq_self_eq_true]
  have untagged (tag : Bytes) (lines : List Bytes) (initial other : UInt8)
      (starts : tag.head? = some other) (differ : other ≠ initial) :
      ∀ line ∈ lines.map (tag ++ ·), (line.head? == some initial) = false := by
    simp only [List.mem_map]
    rintro _ ⟨line, _, rfl⟩
    rw [List.head?_append_of_ne_nil _ (by rintro rfl; simp at starts), starts]
    simpa using differ
  have behind (env deps : List Bytes) :
      ∀ line ∈ env.map (utf8 "env:" ++ ·) ++ deps.map (utf8 "dep_abi:" ++ ·),
        (line.head? == some 105) = false := by
    intro line member
    rcases List.mem_append.mp member with isEnv | isDep
    · exact untagged _ env 105 101 (by decide) (by decide) line isEnv
    · exact untagged _ deps 105 100 (by decide) (by decide) line isDep
  have cancel (tag : Bytes) {left right : List Bytes}
      (lines : left.map (tag ++ ·) = right.map (tag ++ ·)) : left = right :=
    List.map_injective_iff.mpr (fun _ _ => List.append_cancel_left) lines
  have blocks := Framing.append_injective_of_class (fun line => line.head? == some 105)
    (tagged _ inputs 105 (by decide)) (behind env deps) (tagged _ others 105 (by decide))
    (behind envs more) same
  have pairs := Framing.append_injective_of_class (fun line => line.head? == some 101)
    (tagged _ env 101 (by decide)) (untagged _ deps 101 100 (by decide) (by decide))
    (tagged _ envs 101 (by decide)) (untagged _ more 101 100 (by decide) (by decide)) blocks.2
  exact ⟨cancel _ blocks.1, cancel _ pairs.1, cancel _ pairs.2⟩

theorem pairs_injective (left right : List (Bytes × Bytes))
    (leftFree : ∀ pair ∈ left, equals ∉ pair.1) (rightFree : ∀ pair ∈ right, equals ∉ pair.1)
    (same : left.map (fun pair => pair.1 ++ equals :: pair.2) =
      right.map (fun pair => pair.1 ++ equals :: pair.2)) : left = right := by
  refine Framing.map_injective_on _ left right ?_ same
  intro first firstMem second secondMem lines
  have halves := Framing.split_at_first (leftFree first firstMem) (rightFree second secondMem) lines
  exact Prod.ext halves.1 halves.2

theorem inputs_injective (crates : Crates) (ideal : crates.Ideal) (left right : List (Path × Bytes))
    (same : left.map (fun input => input.1 ++ colon :: hex (crates.blake3 input.2)) =
      right.map (fun input => input.1 ++ colon :: hex (crates.blake3 input.2))) : left = right := by
  refine Framing.map_injective_on _ left right ?_ same
  intro first _ second _ lines
  have halves := Framing.split_at_last (hex_alphabet _).2.1 (hex_alphabet _).2.1 lines
  exact Prod.ext halves.1 (ideal.injective (hex_injective halves.2))

theorem WeakRecord.lines_injective (crates : Crates) (ideal : crates.Ideal)
    (first second : WeakRecord) (firstPlain : first.Plain) (secondPlain : second.Plain)
    (same : first.lines crates = second.lines crates) : first = second := by
  have pieces (record : WeakRecord) : record.lines crates =
      (utf8 "command:" ++ record.command) :: (utf8 "tool_path:" ++ record.toolPath) ::
      (utf8 "tool_hash:" ++
        ((record.tool.map fun bytes => hex (crates.blake3 bytes)).getD (utf8 "<missing>"))) ::
      (utf8 "pkg_path:" ++ record.packagePath) ::
      ((record.inputs.map fun input => input.1 ++ colon :: hex (crates.blake3 input.2)).map
          (utf8 "input:" ++ ·) ++
        ((record.env.map fun pair => pair.1 ++ equals :: pair.2).map (utf8 "env:" ++ ·) ++
          (record.depAbi.map fun pair => pair.1 ++ equals :: pair.2).map (utf8 "dep_abi:" ++ ·))) := by
    simp [WeakRecord.lines, Function.comp_def]
  rw [pieces, pieces] at same
  simp only [List.cons.injEq, List.append_cancel_left_eq] at same
  obtain ⟨command, toolPath, toolLine, packagePath, sections⟩ := same
  obtain ⟨inputLines, envLines, depLines⟩ := sections_injective sections
  have tool := toolHash_injective crates ideal _ _ toolLine
  have inputs := inputs_injective crates ideal _ _ inputLines
  have env := pairs_injective _ _ (fun pair member => (firstPlain.env pair member).2.1)
    (fun pair member => (secondPlain.env pair member).2.1) envLines
  have depAbi := pairs_injective _ _ (fun pair member => (firstPlain.depAbi pair member).2.1)
    (fun pair member => (secondPlain.depAbi pair member).2.1) depLines
  cases first
  cases second
  simp only [WeakRecord.mk.injEq]
  exact ⟨command, toolPath, tool, packagePath, inputs, env, depAbi⟩

theorem computeWeakFingerprint_injective (crates : Crates) (ideal : crates.Ideal)
    (fs now : FileSystem) (inputs current : WeakFpInputs)
    (plain : (inputs.seen crates fs).Plain) (currentPlain : (current.seen crates now).Plain)
    (same : computeWeakFingerprint crates fs inputs = computeWeakFingerprint crates now current) :
    inputs.seen crates fs = current.seen crates now := by
  simp only [computeWeakFingerprint, weakLines_seen crates fs inputs plain,
    weakLines_seen crates now current currentPlain] at same
  have texts := ideal.injective (hex_injective same)
  have lines := Framing.lines_injective newline _ _ (lines_newlineFree crates _ plain)
    (lines_newlineFree crates _ currentPlain) texts
  exact WeakRecord.lines_injective crates ideal _ _ plain currentPlain lines

theorem computeWeakFingerprint_congr (crates : Crates) (fs now : FileSystem)
    (inputs current : WeakFpInputs)
    (same : inputs.seen crates fs = current.seen crates now) :
    computeWeakFingerprint crates fs inputs = computeWeakFingerprint crates now current := by
  simp only [WeakFpInputs.seen, WeakRecord.mk.injEq] at same
  obtain ⟨command, toolPath, tool, packagePath, files, env, depAbi⟩ := same
  have toolHash : hashToolBinary crates fs inputs.toolPath =
      hashToolBinary crates now current.toolPath := by
    simp only [hashToolBinary, tool]
  simp only [computeWeakFingerprint, weakLines, resolveGlobs]
  rw [toolHash, files, command, toolPath, packagePath, env, depAbi]

/-! The strong fingerprint. -/

section Strong

variable (crates : Crates)

def trackedReads (reads : List Path) : List Path :=
  dedupBy Path.eq ((reads.filter fun path => !inNodeModules path).insertionSort
    fun first second => Path.le first second)

/-- What goes into a strong fingerprint: the regular files among the tracked reads.
A file that cannot be read counts as empty. -/
def strongRecords (fs : FileSystem) (reads : List Path) : List (Path × Bytes) :=
  ((trackedReads reads).filter fs.isFile).map fun path => (path, (fs.read path).getD [])

def strongRecordText (record : Path × Bytes) : Bytes :=
  utf8 "read:" ++ (record.1 ++ colon :: (crates.blake3 record.2 ++ [newline]))

def computeStrongFingerprint (fs : FileSystem) (weakFp : Bytes) (pathsetReads : List Path) :
    Bytes :=
  hex (crates.blake3 (utf8 "wf:" ++ (weakFp ++
    newline :: (strongRecords fs pathsetReads).flatMap (strongRecordText crates))))

end Strong

/-- No path of one list is a path of the other cut off at a colon. -/
def Separated (left right : List Path) : Prop :=
  ∀ first ∈ left, ∀ second ∈ right,
    ¬ first ++ [colon] <+: second ∧ ¬ second ++ [colon] <+: first

instance (left right : List Path) : Decidable (Separated left right) := by
  unfold Separated
  infer_instance

theorem mem_trackedReads {path : Path} {reads : List Path} (member : path ∈ trackedReads reads) :
    path ∈ reads ∧ inNodeModules path = false := by
  have kept := mem_of_mem_dedupBy member
  rw [List.mem_insertionSort] at kept
  simpa using List.mem_filter.mp kept

theorem trackedReads_represents {path : Path} {reads : List Path} (member : path ∈ reads)
    (outside : inNodeModules path = false) :
    ∃ kept ∈ trackedReads reads, Path.eq path kept = true := by
  apply dedupBy_represents Path.eq_refl
  rw [List.mem_insertionSort, List.mem_filter]
  exact ⟨member, by simp [outside]⟩

theorem mem_strongRecords {fs : FileSystem} {reads : List Path} {record : Path × Bytes} :
    record ∈ strongRecords fs reads ↔
      record.1 ∈ trackedReads reads ∧ fs.isFile record.1 = true ∧
        record.2 = (fs.read record.1).getD [] := by
  simp only [strongRecords, List.mem_map, List.mem_filter]
  constructor
  · rintro ⟨path, ⟨tracked, file⟩, rfl⟩
    exact ⟨tracked, file, rfl⟩
  · rintro ⟨tracked, file, content⟩
    exact ⟨record.1, ⟨tracked, file⟩, by rw [← content]⟩

theorem strongRecordText_unambiguous (crates : Crates) (ideal : crates.Ideal)
    (left right : List (Path × Bytes))
    (separated : Separated (left.map Prod.fst) (right.map Prod.fst)) :
    Framing.Unambiguous (strongRecordText crates) left right := by
  intro first firstMem second secondMem restLeft restRight same
  simp only [strongRecordText, List.append_assoc] at same
  have tail := List.append_cancel_left same
  simp only [List.cons_append] at tail
  have apart := separated first.1 (List.mem_map_of_mem firstMem) second.1
    (List.mem_map_of_mem secondMem)
  obtain ⟨paths, contents⟩ := Framing.split_at_separator apart.1 apart.2 tail
  simp only [List.append_assoc] at contents
  exact Prod.ext paths (ideal.injective (ideal.prefixFree _ _ _ _ contents))

theorem computeStrongFingerprint_weak (crates : Crates) (ideal : crates.Ideal)
    (fs now : FileSystem) (digest current : Bytes) (reads others : List Path)
    (same : computeStrongFingerprint crates fs (hex digest) reads =
      computeStrongFingerprint crates now (hex current) others) :
    hex digest = hex current := by
  have texts := List.append_cancel_left (ideal.injective (hex_injective same))
  exact (Framing.split_at_first (hex_alphabet digest).1 (hex_alphabet current).1 texts).1

theorem computeStrongFingerprint_injective (crates : Crates) (ideal : crates.Ideal)
    (fs now : FileSystem) (digest current : Bytes) (reads others : List Path)
    (separated : Separated reads others)
    (same : computeStrongFingerprint crates fs (hex digest) reads =
      computeStrongFingerprint crates now (hex current) others) :
    hex digest = hex current ∧ strongRecords fs reads = strongRecords now others := by
  have texts := List.append_cancel_left (ideal.injective (hex_injective same))
  obtain ⟨weak, records⟩ := Framing.split_at_first (hex_alphabet digest).1 (hex_alphabet current).1 texts
  refine ⟨weak, Framing.flatMap_injective _ ?_ _ _ ?_ records⟩
  · intro record impossible
    simp [strongRecordText] at impossible
  · apply strongRecordText_unambiguous crates ideal
    intro first firstMem second secondMem
    obtain ⟨record, recordMem, rfl⟩ := List.mem_map.mp firstMem
    obtain ⟨other, otherMem, rfl⟩ := List.mem_map.mp secondMem
    exact separated _ (mem_trackedReads (mem_strongRecords.mp recordMem).1).1
      _ (mem_trackedReads (mem_strongRecords.mp otherMem).1).1

theorem strongRecords_covers {fs : FileSystem} {reads : List Path} {path : Path}
    (member : path ∈ reads) (outside : inNodeModules path = false)
    (file : fs.isFile path = true) :
    ∃ record ∈ strongRecords fs reads, Path.eq path record.1 = true ∧
      record.2 = (fs.read path).getD [] := by
  obtain ⟨kept, tracked, same⟩ := trackedReads_represents member outside
  have status := stat_congr fs same
  have keptFile : fs.isFile kept = true := by
    simpa [FileSystem.isFile, status] using file
  refine ⟨(kept, (fs.read kept).getD []), mem_strongRecords.mpr ⟨tracked, keptFile, rfl⟩, same, ?_⟩
  simp [FileSystem.read, status]

end Rage
