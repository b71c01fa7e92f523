import Rage.Fingerprint
import Rage.StableSort

/-!
Which inputs share a weak fingerprint.  The inputs are written line by line, with strings that may
hold newlines and separators themselves, and pairs are sorted by their keys only.
-/

namespace Rage

def joinedPair (pair : Bytes × Bytes) : Bytes := pair.1 ++ equals :: pair.2

/-! A list of pairs after the sort. -/

section Pairs

variable {pairs others : List (Bytes × Bytes)}

theorem sortByKey_eq_iff : sortByKey pairs = sortByKey others ↔
    ∀ key, pairs.filter (fun pair => pair.1 = key) = others.filter fun pair => pair.1 = key :=
  StableSort.sort_eq_iff (fun _ _ => Std.le_antisymm) (fun _ _ => Std.le_total)
    (fun _ _ _ => Std.le_trans) pairs others

theorem keys_sortByKey (permuted : pairs.Perm others) :
    (sortByKey pairs).map Prod.fst = (sortByKey others).map Prod.fst := by
  have sorted (list : List (Bytes × Bytes)) : ((sortByKey list).map Prod.fst).Pairwise (· ≤ ·) := by
    have byKey : (StableSort.sort Prod.fst (· ≤ ·) list).Pairwise
        fun first second => first.1 ≤ second.1 :=
      StableSort.pairwise_sort Prod.fst (· ≤ ·) (fun _ _ => Std.le_total)
        (fun _ _ _ => Std.le_trans) list
    exact List.pairwise_map.mpr byKey
  have keys : ((sortByKey pairs).map Prod.fst).Perm ((sortByKey others).map Prod.fst) :=
    ((List.perm_insertionSort _ pairs).trans
      (permuted.trans (List.perm_insertionSort _ others).symm)).map Prod.fst
  exact keys.eq_of_pairwise (fun _ _ _ _ => Std.le_antisymm) (sorted pairs) (sorted others)

theorem pairs_of_joined {left right : List (Bytes × Bytes)}
    (keys : left.map Prod.fst = right.map Prod.fst)
    (joined : left.map joinedPair = right.map joinedPair) : left = right := by
  induction left generalizing right with
  | nil => simpa using keys.symm
  | cons pair rest ih =>
      cases right with
      | nil => simp at keys
      | cons other others =>
          simp only [List.map_cons, List.cons.injEq] at keys joined
          have values : equals :: pair.2 = equals :: other.2 := by
            have same := joined.1
            rw [joinedPair, joinedPair, keys.1] at same
            exact List.append_cancel_left same
          rw [ih keys.2 joined.2, Prod.ext keys.1 (List.cons.inj values).2]

/-- Of two orders of the same pairs, the sort leaves only the order within a key. -/
theorem joined_sortByKey_iff (permuted : pairs.Perm others) :
    (sortByKey pairs).map joinedPair = (sortByKey others).map joinedPair ↔
      ∀ key, pairs.filter (fun pair => pair.1 = key) = others.filter fun pair => pair.1 = key := by
  rw [← sortByKey_eq_iff]
  constructor
  · exact pairs_of_joined (keys_sortByKey permuted)
  · intro same
    rw [same]

end Pairs

section

variable (crates : Crates) (fs now : FileSystem) (inputs current : WeakFpInputs)

/-- The two inputs are the same up to the order of their pairs. -/
structure SameInputs : Prop where
  command : inputs.command = current.command
  toolPath : inputs.toolPath = current.toolPath
  toolHash : hashToolBinary crates fs inputs.toolPath = hashToolBinary crates now current.toolPath
  packagePath : inputs.packagePath = current.packagePath
  resolved : resolveGlobs crates fs inputs.packagePath inputs.declaredInputGlobs =
    resolveGlobs crates now current.packagePath current.declaredInputGlobs
  env : inputs.trackedEnv.Perm current.trackedEnv
  depAbi : inputs.depAbiFingerprints.Perm current.depAbiFingerprints

/-- The values of each key come in the same order. -/
def SameKeyOrder : Prop :=
  (∀ key, inputs.trackedEnv.filter (fun pair => pair.1 = key) =
    current.trackedEnv.filter fun pair => pair.1 = key) ∧
  ∀ key, inputs.depAbiFingerprints.filter (fun pair => pair.1 = key) =
    current.depAbiFingerprints.filter fun pair => pair.1 = key

/-- The same lines: paths may differ in bytes that are not UTF-8, and pairs in where their
separator stands. -/
structure Lookalike : Prop where
  command : inputs.command = current.command
  toolPath : toStringLossy inputs.toolPath = toStringLossy current.toolPath
  toolHash : hashToolBinary crates fs inputs.toolPath = hashToolBinary crates now current.toolPath
  packagePath : toStringLossy inputs.packagePath = toStringLossy current.packagePath
  resolved : (resolveGlobs crates fs inputs.packagePath inputs.declaredInputGlobs).map
      (fun input => (toStringLossy input.1, input.2)) =
    (resolveGlobs crates now current.packagePath current.declaredInputGlobs).map
      fun input => (toStringLossy input.1, input.2)
  env : (sortByKey inputs.trackedEnv).map joinedPair =
    (sortByKey current.trackedEnv).map joinedPair
  depAbi : (sortByKey inputs.depAbiFingerprints).map joinedPair =
    (sortByKey current.depAbiFingerprints).map joinedPair

end

section

variable {crates : Crates} {fs now : FileSystem} {inputs current : WeakFpInputs}

theorem resolved_lines_iff (left right : List (Path × Bytes))
    (leftHex : ∀ input ∈ left, colon ∉ input.2) (rightHex : ∀ input ∈ right, colon ∉ input.2) :
    left.map (fun input => toStringLossy input.1 ++ colon :: input.2) =
        right.map (fun input => toStringLossy input.1 ++ colon :: input.2) ↔
      left.map (fun input => (toStringLossy input.1, input.2)) =
        right.map fun input => (toStringLossy input.1, input.2) := by
  constructor
  · intro same
    induction left generalizing right with
    | nil => simpa using same.symm
    | cons first rest ih =>
        cases right with
        | nil => simp at same
        | cons second others =>
            simp only [List.map_cons, List.cons.injEq] at same ⊢
            obtain ⟨names, hashes⟩ := Framing.split_at_last (leftHex first (by simp))
              (rightHex second (by simp)) same.1
            have tails := ih others (fun input member => leftHex input (by simp [member]))
              (fun input member => rightHex input (by simp [member])) same.2
            exact ⟨Prod.ext names hashes, tails⟩
  · intro same
    have lines (list : List (Path × Bytes)) :
        list.map (fun input => toStringLossy input.1 ++ colon :: input.2) =
          (list.map fun input => (toStringLossy input.1, input.2)).map fun pair =>
            pair.1 ++ colon :: pair.2 := by
      simp
    rw [lines, lines, same]

theorem resolveGlobs_hex (packageDir : Path) (globs : List Bytes) (input : Path × Bytes)
    (member : input ∈ resolveGlobs crates fs packageDir globs) : colon ∉ input.2 := by
  obtain ⟨file, _, rfl⟩ := List.mem_map.mp member
  exact (hex_alphabet _).2.1

theorem weakLines_eq_iff (ideal : crates.Ideal) :
    weakLines crates fs inputs = weakLines crates now current ↔
      Lookalike crates fs now inputs current := by
  have pieces (fs : FileSystem) (inputs : WeakFpInputs) : weakLines crates fs inputs =
      (utf8 "command:" ++ inputs.command) :: (utf8 "tool_path:" ++ toStringLossy inputs.toolPath) ::
      (utf8 "tool_hash:" ++ (hashToolBinary crates fs inputs.toolPath).getD (utf8 "<missing>")) ::
      (utf8 "pkg_path:" ++ toStringLossy inputs.packagePath) ::
      (((resolveGlobs crates fs inputs.packagePath inputs.declaredInputGlobs).map fun input =>
          toStringLossy input.1 ++ colon :: input.2).map (utf8 "input:" ++ ·) ++
        (((sortByKey inputs.trackedEnv).map joinedPair).map (utf8 "env:" ++ ·) ++
          ((sortByKey inputs.depAbiFingerprints).map joinedPair).map (utf8 "dep_abi:" ++ ·))) := by
    simp [weakLines, joinedPair, Function.comp_def]
  rw [pieces, pieces]
  constructor
  · intro same
    simp only [List.cons.injEq, List.append_cancel_left_eq] at same
    obtain ⟨command, toolPath, toolHash, packagePath, blocks⟩ := same
    obtain ⟨resolved, env, depAbi⟩ := sections_injective blocks
    have tool := toolHash_injective crates ideal _ _ toolHash
    exact ⟨command, toolPath, by rw [hashToolBinary, tool]; rfl, packagePath,
      (resolved_lines_iff _ _ (resolveGlobs_hex _ _) (resolveGlobs_hex _ _)).mp resolved, env, depAbi⟩
  · intro same
    have resolved := (resolved_lines_iff _ _ (resolveGlobs_hex _ _) (resolveGlobs_hex _ _)).mpr
      same.resolved
    rw [same.command, same.toolPath, same.toolHash, same.packagePath, resolved, same.env,
      same.depAbi]

theorem computeWeakFingerprint_eq_iff (ideal : crates.Ideal) :
    computeWeakFingerprint crates fs inputs = computeWeakFingerprint crates now current ↔
      Lookalike crates fs now inputs current ∨
        Framing.MovedTerminator newline (weakLines crates fs inputs)
          (weakLines crates now current) := by
  rw [← weakLines_eq_iff ideal, ← Framing.recut_lines_iff,
    ← Framing.flatMap_eq_iff _ _ _ (by simp) (by simp)]
  unfold computeWeakFingerprint
  constructor
  · intro same
    exact ideal.injective (hex_injective same)
  · intro same
    rw [same]

/-- Strings that cannot be mistaken for the end of their line leave only look-alikes. -/
theorem computeWeakFingerprint_plain_iff (ideal : crates.Ideal)
    (plain : (inputs.seen crates fs).Plain) (currentPlain : (current.seen crates now).Plain) :
    computeWeakFingerprint crates fs inputs = computeWeakFingerprint crates now current ↔
      Lookalike crates fs now inputs current := by
  rw [computeWeakFingerprint_eq_iff ideal, weakLines_seen crates fs inputs plain,
    weakLines_seen crates now current currentPlain]
  exact or_iff_left (Framing.not_movedTerminator newline (lines_newlineFree crates _ plain)
    (lines_newlineFree crates _ currentPlain))

theorem SameInputs.lookalike_iff (same : SameInputs crates fs now inputs current) :
    Lookalike crates fs now inputs current ↔ SameKeyOrder inputs current := by
  constructor
  · intro alike
    exact ⟨(joined_sortByKey_iff same.env).mp alike.env,
      (joined_sortByKey_iff same.depAbi).mp alike.depAbi⟩
  · rintro ⟨env, depAbi⟩
    exact ⟨same.command, by rw [same.toolPath], same.toolHash, by rw [same.packagePath],
      by rw [same.resolved], (joined_sortByKey_iff same.env).mpr env,
      (joined_sortByKey_iff same.depAbi).mpr depAbi⟩

end

/-! Pairs cut at another place, and two values of one key. -/

namespace Pairing

def inputs (trackedEnv : List (Bytes × Bytes)) : WeakFpInputs where
  command := utf8 "tsc"
  toolPath := utf8 "sh"
  packagePath := utf8 "/ws/app"
  declaredInputGlobs := []
  trackedEnv := trackedEnv
  depAbiFingerprints := []

def disk : FileSystem := ⟨[]⟩

def early : WeakFpInputs := inputs [(utf8 "A", utf8 "B=C")]

def late : WeakFpInputs := inputs [(utf8 "A=B", utf8 "C")]

def upward : WeakFpInputs := inputs [(utf8 "A", utf8 "1"), (utf8 "A", utf8 "2")]

def downward : WeakFpInputs := inputs [(utf8 "A", utf8 "2"), (utf8 "A", utf8 "1")]

theorem same_upward : SameInputs .plain disk disk upward downward :=
  ⟨rfl, rfl, rfl, rfl, rfl, List.Perm.swap .., List.Perm.refl _⟩

end Pairing

end Rage
