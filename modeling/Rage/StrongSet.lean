import Rage.Fingerprint
import Rage.PathSpelling
import Rage.StableSort

/-!
The strong fingerprint and the set of files that were read.  Reads are sorted and merged by their
components, and what is hashed is the bytes of one spelling.
-/

namespace Rage

/-! Which of several equal elements `dedup` keeps. -/

section Dedup

variable {α κ : Type} [DecidableEq κ] {key : α → κ} {same : α → α → Bool}
  (isKey : ∀ x y, same x y = decide (key x = key y))

include isKey

theorem find?_dedupFrom (k : κ) (kept : α) (xs : List α) :
    (kept :: dedupFrom same kept xs).find? (fun x => key x = k) =
      (kept :: xs).find? fun x => key x = k := by
  induction xs generalizing kept with
  | nil => rfl
  | cons next rest ih =>
      simp only [dedupFrom, isKey]
      by_cases dropped : key next = key kept
      · rw [if_pos (by simpa using dropped), ih kept]
        by_cases here : key kept = k
        · simp [here]
        · simp [here, dropped]
      · rw [if_neg (by simpa using dropped)]
        by_cases here : key kept = k
        · simp [here]
        · have skipped (list : List α) : (kept :: list).find? (fun x => key x = k) =
              list.find? fun x => key x = k :=
            List.find?_cons_of_neg (by simpa using here)
          rw [skipped, skipped]
          exact ih next

theorem find?_dedupBy (k : κ) (xs : List α) :
    (dedupBy same xs).find? (fun x => key x = k) = xs.find? fun x => key x = k := by
  cases xs with
  | nil => rfl
  | cons first rest => exact find?_dedupFrom isKey k first rest

/-- What is left of a sorted list has its keys in order, each once. -/
theorem pairwise_dedupFrom {le : κ → κ → Prop} (antisymm : ∀ j k, le j k → le k j → j = k)
    (kept : α) (xs : List α)
    (sorted : (kept :: xs).Pairwise fun first second => le (key first) (key second)) :
    (kept :: dedupFrom same kept xs).Pairwise
      fun first second => le (key first) (key second) ∧ key first ≠ key second := by
  induction xs generalizing kept with
  | nil => simp [dedupFrom]
  | cons next rest ih =>
      obtain ⟨above, sortedRest⟩ := List.pairwise_cons.mp sorted
      simp only [dedupFrom, isKey]
      by_cases dropped : key next = key kept
      · rw [if_pos (by simpa using dropped)]
        apply ih
        exact List.pairwise_cons.mpr ⟨fun x member => above x (by simp [member]), sortedRest.of_cons⟩
      · rw [if_neg (by simpa using dropped)]
        refine List.pairwise_cons.mpr ⟨fun x member => ?_, ih next sortedRest⟩
        have within : x ∈ next :: rest := by
          rcases List.mem_cons.mp member with here | later
          · simp [here]
          · exact List.mem_cons_of_mem _ (mem_of_mem_dedupFrom later)
        refine ⟨above x within, fun equal => dropped ?_⟩
        have nextFirst : le (key next) (key kept) := by
          rcases List.mem_cons.mp within with rfl | later
          · rw [← equal]
            exact equal ▸ above x within
          · exact equal ▸ List.rel_of_pairwise_cons sortedRest later
        exact antisymm _ _ nextFirst (above next (by simp))

theorem pairwise_dedupBy {le : κ → κ → Prop} (antisymm : ∀ j k, le j k → le k j → j = k)
    {xs : List α} (sorted : xs.Pairwise fun first second => le (key first) (key second)) :
    (dedupBy same xs).Pairwise
      fun first second => le (key first) (key second) ∧ key first ≠ key second := by
  cases xs with
  | nil => exact List.Pairwise.nil
  | cons first rest => exact pairwise_dedupFrom isKey antisymm first rest sorted

end Dedup

/-! The files that are hashed. -/

section Files

variable (fs : FileSystem) (reads : List Path)

/-- The spelling of a path that comes first in the list. -/
def firstSpelling (path : Path) : Option Path := reads.find? fun read => Path.eq read path

def hashedFiles : List Path := (trackedReads reads).filter fs.isFile

theorem trackedReads_eq : trackedReads reads = dedupBy Path.eq
    (StableSort.sort components (fun first second => componentsLe first second = true)
      (reads.filter fun path => !inNodeModules path)) := rfl

theorem path_eq_key (first second : Path) :
    Path.eq first second = decide (components first = components second) := by
  simp only [Path.eq, Bool.beq_eq_decide_eq]

theorem hashedFiles_sorted : (hashedFiles fs reads).Pairwise fun first second =>
    componentsLe (components first) (components second) = true ∧
      components first ≠ components second := by
  have distinct := pairwise_dedupBy path_eq_key componentsLe_antisymm
    (StableSort.pairwise_sort components (fun first second => componentsLe first second = true)
      componentsLe_total componentsLe_trans (reads.filter fun path => !inNodeModules path))
  rw [← trackedReads_eq] at distinct
  exact distinct.filter _

theorem firstSpelling_filter {test : Path → Bool} {path : Path}
    (kept : ∀ read, Path.eq read path = true → test read = true) :
    firstSpelling (reads.filter test) path = firstSpelling reads path := by
  have sameTest : (fun read => decide (test read = true ∧ Path.eq read path = true)) =
      fun read => Path.eq read path := by
    funext read
    by_cases equal : Path.eq read path = true
    · simp [equal, kept read equal]
    · simp [equal]
  rw [firstSpelling, List.find?_filter, sameTest, firstSpelling]

theorem firstSpelling_hashedFiles {path : Path} (outside : inNodeModules path = false)
    (isFile : fs.isFile path = true) :
    firstSpelling (hashedFiles fs reads) path = firstSpelling reads path := by
  have key (list : List Path) : firstSpelling list path =
      list.find? fun read => components read = components path := by
    simp only [firstSpelling, path_eq_key]
  have refl (names : List Component) : componentsLe names names = true := by
    simpa using componentsLe_total names names
  have sorted : firstSpelling (trackedReads reads) path =
      firstSpelling (reads.filter fun path => !inNodeModules path) path := by
    rw [key, trackedReads_eq, find?_dedupBy path_eq_key, ← List.head?_filter,
      StableSort.filter_sort refl, List.head?_filter, ← key]
  rw [hashedFiles, firstSpelling_filter, sorted, firstSpelling_filter]
  · intro read same
    simpa [inNodeModules, Path.eq_iff.mp same] using outside
  · intro read same
    simpa only [FileSystem.isFile, stat_congr fs same] using isFile


theorem mem_hashedFiles {path : Path} (member : path ∈ hashedFiles fs reads) :
    path ∈ reads ∧ inNodeModules path = false ∧ fs.isFile path = true := by
  obtain ⟨tracked, isFile⟩ := List.mem_filter.mp member
  obtain ⟨isRead, outside⟩ := mem_trackedReads tracked
  exact ⟨isRead, outside, isFile⟩

theorem nodup_hashedFiles : ((hashedFiles fs reads).map components).Nodup :=
  List.pairwise_map.mpr ((hashedFiles_sorted fs reads).imp fun pair => pair.2)

end Files

/-! Lists of reads that are the same set of paths, and that name the same files. -/

section Sets

def SameReads (reads others : List Path) : Prop :=
  ∀ path, inNodeModules path = false →
    ((∃ read ∈ reads, Path.eq read path = true) ↔ ∃ read ∈ others, Path.eq read path = true)

variable (fs : FileSystem)

def SameFiles (reads others : List Path) : Prop :=
  ∀ path, inNodeModules path = false → fs.isFile path = true →
    ((∃ read ∈ reads, Path.eq read path = true) ↔ ∃ read ∈ others, Path.eq read path = true)

/-- Each file that is hashed comes first under the same spelling in both lists. -/
def SameSpelling (reads others : List Path) : Prop :=
  ∀ path, inNodeModules path = false → fs.isFile path = true →
    firstSpelling reads path = firstSpelling others path

variable {fs} {reads others : List Path}

theorem SameReads.files (same : SameReads reads others) : SameFiles fs reads others :=
  fun path outside _ => same path outside

theorem firstSpelling_isSome {path : Path} :
    (firstSpelling reads path).isSome = true ↔ ∃ read ∈ reads, Path.eq read path = true := by
  rw [firstSpelling, List.find?_isSome]

theorem SameSpelling.files (same : SameSpelling fs reads others) : SameFiles fs reads others := by
  intro path outside isFile
  rw [← firstSpelling_isSome, same path outside isFile, firstSpelling_isSome]

/-- The hashed files are those that the list names. -/
theorem mem_components_hashedFiles {path : Path} :
    components path ∈ (hashedFiles fs reads).map components ↔
      inNodeModules path = false ∧ fs.isFile path = true ∧
        ∃ read ∈ reads, Path.eq read path = true := by
  constructor
  · intro member
    obtain ⟨kept, isKept, same⟩ := List.mem_map.mp member
    obtain ⟨isRead, outside, isFile⟩ := mem_hashedFiles fs reads isKept
    have equal := Path.eq_iff.mpr same
    refine ⟨?_, ?_, kept, isRead, equal⟩
    · simpa [inNodeModules, same] using outside
    · simpa only [FileSystem.isFile, stat_congr fs equal] using isFile
  · rintro ⟨outside, isFile, isRead⟩
    rw [← firstSpelling_isSome, ← firstSpelling_hashedFiles fs reads outside isFile,
      firstSpelling_isSome] at isRead
    obtain ⟨kept, isKept, equal⟩ := isRead
    exact List.mem_map.mpr ⟨kept, isKept, Path.eq_iff.mp equal⟩

theorem sameFiles_iff : SameFiles fs reads others ↔
    (hashedFiles fs reads).map components = (hashedFiles fs others).map components := by
  constructor
  · intro same
    have members (names : List Component) : names ∈ (hashedFiles fs reads).map components ↔
        names ∈ (hashedFiles fs others).map components := by
      by_cases isPath : ∃ path, components path = names
      · obtain ⟨path, rfl⟩ := isPath
        rw [mem_components_hashedFiles, mem_components_hashedFiles]
        exact and_congr_right fun outside => and_congr_right fun isFile => same path outside isFile
      · have unspelled (list : List Path) : names ∉ list.map components := fun member =>
          isPath ((List.mem_map.mp member).imp fun path found => found.2)
        exact iff_of_false (unspelled _) (unspelled _)
    have permuted := (List.perm_ext_iff_of_nodup (nodup_hashedFiles fs reads)
      (nodup_hashedFiles fs others)).mpr members
    have sorted (reads : List Path) : ((hashedFiles fs reads).map components).Pairwise
        fun first second => componentsLe first second = true :=
      List.pairwise_map.mpr ((hashedFiles_sorted fs reads).imp fun pair => pair.1)
    exact permuted.eq_of_pairwise (fun _ _ _ _ => componentsLe_antisymm _ _) (sorted reads)
      (sorted others)
  · intro same path outside isFile
    have members : components path ∈ (hashedFiles fs reads).map components ↔
        components path ∈ (hashedFiles fs others).map components := by
      rw [same]
    rw [mem_components_hashedFiles, mem_components_hashedFiles] at members
    simpa [outside, isFile] using members

theorem firstSpelling_of_mem {read path : Path} (member : read ∈ hashedFiles fs reads)
    (same : components read = components path) :
    firstSpelling (hashedFiles fs reads) path = some read := by
  have found := firstSpelling_isSome.mpr ⟨read, member, Path.eq_iff.mpr same⟩
  rw [firstSpelling] at found ⊢
  obtain ⟨kept, isFirst⟩ := Option.isSome_iff_exists.mp found
  have equal := List.find?_some isFirst
  rw [isFirst, List.inj_on_of_nodup_map (nodup_hashedFiles fs reads)
    (List.mem_of_find?_eq_some isFirst) member ((Path.eq_iff.mp equal).trans same.symm)]

theorem hashedFiles_eq_iff : hashedFiles fs reads = hashedFiles fs others ↔
    SameSpelling fs reads others := by
  constructor
  · intro same path outside isFile
    rw [← firstSpelling_hashedFiles fs reads outside isFile, same,
      firstSpelling_hashedFiles fs others outside isFile]
  · intro same
    refine Framing.map_injective_on components _ _ ?_ (sameFiles_iff.mp same.files)
    intro read member other otherMember equal
    obtain ⟨_, outside, isFile⟩ := mem_hashedFiles fs reads member
    have first := same read outside isFile
    rw [← firstSpelling_hashedFiles fs reads outside isFile,
      ← firstSpelling_hashedFiles fs others outside isFile, firstSpelling_of_mem member rfl,
      firstSpelling_of_mem otherMember equal.symm] at first
    exact Option.some.inj first

end Sets

/-- What the strong fingerprint of a read list hashes after the weak one. -/
def strongText (crates : Crates) (fs : FileSystem) (reads : List Path) : Bytes :=
  (strongRecords fs reads).flatMap (strongRecordText crates)

theorem computeStrongFingerprint_eq_iff {crates : Crates} (ideal : crates.Ideal)
    (fs now : FileSystem) (weakFp : Bytes) (reads others : List Path) :
    computeStrongFingerprint crates fs weakFp reads =
        computeStrongFingerprint crates now weakFp others ↔
      strongText crates fs reads = strongText crates now others := by
  unfold computeStrongFingerprint strongText
  constructor
  · intro same
    have texts := List.append_cancel_left (ideal.injective (hex_injective same))
    simpa using List.append_cancel_left texts
  · intro same
    rw [same]

/-! Where the text of one list is that of another. -/

section Text

variable (crates : Crates)

/-- At the first difference of two lists of records, the path of one goes on behind a colon, and
spells there what the other list has behind the shorter path. -/
def PathMovesOn (left right : List (Path × Bytes)) : Prop :=
  ∃ common first rest second others more, left = common ++ first :: rest ∧
    right = common ++ second :: others ∧
    ((second.1 = first.1 ++ colon :: more ∧
      crates.blake3 first.2 ++ newline :: rest.flatMap (strongRecordText crates) =
        more ++ colon :: (crates.blake3 second.2 ++
          newline :: others.flatMap (strongRecordText crates))) ∨
    (first.1 = second.1 ++ colon :: more ∧
      crates.blake3 second.2 ++ newline :: others.flatMap (strongRecordText crates) =
        more ++ colon :: (crates.blake3 first.2 ++
          newline :: rest.flatMap (strongRecordText crates))))

variable {crates}

theorem strongRecordText_append (record : Path × Bytes) (rest : Bytes) :
    strongRecordText crates record ++ rest =
      utf8 "read:" ++ (record.1 ++ colon :: (crates.blake3 record.2 ++ newline :: rest)) := by
  simp [strongRecordText]

theorem recut_records_iff (ideal : crates.Ideal) (left right : List (Path × Bytes)) :
    Framing.Recut (strongRecordText crates) left right ↔ PathMovesOn crates left right := by
  constructor
  · rintro ⟨common, first, rest, second, others, isLeft, isRight, differ, same⟩
    rw [strongRecordText_append, strongRecordText_append] at same
    have tails := List.append_cancel_left same
    have paths : first.1 ≠ second.1 := by
      intro equal
      rw [equal] at tails
      have contents := (List.cons.inj (List.append_cancel_left tails)).2
      exact differ (Prod.ext equal (ideal.injective (ideal.prefixFree _ _ _ _ contents)))
    rcases List.append_eq_append_iff.mp tails with ⟨extra, longer, ends⟩ | ⟨extra, longer, ends⟩
    · obtain ⟨more, longer, tail⟩ := Framing.goes_on_behind paths longer ends
      exact ⟨common, first, rest, second, others, more, isLeft, isRight, Or.inl ⟨longer, tail⟩⟩
    · obtain ⟨more, longer, tail⟩ := Framing.goes_on_behind paths.symm longer ends
      exact ⟨common, first, rest, second, others, more, isLeft, isRight, Or.inr ⟨longer, tail⟩⟩
  · rintro ⟨common, first, rest, second, others, more, isLeft, isRight, ⟨longer, tail⟩ |
      ⟨longer, tail⟩⟩
    · refine ⟨common, first, rest, second, others, isLeft, isRight, ?_, ?_⟩
      · rintro rfl
        simp at longer
      · rw [strongRecordText_append, strongRecordText_append, longer, tail]
        simp
    · refine ⟨common, first, rest, second, others, isLeft, isRight, ?_, ?_⟩
      · rintro rfl
        simp at longer
      · rw [strongRecordText_append, strongRecordText_append, longer, tail]
        simp

variable {fs : FileSystem} {reads others : List Path}

theorem strongRecords_eq_iff : strongRecords fs reads = strongRecords fs others ↔
    SameSpelling fs reads others := by
  rw [← hashedFiles_eq_iff]
  constructor
  · intro same
    have paths := congrArg (List.map Prod.fst) same
    simpa [strongRecords, hashedFiles, Function.comp_def] using paths
  · intro same
    rw [strongRecords, strongRecords, ← hashedFiles, same, hashedFiles]

theorem not_sameFiles_of_pathMovesOn
    (moves : PathMovesOn crates (strongRecords fs reads) (strongRecords fs others)) :
    ¬ SameFiles fs reads others := by
  intro same
  have paths (reads : List Path) : (strongRecords fs reads).map (components ·.1) =
      (hashedFiles fs reads).map components := by
    simp [strongRecords, hashedFiles, Function.comp_def]
  have names := sameFiles_iff.mp same
  rw [← paths, ← paths] at names
  obtain ⟨common, first, rest, second, others, more, isLeft, isRight, ends⟩ := moves
  rw [isLeft, isRight] at names
  simp only [List.map_append, List.map_cons, List.append_cancel_left_eq, List.cons.injEq] at names
  rcases ends with ⟨longer, _⟩ | ⟨longer, _⟩
  · exact not_colon_of_eq (Path.eq_iff.mpr names.1) ⟨more, by simp [longer]⟩
  · exact not_colon_of_eq (Path.eq_iff.mpr names.1.symm) ⟨more, by simp [longer]⟩

theorem strongText_eq_iff (ideal : crates.Ideal) :
    strongText crates fs reads = strongText crates fs others ↔
      SameSpelling fs reads others ∨
        PathMovesOn crates (strongRecords fs reads) (strongRecords fs others) := by
  have filled (record : Path × Bytes) : strongRecordText crates record ≠ [] := by
    simp [strongRecordText]
  rw [strongText, strongText, Framing.flatMap_eq_iff _ _ _ (fun record _ => filled record)
    (fun record _ => filled record), recut_records_iff ideal, strongRecords_eq_iff]

theorem strong_set_iff (ideal : crates.Ideal) (fs : FileSystem) (weakFp : Bytes)
    (reads others : List Path) :
    ((SameReads reads others →
        computeStrongFingerprint crates fs weakFp reads =
          computeStrongFingerprint crates fs weakFp others) ∧
      (computeStrongFingerprint crates fs weakFp reads =
          computeStrongFingerprint crates fs weakFp others → SameFiles fs reads others)) ↔
    (SameReads reads others → SameSpelling fs reads others) ∧
      ¬ PathMovesOn crates (strongRecords fs reads) (strongRecords fs others) := by
  rw [computeStrongFingerprint_eq_iff ideal, strongText_eq_iff ideal]
  constructor
  · rintro ⟨determined, determines⟩
    refine ⟨fun same => ?_, fun moves => ?_⟩
    · exact (determined same).resolve_right fun moves =>
        not_sameFiles_of_pathMovesOn moves same.files
    · exact not_sameFiles_of_pathMovesOn moves (determines (Or.inr moves))
  · rintro ⟨spelled, stays⟩
    exact ⟨fun same => Or.inl (spelled same), fun equal => (equal.resolve_right stays).files⟩

end Text

/-! A file that is read under two spellings. -/

namespace TwoSpellings

def source : Path := utf8 "/ws/a.ts"

def doubled : Path := utf8 "/ws//a.ts"

def disk : FileSystem := ⟨[(components source, ⟨.file (utf8 "1") true, false⟩)]⟩

end TwoSpellings

open TwoSpellings in
theorem strong_set_iff_once :
    ((SameReads [source] [doubled] →
        computeStrongFingerprint .plain disk (utf8 "wf") [source] =
          computeStrongFingerprint .plain disk (utf8 "wf") [doubled]) ∧
      (computeStrongFingerprint .plain disk (utf8 "wf") [source] =
          computeStrongFingerprint .plain disk (utf8 "wf") [doubled] →
        SameFiles disk [source] [doubled])) ↔
    (SameReads [source] [doubled] → SameSpelling disk [source] [doubled]) ∧
      ¬ PathMovesOn .plain (strongRecords disk [source]) (strongRecords disk [doubled]) :=
  strong_set_iff Crates.plain_ideal disk (utf8 "wf") [source] [doubled]

open TwoSpellings in
theorem strong_set_respelled :
    ¬ ∀ (crates : Crates), crates.Ideal → ∀ (fs : FileSystem) (weakFp : Bytes)
        (reads others : List Path),
      (SameReads reads others → computeStrongFingerprint crates fs weakFp reads =
        computeStrongFingerprint crates fs weakFp others) ∧
      (computeStrongFingerprint crates fs weakFp reads =
        computeStrongFingerprint crates fs weakFp others → SameFiles fs reads others) := by
  intro claimed
  have names : components source = components doubled := by decide
  have same : SameReads [source] [doubled] := by
    intro path _
    simp [Path.eq_iff, names]
  have equal := (claimed .plain Crates.plain_ideal disk (utf8 "wf") [source] [doubled]).1 same
  exact absurd equal (by decide +kernel)

end Rage
