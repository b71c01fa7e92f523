import Rage.ArtifactStore
import Rage.Framing
import Rage.PathSpelling
import Rage.TwoPhaseCache

/-!
The names of side files: ABI fingerprints of packages, why-miss snapshots and artifact manifests.
Each is made of a package name with its separators replaced, and of a script or a version.
-/

namespace Rage

abbrev dash : UInt8 := 45

def underscore : UInt8 := 95

/-- `snapshot_path`. -/
def snapshotPath (dir pkg script : Bytes) : Path :=
  Path.join (Path.join dir (utf8 "why"))
    (TwoPhaseCache.pkgNameToFilename pkg ++ dash :: (script ++ utf8 ".snapshot.json"))

/-! Package names as npm accepts them, old ones with capitals and `!'()*` included, and the
characters of a semver version. -/

structure PackageName where
  scope : Option Bytes
  base : Bytes
  deriving DecidableEq

namespace PackageName

def text (name : PackageName) : Bytes :=
  match name.scope with
  | some scope => 64 :: scope ++ slash :: name.base
  | none => name.base

end PackageName

def isUrlFriendly (byte : UInt8) : Bool :=
  (48 ≤ byte && byte ≤ 57) || (65 ≤ byte && byte ≤ 90) || (97 ≤ byte && byte ≤ 122) ||
    (utf8 "-_.!~*'()").contains byte

structure PackageName.Valid (name : PackageName) : Prop where
  base : name.base ≠ [] ∧ name.base.all isUrlFriendly = true
  scope : ∀ scope, name.scope = some scope → scope ≠ [] ∧ scope.all isUrlFriendly = true
  start : name.scope = none → name.base.head? ≠ some 46 ∧ name.base.head? ≠ some underscore

def isVersionByte (byte : UInt8) : Bool :=
  (48 ≤ byte && byte ≤ 57) || (65 ≤ byte && byte ≤ 90) || (97 ≤ byte && byte ≤ 122) ||
    (utf8 "-.+").contains byte

theorem urlFriendly_excludes {byte : UInt8} (friendly : isUrlFriendly byte = true) :
    byte ≠ slash ∧ byte ≠ 64 ∧ byte ≠ 43 := by
  refine ⟨?_, ?_, ?_⟩ <;> (rintro rfl; exact absurd friendly (by decide))

theorem versionByte_excludes {byte : UInt8} (isVersion : isVersionByte byte = true) :
    byte ≠ 64 := by
  rintro rfl
  exact absurd isVersion (by decide)

theorem friendly_excludes {text : Bytes} (friendly : text.all isUrlFriendly = true) :
    slash ∉ text ∧ (64 : UInt8) ∉ text ∧ (43 : UInt8) ∉ text := by
  have each := List.all_eq_true.mp friendly
  exact ⟨fun member => (urlFriendly_excludes (each _ member)).1 rfl,
    fun member => (urlFriendly_excludes (each _ member)).2.1 rfl,
    fun member => (urlFriendly_excludes (each _ member)).2.2 rfl⟩

/-! The name of an ABI file, and when two package names share it. -/

namespace PackageName

def slug (name : PackageName) : Bytes :=
  match name.scope with
  | some scope => utf8 "_at_" ++ (scope ++ underscore :: underscore :: name.base)
  | none => name.base

theorem flatMap_replace {text : Bytes} {byte : UInt8} (with_ : Bytes) (free : byte ∉ text) :
    (text.flatMap fun other => if other = byte then with_ else [other]) = text := by
  induction text with
  | nil => rfl
  | cons first rest ih =>
      have differ : first ≠ byte := fun same => free (by simp [same])
      rw [List.flatMap_cons, if_neg differ, ih fun member => free (List.mem_cons_of_mem _ member)]
      rfl

theorem pkgNameToFilename_text {name : PackageName} (valid : name.Valid) :
    TwoPhaseCache.pkgNameToFilename name.text = name.slug := by
  obtain ⟨noSlash, noAt, _⟩ := friendly_excludes valid.base.2
  unfold TwoPhaseCache.pkgNameToFilename text slug
  cases isScope : name.scope with
  | none =>
      simp only
      rw [flatMap_replace _ noAt, flatMap_replace _ noSlash]
  | some scope =>
      obtain ⟨scopeSlash, scopeAt, _⟩ := friendly_excludes (valid.scope scope isScope).2
      simp only [List.cons_append, List.flatMap_cons, List.flatMap_append, if_true]
      rw [flatMap_replace _ scopeAt, flatMap_replace _ noAt, flatMap_replace _ scopeSlash,
        flatMap_replace _ noSlash]
      rfl

/-- The second name is the first one with the slash moved over underscores. -/
def Moved (first second : PackageName) : Prop :=
  ∃ scope longer, first.scope = some scope ∧ second.scope = some longer ∧
    ((longer = scope ++ [underscore] ∧ first.base = underscore :: second.base) ∨
    ∃ between, longer = scope ++ underscore :: underscore :: between ∧
      first.base = between ++ underscore :: underscore :: second.base)

def SameSlug (first second : PackageName) : Prop :=
  first = second ∨ Moved first second ∨ Moved second first

theorem double_split {scope longer extra base other : Bytes} (extends_ : longer = scope ++ extra)
    (same : underscore :: underscore :: base = extra ++ underscore :: underscore :: other) :
    (longer = scope ∧ base = other) ∨
    (longer = scope ++ [underscore] ∧ base = underscore :: other) ∨
    ∃ between, longer = scope ++ underscore :: underscore :: between ∧
      base = between ++ underscore :: underscore :: other := by
  cases extra with
  | nil =>
      simp only [List.nil_append, List.cons.injEq, true_and] at same
      exact Or.inl ⟨by simpa using extends_, same⟩
  | cons first rest =>
      cases rest with
      | nil =>
          simp only [List.cons_append, List.nil_append, List.cons.injEq, true_and] at same
          obtain ⟨rfl, same⟩ := same
          exact Or.inr (Or.inl ⟨extends_, same⟩)
      | cons second between =>
          simp only [List.cons_append, List.cons.injEq] at same
          obtain ⟨rfl, rfl, same⟩ := same
          exact Or.inr (Or.inr ⟨between, extends_, same⟩)

theorem slug_of_moved {first second : PackageName} (moved : Moved first second) :
    first.slug = second.slug := by
  obtain ⟨scope, longer, isScope, isLonger, ⟨rfl, isBase⟩ | ⟨between, rfl, isBase⟩⟩ := moved
  · simp [slug, isScope, isLonger, isBase]
  · simp [slug, isScope, isLonger, isBase]

theorem at_ne_base {scope base other : Bytes} (start : other.head? ≠ some underscore) :
    utf8 "_at_" ++ (scope ++ underscore :: underscore :: base) ≠ other := by
  rintro rfl
  exact start rfl

theorem slug_eq_iff {first second : PackageName}
    (start : first.scope = none → first.base.head? ≠ some underscore)
    (secondStart : second.scope = none → second.base.head? ≠ some underscore) :
    first.slug = second.slug ↔ SameSlug first second := by
  constructor
  · intro same
    obtain ⟨scope, base⟩ := first
    obtain ⟨otherScope, otherBase⟩ := second
    cases scope with
    | none =>
        cases otherScope with
        | none => exact Or.inl (by simpa [slug] using same)
        | some other => exact (at_ne_base (start rfl) same.symm).elim
    | some scope =>
        cases otherScope with
        | none => exact (at_ne_base (secondStart rfl) same).elim
        | some other =>
            have tails := List.append_cancel_left same
            rcases List.append_eq_append_iff.mp tails with ⟨extra, longer, ends⟩ |
              ⟨extra, longer, ends⟩
            · rcases double_split longer ends with ⟨rfl, rfl⟩ | moved | moved
              · exact Or.inl rfl
              · exact Or.inr (Or.inl ⟨scope, other, rfl, rfl, Or.inl moved⟩)
              · exact Or.inr (Or.inl ⟨scope, other, rfl, rfl, Or.inr moved⟩)
            · rcases double_split longer ends with ⟨rfl, rfl⟩ | moved | moved
              · exact Or.inl rfl
              · exact Or.inr (Or.inr ⟨other, scope, rfl, rfl, Or.inl moved⟩)
              · exact Or.inr (Or.inr ⟨other, scope, rfl, rfl, Or.inr moved⟩)
  · rintro (rfl | moved | moved)
    · rfl
    · exact slug_of_moved moved
    · exact (slug_of_moved moved).symm

end PackageName

/-! The name of a snapshot file, and when two tasks share it. -/

namespace PackageName

def extend (name : PackageName) (more : Bytes) : PackageName :=
  { name with base := name.base ++ dash :: more }

theorem slug_extend (name : PackageName) (more : Bytes) :
    (name.extend more).slug = name.slug ++ dash :: more := by
  unfold slug extend
  cases name.scope with
  | none => rfl
  | some scope => simp

theorem slug_noSlash {name : PackageName} (valid : name.Valid) : slash ∉ name.slug := by
  have base := (friendly_excludes valid.base.2).1
  unfold slug
  cases isScope : name.scope with
  | none => exact base
  | some scope =>
      have scopeFree := (friendly_excludes (valid.scope scope isScope).2).1
      simp [base, scopeFree, (by decide : slash ∉ utf8 "_at_"), (by decide : slash ≠ underscore)]

end PackageName

/-- What the file name shows of a script: its components behind the dash. -/
def scriptComponents (script : Bytes) : List Component :=
  components (dash :: (script ++ utf8 ".snapshot.json"))

def SameScript (first second : Bytes) : Prop := scriptComponents first = scriptComponents second

/-- The components of a text with a dash in its first part, by what stands before the dash. -/
theorem components_dash (rest : Bytes) :
    ∃ head parts, (dash :: rest).splitOn slash = (dash :: head) :: parts ∧
      ∀ front, slash ∉ front → components (front ++ dash :: rest) =
        .normal (front ++ dash :: head) :: parts.filterMap Component.ofPart := by
  obtain ⟨head, parts, isSplit⟩ := List.exists_cons_of_ne_nil (List.splitOn_ne_nil slash rest)
  have splitDash : (dash :: rest).splitOn slash = (dash :: head) :: parts := by
    rw [List.splitOn_cons_eq_if_modifyHead, isSplit]
    rfl
  refine ⟨head, parts, splitDash, fun front noSlash => ?_⟩
  have split : (front ++ dash :: rest).splitOn slash = (front ++ dash :: head) :: parts := by
    rw [splitOn_append noSlash, splitDash]
    rfl
  have inside : dash ∈ front ++ dash :: head := by simp
  have isNormal : Component.ofPart (front ++ dash :: head) =
      some (.normal (front ++ dash :: head)) := by
    unfold Component.ofPart
    rw [if_neg, if_neg]
    · intro isParent
      rw [isParent] at inside
      exact absurd inside (by decide)
    · rintro (isEmpty | isDot)
      · simp at isEmpty
      · rw [isDot] at inside
        exact absurd inside (by decide)
  rw [components_relative, split, List.filterMap_cons_some isNormal]
  · cases front with
    | nil => exact fun start => absurd (Option.some.inj start) (by decide)
    | cons byte bytes =>
        exact fun start => noSlash (by simp [Option.some.inj start])
  · rw [split]
    intro isDot
    rw [Option.some.inj isDot] at inside
    exact absurd inside (by decide)

theorem components_dash_same {front : Bytes} (noSlash : slash ∉ front) (rest more : Bytes) :
    components (front ++ dash :: rest) = components (front ++ dash :: more) ↔
      components (dash :: rest) = components (dash :: more) := by
  obtain ⟨head, parts, _, restIs⟩ := components_dash rest
  obtain ⟨otherHead, otherParts, _, moreIs⟩ := components_dash more
  have bareRest := restIs [] (by simp)
  have bareMore := moreIs [] (by simp)
  simp only [List.nil_append] at bareRest bareMore
  rw [restIs front noSlash, moreIs front noSlash, bareRest, bareMore]
  simp

theorem components_dash_longer {front between : Bytes} (noSlash : slash ∉ front ++ dash :: between)
    (rest more : Bytes) :
    components (front ++ dash :: rest) = components ((front ++ dash :: between) ++ dash :: more) ↔
      components (dash :: rest) = components (dash :: (between ++ dash :: more)) := by
  obtain ⟨head, parts, _, restIs⟩ := components_dash rest
  obtain ⟨otherHead, otherParts, _, moreIs⟩ := components_dash more
  have frontFree : slash ∉ front := fun member => noSlash (by simp [member])
  have betweenFree : slash ∉ dash :: between := fun member =>
    noSlash (List.mem_append_right _ member)
  have bareRest := restIs [] (by simp)
  have joined := moreIs (dash :: between) betweenFree
  simp only [List.nil_append, List.cons_append] at bareRest joined
  rw [restIs front frontFree, moreIs _ noSlash, bareRest, joined]
  simp

theorem components_dash_eq_iff {front other : Bytes} (noSlash : slash ∉ front)
    (otherSlash : slash ∉ other) (rest more : Bytes) :
    components (front ++ dash :: rest) = components (other ++ dash :: more) ↔
      (front = other ∧ components (dash :: rest) = components (dash :: more)) ∨
      (∃ between, other = front ++ dash :: between ∧
        components (dash :: rest) = components (dash :: (between ++ dash :: more))) ∨
      ∃ between, front = other ++ dash :: between ∧
        components (dash :: more) = components (dash :: (between ++ dash :: rest)) := by
  constructor
  · intro same
    have heads := same
    obtain ⟨head, parts, _, restIs⟩ := components_dash rest
    obtain ⟨otherHead, otherParts, _, moreIs⟩ := components_dash more
    rw [restIs front noSlash, moreIs other otherSlash] at heads
    simp only [List.cons.injEq, Component.normal.injEq] at heads
    rcases List.append_eq_append_iff.mp heads.1 with ⟨extra, rfl, ends⟩ | ⟨extra, rfl, ends⟩
    · cases extra with
      | nil =>
          rw [List.append_nil] at same ⊢
          exact Or.inl ⟨rfl, (components_dash_same noSlash rest more).mp same⟩
      | cons byte between =>
          obtain rfl : dash = byte := (List.cons.inj ends).1
          exact Or.inr (Or.inl ⟨between, rfl, (components_dash_longer otherSlash rest more).mp same⟩)
    · cases extra with
      | nil =>
          rw [List.append_nil] at same ⊢
          exact Or.inl ⟨rfl, (components_dash_same otherSlash rest more).mp same⟩
      | cons byte between =>
          obtain rfl : dash = byte := (List.cons.inj ends).1
          exact Or.inr (Or.inr ⟨between, rfl,
            (components_dash_longer noSlash more rest).mp same.symm⟩)
  · rintro (⟨rfl, same⟩ | ⟨between, rfl, same⟩ | ⟨between, rfl, same⟩)
    · exact (components_dash_same noSlash rest more).mpr same
    · exact (components_dash_longer otherSlash rest more).mpr same
    · exact ((components_dash_longer noSlash more rest).mpr same).symm

namespace PackageName

/-- Two tasks share their snapshot file: the same slug and, up to the spelling of the path, the same
script; or the base name of one goes on behind a dash where the script of the other starts so. -/
def SnapshotShared (first : PackageName) (script : Bytes) (second : PackageName) (other : Bytes) :
    Prop :=
  (SameSlug first second ∧ SameScript script other) ∨
  (∃ between, SameSlug second (first.extend between) ∧
    SameScript script (between ++ dash :: other)) ∨
  ∃ between, SameSlug first (second.extend between) ∧ SameScript other (between ++ dash :: script)

theorem extend_start {name : PackageName} (valid : name.Valid) (more : Bytes) :
    (name.extend more).scope = none → (name.extend more).base.head? ≠ some underscore := by
  intro unscoped
  rw [extend, List.head?_append_of_ne_nil _ valid.base.1]
  exact (valid.start unscoped).2

theorem snapshotPath_eq_iff {first second : PackageName} (valid : first.Valid)
    (secondValid : second.Valid) (dir script other : Bytes) :
    Path.eq (snapshotPath dir first.text script) (snapshotPath dir second.text other) = true ↔
      SnapshotShared first script second other := by
  have start := fun unscoped => (valid.start unscoped).2
  have secondStart := fun unscoped => (secondValid.start unscoped).2
  have relative {name : PackageName} (valid : name.Valid) (rest : Bytes) :
      components (Path.join (Path.join dir (utf8 "why")) (name.slug ++ dash :: rest)) =
        components (Path.join dir (utf8 "why")) ++ components (name.slug ++ dash :: rest) := by
    have noSlash := slug_noSlash valid
    obtain ⟨head, parts, isSplit, _⟩ := components_dash rest
    apply components_join
    · cases isSlug : name.slug with
      | nil => exact fun start => absurd (Option.some.inj start) (by decide)
      | cons byte bytes => exact fun start => noSlash (by simp [isSlug, Option.some.inj start])
    · rw [splitOn_append noSlash, isSplit]
      intro isDot
      have inside : dash ∈ name.slug ++ dash :: head := by simp
      have whole : name.slug ++ dash :: head = utf8 "." := Option.some.inj isDot
      rw [whole] at inside
      exact absurd inside (by decide)
  rw [Path.eq_iff, snapshotPath, snapshotPath, pkgNameToFilename_text valid,
    pkgNameToFilename_text secondValid, relative valid, relative secondValid,
    List.append_cancel_left_eq, components_dash_eq_iff (slug_noSlash valid) (slug_noSlash secondValid)]
  simp only [← slug_extend, slug_eq_iff start secondStart,
    slug_eq_iff secondStart (extend_start valid _), slug_eq_iff start (extend_start secondValid _)]
  simp only [SnapshotShared, SameScript, scriptComponents, List.append_assoc, List.cons_append]

/-! The name of an artifact manifest. -/

def safeName (name : PackageName) : Bytes :=
  match name.scope with
  | some scope => 64 :: scope ++ 43 :: name.base
  | none => name.base

theorem map_slash {text : Bytes} (free : slash ∉ text) :
    text.map (fun byte => if byte = slash then 43 else byte) = text := by
  have kept (byte : UInt8) (member : byte ∈ text) :
      (if byte = slash then 43 else byte) = byte := by
    rw [if_neg]
    rintro rfl
    exact free member
  rw [List.map_congr_left kept, List.map_id']

theorem packageFilename_text {name : PackageName} (valid : name.Valid) (version : Bytes) :
    packageFilename name.text version =
      name.safeName ++ 64 :: (version ++ utf8 ".json") := by
  have base := (friendly_excludes valid.base.2).1
  unfold packageFilename text safeName
  cases isScope : name.scope with
  | none =>
      simp only [map_slash base]
      simp [(by decide : utf8 "@" = [64])]
  | some scope =>
      have scopeFree := (friendly_excludes (valid.scope scope isScope).2).1
      simp only [List.cons_append, List.map_cons, List.map_append, map_slash base,
        map_slash scopeFree]
      simp [(by decide : utf8 "@" = [64]), (by decide : (64 : UInt8) ≠ slash)]

theorem safeName_injective {first second : PackageName} (valid : first.Valid)
    (secondValid : second.Valid) (same : first.safeName = second.safeName) : first = second := by
  have base := (friendly_excludes valid.base.2).2.1
  have secondBase := (friendly_excludes secondValid.base.2).2.1
  obtain ⟨scope, name⟩ := first
  obtain ⟨otherScope, other⟩ := second
  cases scope with
  | none =>
      cases otherScope with
      | none => simpa [safeName] using same
      | some scope => exact (base (by simp [show name = _ from same, safeName])).elim
  | some scope =>
      have scopeFree := (friendly_excludes (valid.scope scope rfl).2).2.2
      cases otherScope with
      | none => exact (secondBase (by simp [show other = _ from same.symm, safeName])).elim
      | some otherScope =>
          have otherFree := (friendly_excludes (secondValid.scope otherScope rfl).2).2.2
          simp only [safeName, List.cons_append, List.cons.injEq, true_and] at same
          obtain ⟨rfl, rfl⟩ := Framing.split_at_first scopeFree otherFree same
          rfl

theorem packageFilename_injective {first second : PackageName} (valid : first.Valid)
    (secondValid : second.Valid) {version other : Bytes}
    (isVersion : version.all isVersionByte = true) (otherVersion : other.all isVersionByte = true)
    (same : packageFilename first.text version = packageFilename second.text other) :
    first = second ∧ version = other := by
  have free {text : Bytes} (isVersion : text.all isVersionByte = true) : (64 : UInt8) ∉ text :=
    fun member => versionByte_excludes (List.all_eq_true.mp isVersion _ member) rfl
  rw [packageFilename_text valid, packageFilename_text secondValid] at same
  have suffix : (64 : UInt8) ∉ utf8 ".json" := by decide
  obtain ⟨names, versions⟩ := Framing.split_at_last (by simp [free isVersion, suffix])
    (by simp [free otherVersion, suffix]) same
  exact ⟨safeName_injective valid secondValid names, List.append_cancel_right versions⟩

theorem ne_of_moved {first second : PackageName} (moved : Moved first second) :
    first ≠ second := by
  rintro rfl
  obtain ⟨scope, longer, isScope, isLonger, ends⟩ := moved
  obtain rfl : scope = longer := Option.some.inj (isScope.symm.trans isLonger)
  rcases ends with ⟨longer, _⟩ | ⟨between, longer, _⟩
  · simp at longer
  · simp at longer

theorem getPkgAbiFp_of_ne (cache : TwoPhaseCache) (name other abiFp : Bytes)
    (differ : TwoPhaseCache.pkgNameToFilename name ≠ TwoPhaseCache.pkgNameToFilename other) :
    (cache.setPkgAbiFp other abiFp).getPkgAbiFp name = cache.getPkgAbiFp name := by
  simp only [TwoPhaseCache.getPkgAbiFp, TwoPhaseCache.setPkgAbiFp, Function.update_of_ne differ]

theorem side_files_iff (first second : PackageName) (valid : first.Valid)
    (secondValid : second.Valid) (dir script other version later : Bytes)
    (isVersion : version.all isVersionByte = true) (laterVersion : later.all isVersionByte = true) :
    ((first ≠ second →
        TwoPhaseCache.pkgNameToFilename first.text ≠ TwoPhaseCache.pkgNameToFilename second.text ∧
        ∀ (cache : TwoPhaseCache) (abiFp : Bytes),
          (cache.setPkgAbiFp second.text abiFp).getPkgAbiFp first.text =
            cache.getPkgAbiFp first.text) ↔
      ¬ Moved first second ∧ ¬ Moved second first) ∧
    (((first, script) ≠ (second, other) →
        Path.eq (snapshotPath dir first.text script) (snapshotPath dir second.text other) = false) ↔
      (first, script) = (second, other) ∨ ¬ SnapshotShared first script second other) ∧
    ((first, version) ≠ (second, later) →
      packageFilename first.text version ≠ packageFilename second.text later) := by
  have slugs : TwoPhaseCache.pkgNameToFilename first.text =
      TwoPhaseCache.pkgNameToFilename second.text ↔ SameSlug first second := by
    rw [pkgNameToFilename_text valid, pkgNameToFilename_text secondValid,
      slug_eq_iff (fun unscoped => (valid.start unscoped).2)
        fun unscoped => (secondValid.start unscoped).2]
  refine ⟨⟨fun distinct => ⟨?_, ?_⟩, fun unmoved differ => ?_⟩, ?_, fun differ same => ?_⟩
  · intro moved
    exact (distinct (ne_of_moved moved)).1 (slugs.mpr (Or.inr (Or.inl moved)))
  · intro moved
    exact (distinct (ne_of_moved moved).symm).1 (slugs.mpr (Or.inr (Or.inr moved)))
  · have apart : TwoPhaseCache.pkgNameToFilename first.text ≠
        TwoPhaseCache.pkgNameToFilename second.text := by
      intro same
      rcases slugs.mp same with equal | moved | moved
      · exact differ equal
      · exact unmoved.1 moved
      · exact unmoved.2 moved
    exact ⟨apart, fun cache abiFp => getPkgAbiFp_of_ne cache _ _ abiFp apart⟩
  · rw [← snapshotPath_eq_iff valid secondValid dir, Bool.not_eq_true, or_iff_not_imp_left]
  · obtain ⟨rfl, rfl⟩ := packageFilename_injective valid secondValid isVersion laterVersion same
    exact differ rfl

/-! Names and scripts that meet. -/

namespace Meeting

def inScope (scope base : String) : PackageName := ⟨some (utf8 scope), utf8 base⟩

def plain (base : String) : PackageName := ⟨none, utf8 base⟩

theorem inScope_valid : (inScope "a__b" "c").Valid ∧ (inScope "a" "b__c").Valid := by
  constructor
  · exact ⟨by decide, by rintro _ ⟨⟩; decide, by rintro ⟨⟩⟩
  · exact ⟨by decide, by rintro _ ⟨⟩; decide, by rintro ⟨⟩⟩

theorem plain_valid : (plain "a-b").Valid ∧ (plain "a").Valid := by
  constructor
  · exact ⟨by decide, by rintro _ ⟨⟩, fun _ => by decide⟩
  · exact ⟨by decide, by rintro _ ⟨⟩, fun _ => by decide⟩

end Meeting

open Meeting in
theorem side_files_iff_plain :
    ((plain "a-b" ≠ plain "a" →
        TwoPhaseCache.pkgNameToFilename (plain "a-b").text ≠
          TwoPhaseCache.pkgNameToFilename (plain "a").text ∧
        ∀ (cache : TwoPhaseCache) (abiFp : Bytes),
          (cache.setPkgAbiFp (plain "a").text abiFp).getPkgAbiFp (plain "a-b").text =
            cache.getPkgAbiFp (plain "a-b").text) ↔
      ¬ Moved (plain "a-b") (plain "a") ∧ ¬ Moved (plain "a") (plain "a-b")) ∧
    (((plain "a-b", utf8 "test") ≠ (plain "a", utf8 "build") →
        Path.eq (snapshotPath (utf8 "/c") (plain "a-b").text (utf8 "test"))
          (snapshotPath (utf8 "/c") (plain "a").text (utf8 "build")) = false) ↔
      (plain "a-b", utf8 "test") = (plain "a", utf8 "build") ∨
        ¬ SnapshotShared (plain "a-b") (utf8 "test") (plain "a") (utf8 "build")) ∧
    ((plain "a-b", utf8 "1.0.0") ≠ (plain "a", utf8 "1.0.0-b") →
      packageFilename (plain "a-b").text (utf8 "1.0.0") ≠
        packageFilename (plain "a").text (utf8 "1.0.0-b")) :=
  side_files_iff (plain "a-b") (plain "a") plain_valid.1 plain_valid.2 (utf8 "/c") (utf8 "test")
    (utf8 "build") (utf8 "1.0.0") (utf8 "1.0.0-b") (by decide) (by decide)

theorem side_files_meet :
    (¬ ∀ first second : PackageName, first.Valid → second.Valid → first ≠ second →
      TwoPhaseCache.pkgNameToFilename first.text ≠ TwoPhaseCache.pkgNameToFilename second.text) ∧
    ¬ ∀ (first second : PackageName) (dir script other : Bytes), first.Valid → second.Valid →
      (first, script) ≠ (second, other) →
      snapshotPath dir first.text script ≠ snapshotPath dir second.text other := by
  constructor
  · intro claimed
    exact claimed (Meeting.inScope "a__b" "c") (Meeting.inScope "a" "b__c") Meeting.inScope_valid.1
      Meeting.inScope_valid.2 (by decide) (by decide)
  · intro claimed
    exact claimed (Meeting.plain "a-b") (Meeting.plain "a") (utf8 "/c") (utf8 "c") (utf8 "b-c")
      Meeting.plain_valid.1 Meeting.plain_valid.2 (by decide) (by decide)

end PackageName

end Rage
