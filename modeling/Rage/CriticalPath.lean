import Mathlib.Algebra.GroupWithZero.Nat
import Mathlib.Data.List.Chain
import Mathlib.Data.List.Induction
import Rage.FileSystem

/-!
The critical path that a run prints: from the task that finished last back to a task that waited for
none, always to the dependency that finished last.
-/

namespace Rage.BuildSummary

/-! The last of the elements with the greatest key. -/

section MaxByKey

variable {α : Type} (key : α → Nat)

def later (best : Option α) (x : α) : Option α :=
  match best with
  | none => some x
  | some other => if key other ≤ key x then some x else some other

def maxByKey (xs : List α) : Option α := xs.foldl (later key) none

variable {key}

theorem maxByKey_cases (xs : List α) :
    xs = [] ∧ maxByKey key xs = none ∨
      ∃ x ∈ xs, maxByKey key xs = some x ∧ ∀ other ∈ xs, key other ≤ key x := by
  induction xs using List.reverseRecOn with
  | nil => exact Or.inl ⟨rfl, rfl⟩
  | append_singleton xs x ih =>
      have isLater : maxByKey key (xs ++ [x]) = later key (maxByKey key xs) x := by
        simp [maxByKey]
      rw [isLater]
      refine Or.inr ?_
      rcases ih with ⟨rfl, isNone⟩ | ⟨best, member, isBest, greatest⟩
      · rw [isNone]
        exact ⟨x, by simp, rfl, by simp⟩
      · rw [isBest, later]
        by_cases below : key best ≤ key x
        · refine ⟨x, by simp, if_pos below, fun other isOther => ?_⟩
          rcases List.mem_append.mp isOther with older | isNew
          · exact (greatest other older).trans below
          · rw [List.mem_singleton.mp isNew]
        · refine ⟨best, List.mem_append_left _ member, if_neg below, fun other isOther => ?_⟩
          rcases List.mem_append.mp isOther with older | isNew
          · exact greatest other older
          · rw [List.mem_singleton.mp isNew]
            omega

end MaxByKey

structure TaskRecord where
  package : Bytes
  startedAtMs : Nat
  elapsedMs : Nat
  depPackages : List Bytes
  deriving DecidableEq

def TaskRecord.finish (record : TaskRecord) : Nat := record.startedAtMs + record.elapsedMs

section Print

variable (records : List TaskRecord)

/-- The record of a package in a map that is collected from the records. -/
def collected (package : Bytes) : Option TaskRecord :=
  records.reverse.find? fun record => record.package = package

def finishAt (package : Bytes) : Option Nat := (collected records package).map TaskRecord.finish

def depsOf (package : Bytes) : Option (List Bytes) :=
  (collected records package).map TaskRecord.depPackages

def cpTail : Option TaskRecord := maxByKey TaskRecord.finish records

def cpMs : Nat := ((cpTail records).map TaskRecord.finish).getD 0

/-- The dependency that the task waited for. -/
def waitedFor (package : Bytes) : Option Bytes :=
  (depsOf records package).bind fun deps =>
    (maxByKey Prod.snd (deps.filterMap fun dep =>
      (finishAt records dep).map fun finish => (dep, finish))).map Prod.fst

/-- The loop, with the room that is left up to the cap. -/
def trace : Nat → Option Bytes → List TaskRecord
  | 0, _ => []
  | _ + 1, none => []
  | room + 1, some package =>
      match records.find? fun record => record.package = package with
      | none => []
      | some record => record :: trace room (waitedFor records package)

def safetyCap : Nat := 50

def chain : List TaskRecord :=
  (trace records (safetyCap + 1) ((cpTail records).map TaskRecord.package)).reverse

end Print

/-- The task of the first record was a dependency of that of the second. -/
def Needed (first second : TaskRecord) : Prop := first.package ∈ second.depPackages

instance (first second : TaskRecord) : Decidable (Needed first second) :=
  inferInstanceAs (Decidable (first.package ∈ second.depPackages))

/-- It was the one that finished last. -/
structure Awaited (records : List TaskRecord) (first second : TaskRecord) : Prop where
  recorded : first ∈ records
  needed : Needed first second
  last : ∀ other ∈ records, Needed other second → other.finish ≤ first.finish

/-- Every task starts when the last of its dependencies has finished. -/
def Paced (records : List TaskRecord) : Prop :=
  ∀ record ∈ records, record.startedAtMs =
    ((records.filter fun other => Needed other record).map TaskRecord.finish).foldr max 0

instance (records : List TaskRecord) : Decidable (Paced records) :=
  inferInstanceAs (Decidable (∀ record ∈ records, _))

/-! Where each package has one record. -/

section Distinct

variable {records : List TaskRecord} (distinct : (records.map TaskRecord.package).Nodup)

include distinct

theorem eq_of_package {first second : TaskRecord} (isFirst : first ∈ records)
    (isSecond : second ∈ records) (same : first.package = second.package) : first = second :=
  List.inj_on_of_nodup_map distinct isFirst isSecond same

theorem find_record {list : List TaskRecord} (within : ∀ record, record ∈ list ↔ record ∈ records)
    {record : TaskRecord} (member : record ∈ records) :
    list.find? (fun other => other.package = record.package) = some record := by
  cases found : list.find? fun other => other.package = record.package with
  | none =>
      have absent := List.find?_eq_none.mp found record ((within record).mpr member)
      simp at absent
  | some other =>
      have isOther := (within other).mp (List.mem_of_find?_eq_some found)
      have same : other.package = record.package := by simpa using List.find?_some found
      rw [eq_of_package distinct isOther member same]

theorem collected_record {record : TaskRecord} (member : record ∈ records) :
    collected records record.package = some record :=
  find_record distinct (fun _ => List.mem_reverse) member

theorem mem_candidates {record : TaskRecord} {dep : Bytes} {finish : Nat} :
    (dep, finish) ∈ (record.depPackages.filterMap fun dep =>
        (finishAt records dep).map fun finish => (dep, finish)) ↔
      ∃ other ∈ records, Needed other record ∧ other.package = dep ∧ other.finish = finish := by
  simp only [List.mem_filterMap, Option.map_eq_some_iff, Prod.mk.injEq, finishAt]
  constructor
  · rintro ⟨name, isDep, _, ⟨other, found, rfl⟩, rfl, rfl⟩
    have same : other.package = name := by simpa using List.find?_some found
    have isOther := List.mem_reverse.mp (List.mem_of_find?_eq_some found)
    exact ⟨other, isOther, by rw [Needed, same]; exact isDep, same, rfl⟩
  · rintro ⟨other, isOther, needed, rfl, rfl⟩
    exact ⟨other.package, needed, _, ⟨other, collected_record distinct isOther, rfl⟩, rfl, rfl⟩

theorem waitedFor_cases {record : TaskRecord} (member : record ∈ records) :
    waitedFor records record.package = none ∧ (∀ other ∈ records, ¬ Needed other record) ∨
      ∃ dep, Awaited records dep record ∧ waitedFor records record.package = some dep.package := by
  rw [waitedFor, depsOf, collected_record distinct member, Option.map_some, Option.bind_some]
  rcases maxByKey_cases (record.depPackages.filterMap fun dep =>
      (finishAt records dep).map fun finish => (dep, finish)) with
    ⟨isNil, isNone⟩ | ⟨⟨dep, finish⟩, isDep, isMax, greatest⟩
  · rw [isNone]
    refine Or.inl ⟨rfl, fun other isOther needed => ?_⟩
    have candidate := (mem_candidates distinct).mpr ⟨other, isOther, needed, rfl, rfl⟩
    rw [isNil] at candidate
    simp at candidate
  · rw [isMax]
    obtain ⟨last, isLast, needed, rfl, rfl⟩ := (mem_candidates distinct).mp isDep
    refine Or.inr ⟨last, ⟨isLast, needed, fun other isOther isNeeded => ?_⟩, rfl⟩
    exact greatest _ ((mem_candidates distinct).mpr ⟨other, isOther, isNeeded, rfl, rfl⟩)

/-- Backwards from a record, as far as there is room. -/
theorem trace_record (room : Nat) {record : TaskRecord} (member : record ∈ records) :
    ∃ rest, trace records (room + 1) (some record.package) = record :: rest ∧
      (∀ other ∈ record :: rest, other ∈ records) ∧
      (record :: rest).IsChain (fun second first => Awaited records first second) ∧
      (rest.length < room → ∀ first ∈ (record :: rest).getLast?, ∀ other ∈ records,
        ¬ Needed other first) := by
  have found := find_record distinct (fun _ => Iff.rfl) member
  induction room generalizing record with
  | zero =>
      exact ⟨[], by rw [trace, found]; rfl, by simpa using member, List.IsChain.singleton _, by simp⟩
  | succ room ih =>
      rw [trace, found]
      rcases waitedFor_cases distinct member with ⟨isNone, noDep⟩ | ⟨dep, awaited, isSome⟩
      · refine ⟨[], by rw [isNone]; rfl, by simpa using member, List.IsChain.singleton _,
          fun _ first isFirst => ?_⟩
        obtain rfl := Option.mem_some.mp isFirst
        exact noDep
      · obtain ⟨rest, isRest, within, isChain, ends⟩ :=
          ih awaited.recorded (find_record distinct (fun _ => Iff.rfl) awaited.recorded)
        refine ⟨dep :: rest, by simp only [isSome, isRest],
          List.forall_mem_cons.mpr ⟨member, within⟩, ?_, fun isShort => ?_⟩
        · exact List.isChain_cons_cons.mpr ⟨awaited, isChain⟩
        · have shorter : rest.length < room := by simpa using isShort
          simpa using ends shorter

end Distinct

/-! The times along a path. -/

theorem elapsed_le {first : TaskRecord} {rest : List TaskRecord}
    (inOrder : (first :: rest).IsChain fun earlier later => earlier.finish ≤ later.startedAtMs) :
    first.startedAtMs + ((first :: rest).map TaskRecord.elapsedMs).sum ≤
      ((first :: rest).getLast (List.cons_ne_nil first rest)).finish := by
  induction rest generalizing first with
  | nil => simp [TaskRecord.finish]
  | cons second rest ih =>
      obtain ⟨waits, inOrder⟩ := List.isChain_cons_cons.mp inOrder
      have later := ih inOrder
      rw [List.getLast_cons_cons, List.map_cons, List.sum_cons]
      have isFinish : first.finish = first.startedAtMs + first.elapsedMs := rfl
      omega

theorem elapsed_eq {first : TaskRecord} {rest : List TaskRecord}
    (atOnce : (first :: rest).IsChain fun earlier later => earlier.finish = later.startedAtMs) :
    first.startedAtMs + ((first :: rest).map TaskRecord.elapsedMs).sum =
      ((first :: rest).getLast (List.cons_ne_nil first rest)).finish := by
  induction rest generalizing first with
  | nil => simp [TaskRecord.finish]
  | cons second rest ih =>
      obtain ⟨waits, atOnce⟩ := List.isChain_cons_cons.mp atOnce
      have later := ih atOnce
      rw [List.getLast_cons_cons, List.map_cons, List.sum_cons]
      have isFinish : first.finish = first.startedAtMs + first.elapsedMs := rfl
      omega

theorem foldr_max_spec (times : List Nat) :
    (∀ time ∈ times, time ≤ times.foldr max 0) ∧
      (times.foldr max 0 ∈ times ∨ times = [] ∧ times.foldr max 0 = 0) := by
  induction times with
  | nil => simp
  | cons time rest ih =>
      obtain ⟨above, reached⟩ := ih
      constructor
      · intro other member
        rcases List.mem_cons.mp member with rfl | later
        · exact le_max_left _ _
        · exact (above other later).trans (le_max_right _ _)
      · rw [List.foldr_cons]
        rcases Nat.le_total time (rest.foldr max 0) with below | above
        · rw [max_eq_right below]
          rcases reached with member | ⟨rfl, isZero⟩
          · exact Or.inl (List.mem_cons_of_mem _ member)
          · have zero : time = 0 := Nat.le_zero.mp below
            exact Or.inl (by simp [zero])
        · rw [max_eq_left above]
          exact Or.inl (List.mem_cons_self ..)

section Pace

variable {records : List TaskRecord} (paced : Paced records)

include paced

theorem finish_le_of_needed {first second : TaskRecord} (isFirst : first ∈ records)
    (isSecond : second ∈ records) (needed : Needed first second) :
    first.finish ≤ second.startedAtMs := by
  rw [paced second isSecond]
  refine (foldr_max_spec _).1 _ (List.mem_map_of_mem (List.mem_filter.mpr ⟨isFirst, ?_⟩))
  exact decide_eq_true needed

theorem finish_eq_of_awaited {first second : TaskRecord} (isSecond : second ∈ records)
    (awaited : Awaited records first second) : first.finish = second.startedAtMs := by
  refine Nat.le_antisymm (finish_le_of_needed paced awaited.recorded isSecond awaited.needed) ?_
  rw [paced second isSecond]
  rcases (foldr_max_spec ((records.filter fun other => Needed other second).map
      TaskRecord.finish)).2 with reached | ⟨isNil, isZero⟩
  · obtain ⟨other, member, isFinish⟩ := List.mem_map.mp reached
    obtain ⟨isOther, needed⟩ := List.mem_filter.mp member
    rw [← isFinish]
    exact awaited.last other isOther (of_decide_eq_true needed)
  · rw [isZero]
    exact Nat.zero_le _

theorem started_at_once {record : TaskRecord} (member : record ∈ records)
    (noDep : ∀ other ∈ records, ¬ Needed other record) : record.startedAtMs = 0 := by
  have none : (records.filter fun other => Needed other record) = [] := by
    refine List.filter_eq_nil_iff.mpr fun other isOther isDep => ?_
    exact noDep other isOther (of_decide_eq_true isDep)
  rw [paced record member, none]
  rfl

end Pace

theorem finish_le_cpMs {records : List TaskRecord} {record : TaskRecord}
    (member : record ∈ records) : record.finish ≤ cpMs records := by
  rw [cpMs, cpTail]
  rcases @maxByKey_cases _ TaskRecord.finish records with ⟨rfl, -⟩ | ⟨tail, -, isTail, greatest⟩
  · simp at member
  · rw [isTail]
    exact greatest record member

/-- What is printed is a path of dependencies, each the last of its task's, up to the task that
finished last, and unless it was cut off it starts with a task that waited for nothing.  If every
task starts when its last dependency has finished, it is the path that takes the longest. -/
theorem critical_path (records : List TaskRecord)
    (distinct : (records.map TaskRecord.package).Nodup) :
    (chain records).IsChain (Awaited records) ∧
      (∀ record ∈ chain records, record ∈ records) ∧
      (chain records).getLast?.map TaskRecord.finish = (cpTail records).map TaskRecord.finish ∧
      ((chain records).length ≤ safetyCap → ∀ first ∈ (chain records).head?, ∀ other ∈ records,
        ¬ Needed other first) ∧
      (Paced records →
        (∀ path : List TaskRecord, (∀ record ∈ path, record ∈ records) → path.IsChain Needed →
          (path.map TaskRecord.elapsedMs).sum ≤ cpMs records) ∧
        ((chain records).length ≤ safetyCap →
          ((chain records).map TaskRecord.elapsedMs).sum = cpMs records)) := by
  have longest (paced : Paced records) (path : List TaskRecord)
      (within : ∀ record ∈ path, record ∈ records) (isPath : path.IsChain Needed) :
      (path.map TaskRecord.elapsedMs).sum ≤ cpMs records := by
    cases path with
    | nil => simp
    | cons first rest =>
        have inOrder : (first :: rest).IsChain fun earlier later =>
            earlier.finish ≤ later.startedAtMs :=
          isPath.imp_of_mem_imp fun earlier later isEarlier isLater needed =>
            finish_le_of_needed paced (within _ isEarlier) (within _ isLater) needed
        have bound := elapsed_le inOrder
        have last := finish_le_cpMs (within _ (List.getLast_mem (List.cons_ne_nil first rest)))
        omega
  rcases @maxByKey_cases _ TaskRecord.finish records with
    ⟨rfl, isNone⟩ | ⟨tail, isTail, isSome, -⟩
  · have isNil : chain [] = [] := rfl
    rw [isNil]
    exact ⟨List.IsChain.nil, by simp, rfl, by simp,
      fun paced => ⟨longest paced, fun _ => rfl⟩⟩
  · obtain ⟨rest, isRest, recorded, isChain, ends⟩ := trace_record distinct safetyCap isTail
    have isReverse : chain records = (tail :: rest).reverse := by
      rw [chain, cpTail, isSome, Option.map_some, isRest]
    have awaited : (chain records).IsChain (Awaited records) := by
      rw [isReverse, List.isChain_reverse]
      exact isChain
    have within : ∀ record ∈ chain records, record ∈ records := by
      intro record member
      rw [isReverse, List.mem_reverse] at member
      exact recorded record member
    have begins : (chain records).length ≤ safetyCap → ∀ first ∈ (chain records).head?,
        ∀ other ∈ records, ¬ Needed other first := by
      intro isShort first isFirst
      rw [isReverse, List.length_reverse, List.length_cons] at isShort
      rw [isReverse, List.head?_reverse] at isFirst
      exact ends (by omega) first isFirst
    have isLast : (chain records).getLast? = some tail := by
      rw [isReverse, List.getLast?_reverse]
      rfl
    refine ⟨awaited, within, by rw [isLast, cpTail, isSome], begins, fun paced =>
      ⟨longest paced, fun isShort => ?_⟩⟩
    generalize chain records = path at awaited within begins isLast isShort ⊢
    cases path with
    | nil => simp at isLast
    | cons first rest =>
        have atOnce : (first :: rest).IsChain fun earlier later =>
            earlier.finish = later.startedAtMs :=
          awaited.imp_of_mem_imp fun earlier later _ isLater isAwaited =>
            finish_eq_of_awaited paced (within later isLater) isAwaited
        have total := elapsed_eq atOnce
        rw [started_at_once paced (within first (List.mem_cons_self ..))
          (begins isShort first rfl), Nat.zero_add] at total
        rw [total, cpMs, cpTail, isSome]
        rw [List.getLast?_eq_getLast_of_ne_nil (List.cons_ne_nil first rest)] at isLast
        rw [Option.some.inj isLast]
        rfl

/-- `c` waits for `b`, which takes longer than `a`. -/
def threeRecords : List TaskRecord :=
  [⟨utf8 "a", 0, 2, []⟩, ⟨utf8 "b", 0, 5, []⟩, ⟨utf8 "c", 5, 1, [utf8 "a", utf8 "b", utf8 "x"]⟩]

theorem critical_path_three :
    chain threeRecords = [⟨utf8 "b", 0, 5, []⟩, ⟨utf8 "c", 5, 1, [utf8 "a", utf8 "b", utf8 "x"]⟩] ∧
      ((chain threeRecords).map TaskRecord.elapsedMs).sum = cpMs threeRecords :=
  ⟨by decide, ((critical_path threeRecords (by decide)).2.2.2.2 (by decide)).2 (by decide)⟩

end Rage.BuildSummary
