import Mathlib.Data.List.Infix
import Mathlib.Data.List.MinMax
import Mathlib.Logic.Function.Basic
import Mathlib.Order.Bounds.Basic

/-!
Layers of a dependency order.  The items of an order are placed one by one, each one layer above the
highest of those that it needs, and on the lowest layer if it needs none.
-/

namespace Rage.Layers

section Chains

variable {α : Type} (needs : α → List α) (listed : α → Bool)

/-- A chain of listed items, each needed by the next, and its number of steps. -/
inductive Chain : Nat → α → Prop
  | single {item : α} : listed item = true → Chain 0 item
  | extend {length : Nat} {item dep : α} :
      Chain length dep → dep ∈ needs item → listed item = true → Chain (length + 1) item

/-- The length of a longest chain that ends at an item. -/
abbrev Longest (item : α) (length : Nat) : Prop :=
  IsGreatest {length | Chain needs listed length item} length

variable {needs listed}

theorem Chain.isListed {length : Nat} {item : α} (chain : Chain needs listed length item) :
    listed item = true := by
  cases chain with
  | single isListed => exact isListed
  | extend _ _ isListed => exact isListed

variable (needs listed)

/-- One above the highest listed item that is needed. -/
def height (level : α → Option Nat) (item : α) : Nat :=
  ((((needs item).filter listed).filterMap level).max?.map (· + 1)).getD 0

theorem height_spec (level : α → Option Nat) (item : α) :
    (height needs listed level item = 0 ∧
      ∀ dep ∈ needs item, listed dep = true → level dep = none) ∨
    ∃ dep ∈ needs item, ∃ below, listed dep = true ∧ level dep = some below ∧
      height needs listed level item = below + 1 ∧
      ∀ other ∈ needs item, listed other = true → ∀ lower, level other = some lower →
        lower ≤ below := by
  have members (lower : Nat) : lower ∈ ((needs item).filter listed).filterMap level ↔
      ∃ dep ∈ needs item, listed dep = true ∧ level dep = some lower := by
    simp only [List.mem_filterMap, List.mem_filter, and_assoc]
  unfold height
  cases highest : (((needs item).filter listed).filterMap level).max? with
  | none =>
      left
      refine ⟨rfl, fun dep needed isListed => Option.eq_none_iff_forall_ne_some.mpr ?_⟩
      intro lower isLevel
      have member := (members lower).mpr ⟨dep, needed, isListed, isLevel⟩
      rw [List.max?_eq_none_iff.mp highest] at member
      exact absurd member List.not_mem_nil
  | some below =>
      right
      obtain ⟨member, greatest⟩ := List.max?_eq_some_iff.mp highest
      obtain ⟨dep, needed, isListed, isLevel⟩ := (members below).mp member
      refine ⟨dep, needed, below, isListed, isLevel, rfl, fun other otherNeeded otherListed lower
        isLower => ?_⟩
      exact greatest lower ((members lower).mpr ⟨other, otherNeeded, otherListed, isLower⟩)

variable {needs listed} {level : α → Option Nat} {item : α}

/-- Where the levels below are lengths of longest chains, so is the one above. -/
theorem longest_height (isListed : listed item = true)
    (known : ∀ dep ∈ needs item, listed dep = true →
      ∃ length, level dep = some length ∧ Longest needs listed dep length) :
    Longest needs listed item (height needs listed level item) := by
  rcases height_spec needs listed level item with
    ⟨isLow, noLevel⟩ | ⟨dep, needed, below, depListed, isLevel, isHigh, highest⟩
  · rw [isLow]
    refine ⟨.single isListed, ?_⟩
    rintro length (_ | ⟨chain, needed, -⟩)
    · exact Nat.le_refl 0
    · obtain ⟨length, isLevel, -⟩ := known _ needed chain.isListed
      rw [noLevel _ needed chain.isListed] at isLevel
      simp at isLevel
  · rw [isHigh]
    constructor
    · obtain ⟨length, isLength, longest⟩ := known dep needed depListed
      obtain rfl := Option.some.inj (isLevel.symm.trans isLength)
      exact .extend longest.1 needed isListed
    · rintro length (_ | ⟨chain, otherNeeded, -⟩)
      · exact Nat.zero_le _
      · obtain ⟨lower, isLower, longest⟩ := known _ otherNeeded chain.isListed
        have atMost := longest.2 chain
        have below_le := highest _ otherNeeded chain.isListed lower isLower
        omega

end Chains

/-! Layers that grow at their top. -/

section Push

variable {β : Type}

/-- Missing layers up to the level are added first. -/
def push (layers : List (List β)) (level : Nat) (value : β) : List (List β) :=
  (layers ++ List.replicate (level + 1 - layers.length) []).modify level (· ++ [value])

@[simp] theorem push_nil (value : β) : push [] 0 value = [[value]] := rfl

@[simp] theorem push_cons_zero (layer : List β) (layers : List (List β)) (value : β) :
    push (layer :: layers) 0 value = (layer ++ [value]) :: layers := by
  simp [push]

@[simp] theorem push_cons_succ (layer : List β) (layers : List (List β)) (level : Nat) (value : β) :
    push (layer :: layers) (level + 1) value = layer :: push layers level value := by
  simp [push]

theorem flatten_push {layers : List (List β)} {level : Nat} (bound : level ≤ layers.length)
    (value : β) : (push layers level value).flatten.Perm (layers.flatten ++ [value]) := by
  induction layers generalizing level with
  | nil =>
      obtain rfl := Nat.le_zero.mp bound
      exact .refl _
  | cons layer layers ih =>
      cases level with
      | zero =>
          rw [push_cons_zero, List.flatten_cons, List.flatten_cons, List.append_assoc,
            List.append_assoc]
          exact List.perm_append_comm.append_left layer
      | succ level =>
          rw [push_cons_succ, List.flatten_cons, List.flatten_cons, List.append_assoc]
          exact (ih (Nat.le_of_succ_le_succ bound)).append_left layer

theorem length_push {layers : List (List β)} {level : Nat} (value : β) :
    (push layers level value).length = max layers.length (level + 1) := by
  simp only [push, List.length_modify, List.length_append, List.length_replicate]
  omega

theorem getElem?_push {layers : List (List β)} {level : Nat} (bound : level ≤ layers.length)
    (value : β) (index : Nat) : (push layers level value)[index]? =
      if index = level then some (layers[index]?.getD [] ++ [value]) else layers[index]? := by
  induction layers generalizing level index with
  | nil =>
      obtain rfl := Nat.le_zero.mp bound
      cases index with
      | zero => rfl
      | succ index => rfl
  | cons layer layers ih =>
      cases level with
      | zero =>
          cases index with
          | zero => simp
          | succ index => simp
      | succ level =>
          cases index with
          | zero => simp
          | succ index => simp [ih (Nat.le_of_succ_le_succ bound)]

end Push

/-! Placing the items of an order. -/

structure Placing (α β : Type) where
  level : α → Option Nat
  layers : List (List β)

section Place

variable {α β : Type} (needs : α → List α) (held : α → Option β)

abbrev isHeld (item : α) : Bool := (held item).isSome

/-- Items that hold nothing are passed over. -/
def Placing.place [DecidableEq α] (placing : Placing α β) (item : α) : Placing α β :=
  match held item with
  | none => placing
  | some value =>
      let level := height needs (isHeld held) placing.level item
      ⟨Function.update placing.level item (some level), push placing.layers level value⟩

def Placing.empty : Placing α β := ⟨fun _ => none, []⟩

/-- What is needed comes before what needs it. -/
def Topological (order : List α) : Prop :=
  ∀ front item back, order = front ++ item :: back → ∀ dep ∈ needs item, dep ∈ front

/-- The items that are done have their longest chains as levels, and stand on them. -/
structure Placed (done : List α) (placing : Placing α β) : Prop where
  longest : ∀ item ∈ done, isHeld held item = true →
    ∃ length, placing.level item = some length ∧ Longest needs (isHeld held) item length
  bounded : ∀ item level, placing.level item = some level → level < placing.layers.length
  stands : ∀ (level : Nat) layer, placing.layers[level]? = some layer → ∀ value ∈ layer,
    ∃ item ∈ done, held item = some value ∧ placing.level item = some level
  filled : ∀ layer ∈ placing.layers, layer ≠ []
  perm : placing.layers.flatten.Perm (done.filterMap held)

variable {needs held}

theorem placed_empty : Placed needs held [] (Placing.empty : Placing α β) where
  longest := fun item member => absurd member List.not_mem_nil
  bounded := fun item level isLevel => by simp [Placing.empty] at isLevel
  stands := fun level layer isLayer => by simp [Placing.empty] at isLayer
  filled := fun layer member => absurd member List.not_mem_nil
  perm := .refl _

theorem Placed.skip {done : List α} {placing : Placing α β} (placed : Placed needs held done placing)
    {item : α} (holdsNothing : held item = none) : Placed needs held (done ++ [item]) placing where
  longest := fun other member isHeld => by
    rcases List.mem_append.mp member with earlier | isLast
    · exact placed.longest other earlier isHeld
    · rw [List.mem_singleton.mp isLast, Layers.isHeld, holdsNothing] at isHeld
      simp at isHeld
  bounded := placed.bounded
  stands := fun level layer isLayer value member => by
    obtain ⟨other, earlier, holds, isLevel⟩ := placed.stands level layer isLayer value member
    exact ⟨other, List.mem_append_left _ earlier, holds, isLevel⟩
  filled := placed.filled
  perm := by simpa [holdsNothing] using placed.perm

/-- The level of an item is at most one above the layers there are. -/
theorem Placed.height_le {done : List α} {placing : Placing α β}
    (placed : Placed needs held done placing) (item : α) :
    height needs (isHeld held) placing.level item ≤ placing.layers.length := by
  rcases height_spec needs (isHeld held) placing.level item with
    ⟨isLow, -⟩ | ⟨dep, -, below, -, isLevel, isHigh, -⟩
  · rw [isLow]
    exact Nat.zero_le _
  · rw [isHigh]
    exact placed.bounded dep below isLevel

variable [DecidableEq α]

theorem Placed.add {done : List α} {placing : Placing α β} (placed : Placed needs held done placing)
    {item : α} {value : β} (holds : held item = some value) (fresh : item ∉ done)
    (ready : ∀ dep ∈ needs item, dep ∈ done) :
    Placed needs held (done ++ [item]) (placing.place needs held item) := by
  have atMost := placed.height_le item
  have longest : Longest needs (isHeld held) item
      (height needs (isHeld held) placing.level item) :=
    longest_height (by simp [isHeld, holds]) fun dep needed isHeld =>
      placed.longest dep (ready dep needed) isHeld
  have apart {other : α} (earlier : other ∈ done) : other ≠ item := by
    rintro rfl
    exact fresh earlier
  have levels : (placing.place needs held item).level = Function.update placing.level item
      (some (height needs (isHeld held) placing.level item)) := by simp [Placing.place, holds]
  have layers : (placing.place needs held item).layers =
      push placing.layers (height needs (isHeld held) placing.level item) value := by
    simp [Placing.place, holds]
  refine ⟨fun other member isHeld => ?_, fun other level isLevel => ?_,
    fun level layer isLayer other member => ?_, fun layer member => ?_, ?_⟩
  · rw [levels]
    rcases List.mem_append.mp member with earlier | isLast
    · rw [Function.update_of_ne (apart earlier)]
      exact placed.longest other earlier isHeld
    · obtain rfl := List.mem_singleton.mp isLast
      exact ⟨_, Function.update_self .., longest⟩
  · rw [layers, length_push]
    rw [levels] at isLevel
    by_cases here : other = item
    · rw [here, Function.update_self, Option.some.injEq] at isLevel
      omega
    · rw [Function.update_of_ne here] at isLevel
      have below := placed.bounded other level isLevel
      omega
  · rw [layers, getElem?_push atMost] at isLayer
    rw [levels]
    have kept : ∀ old, placing.layers[level]? = some old → other ∈ old →
        ∃ holder ∈ done ++ [item], held holder = some other ∧
          Function.update placing.level item
            (some (height needs (isHeld held) placing.level item)) holder = some level := by
      intro old isOld inOld
      obtain ⟨earlier, isEarlier, earlierHolds, isLevel⟩ :=
        placed.stands level old isOld other inOld
      refine ⟨earlier, List.mem_append_left _ isEarlier, earlierHolds, ?_⟩
      rw [Function.update_of_ne (apart isEarlier), isLevel]
    split at isLayer
    · rename_i here
      obtain rfl := Option.some.inj isLayer
      rcases List.mem_append.mp member with inOld | isNew
      · cases isOld : placing.layers[level]? with
        | none => simp [isOld] at inOld
        | some old => exact kept old isOld (by simpa [isOld] using inOld)
      · obtain rfl := List.mem_singleton.mp isNew
        exact ⟨item, by simp, holds, by rw [Function.update_self, here]⟩
    · exact kept layer isLayer member
  · obtain ⟨level, isLayer⟩ := List.mem_iff_getElem?.mp member
    rw [layers, getElem?_push atMost] at isLayer
    split at isLayer
    · obtain rfl := Option.some.inj isLayer
      simp
    · exact placed.filled layer (List.mem_iff_getElem?.mpr ⟨level, isLayer⟩)
  · rw [layers, List.filterMap_append, List.filterMap_cons_some holds, List.filterMap_nil]
    exact (flatten_push atMost value).trans (placed.perm.append_right [value])

/-- Along a whole order every item is placed. -/
theorem placed_along {order : List α} (distinct : order.Nodup) (topological : Topological needs order) :
    Placed needs held order (order.foldl (fun placing => placing.place needs held) .empty) := by
  have along : ∀ back front placing, order = front ++ back → Placed needs held front placing →
      Placed needs held order (back.foldl (fun placing => placing.place needs held) placing) := by
    intro back
    induction back with
    | nil =>
        intro front placing whole placed
        rw [whole, List.append_nil]
        exact placed
    | cons item back ih =>
        intro front placing whole placed
        rw [List.foldl_cons]
        refine ih (front ++ [item]) _ (by simp [whole]) ?_
        cases holds : held item with
        | none => simpa only [Placing.place, holds] using placed.skip holds
        | some value =>
            rw [whole] at distinct
            have fresh : item ∉ front := fun earlier =>
              (List.nodup_append.mp distinct).2.2 item earlier item List.mem_cons_self rfl
            exact placed.add holds fresh (topological front item back whole)
  exact along order [] _ rfl placed_empty

end Place

end Rage.Layers
