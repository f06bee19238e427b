import TreeQuery.Proofs.Value.Names

/-! Values that can stand as literals. A document has no absent slots and no infinite numbers,
names the members of an object once, and is nested to a limited depth; a literal is a value of which
all of this is true. -/

namespace TreeQuery.Value

mutual

/-- The scalars and absent slots in a value, at any depth. -/
def leaves : Value → List Value
  | array items => leavesOfItems items
  | object members => leavesOfMembers members
  | v => [v]

def leavesOfItems : List Value → List Value
  | [] => []
  | x :: rest => leaves x ++ leavesOfItems rest

def leavesOfMembers : List (String × Value) → List Value
  | [] => []
  | (_, x) :: rest => leaves x ++ leavesOfMembers rest

end

mutual

/-- How many arrays and objects are nested in one another. -/
def nesting : Value → Nat
  | array items => nestingOfItems items + 1
  | object members => nestingOfMembers members + 1
  | _ => 0

def nestingOfItems : List Value → Nat
  | [] => 0
  | x :: rest => max (nesting x) (nestingOfItems rest)

def nestingOfMembers : List (String × Value) → Nat
  | [] => 0
  | (_, x) :: rest => max (nesting x) (nestingOfMembers rest)

end

theorem mem_leavesOfItems {items : List Value} {y : Value} :
    y ∈ leavesOfItems items ↔ ∃ x ∈ items, y ∈ x.leaves := by
  induction items with
  | nil => simp [leavesOfItems]
  | cons x rest ih => simp [leavesOfItems, ih]

theorem mem_leavesOfMembers {members : List (String × Value)} {y : Value} :
    y ∈ leavesOfMembers members ↔ ∃ m ∈ members, y ∈ m.2.leaves := by
  induction members with
  | nil => simp [leavesOfMembers]
  | cons m rest ih => simp [leavesOfMembers, ih]

theorem leaves_subset_of_mem_items {items : List Value} {x : Value} (h : x ∈ items) :
    leaves x ⊆ leavesOfItems items :=
  fun _ hy => mem_leavesOfItems.mpr ⟨x, h, hy⟩

theorem leaves_subset_of_mem_members {members : List (String × Value)} {m : String × Value}
    (h : m ∈ members) : leaves m.2 ⊆ leavesOfMembers members :=
  fun _ hy => mem_leavesOfMembers.mpr ⟨m, h, hy⟩

theorem nesting_le_of_mem_items {items : List Value} {x : Value} (h : x ∈ items) :
    nesting x ≤ nestingOfItems items := by
  induction items with
  | nil => simp at h
  | cons y rest ih =>
    rw [nestingOfItems]
    rcases List.mem_cons.mp h with rfl | h
    · exact Nat.le_max_left _ _
    · exact Nat.le_trans (ih h) (Nat.le_max_right _ _)

theorem nesting_le_of_mem_members {members : List (String × Value)} {m : String × Value}
    (h : m ∈ members) : nesting m.2 ≤ nestingOfMembers members := by
  induction members with
  | nil => simp at h
  | cons n rest ih =>
    rw [nestingOfMembers]
    rcases List.mem_cons.mp h with rfl | h
    · exact Nat.le_max_left _ _
    · exact Nat.le_trans (ih h) (Nat.le_max_right _ _)

/-- The value can stand as a literal, or `level` containers deep in one, if its numbers can. -/
structure IsLiteral (number : Float → Prop) (level : Nat) (v : Value) : Prop where
  present : absent ∉ v.leaves
  numbers : ∀ x, .number x ∈ v.leaves → number x
  names : v.NamesDistinct
  shallow : level + v.nesting ≤ Json.greatestDepth

namespace IsLiteral

variable {number : Float → Prop} {level : Nat}

theorem isPresent {v : Value} (h : v.IsLiteral number level) : v.isAbsent = false := by
  cases v with
  | absent => exact absurd (by simp [leaves]) h.present
  | _ => rfl

theorem of_number {x : Float} (h : (Value.number x).IsLiteral number level) : number x :=
  h.numbers x (by simp [leaves])

theorem lt_of_array {items : List Value} (h : (array items).IsLiteral number level) :
    level < Json.greatestDepth := by
  have := h.shallow
  rw [nesting] at this
  omega

theorem lt_of_object {members : List (String × Value)}
    (h : (object members).IsLiteral number level) : level < Json.greatestDepth := by
  have := h.shallow
  rw [nesting] at this
  omega

theorem item {items : List Value} (h : (array items).IsLiteral number level) :
    ∀ x ∈ items, x.IsLiteral number (level + 1) := by
  intro x hx
  have hleaves := leaves_subset_of_mem_items hx
  have hnesting := nesting_le_of_mem_items hx
  have hshallow := h.shallow
  rw [nesting] at hshallow
  refine ⟨fun ha => h.present ?_, fun y hy => h.numbers y ?_, ?_, by omega⟩
  · rw [leaves]
    exact hleaves ha
  · rw [leaves]
    exact hleaves hy
  · exact (itemsDistinct_iff items).mp h.names x hx

theorem member {members : List (String × Value)}
    (h : (object members).IsLiteral number level) :
    ∀ m ∈ members, m.2.IsLiteral number (level + 1) := by
  intro m hm
  have hleaves := leaves_subset_of_mem_members hm
  have hnesting := nesting_le_of_mem_members hm
  have hshallow := h.shallow
  rw [nesting] at hshallow
  refine ⟨fun ha => h.present ?_, fun y hy => h.numbers y ?_, ?_, by omega⟩
  · rw [leaves]
    exact hleaves ha
  · rw [leaves]
    exact hleaves hy
  · exact (membersDistinct_iff members).mp h.names.2 m hm

end IsLiteral

end TreeQuery.Value
