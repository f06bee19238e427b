import TreeQuery.Proofs.Value.Literal
import TreeQuery.Value.Compare
import Mathlib

/-! Equality of values. Arrays are equal place by place and objects name by name; for objects this
is decided by looking the members of one up in the other and counting, which comes to the same
where no name stands twice. As for numbers, equality is symmetric and transitive, and a value is
equal to itself unless a NaN is in it. -/

namespace TreeQuery.Value

/-- Induction from the items and members of a value, absent ones included, to the value. -/
theorem parts_induction {motive : Value → Prop} (absent : motive .absent) (null : motive .null)
    (bool : ∀ b, motive (.bool b)) (number : ∀ x, motive (.number x))
    (string : ∀ s, motive (.string s))
    (array : ∀ items, (∀ x ∈ items, motive x) → motive (.array items))
    (object : ∀ members, (∀ m ∈ members, motive m.2) → motive (.object members)) :
    ∀ v, motive v
  | .absent => absent
  | .null => null
  | .bool b => bool b
  | .number x => number x
  | .string s => string s
  | .array items => array items fun x _ =>
    parts_induction absent null bool number string array object x
  | .object members => object members fun m _ =>
    parts_induction absent null bool number string array object m.2
termination_by v => sizeOf v
decreasing_by
  · rename_i hx
    have := List.sizeOf_lt_of_mem hx
    simp only [Value.array.sizeOf_spec]
    omega
  · rename_i hm
    have := List.sizeOf_lt_of_mem hm
    obtain ⟨s, x⟩ := m
    simp only [Value.object.sizeOf_spec, Prod.mk.sizeOf_spec] at this ⊢
    omega

/-! ### Arrays and objects -/

/-- The members that hold something. -/
def presentMembers (members : List (String × Value)) : List (String × Value) :=
  members.filter (·.2.isPresent)

theorem mem_presentMembers {members : List (String × Value)} {m : String × Value} :
    m ∈ presentMembers members ↔ m ∈ members ∧ m.2.isPresent = true := List.mem_filter

theorem nodup_names_presentMembers {members : List (String × Value)}
    (h : (members.map (·.1)).Nodup) : ((presentMembers members).map (·.1)).Nodup :=
  h.sublist (List.filter_sublist.map _)

theorem length_presentMembers (members : List (String × Value)) :
    (presentMembers members).length = presentCount members :=
  List.countP_eq_length_filter.symm

theorem NamesDistinct.of_getElem? {items : List Value} {i : Nat} {x : Value}
    (hv : (array items).NamesDistinct) (hx : items[i]? = some x) : x.NamesDistinct :=
  (itemsDistinct_iff items).mp hv x (List.mem_of_getElem? hx)

theorem NamesDistinct.of_mem_presentMembers {members : List (String × Value)} {m : String × Value}
    (hv : (object members).NamesDistinct) (hm : m ∈ presentMembers members) : m.2.NamesDistinct :=
  (membersDistinct_iff members).mp hv.2 m (mem_presentMembers.mp hm).1

/-- Equal values are both present or both absent. -/
theorem isPresent_of_equal {v w : Value} (h : equal v w = true) : v.isPresent = w.isPresent := by
  cases v <;> cases w <;> first | rfl | simp [equal] at h

theorem equalItems_iff (xs ys : List Value) :
    equalItems xs ys = true ↔ xs.length = ys.length ∧
      ∀ (i : Nat) (x y : Value), xs[i]? = some x → ys[i]? = some y → equal x y = true := by
  induction xs generalizing ys with
  | nil => cases ys <;> simp [equalItems]
  | cons x xs ih =>
    cases ys with
    | nil => simp [equalItems]
    | cons y ys =>
      simp only [equalItems, Bool.and_eq_true, ih, List.length_cons, Nat.add_right_cancel_iff]
      constructor
      · rintro ⟨hxy, hlength, h⟩
        refine ⟨hlength, fun i a b ha hb => ?_⟩
        cases i with
        | zero =>
          cases ha
          cases hb
          exact hxy
        | succ i => exact h i a b ha hb
      · rintro ⟨hlength, h⟩
        exact ⟨h 0 x y rfl rfl, hlength, fun i a b ha hb => h (i + 1) a b ha hb⟩

/-- Arrays are equal place by place. -/
theorem equal_array_iff (xs ys : List Value) :
    equal (array xs) (array ys) = true ↔ xs.length = ys.length ∧
      ∀ (i : Nat) (x y : Value), xs[i]? = some x → ys[i]? = some y → equal x y = true := by
  rw [equal, equalItems_iff]

theorem equalMembers_cons (s : String) (x : Value) (xs ys : List (String × Value)) :
    equalMembers ((s, x) :: xs) ys =
      ((x.isAbsent || (ys.lookup s).any (equal x)) && equalMembers xs ys) := by
  rw [equalMembers]
  cases ys.lookup s <;> rfl

/-- Every member of the first list that holds something has an equal partner, the first of its name
in the second list. -/
theorem equalMembers_iff_lookup (xs ys : List (String × Value)) :
    equalMembers xs ys = true ↔
      ∀ s x, (s, x) ∈ presentMembers xs → ∃ y, ys.lookup s = some y ∧ equal x y = true := by
  induction xs with
  | nil => simp [equalMembers, presentMembers]
  | cons m xs ih =>
    obtain ⟨s, x⟩ := m
    have hfirst : (x.isAbsent || (ys.lookup s).any (equal x)) = true ↔
        (x.isPresent = true → ∃ y, ys.lookup s = some y ∧ equal x y = true) := by
      simp only [isPresent]
      cases x.isAbsent <;> simp [Option.any_eq_true]
    rw [equalMembers_cons, Bool.and_eq_true, hfirst, ih]
    simp only [mem_presentMembers, List.mem_cons, Prod.mk.injEq]
    constructor
    · rintro ⟨hx, h⟩ t y ⟨⟨rfl, rfl⟩ | ht, hy⟩
      · exact hx hy
      · exact h t y ⟨ht, hy⟩
    · intro h
      refine ⟨fun hx => h s x ⟨.inl ⟨rfl, rfl⟩, hx⟩, ?_⟩
      rintro t y ⟨ht, hy⟩
      exact h t y ⟨.inr ht, hy⟩

theorem equalMembers_iff {xs ys : List (String × Value)} (hy : (ys.map (·.1)).Nodup) :
    equalMembers xs ys = true ↔
      ∀ s x, (s, x) ∈ presentMembers xs → ∃ y, (s, y) ∈ ys ∧ equal x y = true := by
  simp only [equalMembers_iff_lookup, lookup_eq_some_iff hy]

/-- Objects are equal name by name: without the members that hold nothing, both have the same names
and an equal value under each. -/
theorem equal_object_iff {xs ys : List (String × Value)} (hx : (xs.map (·.1)).Nodup)
    (hy : (ys.map (·.1)).Nodup) :
    equal (object xs) (object ys) = true ↔
      (∀ s, s ∈ (presentMembers xs).map (·.1) ↔ s ∈ (presentMembers ys).map (·.1)) ∧
      ∀ s x y, (s, x) ∈ presentMembers xs → (s, y) ∈ presentMembers ys → equal x y = true := by
  have hnx := nodup_names_presentMembers hx
  have hny := nodup_names_presentMembers hy
  rw [equal, Bool.and_eq_true, beq_iff_eq, equalMembers_iff hy, ← length_presentMembers,
    ← length_presentMembers]
  constructor
  · rintro ⟨hcount, h⟩
    have hpresent : ∀ s x, (s, x) ∈ presentMembers xs →
        ∃ y, (s, y) ∈ presentMembers ys ∧ equal x y = true := by
      intro s x hs
      obtain ⟨y, hsy, hxy⟩ := h s x hs
      have hyp := isPresent_of_equal hxy ▸ (mem_presentMembers.mp hs).2
      exact ⟨y, mem_presentMembers.mpr ⟨hsy, hyp⟩, hxy⟩
    -- the names on the left are among those on the right, and as many
    have hsub : (presentMembers xs).map (·.1) ⊆ (presentMembers ys).map (·.1) := by
      intro s hs
      obtain ⟨⟨s, x⟩, hsx, rfl⟩ := List.mem_map.mp hs
      obtain ⟨y, hsy, -⟩ := hpresent s x hsx
      exact List.mem_map.mpr ⟨_, hsy, rfl⟩
    have hperm := (List.subperm_of_subset hnx hsub).perm_of_length_le (by simp [hcount])
    refine ⟨fun s => hperm.mem_iff, fun s x y hs hsy => ?_⟩
    obtain ⟨y', hsy', hxy⟩ := hpresent s x hs
    cases List.inj_on_of_nodup_map hny hsy hsy' rfl
    exact hxy
  · rintro ⟨hnames, h⟩
    refine ⟨?_, fun s x hs => ?_⟩
    · have hperm := (List.perm_ext_iff_of_nodup hnx hny).mpr hnames
      simpa using hperm.length_eq
    · obtain ⟨⟨_, y⟩, hsy, rfl⟩ :=
        List.mem_map.mp ((hnames s).mp (List.mem_map.mpr ⟨_, hs, rfl⟩))
      exact ⟨y, (mem_presentMembers.mp hsy).1, h _ x y hs hsy⟩

/-! ### Equality as a relation -/

theorem equal_symm {v w : Value} (hv : v.NamesDistinct) (hw : w.NamesDistinct)
    (h : equal v w = true) : equal w v = true := by
  induction v using parts_induction generalizing w with
  | absent | null => cases w <;> simp [equal] at h ⊢
  | bool a =>
    cases w <;> simp only [equal, Bool.false_eq_true] at h ⊢
    rwa [Bool.beq_comm]
  | number x =>
    cases w <;> simp only [equal, Bool.false_eq_true] at h ⊢
    exact BEq.symm h
  | string s =>
    cases w <;> simp only [equal, Bool.false_eq_true] at h ⊢
    rwa [Bool.beq_comm]
  | array xs ih =>
    cases w with
    | array ys =>
      rw [equal_array_iff] at h ⊢
      refine ⟨h.1.symm, fun i y x hy hx => ?_⟩
      exact ih x (List.mem_of_getElem? hx) (hv.of_getElem? hx) (hw.of_getElem? hy)
        (h.2 i x y hx hy)
    | _ => simp [equal] at h
  | object xs ih =>
    cases w with
    | object ys =>
      rw [equal_object_iff hv.1 hw.1] at h
      rw [equal_object_iff hw.1 hv.1]
      refine ⟨fun s => (h.1 s).symm, fun s y x hy hx => ?_⟩
      exact ih (s, x) (mem_presentMembers.mp hx).1 (hv.of_mem_presentMembers hx)
        (hw.of_mem_presentMembers hy) (h.2 s x y hx hy)
    | _ => simp [equal] at h

theorem mem_of_lookup_eq_some {members : List (String × Value)} {s : String} {x : Value}
    (h : members.lookup s = some x) : (s, x) ∈ members := by
  obtain ⟨before, after, rfl, -⟩ := List.lookup_eq_some_iff.mp h
  simp

/-- What is equal to the same value is equal, also where a name stands twice. -/
theorem equal_of_equal_of_equal {u v w : Value} (huv : equal u v = true)
    (hvw : equal v w = true) : equal u w = true := by
  induction u using parts_induction generalizing v w with
  | absent | null => cases v <;> simp only [equal, Bool.false_eq_true] at huv; exact hvw
  | bool a =>
    cases v <;> simp only [equal, Bool.false_eq_true] at huv
    rwa [beq_iff_eq.mp huv]
  | number x =>
    cases v <;> simp only [equal, Bool.false_eq_true] at huv
    cases w <;> simp only [equal, Bool.false_eq_true] at hvw
    exact BEq.trans huv hvw
  | string s =>
    cases v <;> simp only [equal, Bool.false_eq_true] at huv
    rwa [beq_iff_eq.mp huv]
  | array xs ih =>
    cases v with
    | array ys =>
      cases w with
      | array zs =>
        rw [equal_array_iff] at huv hvw ⊢
        refine ⟨huv.1.trans hvw.1, fun i x z hx hz => ?_⟩
        have hi : i < ys.length := huv.1 ▸ (List.getElem?_eq_some_iff.mp hx).1
        have hy : ys[i]? = some ys[i] := List.getElem?_eq_getElem hi
        exact ih x (List.mem_of_getElem? hx) (huv.2 i x _ hx hy) (hvw.2 i _ z hy hz)
      | _ => simp [equal] at hvw
    | _ => simp [equal] at huv
  | object xs ih =>
    cases v with
    | object ys =>
      cases w with
      | object zs =>
        rw [equal, Bool.and_eq_true, beq_iff_eq, equalMembers_iff_lookup] at huv hvw ⊢
        refine ⟨huv.1.trans hvw.1, fun s x hx => ?_⟩
        -- the partner in the middle holds something, so that it has a partner too
        obtain ⟨y, hy, hxy⟩ := huv.2 s x hx
        have hyp := isPresent_of_equal hxy ▸ (mem_presentMembers.mp hx).2
        obtain ⟨z, hz, hyz⟩ :=
          hvw.2 s y (mem_presentMembers.mpr ⟨mem_of_lookup_eq_some hy, hyp⟩)
        exact ⟨z, hz, ih (s, x) (mem_presentMembers.mp hx).1 hxy hyz⟩
      | _ => simp [equal] at hvw
    | _ => simp [equal] at huv

/-- No number in the value is NaN. -/
def WithoutNaN (v : Value) : Prop := ∀ x, .number x ∈ v.leaves → x.isNaN = false

theorem withoutNaN_array_iff (items : List Value) :
    (array items).WithoutNaN ↔ ∀ x ∈ items, x.WithoutNaN := by
  simp only [WithoutNaN, leaves, mem_leavesOfItems]
  constructor
  · exact fun h x hx y hy => h y ⟨x, hx, hy⟩
  · rintro h y ⟨x, hx, hy⟩
    exact h x hx y hy

theorem withoutNaN_object_iff (members : List (String × Value)) :
    (object members).WithoutNaN ↔ ∀ m ∈ members, m.2.WithoutNaN := by
  simp only [WithoutNaN, leaves, mem_leavesOfMembers]
  constructor
  · exact fun h m hm y hy => h y ⟨m, hm, hy⟩
  · rintro h y ⟨m, hm, hy⟩
    exact h m hm y hy

theorem equal_self {v : Value} (hv : v.NamesDistinct) (hn : v.WithoutNaN) :
    equal v v = true := by
  induction v using parts_induction with
  | absent | null => rw [equal]
  | bool b => simp only [equal, beq_self_eq_true]
  | number x =>
    have hx : x.isNaN = false := hn x (by simp [leaves])
    rw [equal, Float.beq_self_iff]
    simpa using hx
  | string s => simp only [equal, beq_self_eq_true]
  | array xs ih =>
    refine (equal_array_iff xs xs).mpr ⟨rfl, fun i x y hx hy => ?_⟩
    obtain rfl : x = y := Option.some.inj (hx.symm.trans hy)
    have hxm := List.mem_of_getElem? hx
    exact ih x hxm (hv.of_getElem? hx) ((withoutNaN_array_iff xs).mp hn x hxm)
  | object xs ih =>
    refine (equal_object_iff hv.1 hv.1).mpr ⟨fun s => Iff.rfl, fun s x y hx hy => ?_⟩
    cases List.inj_on_of_nodup_map (nodup_names_presentMembers hv.1) hx hy rfl
    have hxm := (mem_presentMembers.mp hx).1
    exact ih (s, x) hxm (hv.of_mem_presentMembers hx) ((withoutNaN_object_iff xs).mp hn _ hxm)

end TreeQuery.Value
