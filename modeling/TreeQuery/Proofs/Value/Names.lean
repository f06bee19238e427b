import TreeQuery.Value.Document

/-! Values in which no object names a member twice. Their children are exactly what their keys look
up, and every value read from a document is of this kind: a repeated member keeps one place. -/

namespace TreeQuery.Value

/-! ### Distinct names -/

mutual

/-- No object in the value names a member twice. -/
def NamesDistinct : Value → Prop
  | array items => ItemsDistinct items
  | object members => (members.map (·.1)).Nodup ∧ MembersDistinct members
  | _ => True

def ItemsDistinct : List Value → Prop
  | [] => True
  | x :: rest => NamesDistinct x ∧ ItemsDistinct rest

def MembersDistinct : List (String × Value) → Prop
  | [] => True
  | (_, x) :: rest => NamesDistinct x ∧ MembersDistinct rest

end

theorem itemsDistinct_iff (items : List Value) :
    ItemsDistinct items ↔ ∀ x ∈ items, x.NamesDistinct := by
  induction items with
  | nil => simp [ItemsDistinct]
  | cons x rest ih => simp [ItemsDistinct, ih]

theorem membersDistinct_iff (members : List (String × Value)) :
    MembersDistinct members ↔ ∀ m ∈ members, m.2.NamesDistinct := by
  induction members with
  | nil => simp [MembersDistinct]
  | cons m rest ih => simp [MembersDistinct, ih]

/-- With distinct names, looking a name up finds every member of that name. -/
theorem lookup_eq_some_iff {α : Type} {members : List (String × α)} {s : String} {x : α}
    (h : (members.map (·.1)).Nodup) : members.lookup s = some x ↔ (s, x) ∈ members := by
  induction members with
  | nil => simp
  | cons m rest ih =>
    obtain ⟨t, y⟩ := m
    rw [List.map_cons, List.nodup_cons] at h
    have ht : (t, x) ∉ rest := fun hm => h.1 (List.mem_map.mpr ⟨(t, x), hm, rfl⟩)
    rw [List.lookup_cons, List.mem_cons]
    by_cases hs : s = t
    · subst hs
      simp [ht, eq_comm]
    · simp [hs, ih h.2, beq_eq_false_iff_ne.mpr hs]

/-! ### Children and keys -/

theorem isPresent_child {v x : Value} {k : Key} (h : v.child? k = some x) :
    x.isPresent = true := by
  cases k with
  | index i => exact (Option.filter_eq_some_iff.mp h).2
  | name s => exact (Option.filter_eq_some_iff.mp h).2

/-- Only present values have anything under a key. -/
theorem isPresent_of_child? {v x : Value} {k : Key} (h : v.child? k = some x) :
    v.isPresent = true := by
  cases v with
  | absent => cases k <;> simp [child?, property?, element?, members?, items?] at h
  | _ => rfl

/-- The children of a value are what its keys look up. -/
theorem mem_children_iff {v x : Value} {k : Key} (hv : v.NamesDistinct) :
    (k, x) ∈ v.children ↔ v.child? k = some x := by
  cases v with
  | array items =>
    cases k with
    | index i =>
      have hi : (∃ a b, items[b]? = some a ∧ b = i ∧ a = x) ↔ items[i]? = some x :=
        ⟨fun ⟨_, _, ha, hb, hx⟩ => hb ▸ hx ▸ ha, fun h => ⟨x, i, h, rfl, rfl⟩⟩
      simp only [children, child?, element?, items?, List.mem_filter, List.mem_map, Prod.exists,
        Prod.mk.injEq, Key.index.injEq, List.mem_zipIdx_iff_getElem?, Option.filter_eq_some_iff,
        Option.bind_some, hi]
    | name s => simp [children, child?, property?, members?]
  | object members =>
    cases k with
    | index i => simp [children, child?, element?, items?]
    | name s =>
      simp [children, child?, property?, members?, Option.filter_eq_some_iff,
        lookup_eq_some_iff hv.1]
  | _ => cases k <;> simp [children, child?, property?, element?, members?, items?]

theorem NamesDistinct.of_mem_children {v x : Value} {k : Key} (hv : v.NamesDistinct)
    (h : (k, x) ∈ v.children) : x.NamesDistinct := by
  cases v with
  | array items =>
    simp only [children, List.mem_filter, List.mem_map, Prod.mk.injEq] at h
    obtain ⟨⟨⟨y, i⟩, hy, -, rfl⟩, -⟩ := h
    exact (itemsDistinct_iff items).mp hv y (List.fst_mem_of_mem_zipIdx hy)
  | object members =>
    simp only [children, List.mem_filter, List.mem_map, Prod.mk.injEq] at h
    obtain ⟨⟨⟨s, y⟩, hy, -, rfl⟩, -⟩ := h
    exact (membersDistinct_iff members).mp hv.2 (s, y) hy
  | _ => simp [children] at h

theorem NamesDistinct.of_child? {v x : Value} {k : Key} (hv : v.NamesDistinct)
    (h : v.child? k = some x) : x.NamesDistinct :=
  hv.of_mem_children ((mem_children_iff hv).mpr h)

/-- Induction from the children of a value to the value. -/
theorem children_induction {motive : Value → Prop}
    (step : ∀ v : Value, (∀ k x, (k, x) ∈ v.children → motive x) → motive v) (v : Value) :
    motive v :=
  step v fun _ x _ => children_induction step x
termination_by sizeOf v
decreasing_by exact sizeOf_lt_of_mem_children ‹_›

/-! ### Documents -/

theorem names_insertMember {α : Type} (members : List (String × α)) (name : String) (content : α) :
    (Json.insertMember members name content).map (·.1) =
      if name ∈ members.map (·.1) then members.map (·.1) else members.map (·.1) ++ [name] := by
  have hany : members.any (·.1 == name) = true ↔ name ∈ members.map (·.1) := by
    simp [List.any_eq_true, List.mem_map]
  unfold Json.insertMember
  by_cases h : name ∈ members.map (·.1)
  · rw [if_pos (hany.mpr h), if_pos h, List.map_map]
    refine List.map_congr_left fun m _ => ?_
    by_cases hm : m.1 = name <;> simp [hm]
  · rw [if_neg (mt hany.mp h), if_neg h]
    simp

theorem mem_insertMember {α : Type} {members : List (String × α)} {name : String} {content : α}
    {m : String × α} (h : m ∈ Json.insertMember members name content) :
    m ∈ members ∨ m = (name, content) := by
  unfold Json.insertMember at h
  split at h
  · obtain ⟨n, hn, rfl⟩ := List.mem_map.mp h
    split
    · exact .inr rfl
    · exact .inl hn
  · simpa using h

/-- Resolving repetitions leaves every name once, and invents no member. -/
theorem distinctMembers_spec {α : Type} (members : List (String × α)) :
    ((Json.distinctMembers members).map (·.1)).Nodup ∧
      ∀ m ∈ Json.distinctMembers members, m ∈ members := by
  suffices h : ∀ rest kept : List (String × α), (kept.map (·.1)).Nodup →
      ((rest.foldl (fun kept m => Json.insertMember kept m.1 m.2) kept).map (·.1)).Nodup ∧
        ∀ m ∈ rest.foldl (fun kept m => Json.insertMember kept m.1 m.2) kept,
          m ∈ kept ∨ m ∈ rest by
    simpa [Json.distinctMembers] using h members [] List.nodup_nil
  intro rest
  induction rest with
  | nil => exact fun kept h => ⟨h, fun m hm => .inl hm⟩
  | cons m rest ih =>
    intro kept h
    have hm : ((Json.insertMember kept m.1 m.2).map (·.1)).Nodup := by
      rw [names_insertMember]
      split
      · exact h
      · next hn =>
        refine List.nodup_append.mpr ⟨h, by simp, ?_⟩
        rintro a ha b hb rfl
        exact hn (List.mem_singleton.mp hb ▸ ha)
    obtain ⟨hnodup, hmem⟩ := ih _ hm
    refine ⟨hnodup, fun n hn => ?_⟩
    rcases hmem n hn with hk | hr
    · rcases mem_insertMember hk with hk | rfl
      · exact .inl hk
      · exact .inr (by simp)
    · exact .inr (List.mem_cons_of_mem _ hr)

/-- Where no name is repeated, there is nothing to resolve. -/
theorem distinctMembers_of_nodup {α : Type} {members : List (String × α)}
    (h : (members.map (·.1)).Nodup) : Json.distinctMembers members = members := by
  suffices hkept : ∀ rest kept : List (String × α), ((kept ++ rest).map (·.1)).Nodup →
      rest.foldl (fun kept m => Json.insertMember kept m.1 m.2) kept = kept ++ rest by
    simpa [Json.distinctMembers] using hkept members [] h
  intro rest
  induction rest with
  | nil => simp
  | cons m rest ih =>
    intro kept hnodup
    have hnew : kept.any (·.1 == m.1) = false := by
      rw [List.map_append, List.nodup_append] at hnodup
      simp only [List.any_eq_false, beq_iff_eq]
      intro n hn heq
      exact hnodup.2.2 n.1 (List.mem_map_of_mem hn) m.1 (by simp) heq
    rw [List.foldl_cons, Json.insertMember, hnew, if_neg (by decide),
      ih (kept ++ [m]) (by simpa using hnodup)]
    simp

theorem ofItems_eq (items : List Json) : ofItems items = items.map ofJson := by
  induction items with
  | nil => rfl
  | cons j rest ih => rw [ofItems, ih, List.map_cons]

theorem ofMembers_eq (members : List (String × Json)) :
    ofMembers members = members.map fun m => (m.1, ofJson m.2) := by
  induction members with
  | nil => rfl
  | cons m rest ih => rw [ofMembers, ih, List.map_cons]

theorem isPresent_ofJson (j : Json) : (ofJson j).isPresent = true := by
  cases j <;> rfl

theorem present_ofMembers (members : List (String × Json)) :
    ∀ m ∈ ofMembers members, m.2.isPresent = true := by
  rw [ofMembers_eq]
  exact List.forall_mem_map.mpr fun m _ => isPresent_ofJson m.2

mutual

/-- Values read from documents name every member of an object once. -/
theorem namesDistinct_ofJson : ∀ j : Json, (ofJson j).NamesDistinct
  | .null | .bool _ | .number _ | .string _ => trivial
  | .array items => itemsDistinct_ofItems items
  | .object members =>
    have h := distinctMembers_spec (ofMembers members)
    ⟨h.1, (membersDistinct_iff _).mpr fun m hm =>
      (membersDistinct_iff _).mp (membersDistinct_ofMembers members) m (h.2 m hm)⟩

theorem itemsDistinct_ofItems : ∀ items : List Json, ItemsDistinct (ofItems items)
  | [] => trivial
  | j :: rest => ⟨namesDistinct_ofJson j, itemsDistinct_ofItems rest⟩

theorem membersDistinct_ofMembers :
    ∀ members : List (String × Json), MembersDistinct (ofMembers members)
  | [] => trivial
  | (_, j) :: rest => ⟨namesDistinct_ofJson j, membersDistinct_ofMembers rest⟩

end

end TreeQuery.Value
