import TreeQuery.Proofs.Matching.Found
import TreeQuery.Proofs.Operator.Builtin
import TreeQuery.Proofs.Value.Equality
import TreeQuery.Proofs.Value.Trail

/-! Empty values. Emptiness goes through every slot of an array or object, a deep search only
through those that hold something. They agree all the same, since a slot that holds nothing is
empty: a value is empty exactly if neither it nor anything that a deep search finds below it is a
filled leaf. -/

namespace TreeQuery.Value

/-- A boolean, a number, or a text that is not empty. -/
def isFilled : Value → Bool
  | bool _ => true
  | number _ => true
  | string s => !s.isEmpty
  | _ => false

/-- One level of emptiness, for values of every kind. -/
theorem isEmpty_eq_not_isFilled_and (v : Value) :
    v.isEmpty = (!v.isFilled && v.children.all (·.2.isEmpty)) := by
  cases v with
  | array items => exact isEmpty_eq_all_children (.inl rfl)
  | object members => exact isEmpty_eq_all_children (.inr rfl)
  | _ => simp [isEmpty, isFilled, children]

/-! ### What is found below -/

theorem isEmpty_iff_gather (v : Value) (scopes : Scopes) :
    v.isEmpty = true ↔ v.isFilled = false ∧
      ∀ m ∈ Search.gather (fun _ => children) scopes v, m.value.isFilled = false := by
  induction v using children_induction generalizing scopes with
  | step v ih =>
    rw [isEmpty_eq_not_isFilled_and, Bool.and_eq_true, Bool.not_eq_true', List.all_eq_true,
      Search.gather_eq]
    refine and_congr_right fun _ => ⟨fun hchildren m hm => ?_, fun hfound c hc => ?_⟩
    · rcases List.mem_append.mp hm with hm | hm
      · obtain ⟨c, hc, rfl⟩ := List.mem_map.mp hm
        exact ((ih c.1 c.2 hc scopes).mp (hchildren c hc)).1
      · obtain ⟨c, hc, hm⟩ := List.mem_flatMap.mp hm
        obtain ⟨n, hn, rfl⟩ := List.mem_map.mp hm
        exact ((ih c.1 c.2 hc _).mp (hchildren c hc)).2 n hn
    · refine (ih c.1 c.2 hc (scopes ++ [c.2])).mpr ⟨?_, fun n hn => ?_⟩
      · exact hfound (.ofChild c) (List.mem_append_left _ (List.mem_map_of_mem hc))
      · exact hfound (n.under [c.1]) (List.mem_append_right _
          (List.mem_flatMap.mpr ⟨c, hc, List.mem_map_of_mem hn⟩))

/-! ### What lies on the way -/

/-- What is found under a key is one of the slots. -/
theorem isEmpty_of_child? {v x : Value} {k : Key} (h : v.child? k = some x)
    (hv : v.isEmpty = true) : x.isEmpty = true := by
  cases v with
  | array items =>
    rw [isEmpty, allEmpty_eq_all, List.all_eq_true] at hv
    cases k with
    | index i => exact hv x (List.mem_of_getElem? (Option.filter_eq_some_iff.mp h).1)
    | name s => cases h
  | object members =>
    rw [isEmpty, membersEmpty_eq_all, List.all_eq_true] at hv
    cases k with
    | index i => cases h
    | name s => exact hv (s, x) (mem_of_lookup_eq_some (Option.filter_eq_some_iff.mp h).1)
  | _ => cases k <;> cases h

theorem Leads.isEmpty {v x : Value} {p : Location} (h : v.Leads p x) (hv : v.isEmpty = true) :
    x.isEmpty = true := by
  induction p generalizing v with
  | nil => rwa [h.eq_of_nil]
  | cons k p ih =>
    obtain ⟨y, hy, hleads⟩ := h.of_cons
    exact ih hleads (isEmpty_of_child? hy hv)

/-! ### Empty values -/

/-- A value is empty exactly if neither it nor anything that a deep search finds below it is a
boolean, a number or a text that is not empty. So an array or object whose slots hold nothing or
empty values is empty, and one leaf that is not empty makes every value above it non-empty. -/
theorem isEmpty_iff_none_filled (v : Value) (scopes : Scopes) :
    (v.isEmpty = true ↔ v.isFilled = false ∧
      ∀ m ∈ (Step.all true).findAll scopes v, m.value.isFilled = false) ∧
    (∀ items, v = array items → (∀ x ∈ items, x.isAbsent = true ∨ x.isEmpty = true) →
      v.isEmpty = true) ∧
    (∀ members, v = object members → (∀ m ∈ members, m.2.isAbsent = true ∨ m.2.isEmpty = true) →
      v.isEmpty = true) ∧
    ∀ p leaf, v.Leads p leaf → leaf.isEmpty = false →
      ∀ q x, q <+: p → v.Leads q x → x.isEmpty = false := by
  have hslot : ∀ x : Value, x.isAbsent = true ∨ x.isEmpty = true → x.isEmpty = true := by
    rintro x (hx | hx)
    · cases x with
      | absent => rfl
      | _ => cases hx
    · exact hx
  refine ⟨?found, ?array, ?object, ?leaf⟩
  case found =>
    rw [Step.findAll_eq_finds]
    exact isEmpty_iff_gather v scopes
  case array =>
    rintro items rfl hitems
    rw [isEmpty, allEmpty_eq_all, List.all_eq_true]
    exact fun x hx => hslot x (hitems x hx)
  case object =>
    rintro members rfl hmembers
    rw [isEmpty, membersEmpty_eq_all, List.all_eq_true]
    exact fun m hm => hslot m.2 (hmembers m hm)
  case leaf =>
    rintro p leaf hleaf hempty q x ⟨r, rfl⟩ hx
    refine Bool.eq_false_iff.mpr fun hxempty => ?_
    rw [(hleaf.of_append hx).isEmpty hxempty] at hempty
    cases hempty

/-- An array of slots that hold nothing or empty values; and `false`, which no array and no object
around it makes empty. -/
theorem isEmpty_iff_none_filled_nested :
    let blank : Value := .array [.absent, .object [("s", .string ""), ("t", .absent)], .null]
    let inner : Value := .array [.absent, .object [("c", .bool false)]]
    let v : Value := .object [("a", blank), ("b", inner)]
    (blank.isEmpty = true ∧
      ∀ m ∈ (Step.all true).findAll [] blank, m.value.isFilled = false) ∧
    v.Leads [.name "b", .index 1, .name "c"] (.bool false) ∧
    inner.isEmpty = false ∧ v.isEmpty = false := by
  intro blank inner v
  have hblank : blank.isEmpty = true :=
    (isEmpty_iff_none_filled blank []).2.1 _ rfl (by simp [isAbsent, isEmpty, membersEmpty])
  have hinner : v.Leads [.name "b"] inner := .single rfl
  have hleaf : v.Leads [.name "b", .index 1, .name "c"] (.bool false) :=
    hinner.trans (.cons rfl (.single rfl))
  have habove := (isEmpty_iff_none_filled v []).2.2.2 _ _ hleaf rfl
  refine ⟨⟨hblank, ((isEmpty_iff_none_filled blank []).1.mp hblank).2⟩, hleaf, ?_, ?_⟩
  · exact habove [.name "b"] inner (by simp) hinner
  · exact habove [] v List.nil_prefix (.refl rfl)

end TreeQuery.Value
