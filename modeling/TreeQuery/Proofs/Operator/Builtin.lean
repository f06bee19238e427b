import TreeQuery.Operator.Basic
import TreeQuery.Proofs.Correspondence

/-! What the builtin operators cannot tell apart. A relation between values that equality, kinds,
emptiness and the items of arrays respect makes no difference to them. Emptiness of an array and
membership in it do not depend on the order of its items either; equality does. -/

namespace TreeQuery

/-- The builtin operators and no others are found under their names. -/
theorem Registry.get?_builtin {name : String} {op : Operator}
    (h : Registry.builtin.get? name = some op) :
    name = "is" ∧ op = Operator.is ∨ name = "in" ∧ op = Operator.isIn ∨
      name = "empty" ∧ op = Operator.empty := by
  have hentries : Registry.builtin.entries =
      [("empty", Operator.empty), ("in", Operator.isIn), ("is", Operator.is)] := rfl
  rw [get?, hentries, List.lookup_cons, List.lookup_cons, List.lookup_cons, List.lookup_nil] at h
  split at h
  · next hname => exact .inr (.inr ⟨beq_iff_eq.mp hname, (Option.some.inj h).symm⟩)
  split at h
  · next hname => exact .inr (.inl ⟨beq_iff_eq.mp hname, (Option.some.inj h).symm⟩)
  split at h
  · next hname => exact .inl ⟨beq_iff_eq.mp hname, (Option.some.inj h).symm⟩
  · exact nomatch h

/-- Membership looks at the second operand through its items. -/
theorem Operator.isIn_some (x y : Value) : isIn x (some y) = y.items?.elim false fun items =>
    x.isPresent && !x.isNull && items.any fun z => is x (some z) := by
  cases y <;> rfl

namespace Value

theorem isPresent_eq_kind (v : Value) : v.isPresent = (v.kind != .absent) := by cases v <;> rfl

theorem isNull_eq_kind (v : Value) : v.isNull = (v.kind == .null) := by cases v <;> rfl

theorem membersEmpty_eq_all (members : List (String × Value)) :
    membersEmpty members = members.all (·.2.isEmpty) := by
  induction members with
  | nil => rfl
  | cons m rest ih => rw [membersEmpty, ih, List.all_cons]

theorem allEmpty_eq_all (items : List Value) : allEmpty items = items.all isEmpty := by
  induction items with
  | nil => rfl
  | cons x rest ih => rw [allEmpty, ih, List.all_cons]

/-- A test that absent slots pass need only look at children. -/
theorem all_children_array {p : Value → Bool} (hp : p absent = true) (items : List Value) :
    ((array items).children.all fun c => p c.2) = items.all p := by
  have hpresent : ∀ x : Value, (!x.isPresent || p x) = p x := by
    intro x
    cases x <;> simp [isPresent, isAbsent, hp]
  have hitems : (items.zipIdx.map (·.1)).all p = items.all p := by
    rw [List.zipIdx_map_fst]
  rw [← hitems, children, List.all_filter, List.all_map, List.all_map]
  simp only [Function.comp_def, hpresent]

/-- An array or object is empty if its children are: slots that hold nothing count as empty. -/
theorem isEmpty_eq_all_children {v : Value} (hv : v.kind = .array ∨ v.kind = .object) :
    v.isEmpty = v.children.all (·.2.isEmpty) := by
  cases v with
  | array items => rw [isEmpty, allEmpty_eq_all, all_children_array rfl]
  | object members =>
    have hpresent : ∀ x : Value, (!x.isPresent || x.isEmpty) = x.isEmpty := by
      intro x
      cases x <;> rfl
    rw [isEmpty, membersEmpty_eq_all, children, List.all_filter, List.all_map]
    simp only [Function.comp_def, hpresent]
  | _ => simp [kind] at hv

/-- Related by `q`, or arrays whose items are, in whatever order. -/
def UpToOrder (q : Value → Value → Prop) (v w : Value) : Prop :=
  q v w ∨ ∃ vs ws, v = array vs ∧ w = array ws ∧ Permuted q vs ws

/-- Values related by `q` are alike in all that the builtin operators look at. -/
structure Indistinct (q : Value → Value → Prop) : Prop where
  equal : ∀ {v v' w w'}, q v v' → q w w' → equal v w = equal v' w'
  kind : ∀ {v w}, q v w → v.kind = w.kind
  isEmpty : ∀ {v w}, q v w → v.isEmpty = w.isEmpty
  items? : ∀ {v w}, q v w → Option.Rel (Permuted q) v.items? w.items?

namespace Indistinct

/-- Every value is like itself. -/
theorem reflGen {r : Value → Value → Prop}
    (equal_left : ∀ {v v'} w, r v v' → Value.equal v w = Value.equal v' w)
    (equal_right : ∀ v {w w'}, r w w' → Value.equal v w = Value.equal v w')
    (kind : ∀ {v w}, r v w → v.kind = w.kind)
    (isEmpty : ∀ {v w}, r v w → v.isEmpty = w.isEmpty)
    (items? : ∀ {v w}, r v w → Option.Rel (Permuted r) v.items? w.items?) :
    Indistinct (Relation.ReflGen r) where
  equal {v v' w w'} hv hw := by
    have hleft : Value.equal v w = Value.equal v' w := by
      cases hv with
      | refl => rfl
      | single h => exact equal_left w h
    rw [hleft]
    cases hw with
    | refl => rfl
    | single h => exact equal_right v' h
  kind h := by
    cases h with
    | refl => rfl
    | single h => exact kind h
  isEmpty h := by
    cases h with
    | refl => rfl
    | single h => exact isEmpty h
  items? {v w} h := by
    cases h with
    | refl =>
      cases v.items? with
      | none => exact .none
      | some xs => exact .some (.refl (fun _ => .refl) xs)
    | single h =>
      have := items? h
      cases hv : v.items? <;> cases hw : w.items? <;> rw [hv, hw] at this
      · exact .none
      · exact nomatch this
      · exact nomatch this
      · cases this with
        | some h => exact .some (h.mono fun _ _ => .single)

variable {q : Value → Value → Prop} (hq : Indistinct q) {v v' w w' : Value}

include hq

theorem isPresent (h : q v w) : v.isPresent = w.isPresent := by
  rw [isPresent_eq_kind, isPresent_eq_kind, hq.kind h]

theorem items?_upToOrder (h : UpToOrder q v w) :
    Option.Rel (Permuted q) v.items? w.items? := by
  rcases h with h | ⟨vs, ws, rfl, rfl, h⟩
  · exact hq.items? h
  · exact .some h

theorem isEmpty_upToOrder (h : UpToOrder q v w) : v.isEmpty = w.isEmpty := by
  rcases h with h | ⟨vs, ws, rfl, rfl, h⟩
  · exact hq.isEmpty h
  · rw [Value.isEmpty, Value.isEmpty, allEmpty_eq_all, allEmpty_eq_all]
    exact h.all_eq fun _ _ _ => hq.isEmpty

/-! ### The operators -/

theorem is_eq (hv : q v v') (hw : q w w') : Operator.is v (some w) = Operator.is v' (some w') := by
  have hequal : (v == w) = (v' == w') := hq.equal hv hw
  rw [Operator.is, Operator.is, hq.isPresent hv, hq.isPresent hw, hequal]

/-- Membership depends on what the items of an array are, and not on their order. -/
theorem isIn_eq (hv : q v v') (hw : UpToOrder q w w') :
    Operator.isIn v (some w) = Operator.isIn v' (some w') := by
  have hitems := hq.items?_upToOrder hw
  rw [Operator.isIn_some, Operator.isIn_some, hq.isPresent hv, isNull_eq_kind, isNull_eq_kind,
    hq.kind hv]
  cases hi : w.items? <;> cases hj : w'.items? <;> rw [hi, hj] at hitems
  · rfl
  · exact nomatch hitems
  · exact nomatch hitems
  · cases hitems with
    | some h => simp only [Option.elim_some, h.any_eq fun _ _ _ => hq.is_eq hv]

/-- Emptiness does not depend on the order of the items of an array either. -/
theorem empty_eq (hv : UpToOrder q v v') (o o' : Option Value) :
    Operator.empty v o = Operator.empty v' o' :=
  hq.isEmpty_upToOrder hv

end Indistinct

end Value

end TreeQuery
