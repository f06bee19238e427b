import TreeQuery.Proofs.Matching.Descendants
import TreeQuery.Proofs.Matching.TwoRuns
import TreeQuery.Proofs.Operator.Builtin
import TreeQuery.Proofs.Value.Equality

/-! Equal values in a search. Equal values without repeated names have equal values under every
key. They have the same keys then, but objects may hold them in different orders. The builtin
operators do not tell equal values apart. -/

namespace TreeQuery.Value

/-- Equal values in which no object names a member twice. -/
structure Agree (v w : Value) : Prop where
  left : v.NamesDistinct
  right : w.NamesDistinct
  equal : equal v w = true

theorem kind_of_equal {v w : Value} (h : equal v w = true) : v.kind = w.kind := by
  cases v <;> cases w <;> first | rfl | simp [equal] at h

/-- The property of an object under a name is the member of that name that holds something. -/
theorem property?_eq_some_iff {members : List (String × Value)} {s : String} {x : Value}
    (h : (members.map (·.1)).Nodup) :
    (object members).property? s = some x ↔ (s, x) ∈ presentMembers members := by
  rw [property?, members?, Option.bind_some, Option.filter_eq_some_iff, lookup_eq_some_iff h,
    mem_presentMembers]

theorem isSome_property?_iff {members : List (String × Value)} {s : String}
    (h : (members.map (·.1)).Nodup) :
    ((object members).property? s).isSome = true ↔ s ∈ (presentMembers members).map (·.1) := by
  simp [Option.isSome_iff_exists, property?_eq_some_iff h]

namespace Agree

variable {v w : Value}

theorem symm (h : Agree v w) : Agree w v := ⟨h.right, h.left, equal_symm h.left h.right h.equal⟩

/-- Arrays agree item by item. -/
theorem items {xs ys : List Value} (h : Agree (array xs) (array ys)) :
    List.Forall₂ Agree xs ys := by
  have heq := (equal_array_iff xs ys).mp h.equal
  refine List.forall₂_iff_get.mpr ⟨heq.1, fun i hi hj => ?_⟩
  have hx : xs[i]? = some (xs.get ⟨i, hi⟩) := List.getElem?_eq_getElem hi
  have hy : ys[i]? = some (ys.get ⟨i, hj⟩) := List.getElem?_eq_getElem hj
  exact ⟨h.left.of_getElem? hx, h.right.of_getElem? hy, heq.2 i _ _ hx hy⟩

/-- Objects agree name by name. -/
theorem property? {xs ys : List (String × Value)} (h : Agree (object xs) (object ys))
    (s : String) : Option.Rel Agree ((object xs).property? s) ((object ys).property? s) := by
  have heq := (equal_object_iff h.left.1 h.right.1).mp h.equal
  refine Option.Rel.of_isSome ?_ fun x hx y hy => ?_
  · rw [Bool.eq_iff_iff, isSome_property?_iff h.left.1, isSome_property?_iff h.right.1]
    exact heq.1 s
  · rw [Option.mem_def, property?_eq_some_iff h.left.1] at hx
    rw [Option.mem_def, property?_eq_some_iff h.right.1] at hy
    exact ⟨h.left.of_mem_presentMembers hx, h.right.of_mem_presentMembers hy,
      heq.2 s x y hx hy⟩

theorem child? (h : Agree v w) (k : Key) : Option.Rel Agree (v.child? k) (w.child? k) := by
  have hkind := kind_of_equal h.equal
  cases v with
  | array xs =>
    cases w <;> cases hkind
    cases k with
    | index i =>
      exact (h.items.getElem? i).filter fun _ _ h => isPresent_of_equal h.equal
    | name s => exact .none
  | object xs =>
    cases w <;> cases hkind
    cases k with
    | index i => exact .none
    | name s => exact h.property? s
  | _ =>
    -- scalars have no children
    cases w <;> cases hkind
    cases k <;> exact .none

theorem hereditary : Hereditary .anyOrder Agree where
  isPresent h := isPresent_of_equal h.equal
  length? {v w} h := by
    have hkind := kind_of_equal h.equal
    cases v <;> cases w <;> cases hkind <;> try rfl
    exact congrArg some h.items.length_eq
  child? := child?
  children {v w} h := by
    have hkeys : ∀ {u : Value}, u.NamesDistinct → ∀ k,
        k ∈ u.children.map (·.1) ↔ (u.child? k).isSome = true := by
      intro u hu k
      simp [Option.isSome_iff_exists, ← mem_children_iff hu]
    refine Permuted.of_keys (nodup_keys_children h.left) (nodup_keys_children h.right)
      (fun k => ?_) fun k x y hx hy => ?_
    · rw [hkeys h.left, hkeys h.right, (h.child? k).isSome_eq]
    · have hk := h.child? k
      rw [(mem_children_iff h.left).mp hx, (mem_children_iff h.right).mp hy] at hk
      cases hk with
      | some hxy => exact hxy

/-! ### What the operators see -/

theorem isEmpty_eq (h : Agree v w) : v.isEmpty = w.isEmpty := by
  induction v using children_induction generalizing w with
  | step v ih =>
    have hkind := kind_of_equal h.equal
    by_cases hv : v.kind = .array ∨ v.kind = .object
    · rw [isEmpty_eq_all_children hv, isEmpty_eq_all_children (hkind ▸ hv)]
      exact (hereditary.children h).all_eq fun c hc d hcd => ih c.1 c.2 hc hcd.2
    · have heq := h.equal
      cases v <;> cases w <;> cases hkind <;> first | rfl | simp [kind] at hv
      next s t =>
        rw [Value.equal, beq_iff_eq] at heq
        rw [heq]

theorem equal_left (h : Agree v w) (u : Value) : Value.equal v u = Value.equal w u := by
  rw [Bool.eq_iff_iff]
  exact ⟨equal_of_equal_of_equal h.symm.equal, equal_of_equal_of_equal h.equal⟩

theorem equal_right (h : Agree v w) (u : Value) : Value.equal u v = Value.equal u w := by
  rw [Bool.eq_iff_iff]
  exact ⟨fun hv => equal_of_equal_of_equal hv h.equal,
    fun hw => equal_of_equal_of_equal hw h.symm.equal⟩

/-- The builtin operators do not tell equal values apart. -/
theorem indistinct : Indistinct (Relation.ReflGen Agree) :=
  .reflGen (fun u h => h.equal_left u) (fun u _ _ h => h.equal_right u)
    (fun h => kind_of_equal h.equal) isEmpty_eq fun {v w} h => by
      have hkind := kind_of_equal h.equal
      cases v <;> cases w <;> cases hkind <;> try exact .none
      exact .some (.of_forall₂ h.items)

end Agree

end TreeQuery.Value
