import TreeQuery.Proofs.Matching.OrderInsensitive
import TreeQuery.Proofs.Value.Strip

/-! Absent members in a search. A value and what is left of it without its absent members have the
same keys, in the same order, and the values under each are again a value and what is left of it.
The builtin operators see no difference between them, so that no condition does, arrays of the
values of a path included. -/

namespace TreeQuery

namespace Value

/-- The second value is the first one without its absent members. -/
structure StripsTo (v w : Value) : Prop where
  namesDistinct : v.NamesDistinct
  eq : w = v.strip

namespace StripsTo

theorem hereditary : Hereditary .inOrder StripsTo where
  isPresent := by
    rintro v _ ⟨-, rfl⟩
    exact (isPresent_strip v).symm
  length? := by
    rintro v _ ⟨-, rfl⟩
    rw [Value.length?, Value.length?, items?_strip, Option.map_map]
    simp [Function.comp_def]
  child? := by
    rintro v _ ⟨hv, rfl⟩ k
    rw [child?_strip hv]
    cases hk : v.child? k with
    | none => exact .none
    | some x => exact .some ⟨hv.of_child? hk, rfl⟩
  children := by
    rintro v _ ⟨hv, rfl⟩
    rw [children_strip]
    exact .of_map fun c hc => ⟨rfl, hv.of_mem_children hc, rfl⟩

/-- Entry by entry, an array is stripped as a whole. -/
theorem array : ArraysRelated .inOrder StripsTo := by
  intro xs ys h
  refine ⟨(itemsDistinct_iff xs).mpr fun x hx => ?_, ?_⟩
  · obtain ⟨y, -, hxy⟩ := h.flip.exists_of_mem_right hx
    exact hxy.namesDistinct
  · rw [h.eq_map fun _ _ hxy => hxy.eq, strip, stripItems_eq_map]

/-- The builtin operators do not see absent members. -/
theorem indistinct : Indistinct (Relation.ReflGen StripsTo) := by
  refine .reflGen ?_ ?_ ?_ ?_ ?_
  · rintro v _ w ⟨-, rfl⟩
    exact (equal_strip_left v w).symm
  · rintro v w _ ⟨hw, rfl⟩
    exact (equal_strip_right v w hw).symm
  · rintro v _ ⟨-, rfl⟩
    exact (kind_strip v).symm
  · rintro v _ ⟨-, rfl⟩
    exact (isEmpty_strip v).symm
  · rintro v _ ⟨hv, rfl⟩
    rw [items?_strip]
    cases v with
    | array xs =>
      exact .some (.of_forall₂ (.of_map fun x hx => ⟨(itemsDistinct_iff xs).mp hv x hx, rfl⟩))
    | _ => exact .none

end StripsTo

end Value

open Value (StripsTo)

/-- Without the absent members of its entries, a stack gives the same answer to every condition, and
every path has its matches at the same locations in the same order, without their absent members
either. -/
theorem Condition.evaluate_strip {S : Scopes} (hS : ∀ v ∈ S, v.NamesDistinct) :
    (∀ (c : Condition) (t : Test), (c.prepare .builtin).result = .ok t →
      t.evaluate (S.map Value.strip) = t.evaluate S) ∧
    ∀ (p : Path) (m : Matcher), (p.prepare .builtin).result = .ok m →
      m.findAll (S.map Value.strip) =
        (m.findAll S).map fun x => ⟨x.path, x.value.strip⟩ := by
  have hstack : List.Forall₂ StripsTo S (S.map Value.strip) := .of_map fun v hv => ⟨hS v hv, rfl⟩
  have hsame := Condition.compositional_sameOn StripsTo.hereditary StripsTo.indistinct
  refine ⟨fun c t ht => ?_, fun p m hm => ?_⟩
  · exact (Condition.rel_of_prepare hsame c t ht (.inl StripsTo.array) _ _ hstack).symm
  · have hyields := Path.yields_of_prepare hsame p m hm
    have hfound : List.Forall₂ (Match.Related Eq StripsTo) (m.findAll S)
        (m.findAll (S.map Value.strip)) :=
      hyields.findAll_sameOn StripsTo.hereditary hstack (.inl StripsTo.array)
    refine hfound.eq_map fun x y hxy => ?_
    obtain ⟨hpath, hvalue⟩ := hxy
    rw [hpath, ← hvalue.eq]

/-- An array made of rows is equal to a literal that does not have their absent members. The place
of an absent row is kept, so that the other row is found under the same key either way. -/
theorem Condition.evaluate_strip_rows :
    let row : Value := .object [("x", .null), ("gone", .absent)]
    let v : Value := .object [("gone", .absent), ("rows", .array [.absent, row])]
    let rows : Path := [.relative 0, .named ["rows"] false, .all false]
    let c : Condition := .binary "is" false (.path rows none)
      (.value (.array [.object [("x", .null)]]))
    ∃ t m, (c.prepare .builtin).result = .ok t ∧ (rows.prepare .builtin).result = .ok m ∧
      t.evaluate [v.strip] = true ∧
      (m.findAll [v.strip]).map (·.path) = [[.index 0, .name "rows", .index 1]] := by
  intro row v rows c
  have hv : ∀ x ∈ [v], x.NamesDistinct := by
    simp [v, row, Value.NamesDistinct, Value.ItemsDistinct, Value.MembersDistinct]
  have hsame := Condition.evaluate_strip hv
  have hc : (c.prepare .builtin).result = .ok _ := rfl
  have hm : (rows.prepare .builtin).result = .ok _ := rfl
  refine ⟨_, _, hc, hm, (hsame.1 c _ hc).trans (by decide +kernel), ?_⟩
  rw [show [v.strip] = [v].map Value.strip from rfl, hsame.2 rows _ hm, List.map_map]
  decide +kernel

end TreeQuery
