import TreeQuery.Path.Basic

/-! What is equal to a path or condition. It is built in the same way from equal parts, and a
selector without a condition is equal only to itself. -/

namespace TreeQuery

theorem Selector.exists_filter_of_equal {c : Condition} {deep : Bool} {s' : Selector}
    (h : (filter c deep).equal s' = true) : ∃ c', s' = .filter c' deep ∧ c.equal c' = true := by
  cases s' with
  | filter c' deep' =>
    rw [equal, Bool.and_eq_true, beq_iff_eq] at h
    obtain ⟨hc, rfl⟩ := h
    exact ⟨c', rfl, hc⟩
  | _ => simp [equal] at h

theorem Selector.eq_of_equal {s s' : Selector} (hs : ∀ c deep, s ≠ .filter c deep)
    (h : s.equal s' = true) : s' = s := by
  cases s with
  | filter c deep => exact absurd rfl (hs c deep)
  | _ => cases s' <;> simp_all [equal]

theorem Selector.eq_nil_of_equalLists {p' : List Selector} (h : equalLists [] p' = true) :
    p' = [] := by
  cases p' with
  | nil => rfl
  | cons => simp [equalLists] at h

theorem Selector.exists_cons_of_equalLists {s : Selector} {p p' : List Selector}
    (h : equalLists (s :: p) p' = true) :
    ∃ s' q, p' = s' :: q ∧ s.equal s' = true ∧ equalLists p q = true := by
  cases p' with
  | nil => simp [equalLists] at h
  | cons s' q =>
    rw [equalLists, Bool.and_eq_true] at h
    exact ⟨s', q, rfl, h⟩

theorem Operand.exists_value_of_equal {v : Value} {x' : Operand}
    (h : (Operand.value v).equal x' = true) : ∃ w, x' = .value w ∧ v.equal w = true := by
  cases x' with
  | value w => exact ⟨w, rfl, by rwa [equal] at h⟩
  | path => simp [equal] at h

theorem Operand.exists_path_of_equal {p : List Selector} {q : Option Quantifier} {x' : Operand}
    (h : (Operand.path p q).equal x' = true) :
    ∃ p', x' = .path p' q ∧ Selector.equalLists p p' = true := by
  cases x' with
  | value => simp [equal] at h
  | path p' q' =>
    rw [equal, Bool.and_eq_true, beq_iff_eq] at h
    obtain ⟨hp, rfl⟩ := h
    exact ⟨p', rfl, hp⟩

namespace Condition

variable {l r c' : Condition} {op : String} {negate : Bool} {x y : Operand}

theorem exists_or_of_equal (h : (or l r).equal c' = true) :
    ∃ l' r', c' = .or l' r' ∧ l.equal l' = true ∧ r.equal r' = true := by
  cases c' with
  | or l' r' =>
    rw [equal, Bool.and_eq_true] at h
    exact ⟨l', r', rfl, h⟩
  | _ => simp [equal] at h

theorem exists_and_of_equal (h : (and l r).equal c' = true) :
    ∃ l' r', c' = .and l' r' ∧ l.equal l' = true ∧ r.equal r' = true := by
  cases c' with
  | and l' r' =>
    rw [equal, Bool.and_eq_true] at h
    exact ⟨l', r', rfl, h⟩
  | _ => simp [equal] at h

theorem exists_unary_of_equal (h : (unary op negate x).equal c' = true) :
    ∃ x', c' = .unary op negate x' ∧ x.equal x' = true := by
  cases c' with
  | unary op' negate' x' =>
    simp only [equal, Bool.and_eq_true, beq_iff_eq] at h
    obtain ⟨⟨rfl, rfl⟩, hx⟩ := h
    exact ⟨x', rfl, hx⟩
  | _ => simp [equal] at h

theorem exists_binary_of_equal (h : (binary op negate x y).equal c' = true) :
    ∃ x' y', c' = .binary op negate x' y' ∧ x.equal x' = true ∧ y.equal y' = true := by
  cases c' with
  | binary op' negate' x' y' =>
    simp only [equal, Bool.and_eq_true, beq_iff_eq] at h
    obtain ⟨⟨⟨rfl, rfl⟩, hx⟩, hy⟩ := h
    exact ⟨x', y', rfl, hx, hy⟩
  | _ => simp [equal] at h

end Condition

end TreeQuery
