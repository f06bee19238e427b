import TreeQuery.Proofs.Matching.Negation
import TreeQuery.Proofs.Matching.Sequences
import TreeQuery.Proofs.Matching.Unquantified
import TreeQuery.Proofs.Operator.Builtin

/-! Membership as equality with some value. What a path stands for is the array of all its values,
or its only value. To be a member of the array is to be equal to some value of the path; to be a
member of the only value is to be equal to some of its items, of which there are none where the
value is no array or is missing. A null is equal to a null but a member of nothing. -/

namespace TreeQuery

/-! ### The operators -/

namespace Operator

theorem isIn_array {v : Value} (hv : v ≠ .null) (items : List Value) :
    isIn v (some (.array items)) = items.any fun w => is v (some w) := by
  cases v with
  | null => exact absurd rfl hv
  | absent =>
    have hnone : (items.any fun w => is .absent (some w)) = false := by
      rw [List.any_eq_false]
      intro w _
      simp [is, Value.isPresent, Value.isAbsent]
    rw [hnone]
    rfl
  | _ => simp [isIn, Value.isPresent, Value.isAbsent, Value.isNull]

/-- Nothing is equal to an absent item. -/
theorem any_is_children (v : Value) (items : List Value) :
    ((Value.array items).children.any fun c => is v (some c.2)) =
      items.any fun w => is v (some w) := by
  have habsent : (!is v (some .absent)) = true := by
    simp [is, Value.isPresent, Value.isAbsent]
  rw [List.any_eq_not_all_not, Value.all_children_array (p := fun w => !is v (some w)) habsent,
    ← List.any_eq_not_all_not]

/-- A member of a value is equal to some item of its whole slice, whatever the value is. -/
theorem isIn_eq_any {v : Value} (hv : v ≠ .null) (w : Value) (scopes : Scopes) :
    isIn v (some w) =
      ((Step.slice none none none).findAll scopes w).any fun m => is v (some m.value) := by
  cases w with
  | array items =>
    rw [isIn_array hv, Step.findAll_slice_whole, ← any_is_children, Step.findAll_of_flat rfl,
      List.any_map]
    rfl
  | _ =>
    rw [isIn_some, Positions.findAll_slice_other none none none scopes rfl]
    rfl

end Operator

/-! ### Operands -/

/-- The values that an operand stands for, one by one. -/
def Resolved.values : Resolved → List Value
  | one v => [v]
  | each _ vs => vs

theorem Resolved.holds_congr {r : Resolved} {p q : Value → Bool}
    (h : ∀ v ∈ r.values, p v = q v) : r.holds p = r.holds q := by
  cases r with
  | one v => exact h v (List.mem_singleton_self v)
  | each quantifier vs =>
    have hsame : Permuted Eq vs vs := .refl (fun _ => rfl) vs
    cases quantifier with
    | some => exact hsame.any_eq fun v hv _ hw => hw ▸ h v hv
    | every => exact hsame.all_eq fun v hv _ hw => hw ▸ h v hv

namespace Matcher

/-- The path whose values are the members of what a path stands for. -/
def members (m : Matcher) : Matcher :=
  if m.isMulti then m else ⟨m.origin, m.steps ++ [.slice none none none]⟩

theorem members_of_isMulti {m : Matcher} (h : m.isMulti = true) : m.members = m := if_pos h

theorem members_of_not_isMulti {m : Matcher} (h : m.isMulti = false) :
    m.members = ⟨m.origin, m.steps ++ [.slice none none none]⟩ := if_neg (by simp [h])

theorem holds_isIn (m : Matcher) {v : Value} (hv : v ≠ .null) (scopes : Scopes) :
    (((Source.path m.origin m.steps none).resolve scopes).holds
      fun w => Operator.isIn v (some w)) =
    (m.members.values scopes).any fun w => Operator.is v (some w) := by
  cases hmulti : m.isMulti with
  | true =>
    rw [m.resolve_of_isMulti hmulti, members_of_isMulti hmulti]
    exact Operator.isIn_array hv _
  | false =>
    rw [members_of_not_isMulti hmulti, values, findAll_concat]
    rcases m.resolve_of_not_isMulti hmulti scopes with ⟨hnone, hr⟩ | ⟨x, hx, hr⟩
    · change (⟨m.origin, m.steps⟩ : Matcher).findAll scopes = [] at hnone
      rw [hr, hnone, Resolved.holds, Operator.isIn_some]
      rfl
    · change (⟨m.origin, m.steps⟩ : Matcher).findAll scopes = [x] at hx
      rw [hr, hx, Resolved.holds, Operator.isIn_eq_any hv x.value scopes]
      simp [Match.under, Step.findAll_eq_finds, List.any_map, Function.comp_def]

end Matcher

/-! ### Conditions -/

section

variable {ops : Registry}

/-- Adding the slice to a path adds its step to the matcher, except that a path without selectors
starts nowhere, with or without the slice. -/
theorem Path.exists_prepare_members {p : Path} {m : Matcher} (hm : (p.prepare ops).result = .ok m) :
    ∃ m', (Path.prepare ops (if m.isMulti then p else p ++ [.slice none none none])).result =
        .ok m' ∧ ∀ scopes, m'.values scopes = m.members.values scopes := by
  cases hmulti : m.isMulti with
  | true =>
    rw [Matcher.members_of_isMulti hmulti]
    exact ⟨m, hm, fun scopes => rfl⟩
  | false =>
    rw [Matcher.members_of_not_isMulti hmulti]
    cases p with
    | nil =>
      cases hm
      refine ⟨⟨none, []⟩, rfl, fun scopes => ?_⟩
      simp [Matcher.values, Matcher.findAll, Origin.start, Step.follow_none]
    | cons first rest =>
      exact ⟨_, prepare_concat_ok_iff.mpr ⟨m, hm, _, rfl, rfl⟩, fun scopes => rfl⟩

/-- To be a member of what a path stands for is to be equal to some value of the path, if it can
have several matches, and otherwise to some value of the path followed by the whole slice. Both
conditions can be prepared, and they hold on the same stacks, negated or not, as long as no value of
the left operand is null. -/
theorem Condition.evaluate_in (his : ops.get? "is" = some Operator.is)
    (hin : ops.get? "in" = some Operator.isIn) {x : Operand} {s : Source}
    (hs : (x.prepare ops).result = .ok s) {p : Path} {m : Matcher}
    (hm : (p.prepare ops).result = .ok m) (negate : Bool) :
    let members : Path := if m.isMulti then p else p ++ [.slice none none none]
    ∃ t t', ((binary "in" negate x (.path p none)).prepare ops).result = .ok t ∧
      ((binary "is" negate x (.path members (some .some))).prepare ops).result = .ok t' ∧
      ∀ scopes, (∀ v ∈ (s.resolve scopes).values, v ≠ .null) →
        t.evaluate scopes = t'.evaluate scopes := by
  intro members
  obtain ⟨m', hm', hvalues⟩ := Path.exists_prepare_members hm
  refine ⟨_, _, prepare_binary_ok_iff.mpr
      ⟨_, hin, s, hs, _, Operand.prepare_path_ok_iff.mpr ⟨m, hm, rfl⟩, rfl⟩,
    prepare_binary_ok_iff.mpr
      ⟨_, his, s, hs, _, Operand.prepare_path_ok_iff.mpr ⟨m', hm', rfl⟩, rfl⟩,
    fun scopes hnull => ?_⟩
  have hsome : (Source.path m'.origin m'.steps (some .some)).resolve scopes =
      .each .some (m.members.values scopes) := by
    rw [← hvalues, Source.resolve]
    rfl
  have hleft : ∀ v ∈ (s.resolve scopes).values,
      (((Source.path m.origin m.steps none).resolve scopes).holds
        fun w => Operator.isIn v (some w)) =
      (Resolved.each .some (m.members.values scopes)).holds fun w => Operator.is v (some w) :=
    fun v hv => m.holds_isIn (hnull v hv) scopes
  rw [Test.evaluate, Test.evaluate, hsome, Resolved.holds_congr hleft]

/-- Some value on the left is in a row that has an absent slot, and every value on the left is in
the array of all items of the row, which leaves the slot out. -/
theorem Condition.evaluate_in_row :
    let left (q : Quantifier) : Operand := .path [.root 0, .named ["l"] false, .all false] (some q)
    let row : Path := [.root 0, .named ["row"] false]
    let document : Value := .object [("l", .array [.bool true, .string ""]),
      ("row", .array [.string "", .absent, .bool true, .null])]
    (∃ t t', ((binary "in" false (left .some) (.path row none)).prepare .builtin).result = .ok t ∧
      ((binary "is" false (left .some)
        (.path (row ++ [.slice none none none]) (some .some))).prepare .builtin).result = .ok t' ∧
      t.evaluate [document] = true ∧ t.evaluate [document] = t'.evaluate [document]) ∧
    ∃ t t', ((binary "in" false (left .every) (.path (row ++ [.all false]) none)).prepare
        .builtin).result = .ok t ∧
      ((binary "is" false (left .every) (.path (row ++ [.all false]) (some .some))).prepare
        .builtin).result = .ok t' ∧
      t.evaluate [document] = true ∧ t.evaluate [document] = t'.evaluate [document] := by
  intro left row document
  have his : Registry.builtin.get? "is" = some Operator.is := rfl
  have hin : Registry.builtin.get? "in" = some Operator.isIn := rfl
  have hsome : ((left .some).prepare .builtin).result = .ok _ := rfl
  have hevery : ((left .every).prepare .builtin).result = .ok _ := rfl
  have hrow : (row.prepare .builtin).result = .ok _ := rfl
  have hall : (Path.prepare .builtin (row ++ [.all false])).result = .ok _ := rfl
  obtain ⟨t, t', ht, ht', h⟩ := evaluate_in his hin hsome hrow false
  obtain ⟨u, u', hu, hu', h'⟩ := evaluate_in his hin hevery hall false
  cases ht
  cases hu
  have hnull : ∀ v ∈ [Value.bool true, .string ""], v ≠ .null := by simp
  exact ⟨⟨_, t', rfl, ht', by decide +kernel, h [document] hnull⟩,
    _, u', rfl, hu', by decide +kernel, h' [document] hnull⟩

end

end TreeQuery
