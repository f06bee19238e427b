import TreeQuery.Proofs.Matching.Agreement
import TreeQuery.Proofs.Matching.Multiplicity

/-! Conditions that do not see the order of members. Two objects may be equal and hold their members
in different orders, so that a path which can match several times finds the same values in different
orders below them. A condition sees that only where it makes an array of these values and compares
the array with something. All other conditions say the same of equal stacks. -/

namespace TreeQuery

/-- Whether the operand stands for the array of the values of its path. -/
def Operand.isCollected : Operand → Bool
  | .value _ => false
  | .path p none => Path.isMulti p
  | .path _ (some _) => false

mutual

/-- Nowhere in the selector is an array of the values of a path compared. -/
def Selector.OrderInsensitive : Selector → Prop
  | .filter c _ => c.OrderInsensitive
  | _ => True

def Selector.OrderInsensitiveAll : List Selector → Prop
  | [] => True
  | s :: p => s.OrderInsensitive ∧ Selector.OrderInsensitiveAll p

def Operand.OrderInsensitive : Operand → Prop
  | .value _ => True
  | .path p _ => Selector.OrderInsensitiveAll p

/-- No array of the values of a path is an operand of `is` or the left operand of `in`, also inside
filters. -/
def Condition.OrderInsensitive : Condition → Prop
  | .or l r => l.OrderInsensitive ∧ r.OrderInsensitive
  | .and l r => l.OrderInsensitive ∧ r.OrderInsensitive
  | .unary op _ x => (op = "is" ∨ op = "in" → x.isCollected = false) ∧ x.OrderInsensitive
  | .binary op _ l r =>
    (op = "is" ∨ op = "in" → l.isCollected = false) ∧ (op = "is" → r.isCollected = false) ∧
      l.OrderInsensitive ∧ r.OrderInsensitive

end

/-- All filters of the path are order-insensitive. -/
def Path.OrderInsensitive (p : Path) : Prop := Selector.OrderInsensitiveAll p

theorem Selector.orderInsensitiveAll_iff (p : List Selector) :
    Selector.OrderInsensitiveAll p ↔ ∀ s ∈ p, s.OrderInsensitive := by
  induction p with
  | nil => simp [Selector.OrderInsensitiveAll]
  | cons s p ih => simp [Selector.OrderInsensitiveAll, ih]

theorem Path.OrderInsensitive.of_mem_tail {p : Path} (hp : p.OrderInsensitive) {c : Condition}
    {deep : Bool} (h : .filter c deep ∈ p.tail) : c.OrderInsensitive :=
  (Selector.orderInsensitiveAll_iff p).mp hp (.filter c deep) (List.mem_of_mem_tail h)

/-! ### Related stacks -/

/-- Lists of related values make related arrays. -/
def ArraysRelated (L : Correspondence) (r : Value → Value → Prop) : Prop :=
  ∀ vs ws, L.holds r vs ws → r (.array vs) (.array ws)

/-- The test says the same on any two stacks of related values, if related arrays can be made of
related values or none need be. -/
def Condition.SameOn (L : Correspondence) (r : Value → Value → Prop) (c : Condition) (t : Test) :
    Prop :=
  ArraysRelated L r ∨ c.OrderInsensitive →
    ∀ S S', List.Forall₂ r S S' → t.evaluate S = t.evaluate S'

section

variable {L : Correspondence} {r : Value → Value → Prop} (hr : Hereditary L r)
  {S S' : Scopes} (hS : List.Forall₂ r S S')

include hr hS

theorem Path.Yields.findAll_sameOn {p : Path} {m : Matcher}
    (hm : p.Yields (Condition.SameOn L r) m) (hp : ArraysRelated L r ∨ p.OrderInsensitive) :
    L.holds (Match.Related Eq r) (m.findAll S) (m.findAll S') := by
  refine hr.findAll hm (fun c t deep hc hct xs ys _ hxy => ?_) hS
  exact hct (hp.imp_right fun hp => hp.of_mem_tail hc) _ _ (List.rel_append hS hxy)

/-- An operand stands for related values on both sides, unless it stands for arrays of values that
correspond. -/
theorem Operand.Yields.resolve_cases {x : Operand} {s : Source}
    (hx : x.Yields (Condition.SameOn L r) s) (h : ArraysRelated L r ∨ x.OrderInsensitive) :
    Resolved.Related (Relation.ReflGen r) (s.resolve S) (s.resolve S') ∨
      x.isCollected = true ∧ ∃ vs ws, s.resolve S = .one (.array vs) ∧
        s.resolve S' = .one (.array ws) ∧ L.holds r vs ws := by
  cases hx with
  | value v => exact .inl (.one .refl)
  | @path p m hm q =>
    have hvalues : L.holds r (m.values S) (m.values S') :=
      L.map (hm.findAll_sameOn hr hS h) fun _ _ hxy => hxy.2
    cases q with
    | some q => exact .inl (.each q ((L.permuted hvalues).mono fun _ _ => .single))
    | none =>
      rw [m.resolve_eq, m.resolve_eq]
      cases hmulti : m.isMulti with
      | true => exact .inr ⟨hm.isMulti_eq.trans hmulti, _, _, rfl, rfl, hvalues⟩
      | false =>
        -- there is one value at most, so that its place in the list does not matter
        have hone : (m.values S).length ≤ 1 := by
          simpa [Matcher.values] using Matcher.length_findAll_le_one hmulti S
        exact .inl (.one (((L.permuted hvalues).forall₂_of_length_le_one hone).headD _))

end

section

variable {L : Correspondence} {r : Value → Value → Prop} (hr : Hereditary L r)
  {x : Operand} {s : Source} (hx : x.Yields (Condition.SameOn L r) s)
  {S S' : Scopes} (hS : List.Forall₂ r S S')

include hr hx hS

/-- Up to the order of items, an operand stands for related values on both sides. -/
theorem Operand.Yields.resolve_upToOrder (h : ArraysRelated L r ∨ x.OrderInsensitive) :
    Resolved.Related (Value.UpToOrder (Relation.ReflGen r)) (s.resolve S) (s.resolve S') := by
  rcases hx.resolve_cases hr hS h with h | ⟨-, vs, ws, hv, hw, hvalues⟩
  · exact h.mono fun _ _ => .inl
  · rw [hv, hw]
    exact .one (.inr ⟨vs, ws, rfl, rfl, (L.permuted hvalues).mono fun _ _ => .single⟩)

/-- If that array is not compared or arrays are related, an operand stands for related values. -/
theorem Operand.Yields.resolve_related (h : ArraysRelated L r ∨ x.OrderInsensitive)
    (hcollected : ArraysRelated L r ∨ x.isCollected = false) :
    Resolved.Related (Relation.ReflGen r) (s.resolve S) (s.resolve S') := by
  rcases hx.resolve_cases hr hS h with h | ⟨hx, vs, ws, hv, hw, hvalues⟩
  · exact h
  · rw [hv, hw]
    rcases hcollected with harrays | hnot
    · exact .one (.single (harrays vs ws hvalues))
    · rw [hx] at hnot
      exact nomatch hnot

end

section

variable {L : Correspondence} {r : Value → Value → Prop} (hr : Hereditary L r)
  (hq : Value.Indistinct (Relation.ReflGen r))

include hr hq

/-- Conditions on the builtin operators say the same on stacks of related values. -/
theorem Condition.compositional_sameOn :
    Condition.Compositional .builtin (Condition.SameOn L r) where
  or hl hr h S S' hS := by
    rw [Test.evaluate, Test.evaluate, hl (h.imp_right And.left) S S' hS,
      hr (h.imp_right And.right) S S' hS]
  and hl hr h S S' hS := by
    rw [Test.evaluate, Test.evaluate, hl (h.imp_right And.left) S S' hS,
      hr (h.imp_right And.right) S S' hS]
  unary {name op negate x s} hop hx h S S' hS := by
    rw [Test.evaluate, Test.evaluate]
    refine congrArg (· != negate) ?_
    have hloose := hx.resolve_upToOrder hr hS (h.imp_right And.right)
    refine hloose.holds_eq fun v w hvw => ?_
    -- without a second operand only emptiness can hold
    rcases Registry.get?_builtin hop with ⟨-, rfl⟩ | ⟨-, rfl⟩ | ⟨-, rfl⟩
    · rfl
    · rfl
    · exact hq.empty_eq hvw none none
  binary {name op negate x y s u} hop hx hy h S S' hS := by
    rw [Test.evaluate, Test.evaluate]
    refine congrArg (· != negate) ?_
    have hxs := h.imp_right (·.2.2.1)
    have hys := h.imp_right (·.2.2.2)
    rcases Registry.get?_builtin hop with ⟨rfl, rfl⟩ | ⟨rfl, rfl⟩ | ⟨-, rfl⟩
    · have hleft := hx.resolve_related hr hS hxs (h.imp_right (·.1 (.inl rfl)))
      have hright := hy.resolve_related hr hS hys (h.imp_right (·.2.1 rfl))
      exact hleft.holds_eq fun _ _ hv => hright.holds_eq fun _ _ hw => hq.is_eq hv hw
    · have hleft := hx.resolve_related hr hS hxs (h.imp_right (·.1 (.inr rfl)))
      have hright := hy.resolve_upToOrder hr hS hys
      exact hleft.holds_eq fun _ _ hv => hright.holds_eq fun _ _ hw => hq.isIn_eq hv hw
    · have hleft := hx.resolve_upToOrder hr hS hxs
      have hright := hy.resolve_upToOrder hr hS hys
      exact hleft.holds_eq fun _ _ hv => hright.holds_eq fun _ _ _ => hq.empty_eq hv _ _

end

/-! ### Equal stacks -/

open Value (Agree)

/-- On stacks of equal values an order-insensitive condition says the same, and an
order-insensitive path finds equal values at the same locations, each as often, though not always in the same order. -/
theorem Condition.evaluate_orderInsensitive {S S' : Scopes} (hS : ∀ v ∈ S, v.NamesDistinct)
    (hS' : ∀ v ∈ S', v.NamesDistinct)
    (h : List.Forall₂ (fun v w => Value.equal v w = true) S S') :
    (∀ (c : Condition) (t : Test), c.OrderInsensitive → (c.prepare .builtin).result = .ok t →
      t.evaluate S = t.evaluate S') ∧
    ∀ (p : Path) (m : Matcher), p.OrderInsensitive → (p.prepare .builtin).result = .ok m →
      ∃ found, (m.findAll S).Perm found ∧
        List.Forall₂ (fun x y => x.path = y.path ∧ Value.equal x.value y.value = true) found
          (m.findAll S') := by
  have hagree : List.Forall₂ Agree S S' := by
    rw [List.forall₂_iff_get] at h ⊢
    exact ⟨h.1, fun i hi hj => ⟨hS _ (List.get_mem ..), hS' _ (List.get_mem ..), h.2 i hi hj⟩⟩
  have hsame := Condition.compositional_sameOn Agree.hereditary Agree.indistinct
  refine ⟨fun c t hc ht => ?_, fun p m hp hm => ?_⟩
  · exact Condition.rel_of_prepare hsame c t ht (.inr hc) S S' hagree
  · have hyields := Path.yields_of_prepare hsame p m hm
    have hfound := hyields.findAll_sameOn Agree.hereditary hagree (.inr hp)
    exact hfound.mono fun x y hxy => ⟨hxy.1, hxy.2.equal⟩

/-- Members in another order and one that holds nothing: a path finds the same values in another
order, and `true` among the descendants either way. -/
theorem Condition.evaluate_orderInsensitive_members :
    let v : Value :=
      .object [("name", .string "x"), ("gone", .absent), ("tags", .array [.bool true])]
    let w : Value := .object [("tags", .array [.bool true]), ("name", .string "x")]
    let below : Operand := .path [.relative 0, .all true] none
    let p : Path := [.root 0, .filter (.unary "empty" true (.path [.relative 0] none)) false]
    ∃ t m, ((Condition.binary "in" false (.value (.bool true)) below).prepare .builtin).result =
        .ok t ∧ (p.prepare .builtin).result = .ok m ∧ t.evaluate [v] = true ∧
      (m.findAll [v]).map (·.path) ≠ (m.findAll [w]).map (·.path) ∧
      ∃ found, (m.findAll [v]).Perm found ∧
        List.Forall₂ (fun x y => x.path = y.path ∧ Value.equal x.value y.value = true) found
          (m.findAll [w]) := by
  intro v w below p
  have hv : ∀ x ∈ [v], x.NamesDistinct := by
    simp [v, Value.NamesDistinct, Value.ItemsDistinct, Value.MembersDistinct]
  have hw : ∀ x ∈ [w], x.NamesDistinct := by
    simp [w, Value.NamesDistinct, Value.ItemsDistinct, Value.MembersDistinct]
  have hsame := Condition.evaluate_orderInsensitive hv hw (.cons (by decide +kernel) .nil)
  have hc : ((Condition.binary "in" false (.value (.bool true)) below).prepare .builtin).result =
    .ok _ := rfl
  have hm : (p.prepare .builtin).result = .ok _ := rfl
  refine ⟨_, _, hc, hm, ?_, by decide +kernel, ?_⟩
  · rw [hsame.1 _ _ ?_ hc]
    · decide +kernel
    · simp [below, Condition.OrderInsensitive, Operand.isCollected, Operand.OrderInsensitive,
        Selector.OrderInsensitiveAll, Selector.OrderInsensitive]
  · refine hsame.2 p _ ?_ hm
    simp [p, Path.OrderInsensitive, Condition.OrderInsensitive, Operand.isCollected,
      Operand.OrderInsensitive, Selector.OrderInsensitiveAll, Selector.OrderInsensitive]

end TreeQuery
