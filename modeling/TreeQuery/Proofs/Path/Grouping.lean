import TreeQuery.Path.Printer
import TreeQuery.Proofs.Path.Equality

/-! Chains of one connective. A text shows the parts of a chain in their order, and not how they
were grouped; what it is read as is grouped to the left. Regrouping a condition to the left goes
through all its chains, those inside filters included, and changes no condition in which they are
grouped to the left already. -/

namespace TreeQuery

inductive Connective where
  | or
  | and
  deriving DecidableEq

namespace Connective

def apply : Connective → Condition → Condition → Condition
  | or => .or
  | and => .and

/-- Whether the condition has this connective outermost. -/
def heads : Connective → Condition → Bool
  | or, .or _ _ => true
  | and, .and _ _ => true
  | _, _ => false

/-- The conditions that a chain of this connective joins. -/
def parts : Connective → Condition → List Condition
  | or, .or l r => or.parts l ++ or.parts r
  | and, .and l r => and.parts l ++ and.parts r
  | _, c => [c]

/-- Joins two chains, of which the second is grouped to the left, into one that is. -/
def join : Connective → Condition → Condition → Condition
  | or, l, .or a b => .or (or.join l a) b
  | and, l, .and a b => .and (and.join l a) b
  | k, l, r => k.apply l r

end Connective

/-! ### Regrouping -/

mutual

def Selector.regrouped : Selector → Selector
  | .filter c deep => .filter c.regrouped deep
  | s => s

def Selector.regroupedAll : List Selector → List Selector
  | [] => []
  | s :: p => s.regrouped :: Selector.regroupedAll p

def Operand.regrouped : Operand → Operand
  | .value v => .value v
  | .path p quantifier => .path (Selector.regroupedAll p) quantifier

/-- The condition with all its chains grouped to the left. -/
def Condition.regrouped : Condition → Condition
  | .or l r => Connective.or.join l.regrouped r.regrouped
  | .and l r => Connective.and.join l.regrouped r.regrouped
  | .unary op negate x => .unary op negate x.regrouped
  | .binary op negate l r => .binary op negate l.regrouped r.regrouped

end

/-- The path with all chains in its filters grouped to the left. -/
def Path.regrouped (p : Path) : Path := Selector.regroupedAll p

mutual

def Selector.LeftGrouped : Selector → Prop
  | .filter c _ => c.LeftGrouped
  | _ => True

def Selector.LeftGroupedAll : List Selector → Prop
  | [] => True
  | s :: p => s.LeftGrouped ∧ Selector.LeftGroupedAll p

def Operand.LeftGrouped : Operand → Prop
  | .value _ => True
  | .path p _ => Selector.LeftGroupedAll p

/-- No disjunction is the right side of a disjunction and no conjunction that of a conjunction. -/
def Condition.LeftGrouped : Condition → Prop
  | .or l r => l.LeftGrouped ∧ r.LeftGrouped ∧ Connective.or.heads r = false
  | .and l r => l.LeftGrouped ∧ r.LeftGrouped ∧ Connective.and.heads r = false
  | .unary _ _ x => x.LeftGrouped
  | .binary _ _ l r => l.LeftGrouped ∧ r.LeftGrouped

end

def Path.LeftGrouped (p : Path) : Prop := Selector.LeftGroupedAll p

namespace Connective

variable (k : Connective)

theorem join_of_not_heads {r : Condition} (h : k.heads r = false) (l : Condition) :
    k.join l r = k.apply l r := by
  cases k <;> cases r <;> first | rfl | simp [heads] at h

theorem join_apply (l a b : Condition) : k.join l (k.apply a b) = k.apply (k.join l a) b := by
  cases k <;> rfl

theorem parts_apply (l r : Condition) : k.parts (k.apply l r) = k.parts l ++ k.parts r := by
  cases k <;> rfl

theorem parts_of_not_heads {c : Condition} (h : k.heads c = false) : k.parts c = [c] := by
  cases k <;> cases c <;> first | rfl | simp [heads] at h

theorem regrouped_apply (l r : Condition) :
    (k.apply l r).regrouped = k.join l.regrouped r.regrouped := by
  cases k
  · rw [apply, Condition.regrouped]
  · rw [apply, Condition.regrouped]

/-- Induction over a chain. -/
theorem chain_induction {motive : Condition → Prop}
    (part : ∀ c, k.heads c = false → motive c)
    (chain : ∀ l r, motive l → motive r → motive (k.apply l r)) (c : Condition) : motive c := by
  cases c with
  | or l r =>
    have hl := chain_induction part chain l
    have hr := chain_induction part chain r
    cases k with
    | or => exact chain l r hl hr
    | and => exact part (.or l r) rfl
  | and l r =>
    have hl := chain_induction part chain l
    have hr := chain_induction part chain r
    cases k with
    | or => exact part (.and l r) rfl
    | and => exact chain l r hl hr
  | unary op negate x => exact part _ (by cases k <;> rfl)
  | binary op negate l r => exact part _ (by cases k <;> rfl)

theorem not_heads_of_mem_parts {c p : Condition} (h : p ∈ k.parts c) : k.heads p = false := by
  induction c using k.chain_induction with
  | part c hc =>
    rw [k.parts_of_not_heads hc, List.mem_singleton] at h
    rwa [h]
  | chain l r ihl ihr =>
    rw [k.parts_apply, List.mem_append] at h
    exact h.elim ihl ihr

theorem exists_join (l r : Condition) : ∃ a b, k.join l r = k.apply a b := by
  cases k <;> cases r <;> exact ⟨_, _, rfl⟩

theorem heads_regrouped (c : Condition) : k.heads c.regrouped = k.heads c := by
  cases c with
  | or l r =>
    obtain ⟨a, b, h⟩ := or.exists_join l.regrouped r.regrouped
    rw [Condition.regrouped, h]
    cases k <;> rfl
  | and l r =>
    obtain ⟨a, b, h⟩ := and.exists_join l.regrouped r.regrouped
    rw [Condition.regrouped, h]
    cases k <;> rfl
  | _ => cases k <;> rfl

/-- What a text with these parts is read as: the chain of them, grouped to the left. -/
theorem regrouped_eq_foldl (c : Condition) : ∃ first more, k.parts c = first :: more ∧
    c.regrouped = (more.map Condition.regrouped).foldl k.apply first.regrouped := by
  induction c using k.chain_induction with
  | part c hc => exact ⟨c, [], k.parts_of_not_heads hc, rfl⟩
  | chain l r ihl ihr =>
    obtain ⟨f, fs, hf, hl⟩ := ihl
    obtain ⟨g, gs, hg, hr⟩ := ihr
    have hjoin : ∀ (gs : List Condition) (l a : Condition),
        k.join l (gs.foldl k.apply a) = gs.foldl k.apply (k.join l a) := by
      intro gs
      induction gs with
      | nil => exact fun l a => rfl
      | cons b gs ih =>
        intro l a
        rw [List.foldl_cons, List.foldl_cons, ih, k.join_apply]
    have hhead : k.heads g.regrouped = false := by
      rw [k.heads_regrouped]
      exact k.not_heads_of_mem_parts (c := r) (by simp [hg])
    refine ⟨f, fs ++ g :: gs, by rw [k.parts_apply, hf, hg, List.cons_append], ?_⟩
    rw [k.regrouped_apply, hr, hjoin, k.join_of_not_heads hhead, hl, List.map_append,
      List.foldl_append, List.map_cons, List.foldl_cons]

end Connective

mutual

theorem Selector.regrouped_of_leftGrouped : ∀ {s : Selector}, s.LeftGrouped → s.regrouped = s
  | .filter _ _, h => by rw [Selector.regrouped, Condition.regrouped_of_leftGrouped h]
  | .root _, _ | .relative _, _ | .named _ _, _ | .elements _, _ | .slice _ _ _, _ | .all _, _ =>
    rfl

theorem Selector.regroupedAll_of_leftGrouped :
    ∀ {p : List Selector}, Selector.LeftGroupedAll p → Selector.regroupedAll p = p
  | [], _ => rfl
  | _ :: _, h => by
    rw [Selector.regroupedAll, Selector.regrouped_of_leftGrouped h.1,
      Selector.regroupedAll_of_leftGrouped h.2]

theorem Operand.regrouped_of_leftGrouped : ∀ {x : Operand}, x.LeftGrouped → x.regrouped = x
  | .value _, _ => rfl
  | .path _ _, h => by rw [Operand.regrouped, Selector.regroupedAll_of_leftGrouped h]

/-- What is grouped to the left is its own regrouping. -/
theorem Condition.regrouped_of_leftGrouped :
    ∀ {c : Condition}, c.LeftGrouped → c.regrouped = c
  | .or l r, h => by
    rw [Condition.regrouped, Condition.regrouped_of_leftGrouped h.1,
      Condition.regrouped_of_leftGrouped h.2.1, Connective.or.join_of_not_heads h.2.2,
      Connective.apply]
  | .and l r, h => by
    rw [Condition.regrouped, Condition.regrouped_of_leftGrouped h.1,
      Condition.regrouped_of_leftGrouped h.2.1, Connective.and.join_of_not_heads h.2.2,
      Connective.apply]
  | .unary .., h => by rw [Condition.regrouped, Operand.regrouped_of_leftGrouped h]
  | .binary .., h => by
    rw [Condition.regrouped, Operand.regrouped_of_leftGrouped h.1,
      Operand.regrouped_of_leftGrouped h.2]

end

theorem Connective.leftGrouped_join (k : Connective) {l r : Condition} (hl : l.LeftGrouped)
    (hr : r.LeftGrouped) : (k.join l r).LeftGrouped := by
  have happly : ∀ a b : Condition, (k.apply a b).LeftGrouped ↔
      a.LeftGrouped ∧ b.LeftGrouped ∧ k.heads b = false := by
    cases k <;> exact fun a b => .rfl
  induction r using k.chain_induction with
  | part r hk =>
    rw [k.join_of_not_heads hk, happly]
    exact ⟨hl, hr, hk⟩
  | chain a b iha ihb =>
    obtain ⟨ha, hb, hk⟩ := (happly a b).mp hr
    rw [k.join_apply, happly]
    exact ⟨iha ha, hb, hk⟩

mutual

theorem Selector.leftGrouped_regrouped : ∀ s : Selector, s.regrouped.LeftGrouped
  | .filter c _ => Condition.leftGrouped_regrouped c
  | .root _ | .relative _ | .named _ _ | .elements _ | .slice _ _ _ | .all _ => trivial

theorem Selector.leftGrouped_regroupedAll :
    ∀ p : List Selector, Selector.LeftGroupedAll (Selector.regroupedAll p)
  | [] => trivial
  | s :: p => ⟨s.leftGrouped_regrouped, Selector.leftGrouped_regroupedAll p⟩

theorem Operand.leftGrouped_regrouped : ∀ x : Operand, x.regrouped.LeftGrouped
  | .value _ => trivial
  | .path p _ => Selector.leftGrouped_regroupedAll p

/-- Regrouping leaves nothing to regroup. -/
theorem Condition.leftGrouped_regrouped : ∀ c : Condition, c.regrouped.LeftGrouped
  | .or l r => Connective.or.leftGrouped_join l.leftGrouped_regrouped r.leftGrouped_regrouped
  | .and l r => Connective.and.leftGrouped_join l.leftGrouped_regrouped r.leftGrouped_regrouped
  | .unary _ _ x => x.leftGrouped_regrouped
  | .binary _ _ l r => ⟨l.leftGrouped_regrouped, r.leftGrouped_regrouped⟩

end

/-! ### Equal conditions -/

theorem Connective.heads_of_equal (k : Connective) {c c' : Condition} (h : c.equal c' = true) :
    k.heads c = k.heads c' := by
  cases c with
  | or l r =>
    obtain ⟨l', r', rfl, -⟩ := Condition.exists_or_of_equal h
    cases k <;> rfl
  | and l r =>
    obtain ⟨l', r', rfl, -⟩ := Condition.exists_and_of_equal h
    cases k <;> rfl
  | unary op negate x =>
    obtain ⟨x', rfl, -⟩ := Condition.exists_unary_of_equal h
    cases k <;> rfl
  | binary op negate x y =>
    obtain ⟨x', y', rfl, -⟩ := Condition.exists_binary_of_equal h
    cases k <;> rfl

mutual

theorem Selector.leftGrouped_of_equal :
    ∀ {s s' : Selector}, s.equal s' = true → s'.LeftGrouped → s.LeftGrouped
  | .filter _ _, _, h, hs => by
    obtain ⟨c', rfl, hc⟩ := Selector.exists_filter_of_equal h
    exact Condition.leftGrouped_of_equal hc hs
  | .root _, _, _, _ | .relative _, _, _, _ | .named _ _, _, _, _ | .elements _, _, _, _
  | .slice _ _ _, _, _, _ | .all _, _, _, _ => trivial

theorem Selector.leftGroupedAll_of_equal : ∀ {p p' : List Selector},
    Selector.equalLists p p' = true → Selector.LeftGroupedAll p' → Selector.LeftGroupedAll p
  | [], _, _, _ => trivial
  | _ :: _, _, h, hp => by
    obtain ⟨s', p', rfl, hs, hmore⟩ := Selector.exists_cons_of_equalLists h
    exact ⟨Selector.leftGrouped_of_equal hs hp.1, Selector.leftGroupedAll_of_equal hmore hp.2⟩

theorem Operand.leftGrouped_of_equal :
    ∀ {x x' : Operand}, x.equal x' = true → x'.LeftGrouped → x.LeftGrouped
  | .value _, _, _, _ => trivial
  | .path _ _, _, h, hx => by
    obtain ⟨p', rfl, hp⟩ := Operand.exists_path_of_equal h
    exact Selector.leftGroupedAll_of_equal hp hx

/-- Literals have no part in grouping. -/
theorem Condition.leftGrouped_of_equal :
    ∀ {c c' : Condition}, c.equal c' = true → c'.LeftGrouped → c.LeftGrouped
  | .or _ _, _, h, hc => by
    obtain ⟨l', r', rfl, hl, hr⟩ := Condition.exists_or_of_equal h
    obtain ⟨hleft, hright, hheads⟩ := hc
    exact ⟨Condition.leftGrouped_of_equal hl hleft, Condition.leftGrouped_of_equal hr hright,
      (Connective.or.heads_of_equal hr).trans hheads⟩
  | .and _ _, _, h, hc => by
    obtain ⟨l', r', rfl, hl, hr⟩ := Condition.exists_and_of_equal h
    obtain ⟨hleft, hright, hheads⟩ := hc
    exact ⟨Condition.leftGrouped_of_equal hl hleft, Condition.leftGrouped_of_equal hr hright,
      (Connective.and.heads_of_equal hr).trans hheads⟩
  | .unary _ _ _, _, h, hc => by
    obtain ⟨x', rfl, hx⟩ := Condition.exists_unary_of_equal h
    exact Operand.leftGrouped_of_equal hx hc
  | .binary _ _ _ _, _, h, hc => by
    obtain ⟨x', y', rfl, hx, hy⟩ := Condition.exists_binary_of_equal h
    exact ⟨Operand.leftGrouped_of_equal hx hc.1, Operand.leftGrouped_of_equal hy hc.2⟩

end

/-- What is equal to a regrouped condition is grouped to the left. -/
theorem Condition.leftGrouped_of_equal_regrouped {c c' : Condition}
    (h : c'.equal c.regrouped = true) : c'.LeftGrouped :=
  Condition.leftGrouped_of_equal h c.leftGrouped_regrouped

theorem Path.leftGrouped_of_equal_regrouped {p p' : Path} (h : p'.equal p.regrouped = true) :
    p'.LeftGrouped :=
  Selector.leftGroupedAll_of_equal h (Selector.leftGrouped_regroupedAll p)

end TreeQuery
