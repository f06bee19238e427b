import TreeQuery.Proofs.Matching.Preparation
import TreeQuery.Proofs.Matching.TwoRuns

/-! Paths with at most one match. A path whose selectors lead from a value to at most one other is
prepared to steps that find at most one match from each, and so has at most one match itself. -/

namespace TreeQuery

/-- Whether a selector can lead from one value to several. -/
def Selector.isMulti : Selector → Bool
  | .root _ | .relative _ => false
  | .named names deep => deep || 1 < names.length
  | .elements positions => 1 < positions.length
  | .slice .. | .all _ | .filter .. => true

/-- Whether a path can have several matches: its first selector leads to one value at most. -/
def Path.isMulti (p : Path) : Bool := p.tail.any Selector.isMulti

section

variable {rel : Condition → Test → Prop}

theorem Selector.Yields.isMulti_eq {s : Selector} {step : Step} (h : s.Yields rel step) :
    s.isMulti = step.isMulti := by
  cases h with
  | scope hs => cases s <;> first | rfl | cases hs
  | _ => rfl

theorem Path.Yields.isMulti_eq {p : Path} {m : Matcher} (h : p.Yields rel m) :
    p.isMulti = m.isMulti :=
  (Permuted.of_forall₂ h.steps).any_eq fun _ _ _ hs => hs.isMulti_eq

end

theorem Value.length_childrenAt_le (v : Value) (keys : List Key) :
    (v.childrenAt keys).length ≤ keys.length := List.length_filterMap_le _ _

namespace Step

theorem length_pick_le_one {step : Step} (h : step.isMulti = false) (scopes : Scopes)
    (v : Value) : (step.pick scopes v).length ≤ 1 := by
  cases step with
  | named names deep =>
    have hnames : names.length ≤ 1 := by simp [isMulti] at h; omega
    rw [pick, Search.namedChildren_eq]
    exact Nat.le_trans (v.length_childrenAt_le _) (by simpa using hnames)
  | elements positions =>
    have hpositions : positions.length ≤ 1 := by simp [isMulti] at h; omega
    rw [pick, Search.elements_eq]
    refine Nat.le_trans (v.length_childrenAt_le _) ?_
    rw [List.length_map]
    cases v.length? with
    | none => simp
    | some n => exact Nat.le_trans (List.length_filterMap_le _ _) hpositions
  | never => simp [pick]
  | _ => simp [isMulti] at h

theorem length_finds_le_one {step : Step} (h : step.isMulti = false) (scopes : Scopes)
    (v : Value) : (step.finds scopes v).length ≤ 1 := by
  have hdeep : step.isDeep = false := by
    cases step <;> simp [isMulti, isDeep] at h ⊢
    exact h.1
  rw [finds, hdeep]
  simpa using length_pick_le_one h scopes v

theorem length_follow_le_one {steps : List Step} (h : steps.any isMulti = false)
    (scopes : Scopes) {ms : List Match} (hms : ms.length ≤ 1) :
    (follow steps scopes ms).length ≤ 1 := by
  induction steps generalizing ms with
  | nil => simpa using hms
  | cons step steps ih =>
    rw [List.any_cons, Bool.or_eq_false_iff] at h
    rw [follow_cons]
    refine ih h.2 ?_
    match ms, hms with
    | [], _ => simp
    | [m], _ => simpa using length_finds_le_one h.1 scopes m.value

end Step

/-- A path that cannot have several matches has one at most. -/
theorem Matcher.length_findAll_le_one {m : Matcher} (h : m.isMulti = false) (scopes : Scopes) :
    (m.findAll scopes).length ≤ 1 :=
  Step.length_follow_le_one h scopes Option.length_toList_le

end TreeQuery
