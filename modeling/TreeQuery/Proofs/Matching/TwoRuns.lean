import TreeQuery.Proofs.Correspondence
import TreeQuery.Proofs.Matching.Preparation
import TreeQuery.Proofs.Matching.Found
import TreeQuery.Proofs.Value.Names

/-! Two runs of one path. Values are related by a relation that hands itself down to children. If
the tests of filters come out alike on both sides, a step finds related values at the same places,
and so do several steps one after the other. Whether both sides find them in the same order depends
on whether related values have their children in the same order. -/

namespace TreeQuery

namespace Value

/-- The same key with related values under it. -/
def SameKey (r : Value → Value → Prop) (c d : Key × Value) : Prop := c.1 = d.1 ∧ r c.2 d.2

/-- The length of an array. -/
def length? (v : Value) : Option Nat := v.items?.map List.length

/-- What a value has under some keys, in the order asked for. -/
def childrenAt (v : Value) (keys : List Key) : List (Key × Value) :=
  keys.filterMap fun k => (v.child? k).map (k, ·)

end Value

open Value (SameKey childrenAt)

theorem Search.namedChildren_eq (names : List String) (v : Value) :
    namedChildren names v = v.childrenAt (names.map .name) := by
  simp only [namedChildren, childrenAt, List.filterMap_map]
  rfl

theorem Search.itemsAt_eq (positions : List Nat) (items : List Value) :
    itemsAt positions items = (Value.array items).childrenAt (positions.map .index) := by
  simp [itemsAt, childrenAt, List.filterMap_map, Value.child?, Value.element?, Value.items?]

theorem Search.elements_eq (positions : List Int) (v : Value) :
    elements positions v = v.childrenAt
      ((v.length?.elim [] fun n => positions.filterMap (Positions.single? n)).map .index) := by
  cases v with
  | array items => exact itemsAt_eq _ items
  | _ => rfl

theorem Search.slice_eq (start stop step : Option Int) (v : Value) :
    slice start stop step v = v.childrenAt
      ((v.length?.elim [] fun n => Positions.slice n start stop step).map .index) := by
  cases v with
  | array items => exact itemsAt_eq _ items
  | _ => rfl

/-- The position of the scope entry at an origin in a stack of `n` entries. -/
def Origin.position? (n : Nat) : Origin → Option Nat
  | .root index => some index
  | .relative index => if index < n then some (n - 1 - index) else none

theorem Origin.select_eq (o : Origin) (scopes : Scopes) :
    o.select scopes = (o.position? scopes.length).bind fun i =>
      (scopes[i]?.filter Value.isPresent).map fun v => ⟨[.index i], v⟩ := by
  cases o <;> rfl

/-- Locations related by `P`, with related values there. -/
def Match.Related (P : Location → Location → Prop) (r : Value → Value → Prop) (m n : Match) :
    Prop :=
  P m.path n.path ∧ r m.value n.value

/-- A relation between values that holds between their children as well, key by key. -/
structure Hereditary (L : Correspondence) (r : Value → Value → Prop) : Prop where
  isPresent : ∀ {v w}, r v w → v.isPresent = w.isPresent
  length? : ∀ {v w}, r v w → v.length? = w.length?
  child? : ∀ {v w}, r v w → ∀ k, Option.Rel r (v.child? k) (w.child? k)
  children : ∀ {v w}, r v w → L.holds (SameKey r) v.children w.children

/-- The tests of a step come out alike on two stacks with related values put on top of both. -/
def Step.AgreesOn (r : Value → Value → Prop) (S S' : Scopes) : Step → Prop
  | .filter test _ => ∀ xs ys, xs ≠ [] → List.Forall₂ r xs ys →
    test.evaluate (S ++ xs) = test.evaluate (S' ++ ys)
  | _ => True

/-- The steps of a path agree on two stacks if the tests of its filters do. -/
theorem Path.Yields.agreesOn {rel : Condition → Test → Prop} {p : Path} {m : Matcher}
    (h : p.Yields rel m) {r : Value → Value → Prop} {S S' : Scopes}
    (hfilter : ∀ c t deep, .filter c deep ∈ p.tail → rel c t → ∀ xs ys, xs ≠ [] →
      List.Forall₂ r xs ys → t.evaluate (S ++ xs) = t.evaluate (S' ++ ys)) :
    ∀ step ∈ m.steps, step.AgreesOn r S S' := by
  intro step hstep
  obtain ⟨s, hs, hyields⟩ := h.steps.exists_of_mem_right hstep
  cases hyields with
  | @filter c t hct deep => exact hfilter c t deep hs hct
  | _ => trivial

namespace Hereditary

variable {L : Correspondence} {r : Value → Value → Prop} (hr : Hereditary L r) {S S' : Scopes}
  {v w : Value}

include hr

/-! ### One step -/

theorem childrenAt (h : r v w) (keys : List Key) :
    List.Forall₂ (SameKey r) (v.childrenAt keys) (w.childrenAt keys) := by
  refine List.rel_filterMap (R := Eq) (fun k k' hk => ?_) (List.forall₂_refl keys)
  rw [← hk]
  exact (hr.child? h k).map fun _ _ hxy => ⟨rfl, hxy⟩

theorem pick {step : Step} (hstep : step.AgreesOn r S S') {xs ys : List Value}
    (hxy : List.Forall₂ r xs ys) (h : r v w) :
    L.holds (SameKey r) (step.pick (S ++ xs) v) (step.pick (S' ++ ys) w) := by
  cases step with
  | named names deep =>
    simp only [Step.pick, Search.namedChildren_eq]
    exact L.of_forall₂ (hr.childrenAt h _)
  | elements positions =>
    simp only [Step.pick, Search.elements_eq, hr.length? h]
    exact L.of_forall₂ (hr.childrenAt h _)
  | slice start stop step =>
    simp only [Step.pick, Search.slice_eq, hr.length? h]
    exact L.of_forall₂ (hr.childrenAt h _)
  | all deep => exact hr.children h
  | filter test deep =>
    refine L.filter (hr.children h) fun c d hcd => ?_
    rw [List.append_assoc, List.append_assoc]
    exact hstep _ _ (by simp) (List.rel_append hxy (.cons hcd.2 .nil))
  | never => exact L.of_forall₂ .nil

theorem gather {pick pick' : Scopes → Value → List (Key × Value)}
    (hpick : ∀ xs ys, List.Forall₂ r xs ys → ∀ v w, r v w →
      L.holds (SameKey r) (pick (S ++ xs) v) (pick' (S' ++ ys) w))
    {xs ys : List Value} (hxy : List.Forall₂ r xs ys) (h : r v w) :
    L.holds (Match.Related Eq r) (Search.gather pick (S ++ xs) v)
      (Search.gather pick' (S' ++ ys) w) := by
  induction v using Value.children_induction generalizing w xs ys with
  | step v ih =>
    rw [Search.gather_eq, Search.gather_eq pick']
    refine L.append (L.map (hpick xs ys hxy v w h) fun c d hcd => ?_)
      (L.flatMap (hr.children h) fun c hc d hcd => ?_)
    · exact ⟨congrArg ([·]) hcd.1, hcd.2⟩
    · rw [List.append_assoc, List.append_assoc]
      refine L.map (ih c.1 c.2 hc (List.rel_append hxy (.cons hcd.2 .nil)) hcd.2) fun m n hmn => ?_
      exact ⟨congrArg₂ (· :: ·) hcd.1 hmn.1, hmn.2⟩

/-- From related values a step finds related values at the same locations. -/
theorem finds {step : Step} (hstep : step.AgreesOn r S S') (h : r v w) :
    L.holds (Match.Related Eq r) (step.finds S v) (step.finds S' w) := by
  have hpick := fun xs ys (hxy : List.Forall₂ r xs ys) v w (h : r v w) => hr.pick hstep hxy h
  unfold Step.finds
  split
  · simpa using hr.gather hpick .nil h
  · refine L.map (by simpa using hpick [] [] .nil v w h) fun c d hcd => ?_
    exact ⟨congrArg ([·]) hcd.1, hcd.2⟩

/-! ### Several steps -/

/-- What two paths with the same steps find below related matches is related, if what is true of
the locations of two matches is true of what lies below them. -/
theorem follow {P : Location → Location → Prop} (hP : ∀ p q l, P p q → P (p ++ l) (q ++ l))
    {steps : List Step} (hsteps : ∀ step ∈ steps, step.AgreesOn r S S') {ms ns : List Match}
    (h : L.holds (Match.Related P r) ms ns) :
    L.holds (Match.Related P r) (Step.follow steps S ms) (Step.follow steps S' ns) := by
  induction steps generalizing ms ns with
  | nil => simpa using h
  | cons step steps ih =>
    rw [Step.follow_cons, Step.follow_cons]
    refine ih (fun s hs => hsteps s (by simp [hs])) (L.flatMap h fun m _ n hmn => ?_)
    refine L.map (hr.finds (hsteps step (by simp)) hmn.2) fun x y hxy => ⟨?_, hxy.2⟩
    rw [Match.under, Match.under, hxy.1]
    exact hP _ _ _ hmn.1

/-- On two stacks of related values a path starts from related values at the same position. -/
theorem start (h : List.Forall₂ r S S') (o : Option Origin) :
    L.holds (Match.Related Eq r) (Origin.start o S) (Origin.start o S') := by
  refine L.of_forall₂ ?_
  cases o with
  | none => exact .nil
  | some o =>
    simp only [Origin.start, Option.bind_some, Origin.select_eq, h.length_eq]
    cases o.position? S'.length with
    | none => exact .nil
    | some i =>
      have hi := (h.getElem? i).filter fun _ _ => hr.isPresent
      exact (hi.map fun _ _ hvw => ⟨rfl, hvw⟩).toList

/-- A path finds related values at the same locations on two stacks of related values. -/
theorem findAll {rel : Condition → Test → Prop} {p : Path} {m : Matcher} (hm : p.Yields rel m)
    (hfilter : ∀ c t deep, .filter c deep ∈ p.tail → rel c t → ∀ xs ys, xs ≠ [] →
      List.Forall₂ r xs ys → t.evaluate (S ++ xs) = t.evaluate (S' ++ ys))
    (h : List.Forall₂ r S S') : L.holds (Match.Related Eq r) (m.findAll S) (m.findAll S') :=
  hr.follow (fun _ _ l hpq => congrArg (· ++ l) hpq) (hm.agreesOn hfilter) (hr.start h m.origin)

end Hereditary

/-! ### What operands stand for -/

/-- A quantified operand stands for related values, in whatever order, or an operand for one of two
related values. -/
inductive Resolved.Related (r : Value → Value → Prop) : Resolved → Resolved → Prop where
  | one {v w : Value} (h : r v w) : Related r (.one v) (.one w)
  | each (q : Quantifier) {vs ws : List Value} (h : Permuted r vs ws) :
    Related r (.each q vs) (.each q ws)

/-- An operand without quantifier stands for the array of all values of its path, or for the first
of them, absent if there is none. -/
theorem Matcher.resolve_eq (m : Matcher) (scopes : Scopes) :
    (Source.path m.origin m.steps none).resolve scopes =
      .one (if m.isMulti then .array (m.values scopes) else (m.values scopes).headD .absent) := by
  rw [Source.resolve]
  rfl

theorem Resolved.Related.holds_eq {r : Value → Value → Prop} {a b : Resolved}
    (h : Related r a b) {p q : Value → Bool} (hpq : ∀ v w, r v w → p v = q w) :
    a.holds p = b.holds q := by
  cases h with
  | one h => exact hpq _ _ h
  | each q h =>
    cases q with
    | some => exact h.any_eq fun v _ w => hpq v w
    | every => exact h.all_eq fun v _ w => hpq v w

theorem Resolved.Related.mono {r r' : Value → Value → Prop} {a b : Resolved}
    (h : Related r a b) (hr : ∀ v w, r v w → r' v w) : Related r' a b := by
  cases h with
  | one h => exact .one (hr _ _ h)
  | each q h => exact .each q (h.mono hr)

end TreeQuery
