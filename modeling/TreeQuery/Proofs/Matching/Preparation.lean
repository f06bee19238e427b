import TreeQuery.Proofs.FirstFailure
import TreeQuery.Proofs.Matching.Quantified

/-! What conditions are prepared to, by induction. A selector goes to a step and an operand to a
source in a way that depends on what the conditions in them go to. So a relation between conditions
and tests that is kept by connectives and by applications of operators holds between every condition
and the test it is prepared to. -/

namespace TreeQuery

/-- The step for a selector that is not the first of its path, if `rel` relates conditions to their
tests. -/
inductive Selector.Yields (rel : Condition → Test → Prop) : Selector → Step → Prop where
  | scope {s : Selector} (h : s.isScope = true) : Yields rel s .never
  | named (names : List String) (deep : Bool) : Yields rel (.named names deep) (.named names deep)
  | elements (positions : List Int) : Yields rel (.elements positions) (.elements positions)
  | slice (start stop step : Option Int) :
    Yields rel (.slice start stop step) (.slice start stop step)
  | all (deep : Bool) : Yields rel (.all deep) (.all deep)
  | filter {c : Condition} {t : Test} (h : rel c t) (deep : Bool) :
    Yields rel (.filter c deep) (.filter t deep)

/-- The matcher for a path starts where the first selector says and has a step for each of the
others. -/
structure Path.Yields (rel : Condition → Test → Prop) (p : Path) (m : Matcher) : Prop where
  origin : m.origin = p.head?.bind Selector.origin?
  steps : List.Forall₂ (Selector.Yields rel) p.tail m.steps

/-- The source for an operand. -/
inductive Operand.Yields (rel : Condition → Test → Prop) : Operand → Source → Prop where
  | value (v : Value) : Yields rel (.value v) (.literal v)
  | path {p : Path} {m : Matcher} (h : p.Yields rel m) (q : Option Quantifier) :
    Yields rel (.path p q) (.path m.origin m.steps q)

/-- `rel` relates a condition to a test if it relates their parts, the tests of filters inside
operands included. -/
structure Condition.Compositional (ops : Registry) (rel : Condition → Test → Prop) : Prop where
  or : ∀ {l r t u}, rel l t → rel r u → rel (.or l r) (.or t u)
  and : ∀ {l r t u}, rel l t → rel r u → rel (.and l r) (.and t u)
  unary : ∀ {name op negate x s}, ops.get? name = some op → Operand.Yields rel x s →
    rel (.unary name negate x) (.unary op negate s)
  binary : ∀ {name op negate x y s u}, ops.get? name = some op → Operand.Yields rel x s →
    Operand.Yields rel y u → rel (.binary name negate x y) (.binary op negate s u)

/-- For what is known of a path whatever its conditions are. -/
theorem Condition.compositional_true {ops : Registry} : Compositional ops fun _ _ => True :=
  ⟨fun _ _ => trivial, fun _ _ => trivial, fun _ _ => trivial, fun _ _ _ => trivial⟩

section

variable {ops : Registry} {rel : Condition → Test → Prop}

open Logged (result_bind_ok_iff result_pure_ok_iff)

theorem Condition.prepare_or_ok_iff {l r : Condition} {t : Test} :
    ((Condition.or l r).prepare ops).result = .ok t ↔
      ∃ u, (l.prepare ops).result = .ok u ∧
        ∃ u', (r.prepare ops).result = .ok u' ∧ t = .or u u' := by
  simp only [prepare, result_bind_ok_iff, result_pure_ok_iff]

theorem Condition.prepare_and_ok_iff {l r : Condition} {t : Test} :
    ((Condition.and l r).prepare ops).result = .ok t ↔
      ∃ u, (l.prepare ops).result = .ok u ∧
        ∃ u', (r.prepare ops).result = .ok u' ∧ t = .and u u' := by
  simp only [prepare, result_bind_ok_iff, result_pure_ok_iff]

theorem Path.prepare_cons_ok_iff {first : Selector} {rest : List Selector} {m : Matcher} :
    (Path.prepare ops (first :: rest)).result = .ok m ↔
      ∃ steps, rest.mapM (Selector.prepared ops) = .ok steps ∧ m = ⟨first.origin?, steps⟩ := by
  rw [Path.result_prepare]
  cases rest.mapM (Selector.prepared ops) with
  | error f => simp [Except.map]
  | ok steps => simp [Except.map, eq_comm]

/-- One more selector behind a path adds its step to what the path is prepared to. -/
theorem Path.prepare_concat_ok_iff {first : Selector} {rest : List Selector} {s : Selector}
    {m : Matcher} :
    (Path.prepare ops (first :: rest ++ [s])).result = .ok m ↔
      ∃ start, (Path.prepare ops (first :: rest)).result = .ok start ∧
        ∃ step, s.prepared ops = .ok step ∧ m = ⟨start.origin, start.steps ++ [step]⟩ := by
  rw [result_prepare_concat]
  cases (Path.prepare ops (first :: rest)).result with
  | error f => simp [Except.bind]
  | ok start => cases s.prepared ops <;> simp [Except.bind, Except.map, eq_comm]

theorem Selector.prepared_filter_ok_iff {c : Condition} {deep : Bool} {step : Step} :
    (Selector.filter c deep).prepared ops = .ok step ↔
      ∃ t, (c.prepare ops).result = .ok t ∧ step = .filter t deep := by
  rw [prepared]
  cases (c.prepare ops).result with
  | error f => simp [Except.map]
  | ok t => simp [Except.map, eq_comm]

mutual

theorem Selector.yields_of_prepared (h : Condition.Compositional ops rel) :
    ∀ (s : Selector) (step : Step), s.prepared ops = .ok step → s.Yields rel step
  | .root _, _, hs | .relative _, _, hs => by
    cases hs
    exact .scope rfl
  | .named .., _, hs => by
    cases hs
    exact .named ..
  | .elements _, _, hs => by
    cases hs
    exact .elements _
  | .slice .., _, hs => by
    cases hs
    exact .slice ..
  | .all _, _, hs => by
    cases hs
    exact .all _
  | .filter c deep, _, hs => by
    obtain ⟨t, ht, rfl⟩ := Selector.prepared_filter_ok_iff.mp hs
    exact .filter (Condition.rel_of_prepare h c t ht) deep

theorem Selector.yields_of_mapM_prepared (h : Condition.Compositional ops rel) :
    ∀ (p : List Selector) (steps : List Step), p.mapM (Selector.prepared ops) = .ok steps →
      List.Forall₂ (Selector.Yields rel) p steps
  | [], _, hs => by
    cases hs
    exact .nil
  | s :: p, _, hs => by
    obtain ⟨step, hstep, more, hmore, rfl⟩ := List.mapM_cons_ok_iff.mp hs
    exact .cons (Selector.yields_of_prepared h s step hstep)
      (Selector.yields_of_mapM_prepared h p more hmore)

theorem Path.yields_of_prepare (h : Condition.Compositional ops rel) :
    ∀ (p : List Selector) (m : Matcher), (Path.prepare ops p).result = .ok m →
      Path.Yields rel p m
  | [], _, hm => by
    cases hm
    exact ⟨rfl, .nil⟩
  | first :: rest, _, hm => by
    obtain ⟨steps, hsteps, rfl⟩ := Path.prepare_cons_ok_iff.mp hm
    exact ⟨rfl, Selector.yields_of_mapM_prepared h rest steps hsteps⟩

theorem Operand.yields_of_prepare (h : Condition.Compositional ops rel) :
    ∀ (x : Operand) (s : Source), (x.prepare ops).result = .ok s → x.Yields rel s
  | .value v, _, hs => by
    rw [Operand.prepare, result_pure_ok_iff] at hs
    subst hs
    exact .value v
  | .path p q, _, hs => by
    obtain ⟨m, hm, rfl⟩ := Operand.prepare_path_ok_iff.mp hs
    exact .path (Path.yields_of_prepare h p m hm) q

/-- A compositional relation holds between a condition and what it is prepared to. -/
theorem Condition.rel_of_prepare (h : Condition.Compositional ops rel) :
    ∀ (c : Condition) (t : Test), (c.prepare ops).result = .ok t → rel c t
  | .or l r, _, ht => by
    obtain ⟨u, hu, u', hu', rfl⟩ := Condition.prepare_or_ok_iff.mp ht
    exact h.or (Condition.rel_of_prepare h l u hu) (Condition.rel_of_prepare h r u' hu')
  | .and l r, _, ht => by
    obtain ⟨u, hu, u', hu', rfl⟩ := Condition.prepare_and_ok_iff.mp ht
    exact h.and (Condition.rel_of_prepare h l u hu) (Condition.rel_of_prepare h r u' hu')
  | .unary _ _ x, _, ht => by
    obtain ⟨op, hop, s, hs, rfl⟩ := Condition.prepare_unary_ok_iff.mp ht
    exact h.unary hop (Operand.yields_of_prepare h x s hs)
  | .binary _ _ x y, _, ht => by
    obtain ⟨op, hop, s, hs, u, hu, rfl⟩ := Condition.prepare_binary_ok_iff.mp ht
    exact h.binary hop (Operand.yields_of_prepare h x s hs) (Operand.yields_of_prepare h y u hu)

end

end

end TreeQuery
