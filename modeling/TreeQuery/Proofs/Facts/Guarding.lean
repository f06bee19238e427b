import TreeQuery.Proofs.Facts.Coverage
import TreeQuery.Proofs.Facts.Prepared
import TreeQuery.Proofs.Splits

/-! Rules with one more guard. Such a rule concludes those of its facts that stand where the guard
is satisfied. The guards that require and that exclude a name are opposites, so that with one or the
other a rule shares out what it concludes without them. Where a guard is satisfied it may stay so
further down or further up: this is settled by the extents of the known facts of its name, and not
by the extent of the rule. -/

namespace TreeQuery

def Rule.withGuard (r : Rule) (g : Guard) : Rule := { r with guards := r.guards ++ [g] }

def PreparedRule.withGuard (r : PreparedRule) (g : Guard) : PreparedRule :=
  { r with guards := r.guards ++ [g] }

/-- It makes no difference whether the guard is added before or after preparing. -/
theorem Rule.result_prepare_withGuard (ops : Registry) (r : Rule) (g : Guard) :
    ((r.withGuard g).prepare ops).result = (r.prepare ops).result.map (·.withGuard g) := by
  simp only [result_prepare, withGuard]
  cases (r.context.prepare ops).result.withOptional
    (r.condition.map fun c => (c.prepare ops).result) <;> rfl

namespace Guard

variable {name : String} {known : List Fact} {p q : Location}

theorem isSatisfied_excludes (place : Location) : (excludes name).isSatisfied known place =
    !(requires name).isSatisfied known place := by
  simp [isSatisfied, excludes, requires]

/-- If all known facts of the name that reach one place reach another one, too, then requiring the
name carries over from the first place to the second, and excluding it from the second to the
first. -/
theorem isSatisfied_of_reaches
    (h : ∀ f ∈ known, f.name = name → f.Reaches p → f.Reaches q) :
    ((requires name).isSatisfied known p = true → (requires name).isSatisfied known q = true) ∧
    ((excludes name).isSatisfied known q = true → (excludes name).isSatisfied known p = true) := by
  have hrequires : (requires name).isSatisfied known p = true →
      (requires name).isSatisfied known q = true := by
    simp only [isSatisfied_iff, Met, requires, iff_true]
    rintro ⟨f, hf, hname, hp⟩
    exact ⟨f, hf, hname, h f hf hname hp⟩
  refine ⟨hrequires, fun hq => ?_⟩
  rw [isSatisfied_excludes, Bool.not_eq_true'] at hq ⊢
  exact Bool.eq_false_iff.mpr fun hp => by simp [hrequires hp] at hq

end Guard

namespace Fact

variable {f : Fact} {p q : Location}

theorem Reaches.below (h : f.Reaches p) (hf : f.extent = some .ancestors) (hpq : p <+: q) :
    f.Reaches q := by
  rw [Reaches, hf] at h ⊢
  exact List.IsPrefix.trans h hpq

theorem Reaches.above (h : f.Reaches q) (hf : f.extent = some .descendants) (hpq : p <+: q) :
    f.Reaches p := by
  rw [Reaches, hf] at h ⊢
  exact hpq.trans h

end Fact

namespace PreparedRule

variable (r : PreparedRule) (g : Guard) (known : List Fact)

theorem concludes_withGuard (m : Match) :
    (r.withGuard g).concludes known m = (r.concludes known m && g.isSatisfied known m.path) := by
  simp [concludes, withGuard, Bool.and_right_comm]

/-- What the rule concludes with one more guard. -/
theorem evaluate_withGuard (source : Value) :
    (r.withGuard g).evaluate source known =
      (r.evaluate source known).filter fun f => g.isSatisfied known f.context := by
  rw [evaluate, evaluate, List.filter_map, List.filter_filter]
  refine congrArg (List.map _) (List.filter_congr fun m _ => ?_)
  rw [concludes_withGuard, Bool.and_comm]
  rfl

/-- With a guard that requires a name, or else with one that excludes it, a rule concludes some of
the facts that it concludes without them, in their order; at no match of its context does it
conclude its fact with either, and every fact comes with one of them, as often as without them.
Where all known facts of the name are of extent `ancestors`, the guard that requires it stays
satisfied further down, and the one that excludes it further up; where all are of extent
`descendants`, it is the other way round. The guard can be added to the rule before it is prepared
or after. -/
theorem evaluate_requires_excludes (r : PreparedRule) (source : Value) (known : List Fact)
    (name : String) :
    let requiring := r.withGuard (.requires name)
    let excluding := r.withGuard (.excludes name)
    (∀ ops rule, (Rule.prepare ops rule).result = .ok r → ∀ g,
      ((rule.withGuard g).prepare ops).result = .ok (r.withGuard g)) ∧
    (requiring.evaluate source known).Sublist (r.evaluate source known) ∧
    (excluding.evaluate source known).Sublist (r.evaluate source known) ∧
    (∀ m ∈ r.candidates source,
      ¬(requiring.concludes known m = true ∧ excluding.concludes known m = true)) ∧
    (requiring.evaluate source known ++ excluding.evaluate source known).Perm
      (r.evaluate source known) ∧
    ((∀ f ∈ known, f.name = name → f.extent = some .ancestors) → ∀ p q : Location, p <+: q →
      ((Guard.requires name).isSatisfied known p = true →
        (Guard.requires name).isSatisfied known q = true) ∧
      ((Guard.excludes name).isSatisfied known q = true →
        (Guard.excludes name).isSatisfied known p = true)) ∧
    ((∀ f ∈ known, f.name = name → f.extent = some .descendants) → ∀ p q : Location, p <+: q →
      ((Guard.requires name).isSatisfied known q = true →
        (Guard.requires name).isSatisfied known p = true) ∧
      ((Guard.excludes name).isSatisfied known p = true →
        (Guard.excludes name).isSatisfied known q = true)) := by
  intro requiring excluding
  have hsplits : Splits (r.evaluate source known) (requiring.evaluate source known)
      (excluding.evaluate source known) := by
    simp only [requiring, excluding, evaluate_withGuard, Guard.isSatisfied_excludes]
    exact Splits.filter _ _
  refine ⟨fun ops rule hr g => ?_, ?_, ?_, fun m _ => ?_, hsplits.perm.symm,
    fun h p q hpq => ?_, fun h p q hpq => ?_⟩
  · rw [Rule.result_prepare_withGuard, hr]
    rfl
  · rw [evaluate_withGuard]
    exact List.filter_sublist
  · rw [evaluate_withGuard]
    exact List.filter_sublist
  · rintro ⟨hrequires, hexcludes⟩
    rw [concludes_withGuard, Bool.and_eq_true] at hrequires hexcludes
    rw [Guard.isSatisfied_excludes, hrequires.2] at hexcludes
    exact absurd hexcludes.2 (by decide)
  · exact Guard.isSatisfied_of_reaches fun f hf hname hp => hp.below (h f hf hname) hpq
  · exact Guard.isSatisfied_of_reaches fun f hf hname hq => hq.above (h f hf hname) hpq

/-- One shelf is stocked with all that is on it; an item that has been seen on the other one can be
seen from there. -/
theorem evaluate_requires_excludes_shelves :
    let source : Value := .array [.array [.null, .null], .array [.null]]
    let rule : Rule := ⟨"item", [.root 0, .all true], some .descendants, [], none⟩
    let r : PreparedRule := ⟨"item", some .descendants, ⟨some (.root 0), [.all true]⟩, [], none⟩
    let known : List Fact := [⟨"stocked", [.index 0, .index 0], some .ancestors⟩,
      ⟨"seen", [.index 0, .index 1, .index 0], some .descendants⟩]
    let requiring := r.withGuard (.requires "stocked")
    let excluding := r.withGuard (.excludes "stocked")
    (Rule.prepare .builtin rule).result = .ok r ∧
    ((rule.withGuard (.requires "stocked")).prepare .builtin).result = .ok requiring ∧
    (requiring.evaluate source known).map (·.context) =
      [[.index 0, .index 0], [.index 0, .index 0, .index 0], [.index 0, .index 0, .index 1]] ∧
    (excluding.evaluate source known).map (·.context) =
      [[.index 0, .index 1], [.index 0, .index 1, .index 0]] ∧
    (requiring.evaluate source known ++ excluding.evaluate source known).Perm
      (r.evaluate source known) ∧
    (∀ f ∈ known, f.name = "stocked" → f.extent = some .ancestors) ∧
    (Guard.requires "stocked").isSatisfied known [.index 0, .index 0, .index 1] = true ∧
    (∀ f ∈ known, f.name = "seen" → f.extent = some .descendants) ∧
    (Guard.requires "seen").isSatisfied known [.index 0, .index 1] = true := by
  intro source rule r known requiring excluding
  have hr : (Rule.prepare .builtin rule).result = .ok r := rfl
  have hstocked : ∀ f ∈ known, f.name = "stocked" → f.extent = some .ancestors := by
    simp [known]
  have hseen : ∀ f ∈ known, f.name = "seen" → f.extent = some .descendants := by
    simp [known]
  obtain ⟨hprepare, -, -, -, hperm, hdown, -⟩ :=
    r.evaluate_requires_excludes source known "stocked"
  obtain ⟨-, -, -, -, -, -, hup⟩ := r.evaluate_requires_excludes source known "seen"
  refine ⟨hr, hprepare .builtin rule hr _, by decide +kernel, by decide +kernel, hperm, hstocked,
    ?_, hseen, ?_⟩
  · exact (hdown hstocked [.index 0, .index 0] _ ⟨[.index 1], rfl⟩).1 (by decide +kernel)
  · exact (hup hseen _ [.index 0, .index 1, .index 0] ⟨[.index 0], rfl⟩).1 (by decide +kernel)

end PreparedRule

end TreeQuery
