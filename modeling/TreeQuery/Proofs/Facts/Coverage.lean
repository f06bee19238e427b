import TreeQuery.Facts.Rule

/-! What guards and rules ask for. A fact reaches its own location and, as its extent says, what is
above or below it. A guard asks for a known fact of its name that reaches a place, or for there
being none. A rule applies to a match when all its guards are met there and its condition holds of
the matched value alone. -/

namespace TreeQuery

/-- The fact can be seen from `place`. -/
def Fact.Reaches (f : Fact) (place : Location) : Prop :=
  match f.extent with
  | some .descendants => place <+: f.context
  | some .ancestors => f.context <+: place
  | none => f.context = place

theorem Fact.covers_iff {f : Fact} {place : Location} :
    f.covers place = true ↔ f.Reaches place := by
  unfold covers Reaches Location.extends?
  cases f.extent with
  | none => exact beq_iff_eq
  | some extent => cases extent <;> exact List.isPrefixOf_iff_prefix

namespace Guard

/-- Some known fact of the guard's name reaches the place; for a negated guard, none does. -/
def Met (g : Guard) (known : List Fact) (place : Location) : Prop :=
  (∃ f ∈ known, f.name = g.name ∧ f.Reaches place) ↔ g.negate = false

theorem isSatisfied_iff {g : Guard} {known : List Fact} {place : Location} :
    g.isSatisfied known place = true ↔ g.Met known place := by
  have hany : (known.any fun f => f.name == g.name && f.covers place) = true ↔
      ∃ f ∈ known, f.name = g.name ∧ f.Reaches place := by
    simp [Fact.covers_iff]
  rw [isSatisfied, Met, ← hany]
  cases g.negate <;> simp

end Guard

namespace PreparedRule

/-- What the rule concludes at a match. -/
def fact (r : PreparedRule) (m : Match) : Fact := ⟨r.name, m.path, r.extent⟩

/-- The rule concludes its fact at the match when it knows these facts. -/
def Applies (r : PreparedRule) (known : List Fact) (m : Match) : Prop :=
  (∀ g ∈ r.guards, g.Met known m.path) ∧ ∀ t ∈ r.test, t.evaluate [m.value] = true

theorem concludes_iff {r : PreparedRule} {known : List Fact} {m : Match} :
    r.concludes known m = true ↔ r.Applies known m := by
  have htest : r.test.all (·.evaluate [m.value]) = true ↔
      ∀ t ∈ r.test, t.evaluate [m.value] = true := by
    cases r.test <;> simp
  simp only [concludes, Applies, Bool.and_eq_true, List.all_eq_true, Guard.isSatisfied_iff, htest]

instance (r : PreparedRule) (known : List Fact) (m : Match) : Decidable (r.Applies known m) :=
  decidable_of_iff _ concludes_iff

/-- A rule concludes one fact for each match it applies to, in the order of the matches. -/
theorem evaluate_eq (r : PreparedRule) (source : Value) (known : List Fact) :
    r.evaluate source known =
      ((r.context.findAll [source]).filter fun m => r.Applies known m).map r.fact := by
  have htest : r.concludes known = fun m => decide (r.Applies known m) :=
    funext fun m => Bool.eq_iff_iff.mpr (by simp [concludes_iff])
  rw [evaluate, candidates, htest]
  rfl

/-- The facts that the rule could conclude from a document if all guards were met and its condition
held throughout. -/
def offers (r : PreparedRule) (source : Value) : List Fact :=
  (r.context.findAll [source]).map r.fact

theorem evaluate_sublist (r : PreparedRule) (source : Value) (known : List Fact) :
    (r.evaluate source known).Sublist (r.offers source) := by
  rw [evaluate_eq]
  exact List.filter_sublist.map r.fact

theorem name_of_mem_evaluate {r : PreparedRule} {source : Value} {known : List Fact} {f : Fact}
    (h : f ∈ r.evaluate source known) : f.name = r.name := by
  obtain ⟨m, -, rfl⟩ := List.mem_map.mp ((r.evaluate_sublist source known).mem h)
  rfl

end PreparedRule

end TreeQuery
