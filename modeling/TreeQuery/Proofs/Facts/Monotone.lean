import Mathlib.Data.List.Forall2
import TreeQuery.Proofs.Facts.Blocks

/-! More facts to start from. A guard that requires a fact stays met when more facts are known, and
one that excludes facts may only cease to be met. So rules that only require conclude all they did
before, at the same matches, and what they conclude in addition can only help the rules after them.
A rule that only excludes concludes less. -/

namespace TreeQuery

namespace Guard

variable {g : Guard} {known known' : List Fact} {place : Location}

theorem Met.of_subset (h : g.Met known place) (hg : g.negate = false) (hsub : known ⊆ known') :
    g.Met known' place := by
  obtain ⟨f, hf, hreach⟩ := h.mpr hg
  exact iff_of_true ⟨f, hsub hf, hreach⟩ hg

/-- What nothing in a list of facts prevents, nothing in a part of the list does. -/
theorem Met.of_superset (h : g.Met known' place) (hg : g.negate = true) (hsub : known ⊆ known') :
    g.Met known place := by
  have hrequires : g.negate ≠ false := by simp [hg]
  refine iff_of_false (fun ⟨f, hf, hreach⟩ => ?_) hrequires
  exact hrequires (h.mp ⟨f, hsub hf, hreach⟩)

end Guard

namespace PreparedRule

/-- All guards of the rule ask for a fact. -/
def Requiring (r : PreparedRule) : Prop := ∀ g ∈ r.guards, g.negate = false

/-- All guards of the rule ask for there being no fact. -/
def Excluding (r : PreparedRule) : Prop := ∀ g ∈ r.guards, g.negate = true

variable {r : PreparedRule} {known known' : List Fact}

/-- A rule that still applies wherever it did concludes what it did, in the same order. -/
theorem evaluate_sublist_of_applies (h : ∀ m, r.Applies known m → r.Applies known' m)
    (source : Value) : (r.evaluate source known).Sublist (r.evaluate source known') := by
  rw [evaluate_eq, evaluate_eq]
  refine (List.monotone_filter_right _ fun m hm => ?_).map r.fact
  exact decide_eq_true (h m (of_decide_eq_true hm))

theorem Requiring.evaluate_sublist (hr : r.Requiring) (h : known ⊆ known') (source : Value) :
    (r.evaluate source known).Sublist (r.evaluate source known') :=
  evaluate_sublist_of_applies
    (fun _ hm => ⟨fun g hg => (hm.1 g hg).of_subset (hr g hg) h, hm.2⟩) source

theorem Excluding.evaluate_sublist (hr : r.Excluding) (h : known ⊆ known') (source : Value) :
    (r.evaluate source known').Sublist (r.evaluate source known) :=
  evaluate_sublist_of_applies
    (fun _ hm => ⟨fun g hg => (hm.1 g hg).of_superset (hr g hg) h, hm.2⟩) source

end PreparedRule

namespace RuleSet

/-- Where all guards require, every rule concludes at least as much from more facts: what the rules
before it have added to the larger list contains what they have added to the smaller one. -/
theorem blocks_sublist_of_requiring {rules : RuleSet} (hr : ∀ r ∈ rules, r.Requiring)
    {I J : List Fact} (h : I ⊆ J) (source : Value) :
    List.Forall₂ List.Sublist (rules.blocks source I) (rules.blocks source J) := by
  induction rules generalizing I J with
  | nil => exact .nil
  | cons r rest ih =>
    rw [List.forall_mem_cons] at hr
    have hfirst := hr.1.evaluate_sublist h source
    have hknown : I ++ r.evaluate source I ⊆ J ++ r.evaluate source J := by
      refine List.append_subset.mpr ⟨?_, ?_⟩
      · exact List.Subset.trans h (List.subset_append_left _ _)
      · exact List.Subset.trans hfirst.subset (List.subset_append_right _ _)
    exact .cons hfirst (ih hr.2 hknown)

theorem flatten_sublist {xss yss : List (List Fact)} (h : List.Forall₂ List.Sublist xss yss) :
    xss.flatten.Sublist yss.flatten := by
  induction h with
  | nil => exact List.Sublist.refl _
  | cons hfirst _ ih => exact hfirst.append ih

/-- When all facts of one list are known in another, every rule of a set that only requires
concludes from the second list what it does from the first and perhaps more, in the same order, so
that everything derived from the first list is derived from the second. A rule that only excludes
concludes no more from the second list than from the first. -/
theorem derive_monotone {I J : List Fact} (h : I ⊆ J) (source : Value) :
    (∀ rules : RuleSet, (∀ r ∈ rules, r.Requiring) →
      rules.derive source I = I ++ (rules.blocks source I).flatten ∧
      rules.derive source J = J ++ (rules.blocks source J).flatten ∧
      List.Forall₂ List.Sublist (rules.blocks source I) (rules.blocks source J) ∧
      (rules.blocks source I).flatten ⊆ (rules.blocks source J).flatten) ∧
    ∀ r : PreparedRule, r.Excluding →
      derive [r] source I = I ++ r.evaluate source I ∧
      derive [r] source J = J ++ r.evaluate source J ∧
      (r.evaluate source J).Sublist (r.evaluate source I) := by
  refine ⟨fun rules hr => ?_, fun r hr => ⟨rfl, rfl, hr.evaluate_sublist h source⟩⟩
  have hblocks := blocks_sublist_of_requiring hr h source
  exact ⟨derive_eq_append source rules I, derive_eq_append source rules J, hblocks,
    (flatten_sublist hblocks).subset⟩

/-- With a second seed, given before the first, the items of both shelves are in stock, and a third
one is no longer free. -/
theorem derive_monotone_shelves :
    let source : Value := .array [.array [.null, .null], .array [.null], .array []]
    let stocked : PreparedRule := ⟨"stocked", some .ancestors, ⟨some (.root 0), [.all false]⟩,
      [.requires "seed"], none⟩
    let item : PreparedRule := ⟨"item", none, ⟨some (.root 0), [.all false, .all false]⟩,
      [.requires "stocked", .requires "seed"], none⟩
    let free : PreparedRule :=
      ⟨"free", none, ⟨some (.root 0), [.all false]⟩, [.excludes "seed"], none⟩
    let seed := fun i : Nat => (⟨"seed", [.index 0, .index i], some .ancestors⟩ : Fact)
    let rules : RuleSet := [stocked, item]
    [seed 1] ⊆ [seed 0, seed 1] ∧ (∀ r ∈ rules, r.Requiring) ∧ free.Excluding ∧
    ((rules.blocks source [seed 1]).map (·.map (·.context)) =
      [[[.index 0, .index 1]], [[.index 0, .index 1, .index 0]]]) ∧
    List.Forall₂ List.Sublist (rules.blocks source [seed 1])
      (rules.blocks source [seed 0, seed 1]) ∧
    (free.evaluate source [seed 1]).map (·.context) =
      [[.index 0, .index 0], [.index 0, .index 2]] ∧
    (free.evaluate source [seed 0, seed 1]).Sublist (free.evaluate source [seed 1]) := by
  intro source stocked item free seed rules
  have hsub : [seed 1] ⊆ [seed 0, seed 1] := by simp
  have hrules : ∀ r ∈ rules, r.Requiring := by
    simp [rules, stocked, item, PreparedRule.Requiring, Guard.requires]
  have hfree : free.Excluding := by
    simp [free, PreparedRule.Excluding, Guard.excludes]
  obtain ⟨hblocks, hevaluate⟩ := derive_monotone hsub source
  exact ⟨hsub, hrules, hfree, by decide +kernel, (hblocks rules hrules).2.2.1, by decide +kernel,
    (hevaluate free hfree).2.2⟩

end RuleSet

end TreeQuery
