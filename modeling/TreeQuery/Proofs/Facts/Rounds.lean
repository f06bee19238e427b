import Mathlib.Data.Finset.Card
import Mathlib.Data.Finset.Dedup
import Mathlib.Order.Monotone.Basic
import TreeQuery.Proofs.Facts.Independence

/-! Runs that start from what the run before them derived. Facts are never taken back, and new ones
are among those that the contexts of the rules offer, so that there are no more rounds with new
facts than distinct facts on offer. A guard that excludes may stop a rule that has concluded before;
this undoes nothing, and since guards look only at which facts are known, a round that brings
nothing new is followed by rounds like it. -/

namespace TreeQuery.RuleSet

/-- What the rules could conclude from a document, one fact for each match of a context. -/
def offers (rules : RuleSet) (source : Value) : List Fact := rules.flatMap (·.offers source)

/-- The facts known after `k` rounds. -/
def rounds (rules : RuleSet) (source : Value) (initial : List Fact) (k : Nat) : List Fact :=
  (rules.derive source)^[k] initial

theorem mem_offers_of_mem_blocks {rules : RuleSet} {source : Value} {known : List Fact} {f : Fact}
    (hf : f ∈ (rules.blocks source known).flatten) : f ∈ rules.offers source := by
  obtain ⟨r, hr, earlier, hf⟩ := exists_of_mem_blocks source hf
  exact List.mem_flatMap.mpr ⟨r, hr, (r.evaluate_sublist source earlier).mem hf⟩

section

variable (rules : RuleSet) (source : Value) (initial : List Fact)

/-- One more round appends what the rules conclude from the facts known before it. -/
theorem rounds_succ (k : Nat) :
    rules.rounds source initial (k + 1) = rules.rounds source initial k ++
      (rules.blocks source (rules.rounds source initial k)).flatten := by
  rw [rounds, Function.iterate_succ_apply', derive_eq_append]
  rfl

theorem subset_rounds_succ (k : Nat) :
    rules.rounds source initial k ⊆ rules.rounds source initial (k + 1) := by
  rw [rounds_succ]
  exact List.subset_append_left _ _

theorem rounds_subset {j k : Nat} (h : j ≤ k) :
    rules.rounds source initial j ⊆ rules.rounds source initial k := by
  induction h with
  | refl => exact List.Subset.refl _
  | step _ ih => exact List.Subset.trans ih (subset_rounds_succ rules source initial _)

/-- What becomes known after round `j` was on offer. -/
theorem mem_rounds {j k : Nat} (h : j ≤ k) {f : Fact} (hf : f ∈ rules.rounds source initial k) :
    f ∈ rules.rounds source initial j ∨ f ∈ rules.offers source := by
  induction h with
  | refl => exact .inl hf
  | step _ ih =>
    rw [rounds_succ, List.mem_append] at hf
    exact hf.elim ih fun hnew => .inr (mem_offers_of_mem_blocks hnew)

theorem blocks_rounds_congr {j k : Nat}
    (h : (rules.rounds source initial j).toFinset = (rules.rounds source initial k).toFinset) :
    rules.blocks source (rules.rounds source initial j) =
      rules.blocks source (rules.rounds source initial k) :=
  blocks_congr (fun f _ => by rw [← List.mem_toFinset, h, List.mem_toFinset]) source

/-- After a round that brings nothing new, the next one brings nothing new either: its rules see
the same facts and conclude the same. -/
theorem rounds_settled {k : Nat}
    (h : (rules.rounds source initial k).toFinset =
      (rules.rounds source initial (k + 1)).toFinset) :
    (rules.rounds source initial (k + 1)).toFinset =
      (rules.rounds source initial (k + 2)).toFinset := by
  have hnew : (rules.blocks source (rules.rounds source initial k)).flatten ⊆
      rules.rounds source initial (k + 1) := by
    rw [rounds_succ]
    exact List.subset_append_right _ _
  rw [rounds_succ rules source initial (k + 1), ← blocks_rounds_congr rules source initial h,
    List.toFinset_append, Finset.union_eq_left.mpr]
  exact fun f hf => List.mem_toFinset.mpr (hnew (List.mem_toFinset.mp hf))

/-! ### Counting what is known -/

/-- The facts on offer that are known after `k` rounds. -/
def held (k : Nat) : Finset Fact :=
  (rules.offers source).toFinset.filter (· ∈ rules.rounds source initial k)

theorem held_mono : Monotone (rules.held source initial) := fun _ _ h =>
  Finset.monotone_filter_right _ fun _ _ hf => rounds_subset rules source initial h hf

theorem held_congr {j k : Nat}
    (h : (rules.rounds source initial j).toFinset = (rules.rounds source initial k).toFinset) :
    rules.held source initial j = rules.held source initial k := by
  unfold held
  refine Finset.filter_congr fun f _ => ?_
  rw [← List.mem_toFinset, h, List.mem_toFinset]

/-- Where no more of what is on offer is known, no more is known at all. -/
theorem toFinset_rounds_of_card_held {j k : Nat} (hjk : j ≤ k)
    (h : (rules.held source initial j).card = (rules.held source initial k).card) :
    (rules.rounds source initial j).toFinset = (rules.rounds source initial k).toFinset := by
  have hheld : rules.held source initial j = rules.held source initial k :=
    Finset.eq_of_subset_of_card_le (held_mono rules source initial hjk) h.ge
  ext f
  rw [List.mem_toFinset, List.mem_toFinset]
  refine ⟨fun hf => rounds_subset rules source initial hjk hf, fun hf => ?_⟩
  rcases mem_rounds rules source initial hjk hf with hold | hoffer
  · exact hold
  · have hmem : f ∈ rules.held source initial k :=
      Finset.mem_filter.mpr ⟨List.mem_toFinset.mpr hoffer, hf⟩
    rw [← hheld] at hmem
    exact (Finset.mem_filter.mp hmem).2

/-- After as many rounds as there are distinct facts on offer, everything is known that ever will
be: each round brings one of them that was not known, or none does from there on. -/
theorem toFinset_rounds_eq {k : Nat} (h : (rules.offers source).toFinset.card ≤ k) :
    (rules.rounds source initial k).toFinset =
      (rules.rounds source initial (rules.offers source).toFinset.card).toFinset := by
  have hsettled : ∀ m, (rules.held source initial m).card =
      (rules.held source initial (m + 1)).card →
      (rules.held source initial (m + 1)).card = (rules.held source initial (m + 2)).card := by
    intro m hm
    have hset := toFinset_rounds_of_card_held rules source initial (Nat.le_succ m) hm
    rw [held_congr rules source initial (rounds_settled rules source initial hset)]
  have hcard : (rules.held source initial k).card =
      (rules.held source initial (rules.offers source).toFinset.card).card :=
    Nat.stabilises_of_monotone
      (fun _ _ hjk => Finset.card_le_card (held_mono rules source initial hjk))
      (fun _ => Finset.card_filter_le _ _) hsettled h
  exact (toFinset_rounds_of_card_held rules source initial h hcard.symm).symm

/-- Repeated derivation converges: facts are never lost, after as many rounds as there are distinct
facts on offer no new ones appear, and each further round appends the same list. -/
theorem rounds_converge :
    (∀ k, rules.rounds source initial k ⊆ rules.rounds source initial (k + 1)) ∧
    (∀ k, (rules.offers source).toFinset.card ≤ k →
      (rules.rounds source initial k).toFinset =
        (rules.rounds source initial (rules.offers source).toFinset.card).toFinset) ∧
    ∃ derived, ∀ k, (rules.offers source).toFinset.card ≤ k →
      rules.rounds source initial (k + 1) = rules.rounds source initial k ++ derived := by
  have hset := fun k => toFinset_rounds_eq rules source initial (k := k)
  refine ⟨subset_rounds_succ rules source initial, hset,
    (rules.blocks source (rules.rounds source initial
      (rules.offers source).toFinset.card)).flatten, fun k hk => ?_⟩
  rw [rounds_succ, blocks_rounds_congr rules source initial (hset k hk)]

/-- The second fact is concluded one round after the first, stops the rule that concluded the first,
and is concluded again in every later round. -/
theorem rounds_converge_alternating :
    let source : Value := .array []
    let rules : RuleSet := [
      ⟨"second", none, ⟨some (.root 0), []⟩, [.requires "first"], none⟩,
      ⟨"first", none, ⟨some (.root 0), []⟩, [.excludes "second"], none⟩]
    let first : Fact := ⟨"first", [.index 0], none⟩
    let second : Fact := ⟨"second", [.index 0], none⟩
    (rules.offers source).toFinset.card = 2 ∧ rules.rounds source [] 1 = [first] ∧
    rules.rounds source [] 2 = [first, second] ∧
    (rules.rounds source [] 4).toFinset = (rules.rounds source [] 2).toFinset ∧
    rules.rounds source [] 5 = rules.rounds source [] 4 ++ [second] := by
  intro source rules first second
  have hcard : (rules.offers source).toFinset.card = 2 := by decide +kernel
  have htwo : rules.rounds source [] 2 = [first, second] := by decide +kernel
  have hthree : rules.rounds source [] 3 = rules.rounds source [] 2 ++ [second] := by
    decide +kernel
  obtain ⟨-, hset, derived, hround⟩ := rounds_converge rules source []
  rw [hcard] at hset hround
  obtain rfl : [second] = derived :=
    List.append_cancel_left (hthree.symm.trans (hround 2 (by decide)))
  exact ⟨hcard, by decide +kernel, htwo, hset 4 (by decide), hround 4 (by decide)⟩

end

end TreeQuery.RuleSet
