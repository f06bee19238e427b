import TreeQuery.Proofs.Matching.Locations

/-! Filters as choices from an unfiltered search. A filter finds, in the same order, those of the
children or descendants for which its condition holds on the stack that ends in the values from
below the source down to the tested one. Whether a value passes has no influence on what is found
below it. -/

namespace TreeQuery

namespace Search

/-- Nothing is found at the value that the search starts from. -/
theorem path_ne_nil_of_mem_gather {pick : Scopes → Value → List (Key × Value)} {scopes : Scopes}
    {v : Value} {m : Match} (hm : m ∈ gather pick scopes v) : m.path ≠ [] := by
  rw [gather_eq, List.mem_append, List.mem_map, List.mem_flatMap] at hm
  rcases hm with ⟨c, -, rfl⟩ | ⟨c, -, hm⟩
  · simp [Match.ofChild]
  · obtain ⟨n, -, rfl⟩ := List.mem_map.mp hm
    simp [Match.under]

/-- Gathering what passes a test is choosing, from all descendants, those that pass it on the
stack extended by the values on the way to them. -/
theorem gather_passing (test : Scopes → Bool) {v : Value} (hv : v.NamesDistinct)
    (scopes : Scopes) :
    gather (passing test) scopes v = (gather (fun _ => Value.children) scopes v).filter
      fun m => test (scopes ++ (v.trail m.path).getD []) := by
  induction v using Value.children_induction generalizing scopes with
  | step v ih =>
    rw [gather_eq, gather_eq (fun _ => Value.children), List.filter_append, List.filter_map,
      List.filter_flatMap]
    congr 1
    · -- a child is tested on the stack and itself
      rw [passing, List.filter_congr]
      intro c hc
      have hk := (Value.mem_children_iff hv).mp hc
      simp [Match.ofChild, Value.trail, hk]
    · -- the stack of a deeper value starts with the child that it is reached through
      rw [List.flatMap_def, List.flatMap_def, List.map_congr_left]
      intro c hc
      have hk := (Value.mem_children_iff hv).mp hc
      have hd := hv.of_mem_children hc
      rw [ih c.1 c.2 hc hd, List.filter_map, List.filter_congr]
      intro m hm
      obtain ⟨vs, hvs, -⟩ := leads_of_mem_gather
        (fun _ _ hv k x h => (Value.mem_children_iff hv).mp h) hd hm
      simp [Match.under, Value.trail_cons hk hvs, hvs]

end Search

namespace Step

theorem finds_filter_deep (test : Test) (scopes : Scopes) {v : Value} (hv : v.NamesDistinct) :
    (filter test true).finds scopes v = ((all true).finds scopes v).filter
      fun m => test.evaluate (scopes ++ (v.trail m.path).getD []) :=
  Search.gather_passing test.evaluate hv scopes

theorem finds_filter_children (test : Test) (scopes : Scopes) (v : Value) :
    (filter test false).finds scopes v = ((all false).finds scopes v).filter
      fun m => test.evaluate (scopes ++ [m.value]) := by
  simp only [finds, isDeep, pick, Search.passing, Bool.false_eq_true, if_false, List.filter_map]
  rfl

/-- A deep filter finds exactly those descendants, in their order, for which its condition holds on
the stack extended by the values found at the non-empty prefixes of their location; a filter of
children tests each child as the only value added. Every descendant has such a trail: its location
is not empty, and it leads to the descendant. -/
theorem findAll_filter (test : Test) (scopes : Scopes) {v : Value} (hv : v.NamesDistinct) :
    (∀ m ∈ (all true).findAll scopes v, m.path ≠ [] ∧ v.Leads m.path m.value) ∧
    (filter test true).findAll scopes v = ((all true).findAll scopes v).filter
      (fun m => test.evaluate (scopes ++ (v.trail m.path).getD [])) ∧
    (filter test false).findAll scopes v = ((all false).findAll scopes v).filter
      (fun m => test.evaluate (scopes ++ [m.value])) := by
  simp only [findAll_eq_finds]
  refine ⟨fun m hm => ⟨?_, leads_of_mem_finds hv hm⟩, finds_filter_deep test scopes hv,
    finds_filter_children test scopes v⟩
  exact Search.path_ne_nil_of_mem_gather hm

/-- A child that fails does not keep what is below it from being found, and is in scope there. -/
theorem findAll_filter_below_failing :
    ∃ test v,
      ((filter test true).findAll [] v).map (·.path) =
        [[.index 1, .index 0], [.index 1, .index 1]] ∧
      (filter test true).findAll [] v = ((all true).findAll [] v).filter
        fun m => test.evaluate ([] ++ (v.trail m.path).getD []) := by
  refine ⟨.unary (fun x _ => x.bool? == some true) false
    (.path (some (.relative 1)) [.elements [1]] none),
    .array [.absent, .array [.null, .bool true]], by decide +kernel, (findAll_filter _ [] ?_).2.1⟩
  simp [Value.NamesDistinct, Value.ItemsDistinct]

end Step

end TreeQuery
