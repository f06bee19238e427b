import TreeQuery.Facts.RuleSet
import TreeQuery.Proofs.Facts.Coverage
import TreeQuery.Proofs.Matching.Locations

/-! A run of a rule set, rule by rule. Each rule adds one block of facts behind those known so far:
the initial ones and the blocks of the rules before it. What it adds is settled by these and by the
document; the rules after it, and what it adds itself, make no difference. -/

namespace TreeQuery.RuleSet

/-- What each rule adds when the rules run on `known`, rule by rule. -/
def blocks (rules : RuleSet) (source : Value) (known : List Fact) : List (List Fact) :=
  match rules with
  | [] => []
  | r :: rest => r.evaluate source known :: blocks rest source (known ++ r.evaluate source known)

section

variable (source : Value)

@[simp] theorem blocks_nil (known : List Fact) : blocks [] source known = [] := rfl

@[simp] theorem blocks_cons (r : PreparedRule) (rest : RuleSet) (known : List Fact) :
    blocks (r :: rest) source known =
      r.evaluate source known :: rest.blocks source (known ++ r.evaluate source known) := rfl

@[simp] theorem derive_nil (known : List Fact) : derive [] source known = known := rfl

@[simp] theorem derive_cons (r : PreparedRule) (rest : RuleSet) (known : List Fact) :
    derive (r :: rest) source known = rest.derive source (known ++ r.evaluate source known) := rfl

/-- The rules after some others start from what these derive. -/
theorem derive_append (rules later : RuleSet) (known : List Fact) :
    derive (rules ++ later) source known = later.derive source (rules.derive source known) :=
  List.foldl_append

/-- Deriving only adds, one block after the other. -/
theorem derive_eq_append (rules : RuleSet) (known : List Fact) :
    rules.derive source known = known ++ (rules.blocks source known).flatten := by
  induction rules generalizing known with
  | nil => simp
  | cons r rest ih => rw [derive_cons, ih, blocks_cons, List.flatten_cons, List.append_assoc]

theorem blocks_append (rules later : RuleSet) (known : List Fact) :
    blocks (rules ++ later) source known =
      rules.blocks source known ++ later.blocks source (rules.derive source known) := by
  induction rules generalizing known with
  | nil => rfl
  | cons r rest ih => simp only [List.cons_append, blocks_cons, derive_cons, ih]

/-- Block `i` is what rule `i` concludes from the initial facts and the blocks before. -/
theorem getElem?_blocks (rules : RuleSet) (known : List Fact) (i : Nat) :
    (rules.blocks source known)[i]? = rules[i]?.map fun r =>
      r.evaluate source (known ++ ((rules.blocks source known).take i).flatten) := by
  induction rules generalizing known i with
  | nil => rfl
  | cons r rest ih =>
    cases i with
    | zero => simp
    | succ i => simp [ih, List.append_assoc]

/-- Everything that is derived was concluded by one of the rules. -/
theorem exists_of_mem_blocks {rules : RuleSet} {known : List Fact} {f : Fact}
    (hf : f ∈ (rules.blocks source known).flatten) :
    ∃ r ∈ rules, ∃ earlier, f ∈ r.evaluate source earlier := by
  induction rules generalizing known with
  | nil => simp at hf
  | cons r rest ih =>
    rw [blocks_cons, List.flatten_cons, List.mem_append] at hf
    rcases hf with hf | hf
    · exact ⟨r, List.mem_cons_self, known, hf⟩
    · obtain ⟨s, hs, earlier, hf⟩ := ih hf
      exact ⟨s, List.mem_cons_of_mem r hs, earlier, hf⟩

/-- A run appends one block for each rule, in order: one fact for each match of the rule's context
in the document, in the order of the matches, where all guards of the rule are met by the initial
facts and the blocks before, and where its condition holds of the matched value. Later rules add
their blocks to the same ones, as if started from what was derived before them. The facts stand at
values of the document, below position 0 of the stack. -/
theorem derive_eq_blocks (rules : RuleSet) (initial : List Fact) :
    rules.derive source initial = initial ++ (rules.blocks source initial).flatten ∧
    (∀ i : Nat, (rules.blocks source initial)[i]? = rules[i]?.map fun r : PreparedRule =>
      ((r.context.findAll [source]).filter fun m =>
        r.Applies (initial ++ ((rules.blocks source initial).take i).flatten) m).map fun m =>
          ⟨r.name, m.path, r.extent⟩) ∧
    (∀ later : RuleSet,
      blocks (rules ++ later) source initial =
        rules.blocks source initial ++ later.blocks source (rules.derive source initial) ∧
      derive (rules ++ later) source initial =
        later.derive source (rules.derive source initial)) ∧
    (source.NamesDistinct → ∀ f ∈ (rules.blocks source initial).flatten,
      ∃ keys x, f.context = .index 0 :: keys ∧ source.Leads keys x) := by
  refine ⟨derive_eq_append source rules initial, fun i => ?_, fun later =>
    ⟨blocks_append source rules later initial, derive_append source rules later initial⟩,
    fun hs f hf => ?_⟩
  · rw [getElem?_blocks]
    exact congrArg (rules[i]?.map ·) (funext fun r => r.evaluate_eq source _)
  · obtain ⟨r, -, earlier, hf⟩ := exists_of_mem_blocks source hf
    obtain ⟨m, hm, rfl⟩ := List.mem_map.mp ((r.evaluate_sublist source earlier).mem hf)
    obtain ⟨keys, hpath, hkeys⟩ := Matcher.leads_of_mem_findAll_single hs hm
    exact ⟨keys, m.value, hpath, hkeys⟩

/-- A rule does not see what rules after it conclude, nor what it concludes itself; a fact that
reaches upwards is seen from the shop around the item. -/
theorem derive_eq_blocks_shop :
    let item := fun free : Bool => Value.object [("item", .object [("free", .bool free)])]
    let source : Value := .object [("shop", .object [("a", item true), ("b", item false)])]
    let items : Path := [.root 0, .named ["item"] true]
    let free : Condition :=
      .binary "is" false (.path [.relative 0, .named ["free"] false] none) (.value (.bool true))
    ∃ rules : RuleSet,
      (prepare .builtin [
        ⟨"early", [.root 0], none, [.requires "free"], none⟩,
        ⟨"free", items, some .descendants, [.excludes "free"], some free⟩,
        ⟨"some free", [.root 0, .named ["shop"] false, .all false], none, [.requires "free"], none⟩,
        ⟨"paid", items, none, [.excludes "free"], none⟩]).result = .ok rules ∧
      source.NamesDistinct ∧
      rules.blocks source [] = [[],
        [⟨"free", [.index 0, .name "shop", .name "a", .name "item"], some .descendants⟩],
        [⟨"some free", [.index 0, .name "shop", .name "a"], none⟩],
        [⟨"paid", [.index 0, .name "shop", .name "b", .name "item"], none⟩]] ∧
      ∀ f ∈ (rules.blocks source []).flatten,
        ∃ keys x, f.context = .index 0 :: keys ∧ source.Leads keys x := by
  intro item source items free
  have hs : source.NamesDistinct := by
    simp [source, item, Value.NamesDistinct, Value.MembersDistinct]
  exact ⟨_, rfl, hs, by decide +kernel, (derive_eq_blocks source _ []).2.2.2 hs⟩

end

end TreeQuery.RuleSet
