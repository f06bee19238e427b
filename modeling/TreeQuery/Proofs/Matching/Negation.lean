import TreeQuery.Proofs.Matching.Distinct
import TreeQuery.Proofs.Matching.Filters
import TreeQuery.Proofs.Matching.OperatorNames
import TreeQuery.Proofs.Splits

/-! Negation is complement. Pushing it through connectives by De Morgan and flipping the flag of
every operator application turns a condition into one that is prepared alike and holds exactly
where the other does not, so that the two filters share out what is found without a filter. A value
that a deep filter tests below several matches of the path in front is dealt out once for each of
them; only such a value can end up on both sides. -/

namespace TreeQuery

namespace Condition

theorem negated_negated (c : Condition) : c.negated.negated = c := by
  cases c with
  | or l r | and l r => simp only [negated, negated_negated l, negated_negated r]
  | unary op negate x => simp only [negated, Bool.not_not]
  | binary op negate l r => simp only [negated, Bool.not_not]

end Condition

/-! ### Prepared conditions -/

namespace Test

/-- Negation of a prepared condition. -/
def negated : Test → Test
  | or l r => and l.negated r.negated
  | and l r => or l.negated r.negated
  | unary op negate x => unary op (!negate) x
  | binary op negate l r => binary op (!negate) l r

theorem evaluate_negated (scopes : Scopes) :
    ∀ t : Test, t.negated.evaluate scopes = !t.evaluate scopes
  | or l r => by
    simp only [negated, evaluate, evaluate_negated scopes l, evaluate_negated scopes r,
      Bool.not_or]
  | and l r => by
    simp only [negated, evaluate, evaluate_negated scopes l, evaluate_negated scopes r,
      Bool.not_and]
  | unary op negate x => by simp only [negated, evaluate, Bool.bne_not]
  | binary op negate l r => by simp only [negated, evaluate, Bool.bne_not]

end Test

/-- Negating before or after preparing makes no difference; neither does it to failures. -/
theorem Condition.result_prepare_negated (ops : Registry) (c : Condition) :
    (c.negated.prepare ops).result = (c.prepare ops).result.map Test.negated := by
  cases c with
  | or l r | and l r =>
    simp only [negated, prepare, Logged.result_bind_eq, Logged.result_pure,
      result_prepare_negated ops l, result_prepare_negated ops r]
    cases (l.prepare ops).result <;> cases (r.prepare ops).result <;> rfl
  | unary op negate x =>
    simp only [negated, prepare, Logged.result_bind_eq, Logged.result_pure]
    cases (ops.require op).result <;> cases (x.prepare ops).result <;> rfl
  | binary op negate l r =>
    simp only [negated, prepare, Logged.result_bind_eq, Logged.result_pure]
    cases (ops.require op).result <;> cases (l.prepare ops).result <;>
      cases (r.prepare ops).result <;> rfl

/-! ### Sharing out what is found -/

/-- If at every value the picked children are dealt out, so is all that is gathered. -/
theorem Search.splits_gather {pick pick₁ pick₂ : Scopes → Value → List (Key × Value)}
    (h : ∀ scopes v, Splits (pick scopes v) (pick₁ scopes v) (pick₂ scopes v))
    (scopes : Scopes) (v : Value) :
    Splits (gather pick scopes v) (gather pick₁ scopes v) (gather pick₂ scopes v) := by
  induction v using Value.children_induction generalizing scopes with
  | step v ih =>
    rw [gather_eq, gather_eq pick₁, gather_eq pick₂]
    refine ((h scopes v).map _).append (.flatMap _ fun c hc => ?_)
    exact (ih c.1 c.2 hc (scopes ++ [c.2])).map _

section

variable {t t' : Test} (ht : ∀ scopes, t'.evaluate scopes = !t.evaluate scopes)

include ht

theorem Search.splits_passing (scopes : Scopes) (v : Value) :
    Splits v.children (passing t.evaluate scopes v) (passing t'.evaluate scopes v) := by
  have h := Splits.filter (fun c : Key × Value => t.evaluate (scopes ++ [c.2])) v.children
  simpa only [passing, ht] using h

theorem Step.splits_finds (deep : Bool) (scopes : Scopes) (v : Value) :
    Splits ((all deep).finds scopes v) ((filter t deep).finds scopes v)
      ((filter t' deep).finds scopes v) := by
  cases deep with
  | false => exact (Search.splits_passing ht scopes v).map _
  | true => exact Search.splits_gather (Search.splits_passing ht) scopes v

/-- Below one value nothing passes both of two opposite filters. -/
theorem Step.disjoint_finds (deep : Bool) (scopes : Scopes) {v : Value} (hv : v.NamesDistinct) :
    ((filter t deep).finds scopes v).Disjoint ((filter t' deep).finds scopes v) := by
  intro x hx hx'
  cases deep with
  | false =>
    rw [finds_filter_children, List.mem_filter] at hx hx'
    rw [ht, hx.2] at hx'
    exact absurd hx'.2 (by decide)
  | true =>
    rw [finds_filter_deep _ scopes hv, List.mem_filter] at hx hx'
    rw [ht, hx.2] at hx'
    exact absurd hx'.2 (by decide)

end

theorem Matcher.findAll_concat (o : Option Origin) (steps : List Step) (step : Step)
    (scopes : Scopes) :
    (⟨o, steps ++ [step]⟩ : Matcher).findAll scopes =
      ((⟨o, steps⟩ : Matcher).findAll scopes).flatMap fun m =>
        (step.finds scopes m.value).map (.under m.path) := by
  simp only [findAll, Step.follow_append, Step.follow_cons, Step.follow_nil]

/-- What a last step finds, it finds below one of the matches in front of it. -/
theorem Matcher.mem_findAll_concat_iff {o : Option Origin} {steps : List Step} {step : Step}
    {scopes : Scopes} {x : Match} :
    x ∈ (⟨o, steps ++ [step]⟩ : Matcher).findAll scopes ↔
      ∃ u ∈ (⟨o, steps⟩ : Matcher).findAll scopes, x ∈ step.next scopes [u] := by
  simp [findAll_concat, Step.next]

/-- What a filter of children finds passes it, wherever it was found. -/
theorem Matcher.evaluate_of_mem_findAll {o : Option Origin} {steps : List Step} {t : Test}
    {scopes : Scopes} {x : Match}
    (hx : x ∈ (⟨o, steps ++ [.filter t false]⟩ : Matcher).findAll scopes) :
    t.evaluate (scopes ++ [x.value]) = true := by
  rw [findAll_concat] at hx
  obtain ⟨m, -, hx⟩ := List.mem_flatMap.mp hx
  obtain ⟨y, hy, rfl⟩ := List.mem_map.mp hx
  obtain ⟨c, hc, rfl⟩ := List.mem_map.mp hy
  exact (List.mem_filter.mp hc).2

/-! ### What two opposite filters both find -/

theorem Step.prefix_of_mem_next {step : Step} {scopes : Scopes} {u x : Match}
    (hx : x ∈ step.next scopes [u]) : u.path <+: x.path := by
  obtain ⟨m, hm, y, -, rfl⟩ := mem_next_iff.mp hx
  rw [List.mem_singleton.mp hm]
  exact List.prefix_append ..

/-- One of two deep filters finds the match below one source, the other below another one, and of
these two sources one lies above the other. -/
def Match.SharedBelow (x : Match) (scopes : Scopes) (sources : List Match) (t t' : Test) : Prop :=
  ∃ u ∈ sources, ∃ w ∈ sources, u.path ≠ w.path ∧ (u.path <+: w.path ∨ w.path <+: u.path) ∧
    x ∈ (Step.filter t true).next scopes [u] ∧ x ∈ (Step.filter t' true).next scopes [w]

section

variable {t t' : Test} (ht : ∀ scopes, t'.evaluate scopes = !t.evaluate scopes)

include ht

theorem Step.disjoint_next (deep : Bool) (scopes : Scopes) {u : Match}
    (hu : u.value.NamesDistinct) :
    ((filter t deep).next scopes [u]).Disjoint ((filter t' deep).next scopes [u]) := by
  simp only [next, List.flatMap_singleton]
  exact List.disjoint_map (Match.under_injective u.path) (disjoint_finds ht deep scopes hu)

/-- A filter tests a child on the same stack wherever it finds it. -/
theorem Matcher.disjoint_findAll_children (start : Matcher) (scopes : Scopes) :
    ((⟨start.origin, start.steps ++ [.filter t false]⟩ : Matcher).findAll scopes).Disjoint
      ((⟨start.origin, start.steps ++ [.filter t' false]⟩ : Matcher).findAll scopes) := by
  intro x hx hx'
  have h := evaluate_of_mem_findAll hx'
  rw [ht, evaluate_of_mem_findAll hx] at h
  exact absurd h (by decide)

/-- A match that two opposite deep filters find is found below two matches in front of them: below
a single one it is tested once. Both lie on the way to it. -/
theorem Matcher.sharedBelow_of_mem_findAll {start : Matcher} {scopes : Scopes}
    (hs : ∀ v ∈ scopes, v.NamesDistinct) {x : Match}
    (hx : x ∈ (⟨start.origin, start.steps ++ [.filter t true]⟩ : Matcher).findAll scopes)
    (hx' : x ∈ (⟨start.origin, start.steps ++ [.filter t' true]⟩ : Matcher).findAll scopes) :
    x.SharedBelow scopes (start.findAll scopes) t t' := by
  obtain ⟨u, hu, hxu⟩ := mem_findAll_concat_iff.mp hx
  obtain ⟨w, hw, hxw⟩ := mem_findAll_concat_iff.mp hx'
  refine ⟨u, hu, w, hw, fun hpath => ?_, ?_, hxu, hxw⟩
  · -- matches at one location are the same match
    obtain rfl : u = w := eq_of_path_eq hs hu hw hpath
    exact Step.disjoint_next ht true scopes (namesDistinct_of_mem_findAll hs u hu) hxu hxw
  · exact List.prefix_or_prefix_of_prefix (Step.prefix_of_mem_next hxu)
      (Step.prefix_of_mem_next hxw)

end

/-- Sources of one length do not lie above each other. -/
theorem Match.not_sharedBelow {x : Match} {scopes : Scopes} {sources : List Match} {t t' : Test}
    {k : Nat} (hk : ∀ u ∈ sources, u.path.length = k) : ¬x.SharedBelow scopes sources t t' := by
  rintro ⟨u, hu, w, hw, hne, hprefix, -, -⟩
  rcases hprefix with h | h
  · exact hne (h.eq_of_length ((hk u hu).trans (hk w hw).symm))
  · exact hne (h.eq_of_length ((hk w hw).trans (hk u hu).symm)).symm

/-- After every path, the filters of a condition and of its negation share out what is found
without a filter. Among children, nothing that one of them finds is found by the other. Among
descendants, what both find lies below two matches of the path; so there is nothing of the kind if
the path has no deep selector. -/
theorem Path.splits_negated {ops : Registry} {e : Condition} {p : Path} {deep : Bool} {m : Matcher}
    (hm : (Path.prepare ops (p ++ [.filter e deep])).result = .ok m) :
    ∃ m' a, (Path.prepare ops (p ++ [.filter e.negated deep])).result = .ok m' ∧
      (Path.prepare ops (p ++ [.all deep])).result = .ok a ∧
      ∀ scopes, Splits (a.findAll scopes) (m.findAll scopes) (m'.findAll scopes) ∧
        (deep = false → (m.findAll scopes).Disjoint (m'.findAll scopes)) ∧
        ((∀ v ∈ scopes, v.NamesDistinct) →
          ((∀ s ∈ p, s.isDeep = false) → (m.findAll scopes).Disjoint (m'.findAll scopes)) ∧
          ∀ x ∈ m.findAll scopes, x ∈ m'.findAll scopes →
            ∃ start t t', (Path.prepare ops p).result = .ok start ∧
              (e.prepare ops).result = .ok t ∧ (e.negated.prepare ops).result = .ok t' ∧
              x.SharedBelow scopes (start.findAll scopes) t t') := by
  cases p with
  | nil =>
    -- without a scope in front neither of the paths matches
    cases hm
    refine ⟨⟨none, []⟩, ⟨none, []⟩, rfl, rfl, fun scopes => ?_⟩
    simpa [Matcher.findAll, Origin.start, Selector.origin?] using Splits.nil
  | cons first rest =>
    simp only [result_prepare_concat, Selector.prepared, Condition.result_prepare_negated] at hm ⊢
    cases hp : (Path.prepare ops (first :: rest)).result with
    | error f => simp [hp, Except.bind] at hm
    | ok start =>
      cases he : (e.prepare ops).result with
      | error f => simp [hp, he, Except.bind, Except.map] at hm
      | ok t =>
        rw [hp, he] at hm
        cases hm
        have ht := fun scopes => Test.evaluate_negated scopes t
        refine ⟨_, _, rfl, rfl, fun scopes => ⟨?_, ?_, fun hs => ?_⟩⟩
        · simp only [Matcher.findAll_concat]
          exact .flatMap _ fun x _ => (Step.splits_finds ht deep scopes x.value).map _
        · rintro rfl
          exact Matcher.disjoint_findAll_children ht start scopes
        · cases deep with
          | false =>
            have hdisjoint := Matcher.disjoint_findAll_children ht start scopes
            exact ⟨fun _ => hdisjoint, fun x hx hx' => absurd hx' (hdisjoint hx)⟩
          | true =>
            refine ⟨fun hflat x hx hx' => ?_, fun x hx hx' => ⟨start, t, t.negated, rfl, rfl, rfl,
              Matcher.sharedBelow_of_mem_findAll ht hs hx hx'⟩⟩
            have hyields := yields_of_prepare Condition.compositional_true _ start hp
            exact Match.not_sharedBelow (hyields.length_path hflat scopes)
              (Matcher.sharedBelow_of_mem_findAll ht hs hx hx')

/-- Negating twice gives the condition back. A condition and its negation are prepared alike, with
the same failure if an operator is unknown, and hold on opposite stacks. As filters they share out
what is found without a filter, in order, below every value and after every path. No match passes
both filters of children, and none passes both deep ones below one value or behind a path without a
deep selector. Behind another path a match may lie below two of its matches, one above the other,
and be tested on two stacks; only then can both deep filters find it. -/
theorem Condition.negated_complement (ops : Registry) (e : Condition) :
    e.negated.negated = e ∧
    (∀ f, (e.prepare ops).result = .error f →
      (∃ name, f = .unknownOperator name) ∧ (e.negated.prepare ops).result = .error f) ∧
    (∀ t, (e.prepare ops).result = .ok t → ∃ t', (e.negated.prepare ops).result = .ok t' ∧
      (∀ scopes, t'.evaluate scopes = !t.evaluate scopes) ∧
      ∀ deep scopes v,
        Splits ((Step.all deep).findAll scopes v) ((Step.filter t deep).findAll scopes v)
          ((Step.filter t' deep).findAll scopes v) ∧
        (v.NamesDistinct → ((Step.filter t deep).findAll scopes v).Disjoint
          ((Step.filter t' deep).findAll scopes v))) ∧
    ∀ (p : Path) (deep : Bool) (m : Matcher),
      (Path.prepare ops (p ++ [.filter e deep])).result = .ok m →
      ∃ m' a, (Path.prepare ops (p ++ [.filter e.negated deep])).result = .ok m' ∧
        (Path.prepare ops (p ++ [.all deep])).result = .ok a ∧
        ∀ scopes, Splits (a.findAll scopes) (m.findAll scopes) (m'.findAll scopes) ∧
          (deep = false → (m.findAll scopes).Disjoint (m'.findAll scopes)) ∧
          ((∀ v ∈ scopes, v.NamesDistinct) →
            ((∀ s ∈ p, s.isDeep = false) → (m.findAll scopes).Disjoint (m'.findAll scopes)) ∧
            ∀ x ∈ m.findAll scopes, x ∈ m'.findAll scopes →
              ∃ start t t', (Path.prepare ops p).result = .ok start ∧
                (e.prepare ops).result = .ok t ∧ (e.negated.prepare ops).result = .ok t' ∧
                x.SharedBelow scopes (start.findAll scopes) t t') := by
  refine ⟨negated_negated e, fun f hf => ⟨onlyUnknown_prepare ops e f hf, ?_⟩, fun t ht => ?_,
    fun p deep m hm => Path.splits_negated hm⟩
  · rw [result_prepare_negated, hf]
    rfl
  · have hneg := fun scopes => Test.evaluate_negated scopes t
    refine ⟨t.negated, by rw [result_prepare_negated, ht]; rfl, hneg, fun deep scopes v => ?_⟩
    simp only [Step.findAll_eq_finds]
    exact ⟨Step.splits_finds hneg deep scopes v, Step.disjoint_finds hneg deep scopes⟩

/-- `^` and `^^` lead from one value to different places when it is tested below different matches
of the path. So `[[? ^ is {"c": 1}]]` finds the innermost value below one match of `$[**]`, and its
negation finds it below another one. The same holds of `^^` and the whole document. -/
theorem Condition.negated_complement_shared :
    let inner : Value := .object [("c", .number 1)]
    let document : Value := .object [("a", .object [("b", inner)])]
    let above (index : Nat) (v : Value) : Condition :=
      .binary "is" false (.path [.relative index] none) (.value v)
    let bothFind (e : Condition) : Prop := ∃ m m',
      (Path.prepare .builtin ([.root 0, .all true] ++ [.filter e true])).result = .ok m ∧
      (Path.prepare .builtin ([.root 0, .all true] ++ [.filter e.negated true])).result = .ok m' ∧
      ∃ x ∈ m.findAll [document], x ∈ m'.findAll [document] ∧
        x.path = [.index 0, .name "a", .name "b", .name "c"]
    bothFind (above 1 inner) ∧ bothFind (above 2 document) := by
  intro inner document above bothFind
  have hs : ∀ v ∈ [document], v.NamesDistinct := by
    simp [document, inner, Value.NamesDistinct, Value.MembersDistinct]
  constructor
  · refine ⟨_, _, rfl, rfl, Matcher.exists_mem_of_path_mem hs ?_ ?_⟩ <;> decide +kernel
  · refine ⟨_, _, rfl, rfl, Matcher.exists_mem_of_path_mem hs ?_ ?_⟩ <;> decide +kernel

/-- Both filters find something in a member of a document, taken alone and as the end of a path. An
operator that is not known makes the negation fail as well. -/
theorem Condition.negated_complement_empty :
    let e : Condition := .unary "empty" false (.path [.relative 0] none)
    let member : Value := .object [("b", .array []), ("c", .array [.bool true])]
    let document : Value := .object [("a", member)]
    let p : Path := [.root 0, .named ["a"] false]
    (∃ t t', (e.prepare .builtin).result = .ok t ∧ (e.negated.prepare .builtin).result = .ok t' ∧
      (∀ scopes, t'.evaluate scopes = !t.evaluate scopes) ∧
      ((Step.filter t true).findAll [document] member).map (·.path) = [[.name "b"]] ∧
      ((Step.filter t' true).findAll [document] member).map (·.path) =
        [[.name "c"], [.name "c", .index 0]] ∧
      Splits ((Step.all true).findAll [document] member)
        ((Step.filter t true).findAll [document] member)
        ((Step.filter t' true).findAll [document] member) ∧
      ((Step.filter t true).findAll [document] member).Disjoint
        ((Step.filter t' true).findAll [document] member)) ∧
    (∃ m m' a, (Path.prepare .builtin (p ++ [.filter e true])).result = .ok m ∧
      (Path.prepare .builtin (p ++ [.filter e.negated true])).result = .ok m' ∧
      (Path.prepare .builtin (p ++ [.all true])).result = .ok a ∧
      (m.findAll [document]).map (·.path) = [[.index 0, .name "a", .name "b"]] ∧
      (m'.findAll [document]).map (·.path) =
        [[.index 0, .name "a", .name "c"], [.index 0, .name "a", .name "c", .index 0]] ∧
      Splits (a.findAll [document]) (m.findAll [document]) (m'.findAll [document]) ∧
      (m.findAll [document]).Disjoint (m'.findAll [document])) ∧
    (e.negated.prepare .empty).result = .error (.unknownOperator "empty") := by
  intro e member document p
  have hmember : member.NamesDistinct := by
    simp [member, Value.NamesDistinct, Value.MembersDistinct, Value.ItemsDistinct]
  have hs : ∀ v ∈ [document], v.NamesDistinct := by
    simpa [document, Value.NamesDistinct, Value.MembersDistinct] using hmember
  obtain ⟨-, -, htests, hpaths⟩ := negated_complement .builtin e
  refine ⟨?_, ?_, ((negated_complement .empty e).2.1 _ rfl).2⟩
  · obtain ⟨t', ht', hopposite, hfilters⟩ := htests _ rfl
    obtain ⟨hsplits, hdisjoint⟩ := hfilters true [document] member
    cases ht'
    exact ⟨_, _, rfl, rfl, hopposite, by decide +kernel, by decide +kernel, hsplits,
      hdisjoint hmember⟩
  · obtain ⟨m', a, hm', ha, hfound⟩ := hpaths p true _ rfl
    obtain ⟨hsplits, -, hdeep⟩ := hfound [document]
    have hdisjoint := (hdeep hs).1 (by simp [p, Selector.isDeep])
    cases hm'
    exact ⟨_, _, a, rfl, rfl, ha, by decide +kernel, by decide +kernel, hsplits, hdisjoint⟩

end TreeQuery
