import TreeQuery.Proofs.Matching.Filters

/-! Paths one match at a time. Following steps goes through whole lists of matches, one step after
the other, and stops as soon as a step finds nothing; what it finds is the same as when each match
is followed to the end before the next one, from any place in the path on. -/

namespace TreeQuery

namespace Step

/-- What the steps lead to from a value, match by match: everything below the first match of the
first step comes before anything below the second. All steps see the same stack of scopes, whatever
has been matched. -/
def expand : List Step → Scopes → Value → List Match
  | [], _, v => [⟨[], v⟩]
  | step :: steps, scopes, v =>
    (step.findAll scopes v).flatMap fun m => (expand steps scopes m.value).map (.under m.path)

/-- Going through lists of matches finds, in the same order, what each match expands to. -/
theorem follow_eq_expand (steps : List Step) (scopes : Scopes) (ms : List Match) :
    follow steps scopes ms =
      ms.flatMap fun m => (expand steps scopes m.value).map (.under m.path) := by
  induction steps generalizing ms with
  | nil => simp [expand, Match.under]
  | cons step steps ih =>
    rw [follow_cons, ih, List.flatMap_assoc]
    refine congrArg (ms.flatMap ·) (funext fun m => ?_)
    rw [expand, findAll_eq_finds, List.flatMap_map, List.map_flatMap]
    refine congrArg (List.flatMap · _) (funext fun n => ?_)
    rw [List.map_map]
    exact List.map_congr_left fun l _ => (Match.under_under m.path n.path l).symm

/-- A filter tests what is found without it on the given stack and the values that lead from the
source to the tested one, and on nothing else. -/
theorem findAll_filter_eq (test : Test) (deep : Bool) (scopes : Scopes) {v : Value}
    (hv : v.NamesDistinct) :
    (filter test deep).findAll scopes v = ((all deep).findAll scopes v).filter
      fun m => test.evaluate (scopes ++ (v.trail m.path).getD []) := by
  simp only [findAll_eq_finds]
  cases deep with
  | true => exact finds_filter_deep test scopes hv
  | false =>
    rw [finds_filter_children, List.filter_congr]
    intro m hm
    obtain ⟨⟨k, x⟩, hk, rfl⟩ := List.mem_map.mp hm
    simp [Match.ofChild, Value.trail, (Value.mem_children_iff hv).mp hk]

end Step

/-- A path cut in two: its matches are, for each match of the first part in order, what the second
part expands to from the matched value, at the location of the match followed by the way from there.
The filters of the second part are tested on the stack that the path is matched on, extended only by
the values from below the filter's source down to the tested one. -/
theorem Matcher.findAll_append (origin : Option Origin) (steps more : List Step)
    (scopes : Scopes) :
    (⟨origin, steps ++ more⟩ : Matcher).findAll scopes =
      ((⟨origin, steps⟩ : Matcher).findAll scopes).flatMap (fun m =>
        (Step.expand more scopes m.value).map fun n => ⟨m.path ++ n.path, n.value⟩) ∧
    ∀ test deep v, v.NamesDistinct →
      (Step.filter test deep).findAll scopes v = ((Step.all deep).findAll scopes v).filter
        fun m => test.evaluate (scopes ++ (v.trail m.path).getD []) := by
  refine ⟨?_, fun test deep v hv => Step.findAll_filter_eq test deep scopes hv⟩
  simp only [findAll, Step.follow_append]
  exact Step.follow_eq_expand more scopes _

/-- The scope before the current one is the document for every row, and not the row itself; a row
without items adds nothing. -/
theorem Matcher.findAll_append_rows :
    ∃ test v, v.NamesDistinct ∧
      ((⟨some (.root 0), [.all false] ++ [.filter test false, .all false]⟩ : Matcher).findAll
        [v]).map (·.path) = [[.index 0, .index 0, .index 1, .index 0]] ∧
      (⟨some (.root 0), [.all false] ++ [.filter test false, .all false]⟩ : Matcher).findAll [v] =
        ((⟨some (.root 0), [.all false]⟩ : Matcher).findAll [v]).flatMap (fun m =>
          (Step.expand [.filter test false, .all false] [v] m.value).map
            fun n => ⟨m.path ++ n.path, n.value⟩) ∧
      (Step.filter test false).findAll [v] v = ((Step.all false).findAll [v] v).filter
        fun m => test.evaluate ([v] ++ (v.trail m.path).getD []) := by
  have hv : (Value.array [.array [.null, .array [.null]], .bool true, .array []]).NamesDistinct := by
    simp [Value.NamesDistinct, Value.ItemsDistinct]
  obtain ⟨happend, hfilter⟩ := findAll_append (some (.root 0)) [.all false]
    [.filter (.unary (fun x _ => x.bool? == some true) false
      (.path (some (.relative 1)) [.elements [1]] none)) false, .all false]
    [.array [.array [.null, .array [.null]], .bool true, .array []]]
  exact ⟨_, _, hv, by decide +kernel, happend, hfilter _ false _ hv⟩

end TreeQuery
