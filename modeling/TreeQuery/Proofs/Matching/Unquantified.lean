import TreeQuery.Proofs.Matching.Multiplicity

/-! What a path without quantifier stands for. If the path can have several matches it is the array
of all their values, in order; otherwise the path has one match at most, whose value it is. No match
is dropped in either case, and as all matched values are present, an absent value says that there
is no match. -/

namespace TreeQuery

/-! ### Present values -/

theorem Value.isPresent_of_mem_childrenAt {v x : Value} {k : Key} {keys : List Key}
    (h : (k, x) ∈ v.childrenAt keys) : x.isPresent = true := by
  simp only [childrenAt, List.mem_filterMap, Option.map_eq_some_iff, Prod.mk.injEq] at h
  obtain ⟨l, -, y, hy, -, rfl⟩ := h
  exact isPresent_child hy

theorem Value.isPresent_of_mem_children {v x : Value} {k : Key} (h : (k, x) ∈ v.children) :
    x.isPresent = true := by
  cases v with
  | array items => exact (List.mem_filter.mp h).2
  | object members => exact (List.mem_filter.mp h).2
  | _ => simp [children] at h

namespace Step

theorem isPresent_of_mem_pick {step : Step} {scopes : Scopes} {v x : Value} {k : Key}
    (h : (k, x) ∈ step.pick scopes v) : x.isPresent = true := by
  cases step with
  | named names deep =>
    rw [pick, Search.namedChildren_eq] at h
    exact Value.isPresent_of_mem_childrenAt h
  | elements positions =>
    rw [pick, Search.elements_eq] at h
    exact Value.isPresent_of_mem_childrenAt h
  | slice start stop step =>
    rw [pick, Search.slice_eq] at h
    exact Value.isPresent_of_mem_childrenAt h
  | all deep => exact Value.isPresent_of_mem_children h
  | filter test deep => exact Value.isPresent_of_mem_children (List.mem_filter.mp h).1
  | never => simp [pick] at h

theorem isPresent_of_mem_gather {step : Step} {scopes : Scopes} {v : Value} {m : Match}
    (h : m ∈ Search.gather step.pick scopes v) : m.value.isPresent = true := by
  induction v using Value.children_induction generalizing scopes m with
  | step v ih =>
    rw [Search.gather_eq, List.mem_append, List.mem_map, List.mem_flatMap] at h
    rcases h with ⟨c, hc, rfl⟩ | ⟨c, hc, h⟩
    · exact isPresent_of_mem_pick hc
    · obtain ⟨n, hn, rfl⟩ := List.mem_map.mp h
      exact (ih c.1 c.2 hc hn :)

theorem isPresent_of_mem_finds {step : Step} {scopes : Scopes} {v : Value} {m : Match}
    (h : m ∈ step.finds scopes v) : m.value.isPresent = true := by
  unfold finds at h
  split at h
  · exact isPresent_of_mem_gather h
  · obtain ⟨c, hc, rfl⟩ := List.mem_map.mp h
    exact isPresent_of_mem_pick hc

theorem isPresent_of_mem_follow {steps : List Step} {scopes : Scopes} {ms : List Match}
    (hms : ∀ m ∈ ms, m.value.isPresent = true) :
    ∀ m ∈ follow steps scopes ms, m.value.isPresent = true := by
  induction steps generalizing ms with
  | nil => simpa using hms
  | cons step steps ih =>
    rw [follow_cons]
    refine ih fun m hm => ?_
    obtain ⟨n, -, hm⟩ := List.mem_flatMap.mp hm
    obtain ⟨x, hx, rfl⟩ := List.mem_map.mp hm
    exact (isPresent_of_mem_finds hx :)

end Step

theorem Origin.isPresent_of_mem_start {o : Option Origin} {scopes : Scopes} {m : Match}
    (h : m ∈ start o scopes) : m.value.isPresent = true := by
  simp only [start, Option.mem_toList, Option.bind_eq_some_iff, select_eq, Option.map_eq_some_iff,
    Option.filter_eq_some_iff] at h
  obtain ⟨-, -, i, -, v, ⟨-, hv⟩, rfl⟩ := h
  exact hv

theorem Matcher.isPresent_of_mem_findAll {m : Matcher} {scopes : Scopes} {x : Match}
    (h : x ∈ m.findAll scopes) : x.value.isPresent = true :=
  Step.isPresent_of_mem_follow (fun _ => Origin.isPresent_of_mem_start) x h

/-! ### Operands -/

theorem Matcher.resolve_of_isMulti {m : Matcher} (h : m.isMulti = true) (scopes : Scopes) :
    (Source.path m.origin m.steps none).resolve scopes =
      .one (.array ((m.findAll scopes).map (·.value))) := by
  rw [m.resolve_eq, h]
  rfl

/-- The only match, or none. -/
theorem Matcher.resolve_of_not_isMulti {m : Matcher} (h : m.isMulti = false) (scopes : Scopes) :
    m.findAll scopes = [] ∧ (Source.path m.origin m.steps none).resolve scopes = .one .absent ∨
      ∃ x, m.findAll scopes = [x] ∧
        (Source.path m.origin m.steps none).resolve scopes = .one x.value := by
  rw [m.resolve_eq, h, values]
  match m.findAll scopes, m.length_findAll_le_one h scopes with
  | [], _ => exact .inl ⟨rfl, rfl⟩
  | [x], _ => exact .inr ⟨x, rfl, rfl⟩

/-- A path that is prepared to a matcher for single values has one match at most, on any stack.
Without quantifier an operand stands for the array of the values of all matches, if the path can
have several, and otherwise for the value of the only match; it is absent then exactly if there is
no match. -/
theorem Operand.resolve_unquantified {ops : Registry} {p : Path} {m : Matcher}
    (hm : (p.prepare ops).result = .ok m) (scopes : Scopes) :
    (m.isMulti = false → (m.findAll scopes).length ≤ 1) ∧
    ∃ s v, ((Operand.path p none).prepare ops).result = .ok s ∧ s.resolve scopes = .one v ∧
      (m.isMulti = true → v = .array ((m.findAll scopes).map (·.value))) ∧
      (m.isMulti = false →
        (∀ x ∈ m.findAll scopes, m.findAll scopes = [x] ∧ v = x.value) ∧
        (v = .absent ↔ m.findAll scopes = [])) := by
  refine ⟨fun h => m.length_findAll_le_one h scopes, ?_⟩
  have hs : ((Operand.path p none).prepare ops).result = .ok (.path m.origin m.steps none) :=
    prepare_path_ok_iff.mpr ⟨m, hm, rfl⟩
  cases hmulti : m.isMulti with
  | true =>
    exact ⟨_, _, hs, m.resolve_of_isMulti hmulti scopes, fun _ => rfl, fun h => nomatch h⟩
  | false =>
    rcases m.resolve_of_not_isMulti hmulti scopes with ⟨hnone, hv⟩ | ⟨x, hx, hv⟩
    · refine ⟨_, _, hs, hv, fun h => (nomatch h), fun _ => ⟨?_, ?_⟩⟩
      · simp [hnone]
      · simp [hnone]
    · have hpresent : x.value.isPresent = true :=
        m.isPresent_of_mem_findAll (by rw [hx]; exact List.mem_singleton_self x)
      have hne : x.value ≠ .absent := by
        intro h
        rw [h] at hpresent
        cases hpresent
      refine ⟨_, _, hs, hv, fun h => (nomatch h), fun _ => ⟨?_, ?_⟩⟩
      · simp [hx]
      · simp [hx, hne]

/-- The last element is one value, the elements of a slice are an array even if there is only one,
and an absent slot is no match. -/
theorem Operand.resolve_unquantified_elements :
    let source : Value := .array [.absent, .bool true]
    let last : Path := [.relative 0, .elements [-1]]
    let first : Path := [.relative 0, .elements [0]]
    let rest : Path := [.relative 0, .slice (some 1) none none]
    (∃ m, (last.prepare .builtin).result = .ok m ∧ (m.findAll [source]).length ≤ 1 ∧
      ∃ s v, ((Operand.path last none).prepare .builtin).result = .ok s ∧
        s.resolve [source] = .one v ∧ ∀ x ∈ m.findAll [source], v = x.value) ∧
    (∃ s, ((Operand.path first none).prepare .builtin).result = .ok s ∧
      s.resolve [source] = .one .absent) ∧
    ∃ m, (rest.prepare .builtin).result = .ok m ∧
      ∃ s, ((Operand.path rest none).prepare .builtin).result = .ok s ∧
        s.resolve [source] = .one (.array ((m.findAll [source]).map (·.value))) := by
  intro source last first rest
  have hlast : (last.prepare .builtin).result = .ok _ := rfl
  have hfirst : (first.prepare .builtin).result = .ok _ := rfl
  have hrest : (rest.prepare .builtin).result = .ok _ := rfl
  obtain ⟨hlength, s, v, hs, hv, -, hsingle⟩ := resolve_unquantified hlast [source]
  obtain ⟨-, s', v', hs', hv', -, hnone⟩ := resolve_unquantified hfirst [source]
  obtain ⟨-, s'', v'', hs'', hv'', hmulti, -⟩ := resolve_unquantified hrest [source]
  rw [(hnone rfl).2.mpr rfl] at hv'
  rw [hmulti rfl] at hv''
  exact ⟨⟨_, hlast, hlength rfl, s, v, hs, hv, fun x hx => ((hsingle rfl).1 x hx).2⟩,
    ⟨s', hs', hv'⟩, _, hrest, s'', hs'', hv''⟩

end TreeQuery
