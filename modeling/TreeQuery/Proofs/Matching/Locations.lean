import TreeQuery.Proofs.Matching.Found
import TreeQuery.Proofs.Matching.Prepared
import TreeQuery.Proofs.Value.Trail

/-! Where matches stand. The location of a match starts with the position of the scope entry that
the path starts from, and its other keys lead from that entry to the matched value. The invariant
holds of the match a path starts from, and each step keeps it: what a step picks are children, and
what it finds below a child stands below that child's key. -/

namespace TreeQuery

/-- The position in the stack of the entry that a scope selector chooses. -/
def Selector.entry? (scopes : Scopes) : Selector → Option Nat
  | .root index => if index < scopes.length then some index else none
  | .relative index =>
    if index < scopes.length then some (scopes.length - 1 - index) else none
  | _ => none

/-- The match stands below entry `i` of the stack: its location starts with `i`, and its other
keys lead from the entry to its value. -/
def Match.StandsIn (m : Match) (scopes : Scopes) (i : Nat) : Prop :=
  ∃ v keys, scopes[i]? = some v ∧ m.path = .index i :: keys ∧ v.Leads keys m.value

/-- What stands at the same location is the same. -/
theorem Match.StandsIn.eq {m n : Match} {scopes : Scopes} {i j : Nat} (hm : m.StandsIn scopes i)
    (hn : n.StandsIn scopes j) (h : m.path = n.path) : m = n := by
  obtain ⟨v, keys, hv, hpath, hkeys⟩ := hm
  obtain ⟨w, keys', hw, hpath', hkeys'⟩ := hn
  cases hpath.symm.trans (h.trans hpath')
  cases hv.symm.trans hw
  rw [Match.mk.injEq]
  exact ⟨h, hkeys.unique hkeys'⟩

/-! ### What one step finds -/

theorem Search.child?_of_mem_itemsAt {positions : List Nat} {items : List Value} {k : Key}
    {x : Value} (h : (k, x) ∈ Search.itemsAt positions items) :
    (Value.array items).child? k = some x := by
  simp only [Search.itemsAt, List.mem_filterMap, Option.map_eq_some_iff, Prod.mk.injEq] at h
  obtain ⟨i, -, y, hy, rfl, rfl⟩ := h
  simpa [Value.child?, Value.element?, Value.items?] using hy

namespace Step

/-- A step picks children only, under their own keys. -/
theorem child?_of_mem_pick {step : Step} {scopes : Scopes} {v x : Value} {k : Key}
    (hv : v.NamesDistinct) (h : (k, x) ∈ step.pick scopes v) : v.child? k = some x := by
  cases step with
  | named names deep =>
    simp only [pick, Search.namedChildren, List.mem_filterMap, Option.map_eq_some_iff,
      Prod.mk.injEq] at h
    obtain ⟨name, -, y, hy, rfl, rfl⟩ := h
    exact hy
  | elements positions =>
    cases v <;> simp only [pick, Search.elements, Value.items?, List.not_mem_nil] at h
    exact Search.child?_of_mem_itemsAt h
  | slice start stop step =>
    cases v <;> simp only [pick, Search.slice, Value.items?, List.not_mem_nil] at h
    exact Search.child?_of_mem_itemsAt h
  | all deep => exact (Value.mem_children_iff hv).mp h
  | filter test deep => exact (Value.mem_children_iff hv).mp (List.mem_filter.mp h).1
  | never => simp [pick] at h

end Step

/-- Gathering what leads to children finds what keys lead to. -/
theorem Search.leads_of_mem_gather {pick : Scopes → Value → List (Key × Value)}
    (hpick : ∀ scopes v, v.NamesDistinct → ∀ k x, (k, x) ∈ pick scopes v → v.child? k = some x)
    {v : Value} (hv : v.NamesDistinct) {scopes : Scopes} {m : Match}
    (hm : m ∈ Search.gather pick scopes v) : v.Leads m.path m.value := by
  induction v using Value.children_induction generalizing scopes m with
  | step v ih =>
    rw [gather_eq, List.mem_append, List.mem_map, List.mem_flatMap] at hm
    rcases hm with ⟨⟨k, x⟩, hk, rfl⟩ | ⟨⟨k, x⟩, hk, hm⟩
    · exact .single (hpick scopes v hv k x hk)
    · obtain ⟨n, hn, rfl⟩ := List.mem_map.mp hm
      exact .cons ((Value.mem_children_iff hv).mp hk) (ih k x hk (hv.of_mem_children hk) hn)

namespace Step

theorem leads_of_mem_finds {step : Step} {scopes : Scopes} {v : Value} (hv : v.NamesDistinct)
    {m : Match} (hm : m ∈ step.finds scopes v) : v.Leads m.path m.value := by
  unfold finds at hm
  split at hm
  · exact Search.leads_of_mem_gather (fun _ _ hv _ _ h => child?_of_mem_pick hv h) hv hm
  · obtain ⟨⟨k, x⟩, hk, rfl⟩ := List.mem_map.mp hm
    exact .single (child?_of_mem_pick hv hk)

/-! ### What a path finds -/

/-- Every step keeps matches below the entry they stand below. -/
theorem standsIn_of_mem_follow {scopes : Scopes} (hs : ∀ v ∈ scopes, v.NamesDistinct) {i : Nat}
    (steps : List Step) {ms : List Match} (hms : ∀ m ∈ ms, m.StandsIn scopes i) :
    ∀ m ∈ follow steps scopes ms, m.StandsIn scopes i := by
  induction steps generalizing ms with
  | nil => simpa using hms
  | cons step steps ih =>
    rw [follow_cons]
    refine ih fun n hn => ?_
    obtain ⟨m, hm, hn⟩ := List.mem_flatMap.mp hn
    obtain ⟨x, hx, rfl⟩ := List.mem_map.mp hn
    obtain ⟨v, keys, hv, hpath, hkeys⟩ := hms m hm
    have hd : m.value.NamesDistinct := hkeys.namesDistinct (hs v (List.mem_of_getElem? hv))
    refine ⟨v, keys ++ x.path, hv, ?_, hkeys.trans (leads_of_mem_finds hd hx)⟩
    simp [Match.under, hpath]

end Step

/-- A path starts from the entry that its first selector chooses. -/
theorem Origin.standsIn_of_select {s : Selector} {scopes : Scopes} {m : Match}
    (h : (s.origin?.bind fun o => o.select scopes) = some m) :
    ∃ i, s.entry? scopes = some i ∧ m.StandsIn scopes i := by
  obtain ⟨o, ho, h⟩ := Option.bind_eq_some_iff.mp h
  simp only [select, Option.bind_eq_some_iff, Option.map_eq_some_iff,
    Option.filter_eq_some_iff] at h
  obtain ⟨i, hi, v, ⟨hv, hp⟩, rfl⟩ := h
  have hlt : i < scopes.length := (List.getElem?_eq_some_iff.mp hv).1
  refine ⟨i, ?_, v, [], hv, rfl, .refl hp⟩
  cases s <;> cases ho
  · cases hi
    simp [Selector.entry?, hlt]
  · exact hi

theorem Origin.exists_standsIn {o : Option Origin} {scopes : Scopes} {m : Match}
    (h : (o.bind fun o => o.select scopes) = some m) : ∃ i, m.StandsIn scopes i := by
  obtain ⟨s, rfl⟩ : ∃ s : Selector, s.origin? = o := by
    cases o with
    | none => cases h
    | some o =>
      cases o with
      | root index => exact ⟨.root index, rfl⟩
      | relative index => exact ⟨.relative index, rfl⟩
  obtain ⟨i, -, hm⟩ := standsIn_of_select h
  exact ⟨i, hm⟩

/-- What any prepared path finds stands below some entry of the stack. -/
theorem Matcher.exists_standsIn {c : Matcher} {scopes : Scopes}
    (hs : ∀ v ∈ scopes, v.NamesDistinct) {m : Match} (hm : m ∈ c.findAll scopes) :
    ∃ i, m.StandsIn scopes i := by
  rw [findAll, Origin.start] at hm
  cases hstart : c.origin.bind fun o => o.select scopes with
  | none => simp [hstart, Step.follow_none] at hm
  | some start =>
    obtain ⟨i, hi⟩ := Origin.exists_standsIn hstart
    rw [hstart] at hm
    refine ⟨i, Step.standsIn_of_mem_follow hs c.steps (fun n hn => ?_) m hm⟩
    rw [List.mem_singleton.mp hn]
    exact hi

theorem Matcher.namesDistinct_of_mem_findAll {c : Matcher} {scopes : Scopes}
    (hs : ∀ v ∈ scopes, v.NamesDistinct) : ∀ m ∈ c.findAll scopes, m.value.NamesDistinct := by
  intro m hm
  obtain ⟨i, v, keys, hv, -, hkeys⟩ := exists_standsIn hs hm
  exact hkeys.namesDistinct (hs v (List.mem_of_getElem? hv))

/-- Matches of paths on one stack are the same if their locations are. -/
theorem Matcher.eq_of_path_eq {c c' : Matcher} {scopes : Scopes}
    (hs : ∀ v ∈ scopes, v.NamesDistinct) {m n : Match} (hm : m ∈ c.findAll scopes)
    (hn : n ∈ c'.findAll scopes) (h : m.path = n.path) : m = n := by
  obtain ⟨i, hi⟩ := exists_standsIn hs hm
  obtain ⟨j, hj⟩ := exists_standsIn hs hn
  exact hi.eq hj h

/-- Paths that match one location have a match in common. -/
theorem Matcher.exists_mem_of_path_mem {c c' : Matcher} {scopes : Scopes}
    (hs : ∀ v ∈ scopes, v.NamesDistinct) {p : Location}
    (h : p ∈ (c.findAll scopes).map (·.path)) (h' : p ∈ (c'.findAll scopes).map (·.path)) :
    ∃ x ∈ c.findAll scopes, x ∈ c'.findAll scopes ∧ x.path = p := by
  obtain ⟨x, hx, rfl⟩ := List.mem_map.mp h
  obtain ⟨y, hy, hpath⟩ := List.mem_map.mp h'
  obtain rfl : y = x := eq_of_path_eq hs hy hx hpath
  exact ⟨y, hx, hy, rfl⟩

/-- What any prepared path finds in a document stands at position 0 of the stack, and its other keys
lead there from the document. -/
theorem Matcher.leads_of_mem_findAll_single {c : Matcher} {source : Value}
    (hs : source.NamesDistinct) {m : Match} (hm : m ∈ c.findAll [source]) :
    ∃ keys, m.path = .index 0 :: keys ∧ source.Leads keys m.value := by
  obtain ⟨i, v, keys, hv, hpath, hkeys⟩ := exists_standsIn (by simpa using hs) hm
  have hi : i < [source].length := (List.getElem?_eq_some_iff.mp hv).1
  obtain rfl : i = 0 := Nat.lt_one_iff.mp hi
  cases hv
  exact ⟨keys, hpath, hkeys⟩

/-- Every match of a prepared path has a location that starts with the position of the scope entry
chosen by the first selector; the other keys lead, one by one and through present values only,
from that entry to exactly the matched value. -/
theorem Matcher.standsIn_of_mem_findAll {ops : Registry} {p : Path} {m : Matcher}
    (hm : (p.prepare ops).result = .ok m) {scopes : Scopes}
    (hs : ∀ v ∈ scopes, v.NamesDistinct) :
    ∀ x ∈ m.findAll scopes,
      ∃ i, p.head?.bind (Selector.entry? scopes) = some i ∧ x.StandsIn scopes i := by
  intro x hx
  rw [findAll, Path.origin_of_prepare hm] at hx
  cases p with
  | nil => simp [Origin.start, Step.follow_none] at hx
  | cons first rest =>
    simp only [List.head?_cons, Option.bind_some, Origin.start] at hx ⊢
    cases hstart : first.origin?.bind fun o => o.select scopes with
    | none => simp [hstart, Step.follow_none] at hx
    | some start =>
      obtain ⟨i, hi, hstands⟩ := Origin.standsIn_of_select hstart
      rw [hstart] at hx
      refine ⟨i, hi, Step.standsIn_of_mem_follow hs m.steps (fun n hn => ?_) x hx⟩
      rw [List.mem_singleton.mp hn]
      exact hstands

/-- A position counted from the end stands in the location counted from the start, and the absent
slot before it counts. -/
theorem Matcher.standsIn_last_element :
    ∃ m scopes,
      (Path.prepare .builtin [.relative 0, .named ["b"] false, .elements [-1]]).result = .ok m ∧
      (m.findAll scopes).map (·.path) = [[.index 1, .name "b", .index 2]] ∧
      ∀ x ∈ m.findAll scopes, ∃ i, some 1 = some i ∧ x.StandsIn scopes i := by
  have hm : (Path.prepare .builtin [.relative 0, .named ["b"] false, .elements [-1]]).result =
      .ok ⟨some (.relative 0), [.named ["b"] false, .elements [-1]]⟩ := rfl
  refine ⟨_, [.null, .object [("b", .array [.null, .absent, .bool true])]], hm, rfl, ?_⟩
  refine standsIn_of_mem_findAll hm ?_
  simp [Value.NamesDistinct, Value.MembersDistinct, Value.ItemsDistinct]

end TreeQuery
