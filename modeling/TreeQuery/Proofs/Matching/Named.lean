import TreeQuery.Proofs.Matching.Descendants
import TreeQuery.Proofs.Matching.Negation

/-! Properties by name, at every depth. A deep search for one name finds, in their order, those
descendants whose last key is the name: at every value there is one member of that name at most,
and it is among the children. A search for several names finds what the searches for each of them
find, so that a name which is asked for twice is found twice. -/

namespace TreeQuery

/-- Whether the last key that leads to a match is this name. -/
def Match.endsIn (m : Match) (name : String) : Bool := m.path.getLast? == some (.name name)

theorem Match.endsIn_under {m : Match} (hm : m.path ≠ []) (p : Location) (name : String) :
    (m.under p).endsIn name = m.endsIn name := by
  rw [endsIn, under, List.getLast?_append_of_ne_nil _ hm, endsIn]

/-! ### One name -/

/-- Where no key is repeated, a key has one entry. -/
theorem filter_key_of_mem {κ α : Type} [DecidableEq κ] {l : List (κ × α)}
    (hl : (l.map (·.1)).Nodup) {k : κ} {x : α} (hx : (k, x) ∈ l) :
    l.filter (·.1 == k) = [(k, x)] := by
  induction l with
  | nil => simp at hx
  | cons c l ih =>
    rw [List.map_cons, List.nodup_cons] at hl
    rcases List.mem_cons.mp hx with rfl | hx
    · have hrest : l.filter (·.1 == k) = [] := by
        rw [List.filter_eq_nil_iff]
        intro d hd hk
        exact hl.1 (List.mem_map.mpr ⟨d, hd, beq_iff_eq.mp hk⟩)
      rw [List.filter_cons_of_pos (by simp), hrest]
    · have hne : c.1 ≠ k := by
        rintro rfl
        exact hl.1 (List.mem_map.mpr ⟨_, hx, rfl⟩)
      rw [List.filter_cons_of_neg (by simpa using hne), ih hl.2 hx]

/-- The member of a name is the only child under that name. -/
theorem Value.filter_children_name {v : Value} (hv : v.NamesDistinct) (name : String) :
    v.children.filter (·.1 == .name name) = Search.namedChildren [name] v := by
  cases h : v.property? name with
  | none =>
    have hnone : v.children.filter (·.1 == .name name) = [] := by
      rw [List.filter_eq_nil_iff]
      rintro ⟨k, x⟩ hc hk
      obtain rfl : k = .name name := beq_iff_eq.mp hk
      exact nomatch h.symm.trans ((mem_children_iff hv).mp hc)
    rw [hnone]
    simp [Search.namedChildren, h]
  | some x =>
    have hk : v.child? (.name name) = some x := h
    rw [filter_key_of_mem (nodup_keys_children hv) ((mem_children_iff hv).mpr hk)]
    simp [Search.namedChildren, h]

namespace Search

/-- A deep search for one name is a choice among all descendants. -/
theorem gather_named_one {v : Value} (hv : v.NamesDistinct) (name : String) (scopes : Scopes) :
    gather (fun _ => namedChildren [name]) scopes v =
      (gather (fun _ => Value.children) scopes v).filter (·.endsIn name) := by
  induction v using Value.children_induction generalizing scopes with
  | step v ih =>
    rw [gather_eq, gather_eq (fun _ => Value.children), List.filter_append, List.filter_map,
      List.filter_flatMap]
    congr 1
    · rw [← Value.filter_children_name hv name]
      rfl
    · rw [List.flatMap_def, List.flatMap_def, List.map_congr_left]
      intro c hc
      -- a path that goes on below the child ends below it as well
      rw [ih c.1 c.2 hc (hv.of_mem_children hc), List.filter_map, List.filter_congr]
      intro m hm
      exact (Match.endsIn_under (path_ne_nil_of_mem_gather hm) [c.1] name).symm

/-! ### Several names -/

theorem namedChildren_cons (name : String) (names : List String) (v : Value) :
    namedChildren (name :: names) v = namedChildren [name] v ++ namedChildren names v := by
  rw [← List.singleton_append, namedChildren, List.filterMap_append]
  rfl

theorem gather_named_nil (scopes : Scopes) (v : Value) :
    gather (fun _ => namedChildren []) scopes v = [] := by
  induction v using Value.children_induction generalizing scopes with
  | step v ih =>
    have hbelow : ∀ c ∈ v.children, (gather (fun _ => namedChildren []) (scopes ++ [c.2]) c.2).map
        (Match.under [c.1]) = [] := by
      intro c hc
      rw [ih c.1 c.2 hc]
      rfl
    rw [gather_eq, List.flatMap_eq_nil_iff.mpr hbelow]
    rfl

/-- Asking for one more name adds what is found for it. -/
theorem splits_gather_named (name : String) (names : List String) (scopes : Scopes) (v : Value) :
    Splits (gather (fun _ => namedChildren (name :: names)) scopes v)
      (gather (fun _ => namedChildren [name]) scopes v)
      (gather (fun _ => namedChildren names) scopes v) := by
  refine splits_gather (fun _ v => ?_) scopes v
  rw [namedChildren_cons]
  exact .joined ..

open Classical in
/-- A descendant is found once for every time that its last key is asked for. -/
theorem count_gather_named {v : Value} (hv : v.NamesDistinct) (names : List String)
    (scopes : Scopes) (m : Match) :
    (gather (fun _ => namedChildren names) scopes v).count m =
      names.countP m.endsIn * (gather (fun _ => Value.children) scopes v).count m := by
  induction names with
  | nil => simp [gather_named_nil]
  | cons name names ih =>
    have hone : (gather (fun _ => namedChildren [name]) scopes v).count m =
        if m.endsIn name then (gather (fun _ => Value.children) scopes v).count m else 0 := by
      rw [gather_named_one hv]
      by_cases hm : m.endsIn name = true
      · rw [if_pos hm]
        exact List.count_filter hm
      · rw [if_neg hm, List.count_eq_zero]
        exact fun h => hm (List.mem_filter.mp h).2
    rw [(splits_gather_named name names scopes v).perm.count_eq, List.count_append, hone, ih,
      List.countP_cons, Nat.add_mul, Nat.add_comm]
    split <;> simp

theorem nodup_gather_children {v : Value} (hv : v.NamesDistinct) (scopes : Scopes) :
    (gather (fun _ => Value.children) scopes v).Nodup :=
  (nodup_locations hv scopes).of_map

end Search

namespace Step

open Classical in
/-- A deep search for names finds nothing but descendants. Each of them is found as many times as
the names asked for repeat its last key, and not at all if that key is a position or none of the
names. The search for one name finds all descendants whose last key it is, in their order. -/
theorem findAll_named_deep {v : Value} (hv : v.NamesDistinct) (scopes : Scopes) :
    (∀ names m, ((named names true).findAll scopes v).count m =
      if m ∈ (all true).findAll scopes v then names.countP m.endsIn else 0) ∧
    ∀ name, (named [name] true).findAll scopes v =
      ((all true).findAll scopes v).filter (·.endsIn name) := by
  have hall : (all true).finds scopes v = Search.gather (fun _ => Value.children) scopes v := rfl
  simp only [findAll_eq_finds, hall]
  constructor
  · intro names m
    have hcount := Search.count_gather_named hv names scopes m
    rw [(Search.nodup_gather_children hv scopes).count] at hcount
    refine hcount.trans ?_
    split <;> simp
  · exact fun name => Search.gather_named_one hv name scopes

open Classical in
/-- A name that is asked for twice, and members of that name inside and below an array. -/
theorem findAll_named_deep_twice :
    let v : Value :=
      .object [("b", .bool true), ("a", .array [.absent, .object [("a", .null)]])]
    v.NamesDistinct ∧
    ((named ["a", "b", "a"] true).findAll [] v).map (·.path) =
      [[.name "a"], [.name "b"], [.name "a"], [.name "a", .index 1, .name "a"],
        [.name "a", .index 1, .name "a"]] ∧
    ((named ["a", "b", "a"] true).findAll [] v).count
      ⟨[.name "a", .index 1, .name "a"], .null⟩ = 2 ∧
    (named ["a"] true).findAll [] v = ((all true).findAll [] v).filter (·.endsIn "a") := by
  intro v
  have hv : v.NamesDistinct := by
    simp [v, Value.NamesDistinct, Value.MembersDistinct, Value.ItemsDistinct]
  obtain ⟨hcount, hone⟩ := findAll_named_deep hv []
  have hfound := ((findAll_all_deep hv []).1 ⟨[.name "a", .index 1, .name "a"], .null⟩).mpr
    ⟨by simp, .cons rfl (.cons rfl (.single rfl))⟩
  refine ⟨hv, by decide +kernel, ?_, hone "a"⟩
  rw [hcount, if_pos hfound]
  decide

end Step

end TreeQuery
