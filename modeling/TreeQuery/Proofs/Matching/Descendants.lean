import TreeQuery.Proofs.Matching.Filters
import Mathlib.Data.List.Nodup

/-! The descendants of a value. A deep search lists the location of everything below a value once:
a value before what is below it, and the children of one value in the order in which it holds them.
The list is made of the keys of the children and then, for each child, of its own list with the key
of the child in front. -/

namespace TreeQuery

namespace Value

/-! ### The order of children -/

/-- `k` stands before `l` in the value: a lower position in an array, or the name of a member
written earlier in an object. -/
def Precedes : Value → Key → Key → Prop
  | array _, .index i, .index j => i < j
  | object members, .name s, .name t => [s, t].Sublist (members.map (·.1))
  | _, _, _ => False

theorem sublist_pair_of_getElem? {α : Type} {l : List α} {i j : Nat} {a b : α} (hij : i < j)
    (hi : l[i]? = some a) (hj : l[j]? = some b) : [a, b].Sublist l := by
  have ha : a ∈ l.take j := List.mem_of_getElem? (i := i) (by rwa [List.getElem?_take_of_lt hij])
  have hb : b ∈ l.drop j := List.mem_of_getElem? (i := 0) (by simpa using hj)
  rw [← List.take_append_drop j l]
  exact (List.singleton_sublist.mpr ha).append (List.singleton_sublist.mpr hb)

/-- Members come in the order of their names. -/
theorem sublist_members {members : List (String × Value)} {s t : String} {x y : Value}
    (hm : (members.map (·.1)).Nodup) (hx : (s, x) ∈ members) (hy : (t, y) ∈ members)
    (h : [s, t].Sublist (members.map (·.1))) : [(s, x), (t, y)].Sublist members := by
  obtain ⟨pair, hpair, hnames⟩ := List.sublist_map_iff.mp h
  match pair, hnames with
  | [m, n], hnames =>
    simp only [List.map_cons, List.map_nil, List.cons.injEq, and_true] at hnames
    have hm' : m = (s, x) := List.inj_on_of_nodup_map hm (hpair.subset (by simp)) hx hnames.1.symm
    have hn' : n = (t, y) := List.inj_on_of_nodup_map hm (hpair.subset (by simp)) hy hnames.2.symm
    rwa [hm', hn'] at hpair

/-- Children come in the order of their keys. -/
theorem sublist_children {v x y : Value} {k l : Key} (hv : v.NamesDistinct)
    (hk : v.child? k = some x) (hl : v.child? l = some y) (h : v.Precedes k l) :
    [(k, x), (l, y)].Sublist v.children := by
  have hx : x.isPresent = true := isPresent_child hk
  have hy : y.isPresent = true := isPresent_child hl
  cases v with
  | array items =>
    cases k <;> cases l <;> simp only [Precedes] at h
    next i j =>
    simp only [child?, element?, items?, Option.bind_some, Option.filter_eq_some_iff] at hk hl
    have hitems : [(x, i), (y, j)].Sublist items.zipIdx :=
      sublist_pair_of_getElem? h (by simp [hk.1]) (by simp [hl.1])
    have hkeys := (hitems.map fun c => (Key.index c.2, c.1)).filter (·.2.isPresent)
    simpa [children, hx, hy] using hkeys
  | object members =>
    cases k <;> cases l <;> simp only [Precedes] at h
    next s t =>
    simp only [child?, property?, members?, Option.bind_some, Option.filter_eq_some_iff,
      lookup_eq_some_iff hv.1] at hk hl
    have hmembers := sublist_members hv.1 hk.1 hl.1 h
    have hkeys := (hmembers.map fun m => (Key.name m.1, m.2)).filter (·.2.isPresent)
    simpa [children, hx, hy] using hkeys
  | _ => simp [Precedes] at h

/-- No two children have the same key. -/
theorem nodup_keys_children {v : Value} (hv : v.NamesDistinct) :
    (v.children.map (·.1)).Nodup := by
  cases v with
  | array items =>
    have hkeys : ((items.zipIdx.map fun c => (Key.index c.2, c.1)).map (·.1)).Nodup := by
      rw [List.map_map]
      change (items.zipIdx.map (Key.index ∘ Prod.snd)).Nodup
      rw [← List.map_map, List.zipIdx_map_snd]
      exact .map (fun i j h => Key.index.inj h) List.nodup_range'
    exact hkeys.sublist (List.filter_sublist.map _)
  | object members =>
    have hkeys : ((members.map fun m => (Key.name m.1, m.2)).map (·.1)).Nodup := by
      simpa [Function.comp_def] using hv.1.map fun s t h => Key.name.inj h
    exact hkeys.sublist (List.filter_sublist.map _)
  | _ => simp [children]

end Value

/-! ### What is listed -/

namespace Search

/-- The locations of everything below a value, in the order in which a deep search finds it. -/
def locations (scopes : Scopes) (v : Value) : List Location :=
  (gather (fun _ => Value.children) scopes v).map (·.path)

theorem locations_eq (scopes : Scopes) (v : Value) :
    locations scopes v = v.children.map (fun c => [c.1]) ++
      v.children.flatMap fun c => (locations (scopes ++ [c.2]) c.2).map (c.1 :: ·) := by
  simp only [locations, gather_eq _ scopes v, List.map_append, List.map_map, List.map_flatMap]
  rfl

/-- Everything below a value is found. -/
theorem mem_gather_of_leads {v : Value} (hv : v.NamesDistinct) (scopes : Scopes) {p : Location}
    {x : Value} (hp : p ≠ []) (h : v.Leads p x) :
    ⟨p, x⟩ ∈ gather (fun _ => Value.children) scopes v := by
  induction p generalizing v scopes with
  | nil => exact absurd rfl hp
  | cons k p ih =>
    obtain ⟨y, hy, hleads⟩ := h.of_cons
    have hk := (Value.mem_children_iff hv).mpr hy
    rw [gather_eq, List.mem_append, List.mem_map, List.mem_flatMap]
    cases p with
    | nil =>
      rw [hleads.eq_of_nil]
      exact .inl ⟨(k, y), hk, rfl⟩
    | cons l p =>
      have hy' := ih (hv.of_child? hy) (scopes ++ [y]) (List.cons_ne_nil l p) hleads
      exact .inr ⟨(k, y), hk, List.mem_map.mpr ⟨_, hy', rfl⟩⟩

theorem mem_gather_children_iff {v : Value} (hv : v.NamesDistinct) (scopes : Scopes) (m : Match) :
    m ∈ gather (fun _ => Value.children) scopes v ↔ m.path ≠ [] ∧ v.Leads m.path m.value :=
  ⟨fun hm => ⟨path_ne_nil_of_mem_gather hm,
    leads_of_mem_gather (fun _ _ hv _ _ h => (Value.mem_children_iff hv).mp h) hv hm⟩,
    fun h => mem_gather_of_leads hv scopes h.1 h.2⟩

theorem mem_locations_iff {v : Value} (hv : v.NamesDistinct) (scopes : Scopes) (p : Location) :
    p ∈ locations scopes v ↔ p ≠ [] ∧ ∃ x, v.Leads p x := by
  rw [locations, List.mem_map]
  constructor
  · rintro ⟨m, hm, rfl⟩
    obtain ⟨hne, hleads⟩ := (mem_gather_children_iff hv scopes m).mp hm
    exact ⟨hne, m.value, hleads⟩
  · rintro ⟨hne, x, hleads⟩
    exact ⟨⟨p, x⟩, mem_gather_of_leads hv scopes hne hleads, rfl⟩

/-- If the children picked at every value have different keys, no location is found twice. -/
theorem nodup_gather {pick : Scopes → Value → List (Key × Value)}
    (hpick : ∀ scopes v, v.NamesDistinct → ((pick scopes v).map (·.1)).Nodup) {v : Value}
    (hv : v.NamesDistinct) (scopes : Scopes) :
    ((gather pick scopes v).map (·.path)).Nodup := by
  induction v using Value.children_induction generalizing scopes with
  | step v ih =>
    have hkeys := Value.nodup_keys_children hv
    rw [gather_eq, List.map_append, List.map_flatMap, Match.paths_ofChild, List.nodup_append,
      List.nodup_flatMap]
    simp only [Match.paths_under]
    refine ⟨(hpick scopes v hv).map List.singleton_injective, ⟨fun c hc => ?_, ?_⟩, ?_⟩
    · exact (ih c.1 c.2 hc (hv.of_mem_children hc) _).map (List.append_right_injective _)
    · -- locations below different children start with different keys
      refine (List.pairwise_map.mp hkeys).imp fun {c d} hcd p hp hq => ?_
      obtain ⟨p', -, rfl⟩ := List.mem_map.mp hp
      obtain ⟨q', -, hq'⟩ := List.mem_map.mp hq
      exact hcd (List.cons.inj hq').1.symm
    · -- the first part holds locations of one key, the second of more
      intro p hp q hq h
      obtain ⟨k, -, rfl⟩ := List.mem_map.mp hp
      obtain ⟨c, -, hq⟩ := List.mem_flatMap.mp hq
      obtain ⟨q', hq', rfl⟩ := List.mem_map.mp hq
      obtain ⟨m, hm, rfl⟩ := List.mem_map.mp hq'
      exact path_ne_nil_of_mem_gather hm (List.cons.inj h).2.symm

/-- No location is listed twice. -/
theorem nodup_locations {v : Value} (hv : v.NamesDistinct) (scopes : Scopes) :
    (locations scopes v).Nodup :=
  nodup_gather (fun _ _ hv => Value.nodup_keys_children hv) hv scopes

/-! ### The order of the list -/

/-- What is listed below a child in some order is listed below its parent in that order. -/
theorem sublist_locations_cons {v x : Value} {k : Key} (hk : (k, x) ∈ v.children) {scopes : Scopes}
    {p q : Location} (h : [p, q].Sublist (locations (scopes ++ [x]) x)) :
    [k :: p, k :: q].Sublist (locations scopes v) := by
  rw [locations_eq]
  refine .trans ?_ (List.sublist_append_right ..)
  exact (h.map (k :: ·)).trans (List.sublist_flatten_of_mem (List.mem_map.mpr ⟨(k, x), hk, rfl⟩))

/-- A location comes before those below it. -/
theorem sublist_locations_of_prefix {v : Value} (hv : v.NamesDistinct) (scopes : Scopes)
    {p q : Location} (hp : p ≠ []) (hpq : p <+: q) (hne : p ≠ q) {x : Value} (hq : v.Leads q x) :
    [p, q].Sublist (locations scopes v) := by
  induction p generalizing v scopes q with
  | nil => exact absurd rfl hp
  | cons k p ih =>
    obtain ⟨r, rfl⟩ := hpq
    obtain ⟨y, hy, hleads⟩ := hq.of_cons
    have hk := (Value.mem_children_iff hv).mpr hy
    have hd := hv.of_child? hy
    cases p with
    | nil =>
      have hr : r ≠ [] := fun h => hne (by simp [h])
      have hmem := (mem_locations_iff hd (scopes ++ [y]) r).mpr ⟨hr, x, hleads⟩
      have hfirst : [k] ∈ v.children.map fun c => [c.1] := List.mem_map.mpr ⟨(k, y), hk, rfl⟩
      have hlater : k :: r ∈ v.children.flatMap fun c =>
          (locations (scopes ++ [c.2]) c.2).map (c.1 :: ·) :=
        List.mem_flatMap.mpr ⟨(k, y), hk, List.mem_map.mpr ⟨r, hmem, rfl⟩⟩
      rw [locations_eq]
      exact (List.singleton_sublist.mpr hfirst).append (List.singleton_sublist.mpr hlater)
    | cons l p =>
      refine sublist_locations_cons hk (ih hd (scopes ++ [y]) (List.cons_ne_nil l p)
        (List.prefix_append ..) (fun h => hne (congrArg (k :: ·) h)) hleads)

/-- The children of one value come in the order in which it holds them. -/
theorem sublist_locations_of_precedes {v : Value} (hv : v.NamesDistinct) (scopes : Scopes)
    {p : Location} {parent x y : Value} {k l : Key} (hp : v.Leads p parent)
    (hk : parent.child? k = some x) (hl : parent.child? l = some y) (h : parent.Precedes k l) :
    [p ++ [k], p ++ [l]].Sublist (locations scopes v) := by
  induction p generalizing v scopes with
  | nil =>
    rw [hp.eq_of_nil] at hk hl h
    rw [locations_eq]
    refine .trans ?_ (List.sublist_append_left ..)
    exact (Value.sublist_children hv hk hl h).map fun c => [c.1]
  | cons j p ih =>
    obtain ⟨z, hz, hleads⟩ := hp.of_cons
    exact sublist_locations_cons ((Value.mem_children_iff hv).mpr hz)
      (ih (hv.of_child? hz) (scopes ++ [z]) hleads)

end Search

namespace Step

theorem locations_findAll_all_deep (scopes : Scopes) (v : Value) :
    ((all true).findAll scopes v).map (·.path) = Search.locations scopes v := by
  rw [findAll_eq_finds]
  rfl

/-- A deep search for everything finds a value at a location exactly if the location is not empty
and leads to the value through present values only. Each location is listed once, before those that
go on from it, and the children of a value are listed in the order in which it holds them. -/
theorem findAll_all_deep {v : Value} (hv : v.NamesDistinct) (scopes : Scopes) :
    let found := (all true).findAll scopes v
    let paths := found.map (·.path)
    (∀ m, m ∈ found ↔ m.path ≠ [] ∧ v.Leads m.path m.value) ∧
    paths.Nodup ∧
    (∀ p q, p ∈ paths → q ∈ paths → p <+: q → p ≠ q → [p, q].Sublist paths) ∧
    ∀ p parent k x l y, v.Leads p parent → parent.child? k = some x → parent.child? l = some y →
      parent.Precedes k l → [p ++ [k], p ++ [l]].Sublist paths := by
  intro found paths
  have hpaths : paths = Search.locations scopes v := locations_findAll_all_deep scopes v
  rw [hpaths]
  refine ⟨fun m => ?_, Search.nodup_locations hv scopes, fun p q hp hq hpq hne => ?_,
    fun p parent k x l y hp hk hl h => Search.sublist_locations_of_precedes hv scopes hp hk hl h⟩
  · rw [show found = (all true).finds scopes v from findAll_eq_finds ..]
    exact Search.mem_gather_children_iff hv scopes m
  · obtain ⟨-, x, hx⟩ := (Search.mem_locations_iff hv scopes q).mp hq
    have hp := ((Search.mem_locations_iff hv scopes p).mp hp).1
    exact Search.sublist_locations_of_prefix hv scopes hp hpq hne hx

/-- Children are listed before grandchildren, and absent slots are passed over. -/
theorem findAll_all_deep_nested :
    ∃ v,
      ((all true).findAll [] v).map (·.path) =
        [[.name "a"], [.name "c"], [.name "a", .index 1], [.name "a", .index 2],
          [.name "a", .index 1, .name "d"]] ∧
      [[.name "a", .index 1], [.name "a", .index 2]].Sublist
        (((all true).findAll [] v).map (·.path)) := by
  have hv : (Value.object [("a", .array [.absent, .object [("d", .null)], .bool true]),
      ("b", .absent), ("c", .string "")]).NamesDistinct := by
    simp [Value.NamesDistinct, Value.MembersDistinct, Value.ItemsDistinct]
  refine ⟨_, by decide +kernel, (findAll_all_deep hv []).2.2.2 [.name "a"] _ (.index 1) _
    (.index 2) _ (.single rfl) rfl rfl ?_⟩
  exact Nat.lt_succ_self 1

end Step

end TreeQuery
