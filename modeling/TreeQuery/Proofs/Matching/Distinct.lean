import TreeQuery.Proofs.Matching.Descendants
import TreeQuery.Proofs.Matching.Preparation
import TreeQuery.Proofs.Matching.TwoRuns

/-! Paths that match no location twice. A step that picks children under different keys keeps the
locations of matches apart: it puts one key behind each of them, or, if it is deep, several keys
behind locations of one length, none of which is the start of another. After a deep step locations
differ in length, so a second one could meet what the first has found. -/

namespace TreeQuery

namespace Positions

/-- No position of any array is meant twice: the indices are different, and all of them count from
the same end. -/
def Separate (indices : List Int) : Prop :=
  indices.Nodup ∧ ((∀ i ∈ indices, 0 ≤ i) ∨ ∀ i ∈ indices, i < 0)

theorem single?_injective {length : Nat} {i j : Int} (hsign : 0 ≤ i ↔ 0 ≤ j) {k : Nat}
    (hi : single? length i = some k) (hj : single? length j = some k) : i = j := by
  simp only [single?, Option.ite_none_right_eq_some, Option.some.injEq] at hi hj
  have heq : fromEnd length i = fromEnd length j := by omega
  simp only [fromEnd] at heq
  split at heq <;> split at heq <;> omega

theorem Separate.nodup_single? {indices : List Int} (h : Separate indices) (length : Nat) :
    (indices.filterMap (single? length)).Nodup := by
  refine List.pairwise_filterMap.mpr (h.1.imp_of_mem fun {i j} hi hj hne k hk l hl hkl => ?_)
  have hsign : 0 ≤ i ↔ 0 ≤ j := by
    rcases h.2 with hpos | hneg
    · exact iff_of_true (hpos i hi) (hpos j hj)
    · exact iff_of_false (Int.not_le.mpr (hneg i hi)) (Int.not_le.mpr (hneg j hj))
  exact hne (single?_injective hsign hk (hkl ▸ hl))

/-! ### Slices -/

theorem le_of_mem_upTo {bound step i : Int} (hi : 0 ≤ i) {k : Nat}
    (hk : k ∈ upTo bound step i) : i ≤ k := by
  induction i using upTo.induct bound step with
  | case1 i h ih =>
    rw [upTo, if_pos h, List.mem_cons] at hk
    rcases hk with rfl | hk
    · omega
    · have := ih (by omega) hk
      omega
  | case2 i h => simp [upTo, h] at hk

/-- A forward slice takes its positions in ascending order. -/
theorem pairwise_upTo {bound step i : Int} (hi : 0 ≤ i) :
    (upTo bound step i).Pairwise (· < ·) := by
  induction i using upTo.induct bound step with
  | case1 i h ih =>
    rw [upTo, if_pos h, List.pairwise_cons]
    refine ⟨fun k hk => ?_, ih (by omega)⟩
    have := le_of_mem_upTo (by omega) hk
    omega
  | case2 i h => simp [upTo, h]

theorem le_of_mem_downTo {bound step i : Int} (hbound : -1 ≤ bound) {k : Nat}
    (hk : k ∈ downTo bound step i) : k ≤ i := by
  induction i using downTo.induct bound step with
  | case1 i h ih =>
    rw [downTo, if_pos h, List.mem_cons] at hk
    rcases hk with rfl | hk
    · omega
    · have := ih hk
      omega
  | case2 i h => simp [downTo, h] at hk

/-- A backward slice takes its positions in descending order. -/
theorem pairwise_downTo {bound step i : Int} (hbound : -1 ≤ bound) :
    (downTo bound step i).Pairwise (· > ·) := by
  induction i using downTo.induct bound step with
  | case1 i h ih =>
    rw [downTo, if_pos h, List.pairwise_cons]
    refine ⟨fun k hk => ?_, ih⟩
    have := le_of_mem_downTo hbound hk
    omega
  | case2 i h => simp [downTo, h]

theorem le_clamp (low high i : Int) : low ≤ clamp low high i := Int.le_max_left ..

/-- No slice takes a position twice. -/
theorem nodup_slice (length : Nat) (start stop step : Option Int) :
    (slice length start stop step).Nodup := by
  unfold slice
  dsimp only
  split
  · exact (pairwise_upTo (le_clamp ..)).imp Nat.ne_of_lt
  · split
    · refine (pairwise_downTo ?_).imp Nat.ne_of_gt
      cases stop with
      | none => exact Int.le_refl _
      | some i => exact le_clamp ..
    · exact List.nodup_nil

end Positions

/-! ### Selectors and steps -/

/-- Whether a selector goes on below the children of a value. -/
def Selector.isDeep : Selector → Bool
  | named _ deep | all deep | filter _ deep => deep
  | root _ | relative _ | elements _ | slice .. => false

/-- The selector asks for no name and for no position twice. -/
def Selector.AsksOnce : Selector → Prop
  | named names _ => names.Nodup
  | elements positions => Positions.Separate positions
  | _ => True

/-- The children that a step picks from any value have different keys. -/
def Step.PicksOnce (step : Step) : Prop :=
  ∀ scopes v, v.NamesDistinct → ((step.pick scopes v).map (·.1)).Nodup

section

variable {rel : Condition → Test → Prop}

theorem Selector.Yields.isDeep_eq {s : Selector} {step : Step} (h : s.Yields rel step) :
    s.isDeep = step.isDeep := by
  cases h with
  | scope hs => cases s <;> first | rfl | cases hs
  | _ => rfl

theorem Value.nodup_keys_childrenAt (v : Value) {keys : List Key} (h : keys.Nodup) :
    ((v.childrenAt keys).map (·.1)).Nodup := by
  refine List.pairwise_map.mpr (List.pairwise_filterMap.mpr (h.imp fun {k l} hkl c hc d hd => ?_))
  obtain ⟨x, -, rfl⟩ := Option.map_eq_some_iff.mp hc
  obtain ⟨y, -, rfl⟩ := Option.map_eq_some_iff.mp hd
  exact hkl

theorem Value.nodup_keys_positions (v : Value) {positions : Nat → List Nat}
    (h : ∀ n, (positions n).Nodup) :
    ((v.childrenAt ((v.length?.elim [] positions).map .index)).map (·.1)).Nodup := by
  refine v.nodup_keys_childrenAt (.map (fun _ _ => Key.index.inj) ?_)
  cases v.length? with
  | none => exact List.nodup_nil
  | some n => exact h n

theorem Selector.Yields.picksOnce {s : Selector} {step : Step} (h : s.Yields rel step)
    (hs : s.AsksOnce) : step.PicksOnce := by
  intro scopes v hv
  cases h with
  | scope => exact List.nodup_nil
  | named names deep =>
    rw [Step.pick, Search.namedChildren_eq]
    exact v.nodup_keys_childrenAt (hs.map fun _ _ => Key.name.inj)
  | elements positions =>
    rw [Step.pick, Search.elements_eq]
    exact v.nodup_keys_positions hs.nodup_single?
  | slice start stop step =>
    rw [Step.pick, Search.slice_eq]
    exact v.nodup_keys_positions fun n => Positions.nodup_slice n start stop step
  | all deep => exact Value.nodup_keys_children hv
  | filter _ deep => exact (Value.nodup_keys_children hv).sublist (List.filter_sublist.map _)

end

namespace Step

theorem PicksOnce.nodup_finds {step : Step} (h : step.PicksOnce) (scopes : Scopes) {v : Value}
    (hv : v.NamesDistinct) : ((step.finds scopes v).map (·.path)).Nodup := by
  unfold finds
  split
  · exact Search.nodup_gather h hv scopes
  · rw [Match.paths_ofChild]
    exact (h scopes v hv).map List.singleton_injective

theorem length_of_mem_finds {step : Step} (h : step.isDeep = false) {scopes : Scopes} {v : Value}
    {m : Match} (hm : m ∈ step.finds scopes v) : m.path.length = 1 := by
  rw [finds, h] at hm
  obtain ⟨c, -, rfl⟩ := List.mem_map.mp hm
  rfl

/-! ### One step -/

/-- What a step finds below some matches, in their order. -/
def next (step : Step) (scopes : Scopes) (ms : List Match) : List Match :=
  ms.flatMap fun m => (step.finds scopes m.value).map (.under m.path)

section

variable {step : Step} {scopes : Scopes} {ms : List Match}

theorem mem_next_iff {n : Match} : n ∈ step.next scopes ms ↔
    ∃ m ∈ ms, ∃ x ∈ step.finds scopes m.value, x.under m.path = n := by
  simp [next, List.mem_flatMap, List.mem_map]

theorem namesDistinct_next (hms : ∀ m ∈ ms, m.value.NamesDistinct) :
    ∀ n ∈ step.next scopes ms, n.value.NamesDistinct := by
  intro n hn
  obtain ⟨m, hm, x, hx, rfl⟩ := mem_next_iff.mp hn
  exact (leads_of_mem_finds (hms m hm) hx).namesDistinct (hms m hm)

/-- A step that is not deep makes every location longer by one key. -/
theorem length_next (hstep : step.isDeep = false) {k : Nat} (hms : ∀ m ∈ ms, m.path.length = k) :
    ∀ n ∈ step.next scopes ms, n.path.length = k + 1 := by
  intro n hn
  obtain ⟨m, hm, x, hx, rfl⟩ := mem_next_iff.mp hn
  simp [Match.under, hms m hm, length_of_mem_finds hstep hx]

/-- A step keeps locations apart if it is not deep or starts from locations of one length. -/
theorem nodup_next (hstep : step.PicksOnce) (hms : (ms.map (·.path)).Nodup)
    (hvalues : ∀ m ∈ ms, m.value.NamesDistinct)
    (hlength : step.isDeep = true → ∃ k, ∀ m ∈ ms, m.path.length = k) :
    ((step.next scopes ms).map (·.path)).Nodup := by
  rw [next, List.map_flatMap, List.nodup_flatMap]
  simp only [Match.paths_under]
  refine ⟨fun m hm => (hstep.nodup_finds scopes (hvalues m hm)).map
    (List.append_right_injective _), ?_⟩
  refine (List.pairwise_map.mp hms).imp_of_mem fun {m n} hm hn hne p hp hq => ?_
  obtain ⟨p', hp', rfl⟩ := List.mem_map.mp hp
  obtain ⟨q', hq', heq⟩ := List.mem_map.mp hq
  cases hdeep : step.isDeep with
  | true =>
    -- neither location is the start of the other
    obtain ⟨k, hk⟩ := hlength hdeep
    exact hne (List.append_inj_left heq ((hk n hn).trans (hk m hm).symm)).symm
  | false =>
    -- one key was put behind both
    obtain ⟨x, hx, rfl⟩ := List.mem_map.mp hp'
    obtain ⟨y, hy, rfl⟩ := List.mem_map.mp hq'
    have hlast : y.path.length = x.path.length := by
      rw [length_of_mem_finds hdeep hx, length_of_mem_finds hdeep hy]
    exact hne (List.append_inj_left' heq hlast).symm

end

/-! ### All steps -/

theorem length_follow {steps : List Step} (hsteps : ∀ step ∈ steps, step.isDeep = false)
    {scopes : Scopes} {k : Nat} {ms : List Match} (hms : ∀ m ∈ ms, m.path.length = k) :
    ∀ x ∈ follow steps scopes ms, x.path.length = k + steps.length := by
  induction steps generalizing k ms with
  | nil => simpa using hms
  | cons step steps ih =>
    obtain ⟨hstep, hsteps⟩ := List.forall_mem_cons.mp hsteps
    rw [follow_cons, List.length_cons, Nat.add_comm steps.length, ← Nat.add_assoc]
    exact ih hsteps (length_next hstep hms)

/-- Steps keep locations apart if at most one of them is deep and the locations before it have one
length. -/
theorem nodup_follow {steps : List Step} (hsteps : ∀ step ∈ steps, step.PicksOnce)
    (hdeep : steps.countP isDeep ≤ 1) {scopes : Scopes} {ms : List Match}
    (hms : (ms.map (·.path)).Nodup) (hvalues : ∀ m ∈ ms, m.value.NamesDistinct)
    (hlength : 0 < steps.countP isDeep → ∃ k, ∀ m ∈ ms, m.path.length = k) :
    ((follow steps scopes ms).map (·.path)).Nodup := by
  induction steps generalizing ms with
  | nil => simpa using hms
  | cons step steps ih =>
    obtain ⟨hstep, hsteps⟩ := List.forall_mem_cons.mp hsteps
    rw [List.countP_cons] at hdeep hlength
    rw [follow_cons]
    refine ih hsteps (by omega) (nodup_next hstep hms hvalues fun h => hlength (by simp [h]))
      (namesDistinct_next hvalues) fun hlater => ?_
    -- a deep step is still to come, so this one is not deep
    have hflat : step.isDeep = false := by
      by_contra h
      rw [Bool.not_eq_false] at h
      rw [h, if_pos rfl] at hdeep
      omega
    obtain ⟨k, hk⟩ := hlength (by omega)
    exact ⟨k + 1, length_next hflat hk⟩

end Step

/-! ### A whole path -/

/-- A path starts from one match at most, which stands at an entry of the stack. -/
theorem Origin.start_eq (o : Option Origin) (scopes : Scopes) :
    start o scopes = [] ∨
      ∃ i v, scopes[i]? = some v ∧ start o scopes = [⟨[.index i], v⟩] := by
  unfold start
  cases h : o.bind (·.select scopes) with
  | none => exact .inl rfl
  | some m =>
    obtain ⟨o, -, ho⟩ := Option.bind_eq_some_iff.mp h
    simp only [select_eq, Option.bind_eq_some_iff, Option.map_eq_some_iff,
      Option.filter_eq_some_iff] at ho
    obtain ⟨i, -, v, ⟨hv, -⟩, rfl⟩ := ho
    exact .inr ⟨i, v, hv, rfl⟩

section

variable {rel : Condition → Test → Prop}

theorem Selector.Yields.countP_isDeep {p : List Selector} {steps : List Step}
    (h : List.Forall₂ (Selector.Yields rel) p steps) :
    steps.countP Step.isDeep = p.countP Selector.isDeep := by
  induction h with
  | nil => rfl
  | cons hs _ ih => rw [List.countP_cons, List.countP_cons, hs.isDeep_eq, ih]

/-- If no selector is deep, a location has as many keys as the path has selectors. -/
theorem Path.Yields.length_path {p : Path} {m : Matcher} (hp : p.Yields rel m)
    (hflat : ∀ s ∈ p, s.isDeep = false) (scopes : Scopes) :
    ∀ x ∈ m.findAll scopes, x.path.length = p.length := by
  intro x hx
  rw [Matcher.findAll] at hx
  cases p with
  | nil => simp [hp.origin, Origin.start, Step.follow_none] at hx
  | cons first rest =>
    have hrest : List.Forall₂ (Selector.Yields rel) rest m.steps := hp.steps
    have hsteps : ∀ step ∈ m.steps, step.isDeep = false := fun step hstep => by
      obtain ⟨s, hs, hyields⟩ := hrest.exists_of_mem_right hstep
      exact hyields.isDeep_eq ▸ hflat s (List.mem_cons_of_mem first hs)
    have hstart : ∀ n ∈ Origin.start m.origin scopes, n.path.length = 1 := by
      rcases Origin.start_eq m.origin scopes with hstart | ⟨i, v, -, hstart⟩ <;> simp [hstart]
    rw [Step.length_follow hsteps hstart x hx, ← hrest.length_eq, List.length_cons, Nat.add_comm]

end

/-- A path with at most one deep selector, none of which asks for a name or a position twice,
matches no location twice; and if no selector is deep, every match is at a location with as many
keys as the path has selectors. -/
theorem Matcher.nodup_paths_findAll {ops : Registry} {p : Path} {m : Matcher}
    (hm : (p.prepare ops).result = .ok m) (hdeep : p.countP Selector.isDeep ≤ 1)
    (hasks : ∀ s ∈ p, s.AsksOnce) {scopes : Scopes} (hs : ∀ v ∈ scopes, v.NamesDistinct) :
    ((m.findAll scopes).map (·.path)).Nodup ∧
      ((∀ s ∈ p, s.isDeep = false) → ∀ x ∈ m.findAll scopes, x.path.length = p.length) := by
  have hp := Path.yields_of_prepare Condition.compositional_true p m hm
  refine ⟨?_, fun hflat => hp.length_path hflat scopes⟩
  rw [findAll]
  cases p with
  | nil =>
    rw [hp.origin]
    simp [Origin.start, Step.follow_none]
  | cons first rest =>
    have hrest : List.Forall₂ (Selector.Yields _) rest m.steps := hp.steps
    have hpicks : ∀ step ∈ m.steps, step.PicksOnce := fun step hstep => by
      obtain ⟨s, hs, hyields⟩ := hrest.exists_of_mem_right hstep
      exact hyields.picksOnce (hasks s (List.mem_cons_of_mem first hs))
    have hcount : m.steps.countP Step.isDeep ≤ 1 := by
      rw [Selector.Yields.countP_isDeep hrest]
      exact Nat.le_trans ((List.sublist_cons_self first rest).countP_le) hdeep
    rcases Origin.start_eq m.origin scopes with hstart | ⟨i, v, hv, hstart⟩
    · simp [hstart, Step.follow_none]
    · rw [hstart]
      have hlength : ∀ x ∈ [(⟨[.index i], v⟩ : Match)], x.path.length = 1 := by simp
      exact Step.nodup_follow hpicks hcount (List.nodup_singleton _)
        (by simpa using hs v (List.mem_of_getElem? hv)) fun _ => ⟨1, hlength⟩

/-- A backward slice of everything below two members, and their elements counted from the end. -/
theorem Matcher.nodup_paths_findAll_backward :
    ∃ (m n : Matcher) (scopes : Scopes),
      (m.findAll scopes).map (·.path) =
        [[.index 0, .name "b", .index 1, .index 1], [.index 0, .name "b", .index 1, .index 0],
          [.index 0, .name "a", .index 0, .index 1], [.index 0, .name "a", .index 0, .index 0],
          [.index 0, .name "a", .index 0, .index 1, .index 0]] ∧
      ((m.findAll scopes).map (·.path)).Nodup ∧
      (n.findAll scopes).map (·.path) =
        [[.index 0, .name "b", .index 1], [.index 0, .name "b", .index 0],
          [.index 0, .name "a", .index 0]] ∧
      ∀ x ∈ n.findAll scopes, x.path.length = 3 := by
  let deep : Path := [.root 0, .named ["b", "a"] false, .all true, .slice none none (some (-1))]
  let flat : Path := [.root 0, .named ["b", "a"] false, .elements [-1, -2]]
  let source : Value := .object [("a", .array [.array [.null, .array [.string ""]], .absent]),
    ("b", .array [.null, .array [.bool true, .bool false]])]
  have hdeep : (deep.prepare .builtin).result = .ok ⟨some (.root 0),
    [.named ["b", "a"] false, .all true, .slice none none (some (-1))]⟩ := rfl
  have hflat : (flat.prepare .builtin).result = .ok ⟨some (.root 0),
    [.named ["b", "a"] false, .elements [-1, -2]]⟩ := rfl
  have hs : ∀ v ∈ [source], v.NamesDistinct := by
    simp [source, Value.NamesDistinct, Value.MembersDistinct, Value.ItemsDistinct]
  refine ⟨_, _, [source], by decide +kernel,
    (nodup_paths_findAll hdeep (by decide) ?_ hs).1, by decide +kernel,
    (nodup_paths_findAll hflat (by decide) ?_ hs).2 (by simp [flat, Selector.isDeep])⟩
  · simp [deep, Selector.AsksOnce]
  · simp [flat, Selector.AsksOnce, Positions.Separate]

end TreeQuery
