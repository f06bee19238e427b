import TreeQuery.Matching.Matcher

/-! What a search finds, as a list. Every step picks some children of the value it starts from; a
deep one goes on below all children, picked or not. A search only ever adds to what was found
before, and it comes back to where it stood: every key that it goes down by is taken away again. -/

namespace TreeQuery

/-- The match, seen from the place that `p` leads away from. -/
def Match.under (p : Location) (m : Match) : Match := ⟨p ++ m.path, m.value⟩

/-- The match of a child, seen from its parent. -/
def Match.ofChild (c : Key × Value) : Match := ⟨[c.1], c.2⟩

@[simp] theorem Match.under_nil : Match.under [] = id := rfl

theorem Match.under_under (p q : Location) (m : Match) :
    (m.under q).under p = m.under (p ++ q) := by
  simp [under, List.append_assoc]

theorem Match.under_ofChild (p : Location) (c : Key × Value) :
    (ofChild c).under p = ⟨p ++ [c.1], c.2⟩ := rfl

theorem Match.under_injective (p : Location) : Function.Injective (under p) := by
  intro m n h
  rw [under, under, Match.mk.injEq] at h
  rw [Match.mk.injEq]
  exact ⟨List.append_cancel_left h.1, h.2⟩

theorem Match.paths_under (p : Location) (ms : List Match) :
    (ms.map (under p)).map (·.path) = (ms.map (·.path)).map (p ++ ·) := by
  simp [under, Function.comp_def]

theorem Match.paths_ofChild (children : List (Key × Value)) :
    (children.map ofChild).map (·.path) = (children.map (·.1)).map ([·]) := by
  simp [ofChild, Function.comp_def]

namespace Search

/-- What is found below `v` by picking children at every value: first those of `v` itself, then
what is found below each child, which is the current scope meanwhile. -/
def gather (pick : Scopes → Value → List (Key × Value)) (scopes : Scopes) (v : Value) :
    List Match :=
  (pick scopes v).map .ofChild ++ v.children.attach.flatMap fun ⟨(key, x), _⟩ =>
    (gather pick (scopes ++ [x]) x).map (.under [key])
termination_by sizeOf v
decreasing_by exact Value.sizeOf_lt_of_mem_children ‹_›

theorem gather_eq (pick : Scopes → Value → List (Key × Value)) (scopes : Scopes) (v : Value) :
    gather pick scopes v = (pick scopes v).map .ofChild ++
      v.children.flatMap fun c => (gather pick (scopes ++ [c.2]) c.2).map (.under [c.1]) := by
  rw [gather]
  congr 1
  conv => rhs; rw [← List.attach_map_subtype_val v.children, List.flatMap_map]

/-! ### Adding to a search -/

/-- `t` stands where `s` stands, and has found `ms` in addition, seen from there. -/
def Adds (s t : Search) (ms : List Match) : Prop :=
  t.here = s.here ∧ t.found.toList = s.found.toList ++ ms.map (.under s.here)

theorem Adds.refl (s : Search) : s.Adds s [] := ⟨rfl, by simp⟩

theorem Adds.trans {s t u : Search} {ms ns : List Match} (h : s.Adds t ms) (h' : t.Adds u ns) :
    s.Adds u (ms ++ ns) := by
  refine ⟨h'.1.trans h.1, ?_⟩
  rw [h'.2, h.2, h.1, List.map_append, List.append_assoc]

/-- What a search is after it has added some matches. -/
theorem Adds.eq {s t : Search} {ms : List Match} (h : s.Adds t ms) :
    t = ⟨s.here, s.found ++ (ms.map (.under s.here)).toArray⟩ := by
  obtain ⟨here, found⟩ := t
  obtain ⟨hhere, hfound⟩ := h
  rw [Search.mk.injEq]
  exact ⟨hhere, Array.toList_inj.mp (by simpa using hfound)⟩

theorem adds_record (s : Search) (key : Key) (x : Value) :
    s.Adds (s.record key x) [.ofChild (key, x)] := by
  constructor
  · simp [record, enter, mark, leave]
  · simp [record, enter, mark, leave, Match.under_ofChild]

theorem adds_foldl {α : Type} {f : Search → α → Search} {g : α → List Match} (l : List α)
    (h : ∀ a ∈ l, ∀ s : Search, s.Adds (f s a) (g a)) (s : Search) :
    s.Adds (l.foldl f s) (l.flatMap g) := by
  induction l generalizing s with
  | nil => exact .refl s
  | cons a l ih =>
    rw [List.foldl_cons, List.flatMap_cons]
    exact (h a (by simp) s).trans (ih (fun b hb => h b (by simp [hb])) _)

theorem adds_recordAll (children : List (Key × Value)) (s : Search) :
    s.Adds (s.recordAll children) (children.map .ofChild) := by
  have h := adds_foldl (g := fun c => [Match.ofChild c]) children
    (fun c _ s => adds_record s c.1 c.2) s
  rwa [← List.map_eq_flatMap] at h

/-- Going down to a child and coming back: since the search below the child ends where it started,
the last key is the one that led there. -/
theorem adds_below {s : Search} {key : Key} {inner : Search → Search} {ms : List Match}
    (h : (s.enter key).Adds (inner (s.enter key)) ms) :
    s.Adds (s.below key inner) (ms.map (.under [key])) := by
  obtain ⟨hhere, hfound⟩ := h
  constructor
  · rw [below, leave, hhere]
    exact List.dropLast_concat
  · rw [below, leave, hfound, List.map_map]
    congr 2
    funext m
    exact (Match.under_under s.here [key] m).symm

/-- A search that records what it picks and then goes below every child finds what is gathered. -/
theorem adds_gather (pick : Scopes → Value → List (Key × Value))
    (go : Scopes → Value → Search → Search)
    (hgo : ∀ scopes v s, go scopes v s = v.children.foldl
      (fun s c => s.below c.1 (go (scopes ++ [c.2]) c.2)) (s.recordAll (pick scopes v)))
    (scopes : Scopes) (v : Value) (s : Search) :
    s.Adds (go scopes v s) (gather pick scopes v) := by
  rw [hgo, gather_eq]
  refine (adds_recordAll (pick scopes v) s).trans (adds_foldl v.children (fun c hc s => ?_) _)
  have hlt : sizeOf c.2 < sizeOf v := Value.sizeOf_lt_of_mem_children hc
  exact adds_below (adds_gather pick go hgo (scopes ++ [c.2]) c.2 _)
termination_by sizeOf v

theorem namedBelow_eq (names : List String) (v : Value) (s : Search) :
    namedBelow names v s = v.children.foldl (fun s c => s.below c.1 (namedBelow names c.2))
      (s.recordAll (namedChildren names v)) := by
  rw [namedBelow]
  conv => rhs; rw [← List.attach_map_subtype_val v.children, List.foldl_map]

theorem allBelow_eq (v : Value) (s : Search) :
    allBelow v s = v.children.foldl (fun s c => s.below c.1 (allBelow c.2))
      (s.recordAll v.children) := by
  rw [allBelow]
  generalize s.recordAll v.children = t
  conv => rhs; rw [← List.attach_map_subtype_val v.children, List.foldl_map]

theorem passingBelow_eq (test : Scopes → Bool) (scopes : Scopes) (v : Value) (s : Search) :
    passingBelow test scopes v s = v.children.foldl
      (fun s c => s.below c.1 (passingBelow test (scopes ++ [c.2]) c.2))
      (s.recordAll (passing test scopes v)) := by
  rw [passingBelow]
  conv => rhs; rw [← List.attach_map_subtype_val v.children, List.foldl_map]

end Search

namespace Step

/-- The children that a step picks from a value. -/
def pick : Step → Scopes → Value → List (Key × Value)
  | named names _, _, v => Search.namedChildren names v
  | elements positions, _, v => Search.elements positions v
  | slice start stop step, _, v => Search.slice start stop step v
  | all _, _, v => v.children
  | filter test _, scopes, v => Search.passing test.evaluate scopes v
  | never, _, _ => []

/-- Whether a step goes on below the children of a value. -/
def isDeep : Step → Bool
  | named _ deep | all deep | filter _ deep => deep
  | elements _ | slice .. | never => false

/-- What a step finds below a value. -/
def finds (step : Step) (scopes : Scopes) (v : Value) : List Match :=
  if step.isDeep then Search.gather step.pick scopes v
  else (step.pick scopes v).map .ofChild

/-- Searching adds what the step finds, and nothing else changes. -/
theorem adds_search (step : Step) (scopes : Scopes) (v : Value) (s : Search) :
    s.Adds (step.search scopes v s) (step.finds scopes v) := by
  match step with
  | named names false => exact Search.adds_recordAll _ s
  | named names true =>
    exact Search.adds_gather (fun _ => Search.namedChildren names)
      (fun _ => Search.namedBelow names) (fun _ => Search.namedBelow_eq names) scopes v s
  | elements positions => exact Search.adds_recordAll _ s
  | slice start stop step => exact Search.adds_recordAll _ s
  | all false => exact Search.adds_recordAll _ s
  | all true =>
    exact Search.adds_gather (fun _ => Value.children) (fun _ => Search.allBelow)
      (fun _ => Search.allBelow_eq) scopes v s
  | filter test false => exact Search.adds_recordAll _ s
  | filter test true =>
    exact Search.adds_gather (Search.passing test.evaluate) (Search.passingBelow test.evaluate)
      (Search.passingBelow_eq test.evaluate) scopes v s
  | never => exact .refl s

theorem findAll_eq_finds (step : Step) (scopes : Scopes) (v : Value) :
    step.findAll scopes v = step.finds scopes v := by
  have h := (step.adds_search scopes v .start).2
  simpa [findAll, Search.start] using h

/-- A search by a step comes back to where it stood, wherever that was. What had been found stays,
and behind it stands what the step finds by itself, in order, each match further down by the way to
where the search stands. -/
theorem search_eq_append (step : Step) (scopes : Scopes) (v : Value) (here : Location)
    (found : Array Match) :
    step.search scopes v ⟨here, found⟩ =
      ⟨here, found ++ ((step.findAll scopes v).map fun m =>
        (⟨here ++ m.path, m.value⟩ : Match)).toArray⟩ := by
  have hadds := step.adds_search scopes v ⟨here, found⟩
  rw [← findAll_eq_finds] at hadds
  exact hadds.eq

/-- A step that does not go on below the children finds the children that it picks. -/
theorem findAll_of_flat {step : Step} (hflat : step.isDeep = false) (scopes : Scopes) (v : Value) :
    step.findAll scopes v = (step.pick scopes v).map .ofChild := by
  rw [findAll_eq_finds, finds, hflat]
  rfl

/-! ### Following several steps -/

@[simp] theorem follow_nil (scopes : Scopes) (ms : List Match) : follow [] scopes ms = ms := by
  rw [follow]

/-- From nothing, steps lead nowhere. -/
theorem follow_none (steps : List Step) (scopes : Scopes) : follow steps scopes [] = [] := by
  cases steps with
  | nil => simp
  | cons step steps => simp [follow]

/-- One step replaces every match by what the step finds below it, in place. -/
theorem follow_cons (step : Step) (steps : List Step) (scopes : Scopes) (ms : List Match) :
    follow (step :: steps) scopes ms = follow steps scopes
      (ms.flatMap fun m => (step.finds scopes m.value).map (.under m.path)) := by
  have h : ∀ found : Array Match,
      (ms.foldl (fun found m => (step.search scopes m.value ⟨m.path, found⟩).found) found).toList =
        found.toList ++ ms.flatMap fun m => (step.finds scopes m.value).map (.under m.path) := by
    induction ms with
    | nil => simp
    | cons m ms ih =>
      intro found
      rw [List.foldl_cons, ih, (step.adds_search scopes m.value ⟨m.path, found⟩).2,
        List.flatMap_cons, List.append_assoc]
  replace h := (h #[]).trans (List.nil_append _)
  rw [follow, ← h]
  split
  · -- the steps left over would not find anything either
    next hempty =>
    rw [Array.isEmpty_iff.mp hempty]
    exact (follow_none steps scopes).symm
  · rfl

theorem follow_append (steps more : List Step) (scopes : Scopes) (ms : List Match) :
    follow (steps ++ more) scopes ms = follow more scopes (follow steps scopes ms) := by
  induction steps generalizing ms with
  | nil => simp
  | cons step steps ih => rw [List.cons_append, follow_cons, follow_cons, ih]

end Step

end TreeQuery
