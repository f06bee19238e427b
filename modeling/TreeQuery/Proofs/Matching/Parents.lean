import TreeQuery.Proofs.Matching.Distinct
import TreeQuery.Proofs.Matching.Expansion
import TreeQuery.Query

/-! The scope before the current one, inside a deep filter. A deep filter tests what it finds on the
stack it was given and the values that lead from its source to the tested one, without the source
itself. So the scope before the current one is the parent of the tested value wherever a value lies
between it and the source. For the children of the source it is the last scope of the stack that
the path is matched on, which is the source only if the path has led back to it. -/

namespace TreeQuery

namespace Value

/-- The way to a child is the way to its parent and the child. -/
theorem trail_append_key {v parent x : Value} {p : Location} {k : Key} (hp : v.Leads p parent)
    (hx : parent.child? k = some x) :
    ∃ vs, v.trail p = some vs ∧ vs.getLastD v = parent ∧ v.trail (p ++ [k]) = some (vs ++ [x]) := by
  induction p generalizing v with
  | nil =>
    rw [hp.eq_of_nil] at hx
    exact ⟨[], rfl, hp.eq_of_nil.symm, trail_cons hx rfl⟩
  | cons l p ih =>
    obtain ⟨y, hy, hleads⟩ := hp.of_cons
    obtain ⟨vs, hvs, hlast, happend⟩ := ih hleads
    exact ⟨y :: vs, trail_cons hy hvs, by rw [List.getLastD_cons, hlast], trail_cons hy happend⟩

/-- What keys lead to is a child of what all keys but the last lead to. -/
theorem Leads.exists_parent {v x : Value} {p : Location} (h : v.Leads p x) (hp : p ≠ []) :
    ∃ q k parent, p = q ++ [k] ∧ v.Leads q parent ∧ parent.child? k = some x := by
  induction p generalizing v with
  | nil => exact absurd rfl hp
  | cons l p ih =>
    obtain ⟨y, hy, hleads⟩ := h.of_cons
    cases p with
    | nil =>
      rw [← hleads.eq_of_nil] at hy
      exact ⟨[], l, v, rfl, .refl (isPresent_of_child? hy), hy⟩
    | cons j p =>
      obtain ⟨q, k, parent, hq, hparent, hx⟩ := ih hleads (List.cons_ne_nil j p)
      exact ⟨l :: q, k, parent, by rw [hq, List.cons_append], .cons hy hparent, hx⟩

end Value

/-- The scope before the current one, as an operand. -/
def Source.previous : Source := .path (some (.relative 1)) [] none

/-- Before the scope that was added last comes the last one of the others. -/
theorem Source.resolve_previous (scopes : Scopes) (v : Value) :
    Source.previous.resolve (scopes ++ [v]) = .one (scopes.getLast?.getD .absent) := by
  rcases List.eq_nil_or_concat' scopes with rfl | ⟨init, w, rfl⟩
  · rfl
  · have hget : (init ++ [w] ++ [v])[init.length]? = some w := by simp
    have hselect : (Origin.relative 1).select (init ++ [w] ++ [v]) =
        ((some w).filter Value.isPresent).map fun x => ⟨[.index init.length], x⟩ := by
      rw [← hget]
      simp [Origin.select]
    rw [previous, resolve, Origin.start, Option.bind_some, hselect, Step.follow_nil]
    -- an absent scope is not matched, which leaves the operand absent all the same
    cases w <;> simp [Value.isPresent, Value.isAbsent, Option.filter]

/-- The scope before the current one, where a deep filter on a stack tests what it finds at `p`
and a key below its source. -/
theorem Source.resolve_previous_trail (scopes : Scopes) {v parent x : Value} {p : Location} {k : Key}
    (hp : v.Leads p parent) (hx : parent.child? k = some x) :
    Source.previous.resolve (scopes ++ (v.trail (p ++ [k])).getD []) =
      .one (if p = [] then scopes.getLast?.getD .absent else parent) := by
  obtain ⟨vs, hvs, hlast, happend⟩ := Value.trail_append_key hp hx
  rw [happend, Option.getD_some, ← List.append_assoc, resolve_previous]
  cases p with
  | nil =>
    cases hvs
    rw [List.append_nil, if_pos rfl]
  | cons l p =>
    rcases List.eq_nil_or_concat' vs with rfl | ⟨us, u, rfl⟩
    · simp [Value.trail, Option.bind_eq_some_iff] at hvs
    · rw [if_neg (List.cons_ne_nil l p), ← hlast]
      simp [List.getLast?_append]

theorem Step.expand_single (step : Step) (scopes : Scopes) (v : Value) :
    expand [step] scopes v = step.findAll scopes v := by
  simp [expand, Match.under]

namespace Matcher

/-- What a path with a deep filter at its end finds: below every match of the path before the
filter, the descendants that pass the test on the stack that the path is matched on and the values
from below the match down to them. There the scope before the current one is the parent of the
tested value, except for the children of the match, for which it is the last scope of the stack. -/
theorem findAll_deep_filter (origin : Option Origin) (steps : List Step) (test : Test)
    {scopes : Scopes} (hs : ∀ v ∈ scopes, v.NamesDistinct) :
    let sources := (⟨origin, steps⟩ : Matcher).findAll scopes
    (⟨origin, steps ++ [.filter test true]⟩ : Matcher).findAll scopes = sources.flatMap (fun m =>
      (((Step.all true).findAll scopes m.value).filter fun n =>
        test.evaluate (scopes ++ (m.value.trail n.path).getD [])).map (.under m.path)) ∧
    ∀ m ∈ sources, ∀ n ∈ (Step.all true).findAll scopes m.value,
      ∃ p k parent, n.path = p ++ [k] ∧ m.value.Leads p parent ∧ parent.child? k = some n.value ∧
        Source.previous.resolve (scopes ++ (m.value.trail n.path).getD []) =
          .one (if p = [] then scopes.getLast?.getD .absent else parent) := by
  intro sources
  have hsources : ∀ m ∈ sources, m.value.NamesDistinct := namesDistinct_of_mem_findAll hs
  constructor
  · rw [(findAll_append origin steps [.filter test true] scopes).1]
    refine List.flatMap_congr fun m hm => ?_
    rw [Step.expand_single, Step.findAll_filter_eq test true scopes (hsources m hm)]
    rfl
  · intro m hm n hn
    obtain ⟨hne, hleads⟩ := (Step.findAll_filter test scopes (hsources m hm)).1 n hn
    obtain ⟨p, k, parent, hp, hparent, hx⟩ := hleads.exists_parent hne
    refine ⟨p, k, parent, hp, hparent, hx, ?_⟩
    rw [hp]
    exact Source.resolve_previous_trail scopes hparent hx

/-- The items of a row are tested with the row as the scope before them, and the row itself with
the last scope of the stack, which is the array of rows here. -/
theorem findAll_deep_filter_nested :
    let row : Value := .array [.null, .bool true]
    let rows : Value := .array [row]
    let test : Test := .unary (fun x _ => x.bool? == some true) false
      (.path (some (.relative 1)) [.elements [1]] none)
    ((⟨some (.root 0), [] ++ [.filter test true]⟩ : Matcher).findAll [rows]).map (·.path) =
      [[.index 0, .index 0, .index 0], [.index 0, .index 0, .index 1]] ∧
    ∃ p k parent, [.index 0, .index 1] = p ++ [k] ∧ rows.Leads p parent ∧
      parent.child? k = some (.bool true) ∧
      Source.previous.resolve ([rows] ++ (rows.trail [.index 0, .index 1]).getD []) =
        .one (if p = [] then [rows].getLast?.getD .absent else parent) := by
  intro row rows test
  have hrows : rows.NamesDistinct := by
    simp [rows, row, Value.NamesDistinct, Value.ItemsDistinct]
  have hitem : ⟨[.index 0, .index 1], .bool true⟩ ∈ (Step.all true).findAll [rows] rows :=
    ((Step.findAll_all_deep hrows [rows]).1 _).mpr ⟨by simp, .cons rfl (.single rfl)⟩
  exact ⟨by decide +kernel, (findAll_deep_filter (some (.root 0)) [] test (by simpa using hrows)).2
    ⟨[.index 0], rows⟩ (List.mem_singleton_self _) _ hitem⟩

/-- For a child of a member of the document, the scope before the current one is the document and
not the member. So the child of this member, tested for that scope to be equal to the member, is not
found. -/
theorem findAll_deep_filter_member :
    let member : Value := .object [("x", .number 1)]
    let document : Value := .object [("a", member)]
    (⟨some (.root 0), [.named ["a"] false]⟩ : Matcher).findAll [document] =
      [⟨[.index 0, .name "a"], member⟩] ∧
    ⟨[.name "x"], .number 1⟩ ∈ (Step.all true).findAll [document] member ∧
    Source.previous.resolve ([document] ++ (member.trail [.name "x"]).getD []) = .one document ∧
    document ≠ member ∧
    ∃ q, (Query.compile "$.a[[? ^ is \x7b\"x\": 1\x7d]]" .empty).result = .ok q ∧
      q.findAll document = [] := by
  intro member document
  have hmember : member.NamesDistinct := by
    simp [member, Value.NamesDistinct, Value.MembersDistinct]
  refine ⟨rfl, ?_, rfl, by simp [member, document], ?_⟩
  · exact ((Step.findAll_all_deep hmember [document]).1 _).mpr ⟨by simp, .single rfl⟩
  · have hnone : ((Query.compile "$.a[[? ^ is \x7b\"x\": 1\x7d]]" .empty).result.toOption.map
        fun q => (q.findAll document).isEmpty) = some true := by decide +kernel
    obtain ⟨q, hq, hempty⟩ := Option.map_eq_some_iff.mp hnone
    refine ⟨q, ?_, List.isEmpty_iff.mp hempty⟩
    cases hresult : (Query.compile "$.a[[? ^ is \x7b\"x\": 1\x7d]]" .empty).result with
    | error e => simp [hresult, Except.toOption] at hq
    | ok c => simpa [hresult, Except.toOption] using hq

end Matcher

end TreeQuery
