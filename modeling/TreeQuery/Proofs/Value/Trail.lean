import TreeQuery.Location
import TreeQuery.Proofs.Value.Names

/-! Following a location from a value: the values found on the way, one for each key. Locations
that lead on from one another can be joined. -/

namespace TreeQuery.Value

/-- The values found below `v` at the non-empty prefixes of a location, the shortest prefix
first; `none` if one of its keys leads nowhere. -/
def trail (v : Value) : Location → Option (List Value)
  | [] => some []
  | k :: p => (v.child? k).bind fun x => (x.trail p).map (x :: ·)

/-- The keys of `p`, followed one by one from `v`, lead to `x` through present values only. -/
def Leads (v : Value) (p : Location) (x : Value) : Prop :=
  ∃ vs, v.trail p = some vs ∧ vs.getLastD v = x ∧ ∀ y ∈ v :: vs, y.isPresent = true

theorem trail_cons {v x : Value} {k : Key} {p : Location} {vs : List Value}
    (hk : v.child? k = some x) (hp : x.trail p = some vs) : v.trail (k :: p) = some (x :: vs) := by
  simp [trail, hk, hp]

theorem Leads.refl {v : Value} (hv : v.isPresent = true) : v.Leads [] v :=
  ⟨[], rfl, rfl, by simpa using hv⟩

theorem Leads.eq_of_nil {v x : Value} (h : v.Leads [] x) : x = v := by
  obtain ⟨vs, hvs, hlast, -⟩ := h
  cases hvs
  exact hlast.symm

theorem Leads.cons {v x y : Value} {k : Key} {p : Location} (hk : v.child? k = some x)
    (hp : x.Leads p y) : v.Leads (k :: p) y := by
  obtain ⟨vs, hvs, hlast, hpresent⟩ := hp
  refine ⟨x :: vs, trail_cons hk hvs, ?_, ?_⟩
  · rw [List.getLastD_cons, hlast]
  · simpa [isPresent_of_child? hk] using hpresent

theorem Leads.single {v x : Value} {k : Key} (hk : v.child? k = some x) : v.Leads [k] x :=
  .cons hk (.refl (isPresent_child hk))

theorem Leads.of_cons {v y : Value} {k : Key} {p : Location} (h : v.Leads (k :: p) y) :
    ∃ x, v.child? k = some x ∧ x.Leads p y := by
  obtain ⟨vs, hvs, hlast, hpresent⟩ := h
  simp only [trail, Option.bind_eq_some_iff, Option.map_eq_some_iff] at hvs
  obtain ⟨x, hx, us, hus, rfl⟩ := hvs
  rw [List.getLastD_cons] at hlast
  exact ⟨x, hx, us, hus, hlast, fun z hz => hpresent z (List.mem_cons_of_mem v hz)⟩

/-- Keys lead to one value at most. -/
theorem Leads.unique {v x y : Value} {p : Location} (hx : v.Leads p x) (hy : v.Leads p y) :
    x = y := by
  obtain ⟨vs, hvs, rfl, -⟩ := hx
  obtain ⟨us, hus, rfl, -⟩ := hy
  cases hvs.symm.trans hus
  rfl

/-- Where no object names a member twice, neither does any value that keys lead to. -/
theorem Leads.namesDistinct {v x : Value} {p : Location} (h : v.Leads p x)
    (hv : v.NamesDistinct) : x.NamesDistinct := by
  induction p generalizing v with
  | nil => rwa [h.eq_of_nil]
  | cons k p ih =>
    obtain ⟨y, hy, hp⟩ := h.of_cons
    exact ih hp (hv.of_child? hy)

/-- Locations that lead on from one another can be joined. -/
theorem Leads.trans {v x y : Value} {p q : Location} (hp : v.Leads p x) (hq : x.Leads q y) :
    v.Leads (p ++ q) y := by
  induction p generalizing v with
  | nil => rwa [hp.eq_of_nil] at hq
  | cons k p ih =>
    obtain ⟨u, hu, hp'⟩ := hp.of_cons
    exact .cons hu (ih hp')

/-- What a location leads to is below every value on the way. -/
theorem Leads.of_append {v x y : Value} {p q : Location} (h : v.Leads (p ++ q) y)
    (hp : v.Leads p x) : x.Leads q y := by
  induction p generalizing v with
  | nil => rwa [hp.eq_of_nil]
  | cons k p ih =>
    obtain ⟨u, hu, hlater⟩ := h.of_cons
    obtain ⟨u', hu', hp'⟩ := hp.of_cons
    cases hu.symm.trans hu'
    exact ih hlater hp'

end TreeQuery.Value
