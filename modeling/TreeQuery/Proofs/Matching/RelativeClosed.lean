import TreeQuery.Proofs.Matching.TwoRuns

/-! Conditions that look at a number of innermost scopes only. All their paths start so many places
before the current scope that they stay among these, filters providing one scope more. What lies
outside makes no difference to them then, so that they say the same wherever they are nested. -/

namespace TreeQuery

/-- As the first of a path, the selector does not lead outside of the innermost `n` scopes. -/
def Selector.StartsWithin (n : Nat) : Selector → Prop
  | .root _ => False
  | .relative i => i < n
  | _ => True

mutual

/-- All paths in the selector stay within the innermost `n` scopes it is met with. -/
def Selector.RelativeClosed (n : Nat) : Selector → Prop
  | .filter c _ => c.RelativeClosed (n + 1)
  | _ => True

def Selector.RelativeClosedAll (n : Nat) : List Selector → Prop
  | [] => True
  | s :: p => s.RelativeClosed n ∧ Selector.RelativeClosedAll n p

def Selector.RelativeClosedPath (n : Nat) : List Selector → Prop
  | [] => True
  | first :: rest => first.StartsWithin n ∧ first.RelativeClosed n ∧
    Selector.RelativeClosedAll n rest

def Operand.RelativeClosed (n : Nat) : Operand → Prop
  | .value _ => True
  | .path p _ => Selector.RelativeClosedPath n p

/-- All paths in the condition stay within the innermost `n` scopes, or one more inside each
filter. -/
def Condition.RelativeClosed (n : Nat) : Condition → Prop
  | .or l r | .and l r => l.RelativeClosed n ∧ r.RelativeClosed n
  | .unary _ _ x => x.RelativeClosed n
  | .binary _ _ l r => l.RelativeClosed n ∧ r.RelativeClosed n

end

/-- The path and all paths in it stay within the innermost `n` scopes, or one more inside each
filter. -/
def Path.RelativeClosed (n : Nat) (p : Path) : Prop := Selector.RelativeClosedPath n p

theorem Selector.relativeClosedAll_iff {n : Nat} (p : List Selector) :
    Selector.RelativeClosedAll n p ↔ ∀ s ∈ p, s.RelativeClosed n := by
  induction p with
  | nil => simp [Selector.RelativeClosedAll]
  | cons s p ih => simp [Selector.RelativeClosedAll, ih]

theorem Path.RelativeClosed.of_mem_tail {n : Nat} {p : Path} (hp : p.RelativeClosed n)
    {c : Condition} {deep : Bool} (h : .filter c deep ∈ p.tail) : c.RelativeClosed (n + 1) := by
  cases p with
  | nil => simp at h
  | cons first rest => exact (Selector.relativeClosedAll_iff rest).mp hp.2.2 (.filter c deep) h

/-- A closed path starts from one of the innermost scopes, if anywhere. -/
theorem Path.RelativeClosed.origin {n : Nat} {p : Path} (hp : p.RelativeClosed n) :
    p.head?.bind Selector.origin? = none ∨
      ∃ i, i < n ∧ p.head?.bind Selector.origin? = some (.relative i) := by
  cases p with
  | nil => exact .inl rfl
  | cons first rest =>
    cases first with
    | root i => exact hp.1.elim
    | relative i => exact .inr ⟨i, hp.1, rfl⟩
    | _ => exact .inl rfl

/-! ### Outer scopes -/

/-- The second location is the first one, starting `k` scopes further in. -/
def Location.ShiftedBy (k : Nat) (p q : Location) : Prop :=
  ∃ i keys, p = .index i :: keys ∧ q = .index (i + k) :: keys

theorem Location.ShiftedBy.append {k : Nat} {p q : Location} (h : Location.ShiftedBy k p q)
    (l : Location) : Location.ShiftedBy k (p ++ l) (q ++ l) := by
  obtain ⟨i, keys, rfl, rfl⟩ := h
  exact ⟨i, keys ++ l, rfl, rfl⟩

theorem Hereditary.eq : Hereditary .inOrder Eq where
  isPresent h := by rw [h]
  length? h := by rw [h]
  child? {v w} h k := by
    subst h
    cases v.child? k with
    | none => exact .none
    | some x => exact .some rfl
  children {v w} h := by
    subst h
    exact List.forall₂_same.mpr fun _ _ => ⟨rfl, rfl⟩

/-- Outer scopes only shift the position that a path starts from. -/
theorem Origin.start_append (T : Scopes) {S : Scopes} {i : Nat} (hi : i < S.length) :
    List.Forall₂ (Match.Related (Location.ShiftedBy T.length) Eq)
      (Origin.start (some (.relative i)) S) (Origin.start (some (.relative i)) (T ++ S)) := by
  have hlt : i < (T ++ S).length := by simp; omega
  have hposition : (T ++ S).length - 1 - i = S.length - 1 - i + T.length := by simp; omega
  have hentry : (T ++ S)[S.length - 1 - i + T.length]? = S[S.length - 1 - i]? := by
    rw [List.getElem?_append_right (by omega), Nat.add_sub_cancel]
  simp only [start, Option.bind_some, select_eq, position?, if_pos hi, if_pos hlt, hposition,
    hentry]
  cases S[S.length - 1 - i]?.filter Value.isPresent with
  | none => exact .nil
  | some v => exact .cons ⟨⟨_, [], rfl, rfl⟩, rfl⟩ .nil

/-- Outer scopes do not change what the test says. -/
def Condition.IgnoresOuter (c : Condition) (t : Test) : Prop :=
  ∀ n, c.RelativeClosed n → ∀ T S : Scopes, n ≤ S.length → t.evaluate (T ++ S) = t.evaluate S

section

variable {n : Nat} (T : Scopes) {S : Scopes} (hS : n ≤ S.length)

include hS

theorem Path.Yields.findAll_shiftedBy {p : Path} {m : Matcher}
    (hm : p.Yields Condition.IgnoresOuter m) (hp : p.RelativeClosed n) :
    List.Forall₂ (Match.Related (Location.ShiftedBy T.length) Eq) (m.findAll S)
      (m.findAll (T ++ S)) := by
  have hsteps : ∀ step ∈ m.steps, step.AgreesOn Eq S (T ++ S) := by
    refine hm.agreesOn fun c t deep hc hct xs ys hne hxy => ?_
    obtain rfl : xs = ys := List.forall₂_eq_eq_eq ▸ hxy
    have hpos : 0 < xs.length := List.length_pos_iff.mpr hne
    rw [List.append_assoc]
    exact (hct (n + 1) (hp.of_mem_tail hc) T (S ++ xs) (by simp; omega)).symm
  refine Hereditary.eq.follow (fun _ _ l h => h.append l) hsteps ?_
  rw [hm.origin]
  rcases hp.origin with hnone | ⟨i, hi, hsome⟩
  · rw [hnone]
    exact .nil
  · rw [hsome]
    exact Origin.start_append T (Nat.lt_of_lt_of_le hi hS)

theorem Operand.Yields.resolve_append {x : Operand} {s : Source}
    (hx : x.Yields Condition.IgnoresOuter s) (hclosed : x.RelativeClosed n) :
    s.resolve (T ++ S) = s.resolve S := by
  cases hx with
  | value v => rfl
  | @path p m hm q =>
    have hvalues : m.values S = m.values (T ++ S) := by
      have hfound := hm.findAll_shiftedBy T hS hclosed
      rw [Matcher.values, Matcher.values, ← List.forall₂_eq_eq_eq]
      exact Correspondence.inOrder.map hfound fun _ _ hxy => hxy.2
    cases q with
    | some q => exact congrArg (Resolved.each q) hvalues.symm
    | none => rw [m.resolve_eq, m.resolve_eq, hvalues]

end

section

variable {ops : Registry}

theorem Condition.compositional_ignoresOuter :
    Condition.Compositional ops Condition.IgnoresOuter where
  or hl hr n hc T S hS := by
    rw [Test.evaluate, Test.evaluate, hl n hc.1 T S hS, hr n hc.2 T S hS]
  and hl hr n hc T S hS := by
    rw [Test.evaluate, Test.evaluate, hl n hc.1 T S hS, hr n hc.2 T S hS]
  unary _ hx n hc T S hS := by
    rw [Test.evaluate, Test.evaluate, hx.resolve_append T hS hc]
  binary _ hx hy n hc T S hS := by
    simp only [Test.evaluate, hx.resolve_append T hS hc.1, hy.resolve_append T hS hc.2]

/-- Where all paths stay within a stack, a condition says the same on top of any outer scopes, and a
path finds the same values in the same order, at locations that start so many scopes further in. -/
theorem Condition.evaluate_append_relativeClosed (T S : Scopes) :
    (∀ (c : Condition) (t : Test), c.RelativeClosed S.length → (c.prepare ops).result = .ok t →
      t.evaluate (T ++ S) = t.evaluate S) ∧
    ∀ (p : Path) (m : Matcher), p.RelativeClosed S.length → (p.prepare ops).result = .ok m →
      List.Forall₂ (fun x y => y.value = x.value ∧
        ∃ i keys, x.path = .index i :: keys ∧ y.path = .index (i + T.length) :: keys)
        (m.findAll S) (m.findAll (T ++ S)) := by
  refine ⟨fun c t hc ht => ?_, fun p m hp hm => ?_⟩
  · exact Condition.rel_of_prepare Condition.compositional_ignoresOuter c t ht _ hc T S
      (Nat.le_refl _)
  · have hyields := Path.yields_of_prepare Condition.compositional_ignoresOuter p m hm
    exact (hyields.findAll_shiftedBy T (Nat.le_refl _) hp).imp fun x y hxy => ⟨hxy.2.symm, hxy.1⟩

/-- The array holds all its descendants, each in the array around it; another scope outside only
shifts the start of their locations. -/
theorem Condition.evaluate_append_relativeClosed_nested :
    let v : Value := .array [.array [.bool true]]
    let c : Condition := .binary "in" false (.path [.relative 0] none) (.path [.relative 1] none)
    let p : Path := [.relative 0, .filter c true]
    p.RelativeClosed [v].length ∧ ∃ m, (p.prepare .builtin).result = .ok m ∧
      (m.findAll [v]).map (·.path) =
        [[.index 0, .index 0], [.index 0, .index 0, .index 0]] ∧
      List.Forall₂ (fun x y => y.value = x.value ∧
        ∃ i keys, x.path = .index i :: keys ∧ y.path = .index (i + 1) :: keys)
        (m.findAll [v]) (m.findAll [.null, v]) := by
  intro v c p
  have hp : p.RelativeClosed 1 := by
    simp [p, c, Path.RelativeClosed, Selector.RelativeClosedPath, Selector.RelativeClosedAll,
      Selector.RelativeClosed, Condition.RelativeClosed, Operand.RelativeClosed,
      Selector.StartsWithin]
  have hm : (p.prepare .builtin).result = .ok _ := rfl
  exact ⟨hp, _, hm, by decide +kernel,
    (Condition.evaluate_append_relativeClosed [.null] [v]).2 p _ hp hm⟩

end

end TreeQuery
