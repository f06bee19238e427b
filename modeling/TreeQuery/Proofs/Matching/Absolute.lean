import TreeQuery.Proofs.Matching.Multiplicity

/-! Counting scopes from either end. Below a number of filters the stack has as many entries more,
if no filter looks at descendants. So where a path starts from an entry counted back from the
current one, it can name the same entry by its position, for stacks of one length. -/

namespace TreeQuery

mutual

/-- No filter in the selector looks at descendants. -/
def Selector.Shallow : Selector → Prop
  | .filter c deep => deep = false ∧ c.Shallow
  | _ => True

def Selector.ShallowAll : List Selector → Prop
  | [] => True
  | s :: p => s.Shallow ∧ Selector.ShallowAll p

def Operand.Shallow : Operand → Prop
  | .value _ => True
  | .path p _ => Selector.ShallowAll p

/-- No filter in the condition looks at descendants. -/
def Condition.Shallow : Condition → Prop
  | .or l r | .and l r => l.Shallow ∧ r.Shallow
  | .unary _ _ x => x.Shallow
  | .binary _ _ l r => l.Shallow ∧ r.Shallow

end

/-- No filter in the path looks at descendants. -/
def Path.Shallow (p : Path) : Prop := Selector.ShallowAll p

/-- The start of a path, counted from the outermost of `n` scopes if there is an entry. -/
def Selector.startAbsolute (n : Nat) : Selector → Selector
  | .relative i => if i < n then .root (n - 1 - i) else .relative i
  | s => s

mutual

/-- The selector with all paths in it starting from positions, when it is met with `n` scopes. -/
def Selector.absolute (n : Nat) : Selector → Selector
  | .filter c deep => .filter (c.absolute (n + 1)) deep
  | s => s

def Selector.absoluteAll (n : Nat) : List Selector → List Selector
  | [] => []
  | s :: p => s.absolute n :: Selector.absoluteAll n p

def Selector.absolutePath (n : Nat) : List Selector → List Selector
  | [] => []
  | first :: rest => (first.absolute n).startAbsolute n :: Selector.absoluteAll n rest

def Operand.absolute (n : Nat) : Operand → Operand
  | .value v => .value v
  | .path p q => .path (Selector.absolutePath n p) q

/-- The condition with all paths in it starting from positions in a stack of `n` scopes, and of one
more inside each filter. -/
def Condition.absolute (n : Nat) : Condition → Condition
  | .or l r => .or (l.absolute n) (r.absolute n)
  | .and l r => .and (l.absolute n) (r.absolute n)
  | .unary op negate x => .unary op negate (x.absolute n)
  | .binary op negate l r => .binary op negate (l.absolute n) (r.absolute n)

end

/-- The path with itself and all paths in it starting from positions. -/
def Path.absolute (n : Nat) (p : Path) : Path := Selector.absolutePath n p

/-! ### The same position -/

theorem Selector.absolute_origin? (n : Nat) (s : Selector) :
    (s.absolute n).origin? = s.origin? := by
  cases s <;> rfl

/-- Both ways of counting come to the same entry. -/
theorem Selector.start_startAbsolute (s : Selector) (scopes : Scopes) :
    Origin.start (s.startAbsolute scopes.length).origin? scopes =
      Origin.start s.origin? scopes := by
  cases s with
  | relative i =>
    rw [startAbsolute]
    split
    · next hi =>
      simp only [origin?, Origin.start, Option.bind_some, Origin.select_eq, Origin.position?,
        if_pos hi]
    · rfl
  | _ => rfl

/-! ### Prepared conditions -/

/-- Stacks of `n` scopes lead to the same outcome. -/
def Condition.SameAbsolute (ops : Registry) (c : Condition) (t : Test) : Prop :=
  c.Shallow → ∀ n, ∃ t', ((c.absolute n).prepare ops).result = .ok t' ∧
    ∀ scopes : Scopes, scopes.length = n → t'.evaluate scopes = t.evaluate scopes

section

variable {ops : Registry}

theorem Selector.Yields.absolute {s : Selector} {step : Step}
    (h : s.Yields (Condition.SameAbsolute ops) step) (hs : s.Shallow) (n : Nat) :
    ∃ step', (s.absolute n).prepared ops = .ok step' ∧ step'.isMulti = step.isMulti ∧
      ∀ (scopes : Scopes) (v : Value), scopes.length = n →
        step'.finds scopes v = step.finds scopes v := by
  cases h with
  | scope hscope =>
    cases s <;> first | exact ⟨_, rfl, rfl, fun _ _ _ => rfl⟩ | cases hscope
  | @filter c t hct deep =>
    obtain ⟨rfl, hc⟩ := hs
    obtain ⟨t', ht', hsame⟩ := hct hc (n + 1)
    refine ⟨.filter t' false, Selector.prepared_filter_ok_iff.mpr ⟨t', ht', rfl⟩, rfl, ?_⟩
    intro scopes v hn
    have hpassing : Search.passing t'.evaluate scopes v = Search.passing t.evaluate scopes v :=
      List.filter_congr fun c _ => hsame _ (by simp [hn])
    exact congrArg (List.map Match.ofChild) hpassing
  | _ => exact ⟨_, rfl, rfl, fun _ _ _ => rfl⟩

theorem Selector.Yields.absoluteAll {p : List Selector} {steps : List Step}
    (h : List.Forall₂ (Selector.Yields (Condition.SameAbsolute ops)) p steps)
    (hp : Selector.ShallowAll p) (n : Nat) :
    ∃ steps', (Selector.absoluteAll n p).mapM (Selector.prepared ops) = .ok steps' ∧
      steps'.any Step.isMulti = steps.any Step.isMulti ∧
      ∀ (scopes : Scopes) (ms : List Match), scopes.length = n →
        Step.follow steps' scopes ms = Step.follow steps scopes ms := by
  induction h with
  | nil => exact ⟨[], rfl, rfl, fun _ _ _ => rfl⟩
  | @cons s step p steps hs _ ih =>
    obtain ⟨step', hstep', hmulti, hfinds⟩ := hs.absolute hp.1 n
    obtain ⟨steps', hsteps', hmultis, hfollow⟩ := ih hp.2
    refine ⟨step' :: steps', ?_, by rw [List.any_cons, List.any_cons, hmulti, hmultis], ?_⟩
    · exact List.mapM_cons_ok_iff.mpr ⟨step', hstep', steps', hsteps', rfl⟩
    · intro scopes ms hn
      simp only [Step.follow_cons, hfinds scopes _ hn, hfollow scopes _ hn]

theorem Path.Yields.absolute {p : Path} {m : Matcher}
    (h : p.Yields (Condition.SameAbsolute ops) m) (hp : p.Shallow) (n : Nat) :
    ∃ m', ((p.absolute n).prepare ops).result = .ok m' ∧ m'.isMulti = m.isMulti ∧
      ∀ scopes : Scopes, scopes.length = n → m'.findAll scopes = m.findAll scopes := by
  obtain ⟨origin, steps⟩ := m
  obtain ⟨rfl, hsteps⟩ := h
  cases p with
  | nil =>
    obtain rfl : steps = [] := by cases hsteps; rfl
    exact ⟨⟨none, []⟩, rfl, rfl, fun _ _ => rfl⟩
  | cons first rest =>
    obtain ⟨steps', hsteps', hmulti, hfollow⟩ := Selector.Yields.absoluteAll hsteps hp.2 n
    refine ⟨_, Path.prepare_cons_ok_iff.mpr ⟨steps', hsteps', rfl⟩, hmulti, ?_⟩
    intro scopes hn
    have hstart : Origin.start ((first.absolute n).startAbsolute n).origin? scopes =
        Origin.start first.origin? scopes := by
      rw [← hn, Selector.start_startAbsolute, Selector.absolute_origin?]
    rw [Matcher.findAll, Matcher.findAll, hfollow scopes _ hn, hstart]
    rfl

theorem Operand.Yields.absolute {x : Operand} {s : Source}
    (h : x.Yields (Condition.SameAbsolute ops) s) (hx : x.Shallow) (n : Nat) :
    ∃ s', ((x.absolute n).prepare ops).result = .ok s' ∧
      ∀ scopes : Scopes, scopes.length = n → s'.resolve scopes = s.resolve scopes := by
  cases h with
  | value v => exact ⟨.literal v, rfl, fun _ _ => rfl⟩
  | @path p m hm q =>
    obtain ⟨m', hm', hmulti, hfind⟩ := hm.absolute hx n
    refine ⟨_, Operand.prepare_path_ok_iff.mpr ⟨m', hm', rfl⟩, fun scopes hn => ?_⟩
    have hvalues : m'.values scopes = m.values scopes := congrArg _ (hfind scopes hn)
    cases q with
    | some q => exact congrArg (Resolved.each q) hvalues
    | none => rw [m'.resolve_eq, m.resolve_eq, hmulti, hvalues]

/-- Conditions keep what they say when the paths in them start from positions. -/
theorem Condition.compositional_sameAbsolute :
    Condition.Compositional ops (Condition.SameAbsolute ops) where
  or hl hr h n := by
    obtain ⟨t, ht, hsame⟩ := hl h.1 n
    obtain ⟨u, hu, hsame'⟩ := hr h.2 n
    refine ⟨_, Condition.prepare_or_ok_iff.mpr ⟨t, ht, u, hu, rfl⟩, fun scopes hn => ?_⟩
    rw [Test.evaluate, Test.evaluate, hsame scopes hn, hsame' scopes hn]
  and hl hr h n := by
    obtain ⟨t, ht, hsame⟩ := hl h.1 n
    obtain ⟨u, hu, hsame'⟩ := hr h.2 n
    refine ⟨_, Condition.prepare_and_ok_iff.mpr ⟨t, ht, u, hu, rfl⟩, fun scopes hn => ?_⟩
    rw [Test.evaluate, Test.evaluate, hsame scopes hn, hsame' scopes hn]
  unary hop hx h n := by
    obtain ⟨s, hs, hsame⟩ := hx.absolute h n
    refine ⟨_, Condition.prepare_unary_ok_iff.mpr ⟨_, hop, s, hs, rfl⟩, fun scopes hn => ?_⟩
    rw [Test.evaluate, Test.evaluate, hsame scopes hn]
  binary hop hx hy h n := by
    obtain ⟨s, hs, hsame⟩ := hx.absolute h.1 n
    obtain ⟨u, hu, hsame'⟩ := hy.absolute h.2 n
    refine ⟨_, Condition.prepare_binary_ok_iff.mpr ⟨_, hop, s, hs, u, hu, rfl⟩, fun scopes hn => ?_⟩
    simp only [Test.evaluate, hsame scopes hn, hsame' scopes hn]

/-- On stacks of `n` scopes a condition says the same, and a path has the same matches, when all
paths start from positions instead of counting back, provided that no filter looks at
descendants. -/
theorem Condition.evaluate_absolute (n : Nat) :
    (∀ (c : Condition) (t : Test), c.Shallow → (c.prepare ops).result = .ok t →
      ∃ t', ((c.absolute n).prepare ops).result = .ok t' ∧
        ∀ scopes : Scopes, scopes.length = n → t'.evaluate scopes = t.evaluate scopes) ∧
    ∀ (p : Path) (m : Matcher), p.Shallow → (p.prepare ops).result = .ok m →
      ∃ m', ((p.absolute n).prepare ops).result = .ok m' ∧
        ∀ scopes : Scopes, scopes.length = n → m'.findAll scopes = m.findAll scopes := by
  refine ⟨fun c t hc ht => ?_, fun p m hp hm => ?_⟩
  · exact Condition.rel_of_prepare Condition.compositional_sameAbsolute c t ht hc n
  · have hyields := Path.yields_of_prepare Condition.compositional_sameAbsolute p m hm
    obtain ⟨m', hm', -, hsame⟩ := hyields.absolute hp n
    exact ⟨m', hm', hsame⟩

/-- The row that its own name picks, with two scopes inside the filter: the outer one at position 0,
the row at position 1. -/
theorem Condition.evaluate_absolute_row :
    let v : Value := .object [("pick", .string "b"),
      ("rows", .array [.object [("name", .string "a")], .object [("name", .string "b")]])]
    let own : Path := [.relative 0, .named ["name"] false]
    let picked : Path := [.relative 1, .named ["pick"] false]
    let p : Path := [.relative 0, .named ["rows"] false,
      .filter (.binary "is" false (.path own none) (.path picked none)) false]
    let q : Path := [.root 0, .named ["rows"] false,
      .filter (.binary "is" false (.path (.root 1 :: own.tail) none)
        (.path (.root 0 :: picked.tail) none)) false]
    p.Shallow ∧ ∃ m m', (p.prepare .builtin).result = .ok m ∧
      (q.prepare .builtin).result = .ok m' ∧ m'.findAll [v] = m.findAll [v] ∧
      (m.findAll [v]).map (·.path) = [[.index 0, .name "rows", .index 1]] := by
  intro v own picked p q
  have hp : p.Shallow := ⟨trivial, trivial, ⟨rfl, ⟨trivial, trivial, trivial⟩, trivial, trivial,
    trivial⟩, trivial⟩
  have hm : (p.prepare .builtin).result = .ok _ := rfl
  obtain ⟨m', hm', hsame⟩ := (Condition.evaluate_absolute 1).2 p _ hp hm
  exact ⟨hp, _, m', hm, hm', hsame [v] rfl, by decide +kernel⟩

end

end TreeQuery
