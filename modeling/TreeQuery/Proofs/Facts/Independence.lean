import TreeQuery.Proofs.Facts.Blocks

/-! What the outcome of a rule depends on. Guards look at which facts of the names they mention are
known, and at nothing else: facts of other names, the order of the facts and repetitions make no
difference to a rule, nor to a run of several rules. Two neighbours in a rule set that do not
mention each other can therefore change places. -/

namespace TreeQuery

/-- The same facts of these names are known, in any order and any number of times. -/
def AgreeOn (names : String → Prop) (known known' : List Fact) : Prop :=
  ∀ f : Fact, names f.name → (f ∈ known ↔ f ∈ known')

namespace AgreeOn

variable {names : String → Prop} {known known' : List Fact}

theorem mono {names' : String → Prop} (h : AgreeOn names known known')
    (hnames : ∀ name, names' name → names name) : AgreeOn names' known known' :=
  fun f hf => h f (hnames f.name hf)

theorem append_right (h : AgreeOn names known known') (more : List Fact) :
    AgreeOn names (known ++ more) (known' ++ more) := by
  intro f hf
  rw [List.mem_append, List.mem_append, h f hf]

theorem of_perm (h : known.Perm known') : AgreeOn names known known' :=
  fun _ _ => h.mem_iff

/-- More facts of other names make no difference. -/
theorem append_others {more : List Fact} (h : ∀ f ∈ more, ¬ names f.name) :
    AgreeOn names (known ++ more) known := by
  intro f hf
  rw [List.mem_append]
  exact ⟨fun hmem => hmem.resolve_right fun hmore => h f hmore hf, .inl⟩

end AgreeOn

theorem Guard.met_congr {g : Guard} {known known' : List Fact}
    (h : AgreeOn (· = g.name) known known') (place : Location) :
    g.Met known place ↔ g.Met known' place := by
  have hsome : (∃ f ∈ known, f.name = g.name ∧ f.Reaches place) ↔
      ∃ f ∈ known', f.name = g.name ∧ f.Reaches place := by
    refine exists_congr fun f => ?_
    by_cases hname : f.name = g.name
    · rw [h f hname]
    · simp [hname]
  rw [Met, Met, hsome]

namespace PreparedRule

/-- Some guard of the rule mentions the name. -/
def Mentions (r : PreparedRule) (name : String) : Prop := ∃ g ∈ r.guards, g.name = name

variable {r : PreparedRule} {known known' : List Fact}

theorem applies_congr (h : AgreeOn r.Mentions known known') (m : Match) :
    r.Applies known m ↔ r.Applies known' m := by
  have hguards : (∀ g ∈ r.guards, g.Met known m.path) ↔ ∀ g ∈ r.guards, g.Met known' m.path :=
    forall₂_congr fun g hg =>
      Guard.met_congr (h.mono fun _ hname => ⟨g, hg, hname.symm⟩) m.path
  rw [Applies, Applies, hguards]

theorem evaluate_congr (h : AgreeOn r.Mentions known known') (source : Value) :
    r.evaluate source known = r.evaluate source known' := by
  rw [evaluate_eq, evaluate_eq]
  congr 1
  exact List.filter_congr fun m _ => decide_eq_decide.mpr (applies_congr h m)

/-- A rule does not notice what rules of unmentioned names have concluded. -/
theorem evaluate_append_of_not_mentions {s : PreparedRule} (h : ¬ r.Mentions s.name)
    (source : Value) (known earlier : List Fact) :
    r.evaluate source (known ++ s.evaluate source earlier) = r.evaluate source known := by
  refine evaluate_congr (AgreeOn.append_others fun f hf => ?_) source
  rwa [name_of_mem_evaluate hf]

end PreparedRule

namespace RuleSet

/-- Some guard of one of the rules mentions the name. -/
def Mentions (rules : RuleSet) (name : String) : Prop := ∃ r ∈ rules, r.Mentions name

/-- From facts that agree on all mentioned names, every rule of a set concludes the same: what the
rules add to both lists on the way is the same, and keeps them in agreement. -/
theorem blocks_congr {rules : RuleSet} {known known' : List Fact}
    (h : AgreeOn rules.Mentions known known') (source : Value) :
    rules.blocks source known = rules.blocks source known' := by
  induction rules generalizing known known' with
  | nil => rfl
  | cons r rest ih =>
    have hfirst : r.evaluate source known = r.evaluate source known' :=
      PreparedRule.evaluate_congr (h.mono fun _ hr => ⟨r, List.mem_cons_self, hr⟩) source
    have hrest : AgreeOn (Mentions rest) known known' :=
      h.mono fun _ ⟨s, hs, hname⟩ => ⟨s, List.mem_cons_of_mem r hs, hname⟩
    rw [blocks_cons, blocks_cons, hfirst, ih (hrest.append_right _)]

/-- Where two lists hold the same facts of all names that guards mention, a run appends the same
facts to both, in the same order. -/
theorem derive_of_agreeOn {rules : RuleSet} {I J : List Fact} (h : AgreeOn rules.Mentions I J)
    (source : Value) :
    ∃ derived, rules.derive source I = I ++ derived ∧ rules.derive source J = J ++ derived := by
  refine ⟨(rules.blocks source I).flatten, derive_eq_append source rules I, ?_⟩
  rw [blocks_congr h]
  exact derive_eq_append source rules J

/-- Facts that no guard asks for, their order and repetitions do not show in what is derived; what
is derived on the way counts for both lists. -/
theorem derive_of_agreeOn_near :
    let source : Value := .array [.null, .null, .null]
    let rules : RuleSet := [
      ⟨"far", none, ⟨some (.root 0), [.all false]⟩, [.requires "near"], none⟩,
      ⟨"near", some .ancestors, ⟨some (.root 0), [.elements [0]]⟩, [], none⟩,
      ⟨"rest", none, ⟨some (.root 0), [.all false]⟩, [.excludes "near"], none⟩]
    let near : Fact := ⟨"near", [.index 0, .index 1], none⟩
    let I : List Fact := [near, ⟨"note", [.index 0], none⟩, near]
    let J : List Fact := [⟨"far", [.index 0, .index 2], none⟩, near]
    let derived : List Fact := [⟨"far", [.index 0, .index 1], none⟩,
      ⟨"near", [.index 0, .index 0], some .ancestors⟩, ⟨"rest", [.index 0, .index 2], none⟩]
    AgreeOn rules.Mentions I J ∧ rules.derive source I = I ++ derived ∧
      rules.derive source J = J ++ derived := by
  intro source rules near I J derived
  have hagree : AgreeOn rules.Mentions I J := by
    rintro f ⟨r, hr, g, hg, hname⟩
    have hnear : f.name = "near" := by
      simp only [rules, List.mem_cons, List.not_mem_nil, or_false] at hr
      rcases hr with rfl | rfl | rfl <;> simp [Guard.requires, Guard.excludes] at hg <;>
        simp [← hname, hg]
    have hother : ∀ name place, name ≠ "near" → f ≠ ⟨name, place, none⟩ :=
      fun name place hne heq => hne (by rw [← hnear, heq])
    simp [I, J, hother]
  have hderived : rules.derive source I = I ++ derived := by decide +kernel
  obtain ⟨added, hI, hJ⟩ := derive_of_agreeOn hagree source
  obtain rfl : derived = added := List.append_cancel_left (hderived.symm.trans hI)
  exact ⟨hagree, hI, hJ⟩

/-- Two neighbours run one after the other on what the rules before them derived. -/
theorem derive_neighbours (before after : RuleSet) {a b : PreparedRule} {source : Value}
    {initial known fromA fromB : List Fact} (hknown : before.derive source initial = known)
    (hA : a.evaluate source known = fromA) (hB : b.evaluate source (known ++ fromA) = fromB) :
    derive (before ++ [a, b] ++ after) source initial = known ++ (fromA ++ fromB) ++
      (after.blocks source (known ++ (fromA ++ fromB))).flatten := by
  rw [derive_append, derive_append, derive_cons, derive_cons, derive_nil, hknown, hA, hB,
    List.append_assoc, derive_eq_append]

/-- Neighbouring rules of which neither has a guard that mentions the other can change places: each
concludes the same before the other as after it, the two blocks of facts change places, and all
other facts are derived as before. -/
theorem derive_swap {a b : PreparedRule} (ha : ¬ a.Mentions b.name) (hb : ¬ b.Mentions a.name)
    (before after : RuleSet) (source : Value) (initial : List Fact) :
    let known := before.derive source initial
    let fromA := a.evaluate source known
    let fromB := b.evaluate source known
    a.evaluate source (known ++ fromB) = fromA ∧ b.evaluate source (known ++ fromA) = fromB ∧
    (∃ rest,
      derive (before ++ [a, b] ++ after) source initial = known ++ (fromA ++ fromB) ++ rest ∧
      derive (before ++ [b, a] ++ after) source initial = known ++ (fromB ++ fromA) ++ rest) ∧
    (derive (before ++ [b, a] ++ after) source initial).Perm
      (derive (before ++ [a, b] ++ after) source initial) := by
  intro known fromA fromB
  have hA : a.evaluate source (known ++ fromB) = fromA :=
    PreparedRule.evaluate_append_of_not_mentions ha source known known
  have hB : b.evaluate source (known ++ fromA) = fromB :=
    PreparedRule.evaluate_append_of_not_mentions hb source known known
  have hperm : (known ++ (fromB ++ fromA)).Perm (known ++ (fromA ++ fromB)) :=
    List.perm_append_comm.append_left known
  -- the rules after the two cannot tell which of them came first
  have hrest : after.blocks source (known ++ (fromB ++ fromA)) =
      after.blocks source (known ++ (fromA ++ fromB)) :=
    blocks_congr (.of_perm hperm) source
  have hab := derive_neighbours before after rfl rfl hB
  have hba := derive_neighbours before after rfl rfl hA
  rw [hrest] at hba
  refine ⟨hA, hB, ⟨_, hab, hba⟩, ?_⟩
  rw [hab, hba]
  exact hperm.append_right _

/-- A later rule that asks for both names concludes the same after either order. -/
theorem derive_swap_both :
    let source : Value := .array [.bool true, .bool false, .bool true]
    let on : Test := .unary (fun x _ => x.bool? == some true) false (.path (some (.root 0)) [] none)
    let a : PreparedRule := ⟨"on", none, ⟨some (.root 0), [.all false]⟩, [], some on⟩
    let b : PreparedRule :=
      ⟨"head", some .descendants, ⟨some (.root 0), [.elements [0, 1]]⟩, [.excludes "late"], none⟩
    let late : PreparedRule :=
      ⟨"late", none, ⟨some (.root 0), [.all false]⟩, [.requires "on", .excludes "head"], none⟩
    ¬ a.Mentions b.name ∧ ¬ b.Mentions a.name ∧
    (derive ([late] ++ [a, b] ++ [late]) source []).map (fun f => (f.name, f.context)) =
      [("on", [.index 0, .index 0]), ("on", [.index 0, .index 2]),
        ("head", [.index 0, .index 0]), ("head", [.index 0, .index 1]),
        ("late", [.index 0, .index 2])] ∧
    (derive ([late] ++ [b, a] ++ [late]) source []).Perm
      (derive ([late] ++ [a, b] ++ [late]) source []) := by
  intro source on a b late
  have ha : ¬ a.Mentions b.name := by simp [a, PreparedRule.Mentions]
  have hb : ¬ b.Mentions a.name := by simp [a, b, PreparedRule.Mentions, Guard.excludes]
  exact ⟨ha, hb, by decide +kernel, (derive_swap ha hb [late] [late] source []).2.2.2⟩

end RuleSet

end TreeQuery
