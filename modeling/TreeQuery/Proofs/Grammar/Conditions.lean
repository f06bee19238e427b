import TreeQuery.Grammar.Text
import TreeQuery.Proofs.Grammar.Operands

/-! Conditions read back. The text of a chain is its parts with the connective between them, and is
read as the chain of them that is grouped to the left; parentheses stand around a disjunction inside
a conjunction, and nowhere else. Atoms are nested no deeper than their text is long, which is what
the induction is on. -/

namespace TreeQuery

namespace Connective

variable (k : Connective)

/-- The text of a condition as a part of a chain. -/
def partText (c : Condition) : List Char :=
  match k with
  | or => c.display.toList
  | and => (grouped c.isOr c.display).toList

/-- The text of a further part of a chain. -/
def linkText (c : Condition) : List Char := ' ' :: (Grammar.word k ++ ' ' :: k.partText c)

theorem partText_apply (l r : Condition) :
    k.partText (k.apply l r) = k.partText l ++ k.linkText r := by
  cases k <;>
    simp [partText, linkText, Grammar.word, apply, Condition.display, Condition.isOr, grouped]

/-- A chain is written part by part. -/
theorem partText_eq (c : Condition) {first : Condition} {more : List Condition}
    (h : k.parts c = first :: more) :
    k.partText c = k.partText first ++ more.flatMap k.linkText := by
  induction c using k.chain_induction generalizing first more with
  | part c hk =>
    rw [k.parts_of_not_heads hk, List.cons.injEq] at h
    rw [← h.1, ← h.2, List.flatMap_nil, List.append_nil]
  | chain l r ihl ihr =>
    obtain ⟨f, fs, hf, -⟩ := k.regrouped_eq_foldl l
    obtain ⟨g, gs, hg, -⟩ := k.regrouped_eq_foldl r
    rw [k.parts_apply, hf, hg, List.cons_append, List.cons.injEq] at h
    rw [k.partText_apply, ihl hf, ← h.1, ← h.2, List.flatMap_append, List.flatMap_cons, linkText,
      ihr hg]
    simp [linkText]

/-- Only disjunctions are written otherwise inside conjunctions. -/
theorem partText_of_not_or {c : Condition} (h : or.heads c = false) :
    and.partText c = or.partText c := by
  cases c <;> first | rfl | simp [heads] at h

theorem length_partText_le {c p : Condition} (hp : p ∈ k.parts c) :
    (k.partText p).length ≤ (k.partText c).length := by
  induction c using k.chain_induction with
  | part c hk =>
    rw [k.parts_of_not_heads hk, List.mem_singleton] at hp
    exact hp ▸ Nat.le_refl _
  | chain l r ihl ihr =>
    rw [k.parts_apply, List.mem_append] at hp
    rw [k.partText_apply, linkText]
    simp only [List.length_append, List.length_cons]
    rcases hp with hp | hp
    · have := ihl hp
      omega
    · have := ihr hp
      omega

end Connective

namespace Grammar

/-! ### Chains -/

/-- A chain of what `p` reads. -/
def chain (k : Connective) (p : Parser Condition) : Parser Condition := do
  let first ← p
  let rest ← many (do spaced (keyword (word k)); p)
  return rest.foldl k.apply first

theorem conjunction_eq (atom : Parser Condition) : conjunction atom = chain .and atom := rfl

theorem disjunction_eq (atom : Parser Condition) :
    disjunction atom = chain .or (conjunction atom) := rfl

theorem equal_apply (k : Connective) {a b a' b' : Condition} (h : a.equal b = true)
    (h' : a'.equal b' = true) : (k.apply a a').equal (k.apply b b') = true := by
  cases k <;> simp [Connective.apply, Condition.equal, h, h']

section

variable {k : Connective} {ks : List Connective} {p : Parser Condition}

theorem follows_links {tail : List Char} (htail : Follows ks tail) (more : List Condition) :
    Follows (k :: ks) (more.flatMap k.linkText ++ tail) := by
  cases more with
  | nil => exact htail.cons k
  | cons a more =>
    refine .inr ⟨k, by simp, k.partText a ++ (more.flatMap k.linkText ++ tail), ?_⟩
    simp [Connective.linkText]

/-- The word of a connective, with a blank behind it. -/
theorem reads_connective (k : Connective) {cs : List Char} (hcs : Clear isSpace cs) :
    Reads (spaced (keyword (word k))) (word k ++ ' ' :: cs) () cs := by
  have hstart : Clear isSpace (word k ++ ' ' :: cs) := by cases k <;> exact clear_cons.mpr rfl
  have hblank : (' ' :: cs).dropWhile isSpace = cs := (takeWhile_of_clear hcs).2
  refine Reads.spaced ?_ hblank
  rw [(takeWhile_of_clear hstart).2]
  exact reads_keyword (word k) (clear_cons.mpr rfl)

theorem reads_links
    (hend : ∀ tail, Follows ks tail → Refuses (keyword (word k)) (tail.dropWhile isSpace))
    {tail : List Char} (htail : Follows ks tail) {more : List Condition}
    (h : ∀ a ∈ more, ReadsAs (Follows (k :: ks)) p (k.partText a) a.regrouped) :
    ∃ found, Reads (many (do spaced (keyword (word k)); p))
        ((more.flatMap k.linkText ++ tail).dropWhile isSpace) found (tail.dropWhile isSpace) ∧
      ∀ a b : Condition, a.equal b = true → (found.foldl k.apply a).equal
        ((more.map Condition.regrouped).foldl k.apply b) = true := by
  induction more with
  | nil =>
    refine ⟨[], Refuses.many (Refuses.bind _ (Refuses.spaced ?_)), fun a b hab => hab⟩
    rw [List.flatMap_nil, List.nil_append, (takeWhile_of_clear (clear_dropWhile isSpace tail)).2]
    exact hend tail htail
  | cons c more ih =>
    obtain ⟨found, hfound, hfold⟩ := ih fun a ha => h a (List.mem_cons_of_mem c ha)
    obtain ⟨hstart, c', hc, heq⟩ := h c (by simp) _ (follows_links htail more)
    refine ⟨c' :: found, ?_, fun a b hab => hfold _ _ (equal_apply k hab heq)⟩
    generalize htext : more.flatMap k.linkText ++ tail = text at hstart hc hfound
    -- the blank before the word is gone with the part before it
    have hlink : ((c :: more).flatMap k.linkText ++ tail).dropWhile isSpace =
        word k ++ ' ' :: (k.partText c ++ text) := by
      rw [List.flatMap_cons, List.append_assoc, htext, Connective.linkText]
      cases k <;> simp [word, isSpace]
    rw [hlink]
    refine .many ((reads_connective k hstart).bind hc) ?_ hfound
    have hle := (List.dropWhile_suffix isSpace (l := text)).length_le
    simp only [List.length_append, List.length_cons]
    omega

/-- A chain is read back, grouped to the left, if its parts are. -/
theorem readsAs_chain {c : Condition}
    (hend : ∀ tail, Follows ks tail → Refuses (keyword (word k)) (tail.dropWhile isSpace))
    (h : ∀ a ∈ k.parts c, ReadsAs (Follows (k :: ks)) p (k.partText a) a.regrouped) :
    ReadsAs (Follows ks) (chain k p) (k.partText c) c.regrouped := by
  obtain ⟨first, more, hparts, hc⟩ := k.regrouped_eq_foldl c
  rw [hparts] at h
  rw [k.partText_eq c hparts, hc]
  intro tail htail
  obtain ⟨hstart, first', hfirst, heq⟩ := h first (by simp) _ (follows_links htail more)
  obtain ⟨found, hfound, hfold⟩ := reads_links hend htail
    fun a ha => h a (List.mem_cons_of_mem first ha)
  rw [List.append_assoc]
  exact ⟨hstart, _, hfirst.bind (hfound.bind (reads_pure _ _)), hfold first' _ heq⟩

end

/-! ### Atoms -/

/-- Negation respects equality. -/
theorem equal_negated : ∀ {c d : Condition}, c.equal d = true → c.negated.equal d.negated = true
  | .or l r, d, h => by
    cases d with
    | or l' r' =>
      simp only [Condition.equal, Bool.and_eq_true] at h
      simp [Condition.negated, Condition.equal, equal_negated h.1, equal_negated h.2]
    | _ => simp [Condition.equal] at h
  | .and l r, d, h => by
    cases d with
    | and l' r' =>
      simp only [Condition.equal, Bool.and_eq_true] at h
      simp [Condition.negated, Condition.equal, equal_negated h.1, equal_negated h.2]
    | _ => simp [Condition.equal] at h
  | .unary .., d, h => by
    cases d <;> simp_all [Condition.negated, Condition.equal]
  | .binary .., d, h => by
    cases d <;> simp_all [Condition.negated, Condition.equal]

/-- What can follow an atom. -/
abbrev FollowsAtom : List Char → Prop := Follows [.and, .or]

section

variable {depth : Nat}

theorem reads_atom {cs rest : List Char} {c : Condition} (hcs : Clear isSpace cs)
    (h : Reads (oneOf [
      do
        keyword ['n', 'o', 't']
        spaces
        let c ← (atom depth : Parser Condition)
        return c.negated,
      between ['('] (spaced (disjunction (atom depth))) [')'],
      predicate (disjunction (atom depth))]) cs c rest) :
    Reads (atom (depth + 1) : Parser Condition) cs c (rest.dropWhile isSpace) := by
  refine Reads.spaced ?_ rfl
  rwa [(takeWhile_of_clear hcs).2]

/-- A predicate is an atom. -/
theorem readsAs_predicate {x : Operand} {literal : Value → Prop} {text : List Char} {c : Condition}
    (hx : x.WellFormed literal)
    (h : ∀ tail, FollowsAtom tail → ∃ c', Reads (predicate (disjunction (atom depth)))
      (x.display.toList ++ text ++ tail) c' tail ∧ c'.equal c = true) :
    ReadsAs FollowsAtom (atom (depth + 1)) (x.display.toList ++ text) c := by
  intro tail htail
  obtain ⟨c', hread, heq⟩ := h tail htail
  have hclear : ∀ f : Char → Bool, ['\x60', 's', 'e', '$', '@', '^'].any f = false →
      Clear f (x.display.toList ++ text ++ tail) := by
    intro f hf
    rw [List.append_assoc]
    exact (operand_start hx).clear hf _
  refine ⟨hclear _ rfl, c', reads_atom (hclear _ rfl) ?_, heq⟩
  refine .later (((refuses_tag_of_clear (hclear _ rfl) _).bind _).bind _) ?_
  exact .later ((refuses_tag_of_clear (hclear _ rfl) _).bind _) (Reads.first hread)

/-- A condition in parentheses is an atom. -/
theorem reads_atom_group {cs rest : List Char} {c : Condition}
    (h : Reads (spaced (disjunction (atom depth))) cs c (')' :: rest)) :
    Reads (atom (depth + 1) : Parser Condition) ('(' :: cs) c (rest.dropWhile isSpace) := by
  have hbetween : Reads (between ['('] (spaced (disjunction (atom depth))) [')']) (['('] ++ cs) c
      rest := h.between
  exact reads_atom (clear_cons.mpr rfl)
    (.later ((refuses_keyword rfl).bind _) (Reads.first hbetween))

/-- A negated atom is an atom. -/
theorem reads_atom_not {cs rest : List Char} {c : Condition} (hcs : Clear isSpace cs)
    (h : Reads (atom depth : Parser Condition) cs c rest) :
    Reads (atom (depth + 1) : Parser Condition) (['n', 'o', 't'] ++ ' ' :: cs) c.negated
      (rest.dropWhile isSpace) :=
  reads_atom (clear_cons.mpr rfl) (Reads.first ((reads_keyword _ (clear_cons.mpr rfl)).bind
    ((reads_spaces_blank hcs).bind (h.bind (reads_pure c.negated rest)))))

theorem readsAs_grouped {text : List Char} {c : Condition}
    (h : ReadsAs Closes (disjunction (atom depth)) text c) :
    ReadsAs FollowsAtom (atom (depth + 1)) ('(' :: (text ++ [')'])) c := by
  intro tail htail
  obtain ⟨hstart, c', hread, heq⟩ := h (')' :: tail) (endsIn_cons (by decide) tail)
  refine ⟨clear_cons.mpr rfl, c', ?_, heq⟩
  rw [List.cons_append, List.append_assoc]
  exact reads_atom_group (hread.spaced_of_clear hstart (clear_cons.mpr rfl))

theorem readsAs_negated {text : List Char} {c : Condition}
    (h : ReadsAs FollowsAtom (atom depth) text c) :
    ReadsAs FollowsAtom (atom (depth + 1)) (['n', 'o', 't', ' '] ++ text) c.negated := by
  intro tail htail
  obtain ⟨hstart, c', hread, heq⟩ := h tail htail
  refine ⟨clear_cons.mpr rfl, c'.negated, ?_, equal_negated heq⟩
  have hatom := reads_atom_not hstart hread
  rwa [(takeWhile_of_clear (clear_dropWhile isSpace tail)).2] at hatom

end

/-! ### Conditions -/

/-- The text of every condition inside a path is shorter than the text of the path. -/
theorem length_filter_lt {c : Condition} {deep : Bool} {p : Path} (h : .filter c deep ∈ p) :
    c.display.toList.length < p.display.toList.length := by
  induction p with
  | nil => simp at h
  | cons s p ih =>
    rw [Path.display, Selector.displayAll, String.toList_append, List.length_append]
    rcases List.mem_cons.mp h with rfl | h
    · cases deep <;> simp [Selector.display, bracketed] <;> omega
    · have hlt := ih h
      rw [Path.display] at hlt
      omega

theorem readsFiltersOf_of_length {literal : Value → Prop} {q : Parser Condition} {n : Nat}
    (hq : ∀ c : Condition, c.WellFormed literal → c.display.toList.length < n →
      ReadsAs Closes q c.display.toList c.regrouped)
    {x : Operand} (hx : x.WellFormed literal) (hn : x.display.toList.length ≤ n) :
    ReadsFiltersOf q x := by
  cases x with
  | value v => trivial
  | path p range? =>
    intro c deep hmem
    have hp : Path.WellFormed literal p := hx
    have hle : (Path.display p).toList.length ≤ (Operand.path p range?).display.toList.length := by
      cases range? with
      | none => exact Nat.le_refl _
      | some range =>
        rw [toList_display_quantified, List.length_append, List.length_cons]
        omega
    have hlt := length_filter_lt hmem
    exact hq c (hp.of_mem_filter hmem) (by omega)

section

variable {depth : Nat}

/-- Atoms of a text shorter than they may be nested are read back. -/
def ReadsAtoms (depth : Nat) : Prop :=
  ∀ c : Condition, c.WellFormed Value.ReadsBack → Connective.and.heads c = false →
    (Connective.and.partText c).length < depth →
    ReadsAs FollowsAtom (atom depth) (Connective.and.partText c) c.regrouped

theorem readsAs_conditionAt (hatoms : ReadsAtoms depth) {c : Condition}
    (hc : c.WellFormed Value.ReadsBack) (hdepth : c.display.toList.length < depth) :
    ReadsAs Closes (conditionAt depth) c.display.toList c.regrouped := by
  -- what goes on behind a conjunction is `or`, and nothing goes on behind the whole
  have hand : ∀ tail, Follows [.or] tail →
      Refuses (keyword (word .and)) (tail.dropWhile isSpace) := by
    intro tail htail
    refine (refuses_tag_of_clear (htail.clear rfl fun k hk => ?_) _).bind _
    rw [List.mem_singleton.mp hk]
    rfl
  have hor : ∀ tail, Follows [] tail → Refuses (keyword (word .or)) (tail.dropWhile isSpace) := by
    intro tail htail
    refine (refuses_tag_of_clear (htail.clear rfl fun k hk => ?_) _).bind _
    cases hk
  have hconjunction : ∀ d ∈ Connective.or.parts c, ReadsAs (Follows [.or])
      (chain .and (atom depth)) (Connective.or.partText d) d.regrouped := by
    intro d hd
    have hle := Connective.or.length_partText_le hd
    -- a part of a disjunction is no disjunction, so it is written as it is in a conjunction
    have htext := Connective.partText_of_not_or (Connective.or.not_heads_of_mem_parts hd)
    rw [← htext] at hle ⊢
    refine readsAs_chain hand fun a ha => ?_
    have hle' := Connective.and.length_partText_le ha
    exact hatoms a ((hc.of_mem_parts hd).of_mem_parts ha)
      (Connective.and.not_heads_of_mem_parts ha)
      (Nat.lt_of_le_of_lt (Nat.le_trans hle' hle) hdepth)
  have hdisjunction := readsAs_chain hor hconjunction
  rw [conditionAt, disjunction_eq, conjunction_eq]
  exact fun tail htail => hdisjunction tail (.inl htail)

theorem readsFiltersOf_of_atoms (hatoms : ReadsAtoms depth) {x : Operand}
    (hx : x.WellFormed Value.ReadsBack) (hn : x.display.toList.length ≤ depth) :
    ReadsFiltersOf (disjunction (atom depth)) x :=
  readsFiltersOf_of_length (fun _ hd => readsAs_conditionAt hatoms hd) hx hn

/-- A disjunction inside a conjunction is in parentheses. -/
theorem readsAtom_or (hatoms : ReadsAtoms depth) {l r : Condition}
    (hc : (Condition.or l r).WellFormed Value.ReadsBack)
    (hlength : (Connective.and.partText (.or l r)).length < depth + 1) :
    ReadsAs FollowsAtom (atom (depth + 1)) (Connective.and.partText (.or l r))
      (Condition.or l r).regrouped := by
  have htext : Connective.and.partText (.or l r) =
      '(' :: ((Condition.or l r).display.toList ++ [')']) := by
    simp [Connective.partText, Condition.isOr, grouped]
  rw [htext] at hlength ⊢
  simp only [List.length_cons, List.length_append] at hlength
  exact readsAs_grouped (readsAs_conditionAt hatoms hc (by omega))

theorem readsAtom_unary (hatoms : ReadsAtoms depth) {op : String} {x : Operand}
    (hc : (Condition.unary op false x).WellFormed Value.ReadsBack)
    (hlength : (Condition.unary op false x).display.toList.length < depth + 1) :
    ReadsAs FollowsAtom (atom (depth + 1)) (Condition.unary op false x).display.toList
      (Condition.unary op false x).regrouped := by
  rw [toList_display_unary, List.length_append, List.length_cons] at hlength
  have hfilters := readsFiltersOf_of_atoms hatoms hc.2 (by omega)
  rw [toList_display_unary]
  refine readsAs_predicate hc.2 fun tail htail => ?_
  rw [← toList_display_unary]
  exact reads_unary hc.1 hc.2 hfilters htail

theorem readsAtom_binary (hatoms : ReadsAtoms depth) {op : String} {l r : Operand}
    (hc : (Condition.binary op false l r).WellFormed Value.ReadsBack)
    (hlength : (Condition.binary op false l r).display.toList.length < depth + 1) :
    ReadsAs FollowsAtom (atom (depth + 1)) (Condition.binary op false l r).display.toList
      (Condition.binary op false l r).regrouped := by
  rw [toList_display_binary] at hlength
  simp only [List.length_append, List.length_cons] at hlength
  have hleft := readsFiltersOf_of_atoms hatoms hc.2.1 (by omega)
  have hright := readsFiltersOf_of_atoms hatoms hc.2.2 (by omega)
  rw [toList_display_binary]
  refine readsAs_predicate hc.2.1 fun tail htail => ?_
  rw [← toList_display_binary]
  exact reads_binary hc.1 hc.2.1 hc.2.2 hleft hright htail.stops

/-- A negated atom is read one level below its word. -/
theorem readsAtom_negated (hatoms : ReadsAtoms depth) {c : Condition}
    (hc : c.WellFormed Value.ReadsBack) (hhead : Connective.and.heads c = false)
    {text : List Char} (htext : text = ['n', 'o', 't', ' '] ++ Connective.and.partText c)
    (hlength : text.length < depth + 1) :
    ReadsAs FollowsAtom (atom (depth + 1)) text c.regrouped.negated := by
  rw [htext] at hlength ⊢
  simp only [List.length_append, List.length_cons] at hlength
  exact readsAs_negated (hatoms c hc hhead (by omega))

theorem readsAtoms_succ (hatoms : ReadsAtoms depth) : ReadsAtoms (depth + 1) := by
  intro c hc hhead hlength
  cases c with
  | or l r => exact readsAtom_or hatoms hc hlength
  | and l r => cases hhead
  | unary op negate x =>
    cases negate with
    | false => exact readsAtom_unary hatoms hc hlength
    | true =>
      refine readsAtom_negated (c := .unary op false x) hatoms hc rfl ?_ hlength
      simp [Connective.partText, Condition.isOr, grouped, Condition.display, negation]
  | binary op negate l r =>
    cases negate with
    | false => exact readsAtom_binary hatoms hc hlength
    | true =>
      refine readsAtom_negated (c := .binary op false l r) hatoms hc rfl ?_ hlength
      simp [Connective.partText, Condition.isOr, grouped, Condition.display, negation]

theorem readsAtoms : ∀ depth, ReadsAtoms depth
  | 0 => fun _ _ _ h => absurd h (Nat.not_lt_zero _)
  | depth + 1 => readsAtoms_succ (readsAtoms depth)

end

theorem condition_eq (cs : List Char) : condition cs = conditionAt (cs.length + 1) cs := rfl

/-- A condition is read back, up to grouping, whatever closes it. -/
theorem readsAs_condition {c : Condition} (hc : c.WellFormed Value.ReadsBack) :
    ReadsAs Closes condition c.display.toList c.regrouped := by
  intro tail htail
  have hdepth : c.display.toList.length < (c.display.toList ++ tail).length + 1 := by
    rw [List.length_append]
    omega
  obtain ⟨hstart, c', hread, heq⟩ := readsAs_conditionAt (readsAtoms _) hc hdepth tail htail
  refine ⟨hstart, c', ?_, heq⟩
  rwa [Reads, condition_eq]

theorem readsFilters_condition {p : Path} (hp : p.WellFormed Value.ReadsBack) :
    ReadsFilters condition p :=
  fun _ _ hmem => readsAs_condition (hp.of_mem_filter hmem)

theorem readWhole_of_reads {α : Type} {p : Parser α} {text : String} {a : α}
    (hstart : Clear isSpace text.toList) (h : Reads p text.toList a []) :
    readWhole p text = .ok a := by
  have hspaced : spaced p text.toList = .ok (a, []) := h.spaced_of_clear hstart (clear_nil _)
  rw [readWhole, hspaced]

end Grammar

/-! ### Round trips -/

open Grammar

theorem Condition.parse_display {c : Condition} (hc : c.WellFormed Value.ReadsBack) :
    ∃ c', Condition.parse c.display = .ok c' ∧ c'.equal c.regrouped = true := by
  obtain ⟨hstart, c', hread, heq⟩ := readsAs_condition hc [] (endsIn_nil _)
  rw [List.append_nil] at hstart hread
  exact ⟨c', readWhole_of_reads hstart hread, heq⟩

theorem Path.parse_display {p : Path} (hp : p.WellFormed Value.ReadsBack) :
    ∃ p' : Path, Path.parse p.display = .ok p' ∧ p'.equal p.regrouped = true := by
  have hstart : Clear isSpace (p.display.toList ++ []) := (path_start hp).clear rfl []
  obtain ⟨p', hread, heq⟩ := reads_path hp (readsFilters_condition hp) (endsIn_nil _)
  rw [List.append_nil] at hstart hread
  exact ⟨p', readWhole_of_reads hstart hread, heq⟩

/-- The text of a path or condition spells it with its chains regrouped, so that all of them are
grouped to the left; that is the same path or condition if they were grouped to the left before. -/
theorem parse_display_regrouped :
    (∀ p : Path, p.WellFormed Value.ReadsBack → ∃ p' : Path, Path.parse p.display = .ok p' ∧
      p'.equal p.regrouped = true ∧ p'.LeftGrouped ∧ (p.LeftGrouped → p'.equal p = true)) ∧
    ∀ c : Condition, c.WellFormed Value.ReadsBack → ∃ c', Condition.parse c.display = .ok c' ∧
      c'.equal c.regrouped = true ∧ c'.LeftGrouped ∧ (c.LeftGrouped → c'.equal c = true) := by
  constructor
  · intro p hp
    obtain ⟨p', hparse, heq⟩ := Path.parse_display hp
    refine ⟨p', hparse, heq, Path.leftGrouped_of_equal_regrouped heq, fun hleft => ?_⟩
    rwa [Path.regrouped, Selector.regroupedAll_of_leftGrouped hleft] at heq
  · intro c hc
    obtain ⟨c', hparse, heq⟩ := Condition.parse_display hc
    refine ⟨c', hparse, heq, Condition.leftGrouped_of_equal_regrouped heq, fun hleft => ?_⟩
    rwa [Condition.regrouped_of_leftGrouped hleft] at heq

/-- A filter comes back as it was; a conjunction that is the right side of another changes sides. -/
theorem parse_display_conjunctions :
    (∃ p' : Path,
      Path.parse (Path.display [.root 0, .named ["items"] true, .filter (.binary "lt" true
        (.path [.current, .named ["unit price"] false] none) (.value (.number 1.5))) true]) =
          .ok p' ∧
      p'.equal [.root 0, .named ["items"] true, .filter (.binary "lt" true
        (.path [.current, .named ["unit price"] false] none) (.value (.number 1.5))) true] =
          true) ∧
    (∃ c', Condition.parse (Condition.display (.and (.unary "a" false (.path [.current] none))
        (.and (.unary "b" true (.path [.relative 1] (some .every)))
          (.unary "c" false (.path [.root 2] (some .some)))))) = .ok c' ∧
      c'.equal (.and (.and (.unary "a" false (.path [.current] none))
        (.unary "b" true (.path [.relative 1] (some .every))))
          (.unary "c" false (.path [.root 2] (some .some)))) = true) ∧
    ∃ c', Condition.parse (Condition.display (.or (.unary "a" false (.path [.current] none))
        (.unary "b" true (.value (.string "or"))))) = .ok c' ∧
      c'.equal (.or (.unary "a" false (.path [.current] none))
        (.unary "b" true (.value (.string "or")))) = true := by
  have hnumber : (Value.number 1.5).ReadsBack := by
    refine ⟨by simp [Value.leaves], fun x hx => ?_, trivial, by decide⟩
    simp only [Value.leaves, List.mem_singleton, Value.number.injEq] at hx
    exact hx ▸ numberReadsBack_three_halves
  have hstring : (Value.string "or").ReadsBack :=
    ⟨by simp [Value.leaves], by simp [Value.leaves], trivial, by decide⟩
  refine ⟨?_, ?_, ?_⟩
  · obtain ⟨p', hparse, -, -, hexact⟩ := parse_display_regrouped.1 [.root 0, .named ["items"] true,
      .filter (.binary "lt" true (.path [.current, .named ["unit price"] false] none)
        (.value (.number 1.5))) true]
      ⟨by decide, List.cons_ne_nil _ _, ⟨⟨by decide, by decide⟩,
        ⟨by decide, List.cons_ne_nil _ _, trivial⟩, hnumber⟩, trivial⟩
    exact ⟨p', hparse, hexact ⟨trivial, trivial, ⟨⟨trivial, trivial, trivial⟩, trivial⟩, trivial⟩⟩
  · obtain ⟨c', hparse, hregrouped, -⟩ := parse_display_regrouped.2
      (.and (.unary "a" false (.path [.current] none))
        (.and (.unary "b" true (.path [.relative 1] (some .every)))
          (.unary "c" false (.path [.root 2] (some .some)))))
      ⟨⟨⟨by decide, by decide⟩, by decide, trivial⟩, ⟨⟨by decide, by decide⟩, by decide, trivial⟩,
        ⟨by decide, by decide⟩, by decide, trivial⟩
    exact ⟨c', hparse, hregrouped⟩
  · obtain ⟨c', hparse, -, -, hexact⟩ := parse_display_regrouped.2
      (.or (.unary "a" false (.path [.current] none)) (.unary "b" true (.value (.string "or"))))
      ⟨⟨⟨by decide, by decide⟩, by decide, trivial⟩, ⟨by decide, by decide⟩, hstring⟩
    exact ⟨c', hparse, hexact ⟨⟨trivial, trivial⟩, trivial, rfl⟩⟩

end TreeQuery
