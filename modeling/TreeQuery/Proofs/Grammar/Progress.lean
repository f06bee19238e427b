import TreeQuery.Proofs.Grammar.Remainders
import TreeQuery.Proofs.Grammar.Stopped

/-! How much a parser takes. What a parser leaves is a suffix of the text, and each combinator has a
rule for the number of characters that are taken at the least. Some parsers may take nothing:
optional ones, blanks, a look at the next character, a repetition. Every parser of a part of a path
or condition takes a character all the same, whatever the conditions inside filters take. -/

namespace TreeQuery.Grammar

variable {α β : Type} {k m n : Nat}

/-- Of whatever it reads, `p` takes at least `n` characters, and it leaves a suffix. -/
def Takes (n : Nat) (p : Parser α) : Prop :=
  ∀ cs a rest, Reads p cs a rest → rest <:+ cs ∧ rest.length + n ≤ cs.length

/-- What `p` leaves is a proper suffix of the text. -/
abbrev Advances (p : Parser α) : Prop := Takes 1 p

theorem Takes.mono {p : Parser α} (h : Takes m p) (hle : n ≤ m) : Takes n p := by
  intro cs a rest hread
  obtain ⟨hsuffix, hlength⟩ := h cs a rest hread
  exact ⟨hsuffix, by omega⟩

theorem Takes.zero {p : Parser α} (h : Takes n p) : Takes 0 p := h.mono (Nat.zero_le n)

/-! ### Sequences and alternatives -/

theorem takes_pure (a : α) : Takes 0 (pure a) := by
  intro cs b rest hread
  cases hread
  exact ⟨List.suffix_refl cs, Nat.le_refl _⟩

theorem takes_fail (cause : Cause) (n : Nat) : Takes n (fail cause : Parser α) :=
  fun _ _ _ hread => nomatch hread

/-- A sequence takes what its first parser takes, whatever the others do. -/
theorem Takes.bind_first {p : Parser α} {f : α → Parser β} (hp : Takes n p)
    (hf : ∀ a, Takes k (f a)) : Takes n (p >>= f) := by
  intro cs b rest hread
  obtain ⟨a, mid, ha, hb⟩ := reads_bind_iff.mp hread
  obtain ⟨hmid, hmlength⟩ := hp cs a mid ha
  obtain ⟨hrest, -⟩ := hf a mid b rest hb
  exact ⟨hrest.trans hmid, by have := hrest.length_le; omega⟩

/-- A sequence takes what its later parsers take, whatever the first one does. -/
theorem Takes.bind_later {p : Parser α} {f : α → Parser β} (hp : Takes k p)
    (hf : ∀ a, Takes n (f a)) : Takes n (p >>= f) := by
  intro cs b rest hread
  obtain ⟨a, mid, ha, hb⟩ := reads_bind_iff.mp hread
  obtain ⟨hmid, -⟩ := hp cs a mid ha
  obtain ⟨hrest, hrlength⟩ := hf a mid b rest hb
  exact ⟨hrest.trans hmid, by have := hmid.length_le; omega⟩

theorem Takes.or {p q : Parser α} {ps : List (Parser α)} (hp : Takes n p)
    (hq : Takes n (oneOf (q :: ps))) : Takes n (oneOf (p :: q :: ps)) := by
  intro cs a rest hread
  rcases reads_orElse_iff.mp hread with hread | ⟨-, hread⟩
  · exact hp cs a rest hread
  · exact hq cs a rest hread

theorem Takes.optional {p : Parser α} (hp : Takes n p) : Takes 0 (Grammar.optional p) := by
  intro cs a? rest hread
  rcases reads_optional_iff.mp hread with ⟨a, -, ha⟩ | ⟨-, rfl, -⟩
  · obtain ⟨hsuffix, hlength⟩ := hp cs a rest ha
    exact ⟨hsuffix, by omega⟩
  · exact ⟨List.suffix_refl rest, Nat.le_refl _⟩

theorem Takes.committed {p : Parser α} (hp : Takes n p) : Takes n (Grammar.committed p) := by
  intro cs a rest hread
  unfold Reads Grammar.committed at hread
  split at hread
  · cases hread
  · exact hp cs a rest hread

theorem Takes.named {p : Parser α} (hp : Takes n p) (cause : Cause) :
    Takes n (Grammar.named cause p) := by
  intro cs a rest hread
  unfold Reads Grammar.named at hread
  split at hread
  · cases hread
  · exact hp cs a rest hread

theorem Takes.checked {p : Parser α} (hp : Takes n p) (check : α → Bool) (f : α → β)
    (cause : Cause) : Takes n (Grammar.checked p check f cause) := by
  intro cs b rest hread
  unfold Reads Grammar.checked at hread
  split at hread
  next a left ha =>
    split at hread
    · cases hread
      exact hp cs a rest ha
    · cases hread
  · cases hread

/-! ### Repetition -/

theorem Takes.many {p : Parser α} (hp : Takes n p) : Takes 0 (Grammar.many p) := by
  intro cs as rest hread
  induction as generalizing cs with
  | nil =>
    rcases reads_many_iff.mp hread with ⟨-, rfl, -⟩ | ⟨_, _, _, has, -⟩
    · exact ⟨List.suffix_refl rest, Nat.le_refl _⟩
    · cases has
  | cons a as ih =>
    rcases reads_many_iff.mp hread with ⟨has, -⟩ | ⟨_, _, mid, has, hfirst, -, hmore⟩
    · cases has
    · cases has
      obtain ⟨hmid, hmlength⟩ := hp cs a mid hfirst
      obtain ⟨hrest, hrlength⟩ := ih mid hmore
      exact ⟨hrest.trans hmid, by omega⟩

/-- The rounds of a repetition of `p`: each takes something, up to one that gives way or fails for
good. -/
inductive Rounds (p : Parser α) : List Char → Except Failure (List α × List Char) → Prop where
  | last {cs : List Char} (h : Refuses p cs) : Rounds p cs (.ok ([], cs))
  | broken {cs : List Char} {f : Failure} (h : p cs = .error f) (hf : f.committed = true) :
    Rounds p cs (.error f)
  | next {cs mid : List Char} {a : α} {result : Except Failure (List α × List Char)}
    (h : Reads p cs a mid) (hlt : mid.length < cs.length) (hmore : Rounds p mid result) :
    Rounds p cs (result.map fun x => (a :: x.1, x.2))

/-- Whatever the text, the repetition of `p` is a finite number of rounds that take something. -/
def Halts (p : Parser α) : Prop := ∀ cs, Rounds p cs (Grammar.many p cs)

theorem Takes.halts {p : Parser α} (hp : Takes 1 p) : Halts p := by
  intro cs
  -- by the length of the text, which each round makes shorter
  induction hlength : cs.length using Nat.strongRecOn generalizing cs with
  | _ length ih =>
    rw [Grammar.many]
    cases hread : p cs with
    | error f =>
      cases hf : f.committed with
      | false => simpa [hf] using Rounds.last ⟨f, hread, hf⟩
      | true => simpa [hf] using Rounds.broken hread hf
    | ok x =>
      obtain ⟨a, mid⟩ := x
      obtain ⟨-, hmid⟩ := hp cs a mid hread
      have hmore := Rounds.next hread hmid (ih mid.length (by omega) mid rfl)
      simp only [if_pos (show mid.length < cs.length from hmid)]
      cases hmany : Grammar.many p mid <;> simpa [hmany, Except.map] using hmore

-- Where a round takes nothing, there are no such rounds.
example : Grammar.many (pure () : Parser Unit) ['a'] = .error ⟨['a'], .progress, false⟩ := by cbv

theorem Takes.many1 {p : Parser α} (hp : Takes n p) : Takes n (Grammar.many1 p) :=
  hp.bind_first fun _ => hp.many.bind_first fun _ => takes_pure _

/-! ### Characters -/

theorem takes_char (c : Char) : Takes 1 (char c) := by
  intro cs u rest hread
  unfold Reads char at hread
  split at hread
  next d more =>
    split at hread
    · cases hread
      exact ⟨List.suffix_cons d rest, Nat.le_refl _⟩
    · cases hread
  · cases hread

theorem takes_tag (word : List Char) : Takes word.length (tag word) := by
  intro cs u rest hread
  rw [reads_tag_iff.mp hread]
  exact ⟨List.suffix_append word rest, by rw [List.length_append]; omega⟩

theorem takes_run (p : Char → Bool) : Takes 0 (run p) := by
  intro cs found rest hread
  cases hread
  exact ⟨List.dropWhile_suffix p, (List.dropWhile_suffix p).length_le⟩

/-- A suffix of what comes after the first character is a proper one. -/
theorem suffix_of_suffix_tail {cs rest : List Char} (hne : cs ≠ []) (h : rest <:+ cs.tail) :
    rest <:+ cs ∧ rest.length + 1 ≤ cs.length := by
  obtain ⟨c, more, rfl⟩ := List.exists_cons_of_ne_nil hne
  exact ⟨h.trans (List.suffix_cons c more), Nat.succ_le_succ h.length_le⟩

theorem takes_run1 (p : Char → Bool) (cause : Cause) : Takes 1 (run1 p cause) := by
  intro cs found rest hread
  unfold Reads run1 at hread
  split at hread
  · cases hread
  next hfound =>
    cases hread
    refine suffix_of_suffix_tail ?_ (Json.dropWhile_suffix_tail hfound)
    rintro rfl
    exact hfound rfl

theorem takes_ahead (p : Char → Bool) (cause : Cause) : Takes 0 (ahead p cause) := by
  intro cs u rest hread
  unfold Reads ahead at hread
  split at hread
  · cases hread
    exact ⟨List.suffix_refl cs, Nat.le_refl _⟩
  · cases hread

theorem takes_notAhead (p : Char → Bool) : Takes 0 (notAhead p) := by
  intro cs u rest hread
  unfold Reads notAhead at hread
  split at hread
  · cases hread
  · cases hread
    exact ⟨List.suffix_refl cs, Nat.le_refl _⟩

/-! ### Surroundings -/

theorem takes_spaces : Takes 0 spaces := (takes_run isSpace).bind_first fun _ => takes_pure _

theorem Takes.spaced {p : Parser α} (hp : Takes n p) : Takes n (Grammar.spaced p) :=
  takes_spaces.bind_later fun _ => hp.bind_first fun _ => takes_spaces.bind_first fun _ =>
    takes_pure _

theorem Takes.between {p : Parser α} (hp : Takes n p) (opening closing : List Char) :
    Takes opening.length (Grammar.between opening p closing) :=
  (takes_tag opening).bind_first fun _ => hp.bind_first fun _ =>
    (takes_tag closing).bind_first fun _ => takes_pure _

theorem Takes.commaList {p : Parser α} (hp : Takes n p) : Takes n (Grammar.commaList p) :=
  hp.bind_first fun _ => ((takes_char ',').bind_later fun _ => hp).many.bind_first fun _ =>
    takes_pure _

/-! ### Words, numbers and literals -/

theorem takes_identifier : Takes 1 identifier := by
  intro cs name rest hread
  obtain ⟨u, start, hahead, hname⟩ := reads_bind_iff.mp hread
  obtain ⟨found, after, hrun, hpure⟩ := reads_bind_iff.mp hname
  cases hpure
  unfold Reads ahead at hahead
  split at hahead
  next hstart =>
    cases hahead
    cases hrun
    cases cs with
    | nil => cases hstart
    | cons c more =>
      have hc : isNamePart c = true := by simp [isNamePart, show isNameStart c = true from hstart]
      exact suffix_of_suffix_tail (List.cons_ne_nil c more)
        (Json.dropWhile_suffix_tail (by simp [hc]))
  · cases hahead

theorem takes_keyword (word : List Char) : Takes word.length (keyword word) :=
  (takes_tag word).bind_first fun _ => takes_notAhead _

theorem takes_quantifier : Takes 1 quantifier :=
  .or (((takes_keyword _).mono (by decide)).bind_first fun _ => takes_pure _)
    (((takes_keyword _).mono (by decide)).bind_first fun _ => takes_pure _)

theorem takes_operatorName : Takes 1 operatorName := by
  rw [operatorName_eq]
  exact takes_identifier.checked _ _ _

theorem takes_scopeIndex : Takes 0 scopeIndex := by
  rw [scopeIndex_eq]
  exact ((takes_run1 isDigit .number).checked _ _ _).optional

theorem takes_sign : Takes 0 sign :=
  .or ((takes_char '-').bind_later fun _ => takes_pure _)
    (.or ((takes_char '+').bind_later fun _ => takes_pure _) (takes_pure _))

theorem takes_integer : Takes 1 integer := by
  rw [integer_eq]
  exact takes_sign.bind_later fun _ => (takes_run1 isDigit .number).checked _ _ _

theorem takes_plainText : Takes 1 plainText :=
  (takes_char '\'').bind_first fun _ => (takes_run _).bind_first fun _ =>
    (takes_char '\'').bind_first fun _ => takes_pure _

theorem takes_documentText : Takes 1 documentText := by
  intro cs s rest hread
  unfold Reads documentText at hread
  split at hread
  next more =>
    have hmore := Json.leaves_readText more
    split at hread
    next found left hok =>
      cases hread
      exact suffix_of_suffix_tail (List.cons_ne_nil '"' more) (hmore found rest hok)
    · cases hread
  · cases hread

theorem takes_quotedText : Takes 1 quotedText := .or takes_plainText takes_documentText

theorem takes_documentLiteral : Takes 1 documentLiteral := by
  intro cs v rest hread
  unfold Reads documentLiteral at hread
  split at hread
  next hstart =>
    have hmore := Json.leaves_readPrefix cs
    split at hread
    next j left hok =>
      cases hread
      refine suffix_of_suffix_tail ?_ (hmore j rest hok)
      rintro rfl
      cases hstart
    · cases hread
  · cases hread

theorem takes_mantissa : Takes 1 mantissa :=
  have hdigits : Takes 1 (run1 isDigit .number) := takes_run1 _ _
  have hpoint : Takes 1 (char '.') := takes_char '.'
  .or (hdigits.bind_first fun _ => (hpoint.bind_later fun _ => takes_run _).optional.bind_first
      fun _ => takes_pure _)
    (hpoint.bind_first fun _ => hdigits.bind_first fun _ => takes_pure _)

theorem takes_power : Takes 1 power :=
  have hletter : Takes 1 (oneOf [char 'e', char 'E']) := .or (takes_char 'e') (takes_char 'E')
  hletter.bind_first fun _ => takes_sign.bind_first fun _ =>
    (takes_run1 isDigit .number).committed.bind_first fun _ => takes_pure _

theorem takes_float : Takes 1 float :=
  .named (takes_sign.bind_later fun _ => takes_mantissa.bind_first fun _ =>
    takes_power.optional.bind_first fun _ => takes_pure _) .number

theorem takes_numberLiteral : Takes 1 numberLiteral :=
  (takes_ahead _ _).bind_later fun _ => takes_float.bind_first fun _ => takes_pure _

theorem takes_literal : Takes 1 literal := by
  have hword (word : List Char) (hne : 1 ≤ word.length) (v : Value) :
      Takes 1 (do keyword word; return v) :=
    ((takes_keyword word).mono hne).bind_first fun _ => takes_pure v
  refine (takes_char '\x60').optional.bind_later fun _ => ?_
  exact .or (hword _ (by decide) _) (.or (hword _ (by decide) _) (.or (hword _ (by decide) _)
    (.or (takes_plainText.bind_first fun _ => takes_pure _)
      (.or takes_documentLiteral takes_numberLiteral))))

/-! ### Selectors and paths -/

theorem takes_scope : Takes 1 scope :=
  .or ((takes_char '$').bind_first fun _ => takes_scopeIndex.bind_first fun _ => takes_pure _)
    (.or ((takes_char '@').bind_first fun _ => takes_scopeIndex.bind_first fun _ => takes_pure _)
      ((takes_run1 _ _).bind_first fun _ => takes_pure _))

theorem takes_nameList : Takes 1 nameList := takes_quotedText.spaced.commaList

theorem takes_positionList : Takes 1 positionList := takes_integer.spaced.commaList

theorem takes_slice : Takes 1 slice :=
  have hpart : Takes 0 (optional (spaced integer)) := takes_integer.spaced.optional
  have hcolon : Takes 1 (char ':') := takes_char ':'
  hpart.bind_later fun _ => hcolon.bind_first fun _ => hpart.bind_first fun _ =>
    (hcolon.bind_later fun _ => hpart).optional.bind_first fun _ => takes_pure _

/-- What stands between marks takes at least the first mark. -/
theorem Takes.bracketed {p : Parser α} (hp : Takes n p) (opening closing : List Char)
    (hne : 1 ≤ opening.length) (f : α → β) :
    Takes 1 (do return f (← Grammar.between opening p closing)) :=
  ((hp.between opening closing).mono hne).bind_first fun _ => takes_pure _

section

variable {q : Parser Condition} (hq : Takes 0 q)

include hq

theorem takes_filterBody : Takes 1 (filterBody q) :=
  (hq.spaced.between ['[', '?'] [']']).mono (by decide)

theorem takes_deepSelector : Takes 1 (deepSelector q) := by
  refine ((takes_tag ['.', '.']).mono (by decide)).bind_first (k := 1) fun _ => ?_
  exact .or ((takes_char '*').bind_first fun _ => takes_pure _)
    (.or ((takes_filterBody hq).bind_first fun _ => takes_pure _)
      (.or (takes_identifier.bind_first fun _ => takes_pure _)
        (takes_nameList.bracketed ['['] [']'] (by decide) _)))

omit hq in
theorem takes_dotSelector : Takes 1 dotSelector := by
  refine (takes_char '.').bind_first (k := 1) fun _ => ?_
  exact .or ((takes_char '*').bind_first fun _ => takes_pure _)
    (takes_identifier.bind_first fun _ => takes_pure _)

theorem takes_bracketSelector : Takes 1 (bracketSelector q) := by
  have hstars (word : List Char) (hne : 1 ≤ word.length) (s : Selector) :
      Takes 1 (do tag word; return s) :=
    ((takes_tag word).mono hne).bind_first fun _ => takes_pure s
  exact .or (hq.spaced.bracketed _ _ (by decide) _)
    (.or (takes_nameList.bracketed _ _ (by decide) _)
      (.or (hstars _ (by decide) _)
        (.or (hstars _ (by decide) _)
          (.or ((takes_filterBody hq).bind_first fun _ => takes_pure _)
            (.or (takes_nameList.bracketed _ _ (by decide) _)
              (.or ((takes_slice.between ['['] [']']).mono (by decide))
                (takes_positionList.bracketed _ _ (by decide) _)))))))

theorem takes_selector : Takes 1 (selector q) :=
  .or (takes_deepSelector hq) (.or takes_dotSelector (takes_bracketSelector hq))

theorem takes_path : Takes 1 (path q) :=
  takes_scope.bind_first fun _ => (takes_selector hq).many.bind_first fun _ => takes_pure _

theorem takes_dotPath : Takes 1 (dotPath q) :=
  (takes_ahead _ _).bind_later fun _ => (takes_selector hq).many1.bind_first fun _ => takes_pure _

theorem takes_operandPath : Takes 1 (operandPath q) := .or (takes_path hq) (takes_dotPath hq)

theorem takes_operand : Takes 1 (operand q) :=
  .or (takes_quantifier.bind_first fun _ => (takes_run1 _ _).bind_first fun _ =>
      (takes_operandPath hq).bind_first fun _ => takes_pure _)
    (.or ((takes_operandPath hq).bind_first fun _ => takes_pure _)
      (takes_literal.bind_first fun _ => takes_pure _))

theorem takes_predicate : Takes 1 (predicate q) := by
  have hright := (takes_spaces.bind_later fun _ => takes_operand hq).optional
  refine (takes_operand hq).bind_first fun _ => takes_spaces.bind_first fun _ =>
    takes_operatorName.bind_first fun _ => hright.bind_first (k := 0) fun right? => ?_
  cases right? <;> exact takes_pure _

end

/-! ### Conditions -/

section

variable {a : Parser Condition} (ha : Takes n a)

include ha

theorem takes_conjunction : Takes n (conjunction a) := by
  refine ha.bind_first (k := 0) fun _ => ?_
  exact ((takes_keyword _).spaced.bind_later fun _ => ha).many.bind_first fun _ => takes_pure _

theorem takes_disjunction : Takes n (disjunction a) := by
  refine (takes_conjunction ha).bind_first (k := 0) fun _ => ?_
  exact ((takes_keyword _).spaced.bind_later fun _ => takes_conjunction ha).many.bind_first
    fun _ => takes_pure _

end

/-- One level of nesting: an atom whose own atoms are read by `a`. -/
def atomStep (a : Parser Condition) : Parser Condition :=
  spaced (oneOf [
    do
      keyword ['n', 'o', 't']
      spaces
      let c ← a
      return c.negated,
    between ['('] (spaced (disjunction a)) [')'],
    predicate (disjunction a)])

theorem atom_succ (depth : Nat) : (atom (depth + 1) : Parser Condition) = atomStep (atom depth) :=
  rfl

theorem takes_atomStep {a : Parser Condition} (ha : Takes 0 a) : Takes 1 (atomStep a) := by
  refine Takes.spaced (.or ?negation (.or ?group (takes_predicate (takes_disjunction ha))))
  case negation =>
    exact ((takes_keyword _).mono (by decide)).bind_first fun _ => takes_spaces.bind_first fun _ =>
      ha.bind_first fun _ => takes_pure _
  case group => exact (takes_disjunction ha).spaced.between _ _

theorem takes_atom (depth : Nat) : Takes 1 (atom depth : Parser Condition) := by
  induction depth with
  | zero => exact takes_fail .operand 1
  | succ depth ih => exact takes_atomStep ih.zero

theorem takes_condition : Takes 1 condition := by
  intro cs c rest hread
  have hcondition : condition cs = conditionAt (cs.length + 1) cs := rfl
  rw [Reads, hcondition, conditionAt] at hread
  exact takes_disjunction (takes_atom _) cs c rest hread

end TreeQuery.Grammar
