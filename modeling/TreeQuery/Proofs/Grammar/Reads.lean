import TreeQuery.Grammar.Parser

/-! What a parser does at a place in a text: it reads something and leaves the rest, or it gives
way to the next alternative. Each combinator has its rules, from which the rules of the grammar are
put together. A parser that is stopped by what follows a text reads the text alone as it reads the
text in front of what follows. -/

namespace TreeQuery.Grammar

variable {α β : Type}

/-- `p` reads `a` from the front of `cs` and leaves `rest`. -/
def Reads (p : Parser α) (cs : List Char) (a : α) (rest : List Char) : Prop :=
  p cs = .ok (a, rest)

/-- `p` gives way at `cs`: it fails, and the failure is not committed. -/
def Refuses (p : Parser α) (cs : List Char) : Prop :=
  ∃ f, p cs = .error f ∧ f.committed = false

theorem Reads.not_refuses {p : Parser α} {cs rest : List Char} {a : α} (h : Reads p cs a rest) :
    ¬ Refuses p cs := by
  rintro ⟨f, hf, -⟩
  rw [h] at hf
  cases hf

/-! ### Sequences -/

theorem reads_pure (a : α) (cs : List Char) : Reads (pure a) cs a cs := rfl

theorem reads_bind_iff {p : Parser α} {f : α → Parser β} {cs rest : List Char} {b : β} :
    Reads (p >>= f) cs b rest ↔ ∃ a mid, Reads p cs a mid ∧ Reads (f a) mid b rest := by
  change (p cs >>= fun x => f x.1 x.2) = _ ↔ _
  unfold Reads
  cases p cs with
  | error e => simp [Bind.bind, Except.bind]
  | ok x =>
    obtain ⟨a, mid⟩ := x
    simp [Bind.bind, Except.bind, and_assoc]

theorem Reads.bind {p : Parser α} {f : α → Parser β} {cs mid rest : List Char} {a : α} {b : β}
    (hp : Reads p cs a mid) (hf : Reads (f a) mid b rest) : Reads (p >>= f) cs b rest :=
  reads_bind_iff.mpr ⟨a, mid, hp, hf⟩

theorem refuses_bind_iff {p : Parser α} {f : α → Parser β} {cs : List Char} :
    Refuses (p >>= f) cs ↔ Refuses p cs ∨ ∃ a mid, Reads p cs a mid ∧ Refuses (f a) mid := by
  change (∃ e, (p cs >>= fun x => f x.1 x.2) = _ ∧ _) ↔ _
  unfold Reads Refuses
  cases p cs with
  | error e => simp [Bind.bind, Except.bind]
  | ok x =>
    obtain ⟨a, mid⟩ := x
    simp [Bind.bind, Except.bind, and_assoc]

theorem Refuses.bind {p : Parser α} (f : α → Parser β) {cs : List Char} (hp : Refuses p cs) :
    Refuses (p >>= f) cs :=
  refuses_bind_iff.mpr (.inl hp)

theorem Reads.bind_refuses {p : Parser α} {f : α → Parser β} {cs mid : List Char} {a : α}
    (hp : Reads p cs a mid) (hf : Refuses (f a) mid) : Refuses (p >>= f) cs :=
  refuses_bind_iff.mpr (.inr ⟨a, mid, hp, hf⟩)

/-! ### Alternatives -/

theorem reads_orElse_iff {p q : Parser α} {cs rest : List Char} {a : α} :
    Reads (orElse p q) cs a rest ↔ Reads p cs a rest ∨ Refuses p cs ∧ Reads q cs a rest := by
  unfold Reads Refuses orElse
  cases h : p cs with
  | error e => cases hc : e.committed <;> simp [hc]
  | ok x => simp

theorem refuses_orElse_iff {p q : Parser α} {cs : List Char} :
    Refuses (orElse p q) cs ↔ Refuses p cs ∧ Refuses q cs := by
  unfold Refuses orElse
  cases h : p cs with
  | error e => cases hc : e.committed <;> simp [hc]
  | ok x => simp

theorem Reads.first {p : Parser α} {ps : List (Parser α)} {cs rest : List Char} {a : α}
    (hp : Reads p cs a rest) : Reads (oneOf (p :: ps)) cs a rest := by
  cases ps with
  | nil => exact hp
  | cons q ps => exact reads_orElse_iff.mpr (.inl hp)

theorem Reads.later {p q : Parser α} {ps : List (Parser α)} {cs rest : List Char} {a : α}
    (hp : Refuses p cs) (hq : Reads (oneOf (q :: ps)) cs a rest) :
    Reads (oneOf (p :: q :: ps)) cs a rest :=
  reads_orElse_iff.mpr (.inr ⟨hp, hq⟩)

/-- An alternative that gives way makes no difference to what the others do. -/
theorem Refuses.oneOf_eq {p q : Parser α} {ps : List (Parser α)} {cs : List Char}
    (hp : Refuses p cs) : oneOf (p :: q :: ps) cs = oneOf (q :: ps) cs := by
  obtain ⟨f, hf, hc⟩ := hp
  change orElse p (oneOf (q :: ps)) cs = _
  simp [orElse, hf, hc]

theorem Refuses.or {p q : Parser α} {ps : List (Parser α)} {cs : List Char} (hp : Refuses p cs)
    (hq : Refuses (oneOf (q :: ps)) cs) : Refuses (oneOf (p :: q :: ps)) cs :=
  refuses_orElse_iff.mpr ⟨hp, hq⟩

theorem reads_optional_iff {p : Parser α} {cs rest : List Char} {a? : Option α} :
    Reads (Grammar.optional p) cs a? rest ↔
      (∃ a, a? = some a ∧ Reads p cs a rest) ∨ a? = none ∧ rest = cs ∧ Refuses p cs := by
  unfold Reads Refuses Grammar.optional
  cases p cs with
  | error e => cases hc : e.committed <;> simp [hc, @eq_comm _ none, @eq_comm _ cs]
  | ok x =>
    obtain ⟨a, mid⟩ := x
    constructor
    · intro h
      cases h
      exact .inl ⟨a, rfl, rfl⟩
    · rintro (⟨b, rfl, h⟩ | ⟨-, -, f, hf, -⟩)
      · cases h
        rfl
      · cases hf

theorem Reads.optional {p : Parser α} {cs rest : List Char} {a : α} (hp : Reads p cs a rest) :
    Reads (Grammar.optional p) cs (some a) rest :=
  reads_optional_iff.mpr (.inl ⟨a, rfl, hp⟩)

theorem Refuses.optional {p : Parser α} {cs : List Char} (hp : Refuses p cs) :
    Reads (Grammar.optional p) cs none cs :=
  reads_optional_iff.mpr (.inr ⟨rfl, rfl, hp⟩)

/-! ### Repetition -/

theorem Refuses.many {p : Parser α} {cs : List Char} (hp : Refuses p cs) :
    Reads (many p) cs [] cs := by
  obtain ⟨f, hf, hc⟩ := hp
  unfold Reads
  rw [Grammar.many, hf]
  simp [hc]

theorem Reads.many {p : Parser α} {cs mid rest : List Char} {a : α} {as : List α}
    (hp : Reads p cs a mid) (hlt : mid.length < cs.length) (has : Reads (many p) mid as rest) :
    Reads (Grammar.many p) cs (a :: as) rest := by
  unfold Reads at *
  rw [Grammar.many, hp]
  simp [hlt, has]

/-- Repetition reads what the first round reads and then what further rounds read, up to a place at
which no round is possible. -/
theorem reads_many_iff {p : Parser α} {cs rest : List Char} {as : List α} :
    Reads (Grammar.many p) cs as rest ↔ as = [] ∧ rest = cs ∧ Refuses p cs ∨
      ∃ a more mid, as = a :: more ∧ Reads p cs a mid ∧ mid.length < cs.length ∧
        Reads (Grammar.many p) mid more rest := by
  constructor
  · intro hread
    rw [Reads, Grammar.many] at hread
    cases hfirst : p cs with
    | error f =>
      rw [hfirst] at hread
      cases hcommitted : f.committed with
      | true => simp [hcommitted] at hread
      | false =>
        simp only [hcommitted, Bool.false_eq_true, if_false, Except.ok.injEq,
          Prod.mk.injEq] at hread
        exact .inl ⟨hread.1.symm, hread.2.symm, f, hfirst, hcommitted⟩
    | ok x =>
      obtain ⟨a, mid⟩ := x
      rw [hfirst] at hread
      by_cases hlt : mid.length < cs.length
      · cases hmore : Grammar.many p mid with
        | error f => simp [hlt, hmore] at hread
        | ok y =>
          simp only [hlt, hmore, if_true, Except.ok.injEq, Prod.mk.injEq] at hread
          exact .inr ⟨a, y.1, mid, hread.1.symm, hfirst, hlt, by rw [Reads, hmore, ← hread.2]⟩
      · simp [hlt] at hread
  · rintro (⟨rfl, rfl, hrefuses⟩ | ⟨a, more, mid, rfl, hfirst, hlt, hmore⟩)
    · exact hrefuses.many
    · exact hfirst.many hlt hmore

/-! ### Characters -/

/-- The text does not start with a character that satisfies `p`. -/
def Clear (p : Char → Bool) (cs : List Char) : Prop := cs.head?.any p = false

@[simp] theorem clear_nil (p : Char → Bool) : Clear p [] := rfl

@[simp] theorem clear_cons {p : Char → Bool} {c : Char} {cs : List Char} :
    Clear p (c :: cs) ↔ p c = false := .rfl

theorem Clear.mono {p q : Char → Bool} {cs : List Char} (h : Clear p cs)
    (hpq : ∀ c, q c = true → p c = true) : Clear q cs := by
  cases cs with
  | nil => exact clear_nil q
  | cons c cs =>
    rw [clear_cons, Bool.eq_false_iff] at h ⊢
    exact fun hq => h (hpq c hq)

/-- A character of which `p` holds is none of which it does not. -/
theorem ne_of_holds {p : Char → Bool} {c d : Char} (hc : p c = true) (hd : p d = false) :
    c ≠ d := by
  rintro rfl
  rw [hc] at hd
  cases hd

/-- The text starts with one of these characters. -/
def StartsIn (marks : List Char) (cs : List Char) : Prop := ∃ c ∈ marks, ∃ more, cs = c :: more

theorem StartsIn.mono {marks marks' : List Char} {cs : List Char} (h : StartsIn marks cs)
    (hsubset : marks ⊆ marks') : StartsIn marks' cs := by
  obtain ⟨c, hc, hmore⟩ := h
  exact ⟨c, hsubset hc, hmore⟩

theorem StartsIn.append {marks : List Char} {cs : List Char} (h : StartsIn marks cs)
    (rest : List Char) : StartsIn marks (cs ++ rest) := by
  obtain ⟨c, hc, more, rfl⟩ := h
  exact ⟨c, hc, more ++ rest, rfl⟩

theorem StartsIn.clear {marks : List Char} {p : Char → Bool} {cs : List Char}
    (h : StartsIn marks cs) (hp : marks.any p = false) (rest : List Char) :
    Clear p (cs ++ rest) := by
  obtain ⟨c, hc, more, rfl⟩ := h
  exact clear_cons.mpr (Bool.eq_false_iff.mpr (List.any_eq_false.mp hp c hc))

/-- The text is empty or starts with one of these characters. -/
def EndsIn (marks : List Char) (cs : List Char) : Prop := ∀ c ∈ cs.head?, c ∈ marks

theorem endsIn_nil (marks : List Char) : EndsIn marks [] := by simp [EndsIn]

theorem endsIn_cons {marks : List Char} {c : Char} (hc : c ∈ marks) (cs : List Char) :
    EndsIn marks (c :: cs) := by simpa [EndsIn] using hc

theorem EndsIn.mono {marks marks' : List Char} {cs : List Char} (h : EndsIn marks cs)
    (hsubset : marks ⊆ marks') : EndsIn marks' cs :=
  fun c hc => hsubset (h c hc)

theorem EndsIn.clear {marks : List Char} {p : Char → Bool} {cs : List Char}
    (h : EndsIn marks cs) (hp : marks.any p = false) : Clear p cs := by
  cases cs with
  | nil => exact clear_nil p
  | cons c cs =>
    exact clear_cons.mpr (Bool.eq_false_iff.mpr (List.any_eq_false.mp hp c (h c rfl)))

theorem takeWhile_of_clear {p : Char → Bool} {cs : List Char} (h : Clear p cs) :
    cs.takeWhile p = [] ∧ cs.dropWhile p = cs := by
  cases cs with
  | nil => simp
  | cons c cs =>
    have hc : p c = false := h
    simp [hc]

/-- A run ends where the text does, if what follows cannot continue it. -/
theorem takeWhile_append_of_clear {p : Char → Bool} {rest : List Char} (h : Clear p rest)
    (cs : List Char) : (cs ++ rest).takeWhile p = cs.takeWhile p ∧
      (cs ++ rest).dropWhile p = cs.dropWhile p ++ rest := by
  induction cs with
  | nil => simpa using takeWhile_of_clear h
  | cons c cs ih =>
    by_cases hc : p c = true
    · simpa [hc] using ih
    · simp [hc]

theorem reads_char (c : Char) (rest : List Char) : Reads (char c) (c :: rest) () rest := by
  simp [Reads, char]

theorem refuses_char {c : Char} {cs : List Char} (h : Clear (· == c) cs) :
    Refuses (char c) cs := by
  cases cs with
  | nil => exact ⟨_, rfl, rfl⟩
  | cons d cs =>
    have hd : (d == c) = false := h
    refine ⟨⟨d :: cs, .mark, false⟩, ?_, rfl⟩
    simp only [char, if_neg (by simpa using hd)]

theorem reads_tag (word rest : List Char) : Reads (tag word) (word ++ rest) () rest := by
  simp [Reads, tag]

theorem refuses_tag {word cs : List Char} (h : word.isPrefixOf cs = false) :
    Refuses (tag word) cs := by
  refine ⟨⟨cs, .mark, false⟩, ?_, rfl⟩
  simp [tag, h]

/-- A word that starts otherwise than the text is not in front of it. -/
theorem refuses_tag_of_clear {c : Char} {cs : List Char} (h : Clear (· == c) cs)
    (word : List Char) : Refuses (tag (c :: word)) cs := by
  refine refuses_tag ?_
  cases cs with
  | nil => rfl
  | cons d cs =>
    have hd : (d == c) = false := h
    simp [List.isPrefixOf, Ne.symm (beq_eq_false_iff_ne.mp hd)]

theorem reads_run {p : Char → Bool} {cs rest : List Char} (hcs : ∀ c ∈ cs, p c = true)
    (h : Clear p rest) : Reads (run p) (cs ++ rest) cs rest := by
  obtain ⟨ht, hd⟩ := takeWhile_of_clear h
  simp only [Reads, run, List.takeWhile_append_of_pos hcs, List.dropWhile_append_of_pos hcs, ht,
    hd, List.append_nil]

theorem reads_run1 {p : Char → Bool} {cs rest : List Char} (cause : Cause) (hne : cs ≠ [])
    (hcs : ∀ c ∈ cs, p c = true) (h : Clear p rest) :
    Reads (run1 p cause) (cs ++ rest) cs rest := by
  obtain ⟨ht, hd⟩ := takeWhile_of_clear h
  cases cs with
  | nil => exact absurd rfl hne
  | cons c cs =>
    simp only [Reads, run1, List.takeWhile_append_of_pos hcs, List.dropWhile_append_of_pos hcs,
      ht, hd, List.append_nil]

theorem refuses_run1 {p : Char → Bool} {cs : List Char} (cause : Cause) (h : Clear p cs) :
    Refuses (run1 p cause) cs := by
  refine ⟨⟨cs, cause, false⟩, ?_, rfl⟩
  simp only [run1, (takeWhile_of_clear h).1]

theorem reads_ahead {p : Char → Bool} {cs : List Char} (cause : Cause)
    (h : cs.head?.any p = true) : Reads (ahead p cause) cs () cs := by
  simp [Reads, ahead, h]

theorem refuses_ahead {p : Char → Bool} {cs : List Char} (cause : Cause) (h : Clear p cs) :
    Refuses (ahead p cause) cs := by
  refine ⟨⟨cs, cause, false⟩, ?_, rfl⟩
  simp only [ahead, show cs.head?.any p = false from h, Bool.false_eq_true, if_false]

theorem reads_notAhead {p : Char → Bool} {cs : List Char} (h : Clear p cs) :
    Reads (notAhead p) cs () cs := by
  simp only [Reads, notAhead, show cs.head?.any p = false from h, Bool.false_eq_true, if_false]

/-! ### Blanks -/

theorem clear_dropWhile (p : Char → Bool) (cs : List Char) : Clear p (cs.dropWhile p) := by
  induction cs with
  | nil => exact clear_nil p
  | cons c cs ih => cases hc : p c <;> simp [hc, ih]

/-- A text is clear of blanks if `p` holds of its first character and of no blank. -/
theorem clear_isSpace_of_holds {p : Char → Bool} {c : Char} (hc : p c = true)
    (hp : [' ', '\t', '\r', '\n'].any p = false) (cs : List Char) :
    Clear isSpace (c :: cs) := by
  simp only [List.any_cons, Bool.or_eq_false_iff] at hp
  obtain ⟨hblank, htab, hreturn, hline, -⟩ := hp
  simp only [clear_cons, isSpace, Bool.or_eq_false_iff, beq_eq_false_iff_ne]
  exact ⟨⟨⟨ne_of_holds hc hblank, ne_of_holds hc htab⟩, ne_of_holds hc hreturn⟩,
    ne_of_holds hc hline⟩

/-- Blanks in front of a text change what it starts with only if they count themselves. -/
theorem clear_of_dropWhile {p : Char → Bool} {cs : List Char}
    (h : Clear p (cs.dropWhile isSpace)) (hp : [' ', '\t', '\r', '\n'].any p = false) :
    Clear p cs := by
  cases cs with
  | nil => exact clear_nil p
  | cons c cs =>
    by_cases hc : isSpace c = true
    · have hmem : c ∈ [' ', '\t', '\r', '\n'] := by simpa [isSpace, or_assoc] using hc
      exact clear_cons.mpr (Bool.eq_false_iff.mpr (List.any_eq_false.mp hp c hmem))
    · rwa [List.dropWhile_cons_of_neg hc] at h

theorem reads_spaces (cs : List Char) : Reads spaces cs () (cs.dropWhile isSpace) := rfl

theorem reads_spaces_blank {cs : List Char} (h : Clear isSpace cs) :
    Reads spaces (' ' :: cs) () cs := by
  have hs := reads_spaces (' ' :: cs)
  rwa [show (' ' :: cs).dropWhile isSpace = cs.dropWhile isSpace from rfl,
    (takeWhile_of_clear h).2] at hs

/-- Blanks around are passed over; those after may be left to the caller to compute. -/
theorem Reads.spaced {p : Parser α} {cs mid rest : List Char} {a : α}
    (hp : Reads p (cs.dropWhile isSpace) a mid) (hrest : mid.dropWhile isSpace = rest) :
    Reads (spaced p) cs a rest :=
  (reads_spaces cs).bind (hp.bind ((hrest ▸ reads_spaces mid).bind (reads_pure a rest)))

/-- Where there are no blanks around, they make no difference. -/
theorem Reads.spaced_of_clear {p : Parser α} {cs rest : List Char} {a : α} (hp : Reads p cs a rest)
    (hcs : Clear isSpace cs) (hrest : Clear isSpace rest) : Reads (Grammar.spaced p) cs a rest := by
  refine Reads.spaced ?_ (takeWhile_of_clear hrest).2
  rwa [(takeWhile_of_clear hcs).2]

/-- Blanks in front of something are passed over with those before it. -/
theorem spaced_blank (p : Parser α) (cs : List Char) : spaced p (' ' :: cs) = spaced p cs := rfl

theorem Refuses.spaced {p : Parser α} {cs : List Char} (hp : Refuses p (cs.dropWhile isSpace)) :
    Refuses (Grammar.spaced p) cs :=
  (reads_spaces cs).bind_refuses (hp.bind _)

theorem Reads.between {opening closing : List Char} {p : Parser α} {cs rest : List Char} {a : α}
    (hp : Reads p cs a (closing ++ rest)) :
    Reads (between opening p closing) (opening ++ cs) a rest :=
  (reads_tag opening cs).bind (hp.bind ((reads_tag closing rest).bind (reads_pure a rest)))

theorem refuses_between {opening : List Char} (closing : List Char) (p : Parser α)
    {cs : List Char} (h : opening.isPrefixOf cs = false) :
    Refuses (between opening p closing) cs :=
  (refuses_tag h).bind _

end TreeQuery.Grammar
