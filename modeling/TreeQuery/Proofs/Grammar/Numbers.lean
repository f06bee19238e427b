import TreeQuery.Grammar.Literal
import TreeQuery.Proofs.Grammar.Words

/-! Numbers in front of something else. Both readers of numbers, that of documents and that of
literals, read a number the same whether the text ends behind it or goes on with a character that
cannot continue it. So what a written number is read as when it stands alone, which is a matter of
rounding, it is read as wherever it is written. -/

namespace TreeQuery

namespace Grammar

/-- The characters that a number can go on with. -/
def isNumberPart (c : Char) : Bool :=
  isDigit c || c == '.' || c == 'e' || c == 'E' || c == '-' || c == '+'

variable {α β : Type}

/-- What follows does not change what `p` does: it stops where the text alone would have ended. -/
def Stopped (p : Parser α) (rest : List Char) : Prop :=
  ∀ cs, (∀ a left, Reads p cs a left → Reads p (cs ++ rest) a (left ++ rest)) ∧
    (Refuses p cs → Refuses p (cs ++ rest))

theorem stopped_pure (a : α) (rest : List Char) : Stopped (pure a) rest := by
  intro cs
  refine ⟨fun b left h => ?_, fun ⟨_, h, _⟩ => (nomatch h)⟩
  cases h
  exact reads_pure a _

theorem Stopped.bind {p : Parser α} {f : α → Parser β} {rest : List Char} (hp : Stopped p rest)
    (hf : ∀ a, Stopped (f a) rest) : Stopped (p >>= f) rest := by
  intro cs
  constructor
  · intro b left h
    obtain ⟨a, mid, ha, hb⟩ := reads_bind_iff.mp h
    exact ((hp cs).1 a mid ha).bind ((hf a mid).1 b left hb)
  · intro h
    rcases refuses_bind_iff.mp h with h | ⟨a, mid, ha, hb⟩
    · exact ((hp cs).2 h).bind f
    · exact ((hp cs).1 a mid ha).bind_refuses ((hf a mid).2 hb)

theorem Stopped.or {p q : Parser α} {ps : List (Parser α)} {rest : List Char}
    (hp : Stopped p rest) (hq : Stopped (oneOf (q :: ps)) rest) :
    Stopped (oneOf (p :: q :: ps)) rest := by
  intro cs
  constructor
  · intro a left ha
    rcases reads_orElse_iff.mp ha with ha | ⟨hr, ha⟩
    · exact .first ((hp cs).1 a left ha)
    · exact .later ((hp cs).2 hr) ((hq cs).1 a left ha)
  · intro hr
    obtain ⟨hr, hr'⟩ := refuses_orElse_iff.mp hr
    exact .or ((hp cs).2 hr) ((hq cs).2 hr')

theorem Stopped.optional {p : Parser α} {rest : List Char} (hp : Stopped p rest) :
    Stopped (Grammar.optional p) rest := by
  intro cs
  obtain ⟨hreads, hrefuses⟩ := hp cs
  unfold Reads Refuses at *
  unfold Grammar.optional
  cases hcs : p cs with
  | ok x =>
    obtain ⟨a, left⟩ := x
    simp only [hreads a left hcs]
    simp
  | error f =>
    cases hf : f.committed with
    | true => simp [hf]
    | false =>
      obtain ⟨g, hg, hc⟩ := hrefuses ⟨f, hcs, hf⟩
      simp [hf, hg, hc]

theorem stopped_char {c : Char} {rest : List Char} (h : Clear (· == c) rest) :
    Stopped (char c) rest := by
  intro cs
  cases cs with
  | nil => exact ⟨fun a left h => (nomatch h), fun _ => refuses_char h⟩
  | cons d cs =>
    simp only [Reads, Refuses, char, List.cons_append]
    by_cases hd : d = c
    · simp [hd]
    · simp [hd]

theorem stopped_run {p : Char → Bool} {rest : List Char} (h : Clear p rest) :
    Stopped (run p) rest := by
  intro cs
  obtain ⟨ht, hd⟩ := takeWhile_append_of_clear h cs
  simp only [Reads, Refuses, run, ht, hd]
  simp

theorem stopped_run1 {p : Char → Bool} {cause : Cause} {rest : List Char} (h : Clear p rest) :
    Stopped (run1 p cause) rest := by
  intro cs
  obtain ⟨ht, hd⟩ := takeWhile_append_of_clear h cs
  simp only [Reads, Refuses, run1, ht, hd]
  cases cs.takeWhile p <;> simp

theorem Stopped.committed {p : Parser α} {rest : List Char} (hp : Stopped p rest) :
    Stopped (Grammar.committed p) rest := by
  intro cs
  obtain ⟨hreads, -⟩ := hp cs
  unfold Reads Refuses at *
  unfold Grammar.committed
  cases hcs : p cs with
  | ok x =>
    obtain ⟨a, left⟩ := x
    simp only [hreads a left hcs]
    simp
  | error f => simp

theorem Stopped.named {cause : Cause} {p : Parser α} {rest : List Char} (hp : Stopped p rest) :
    Stopped (Grammar.named cause p) rest := by
  intro cs
  obtain ⟨hreads, hrefuses⟩ := hp cs
  unfold Reads Refuses at *
  unfold Grammar.named
  cases hcs : p cs with
  | ok x =>
    obtain ⟨a, left⟩ := x
    simp only [hreads a left hcs]
    simp
  | error f =>
    refine ⟨by simp, fun ⟨g, hg, hc⟩ => ?_⟩
    obtain ⟨g, hg, hc⟩ := hrefuses ⟨f, hcs, by cases hg; exact hc⟩
    simp [hg, hc]

theorem stopped_float {rest : List Char} (h : Clear isNumberPart rest) : Stopped float rest := by
  have hdigit : Clear isDigit rest := h.mono fun c hc => by simp [isNumberPart, hc]
  have hmark : ∀ c, isNumberPart c = true → Stopped (char c) rest := fun c hc =>
    stopped_char (h.mono fun d hd => by rwa [beq_iff_eq.mp hd])
  have hsign : Stopped sign rest :=
    .or ((hmark '-' rfl).bind fun _ => stopped_pure _ _)
      (.or ((hmark '+' rfl).bind fun _ => stopped_pure _ _) (stopped_pure _ _))
  have hdot {p : Parser (List Char)} (hp : Stopped p rest) :
      Stopped (do char '.'; p) rest := (hmark '.' rfl).bind fun _ => hp
  have hmantissa : Stopped mantissa rest :=
    .or ((stopped_run1 hdigit).bind fun _ => (hdot (stopped_run hdigit)).optional.bind fun _ =>
        stopped_pure _ _)
      ((hmark '.' rfl).bind fun _ => (stopped_run1 hdigit).bind fun _ => stopped_pure _ _)
  have hletter : Stopped (oneOf [char 'e', char 'E']) rest := .or (hmark 'e' rfl) (hmark 'E' rfl)
  have hpower : Stopped power rest :=
    hletter.bind fun _ => hsign.bind fun _ => (stopped_run1 hdigit).committed.bind
      fun _ => stopped_pure _ _
  exact .named (hsign.bind fun _ => hmantissa.bind fun _ => hpower.optional.bind fun _ =>
    stopped_pure _ _)

end Grammar

/-! ### Numbers of documents -/

namespace Json

open Grammar (Clear clear_cons isNumberPart takeWhile_append_of_clear)

/-- A numeral behind its sign. -/
def Numeral.unsigned (negative : Bool) (cs : List Char) : Except Fault (Numeral × List Char) := do
  let (whole, cs) ← wholePart cs
  let (fraction, cs) ← fractionPart cs
  let (exponent, cs) ← exponentPart cs
  return (⟨negative, whole, fraction, exponent⟩, cs)

theorem numeral_minus (cs : List Char) : numeral ('-' :: cs) = Numeral.unsigned true cs := rfl

theorem numeral_of_ne {c : Char} (hc : c ≠ '-') (cs : List Char) :
    numeral (c :: cs) = Numeral.unsigned false (c :: cs) := by
  simp [numeral, Numeral.unsigned, hc]

/-- What follows the letter of an exponent: a sign or not, and digits. -/
theorem exponentPart_cons {c : Char} (hc : (c == 'e' || c == 'E') = true) (d : Char)
    (cs : List Char) : exponentPart (c :: d :: cs) =
      (digits1 (if d == '+' || d == '-' then cs else d :: cs)).map fun x =>
        (some (d == '-', x.1), x.2) := by
  simp only [exponentPart, hc, if_true]
  by_cases hplus : d = '+'
  · subst hplus
    rfl
  · by_cases hminus : d = '-'
    · subst hminus
      rfl
    · simp [hplus, hminus, beq_eq_false_iff_ne.mpr hminus]

theorem exponentPart_of_ne {c : Char} (hc : (c == 'e' || c == 'E') = false) (cs : List Char) :
    exponentPart (c :: cs) = .ok (none, c :: cs) := by
  simp [exponentPart, hc]

variable {rest : List Char} (hrest : Clear isNumberPart rest)

include hrest

theorem clear_isDigit : Clear isDigit rest :=
  hrest.mono fun c hc => by simp [isNumberPart, Grammar.isDigit, hc]

theorem digits1_append {cs ds left : List Char} (h : digits1 cs = .ok (ds, left)) :
    digits1 (cs ++ rest) = .ok (ds, left ++ rest) := by
  obtain ⟨ht, hd⟩ := takeWhile_append_of_clear (clear_isDigit hrest) cs
  unfold digits1 at *
  rw [ht, hd]
  cases hcs : cs.takeWhile isDigit with
  | nil => simp [hcs] at h
  | cons c ds => simp_all

theorem map_digits1_append {β : Type} {f : List Char → β} {b : β} {cs left : List Char}
    (h : (digits1 cs).map (fun x => (f x.1, x.2)) = .ok (b, left)) :
    (digits1 (cs ++ rest)).map (fun x => (f x.1, x.2)) = .ok (b, left ++ rest) := by
  cases hds : digits1 cs with
  | error e => simp [hds, Except.map] at h
  | ok x =>
    obtain ⟨ds, left'⟩ := x
    rw [hds] at h
    cases h
    rw [digits1_append hrest hds]
    rfl

theorem wholePart_append {cs ds left : List Char} (h : wholePart cs = .ok (ds, left)) :
    wholePart (cs ++ rest) = .ok (ds, left ++ rest) := by
  unfold wholePart at h
  split at h
  · next r =>
    have hhead : (r ++ rest).head?.any isDigit = r.head?.any isDigit := by
      cases r with
      | nil => exact clear_isDigit hrest
      | cons c r => rfl
    rw [List.cons_append, wholePart, hhead]
    split at h
    · cases h
    · next hd =>
      cases h
      rw [if_neg hd]
  · next hzero =>
    have hne : cs ≠ [] := by
      rintro rfl
      cases h
    obtain ⟨c, r, rfl⟩ := List.exists_cons_of_ne_nil hne
    have hc : c ≠ '0' := fun hc => hzero r (by rw [hc])
    rw [List.cons_append, wholePart, ← List.cons_append]
    · exact digits1_append hrest h
    · intro r' hr'
      cases hr'
      exact hc rfl

theorem fractionPart_append {cs left : List Char} {ds : Option (List Char)}
    (h : fractionPart cs = .ok (ds, left)) :
    fractionPart (cs ++ rest) = .ok (ds, left ++ rest) := by
  have hnone : ∀ c r, c ≠ '.' → fractionPart (c :: r) = .ok (none, c :: r) := by
    intro c r hc
    rw [fractionPart]
    rintro r' hr'
    cases hr'
    exact hc rfl
  cases cs with
  | nil =>
    cases h
    cases rest with
    | nil => rfl
    | cons c r => exact hnone c r fun hc => by simp [hc, isNumberPart] at hrest
  | cons c r =>
    by_cases hc : c = '.'
    · subst hc
      rw [fractionPart] at h
      exact map_digits1_append hrest h
    · rw [hnone c r hc] at h
      cases h
      exact hnone c (r ++ rest) hc

theorem exponentPart_append {cs left : List Char} {e : Option (Bool × List Char)}
    (h : exponentPart cs = .ok (e, left)) :
    exponentPart (cs ++ rest) = .ok (e, left ++ rest) := by
  cases cs with
  | nil =>
    cases h
    cases rest with
    | nil => rfl
    | cons c r =>
      refine exponentPart_of_ne ?_ r
      simp only [clear_cons, isNumberPart] at hrest
      grind
  | cons c r =>
    cases hc : c == 'e' || c == 'E' with
    | false =>
      rw [exponentPart_of_ne hc] at h
      cases h
      exact exponentPart_of_ne hc (r ++ rest)
    | true =>
      cases r with
      | nil =>
        simp only [exponentPart, hc, if_true] at h
        cases h
      | cons d r =>
        rw [exponentPart_cons hc] at h
        rw [List.cons_append, List.cons_append, exponentPart_cons hc]
        split at h
        · next hs =>
          rw [if_pos hs]
          exact map_digits1_append hrest (f := fun ds => some (d == '-', ds)) h
        · next hs =>
          rw [if_neg hs]
          exact map_digits1_append hrest (f := fun ds => some (d == '-', ds)) h

theorem unsigned_append {negative : Bool} {cs left : List Char} {n : Numeral}
    (h : Numeral.unsigned negative cs = .ok (n, left)) :
    Numeral.unsigned negative (cs ++ rest) = .ok (n, left ++ rest) := by
  unfold Numeral.unsigned at *
  simp only [bind, Except.bind] at h ⊢
  cases hw : wholePart cs with
  | error f => simp [hw] at h
  | ok whole =>
    rw [hw] at h
    rw [wholePart_append hrest hw]
    simp only at h ⊢
    cases hf : fractionPart whole.2 with
    | error f => simp [hf] at h
    | ok fraction =>
      rw [hf] at h
      rw [fractionPart_append hrest hf]
      simp only at h ⊢
      cases he : exponentPart fraction.2 with
      | error f => simp [he] at h
      | ok exponent =>
        rw [he] at h
        rw [exponentPart_append hrest he]
        cases h
        rfl

theorem numeral_append {cs left : List Char} {n : Numeral} (h : numeral cs = .ok (n, left)) :
    numeral (cs ++ rest) = .ok (n, left ++ rest) := by
  cases cs with
  | nil => cases h
  | cons c r =>
    by_cases hc : c = '-'
    · subst hc
      rw [numeral_minus] at h
      rw [List.cons_append, numeral_minus]
      exact unsigned_append hrest h
    · rw [numeral_of_ne hc] at h
      rw [List.cons_append, numeral_of_ne hc]
      exact unsigned_append hrest h

end Json

/-! ### Written numbers -/

/-- The characters that a number can start with. -/
def Grammar.isNumberStart (c : Char) : Bool := isDigit c || c == '-' || c == '+' || c == '.'

theorem Grammar.refuses_float {cs : List Char} (h : Clear isNumberStart cs) : Refuses float cs := by
  have hsign : Clear (fun c => c == '-' || c == '+') cs :=
    h.mono fun c hc => by simp only [isNumberStart]; grind
  have hdigit : Clear isDigit cs := h.mono fun c hc => by simp [isNumberStart, hc]
  have hdot : Clear (· == '.') cs := h.mono fun c hc => by simp [isNumberStart, hc]
  have hmantissa : Refuses mantissa cs :=
    .or ((refuses_run1 .number hdigit).bind _) ((refuses_char hdot).bind _)
  obtain ⟨f, hf, hc⟩ := (reads_sign_none hsign).bind_refuses (f := fun negative => do
    let (whole, fraction) ← mantissa
    let exponent ← optional power
    let digits := Json.digitsValue (whole ++ fraction)
    let x := Decimal.nearest digits (exponent.getD 0 - fraction.length)
    return if negative then -x else x) (hmantissa.bind _)
  exact ⟨⟨cs, .number, f.committed⟩, by rw [float, named, hf], hc⟩

namespace Json.Draft

/-- A text that starts like a number is a number, or it is no value. -/
theorem value_of_isNumberStart {c : Char} (hc : Grammar.isNumberStart c = true) (fuel level : Nat)
    (cs : List Char) : value (fuel + 1) level (c :: cs) =
      if c == '-' || isDigit c then ofNumber c (c :: cs)
      else (cut (some c) .malformed .malformed, []) := by
  have hother : ∀ d, Grammar.isNumberStart d = false → (c == d) = false :=
    fun d hd => beq_eq_false_iff_ne.mpr (Grammar.ne_of_holds hc hd)
  have hblank : isBlank c = false := by
    simp only [isBlank, hother ' ' (by decide), hother '\t' (by decide), hother '\n' (by decide),
      hother '\r' (by decide), Bool.or_self]
  simp only [value, skipBlanks, List.dropWhile_cons, hblank, hother '"' (by decide),
    hother '[' (by decide), hother '\x7b' (by decide), hother 'n' (by decide),
    hother 't' (by decide), hother 'f' (by decide), Bool.false_eq_true, if_false]

end Json.Draft

/-- The text of a number stands for it: in a document, and as a literal. -/
structure NumberReadsBack (x : Float) : Prop where
  document : ∃ j, Json.readPrefix (Value.numberJson x).compact.toList = .ok (j, []) ∧
    (Value.ofJson j == .number x) = true
  literal : ∃ y, Grammar.float (Value.numberJson x).compact.toList = .ok (y, []) ∧
    (y == x) = true

theorem numberReadsBack_three_halves : NumberReadsBack 1.5 := by
  refine ⟨⟨.number (.float (Decimal.scaleDown 15 1)), rfl, ?_⟩, ⟨1.5, rfl, rfl⟩⟩
  rw [Decimal.scaleDown]
  rfl

namespace NumberReadsBack

variable {x : Float} (h : NumberReadsBack x)

include h

/-- What the text of a number starts with, and what the two readers find in it. -/
theorem spelled : ∃ c cs n m, (Value.numberJson x).compact.toList = c :: cs ∧
    (c == '-' || Json.isDigit c) = true ∧ Json.numeral (c :: cs) = .ok (n, []) ∧
    n.number? = some m ∧ (m.toFloat == x) = true := by
  obtain ⟨y, hy, -⟩ := h.literal
  obtain ⟨j, hj, hx⟩ := h.document
  have hstart : ¬ Grammar.Clear Grammar.isNumberStart (Value.numberJson x).compact.toList := by
    intro hclear
    obtain ⟨f, hf, -⟩ := Grammar.refuses_float hclear
    rw [hf] at hy
    cases hy
  obtain ⟨c, cs, htext, hc⟩ : ∃ c cs, (Value.numberJson x).compact.toList = c :: cs ∧
      Grammar.isNumberStart c = true := by
    cases htext : (Value.numberJson x).compact.toList with
    | nil => simp [htext] at hstart
    | cons c cs => exact ⟨c, cs, rfl, by simpa [htext] using hstart⟩
  rw [htext, Json.readPrefix, Json.Draft.ofText, Json.Draft.value_of_isNumberStart hc] at hj
  by_cases hd : (c == '-' || Json.isDigit c) = true
  · rw [if_pos hd, Json.Draft.ofNumber] at hj
    cases hn : Json.numeral (c :: cs) with
    | error f =>
      rw [hn] at hj
      cases hj
    | ok spelled =>
      obtain ⟨n, left⟩ := spelled
      cases hm : n.number? with
      | none =>
        simp only [hn, hm] at hj
        cases hj
      | some m =>
        simp only [hn, hm] at hj
        cases hj
        exact ⟨c, cs, n, m, htext, hd, hn, hm, hx⟩
  · rw [if_neg hd] at hj
    cases hj

/-- A document reads the number in front of anything that cannot continue it. -/
theorem value_append (fuel level : Nat) {rest : List Char}
    (hrest : Grammar.Clear Grammar.isNumberPart rest) :
    ∃ m, Json.Draft.value (fuel + 1) level ((Value.numberJson x).compact.toList ++ rest) =
      (.number m, rest) ∧ (m.toFloat == x) = true := by
  obtain ⟨c, cs, n, m, htext, hc, hn, hm, hx⟩ := h.spelled
  refine ⟨m, ?_, hx⟩
  have hstart : Grammar.isNumberStart c = true := by
    simp only [Grammar.isNumberStart, Grammar.isDigit]
    grind
  rw [htext, List.cons_append, Json.Draft.value_of_isNumberStart hstart, if_pos hc,
    Json.Draft.ofNumber, ← List.cons_append, Json.numeral_append hrest hn]
  simp only [hm, List.nil_append]

/-- So does a literal. -/
theorem reads_numberLiteral {rest : List Char}
    (hrest : Grammar.Clear Grammar.isNumberPart rest) :
    ∃ y, Grammar.Reads Grammar.numberLiteral ((Value.numberJson x).compact.toList ++ rest)
      (.number y) rest ∧ (y == x) = true := by
  obtain ⟨y, hy, hx⟩ := h.literal
  obtain ⟨c, cs, n, m, htext, hc, -⟩ := h.spelled
  refine ⟨y, ?_, hx⟩
  have hfloat := (Grammar.stopped_float hrest _).1 y [] hy
  refine (Grammar.reads_ahead _ ?_).bind (hfloat.bind (Grammar.reads_pure _ _))
  rw [htext]
  simpa [Grammar.isDigit, Bool.or_comm] using hc

end NumberReadsBack

end TreeQuery
