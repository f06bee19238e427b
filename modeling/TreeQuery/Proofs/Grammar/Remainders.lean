import TreeQuery.Json.Draft
import TreeQuery.Proofs.Grammar.Numbers
import Mathlib.Tactic.SplitIfs

/-! What a document leaves of a text. What follows a word, a number or a whole document is a suffix
of the text, and of what comes after the first character of it: documents take at least one. That
also holds of drafts that were broken off, behind which nothing is left. -/

namespace TreeQuery.Json

variable {α β : Type}

theorem suffix_tail_of_cons {a : α} {more l : List α} (h : a :: more <:+ l) : more <:+ l.tail := by
  obtain ⟨front, rfl⟩ := h
  cases front with
  | nil => exact List.suffix_refl more
  | cons b front => exact ⟨front ++ [a], by simp⟩

theorem dropWhile_suffix_tail {p : α → Bool} {l : List α} (h : l.takeWhile p ≠ []) :
    l.dropWhile p <:+ l.tail := by
  cases l with
  | nil => exact List.nil_suffix
  | cons a l =>
    by_cases ha : p a = true
    · rw [List.dropWhile_cons_of_pos ha]
      exact List.dropWhile_suffix p
    · exact absurd (List.takeWhile_cons_of_neg ha) h

theorem skipBlanks_suffix (cs : List Char) : skipBlanks cs <:+ cs := List.dropWhile_suffix isBlank

/-- What follows the first character behind blanks. -/
theorem suffix_tail_of_skipBlanks {cs more : List Char} {c : Char}
    (h : skipBlanks cs = c :: more) : more <:+ cs.tail :=
  suffix_tail_of_cons (h ▸ skipBlanks_suffix cs)

theorem suffix_of_skipBlanks {cs more : List Char} {c : Char} (h : skipBlanks cs = c :: more) :
    more <:+ cs :=
  (suffix_tail_of_skipBlanks h).trans (List.tail_suffix cs)

/-- Whatever is read leaves a suffix of `l`. -/
def Leaves (l : List Char) (read : Except Fault (α × List Char)) : Prop :=
  ∀ a rest, read = .ok (a, rest) → rest <:+ l

namespace Leaves

variable {l m : List Char} {read : Except Fault (α × List Char)}

theorem error (f : Fault) : Leaves l (.error f : Except Fault (α × List Char)) := nofun

theorem ok (a : α) {rest : List Char} (h : rest <:+ l) : Leaves l (.ok (a, rest)) := by
  intro a' rest' hok
  cases hok
  exact h

theorem mono (h : Leaves l read) (hl : l <:+ m) : Leaves m read :=
  fun a rest hok => (h a rest hok).trans hl

theorem bind {next : α × List Char → Except Fault (β × List Char)} (h : Leaves m read)
    (hnext : ∀ a rest, rest <:+ m → Leaves l (next (a, rest))) : Leaves l (read >>= next) := by
  intro b rest hok
  cases hread : read with
  | error f =>
    rw [hread] at hok
    cases hok
  | ok x =>
    rw [hread] at hok
    exact hnext x.1 x.2 (h x.1 x.2 hread) b rest hok

theorem map {f : α × List Char → β × List Char} (h : Leaves l read) (hf : ∀ x, (f x).2 = x.2) :
    Leaves l (read.map f) := by
  intro b rest hok
  cases hread : read with
  | error e =>
    rw [hread] at hok
    cases hok
  | ok x =>
    rw [hread] at hok
    have hrest : (f x).2 = rest := congrArg Prod.snd (Except.ok.inj hok)
    rw [hf] at hrest
    exact hrest ▸ h x.1 x.2 hread

end Leaves

/-! ### Words -/

theorem fixedWord_suffix {word cs rest : List Char} (h : fixedWord word cs = .ok rest) :
    rest <:+ cs := by
  induction word generalizing cs with
  | nil =>
    cases h
    exact List.suffix_refl _
  | cons w word ih =>
    cases cs with
    | nil => cases h
    | cons c cs =>
      rw [fixedWord] at h
      split at h
      · exact (ih h).trans (List.suffix_cons c cs)
      · cases h

theorem leaves_readText (cs : List Char) : Leaves cs (readText cs) := by
  fun_induction readText cs with
  | case1 | case3 | case4 | case6 | case8 => exact .error _
  | case2 more => exact .ok [] (List.suffix_cons '"' more)
  | case5 more c taken _ ih =>
    refine Leaves.map (ih.mono ((List.drop_suffix taken more).trans ?_)) fun _ => rfl
    exact (List.suffix_cons 'u' more).trans (List.suffix_cons '\\' _)
  | case7 e more _ c _ ih =>
    refine Leaves.map (ih.mono ?_) fun _ => rfl
    exact (List.suffix_cons e more).trans (List.suffix_cons '\\' _)
  | case9 c more _ _ _ _ _ ih => exact Leaves.map (ih.mono (List.suffix_cons c more)) fun _ => rfl

theorem skimText_suffix {cs rest : List Char} (h : skimText cs = .ok rest) : rest <:+ cs := by
  fun_induction skimText cs with
  | case1 | case3 | case4 | case7 | case8 => cases h
  | case2 =>
    cases h
    exact List.suffix_cons '"' rest
  | case5 more _ _ ih =>
    refine (ih h).trans ((List.drop_suffix 4 more).trans ?_)
    exact (List.suffix_cons 'u' more).trans (List.suffix_cons '\\' _)
  | case6 e more _ _ ih =>
    exact (ih h).trans ((List.suffix_cons e more).trans (List.suffix_cons '\\' _))
  | case9 c more _ _ _ _ _ ih => exact (ih h).trans (List.suffix_cons c more)

/-! ### Numbers -/

theorem leaves_digits1 (cs : List Char) : Leaves cs.tail (digits1 cs) := by
  unfold digits1
  split
  · exact .error _
  next h => exact .ok _ (dropWhile_suffix_tail h)

theorem leaves_wholePart (cs : List Char) : Leaves cs.tail (wholePart cs) := by
  unfold wholePart
  split
  next more =>
    split
    · exact .error _
    · exact .ok _ (List.suffix_refl more)
  · exact leaves_digits1 cs

theorem leaves_fractionPart (cs : List Char) : Leaves cs (fractionPart cs) := by
  unfold fractionPart
  split
  next more =>
    have hdigits := (leaves_digits1 more).mono (List.tail_suffix more)
    exact Leaves.map (hdigits.mono (List.suffix_cons '.' more)) fun _ => rfl
  · exact .ok _ (List.suffix_refl cs)

theorem leaves_exponentPart (cs : List Char) : Leaves cs (exponentPart cs) := by
  match cs with
  | [] => exact .ok none (List.suffix_refl [])
  | e :: more =>
    cases he : e == 'e' || e == 'E' with
    | false =>
      rw [exponentPart_of_ne he]
      exact .ok none (List.suffix_refl _)
    | true =>
      match more with
      | [] =>
        simp only [exponentPart, he, if_true]
        exact .error _
      | d :: more =>
        rw [exponentPart_cons he]
        refine Leaves.map ((leaves_digits1 _).mono ((List.tail_suffix _).trans ?_)) fun _ => rfl
        refine List.IsSuffix.trans ?_ (List.suffix_cons e (d :: more))
        split
        · exact List.suffix_cons d more
        · exact List.suffix_refl _

theorem Numeral.leaves_unsigned (negative : Bool) (cs : List Char) :
    Leaves cs.tail (unsigned negative cs) :=
  (leaves_wholePart cs).bind fun _ rest hrest =>
    ((leaves_fractionPart rest).mono hrest).bind fun _ rest' hrest' =>
      ((leaves_exponentPart rest').mono hrest').bind fun _ _ hrest'' => .ok _ hrest''

theorem leaves_numeral (c : Char) (cs : List Char) : Leaves cs (numeral (c :: cs)) := by
  by_cases hc : c = '-'
  · subst hc
    exact (Numeral.leaves_unsigned true cs).mono (List.tail_suffix cs)
  · rw [numeral_of_ne hc]
    exact Numeral.leaves_unsigned false (c :: cs)

/-! ### Drafts -/

namespace Draft

theorem ofQuoted_suffix (cs : List Char) : (ofQuoted cs).2 <:+ cs := by
  unfold ofQuoted
  split
  next s rest h => exact leaves_readText cs s rest h
  next h => exact skimText_suffix h
  · exact List.nil_suffix

theorem ofWord_suffix {c : Char} (w : Char) (word cs : List Char) (d : Draft) :
    (ofWord c (w :: word) (c :: cs) d).2 <:+ cs := by
  unfold ofWord fixedWord
  split
  next h =>
    split at h
    · exact fixedWord_suffix h
    · cases h
  · exact List.nil_suffix

theorem ofNumber_suffix (c : Char) (cs : List Char) : (ofNumber c (c :: cs)).2 <:+ cs := by
  unfold ofNumber
  split
  · exact List.nil_suffix
  next n rest h =>
    have hrest := leaves_numeral c cs n rest h
    split
    · exact hrest
    · exact hrest

mutual

theorem value_suffix : ∀ (fuel level : Nat) (cs : List Char), (value fuel level cs).2 <:+ cs.tail
  | 0, _, _ => List.nil_suffix
  | fuel + 1, level, cs => by
    rw [value]
    split
    · exact List.nil_suffix
    next c more h =>
      refine List.IsSuffix.trans ?_ (suffix_tail_of_skipBlanks h)
      split_ifs
      · exact ofQuoted_suffix more
      · dsimp only
        split
        next h => exact suffix_of_skipBlanks h
        · exact List.nil_suffix
        · exact (items_suffix fuel (level + 1) _).trans
            ((List.tail_suffix _).trans (skipBlanks_suffix more))
      · dsimp only
        split
        next h => exact suffix_of_skipBlanks h
        · exact (members_suffix fuel (level + 1) _).trans
            ((List.tail_suffix _).trans (skipBlanks_suffix more))
      · exact ofWord_suffix 'n' ['u', 'l', 'l'] more _
      · exact ofWord_suffix 't' ['r', 'u', 'e'] more _
      · exact ofWord_suffix 'f' ['a', 'l', 's', 'e'] more _
      · exact ofNumber_suffix c more
      · exact List.nil_suffix

theorem items_suffix : ∀ (fuel level : Nat) (cs : List Char),
    (items fuel level cs).2.2 <:+ cs.tail
  | 0, _, _ => List.nil_suffix
  | fuel + 1, level, cs => by
    have hvalue := value_suffix fuel level cs
    rw [items]
    generalize value fuel level cs = read at hvalue
    obtain ⟨d, rest⟩ := read
    dsimp only at hvalue ⊢
    split
    next h => exact (suffix_of_skipBlanks h).trans hvalue
    next after h =>
      have hmore := (items_suffix fuel level after).trans (List.tail_suffix after)
      exact hmore.trans ((suffix_of_skipBlanks h).trans hvalue)
    · exact List.nil_suffix
    · exact List.nil_suffix

theorem members_suffix : ∀ (fuel level : Nat) (cs : List Char),
    (members fuel level cs).2.2 <:+ cs.tail
  | 0, _, _ => List.nil_suffix
  | fuel + 1, level, cs => by
    have hvalue : ∀ rest, (match skipBlanks rest with
        | ':' :: more => value fuel level more
        | [] => (cut none .truncated .truncated, [])
        | c :: _ => (cut (some c) .malformed .malformed, [])).2 <:+ rest := by
      intro rest
      split
      next more h =>
        have hmore := (value_suffix fuel level more).trans (List.tail_suffix more)
        exact hmore.trans (suffix_of_skipBlanks h)
      · exact List.nil_suffix
      · exact List.nil_suffix
    rw [members]
    split
    · exact List.nil_suffix
    next more h =>
      refine List.IsSuffix.trans ?_ (suffix_tail_of_skipBlanks h)
      have hname := ofQuoted_suffix more
      split
      · exact List.nil_suffix
      next name rest _ hquoted =>
        rw [hquoted] at hname
        refine List.IsSuffix.trans ?_ hname
        dsimp only
        split
        next h => exact (suffix_of_skipBlanks h).trans (hvalue rest)
        next after h =>
          have hmore := (members_suffix fuel level after).trans (List.tail_suffix after)
          exact hmore.trans ((suffix_of_skipBlanks h).trans (hvalue rest))
        · exact List.nil_suffix
        · exact List.nil_suffix
    · exact List.nil_suffix

end

end Draft

/-- What follows a document is a suffix of what comes after its first character. -/
theorem leaves_readPrefix (cs : List Char) : Leaves cs.tail (readPrefix cs) := by
  have h := Draft.value_suffix (2 * cs.length + 2) 0 cs
  intro j rest hok
  unfold readPrefix Draft.ofText at hok
  generalize Draft.value (2 * cs.length + 2) 0 cs = read at h hok
  obtain ⟨d, left⟩ := read
  cases hd : d.complete with
  | error f =>
    simp only [hd] at hok
    cases hok
  | ok j' =>
    simp only [hd] at hok
    cases hok
    exact h

end TreeQuery.Json
