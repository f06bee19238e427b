import Mathlib.Logic.Function.Iterate
import TreeQuery.Proofs.Grammar.Progress

/-! Conditions inside conditions. A character is taken before a nested condition is read, so what
is read of a text depends on how shorter texts are read only. Hence no text is nested too deeply,
the equations of the grammar have one solution, and it does not matter what stands at the bottom of
the recursion. Repetitions end as well: each round takes a character. -/

namespace TreeQuery.Grammar

variable {α β : Type} {k m n : Nat}

/-! ### Agreement on short texts -/

/-- `p` and `p'` do the same to every text of fewer than `n` characters. -/
def AgreeBelow (n : Nat) (p p' : Parser α) : Prop :=
  ∀ cs : List Char, cs.length < n → p cs = p' cs

theorem AgreeBelow.refl (n : Nat) (p : Parser α) : AgreeBelow n p p := fun _ _ => rfl

theorem agreeBelow_zero (p p' : Parser α) : AgreeBelow 0 p p' :=
  fun _ hcs => absurd hcs (Nat.not_lt_zero _)

theorem AgreeBelow.mono {p p' : Parser α} (h : AgreeBelow n p p') (hle : m ≤ n) :
    AgreeBelow m p p' :=
  fun cs hcs => h cs (Nat.lt_of_lt_of_le hcs hle)

theorem bind_apply (p : Parser α) (f : α → Parser β) (cs : List Char) :
    (p >>= f) cs = p cs >>= fun x => f x.1 x.2 := rfl

theorem AgreeBelow.bind {p p' : Parser α} {f f' : α → Parser β} (h : AgreeBelow n p p')
    (hp : Takes k p) (hf : ∀ a, AgreeBelow n (f a) (f' a)) :
    AgreeBelow n (p >>= f) (p' >>= f') := by
  intro cs hcs
  rw [bind_apply, bind_apply, ← h cs hcs]
  cases hread : p cs with
  | error e => rfl
  | ok x =>
    obtain ⟨-, hlength⟩ := hp cs x.1 x.2 hread
    exact hf x.1 x.2 (by omega)

theorem AgreeBelow.bind_left {p p' : Parser α} (h : AgreeBelow n p p') (f : α → Parser β) :
    AgreeBelow n (p >>= f) (p' >>= f) := by
  intro cs hcs
  rw [bind_apply, bind_apply, h cs hcs]

/-- Behind a parser that takes something, agreement on shorter texts is enough. -/
theorem AgreeBelow.after {p : Parser α} {f f' : α → Parser β} (hp : Takes 1 p)
    (hf : ∀ a, AgreeBelow n (f a) (f' a)) : AgreeBelow (n + 1) (p >>= f) (p >>= f') := by
  intro cs hcs
  rw [bind_apply, bind_apply]
  cases hread : p cs with
  | error e => rfl
  | ok x =>
    obtain ⟨-, hlength⟩ := hp cs x.1 x.2 hread
    exact hf x.1 x.2 (by omega)

theorem AgreeBelow.or {p p' q q' : Parser α} {ps ps' : List (Parser α)} (hp : AgreeBelow n p p')
    (hq : AgreeBelow n (oneOf (q :: ps)) (oneOf (q' :: ps'))) :
    AgreeBelow n (oneOf (p :: q :: ps)) (oneOf (p' :: q' :: ps')) := by
  intro cs hcs
  change orElse p (oneOf (q :: ps)) cs = orElse p' (oneOf (q' :: ps')) cs
  rw [orElse, orElse, hp cs hcs, hq cs hcs]

theorem AgreeBelow.optional {p p' : Parser α} (h : AgreeBelow n p p') :
    AgreeBelow n (Grammar.optional p) (Grammar.optional p') := by
  intro cs hcs
  rw [Grammar.optional, Grammar.optional, h cs hcs]

theorem AgreeBelow.many {p p' : Parser α} (h : AgreeBelow n p p') :
    AgreeBelow n (Grammar.many p) (Grammar.many p') := by
  intro cs hcs
  -- by the length of the text: a repetition goes on only with a shorter one
  induction hlength : cs.length using Nat.strongRecOn generalizing cs with
  | _ length ih =>
    rw [Grammar.many, Grammar.many, h cs hcs]
    cases p' cs with
    | error f => rfl
    | ok x =>
      by_cases hlt : x.2.length < cs.length
      · have hmore := ih x.2.length (hlength ▸ hlt) x.2 (Nat.lt_trans hlt hcs) rfl
        simp only [hlt, if_true, hmore]
      · simp only [hlt, if_false]

theorem AgreeBelow.spaced {p p' : Parser α} (h : AgreeBelow n p p') :
    AgreeBelow n (Grammar.spaced p) (Grammar.spaced p') :=
  (AgreeBelow.refl n spaces).bind takes_spaces fun _ => h.bind_left _

theorem AgreeBelow.between {p p' : Parser α} (h : AgreeBelow n p p') {opening : List Char}
    (hne : 1 ≤ opening.length) (closing : List Char) :
    AgreeBelow (n + 1) (Grammar.between opening p closing) (Grammar.between opening p' closing) :=
  .after ((takes_tag opening).mono hne) fun _ => h.bind_left _

/-! ### Paths and predicates -/

section

variable {q q' : Parser Condition} (h : AgreeBelow n q q')

include h

theorem agree_filterBody : AgreeBelow (n + 1) (filterBody q) (filterBody q') :=
  h.spaced.between (by decide) [']']

theorem agree_deepSelector : AgreeBelow (n + 1) (deepSelector q) (deepSelector q') := by
  refine .after ((takes_tag ['.', '.']).mono (by decide)) fun _ => ?_
  exact .or (.refl n _) (.or (((agree_filterBody h).mono (Nat.le_succ n)).bind_left _) (.refl n _))

theorem agree_bracketSelector : AgreeBelow (n + 1) (bracketSelector q) (bracketSelector q') := by
  refine .or ?deep (.or (.refl _ _) (.or (.refl _ _) (.or (.refl _ _) (.or ?flat (.refl _ _)))))
  case deep => exact (h.spaced.between (by decide) [']', ']']).bind_left _
  case flat => exact (agree_filterBody h).bind_left _

theorem agree_selector : AgreeBelow (n + 1) (selector q) (selector q') :=
  .or (agree_deepSelector h) (.or (.refl _ _) (agree_bracketSelector h))

theorem agree_path : AgreeBelow (n + 1) (path q) (path q') :=
  (AgreeBelow.refl _ scope).bind takes_scope fun _ => (agree_selector h).many.bind_left _

variable (hq : Takes 0 q)

include hq

theorem agree_dotPath : AgreeBelow (n + 1) (dotPath q) (dotPath q') := by
  have hselector := agree_selector h
  refine (AgreeBelow.refl _ _).bind (takes_ahead _ _) fun _ => AgreeBelow.bind_left ?_ _
  exact hselector.bind (takes_selector hq) fun _ => hselector.many.bind_left _

theorem agree_operand : AgreeBelow (n + 1) (operand q) (operand q') := by
  have hpath : AgreeBelow (n + 1) (operandPath q) (operandPath q') :=
    (agree_path h).or (agree_dotPath h hq)
  refine .or ?quantified (.or (hpath.bind_left _) (.refl _ _))
  case quantified =>
    exact (AgreeBelow.refl _ _).bind takes_quantifier fun _ =>
      (AgreeBelow.refl _ _).bind (takes_run1 _ _) fun _ => hpath.bind_left _

theorem agree_predicate : AgreeBelow (n + 1) (predicate q) (predicate q') := by
  have hoperand := agree_operand h hq
  refine hoperand.bind (takes_operand hq) fun _ => (AgreeBelow.refl _ _).bind takes_spaces fun _ =>
    (AgreeBelow.refl _ _).bind takes_operatorName fun _ => AgreeBelow.bind_left (.optional ?_) _
  exact (AgreeBelow.refl _ _).bind takes_spaces fun _ => hoperand

end

/-! ### Conditions -/

section

variable {a a' : Parser Condition} (h : AgreeBelow n a a') (ha : Takes 0 a)

include h ha

theorem agree_conjunction : AgreeBelow n (conjunction a) (conjunction a') := by
  refine h.bind ha fun _ => AgreeBelow.bind_left (.many ?_) _
  exact (AgreeBelow.refl _ _).bind (takes_keyword _).spaced fun _ => h

theorem agree_disjunction : AgreeBelow n (disjunction a) (disjunction a') := by
  have hpart := agree_conjunction h ha
  refine hpart.bind (takes_conjunction ha) fun _ => AgreeBelow.bind_left (.many ?_) _
  exact (AgreeBelow.refl _ _).bind (takes_keyword _).spaced fun _ => hpart

/-- What an atom does to a text depends on what its atoms do to shorter texts. -/
theorem agree_atomStep : AgreeBelow (n + 1) (atomStep a) (atomStep a') := by
  have hdisjunction := agree_disjunction h ha
  refine AgreeBelow.spaced (.or ?negation (.or ?group ?predicate))
  case negation =>
    exact .after ((takes_keyword _).mono (by decide)) fun _ =>
      (AgreeBelow.refl _ _).bind takes_spaces fun _ => h.bind_left _
  case group => exact hdisjunction.spaced.between (by decide) [')']
  case predicate => exact agree_predicate hdisjunction (takes_disjunction ha)

end

/-- More levels than a text has characters make no difference. -/
theorem agree_atom (h : n ≤ m) : AgreeBelow n (atom m : Parser Condition) (atom n) := by
  induction n generalizing m with
  | zero => exact agreeBelow_zero _ _
  | succ n ih =>
    obtain ⟨m, rfl⟩ : ∃ i, m = i + 1 := ⟨m - 1, by omega⟩
    rw [atom_succ, atom_succ]
    exact agree_atomStep (ih (by omega)) (takes_atom m).zero

/-! ### The recursion -/

/-- An atom, nested as deeply as the text allows. -/
def anyAtom : Parser Condition := fun cs => atom (cs.length + 1) cs

theorem takes_anyAtom : Takes 1 anyAtom := by
  intro cs c rest hread
  rw [Reads, anyAtom] at hread
  exact takes_atom (cs.length + 1) cs c rest hread

theorem agree_anyAtom (n : Nat) : AgreeBelow n anyAtom (atom n) := by
  intro cs hcs
  rw [anyAtom]
  exact (agree_atom (Nat.succ_le_of_lt hcs) cs (Nat.lt_succ_self _)).symm

theorem anyAtom_eq_atomStep : anyAtom = atomStep anyAtom := by
  funext cs
  have h := agree_atomStep (agree_anyAtom cs.length) takes_anyAtom.zero
  rw [h cs (Nat.lt_succ_self _), ← atom_succ, anyAtom]

theorem condition_eq_disjunction : condition = disjunction anyAtom := by
  funext cs
  have h := agree_disjunction (agree_anyAtom (cs.length + 1)) takes_anyAtom.zero
  have hcondition : condition cs = conditionAt (cs.length + 1) cs := rfl
  rw [h cs (Nat.lt_succ_self _), hcondition, conditionAt]

/-- Whatever stands at the bottom, `n` levels are enough for texts of fewer than `n` characters. -/
theorem agree_iterate (bottom : Parser Condition) (n : Nat) :
    AgreeBelow n anyAtom (atomStep^[n] bottom) := by
  induction n with
  | zero => exact agreeBelow_zero _ _
  | succ n ih =>
    rw [Function.iterate_succ_apply', anyAtom_eq_atomStep]
    exact agree_atomStep ih takes_anyAtom.zero

theorem eq_anyAtom_iff (a : Parser Condition) : a = atomStep a ↔ a = anyAtom := by
  constructor
  · intro ha
    funext cs
    have hiterate : atomStep^[cs.length + 1] a = a := Function.iterate_fixed ha.symm _
    rw [agree_iterate a (cs.length + 1) cs (Nat.lt_succ_self _), hiterate]
  · rintro rfl
    exact anyAtom_eq_atomStep

/-- Every parser of a path, a condition or a part of one takes a character and leaves a proper
suffix of the text. Every repetition is a finite number of rounds that take something. The
equations of nested conditions have one solution, and for any text it is what more levels of
nesting than the text has characters come to, whatever stands at the bottom. -/
theorem advances_and_halts :
    (Advances (path condition) ∧ Advances (dotPath condition) ∧ Advances (selector condition) ∧
      Advances (filterBody condition) ∧ Advances slice ∧ Advances nameList ∧
      Advances positionList ∧ Advances condition ∧ Advances (conjunction anyAtom) ∧
      Advances anyAtom ∧ Advances (predicate condition) ∧ Advances (operand condition) ∧
      Advances literal) ∧
    (Halts (selector condition) ∧ Halts (do char ','; spaced quotedText) ∧
      Halts (do char ','; spaced integer) ∧
      Halts (do spaced (keyword ['a', 'n', 'd']); anyAtom) ∧
      Halts (do spaced (keyword ['o', 'r']); conjunction anyAtom)) ∧
    (condition = disjunction anyAtom ∧ ∀ a, a = atomStep a ↔ a = anyAtom) ∧
    ∀ (bottom : Parser Condition) (k : Nat) (cs : List Char),
      atomStep^[cs.length + 1 + k] bottom cs = anyAtom cs ∧
      disjunction (atomStep^[cs.length + 1 + k] bottom) cs = condition cs ∧
      path (disjunction (atomStep^[cs.length + 1 + k] bottom)) cs = path condition cs := by
  have hcondition : Takes 0 condition := takes_condition.zero
  have hconjunction := takes_conjunction takes_anyAtom
  refine ⟨⟨takes_path hcondition, takes_dotPath hcondition, takes_selector hcondition,
    takes_filterBody hcondition, takes_slice, takes_nameList, takes_positionList, takes_condition,
    hconjunction, takes_anyAtom, takes_predicate hcondition, takes_operand hcondition,
    takes_literal⟩, ⟨(takes_selector hcondition).halts, ?names, ?positions, ?conjunction,
    ?disjunction⟩, ⟨condition_eq_disjunction, eq_anyAtom_iff⟩, ?levels⟩
  case names => exact ((takes_char ',').bind_first fun _ => takes_quotedText.spaced).halts
  case positions => exact ((takes_char ',').bind_first fun _ => takes_integer.spaced).halts
  case conjunction => exact ((takes_keyword _).spaced.bind_later fun _ => takes_anyAtom).halts
  case disjunction => exact ((takes_keyword _).spaced.bind_later fun _ => hconjunction).halts
  case levels =>
    intro bottom k cs
    have hlt : cs.length < cs.length + 1 + k := by omega
    have hatom := agree_iterate bottom (cs.length + 1 + k)
    have hwhole := agree_disjunction hatom takes_anyAtom.zero
    rw [← condition_eq_disjunction] at hwhole
    exact ⟨(hatom cs hlt).symm, (hwhole cs hlt).symm,
      (agree_path hwhole cs (Nat.lt_succ_of_lt hlt)).symm⟩

end TreeQuery.Grammar
