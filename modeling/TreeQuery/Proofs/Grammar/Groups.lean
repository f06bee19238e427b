import TreeQuery.Proofs.Grammar.Carried
import TreeQuery.Proofs.Grammar.Conditions

/-! Conditions in parentheses. A text that spells a condition spells the same condition between
parentheses, negated or as a part of a chain. The step is that every reading of an atom is kept when
a closing parenthesis follows the text, if it leaves a mark or a connective; the induction is on the
depth to which atoms are nested, which may grow with the text. -/

namespace TreeQuery

namespace Grammar

variable {rest : List Char} {q q' : Parser Condition}

/-! ### Blanks -/

namespace EndsSpaced

variable {marks left : List Char} (h : EndsSpaced marks left)

include h

theorem mono {marks' : List Char} (hmarks : marks ⊆ marks') : EndsSpaced marks' left :=
  EndsIn.mono h hmarks

theorem endsPath (hmarks : marks.any (fun c => c == '.' || c == '[') = false) : EndsPath left :=
  clear_of_dropWhile (EndsIn.clear h hmarks) rfl

/-- What starts with none of the marks does not start behind the blanks, if a parenthesis closes. -/
theorem clear (hrest : EndsIn [')'] rest) {f : Char → Bool} (hf : (')' :: marks).any f = false) :
    Clear f ((left ++ rest).dropWhile isSpace) := by
  have hboth : f ')' = false ∧ marks.any f = false := by simpa using hf
  rw [(takeWhile_append_of_clear (hrest.clear rfl) left).2, Clear,
    head?_append_any (hrest.clear (by simpa using hboth.1))]
  exact EndsIn.clear h hboth.2

end EndsSpaced

/-! ### Operands -/

/-- The word of a negation starts no operand, although a literal may start with its first letter. -/
theorem refuses_operand_not (cs : List Char) : Refuses (operand q) ('n' :: 'o' :: 't' :: cs) := by
  have hquantifier : Refuses quantifier ('n' :: 'o' :: 't' :: cs) :=
    refuses_quantifier (clear_cons.mpr rfl) (clear_cons.mpr rfl)
  have hpath : Refuses (operandPath q) ('n' :: 'o' :: 't' :: cs) :=
    refuses_operandPath (clear_cons.mpr rfl)
  have hmark : Refuses (char '\x60') ('n' :: 'o' :: 't' :: cs) := refuses_char (clear_cons.mpr rfl)
  have htext : Refuses plainText ('n' :: 'o' :: 't' :: cs) :=
    (refuses_char (clear_cons.mpr rfl)).bind _
  have hliteral : Refuses literal ('n' :: 'o' :: 't' :: cs) :=
    hmark.optional.bind_refuses (.or ((refuses_keyword rfl).bind _)
      (.or ((refuses_keyword rfl).bind _) (.or ((refuses_keyword rfl).bind _) (.or (htext.bind _)
        (.or (refuses_documentLiteral (clear_cons.mpr rfl))
          (refuses_numberLiteral (clear_cons.mpr rfl)))))))
  exact .or (hquantifier.bind _) (.or (hpath.bind _) (hliteral.bind _))

theorem refuses_operatorName {cs : List Char} (h : Clear isNameStart cs) :
    Refuses operatorName cs := by
  obtain ⟨f, hf, hc⟩ : Refuses identifier cs := (refuses_ahead .word h).bind _
  exact ⟨f, by simp only [operatorName, hf], hc⟩

section

variable (hrest : EndsIn [')'] rest) (hq : Carries (EndsSpaced [')', ']']) q q' rest)

include hrest hq

theorem carries_operand : Carries EndsPath (operand q) (operand q') rest := by
  have hpath : Carries EndsPath (operandPath q) (operandPath q') rest :=
    carries_operandPath hrest hq
  have hblanks : Stopped (run1 isSpace .mark) rest := stopped_run1 (hrest.clear rfl)
  refine ((stopped_quantifier hrest).carries.then fun range => hblanks.carries.then fun _ =>
    hpath.map _).or ((hpath.map _).or ((carries_literal hrest).map _) ?path) ?quantified
  case path =>
    intro cs x left hread _
    have hstart : Clear isLiteralStart cs → Refuses (do return Operand.value (← literal)) cs :=
      fun h => (refuses_literal h).bind _
    refine (refuses_operandPath (hread.clear hstart (fun c hc => ?_) rest)).bind _
    simp only [Bool.or_eq_true, beq_iff_eq] at hc
    rcases hc with ((rfl | rfl) | rfl) | rfl <;> rfl
  case quantified =>
    intro cs x left hread _
    have hstart : Clear (fun c => (c == '$' || c == '@' || c == '^' || c == '.') ||
        isLiteralStart c) cs → Refuses (oneOf [
          do return Operand.path (← operandPath q) none,
          do return Operand.value (← literal)]) cs := fun h =>
      .or ((refuses_operandPath (h.mono fun c hc => Bool.or_eq_true_iff.mpr (.inl hc))).bind _)
        ((refuses_literal (h.mono fun c hc => Bool.or_eq_true_iff.mpr (.inr hc))).bind _)
    exact (refuses_quantifier (hread.clear_mark hstart rfl rest)
      (hread.clear_mark hstart rfl rest)).bind _

/-! ### Predicates -/

theorem carries_predicate : Carries (EndsSpaced ['a', 'o', ')', ']']) (predicate q) (predicate q')
    rest := by
  have hoperand : Carries EndsPath (operand q) (operand q') rest := carries_operand hrest hq
  have hspaces : Stopped spaces rest := stopped_spaces (hrest.clear rfl)
  have hright : Carries (EndsSpaced ['a', 'o', ')', ']']) (optional (do spaces; operand q))
      (optional (do spaces; operand q')) rest := by
    refine Carries.optional (hspaces.carries.then fun _ => hoperand.mono fun left hleft => ?_)
      fun left hleft => (reads_spaces (left ++ rest)).bind_refuses (refuses_operand ?_)
    · exact hleft.endsPath rfl
    · exact hleft.clear hrest rfl
  refine hoperand.bind (fun left => hspaces.carries.then fun _ =>
    (stopped_operatorName hrest).carries.then fun op => hright.map _) ?_
  -- the left operand ends where blanks and the name of the operator start
  intro left mid c after hread _
  obtain ⟨_, name, hspaces, hread⟩ := reads_bind_iff.mp hread
  cases hspaces
  obtain ⟨op, _, hop, -⟩ := reads_bind_iff.mp hread
  have hname : EndsPath (mid.dropWhile isSpace ++ []) :=
    hop.clear refuses_operatorName (fun c hc => by
      simp only [Bool.or_eq_true, beq_iff_eq] at hc
      rcases hc with rfl | rfl <;> rfl) []
  rw [List.append_nil] at hname
  exact clear_of_dropWhile hname rfl

end

/-! ### Chains -/

section

variable {k : Connective} {c : Char} {letters : List Char} (hword : word k = c :: letters)

include hword

/-- What goes on with a connective starts with its first letter, behind blanks. -/
theorem endsSpaced_of_link {p : Parser Condition} {cs left : List Char} {a : Condition}
    (h : Reads (do spaced (keyword (word k)); p) cs a left) (marks : List Char) :
    EndsSpaced (c :: marks) cs := by
  obtain ⟨_, mid, hspaced, -⟩ := reads_bind_iff.mp h
  obtain ⟨_, start, hspaces, hspaced⟩ := reads_bind_iff.mp hspaced
  cases hspaces
  obtain ⟨_, after, hkeyword, -⟩ := reads_bind_iff.mp hspaced
  obtain ⟨_, more, htag, -⟩ := reads_bind_iff.mp hkeyword
  rw [reads_tag_iff, hword] at htag
  rw [EndsSpaced, htag]
  exact endsIn_cons List.mem_cons_self _

theorem carries_chain {marks : List Char} (hc : c ∉ marks) (hletters : ')' ∉ c :: letters)
    {p p' : Parser Condition} (hrest : EndsIn [')'] rest)
    (hp : Carries (EndsSpaced (c :: marks)) p p' rest) :
    Carries (EndsSpaced marks) (chain k p) (chain k p') rest := by
  have hkeyword : Stopped (keyword (word k)) rest := stopped_keyword hrest (hword ▸ hletters)
  have hlink : Carries (EndsSpaced (c :: marks)) (do spaced (keyword (word k)); p)
      (do spaced (keyword (word k)); p') rest :=
    (hkeyword.spaced (hrest.clear rfl)).carries.then fun _ => hp
  have hlinks : Carries (EndsSpaced marks) (many (do spaced (keyword (word k)); p))
      (many (do spaced (keyword (word k)); p')) rest := by
    refine hlink.many (fun cs a left hread => endsSpaced_of_link hword hread marks)
      fun left hleft => ⟨hleft.mono (List.subset_cons_self c marks), ?_⟩
    have hmarks : (')' :: marks).any (· == c) = false := by
      simp only [List.mem_cons, not_or] at hletters
      simpa [hletters.1] using fun d hd (hdc : d = c) => hc (hdc ▸ hd)
    have hclear : Clear (· == c) ((left ++ rest).dropWhile isSpace) := hleft.clear hrest hmarks
    rw [hword]
    exact (Refuses.spaced ((refuses_tag_of_clear hclear letters).bind _)).bind _
  -- the first part ends where the chain does, or where a link starts
  refine hp.bind (fun first => hlinks.map _) fun first mid b left hread hleft => ?_
  obtain ⟨found, after, hmany, hpure⟩ := reads_bind_iff.mp hread
  cases hpure
  rcases reads_many_iff.mp hmany with ⟨-, rfl, -⟩ | ⟨a, _, next, -, hnext, -⟩
  · exact hleft.mono (List.subset_cons_self c marks)
  · exact endsSpaced_of_link hword hnext marks

end

theorem carries_disjunction {p p' : Parser Condition} (hrest : EndsIn [')'] rest)
    (hp : Carries (EndsSpaced ['a', 'o', ')', ']']) p p' rest) :
    Carries (EndsSpaced [')', ']']) (disjunction p) (disjunction p') rest := by
  have hconjunction : Carries (EndsSpaced ['o', ')', ']']) (conjunction p) (conjunction p') rest :=
    carries_chain (k := .and) rfl (by decide) (by decide) hrest hp
  exact carries_chain (k := .or) rfl (by decide) (by decide) hrest hconjunction

/-! ### Atoms -/

theorem carries_atom (hrest : EndsIn [')'] rest) : ∀ {depth depth' : Nat}, depth ≤ depth' →
    Carries (EndsSpaced ['a', 'o', ')', ']']) (atom depth : Parser Condition) (atom depth') rest
  | 0, _, _ => fun _ _ _ hread _ => (nomatch hread)
  | depth + 1, depth' + 1, hle => by
    have hatom := carries_atom hrest (Nat.le_of_succ_le_succ hle)
    have hdisjunction := carries_disjunction hrest hatom
    have hpredicate := carries_predicate hrest hdisjunction
    have hgroup : Carries (EndsSpaced ['a', 'o', ')', ']'])
        (between ['('] (spaced (disjunction (atom depth))) [')'])
        (between ['('] (spaced (disjunction (atom depth'))) [')']) rest :=
      (carries_closed hrest hdisjunction ')' (by decide)).between fun left =>
        ⟨')', by simp, left, rfl⟩
    have hnot : Stopped (keyword ['n', 'o', 't']) rest := stopped_keyword hrest (by decide)
    have hspaces : Stopped spaces rest := stopped_spaces (hrest.clear rfl)
    refine Carries.spaced (.or_of_opening ['n', 'o', 't'] hrest (by decide)
      (hnot.carries.then fun _ => hspaces.carries.then fun _ => hatom.map _)
      (.or_of_opening ['('] hrest (by decide) hgroup hpredicate ?_ ?_) ?_ ?_)
      (hrest.clear rfl) ?_
    · exact fun cs hcs => refuses_between _ _ hcs
    · exact fun cs => (refuses_operand (clear_cons.mpr rfl)).bind _
    · exact fun cs hcs => (refuses_keyword hcs).bind _
    · exact fun cs => .or (refuses_between _ _ rfl) ((refuses_operand_not cs).bind _)
    · intro mid hmid
      rwa [EndsSpaced, (takeWhile_of_clear (clear_dropWhile isSpace mid)).2] at hmid

/-! ### Conditions in parentheses -/

/-- A text that spells a condition is an atom when it stands in parentheses. -/
theorem reads_group {s : String} {c : Condition} (h : Condition.parse s = .ok c) {depth : Nat}
    (hdepth : s.toList.length < depth) (more : List Char) :
    Reads (atom (depth + 1) : Parser Condition) ('(' :: (s.toList ++ ')' :: more)) c
      (more.dropWhile isSpace) := by
  unfold Condition.parse readWhole at h
  split at h
  next c' hread =>
    cases h
    have hread : Reads (spaced condition) s.toList c [] := hread
    obtain ⟨_, start, hstart, hread⟩ := reads_bind_iff.mp hread
    cases hstart
    obtain ⟨_, left, hcondition, hread⟩ := reads_bind_iff.mp hread
    obtain ⟨_, after, hafter, hpure⟩ := reads_bind_iff.mp hread
    cases hpure
    have hleft : left.dropWhile isSpace = [] := congrArg Prod.snd (Except.ok.inj hafter)
    have hends : EndsSpaced [')', ']'] left := by
      rw [EndsSpaced, hleft]
      exact endsIn_nil _
    have hrest : EndsIn [')'] (')' :: more) := endsIn_cons (by simp) more
    have hblanks := fun cs => (takeWhile_append_of_clear (hrest.clear (p := isSpace) rfl) cs).2
    have hle : (s.toList.dropWhile isSpace).length + 1 ≤ depth := by
      have hsuffix := (List.dropWhile_suffix isSpace (l := s.toList)).length_le
      omega
    rw [Reads, condition_eq] at hcondition
    have hcarried := carries_disjunction hrest (carries_atom hrest hle) _ _ _ hcondition hends
    have hbehind : (left ++ ')' :: more).dropWhile isSpace = ')' :: more := by
      rw [hblanks, hleft]
      rfl
    rw [← hblanks] at hcarried
    exact reads_atom_group (hcarried.spaced hbehind)
  · cases h
  · cases h

section

variable {k : Connective} {p : Parser Condition} {cs left : List Char} {c d : Condition}

/-- No chain goes on at the end of the text. -/
theorem refuses_connective_nil (k : Connective) : Refuses (keyword (word k)) [] := by
  cases k <;> exact refuses_keyword rfl

/-- A chain of one part. -/
theorem reads_chain_one (hp : Reads p cs c left)
    (hend : Refuses (keyword (word k)) (left.dropWhile isSpace)) : Reads (chain k p) cs c left :=
  hp.bind ((hend.spaced.bind _).many.bind (reads_pure _ _))

/-- A chain of two parts, up to the end of the text. -/
theorem reads_chain_two {more : List Char} (hc : Reads p cs c (word k ++ ' ' :: more))
    (hmore : Clear isSpace more) (hd : Reads p more d []) :
    Reads (chain k p) cs (k.apply c d) [] := by
  have hend : Refuses (do spaced (keyword (word k)); p) [] :=
    (Refuses.spaced (refuses_connective_nil k)).bind _
  have hlinks := ((reads_connective k hmore).bind hd).many (by simp) hend.many
  exact hc.bind (hlinks.bind (reads_pure _ _))

end

/-- The text is that of a condition if it starts with no blank. -/
theorem parse_of_reads {text : String} {c : Condition} (hstart : Clear isSpace text.toList)
    (h : Reads (conditionAt (text.toList.length + 1)) text.toList c []) :
    Condition.parse text = .ok c := by
  have hcondition : Reads condition text.toList c [] := by
    rw [Reads, condition_eq]
    exact h
  exact readWhole_of_reads hstart hcondition

/-- A text that is one atom. -/
theorem parse_of_atom {text : String} {c : Condition} (hstart : Clear isSpace text.toList)
    (h : Reads (atom (text.toList.length + 1) : Parser Condition) text.toList c []) :
    Condition.parse text = .ok c := by
  refine parse_of_reads hstart ?_
  rw [conditionAt, disjunction_eq, conjunction_eq]
  exact reads_chain_one (reads_chain_one h (refuses_connective_nil .and))
    (refuses_connective_nil .or)

/-- Two conditions in parentheses with a connective between them. -/
theorem parse_of_link (k : Connective) {s₁ s₂ text : String} {c₁ c₂ : Condition}
    (h₁ : Condition.parse s₁ = .ok c₁) (h₂ : Condition.parse s₂ = .ok c₂)
    (htext : text.toList = '(' :: (s₁.toList ++ ')' :: ' ' :: (word k ++
      ' ' :: '(' :: (s₂.toList ++ [')'])))) : Condition.parse text = .ok (k.apply c₁ c₂) := by
  have hlength : s₁.toList.length < text.toList.length ∧ s₂.toList.length < text.toList.length := by
    rw [htext]
    simp only [List.length_append, List.length_cons]
    omega
  have hlink : (' ' :: (word k ++ ' ' :: '(' :: (s₂.toList ++ [')']))).dropWhile isSpace =
      word k ++ ' ' :: '(' :: (s₂.toList ++ [')']) := by
    cases k <;> rfl
  have hfirst := reads_group h₁ hlength.1 (' ' :: (word k ++ ' ' :: '(' :: (s₂.toList ++ [')'])))
  have hsecond := reads_group h₂ hlength.2 []
  rw [← htext, hlink] at hfirst
  have hstart : Clear isSpace text.toList := htext ▸ clear_cons.mpr rfl
  refine parse_of_reads hstart ?_
  rw [conditionAt, disjunction_eq, conjunction_eq]
  cases k with
  | and =>
    have hchain := reads_chain_two hfirst (clear_cons.mpr rfl) hsecond
    exact reads_chain_one hchain (refuses_connective_nil .or)
  | or =>
    -- each side is a conjunction of one part
    have hleft := reads_chain_one (k := .and) hfirst (refuses_keyword rfl)
    have hright := reads_chain_one hsecond (refuses_connective_nil .and)
    exact reads_chain_two hleft (clear_cons.mpr rfl) hright

end Grammar

open Grammar

/-- Texts that spell conditions spell the same conditions in parentheses, alone, negated and on both
sides of a connective. -/
theorem Condition.parse_parentheses {s s₁ s₂ : String} {c c₁ c₂ : Condition}
    (h : Condition.parse s = .ok c) (h₁ : Condition.parse s₁ = .ok c₁)
    (h₂ : Condition.parse s₂ = .ok c₂) :
    Condition.parse ("(" ++ s ++ ")") = .ok c ∧
    Condition.parse ("not (" ++ s ++ ")") = .ok c.negated ∧
    Condition.parse ("(" ++ s₁ ++ ") and (" ++ s₂ ++ ")") = .ok (.and c₁ c₂) ∧
    Condition.parse ("(" ++ s₁ ++ ") or (" ++ s₂ ++ ")") = .ok (.or c₁ c₂) := by
  refine ⟨?group, ?negation, ?conjunction, ?disjunction⟩
  case group =>
    have htext : ("(" ++ s ++ ")").toList = '(' :: (s.toList ++ [')']) := by simp
    have hlt : s.toList.length < ("(" ++ s ++ ")").toList.length := by simp [htext]
    have hread := reads_group h hlt []
    rw [← htext] at hread
    exact parse_of_atom (htext ▸ clear_cons.mpr rfl) hread
  case negation =>
    have htext : ("not (" ++ s ++ ")").toList =
        ['n', 'o', 't'] ++ ' ' :: '(' :: (s.toList ++ [')']) := by simp
    have hlength : ("not (" ++ s ++ ")").toList.length = s.toList.length + 5 + 1 := by simp [htext]
    have hlt : s.toList.length < s.toList.length + 5 := by omega
    have hread := reads_atom_not (clear_cons.mpr rfl) (reads_group h hlt [])
    rw [← hlength, ← htext] at hread
    exact parse_of_atom (htext ▸ clear_cons.mpr rfl) hread
  case conjunction => exact parse_of_link .and h₁ h₂ (by simp [word])
  case disjunction => exact parse_of_link .or h₁ h₂ (by simp [word])

/-- A disjunction whose text holds a parenthesis and a connective in quotes, and a condition that
ends in an array. -/
theorem Condition.parse_parentheses_quoted :
    let s := ".a is 'x) and (' or .b empty"
    let t := ".c in [null, true]"
    let a : Operand := .path [.current, .named ["a"] false] none
    let b : Operand := .path [.current, .named ["b"] false] none
    let c : Operand := .path [.current, .named ["c"] false] none
    let left : Condition := .or (.binary "is" false a (.value (.string "x) and (")))
      (.unary "empty" false b)
    let right : Condition := .binary "in" false c (.value (.array [.null, .bool true]))
    Condition.parse s = .ok left ∧ Condition.parse t = .ok right ∧
    Condition.parse ("(" ++ s ++ ")") = .ok left ∧
    Condition.parse ("not (" ++ s ++ ")") =
      .ok (.and (.binary "is" true a (.value (.string "x) and ("))) (.unary "empty" true b)) ∧
    Condition.parse ("(" ++ s ++ ") and (" ++ t ++ ")") = .ok (.and left right) ∧
    Condition.parse ("(" ++ s ++ ") or (" ++ t ++ ")") = .ok (.or left right) := by
  obtain ⟨hs, ht⟩ : Condition.parse ".a is 'x) and (' or .b empty" = .ok (.or
      (.binary "is" false (.path [.current, .named ["a"] false] none) (.value (.string "x) and (")))
      (.unary "empty" false (.path [.current, .named ["b"] false] none))) ∧
      Condition.parse ".c in [null, true]" = .ok (.binary "in" false
        (.path [.current, .named ["c"] false] none) (.value (.array [.null, .bool true]))) :=
    ⟨by cbv, by cbv⟩
  exact ⟨hs, ht, Condition.parse_parentheses hs hs ht⟩

end TreeQuery
