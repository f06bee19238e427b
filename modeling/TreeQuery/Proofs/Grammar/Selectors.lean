import TreeQuery.Grammar.Path
import TreeQuery.Proofs.Grammar.Documents
import TreeQuery.Proofs.Path.WellFormed

/-! Selectors read back. Every form of brackets is told from those tried before it by the
characters after its bracket. For the conditions inside filters it is assumed that they are read
back; that is proved of conditions, by induction on how deep they are nested. -/

namespace TreeQuery.Grammar

variable {α : Type}

/-! ### Lists -/

theorem toList_intercalate_cons (s : String) (more : List String) :
    (", ".intercalate (s :: more)).toList =
      s.toList ++ more.flatMap fun t => ',' :: ' ' :: t.toList := by
  induction more generalizing s with
  | nil => simp
  | cons t more ih =>
    rw [String.intercalate_cons_cons, String.toList_append, String.toList_append, ih,
      List.flatMap_cons, List.append_assoc]
    rfl

theorem toList_bracketed (deep : Bool) (content : String) (rest : List Char) :
    (bracketed deep content).toList ++ rest = (if deep then ['[', '['] else ['[']) ++
      (content.toList ++ ((if deep then [']', ']'] else [']']) ++ rest)) := by
  cases deep <;> simp [bracketed]

theorem clear_listed {p : Char → Bool} (hcomma : p ',' = false) (hbracket : p ']' = false)
    (more : List String) (rest : List Char) :
    Clear p ((more.flatMap fun t => ',' :: ' ' :: t.toList) ++ ']' :: rest) := by
  cases more with
  | nil => exact clear_cons.mpr hbracket
  | cons t more => exact clear_cons.mpr hcomma

section

variable {p : Parser α} {text : α → String}

theorem reads_listed {as : List α}
    (hp : ∀ a ∈ as, ∀ rest, Clear isDigit rest → Reads p ((text a).toList ++ rest) a rest)
    (hstart : ∀ a ∈ as, ∀ rest, Clear isSpace ((text a).toList ++ rest)) (rest : List Char) :
    Reads (many (do char ','; spaced p))
      (((as.map text).flatMap fun t => ',' :: ' ' :: t.toList) ++ ']' :: rest) as
      (']' :: rest) := by
  induction as with
  | nil => exact Refuses.many ((refuses_char (clear_cons.mpr rfl)).bind _)
  | cons a as ih =>
    have hmore := ih (fun b hb => hp b (List.mem_cons_of_mem a hb))
      fun b hb => hstart b (List.mem_cons_of_mem a hb)
    rw [List.map_cons, List.flatMap_cons, List.append_assoc, List.cons_append, List.cons_append]
    refine .many ((reads_char ',' _).bind ?_) ?_ hmore
    · rw [Reads, spaced_blank]
      exact (hp a (by simp) _ (clear_listed rfl rfl _ rest)).spaced_of_clear
        (hstart a (by simp) _) (clear_listed rfl rfl _ rest)
    · simp only [List.length_cons, List.length_append]
      omega

/-- A list is read back if its entries are, which neither start with a blank nor go on past a
comma or bracket. -/
theorem reads_commaList {as : List α} (hne : as ≠ [])
    (hp : ∀ a ∈ as, ∀ rest, Clear isDigit rest → Reads p ((text a).toList ++ rest) a rest)
    (hstart : ∀ a ∈ as, ∀ rest, Clear isSpace ((text a).toList ++ rest)) (rest : List Char) :
    Reads (commaList (spaced p)) ((", ".intercalate (as.map text)).toList ++ ']' :: rest) as
      (']' :: rest) := by
  obtain ⟨a, as, rfl⟩ := List.exists_cons_of_ne_nil hne
  rw [List.map_cons, toList_intercalate_cons, List.append_assoc]
  have hmore := reads_listed (fun b hb => hp b (List.mem_cons_of_mem a hb))
    (fun b hb => hstart b (List.mem_cons_of_mem a hb)) rest
  have hfirst := (hp a (by simp) _ (clear_listed rfl rfl (as.map text) rest)).spaced_of_clear
    (hstart a (by simp) _) (clear_listed rfl rfl _ rest)
  exact hfirst.bind (hmore.bind (reads_pure _ _))

end

/-- The quotes that a name in brackets can start with. -/
def isQuote (c : Char) : Bool := c == '\'' || c == '"'

theorem refuses_documentText {cs : List Char} (h : Clear (· == '"') cs) :
    Refuses documentText cs := by
  refine ⟨⟨cs, .mark, false⟩, ?_, rfl⟩
  cases cs with
  | nil => rfl
  | cons c cs =>
    have hc : c ≠ '"' := beq_eq_false_iff_ne.mp h
    simp [documentText, hc]

theorem refuses_quotedText {cs : List Char} (h : Clear isQuote cs) : Refuses quotedText cs := by
  have hsingle : Clear (· == '\'') cs := h.mono fun c hc => by simp [isQuote, hc]
  have hdouble : Clear (· == '"') cs := h.mono fun c hc => by simp [isQuote, hc]
  exact ((refuses_char hsingle).bind _).or (refuses_documentText hdouble)

theorem refuses_nameList {cs : List Char} (h : Clear isQuote (cs.dropWhile isSpace)) :
    Refuses nameList cs :=
  (refuses_quotedText h).spaced.bind _

theorem reads_nameList {names : List String} (hne : names ≠ []) (rest : List Char) :
    Reads nameList ((TreeQuery.nameList names).toList ++ ']' :: rest) names (']' :: rest) := by
  refine reads_commaList hne (fun s _ rest _ => reads_quotedText s rest) (fun s _ rest => ?_) rest
  rw [Text.toList_document]
  exact clear_cons.mpr rfl

theorem clear_isSpace_toString (i : Int) (rest : List Char) :
    Clear isSpace ((toString i).toList ++ rest) := by
  obtain ⟨c, cs, htext, hc⟩ := toString_int_start i
  rw [htext]
  exact clear_isSpace_of_holds (p := fun c => isDigit c || c == '-') hc rfl _

theorem reads_positionList {positions : List Int} (hne : positions ≠ [])
    (hfits : ∀ i ∈ positions, Json.fitsSigned i = true) (rest : List Char) :
    Reads positionList ((", ".intercalate (positions.map toString)).toList ++ ']' :: rest) positions
      (']' :: rest) :=
  reads_commaList hne (fun i hi _ hrest => reads_integer (hfits i hi) hrest)
    (fun i _ rest => clear_isSpace_toString i rest) rest

/-! ### Slices -/

theorem reads_bound {o : Option Int} (ho : ∀ i ∈ o, Json.fitsSigned i = true) {rest : List Char}
    (hspace : Clear isSpace rest)
    (hrest : Clear (fun c => isDigit c || c == '-' || c == '+') rest) :
    Reads (optional (spaced integer)) ((optionText o).toList ++ rest) o rest := by
  cases o with
  | none =>
    refine Refuses.optional (Refuses.spaced ?_)
    rw [show (optionText none).toList ++ rest = rest from rfl, (takeWhile_of_clear hspace).2]
    exact refuses_integer hrest
  | some i =>
    have hdigit : Clear isDigit rest := hrest.mono fun c hc => by simp [hc]
    exact ((reads_integer (ho i rfl) hdigit).spaced_of_clear (clear_isSpace_toString i rest)
      hspace).optional

theorem reads_slice {start stop step : Option Int}
    (hstart : ∀ i ∈ start, Json.fitsSigned i = true) (hstop : ∀ i ∈ stop, Json.fitsSigned i = true)
    (hstep : ∀ i ∈ step, Json.fitsSigned i = true) (rest : List Char) :
    Reads slice ((optionText start).toList ++ ':' :: ((optionText stop).toList ++
      (((step.map fun n => ":" ++ toString n).getD "").toList ++ ']' :: rest)))
      (.slice start stop step) (']' :: rest) := by
  have hend : Clear isSpace (']' :: rest) ∧
      Clear (fun c => isDigit c || c == '-' || c == '+') (']' :: rest) :=
    ⟨clear_cons.mpr rfl, clear_cons.mpr rfl⟩
  refine (reads_bound hstart (clear_cons.mpr rfl) (clear_cons.mpr rfl)).bind
    ((reads_char ':' _).bind ?_)
  cases step with
  | none =>
    have hcolon : Refuses (char ':') (']' :: rest) := refuses_char (clear_cons.mpr rfl)
    have hnone := hcolon.bind fun _ => optional (spaced integer)
    exact (reads_bound hstop hend.1 hend.2).bind (hnone.optional.bind (reads_pure _ _))
  | some n =>
    have hsome := reads_bound (o := some n) hstep hend.1 hend.2
    have htext :
        ((Option.map (fun n => ":" ++ toString n) (some n)).getD "").toList ++ ']' :: rest =
          ':' :: ((optionText (some n)).toList ++ ']' :: rest) := by
      simp [optionText]
    rw [htext]
    exact (reads_bound hstop (clear_cons.mpr rfl) (clear_cons.mpr rfl)).bind
      (((reads_char ':' _).bind hsome).optional.bind (reads_pure _ _))

/-! ### Scopes -/

theorem reads_scope_root {index : Nat} (hindex : Json.fitsUnsigned index = true)
    {rest : List Char} (hrest : Clear isDigit rest) :
    Reads scope ((Selector.root index).display.toList ++ rest) (.root index) rest := by
  refine Reads.first ?_
  cases index with
  | zero =>
    exact (reads_char '$' rest).bind ((reads_scopeIndex_none hrest).bind (reads_pure _ rest))
  | succ n =>
    rw [Selector.display, String.toList_append, List.append_assoc]
    · exact (reads_char '$' _).bind ((reads_scopeIndex hindex hrest).bind (reads_pure _ rest))
    · exact Nat.succ_ne_zero n

theorem reads_scope_relative {index : Nat} (hindex : Json.fitsUnsigned index = true)
    {rest : List Char} (hrest : Clear isDigit rest) (hcaret : Clear (· == '^') rest) :
    Reads scope ((Selector.relative index).display.toList ++ rest) (.relative index) rest := by
  have hat {cs : List Char} {o : Option Nat} (h : Reads scopeIndex cs o rest) :
      Reads scope ('@' :: cs) (.relative (o.getD 0)) rest := by
    refine .later ((refuses_char (clear_cons.mpr rfl)).bind _) (Reads.first ?_)
    exact (reads_char '@' cs).bind (h.bind (reads_pure _ rest))
  match index with
  | 0 => exact hat (reads_scopeIndex_none hrest)
  | 1 =>
    refine .later ((refuses_char (clear_cons.mpr rfl)).bind _)
      (.later ((refuses_char (clear_cons.mpr rfl)).bind _) (Reads.first ?_))
    exact (reads_run1 .scope (List.cons_ne_nil '^' []) (by simp) hcaret).bind (reads_pure _ rest)
  | n + 2 =>
    rw [Selector.display, String.toList_append, List.append_assoc]
    · exact hat (reads_scopeIndex hindex hrest)
    · exact Nat.succ_ne_zero _
    · simp

/-! ### Selectors -/

/-- Brackets around names, a slice or positions, the last alternatives for a selector. -/
def contentSelector : Parser Selector :=
  oneOf [
    do return .named (← between ['['] nameList [']']) false,
    between ['['] slice [']'],
    do return .elements (← between ['['] positionList [']'])]

section

variable {q : Parser Condition}

theorem refuses_bracketSelector {cs : List Char} (h : Clear (· == '[') cs) :
    Refuses (bracketSelector q) cs := by
  have htag := fun word => refuses_tag_of_clear h word
  exact .or (((htag _).bind _).bind _) (.or (((htag _).bind _).bind _) (.or ((htag _).bind _)
    (.or ((htag _).bind _) (.or (((htag _).bind _).bind _) (.or (((htag _).bind _).bind _)
      (.or ((htag _).bind _) (((htag _).bind _).bind _)))))))

/-- Nothing but a dot or a bracket starts a selector. -/
theorem refuses_selector {cs : List Char} (h : Clear (fun c => c == '.' || c == '[') cs) :
    Refuses (selector q) cs := by
  have hdot : Clear (· == '.') cs := h.mono fun c hc => by simp [hc]
  have hbracket : Clear (· == '[') cs := h.mono fun c hc => by simp [hc]
  exact .or ((refuses_tag_of_clear hdot _).bind _)
    (.or ((refuses_char hdot).bind _) (refuses_bracketSelector hbracket))

theorem selector_of_bracket (cs : List Char) :
    selector q ('[' :: cs) = bracketSelector q ('[' :: cs) := by
  have hdeep : Refuses (deepSelector q) ('[' :: cs) := (refuses_tag rfl).bind _
  have hdot : Refuses dotSelector ('[' :: cs) := (refuses_char (clear_cons.mpr rfl)).bind _
  exact hdeep.oneOf_eq.trans hdot.oneOf_eq

theorem reads_selector_of_bracket {cs rest : List Char} {s : Selector}
    (h : Reads (bracketSelector q) ('[' :: cs) s rest) : Reads (selector q) ('[' :: cs) s rest := by
  rwa [Reads, selector_of_bracket]

/-- Brackets around anything else than brackets, stars and conditions. -/
theorem selector_of_plain {c : Char} (hc : c ∉ ['[', '*', '?']) (cs : List Char) :
    selector q ('[' :: c :: cs) = contentSelector ('[' :: c :: cs) := by
  simp only [List.mem_cons, List.not_mem_nil, or_false, not_or] at hc
  have htag : ∀ (d : Char) (word : List Char), c ≠ d →
      ('[' :: d :: word).isPrefixOf ('[' :: c :: cs) = false := by
    intro d word hd
    simp [List.isPrefixOf, hd.symm]
  rw [selector_of_bracket]
  refine Refuses.oneOf_eq ((refuses_between _ _ (htag '[' _ hc.1)).bind _) |>.trans ?_
  refine Refuses.oneOf_eq ((refuses_between _ _ (htag '[' _ hc.1)).bind _) |>.trans ?_
  refine Refuses.oneOf_eq ((refuses_tag (htag '*' _ hc.2.1)).bind _) |>.trans ?_
  refine Refuses.oneOf_eq ((refuses_tag (htag '*' _ hc.2.1)).bind _) |>.trans ?_
  exact Refuses.oneOf_eq ((refuses_between _ _ (htag '?' _ hc.2.2)).bind _)

theorem reads_selector_of_plain {c : Char} (hc : c ∉ ['[', '*', '?']) {cs rest : List Char}
    {s : Selector} (h : Reads contentSelector ('[' :: c :: cs) s rest) :
    Reads (selector q) ('[' :: c :: cs) s rest := by
  rwa [Reads, selector_of_plain hc]

theorem reads_identifier_selector {name : String} (h : isIdentifier name = true) (deep : Bool)
    {rest : List Char} (hrest : Clear isNamePart rest) :
    Reads (selector q) ((if deep then ['.', '.'] else ['.']) ++ (name.toList ++ rest))
      (.named [name] deep) rest := by
  obtain ⟨c, cs, hname, hc, -⟩ := isNamePart_of_mem h
  have hstar : Refuses (char '*') (name.toList ++ rest) := by
    rw [hname]
    exact refuses_char (clear_cons.mpr (beq_eq_false_iff_ne.mpr (ne_of_holds hc rfl)))
  have hread : Reads (do return Selector.named [← identifier] deep) (name.toList ++ rest)
      (.named [name] deep) rest := (reads_identifier h hrest).bind (reads_pure _ rest)
  cases deep with
  | true =>
    refine Reads.first ((reads_tag ['.', '.'] _).bind ?_)
    refine .later (hstar.bind _) (.later ((refuses_between _ _ ?_).bind _) hread.first)
    have hbracket : c ≠ '[' := ne_of_holds hc rfl
    simp [hname, List.isPrefixOf, hbracket.symm]
  | false =>
    have hdot : c ≠ '.' := ne_of_holds hc rfl
    refine .later ((refuses_tag ?_).bind _) (Reads.first ((reads_char '.' _).bind ?_))
    · simp [hname, List.isPrefixOf, hdot.symm]
    · exact .later (hstar.bind _) hread.first

theorem reads_bracketed_names {names : List String} (hne : names ≠ []) (deep : Bool)
    (rest : List Char) :
    Reads (selector q) ((bracketed deep (TreeQuery.nameList names)).toList ++ rest)
      (.named names deep) rest := by
  obtain ⟨cs, hcs⟩ : ∃ cs, (TreeQuery.nameList names).toList = '"' :: cs := by
    obtain ⟨name, more, rfl⟩ := List.exists_cons_of_ne_nil hne
    rw [TreeQuery.nameList, List.map_cons, toList_intercalate_cons, Text.toList_document]
    exact ⟨_, rfl⟩
  rw [toList_bracketed]
  cases deep with
  | true =>
    have hread : Reads (between ['[', '['] TreeQuery.Grammar.nameList [']', ']']) _ names rest :=
      (reads_nameList hne (']' :: rest)).between
    refine reads_selector_of_bracket (.later ((refuses_between _ _ ?_).bind _) (Reads.first ?_))
    · simp [hcs, List.isPrefixOf]
    · exact hread.bind (reads_pure _ rest)
  | false =>
    have hread : Reads (between ['['] TreeQuery.Grammar.nameList [']']) _ names rest :=
      (reads_nameList hne rest).between
    rw [hcs] at hread ⊢
    refine reads_selector_of_plain (by decide) (Reads.first ?_)
    exact hread.bind (reads_pure _ rest)

theorem reads_named {names : List String} (hne : names ≠ []) (deep : Bool) {rest : List Char}
    (hrest : Clear isNamePart rest) :
    Reads (selector q) ((Selector.named names deep).display.toList ++ rest) (.named names deep)
      rest := by
  have hbracketed := reads_bracketed_names (q := q) hne deep rest
  match names with
  | [] => exact absurd rfl hne
  | [name] =>
    rw [Selector.display]
    by_cases h : isIdentifier name = true
    · have hread := reads_identifier_selector (q := q) h deep hrest
      rw [if_pos h]
      cases deep <;> simpa using hread
    · rwa [if_neg h]
  | name :: other :: more => exact hbracketed

/-- Brackets around whole numbers, or around the colon of a slice. -/
theorem reads_selector_of_number {c : Char} (hc : (isDigit c || c == '-' || c == ':') = true)
    {cs rest : List Char} {s : Selector} (h : Reads (oneOf [
      between ['['] slice [']'],
      do return .elements (← between ['['] positionList [']'])]) ('[' :: c :: cs) s rest) :
    Reads (selector q) ('[' :: c :: cs) s rest := by
  have hne : ∀ d, (isDigit d || d == '-' || d == ':') = false → c ≠ d :=
    fun d hd => ne_of_holds (p := fun d => isDigit d || d == '-' || d == ':') hc hd
  have hspace : Clear isSpace (c :: cs) :=
    clear_isSpace_of_holds (p := fun c => isDigit c || c == '-' || c == ':') hc rfl cs
  have hnames : Refuses nameList (c :: cs) := by
    refine refuses_nameList ?_
    rw [(takeWhile_of_clear hspace).2, clear_cons]
    simp [isQuote, hne '\'' rfl, hne '"' rfl]
  refine reads_selector_of_plain ?_ (.later ?_ h)
  · simp only [List.mem_cons, List.not_mem_nil, or_false, not_or]
    exact ⟨hne '[' rfl, hne '*' rfl, hne '?' rfl⟩
  · exact ((reads_tag ['['] (c :: cs)).bind_refuses (hnames.bind _)).bind _

theorem reads_slice_selector {start stop step : Option Int}
    (hstart : ∀ i ∈ start, Json.fitsSigned i = true) (hstop : ∀ i ∈ stop, Json.fitsSigned i = true)
    (hstep : ∀ i ∈ step, Json.fitsSigned i = true) (rest : List Char) :
    Reads (selector q) ((Selector.slice start stop step).display.toList ++ rest)
      (.slice start stop step) rest := by
  have hread : Reads (between ['['] slice [']']) _ (.slice start stop step) rest :=
    (reads_slice hstart hstop hstep rest).between
  obtain ⟨c, cs, htext, hc⟩ : ∃ c cs, (optionText start).toList ++ ':' ::
      ((optionText stop).toList ++
        (((step.map fun n => ":" ++ toString n).getD "").toList ++ ']' :: rest)) = c :: cs ∧
      (isDigit c || c == '-' || c == ':') = true := by
    cases start with
    | none => exact ⟨':', _, rfl, rfl⟩
    | some i =>
      obtain ⟨c, cs, htext, hc⟩ := toString_int_start i
      rw [show (optionText (some i)).toList = c :: cs from htext]
      exact ⟨c, _, rfl, by simp [hc]⟩
  have hdisplay : (Selector.slice start stop step).display.toList ++ rest = '[' :: c :: cs := by
    rw [← htext]
    simp [Selector.display]
  rw [htext] at hread
  rw [hdisplay]
  exact reads_selector_of_number hc (Reads.first hread)

theorem reads_elements {positions : List Int} (hne : positions ≠ [])
    (hfits : ∀ i ∈ positions, Json.fitsSigned i = true) (rest : List Char) :
    Reads (selector q) ((Selector.elements positions).display.toList ++ rest)
      (.elements positions) rest := by
  have hread : Reads (between ['['] positionList [']']) _ positions rest :=
    (reads_positionList hne hfits rest).between
  obtain ⟨i, more, rfl⟩ := List.exists_cons_of_ne_nil hne
  obtain ⟨c, cs, htext, hc⟩ := toString_int_start i
  -- a slice would need a colon where the list has a comma or its end
  have hslice : Refuses slice
      ((", ".intercalate ((i :: more).map toString)).toList ++ ']' :: rest) := by
    rw [List.map_cons, toList_intercalate_cons, List.append_assoc]
    refine (reads_bound (o := some i) (fun j hj => ?_) (clear_listed rfl rfl _ rest)
      (clear_listed rfl rfl _ rest)).bind_refuses ((refuses_char ?_).bind _)
    · cases hj
      exact hfits i (by simp)
    · exact clear_listed rfl rfl _ rest
  have hdisplay : (Selector.elements (i :: more)).display.toList ++ rest =
      ['['] ++ ((", ".intercalate ((i :: more).map toString)).toList ++ ']' :: rest) := by
    simp [Selector.display]
  have hlast : Reads (oneOf [between ['['] slice [']'],
      do return .elements (← between ['['] positionList [']'])])
      (['['] ++ ((", ".intercalate ((i :: more).map toString)).toList ++ ']' :: rest))
      (.elements (i :: more)) rest :=
    .later ((reads_tag ['['] _).bind_refuses (hslice.bind _))
      (Reads.first (hread.bind (reads_pure _ rest)))
  rw [hdisplay]
  rw [List.map_cons, toList_intercalate_cons, htext] at hlast ⊢
  exact reads_selector_of_number (by simp [hc]) hlast

theorem reads_all (deep : Bool) (rest : List Char) :
    Reads (selector q) ((Selector.all deep).display.toList ++ rest) (.all deep) rest := by
  cases deep with
  | true =>
    refine reads_selector_of_bracket ?_
    refine .later ((refuses_between _ _ rfl).bind _) (.later ((refuses_between _ _ rfl).bind _) ?_)
    exact Reads.first ((reads_tag ['[', '*', '*', ']'] rest).bind (reads_pure _ rest))
  | false =>
    refine reads_selector_of_bracket ?_
    refine .later ((refuses_between _ _ rfl).bind _) (.later ((refuses_between _ _ rfl).bind _) ?_)
    refine .later ((refuses_tag rfl).bind _) ?_
    exact Reads.first ((reads_tag ['[', '*', ']'] rest).bind (reads_pure _ rest))

end

/-! ### Filters and paths -/

/-- What can follow a condition: nothing, or a closing mark. -/
abbrev Closes : List Char → Prop := EndsIn [')', ']']

/-- In front of anything that satisfies `follows`, `p` reads the text as a condition equal to `c`,
and passes over the blanks behind it. The text does not start with a blank. -/
def ReadsAs (follows : List Char → Prop) (p : Parser Condition) (text : List Char)
    (c : Condition) : Prop :=
  ∀ tail, follows tail → Clear isSpace (text ++ tail) ∧
    ∃ c', Reads p (text ++ tail) c' (tail.dropWhile isSpace) ∧ c'.equal c = true

/-- The parser reads the conditions of the filters in a path. -/
def ReadsFilters (q : Parser Condition) (p : List Selector) : Prop :=
  ∀ c deep, .filter c deep ∈ p → ReadsAs Closes q c.display.toList c.regrouped

section

variable {literal : Value → Prop} {q : Parser Condition}

theorem reads_filter {c : Condition} (hc : ReadsAs Closes q c.display.toList c.regrouped)
    (deep : Bool) (rest : List Char) :
    ∃ c', Reads (selector q) ((Selector.filter c deep).display.toList ++ rest) (.filter c' deep)
      rest ∧ c'.equal c.regrouped = true := by
  have hspaced : ∀ tail, ∃ c', Reads (spaced q) (' ' :: (c.display.toList ++ ']' :: tail)) c'
      (']' :: tail) ∧ c'.equal c.regrouped = true := by
    intro tail
    obtain ⟨hstart, c', hread, heq⟩ := hc (']' :: tail) (endsIn_cons (by decide) tail)
    refine ⟨c', ?_, heq⟩
    rw [Reads, spaced_blank]
    exact hread.spaced_of_clear hstart (clear_cons.mpr rfl)
  cases deep with
  | true =>
    obtain ⟨c', hread, heq⟩ := hspaced (']' :: rest)
    have hbetween : Reads (between ['[', '[', '?'] (spaced q) [']', ']']) _ c' rest := hread.between
    refine ⟨c', ?_, heq⟩
    have hdisplay : (Selector.filter c true).display.toList ++ rest =
        ['[', '[', '?'] ++ ' ' :: (c.display.toList ++ ']' :: ']' :: rest) := by
      simp [Selector.display, bracketed]
    rw [hdisplay]
    exact reads_selector_of_bracket (Reads.first (hbetween.bind (reads_pure _ rest)))
  | false =>
    obtain ⟨c', hread, heq⟩ := hspaced rest
    have hbetween : Reads (filterBody q) _ c' rest := hread.between
    refine ⟨c', ?_, heq⟩
    have hdisplay : (Selector.filter c false).display.toList ++ rest =
        ['[', '?'] ++ ' ' :: (c.display.toList ++ ']' :: rest) := by
      simp [Selector.display, bracketed]
    rw [hdisplay]
    refine reads_selector_of_bracket ?_
    refine .later ((refuses_between _ _ rfl).bind _) (.later ((refuses_between _ _ rfl).bind _) ?_)
    refine .later ((refuses_tag rfl).bind _) (.later ((refuses_tag rfl).bind _) ?_)
    exact Reads.first (hbetween.bind (reads_pure _ rest))

/-- A selector is read back, up to the grouping in its condition. -/
theorem reads_selector {s : Selector} (hs : s.WellFormed literal) (hq : ReadsFilters q [s])
    {rest : List Char} (hrest : Clear isNamePart rest) :
    ∃ s', Reads (selector q) (s.display.toList ++ rest) s' rest ∧ s'.equal s.regrouped = true := by
  cases s with
  | root index => exact hs.elim
  | relative index => exact hs.elim
  | named names deep =>
    exact ⟨.named names deep, reads_named hs deep hrest,
      by simp [Selector.regrouped, Selector.equal]⟩
  | elements positions =>
    exact ⟨.elements positions, reads_elements hs.1 hs.2 rest,
      by simp [Selector.regrouped, Selector.equal]⟩
  | slice start stop step =>
    exact ⟨.slice start stop step, reads_slice_selector hs.1 hs.2.1 hs.2.2 rest,
      by simp [Selector.regrouped, Selector.equal]⟩
  | all deep => exact ⟨.all deep, reads_all deep rest, by simp [Selector.regrouped, Selector.equal]⟩
  | filter c deep =>
    obtain ⟨c', hread, heq⟩ := reads_filter (hq c deep (by simp)) deep rest
    exact ⟨.filter c' deep, hread, by simp [Selector.regrouped, Selector.equal, heq]⟩

/-- Every selector but a scope starts with a dot or a bracket. -/
theorem display_start {s : Selector} (hs : s.WellFormed literal) :
    StartsIn ['.', '['] s.display.toList := by
  have hbracketed : ∀ deep content, StartsIn ['.', '['] (bracketed deep content).toList := by
    intro deep content
    rw [← List.append_nil (bracketed deep content).toList, toList_bracketed]
    cases deep <;> exact ⟨'[', by decide, _, rfl⟩
  cases s with
  | root index => exact hs.elim
  | relative index => exact hs.elim
  | named names deep =>
    match names with
    | [] => exact absurd rfl hs
    | [name] =>
      rw [Selector.display]
      split
      · cases deep <;> exact ⟨'.', by decide, _, String.toList_append⟩
      · exact hbracketed deep _
    | name :: other :: more => exact hbracketed deep _
  | elements positions =>
    rw [Selector.display, String.toList_append, String.toList_append]
    exact ⟨'[', by decide, _, rfl⟩
  | slice start stop step =>
    simp only [Selector.display, String.toList_append]
    exact ⟨'[', by decide, _, rfl⟩
  | all deep => cases deep <;> exact ⟨'[', by decide, _, rfl⟩
  | filter c deep => exact hbracketed deep _

theorem clear_displayAll {f : Char → Bool} (hf : ['.', '['].any f = false)
    {p : List Selector} (hp : Selector.WellFormedAll literal p) {rest : List Char}
    (hrest : Clear f rest) : Clear f ((Selector.displayAll p).toList ++ rest) := by
  cases p with
  | nil => exact hrest
  | cons s p =>
    rw [Selector.displayAll, String.toList_append, List.append_assoc]
    exact (display_start hp.1).clear hf _

theorem reads_selectors {p : List Selector} (hp : Selector.WellFormedAll literal p)
    (hq : ReadsFilters q p) {rest : List Char} (hrest : Stops rest) :
    ∃ p', Reads (many (selector q)) ((Selector.displayAll p).toList ++ rest) p' rest ∧
      Selector.equalLists p' (Selector.regroupedAll p) = true := by
  induction p with
  | nil =>
    refine ⟨[], Refuses.many (refuses_selector (hrest.clear rfl)), ?_⟩
    rw [Selector.regroupedAll, Selector.equalLists]
  | cons s p ih =>
    obtain ⟨s', hs, heq⟩ := reads_selector hp.1
      (fun c deep h => hq c deep (by rw [List.mem_singleton.mp h]; simp))
      (clear_displayAll rfl hp.2 (hrest.clear rfl))
    obtain ⟨p', hmore, heqs⟩ := ih hp.2 fun c deep h => hq c deep (List.mem_cons_of_mem s h)
    obtain ⟨c, -, cs, htext⟩ := display_start hp.1
    refine ⟨s' :: p', ?_, by simp [Selector.regroupedAll, Selector.equalLists, heq, heqs]⟩
    rw [Selector.displayAll, String.toList_append, List.append_assoc]
    refine .many hs ?_ hmore
    simp only [htext, List.length_append, List.length_cons]
    omega

theorem reads_path_of_scope {s : Selector} {more : List Selector}
    (hscope : ∀ rest, Clear isDigit rest → Clear (· == '^') rest →
      Reads scope (s.display.toList ++ rest) s rest) (hs : s.equal s.regrouped = true)
    (hmore : Selector.WellFormedAll literal more) (hq : ReadsFilters q more)
    {rest : List Char} (hrest : Stops rest) :
    ∃ p', Reads (path q) ((Path.display (s :: more)).toList ++ rest) p' rest ∧
      Path.equal p' (Path.regrouped (s :: more)) = true := by
  obtain ⟨p', hread, heq⟩ := reads_selectors hmore hq hrest
  have hdigit := clear_displayAll (f := isDigit) rfl hmore (hrest.clear rfl)
  have hcaret := clear_displayAll (f := (· == '^')) rfl hmore (hrest.clear rfl)
  refine ⟨s :: p', ?_, ?_⟩
  · rw [Path.display, Selector.displayAll, String.toList_append, List.append_assoc]
    exact (hscope _ hdigit hcaret).bind (hread.bind (reads_pure _ rest))
  · rw [Path.equal, Path.regrouped, Selector.regroupedAll, Selector.equalLists, hs, heq]
    rfl

/-- A path is read back, up to the grouping in its filters. -/
theorem reads_path {p : Path} (hp : p.WellFormed literal) (hq : ReadsFilters q p)
    {rest : List Char} (hrest : Stops rest) :
    ∃ p', Reads (path q) (p.display.toList ++ rest) p' rest ∧ p'.equal p.regrouped = true := by
  cases p with
  | nil => exact False.elim hp
  | cons s more =>
    have hmore : ReadsFilters q more := fun c deep h => hq c deep (List.mem_cons_of_mem s h)
    cases s with
    | root index =>
      exact reads_path_of_scope (fun _ hdigit _ => reads_scope_root hp.1 hdigit)
        (by simp [Selector.regrouped, Selector.equal]) hp.2 hmore hrest
    | relative index =>
      exact reads_path_of_scope (fun _ hdigit hcaret => reads_scope_relative hp.1 hdigit hcaret)
        (by simp [Selector.regrouped, Selector.equal]) hp.2 hmore hrest
    | _ => exact False.elim hp

end

end TreeQuery.Grammar
