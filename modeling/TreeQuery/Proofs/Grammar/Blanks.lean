import TreeQuery.Proofs.Grammar.Carried
import TreeQuery.Proofs.Grammar.Conditions

/-! Blanks around the parts of a slice. Blanks are passed over together with the number that they
stand around. Where a part is left out there is no number to pass them over with, so they are left
in front of the colon or bracket that should come next: the brackets are then no slice, nor anything
else, and the path ends before them. -/

namespace TreeQuery

namespace Grammar

/-- A part of a slice with blanks around its place. The number, which is within 64 signed bits, may
be left out. -/
structure Part where
  before : List Char
  bound : Option Int
  after : List Char
  isSpace_before : ∀ c ∈ before, isSpace c = true
  isSpace_after : ∀ c ∈ after, isSpace c = true
  fits : ∀ i ∈ bound, Json.fitsSigned i = true

namespace Part

def text (p : Part) : List Char := p.before ++ ((optionText p.bound).toList ++ p.after)

/-- No blanks stand where the number is left out. -/
def tight (p : Part) : Bool := p.bound.isSome || (p.before ++ p.after).isEmpty

/-- The part without its blanks. -/
def bare (p : Part) : Part := ⟨[], p.bound, [], by simp, by simp, p.fits⟩

theorem tight_bare (p : Part) : p.bare.tight = true := by
  simp [tight, bare]

variable {p : Part} {rest : List Char}

/-! ### One part -/

/-- Behind blanks, a part starts with its number, if it has one, and else with what follows it. -/
theorem dropWhile_text (hspace : Clear isSpace rest) :
    (p.text ++ rest).dropWhile isSpace =
      p.bound.elim rest fun i => (toString i).toList ++ (p.after ++ rest) := by
  rw [text, List.append_assoc, List.append_assoc, List.dropWhile_append_of_pos p.isSpace_before]
  cases p.bound with
  | none =>
    change (p.after ++ rest).dropWhile isSpace = rest
    rw [List.dropWhile_append_of_pos p.isSpace_after, (takeWhile_of_clear hspace).2]
  | some i => exact (takeWhile_of_clear (clear_isSpace_toString i _)).2

/-- What can start neither a number nor what follows the part cannot start the part. -/
theorem clear_dropWhile_text {f : Char → Bool} (hspace : Clear isSpace rest)
    (hf : ∀ c, f c = true → (isDigit c || c == '-') = false) (hrest : Clear f rest) :
    Clear f ((p.text ++ rest).dropWhile isSpace) := by
  rw [dropWhile_text hspace]
  cases p.bound with
  | none => exact hrest
  | some i =>
    obtain ⟨c, cs, htext, hc⟩ := toString_int_start i
    rw [Option.elim_some, htext]
    refine clear_cons.mpr (Bool.eq_false_iff.mpr fun hfc => ?_)
    rw [hf c hfc] at hc
    cases hc

theorem reads_number {i : Int} (hp : p.bound = some i) (hspace : Clear isSpace rest)
    (hdigit : Clear isDigit rest) : Reads (spaced integer) (p.text ++ rest) i rest := by
  have hafter : Clear isDigit (p.after ++ rest) := by
    cases hblanks : p.after with
    | nil => exact hdigit
    | cons c cs =>
      refine clear_cons.mpr (Bool.eq_false_iff.mpr fun hc => ?_)
      have hc' := clear_isSpace_of_holds (p := isDigit) hc rfl cs
      rw [clear_cons, p.isSpace_after c (by simp [hblanks])] at hc'
      cases hc'
  have hread : Reads integer ((p.text ++ rest).dropWhile isSpace) i (p.after ++ rest) := by
    rw [dropWhile_text hspace, hp]
    exact reads_integer (p.fits i hp) hafter
  refine hread.spaced ?_
  rw [List.dropWhile_append_of_pos p.isSpace_after, (takeWhile_of_clear hspace).2]

/-- What can follow a part of a slice. -/
abbrev Ends : List Char → Prop := EndsIn [':', ']']

theorem reads_of_tight (hp : p.tight = true) (hrest : Ends rest) :
    Reads (optional (spaced integer)) (p.text ++ rest) p.bound rest := by
  cases hbound : p.bound with
  | none =>
    have htext : p.text = [] := by simpa [tight, text, optionText, hbound] using hp
    have hfits : ∀ i ∈ (none : Option Int), Json.fitsSigned i = true := hbound ▸ p.fits
    rw [htext]
    exact reads_bound hfits (hrest.clear rfl) (hrest.clear rfl)
  | some i => exact (reads_number hbound (hrest.clear rfl) (hrest.clear rfl)).optional

/-- Blanks without a number are left where they are. -/
theorem reads_of_loose (hp : p.tight = false) (hrest : Ends rest) :
    Reads (optional (spaced integer)) (p.text ++ rest) none (p.text ++ rest) := by
  have hbound : p.bound = none := by
    cases hbound : p.bound with
    | none => rfl
    | some i => simp [tight, hbound] at hp
  refine Refuses.optional (Refuses.spaced ?_)
  rw [dropWhile_text (hrest.clear rfl), hbound]
  exact refuses_integer (hrest.clear rfl)

/-- The text of such a part starts with a blank. -/
theorem clear_of_loose (hp : p.tight = false) {f : Char → Bool}
    (hf : [' ', '\t', '\r', '\n'].any f = false) (rest : List Char) : Clear f (p.text ++ rest) := by
  simp only [tight, Bool.or_eq_false_iff, Option.isSome_eq_false_iff, Option.isNone_iff_eq_none]
    at hp
  have htext : p.text = p.before ++ p.after := by simp [text, optionText, hp.1]
  obtain ⟨c, cs, hcs⟩ : ∃ c cs, p.before ++ p.after = c :: cs :=
    List.exists_cons_of_ne_nil (by simpa using hp.2)
  have hc : isSpace c = true := by
    rcases List.mem_append.mp (hcs ▸ List.mem_cons_self (a := c) (l := cs)) with h | h
    · exact p.isSpace_before c h
    · exact p.isSpace_after c h
  have hmem : c ∈ [' ', '\t', '\r', '\n'] := by simpa [isSpace, or_assoc] using hc
  rw [htext, hcs]
  exact clear_cons.mpr (Bool.eq_false_iff.mpr (List.any_eq_false.mp hf c hmem))

end Part

/-! ### Slices -/

/-- The last part comes with the second colon. -/
def stepText (step : Option Part) : List Char := step.elim [] fun p => ':' :: p.text

/-- What is between the brackets of a slice. -/
def sliceText (start stop : Part) (step : Option Part) : List Char :=
  start.text ++ ':' :: (stop.text ++ stepText step)

section

variable {start stop : Part} {step : Option Part}

/-- No blanks stand where a number is left out. -/
def tightSlice (start stop : Part) (step : Option Part) : Bool :=
  start.tight && stop.tight && step.all Part.tight

theorem ends_colon (rest : List Char) : Part.Ends (':' :: rest) := endsIn_cons (by decide) rest

theorem ends_bracket (rest : List Char) : Part.Ends (']' :: rest) := endsIn_cons (by decide) rest

theorem ends_step (step : Option Part) (rest : List Char) :
    Part.Ends (stepText step ++ ']' :: rest) := by
  cases step with
  | none => exact ends_bracket rest
  | some p => exact ends_colon _

theorem toList_sliceText (rest : List Char) : sliceText start stop step ++ rest =
    start.text ++ ':' :: (stop.text ++ (stepText step ++ rest)) := by
  simp [sliceText]

theorem reads_slice_of_tight (h : tightSlice start stop step = true) (rest : List Char) :
    Reads slice (sliceText start stop step ++ ']' :: rest)
      (.slice start.bound stop.bound (step.bind Part.bound)) (']' :: rest) := by
  simp only [tightSlice, Bool.and_eq_true] at h
  obtain ⟨⟨hstart, hstop⟩, hstep⟩ := h
  rw [toList_sliceText]
  refine (Part.reads_of_tight hstart (ends_colon _)).bind ((reads_char ':' _).bind
    ((Part.reads_of_tight hstop (ends_step step rest)).bind ?_))
  cases step with
  | none =>
    have hcolon : Refuses (char ':') (']' :: rest) := refuses_char (clear_cons.mpr rfl)
    have hnone := hcolon.bind fun _ => optional (spaced integer)
    exact hnone.optional.bind (reads_pure _ _)
  | some p =>
    have hpart := Part.reads_of_tight (p := p) hstep (ends_bracket rest)
    exact ((reads_char ':' _).bind hpart).optional.bind (reads_pure _ _)

/-- The blanks of a part left out are met where a colon or the closing bracket should be. -/
theorem refuses_slice_of_loose (h : tightSlice start stop step = false) (rest : List Char) :
    Refuses (between ['['] slice [']']) ('[' :: (sliceText start stop step ++ ']' :: rest)) := by
  suffices hclosed : Refuses (do let s ← slice; tag [']']; return s)
      (sliceText start stop step ++ ']' :: rest) from (reads_tag ['['] _).bind_refuses hclosed
  rw [toList_sliceText]
  cases hstart : start.tight with
  | false =>
    refine Refuses.bind _ ((Part.reads_of_loose hstart (ends_colon _)).bind_refuses ?_)
    exact (refuses_char (Part.clear_of_loose hstart rfl _)).bind _
  | true =>
    have hfirst := Part.reads_of_tight hstart
      (ends_colon (stop.text ++ (stepText step ++ ']' :: rest)))
    have hstop := ends_step step rest
    cases htight : stop.tight with
    | false =>
      have hcolon : Refuses (do char ':'; optional (spaced integer))
          (stop.text ++ (stepText step ++ ']' :: rest)) :=
        (refuses_char (Part.clear_of_loose htight rfl _)).bind _
      have hread : Reads slice _ (.slice start.bound none none)
          (stop.text ++ (stepText step ++ ']' :: rest)) :=
        hfirst.bind ((reads_char ':' _).bind ((Part.reads_of_loose htight hstop).bind
          (hcolon.optional.bind (reads_pure _ _))))
      exact hread.bind_refuses
        ((refuses_tag_of_clear (Part.clear_of_loose htight rfl _) []).bind _)
    | true =>
      simp only [tightSlice, hstart, htight, Bool.true_and] at h
      cases step with
      | none => cases h
      | some p =>
        have hlast := Part.reads_of_loose (p := p) h (ends_bracket rest)
        have hread : Reads slice _ (.slice start.bound stop.bound none)
            (p.text ++ ']' :: rest) :=
          hfirst.bind ((reads_char ':' _).bind ((Part.reads_of_tight htight hstop).bind
            (((reads_char ':' _).bind hlast).optional.bind (reads_pure _ _))))
        exact hread.bind_refuses
          ((refuses_tag_of_clear (Part.clear_of_loose h rfl _) []).bind _)

/-! ### The brackets -/

/-- Neither a name nor a list of positions is followed by a colon. -/
theorem refuses_lists (start : Part) (more : List Char) :
    Refuses nameList (start.text ++ ':' :: more) ∧
      Refuses (between ['['] positionList [']']) ('[' :: (start.text ++ ':' :: more)) := by
  constructor
  · refine refuses_nameList (Part.clear_dropWhile_text (clear_cons.mpr rfl) (fun c hc => ?_)
      (clear_cons.mpr rfl))
    simp only [isQuote, Bool.or_eq_true, beq_iff_eq] at hc
    rcases hc with rfl | rfl <;> rfl
  · suffices hclosed : Refuses (do let ps ← positionList; tag [']']; return ps)
        (start.text ++ ':' :: more) from (reads_tag ['['] _).bind_refuses hclosed
    cases hbound : start.bound with
    | none =>
      refine Refuses.bind _ (refuses_positionList ?_)
      rw [Part.dropWhile_text (clear_cons.mpr rfl), hbound]
      exact clear_cons.mpr rfl
    | some i =>
      have hcomma : Refuses (do char ','; spaced integer) (':' :: more) :=
        (refuses_char (clear_cons.mpr rfl)).bind _
      have hlist : Reads positionList (start.text ++ ':' :: more) [i] (':' :: more) :=
        (Part.reads_number hbound (clear_cons.mpr rfl) (clear_cons.mpr rfl)).bind
          (hcomma.many.bind (reads_pure _ _))
      exact hlist.bind_refuses ((refuses_tag rfl).bind _)

/-- The brackets around a slice start like no other brackets. -/
theorem exists_cons_sliceText (start stop : Part) (step : Option Part) (rest : List Char) :
    ∃ c cs, sliceText start stop step ++ rest = c :: cs ∧ c ∉ ['[', '*', '?'] := by
  have hclear : Clear (['[', '*', '?'].contains ·) (sliceText start stop step ++ rest) := by
    rw [toList_sliceText]
    refine clear_of_dropWhile (Part.clear_dropWhile_text (clear_cons.mpr rfl) (fun c hc => ?_)
      (clear_cons.mpr rfl)) rfl
    simp only [List.contains_iff_mem, List.mem_cons, List.not_mem_nil, or_false] at hc
    rcases hc with rfl | rfl | rfl <;> rfl
  cases htext : sliceText start stop step ++ rest with
  | nil => simp [sliceText] at htext
  | cons c cs =>
    rw [htext] at hclear
    exact ⟨c, cs, rfl, by simpa using hclear⟩

variable {q : Parser Condition}

theorem reads_selector_of_tight (h : tightSlice start stop step = true) (rest : List Char) :
    Reads (selector q) ('[' :: (sliceText start stop step ++ ']' :: rest))
      (.slice start.bound stop.bound (step.bind Part.bound)) rest := by
  have hnames : Refuses (between ['['] nameList [']'])
      ('[' :: (sliceText start stop step ++ ']' :: rest)) := by
    rw [toList_sliceText]
    exact (reads_tag ['['] _).bind_refuses ((refuses_lists start _).1.bind _)
  have hslice : Reads (between ['['] slice [']']) _ _ rest := (reads_slice_of_tight h rest).between
  obtain ⟨c, cs, htext, hc⟩ := exists_cons_sliceText start stop step (']' :: rest)
  rw [htext] at hnames hslice ⊢
  exact reads_selector_of_plain hc (.later (hnames.bind _) hslice.first)

theorem refuses_selector_of_loose (h : tightSlice start stop step = false) (rest : List Char) :
    Refuses (selector q) ('[' :: (sliceText start stop step ++ ']' :: rest)) := by
  have hslice := refuses_slice_of_loose h rest
  have hlists := refuses_lists start
    (stop.text ++ (stepText step ++ ']' :: rest))
  rw [← toList_sliceText] at hlists
  have hnames : Refuses (between ['['] nameList [']'])
      ('[' :: (sliceText start stop step ++ ']' :: rest)) :=
    (reads_tag ['['] _).bind_refuses (hlists.1.bind _)
  obtain ⟨c, cs, htext, hc⟩ := exists_cons_sliceText start stop step (']' :: rest)
  rw [htext] at hnames hslice hlists ⊢
  have hcontent : Refuses contentSelector ('[' :: c :: cs) :=
    .or (hnames.bind _) (.or hslice (hlists.2.bind _))
  rwa [Refuses, selector_of_plain hc]

/-! ### Whole texts -/

/-- A text that is read up to something that is left over. -/
theorem readWhole_of_leftOver {α : Type} {p : Parser α} {text : String} {a : α} {c : Char}
    {more : List Char} (hstart : Clear isSpace text.toList)
    (h : Reads p text.toList a (c :: more)) (hc : isSpace c = false) :
    readWhole p text = .error (.leftOver text (c :: more)) := by
  have hspaced : spaced p text.toList = .ok (a, c :: more) :=
    h.spaced_of_clear hstart (clear_cons.mpr hc)
  rw [readWhole, hspaced]

/-- The path that goes from the first scope to a slice. -/
def slicePath (start stop : Part) (step : Option Part) : String :=
  String.ofList ('$' :: '[' :: (sliceText start stop step ++ [']']))

theorem reads_path_of_selectors {cs rest : List Char} {selectors : List Selector}
    (h : Reads (many (selector q)) ('[' :: cs) selectors rest) :
    Reads (path q) ('$' :: '[' :: cs) (.root 0 :: selectors) rest := by
  have hscope : Reads scope ((Selector.root 0).display.toList ++ '[' :: cs) (.root 0) ('[' :: cs) :=
    reads_scope_root (by decide) (clear_cons.mpr rfl)
  exact hscope.bind (h.bind (reads_pure _ _))

theorem parse_of_tight (h : tightSlice start stop step = true) :
    Path.parse (slicePath start stop step) =
      .ok [.root 0, .slice start.bound stop.bound (step.bind Part.bound)] := by
  have hselectors : Reads (many (selector condition))
      ('[' :: (sliceText start stop step ++ [']'])) _ [] :=
    (reads_selector_of_tight h []).many (by simp) (refuses_selector (clear_nil _)).many
  refine readWhole_of_reads ?_ ?_
  · rw [slicePath, String.toList_ofList]
    exact clear_cons.mpr rfl
  · rw [slicePath, String.toList_ofList]
    exact reads_path_of_selectors hselectors

theorem parse_of_loose (h : tightSlice start stop step = false) :
    Path.parse (slicePath start stop step) = .error (.leftOver (slicePath start stop step)
      ('[' :: (sliceText start stop step ++ [']']))) := by
  refine readWhole_of_leftOver (a := [.root 0]) ?_ ?_ rfl
  · rw [slicePath, String.toList_ofList]
    exact clear_cons.mpr rfl
  · rw [slicePath, String.toList_ofList]
    exact reads_path_of_selectors (refuses_selector_of_loose h []).many

end

end Grammar

open Grammar

/-- Blanks around a number of a slice make no difference. Where a number is left out, any blank
makes the text a path that ends before the brackets. -/
theorem Path.parse_slice_blanks (start stop : Part) (step : Option Part) :
    let selectors : Path := [.root 0, .slice start.bound stop.bound (step.bind Part.bound)]
    Path.parse (slicePath start.bare stop.bare (step.map Part.bare)) = .ok selectors ∧
    Path.parse (slicePath start stop step) =
      if tightSlice start stop step then .ok selectors
      else .error (.leftOver (slicePath start stop step)
        ('[' :: (sliceText start stop step ++ [']']))) := by
  intro selectors
  constructor
  · have hbare : tightSlice start.bare stop.bare (step.map Part.bare) = true := by
      cases step <;> simp [tightSlice, Part.tight_bare]
    have hbounds : (step.map Part.bare).bind Part.bound = step.bind Part.bound := by
      cases step <;> rfl
    rw [parse_of_tight hbare, hbounds]
    rfl
  · cases h : tightSlice start stop step with
    | true => exact parse_of_tight h
    | false => exact parse_of_loose h

/-- A blank before the colon, where nothing stands before it. -/
theorem Path.parse_slice_blanks_omitted :
    let omitted : Part := ⟨[], none, [], by simp, by simp, by simp⟩
    let blank : Part := ⟨[' '], none, [], by simp [isSpace], by simp, by simp⟩
    (slicePath omitted omitted none = "$[:]" ∧
      Path.parse "$[:]" = .ok [.root 0, .slice none none none]) ∧
    slicePath blank omitted none = "$[ :]" ∧
      Path.parse "$[ :]" = .error (.leftOver "$[ :]" ['[', ' ', ':', ']']) :=
  ⟨⟨by decide, by cbv⟩, by decide, by cbv⟩

end TreeQuery
