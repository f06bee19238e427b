import TreeQuery.Proofs.Grammar.Extended
import TreeQuery.Proofs.Grammar.Operands
import TreeQuery.Proofs.Grammar.Stopped

/-! Readings that are kept when the text goes on behind a closing parenthesis. What stands in quotes
or brackets is read up to its own closing mark, whatever comes later. A path ends where no selector
starts, which depends on what is left. The parser of the conditions inside filters may be replaced
on the way, by one that reads conditions nested more deeply. -/

namespace TreeQuery.Grammar

variable {α β : Type} {ok okMid : List Char → Prop} {rest : List Char}

/-- What `p` reads, leaving something of which `ok` holds, `p'` reads in front of `rest`. -/
def Carries (ok : List Char → Prop) (p p' : Parser α) (rest : List Char) : Prop :=
  ∀ cs a left, Reads p cs a left → ok left → Reads p' (cs ++ rest) a (left ++ rest)

/-- No matter what is left. -/
abbrev Anything : List Char → Prop := fun _ => True

/-! ### Rules -/

theorem Carries.mono {p p' : Parser α} (h : Carries okMid p p' rest)
    (hok : ∀ left, ok left → okMid left) : Carries ok p p' rest :=
  fun cs a left hread hleft => h cs a left hread (hok left hleft)

theorem Stopped.carries {p : Parser α} (h : Stopped p rest) : Carries ok p p rest :=
  fun cs a left hread _ => (h cs).1 a left hread

theorem carries_pure (a : α) : Carries ok (pure a) (pure a) rest := (stopped_pure a rest).carries

theorem carries_tag (word : List Char) : Carries ok (tag word) (tag word) rest := by
  intro cs u left hread _
  rw [reads_tag_iff] at hread ⊢
  rw [hread, List.append_assoc]

theorem carries_char (c : Char) : Carries ok (char c) (char c) rest := by
  intro cs u left hread _
  unfold Reads char at hread
  split at hread
  next d more =>
    split at hread
    next hd =>
      cases hread
      subst hd
      exact reads_char d (left ++ rest)
    · cases hread
  · cases hread

/-- A run that ends in front of a mark of the text. -/
theorem carries_run {p : Char → Bool} {marks : List Char} (hmarks : marks.any p = false) :
    Carries (StartsIn marks) (run p) (run p) rest := by
  intro cs found left hread hleft
  cases hread
  have hfound : ∀ c ∈ cs.takeWhile p, p c = true := fun c hc => List.mem_takeWhile_imp hc
  have hread := reads_run hfound (hleft.clear hmarks rest)
  rwa [← List.append_assoc, List.takeWhile_append_dropWhile] at hread

theorem Carries.bind {p p' : Parser α} {f f' : α → Parser β} (hp : Carries okMid p p' rest)
    (hf : ∀ a, Carries ok (f a) (f' a) rest)
    (hmid : ∀ a mid b left, Reads (f a) mid b left → ok left → okMid mid) :
    Carries ok (p >>= f) (p' >>= f') rest := by
  intro cs b left hread hleft
  obtain ⟨a, mid, ha, hb⟩ := reads_bind_iff.mp hread
  exact (hp cs a mid ha (hmid a mid b left hb hleft)).bind (hf a mid b left hb hleft)

/-- What is left of the first part may not matter. -/
theorem Carries.then {p p' : Parser α} {f f' : α → Parser β} (hp : Carries Anything p p' rest)
    (hf : ∀ a, Carries ok (f a) (f' a) rest) : Carries ok (p >>= f) (p' >>= f') rest :=
  hp.bind hf fun _ _ _ _ _ _ => trivial

theorem Carries.map {p p' : Parser α} (hp : Carries ok p p' rest) (f : α → β) :
    Carries ok (do return f (← p)) (do return f (← p')) rest :=
  hp.bind (fun _ => carries_pure _) fun _ _ _ _ hread hleft => by
    cases hread
    exact hleft

theorem Carries.spaced {p p' : Parser α} (hp : Carries okMid p p' rest)
    (hrest : Clear isSpace rest) (hmid : ∀ mid, ok (mid.dropWhile isSpace) → okMid mid) :
    Carries ok (Grammar.spaced p) (Grammar.spaced p') rest := by
  have hspaces : Stopped spaces rest := stopped_spaces hrest
  refine hspaces.carries.then fun _ => hp.bind (fun a => hspaces.carries.then fun _ =>
    carries_pure a) fun a mid b left hread hleft => hmid mid ?_
  obtain ⟨_, after, hafter, hread⟩ := reads_bind_iff.mp hread
  cases hafter
  cases hread
  exact hleft

theorem Carries.between {p p' : Parser α} {opening closing : List Char}
    (hp : Carries okMid p p' rest) (hmid : ∀ left, okMid (closing ++ left)) :
    Carries ok (Grammar.between opening p closing) (Grammar.between opening p' closing) rest := by
  refine (carries_tag opening).then fun _ => hp.bind (fun a => (carries_tag closing).then fun _ =>
    carries_pure a) fun a mid b left hread _ => ?_
  obtain ⟨_, after, hafter, -⟩ := reads_bind_iff.mp hread
  rw [reads_tag_iff.mp hafter]
  exact hmid after

theorem Carries.or {p p' q q' : Parser α} {ps ps' : List (Parser α)} (hp : Carries ok p p' rest)
    (hq : Carries ok (oneOf (q :: ps)) (oneOf (q' :: ps')) rest)
    (hrefuses : ∀ cs a left, Reads (oneOf (q :: ps)) cs a left → Refuses p cs →
      Refuses p' (cs ++ rest)) :
    Carries ok (oneOf (p :: q :: ps)) (oneOf (p' :: q' :: ps')) rest := by
  intro cs a left hread hleft
  rcases reads_orElse_iff.mp hread with hread | ⟨hr, hread⟩
  · exact (hp cs a left hread hleft).first
  · exact .later (hrefuses cs a left hread hr) (hq cs a left hread hleft)

theorem Stopped.or_carries {p q q' : Parser α} {ps ps' : List (Parser α)} (hp : Stopped p rest)
    (hq : Carries ok (oneOf (q :: ps)) (oneOf (q' :: ps')) rest) :
    Carries ok (oneOf (p :: q :: ps)) (oneOf (p :: q' :: ps')) rest :=
  hp.carries.or hq fun cs _ _ _ hr => (hp cs).2 hr

/-- An alternative that starts with an opening mark, before others that do not start with it. -/
theorem Carries.or_of_opening {p p' q q' : Parser α} {ps ps' : List (Parser α)}
    (opening : List Char) (hrest : EndsIn [')'] rest) (hopening : ')' ∉ opening)
    (hp : Carries ok p p' rest) (hq : Carries ok (oneOf (q :: ps)) (oneOf (q' :: ps')) rest)
    (hfirst : ∀ cs, opening.isPrefixOf cs = false → Refuses p' cs)
    (hothers : ∀ cs, Refuses (oneOf (q :: ps)) (opening ++ cs)) :
    Carries ok (oneOf (p :: q :: ps)) (oneOf (p' :: q' :: ps')) rest := by
  refine hp.or hq fun cs a left hread _ => hfirst _ (isPrefixOf_append
    (clear_of_mem hrest hopening) cs ?_)
  refine eq_false_of_ne_true fun hprefix => ?_
  obtain ⟨more, rfl⟩ := List.isPrefixOf_iff_prefix.mp hprefix
  exact hread.not_refuses (hothers more)

theorem Carries.optional {p p' : Parser α} (hp : Carries ok p p' rest)
    (hend : ∀ left, ok left → Refuses p' (left ++ rest)) :
    Carries ok (Grammar.optional p) (Grammar.optional p') rest := by
  intro cs a? left hread hleft
  rcases reads_optional_iff.mp hread with ⟨a, rfl, ha⟩ | ⟨rfl, rfl, -⟩
  · exact (hp cs a left ha hleft).optional
  · exact (hend left hleft).optional

/-- A repetition is kept if every round is, be it the last one or in front of another, and what is
left at the end allows no further round. -/
theorem Carries.many {p p' : Parser α} (hp : Carries okMid p p' rest)
    (hround : ∀ cs a left, Reads p cs a left → okMid cs)
    (hend : ∀ left, ok left → okMid left ∧ Refuses p' (left ++ rest)) :
    Carries ok (Grammar.many p) (Grammar.many p') rest := by
  intro cs as left hread hleft
  obtain ⟨hlast, hrefuses⟩ := hend left hleft
  induction as generalizing cs with
  | nil =>
    rcases reads_many_iff.mp hread with ⟨-, rfl, -⟩ | ⟨a, more, mid, has, -⟩
    · exact hrefuses.many
    · cases has
  | cons a as ih =>
    rcases reads_many_iff.mp hread with ⟨has, -⟩ | ⟨a', more, mid, has, hfirst, hlt, hmore⟩
    · cases has
    · cases has
      have hmid : okMid mid := by
        rcases reads_many_iff.mp hmore with ⟨-, rfl, -⟩ | ⟨b, _, after, -, hnext, -⟩
        · exact hlast
        · exact hround mid b after hnext
      refine (hp cs a mid hfirst hmid).many ?_ (ih mid hmore)
      simp only [List.length_append]
      omega

/-- A list that a bracket closes. -/
theorem Carries.commaList {p : Parser α} (hp : Carries Anything p p rest) :
    Carries (StartsIn [']']) (Grammar.commaList p) (Grammar.commaList p) rest := by
  have hround : Carries Anything (do char ','; p) (do char ','; p) rest :=
    (carries_char ',').then fun _ => hp
  have hmore : Carries (StartsIn [']']) (Grammar.many (do char ','; p))
      (Grammar.many (do char ','; p)) rest :=
    hround.many (fun _ _ _ _ => trivial)
      fun left hleft => ⟨trivial, (refuses_char (hleft.clear rfl rest)).bind _⟩
  exact hp.then fun a => hmore.map fun as => a :: as

/-! ### What a parser starts with -/

/-- What `p` reads starts with none of the characters with which `p` cannot start. -/
theorem Reads.clear {p : Parser α} {f g : Char → Bool} {cs left : List Char} {a : α}
    (h : Reads p cs a left) (hp : Clear f cs → Refuses p cs) (hgf : ∀ c, g c = true → f c = false)
    (rest : List Char) : Clear g (cs ++ rest) := by
  by_cases hf : Clear f cs
  · exact absurd (hp hf) h.not_refuses
  · cases cs with
    | nil => exact absurd (clear_nil f) hf
    | cons c cs =>
      have hc : f c = true := by simpa [Clear] using hf
      refine clear_cons.mpr (Bool.eq_false_iff.mpr fun hg => ?_)
      rw [hgf c hg] at hc
      cases hc

theorem Reads.clear_mark {p : Parser α} {f : Char → Bool} {cs left : List Char} {a : α}
    (h : Reads p cs a left) (hp : Clear f cs → Refuses p cs) {d : Char} (hd : f d = false)
    (rest : List Char) : Clear (· == d) (cs ++ rest) :=
  h.clear hp (fun c hc => by rwa [beq_iff_eq.mp hc]) rest

/-! ### Literals -/

theorem carries_plainText : Carries ok plainText plainText rest := by
  have hrun : Carries (StartsIn ['\'']) (run (· != '\'')) (run (· != '\'')) rest := carries_run rfl
  refine (carries_char '\'').then fun _ => hrun.bind
    (fun cs => (carries_char '\'').then fun _ => carries_pure _) ?_
  -- the run stops in front of a quote of the text itself
  intro cs mid s left hread _
  obtain ⟨_, after, hafter, -⟩ := reads_bind_iff.mp hread
  by_contra hstart
  refine hafter.not_refuses (refuses_char ?_)
  cases mid with
  | nil => rfl
  | cons c mid =>
    refine clear_cons.mpr (beq_eq_false_iff_ne.mpr ?_)
    rintro rfl
    exact hstart ⟨'\'', by simp, mid, rfl⟩

theorem carries_documentText : Carries ok documentText documentText rest := by
  intro cs s left hread _
  unfold Reads documentText at hread
  split at hread
  next more =>
    split at hread
    next t after ht =>
      cases hread
      simp only [Reads, List.cons_append, documentText, Json.readText_append ht]
    · cases hread
  · cases hread

theorem carries_quotedText : Carries ok quotedText quotedText rest :=
  carries_plainText.or carries_documentText fun _ _ _ hread _ =>
    (refuses_char (hread.clear_mark refuses_documentText rfl rest)).bind _

section

variable (hrest : EndsIn [')'] rest)

include hrest

theorem carries_nameList : Carries (StartsIn [']']) nameList nameList rest := by
  have hname : Carries Anything quotedText quotedText rest := carries_quotedText
  exact (hname.spaced (hrest.clear rfl) fun _ _ => trivial).commaList

theorem carries_positionList : Carries (StartsIn [']']) positionList positionList rest :=
  ((stopped_integer hrest).spaced (hrest.clear rfl)).carries.commaList

theorem carries_documentLiteral : Carries ok documentLiteral documentLiteral rest := by
  intro cs v left hread _
  unfold Reads documentLiteral at hread
  split at hread
  next hstart =>
    split at hread
    next j after hj =>
      cases hread
      unfold Reads documentLiteral
      rw [head?_append_any (hrest.clear rfl), if_pos hstart,
        Json.readPrefix_append (hrest.clear rfl) hj]
    · cases hread
  · cases hread

theorem carries_literal : Carries ok literal literal rest := by
  have hword : ∀ {word : List Char} {v : Value}, ')' ∉ word →
      Stopped (do keyword word; return v) rest :=
    fun hw => (stopped_keyword hrest hw).bind fun _ => stopped_pure _ _
  have hnumber : Carries ok numberLiteral numberLiteral rest :=
    (stopped_numberLiteral hrest).carries
  refine (stopped_mark hrest (by decide)).optional.carries.then fun _ =>
    (hword (by decide)).or_carries ((hword (by decide)).or_carries ((hword (by decide)).or_carries
      ((carries_plainText.map _).or ((carries_documentLiteral hrest).or hnumber ?document) ?text)))
  case document =>
    intro cs v left hread _
    refine refuses_documentLiteral (hread.clear refuses_numberLiteral (fun c hc => ?_) rest)
    simp only [Bool.or_eq_true, beq_iff_eq] at hc
    rcases hc with (rfl | rfl) | rfl <;> rfl
  case text =>
    intro cs v left hread _
    have hstart : Clear (fun c => (c == '"' || c == '[' || c == '\x7b') || (isDigit c || c == '-'))
        cs → Refuses (oneOf [documentLiteral, numberLiteral]) cs := fun h =>
      (refuses_documentLiteral (h.mono fun c hc => Bool.or_eq_true_iff.mpr (.inl hc))).or
        (refuses_numberLiteral (h.mono fun c hc => Bool.or_eq_true_iff.mpr (.inr hc)))
    exact ((refuses_char (hread.clear_mark hstart rfl rest)).bind _).bind _

end

/-! ### Selectors -/

theorem refuses_positionList {cs : List Char}
    (h : Clear (fun c => isDigit c || c == '-' || c == '+') (cs.dropWhile isSpace)) :
    Refuses positionList cs :=
  (refuses_integer h).spaced.bind _

theorem refuses_slice {cs : List Char}
    (h : Clear (fun c => isDigit c || c == '-' || c == '+' || c == ':') (cs.dropWhile isSpace)) :
    Refuses slice cs := by
  have hinteger : Refuses (spaced integer) cs :=
    (refuses_integer (h.mono fun c hc => by simp [hc])).spaced
  have hcolon : Clear (· == ':') cs :=
    clear_of_dropWhile (h.mono fun c hc => by simp [hc]) rfl
  exact hinteger.optional.bind_refuses ((refuses_char hcolon).bind _)

/-- The characters that names, slices and positions in brackets can start with, behind blanks. -/
def isContentStart (c : Char) : Bool :=
  isQuote c || isDigit c || c == '-' || c == '+' || c == ':'

theorem refuses_content {cs : List Char} (h : Clear isContentStart (cs.dropWhile isSpace)) :
    Refuses contentSelector ('[' :: cs) := by
  have hnames : Refuses nameList cs :=
    refuses_nameList (h.mono fun c hc => by simp [isContentStart, hc])
  have hslice : Refuses slice cs := by
    refine refuses_slice (h.mono fun c hc => ?_)
    simp only [isContentStart, Bool.or_eq_true] at hc ⊢
    tauto
  have hpositions : Refuses positionList cs := by
    refine refuses_positionList (h.mono fun c hc => ?_)
    simp only [isContentStart, Bool.or_eq_true] at hc ⊢
    tauto
  have hopening := reads_tag ['['] cs
  exact .or ((hopening.bind_refuses (hnames.bind _)).bind _)
    (.or (hopening.bind_refuses (hslice.bind _))
      ((hopening.bind_refuses (hpositions.bind _)).bind _))

/-- Two dots are not one dot and a name. -/
theorem refuses_dotSelector (cs : List Char) : Refuses dotSelector ('.' :: '.' :: cs) := by
  refine (reads_char '.' _).bind_refuses (.or ((refuses_char (clear_cons.mpr rfl)).bind _) ?_)
  exact Refuses.bind _ (Refuses.bind _ (refuses_ahead .word (clear_cons.mpr rfl)))

/-- A text that starts with a quote starts with nothing else. -/
theorem clear_of_quote {cs : List Char} {f : Char → Bool} (h : ¬ Clear isQuote cs)
    (hf : ['\'', '"'].any f = false) : Clear f cs := by
  cases cs with
  | nil => rfl
  | cons c cs =>
    have hc : c ∈ ['\'', '"'] := by simpa [isQuote, or_iff_not_imp_left] using h
    exact clear_cons.mpr (Bool.eq_false_iff.mpr (List.any_eq_false.mp hf c hc))

section

variable (hrest : EndsIn [')'] rest)

include hrest

theorem carries_content : Carries ok contentSelector contentSelector rest := by
  have hnames : Carries ok (between ['['] nameList [']']) (between ['['] nameList [']']) rest :=
    (carries_nameList hrest).between fun left => ⟨']', by simp, left, rfl⟩
  have hpositions : Carries ok (between ['['] positionList [']'])
      (between ['['] positionList [']']) rest :=
    (carries_positionList hrest).between fun left => ⟨']', by simp, left, rfl⟩
  have hslice : Stopped (between ['['] slice [']']) rest :=
    (stopped_slice hrest).between (clear_of_mem hrest (by decide)) (clear_of_mem hrest (by decide))
  refine (hnames.map _).or (hslice.or_carries (hpositions.map _)) fun cs s left hread _ => ?_
  by_cases hbracket : ['['].isPrefixOf cs = true
  · obtain ⟨more, rfl⟩ := List.isPrefixOf_iff_prefix.mp hbracket
    -- the list cannot start with a quote, because neither a slice nor positions do
    have hquote : Clear isQuote (more.dropWhile isSpace) := by
      by_contra hquote
      refine hread.not_refuses (.or ((reads_tag ['['] more).bind_refuses (Refuses.bind _ ?_))
        (((reads_tag ['['] more).bind_refuses (Refuses.bind _ ?_)).bind _))
      · exact refuses_slice (clear_of_quote hquote rfl)
      · exact refuses_positionList (clear_of_quote hquote rfl)
    rw [List.append_assoc]
    refine ((reads_tag ['['] (more ++ rest)).bind_refuses (Refuses.bind _ ?_)).bind _
    refine refuses_nameList ?_
    rw [(takeWhile_append_of_clear (hrest.clear rfl) more).2]
    rw [Clear, head?_append_any (hrest.clear rfl)]
    exact hquote
  · exact (refuses_between _ _ (isPrefixOf_append (clear_of_mem hrest (by decide)) cs
      (eq_false_of_ne_true hbracket))).bind _

section

variable {q q' : Parser Condition}

/-- Behind blanks, the text is empty or starts with one of these characters. -/
def EndsSpaced (marks : List Char) (cs : List Char) : Prop := EndsIn marks (cs.dropWhile isSpace)

variable (hq : Carries (EndsSpaced [')', ']']) q q' rest)

include hq

/-- A condition up to a closing mark, with blanks around it. -/
theorem carries_closed (c : Char) (hc : c ∈ [')', ']']) :
    Carries (StartsIn [c]) (spaced q) (spaced q') rest :=
  hq.spaced (hrest.clear rfl) fun mid hmid => by
    obtain ⟨d, hd, more, hmore⟩ := hmid
    rw [EndsSpaced, hmore, List.mem_singleton.mp hd]
    exact endsIn_cons hc more

theorem carries_filter (opening more : List Char) (deep : Bool) :
    Carries ok (do return Selector.filter (← between opening (spaced q) (']' :: more)) deep)
      (do return Selector.filter (← between opening (spaced q') (']' :: more)) deep) rest :=
  ((carries_closed hrest hq ']' (by decide)).between fun left =>
    ⟨']', by simp, more ++ left, rfl⟩).map _

theorem carries_deepSelector : Carries ok (deepSelector q) (deepSelector q') rest := by
  have hstar : Stopped (do char '*'; return Selector.all true) rest :=
    (stopped_mark hrest (by decide)).bind fun _ => stopped_pure _ _
  have hnamed : Stopped (do return Selector.named [← identifier] true) rest :=
    (stopped_identifier hrest).bind fun _ => stopped_pure _ _
  have hnames : Carries ok (between ['['] nameList [']']) (between ['['] nameList [']']) rest :=
    (carries_nameList hrest).between fun left => ⟨']', by simp, left, rfl⟩
  refine (carries_tag _).then fun _ => hstar.or_carries (.or_of_opening ['[', '?'] hrest (by decide)
    (carries_filter hrest hq _ [] _) (hnamed.or_carries (hnames.map _)) ?_ ?_)
  · exact fun cs hcs => (refuses_between _ _ hcs).bind _
  · intro cs
    have hname : Refuses identifier ('[' :: '?' :: cs) :=
      Refuses.bind _ (refuses_ahead .word (clear_cons.mpr rfl))
    have hlist : Refuses nameList ('?' :: cs) := refuses_nameList rfl
    exact .or (hname.bind _) (((reads_tag ['['] ('?' :: cs)).bind_refuses (hlist.bind _)).bind _)

theorem carries_bracketSelector : Carries ok (bracketSelector q) (bracketSelector q') rest := by
  have hnames : Carries ok (between ['[', '['] nameList [']', ']'])
      (between ['[', '['] nameList [']', ']']) rest :=
    (carries_nameList hrest).between fun left => ⟨']', by simp, ']' :: left, rfl⟩
  have hall : ∀ {word : List Char} {deep : Bool}, ')' ∉ word →
      Stopped (do tag word; return Selector.all deep) rest :=
    fun hword => (stopped_tag (clear_of_mem hrest hword)).bind fun _ => stopped_pure _ _
  have hothers : ∀ cs, Refuses (oneOf [
      do tag ['[', '*', '*', ']']; return .all true,
      do tag ['[', '*', ']']; return .all false,
      do return .filter (← filterBody q) false,
      do return .named (← between ['['] nameList [']']) false,
      between ['['] slice [']'],
      do return .elements (← between ['['] positionList [']'])]) ('[' :: '[' :: cs) := by
    intro cs
    exact .or ((refuses_tag rfl).bind _) (.or ((refuses_tag rfl).bind _)
      (.or ((refuses_between _ _ rfl).bind _) (refuses_content rfl)))
  refine .or_of_opening ['[', '[', '?'] hrest (by decide) (carries_filter hrest hq _ [']'] _)
    (.or_of_opening ['[', '['] hrest (by decide) (hnames.map _)
      ((hall (by decide)).or_carries ((hall (by decide)).or_carries
        (.or_of_opening ['[', '?'] hrest (by decide) (carries_filter hrest hq _ [] _)
          (carries_content hrest) ?_ ?_))) ?_ ?_) ?_ ?_
  · exact fun cs hcs => (refuses_between _ _ hcs).bind _
  · exact fun cs => refuses_content rfl
  · exact fun cs hcs => (refuses_between _ _ hcs).bind _
  · exact hothers
  · exact fun cs hcs => (refuses_between _ _ hcs).bind _
  · intro cs
    have hlist : Refuses nameList ('?' :: cs) := refuses_nameList rfl
    exact .or (((reads_tag ['[', '['] ('?' :: cs)).bind_refuses (hlist.bind _)).bind _)
      (hothers ('?' :: cs))

theorem carries_selector : Carries ok (selector q) (selector q') rest := by
  refine .or_of_opening ['.', '.'] hrest (by decide) (carries_deepSelector hrest hq)
    ((stopped_dotSelector hrest).or_carries (carries_bracketSelector hrest hq)) ?_ ?_
  · exact fun cs hcs => (refuses_tag hcs).bind _
  · exact fun cs => (refuses_dotSelector cs).or (refuses_bracketSelector (clear_cons.mpr rfl))

/-! ### Paths -/

/-- No selector can start here. -/
abbrev EndsPath : List Char → Prop := Clear fun c => c == '.' || c == '['

theorem carries_selectors : Carries EndsPath (many (selector q)) (many (selector q')) rest := by
  have hselector : Carries Anything (selector q) (selector q') rest := carries_selector hrest hq
  refine hselector.many (fun _ _ _ _ => trivial) fun left hleft => ⟨trivial, refuses_selector ?_⟩
  rw [Clear, head?_append_any (hrest.clear rfl)]
  exact hleft

theorem carries_path : Carries EndsPath (path q) (path q') rest :=
  (stopped_scope hrest).carries.then fun first =>
    (carries_selectors hrest hq).map fun more => first :: more

theorem carries_dotPath : Carries EndsPath (dotPath q) (dotPath q') rest := by
  have hmore : Carries EndsPath (many1 (selector q)) (many1 (selector q')) rest :=
    (carries_selector hrest hq).then fun s => (carries_selectors hrest hq).map fun more => s :: more
  exact (stopped_ahead (hrest.clear rfl)).carries.then fun _ =>
    hmore.map fun more => .current :: more

theorem carries_operandPath : Carries EndsPath (operandPath q) (operandPath q') rest := by
  refine (carries_path hrest hq).or (carries_dotPath hrest hq) fun cs p left hread _ => ?_
  have hdot : Clear (· == '.') cs → Refuses (dotPath q) cs :=
    fun h => (refuses_ahead .mark h).bind _
  refine (refuses_scope (hread.clear hdot (fun c hc => ?_) rest)).bind _
  simp only [Bool.or_eq_true, beq_iff_eq] at hc
  rcases hc with (rfl | rfl) | rfl <;> rfl

end

end

end TreeQuery.Grammar
