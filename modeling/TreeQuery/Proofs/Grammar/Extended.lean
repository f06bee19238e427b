import TreeQuery.Proofs.Grammar.Documents
import TreeQuery.Proofs.Value.Documents

/-! Documents with more text behind them. A document that can be read from the front of a text is
read in the same way if the text goes on, as long as it does not go on with a character that could
continue a number: every other part of a document ends in a character of its own. The fuel that
reading spends depends on the length of the text, so there may be more of it as well. -/

namespace TreeQuery.Json

open Grammar (Clear isNumberPart)

/-! ### Texts -/

variable {rest : List Char}

theorem codeUnit_append {cs : List Char} {n : Nat} (h : codeUnit cs = .ok n) (rest : List Char) :
    codeUnit (cs ++ rest) = .ok n ∧ 4 ≤ cs.length := by
  unfold codeUnit at h
  split at h
  · refine ⟨h, ?_⟩
    simp only [List.length_cons]
    omega
  · split at h <;> cases h

theorem escapedChar_append {cs : List Char} {c : Char} {taken : Nat}
    (h : escapedChar cs = .ok (c, taken)) (rest : List Char) :
    escapedChar (cs ++ rest) = .ok (c, taken) ∧ taken ≤ cs.length := by
  unfold escapedChar at h
  cases hhigh : codeUnit cs with
  | error f => simp [hhigh] at h
  | ok high =>
    obtain ⟨hhigh', hlength⟩ := codeUnit_append hhigh rest
    rw [hhigh] at h
    rw [escapedChar, hhigh']
    dsimp only at h ⊢
    split_ifs at h ⊢ with hsingle hlow
    · cases h
      exact ⟨rfl, hlength⟩
    · rw [List.drop_append_of_le_length hlength]
      have hdrop : cs.length = 4 + (cs.drop 4).length := by
        rw [List.length_drop]
        omega
      generalize cs.drop 4 = after at h hdrop ⊢
      split at h
      · cases h
      · cases h
      next more =>
        cases hunit : codeUnit more with
        | error f => simp [hunit] at h
        | ok low =>
          obtain ⟨hunit', hmore⟩ := codeUnit_append hunit rest
          rw [hunit] at h
          simp only [List.cons_append, hunit']
          dsimp only at h
          split_ifs at h ⊢ with hpair
          refine ⟨h, ?_⟩
          simp only [Except.ok.injEq, Prod.mk.injEq] at h
          simp only [List.length_cons] at hdrop
          omega
      · cases h

/-- One more character in front of a text. -/
theorem map_cons_append {x y : Except Fault (List Char × List Char)} (c : Char)
    {s left : List Char} (hxy : ∀ {s left}, x = .ok (s, left) → y = .ok (s, left ++ rest))
    (h : (x.map fun (s, r) => (c :: s, r)) = .ok (s, left)) :
    (y.map fun (s, r) => (c :: s, r)) = .ok (s, left ++ rest) := by
  cases hx : x with
  | error f => simp [hx, Except.map] at h
  | ok read =>
    obtain ⟨t, after⟩ := read
    rw [hx] at h
    cases h
    rw [hxy hx]
    rfl

theorem readText_plain {c : Char} (hquote : c ≠ '"') (hslash : c ≠ '\\') (cs : List Char) :
    readText (c :: cs) = if isControl c then .error .malformed
      else (readText cs).map fun (s, r) => (c :: s, r) := by
  rw [readText]
  all_goals simp_all

theorem readText_append {cs s left : List Char} (h : readText cs = .ok (s, left)) :
    readText (cs ++ rest) = .ok (s, left ++ rest) := by
  induction cs using readText.induct generalizing s left with
  | case1 | case3 =>
    rw [readText] at h
    cases h
  | case2 more =>
    rw [readText] at h
    cases h
    rw [List.cons_append, readText]
  | case4 more f hf =>
    rw [readText, hf] at h
    cases h
  | case5 more c taken hescaped ih =>
    obtain ⟨hescaped', hlength⟩ := escapedChar_append hescaped rest
    rw [readText, hescaped] at h
    rw [List.cons_append, List.cons_append, readText, hescaped']
    dsimp only
    rw [List.drop_append_of_le_length hlength]
    exact map_cons_append c ih h
  | case6 e more he hshort =>
    rw [readText, hshort] at h
    · cases h
    · exact he
  | case7 e more he c hshort ih =>
    rw [readText, hshort] at h
    · rw [List.cons_append, List.cons_append, readText, hshort]
      · exact map_cons_append c ih h
      · exact he
    · exact he
  | case8 c more hquote hslash hunit hescape hcontrol =>
    rw [readText, if_pos hcontrol] at h
    · cases h
    all_goals assumption
  | case9 c more hquote hslash _ hescape hcontrol ih =>
    have hne : c ≠ '\\' := fun hc => by
      cases more with
      | nil => exact hslash hc rfl
      | cons e more => exact hescape e more hc rfl
    rw [readText_plain hquote hne, if_neg hcontrol] at h
    rw [List.cons_append, readText_plain hquote hne, if_neg hcontrol]
    exact map_cons_append c ih h

/-! ### Words -/

theorem fixedWord_append {word cs left : List Char} (h : fixedWord word cs = .ok left) :
    fixedWord word (cs ++ rest) = .ok (left ++ rest) := by
  induction word generalizing cs with
  | nil =>
    cases h
    rfl
  | cons w word ih =>
    cases cs with
    | nil => cases h
    | cons c cs =>
      rw [fixedWord] at h
      rw [List.cons_append, fixedWord]
      split at h
      next hc =>
        rw [if_pos hc]
        exact ih h
      · cases h

theorem skipBlanks_append {cs more : List Char} {c : Char} (h : skipBlanks cs = c :: more)
    (rest : List Char) :
    skipBlanks (cs ++ rest) = c :: (more ++ rest) := by
  rw [skipBlanks, List.dropWhile_append]
  rw [skipBlanks] at h
  rw [h]
  rfl

namespace Draft

theorem ofQuoted_append {cs left : List Char} {d : Draft} {j : Json}
    (h : ofQuoted cs = (d, left)) (hd : d.complete = .ok j) :
    ofQuoted (cs ++ rest) = (d, left ++ rest) := by
  cases hs : readText cs with
  | error f =>
    unfold ofQuoted at h
    rw [hs] at h
    cases hskim : skimText cs <;> rw [hskim] at h <;> cases h <;> cases hd
  | ok read =>
    obtain ⟨s, after⟩ := read
    simp only [ofQuoted, hs] at h
    cases h
    simp only [ofQuoted, readText_append hs]

theorem ofWord_append {c : Char} {word cs left : List Char} {d e : Draft} {j : Json}
    (h : ofWord c word cs e = (d, left)) (hd : d.complete = .ok j) :
    ofWord c word (cs ++ rest) e = (d, left ++ rest) := by
  unfold ofWord at h
  split at h
  next after hafter =>
    cases h
    simp only [ofWord, fixedWord_append hafter]
  · cases h
    cases hd

/-! ### What is read to its end -/

/-- An array can be completed only if it was read to its closing bracket. -/
theorem of_complete_array {tooDeep : Bool} {items : List Draft} {ending : Option Fault} {j : Json}
    (h : (array tooDeep items ending).complete = .ok j) :
    ending = none ∧ ∃ js, completeItems items = .ok js := by
  cases tooDeep with
  | true => cases h
  | false =>
    obtain ⟨js, hitems, hclose⟩ := bind_eq_ok_iff.mp h
    cases ending with
    | none => exact ⟨rfl, js, hitems⟩
    | some f => cases hclose

theorem of_complete_object {tooDeep : Bool} {members : List (Name × Draft)}
    {ending : Option Fault} {j : Json} (h : (object tooDeep members ending).complete = .ok j) :
    ending = none ∧ ∃ ms, completeMembers members = .ok ms := by
  cases tooDeep with
  | true => cases h
  | false =>
    obtain ⟨ms, hmembers, hclose⟩ := bind_eq_ok_iff.mp h
    cases ending with
    | none => exact ⟨rfl, ms, hmembers⟩
    | some f => cases hclose

section

variable {fuel level : Nat} {cs left more : List Char} {d : Draft} {j : Json}

/-- An array that is read to its end is empty, or there are items up to its end. -/
theorem of_value_array (h : value (fuel + 1) level cs = (d, left)) (hd : d.complete = .ok j)
    (hcs : skipBlanks cs = '[' :: more) :
    (skipBlanks more = ']' :: left ∧ d = array (greatestDepth ≤ level) [] none) ∨
      ∃ c after ds js, skipBlanks more = c :: after ∧ c ≠ ']' ∧
        items fuel (level + 1) (c :: after) = (ds, none, left) ∧ completeItems ds = .ok js ∧
        d = array (greatestDepth ≤ level) ds none := by
  cases hmore : skipBlanks more with
  | nil =>
    rw [value, hcs] at h
    simp only [hmore] at h
    cases h
    cases (of_complete_array hd).1
  | cons c after =>
    by_cases hc : c = ']'
    · subst hc
      rw [value_empty_array hcs hmore] at h
      cases h
      exact .inl ⟨rfl, rfl⟩
    · rw [value_array hcs hmore hc] at h
      cases h
      obtain ⟨hending, js, hjs⟩ := of_complete_array hd
      exact .inr ⟨c, after, _, js, rfl, hc, by rw [← hending], hjs, by rw [hending]⟩

theorem members_nil (fuel level : Nat) : (members fuel level []).2.1 ≠ none := by
  cases fuel <;> simp [members, skipBlanks]

theorem of_value_object (h : value (fuel + 1) level cs = (d, left)) (hd : d.complete = .ok j)
    (hcs : skipBlanks cs = '\x7b' :: more) :
    (skipBlanks more = '\x7d' :: left ∧ d = object (greatestDepth ≤ level) [] none) ∨
      ∃ c after ds ms, skipBlanks more = c :: after ∧ c ≠ '\x7d' ∧
        members fuel (level + 1) (c :: after) = (ds, none, left) ∧ completeMembers ds = .ok ms ∧
        d = object (greatestDepth ≤ level) ds none := by
  cases hmore : skipBlanks more with
  | nil =>
    rw [value, hcs] at h
    simp only [hmore] at h
    cases h
    exact absurd (of_complete_object hd).1 (members_nil fuel (level + 1))
  | cons c after =>
    by_cases hc : c = '\x7d'
    · subst hc
      rw [value_empty_object hcs hmore] at h
      cases h
      exact .inl ⟨rfl, rfl⟩
    · rw [value_object hcs hmore hc] at h
      cases h
      obtain ⟨hending, ms, hms⟩ := of_complete_object hd
      exact .inr ⟨c, after, _, ms, rfl, hc, by rw [← hending], hms, by rw [hending]⟩

theorem of_completeItems {ds : List Draft} {js : List Json}
    (h : completeItems (d :: ds) = .ok js) :
    (∃ j, d.complete = .ok j) ∧ ∃ js, completeItems ds = .ok js := by
  obtain ⟨j, hj, h⟩ := bind_eq_ok_iff.mp h
  obtain ⟨js, hjs, -⟩ := bind_eq_ok_iff.mp h
  exact ⟨⟨j, hj⟩, js, hjs⟩

theorem of_completeMembers {name : Name} {ds : List (Name × Draft)} {ms : List (String × Json)}
    (h : completeMembers ((name, d) :: ds) = .ok ms) :
    (∃ s, name = .text s) ∧ (∃ j, d.complete = .ok j) ∧ ∃ ms, completeMembers ds = .ok ms := by
  cases name with
  | text s =>
    obtain ⟨j, hj, h⟩ := bind_eq_ok_iff.mp h
    obtain ⟨ms, hms, -⟩ := bind_eq_ok_iff.mp h
    exact ⟨⟨s, rfl⟩, ⟨j, hj⟩, ms, hms⟩
  | flawed => cases h
  | missing f g => cases h

/-- Items that are read to the end of their array: a last one, or one that others follow. -/
theorem of_items {ds : List Draft} {js : List Json} (h : items fuel level cs = (ds, none, left))
    (hds : completeItems ds = .ok js) :
    ∃ f d mid j, fuel = f + 1 ∧ value f level cs = (d, mid) ∧ d.complete = .ok j ∧
      (skipBlanks mid = ']' :: left ∧ ds = [d] ∨
        ∃ more ds' js', skipBlanks mid = ',' :: more ∧ items f level more = (ds', none, left) ∧
          completeItems ds' = .ok js' ∧ ds = d :: ds') := by
  cases fuel with
  | zero => cases h
  | succ fuel =>
    rw [items] at h
    obtain ⟨d, mid, hd⟩ : ∃ d mid, value fuel level cs = (d, mid) := ⟨_, _, rfl⟩
    rw [hd] at h
    dsimp only at h
    split at h
    next hmid =>
      cases h
      obtain ⟨⟨j, hj⟩, -⟩ := of_completeItems hds
      exact ⟨fuel, d, mid, j, rfl, hd, hj, .inl ⟨hmid, rfl⟩⟩
    next more hmid =>
      obtain ⟨ds', ending, after, hmore⟩ : ∃ ds' ending after,
        items fuel level more = (ds', ending, after) := ⟨_, _, _, rfl⟩
      rw [hmore] at h
      cases h
      obtain ⟨⟨j, hj⟩, js, hjs⟩ := of_completeItems hds
      exact ⟨fuel, d, mid, j, rfl, hd, hj, .inr ⟨more, ds', js, hmid, hmore, hjs, rfl⟩⟩
    · cases h
    · cases h

theorem of_members {ds : List (Name × Draft)} {ms : List (String × Json)}
    (h : members fuel level cs = (ds, none, left)) (hds : completeMembers ds = .ok ms) :
    ∃ f s d mid j, fuel = f + 1 ∧ ReadsMember f level cs s d mid ∧ d.complete = .ok j ∧
      (skipBlanks mid = '\x7d' :: left ∧ ds = [(.text s, d)] ∨
        ∃ more ds' ms', skipBlanks mid = ',' :: more ∧ members f level more = (ds', none, left) ∧
          completeMembers ds' = .ok ms' ∧ ds = (.text s, d) :: ds') := by
  cases fuel with
  | zero => cases h
  | succ fuel =>
    unfold members at h
    split at h
    · cases h
    next quoted hquoted =>
      split at h
      · cases h
      next name after _ hname =>
        extract_lets label at h
        split at h
        next d mid hd =>
        -- whatever follows the name and its value, the member itself is complete
        have hmember (hd' : ∃ j, d.complete = .ok j) (hlabel : ∃ s, label = .text s) :
            ∃ s j, label = .text s ∧ ReadsMember fuel level cs s d mid ∧ d.complete = .ok j := by
          obtain ⟨j, hj⟩ := hd'
          obtain ⟨s, hs⟩ := hlabel
          have hname' : name = string s := by
            simp only [label] at hs
            split at hs
            · cases hs
              rfl
            · cases hs
          subst hname'
          split at hd
          next text hcolon =>
            exact ⟨s, j, hs, ⟨quoted, after, text, hquoted, hname, hcolon, hd⟩, hj⟩
          · cases hd
            cases hj
          · cases hd
            cases hj
        clear_value label
        split at h
        next hmid =>
          cases h
          obtain ⟨hlabel, hj, -⟩ := of_completeMembers hds
          obtain ⟨s, j, rfl, hmember, hj⟩ := hmember hj hlabel
          exact ⟨fuel, s, d, mid, j, rfl, hmember, hj, .inl ⟨hmid, rfl⟩⟩
        next more hmid =>
          obtain ⟨ds', ending, after, hmore⟩ : ∃ ds' ending after,
            members fuel level more = (ds', ending, after) := ⟨_, _, _, rfl⟩
          rw [hmore] at h
          cases h
          obtain ⟨hlabel, hj, ms, hms⟩ := of_completeMembers hds
          obtain ⟨s, j, rfl, hmember, hj⟩ := hmember hj hlabel
          exact ⟨fuel, s, d, mid, j, rfl, hmember, hj, .inr ⟨more, ds', ms, hmid, hmore, hms, rfl⟩⟩
        · cases h
        · cases h
    · cases h

end

/-! ### Drafts -/

theorem ofNumber_append (hrest : Clear isNumberPart rest) {c : Char} {cs left : List Char}
    {d : Draft} {j : Json} (h : ofNumber c cs = (d, left)) (hd : d.complete = .ok j) :
    ofNumber c (cs ++ rest) = (d, left ++ rest) := by
  unfold ofNumber at h
  split at h
  · cases h
    cases hd
  next n after hn =>
    split at h
    next m hm =>
      cases h
      simp only [ofNumber, numeral_append hrest hn, hm]
    · cases h
      cases hd

mutual

/-- A document is drafted in the same way if the text goes on, and if more fuel is left. -/
theorem value_append (hrest : Clear isNumberPart rest) :
    ∀ {fuel fuel' level : Nat} {cs left : List Char} {d : Draft} {j : Json}, fuel ≤ fuel' →
    value fuel level cs = (d, left) → d.complete = .ok j →
    value fuel' level (cs ++ rest) = (d, left ++ rest) := by
  intro fuel fuel' level cs left d j hle h hd
  match fuel, fuel' with
  | 0, _ =>
    cases h
    cases hd
  | fuel + 1, fuel' + 1 =>
    have hle := Nat.le_of_succ_le_succ hle
    cases hc : skipBlanks cs with
    | nil =>
      rw [value, hc] at h
      cases h
      cases hd
    | cons c more =>
      have hc' := skipBlanks_append hc rest
      by_cases hbracket : c = '['
      · subst hbracket
        rcases of_value_array h hd hc with
          ⟨hmore, rfl⟩ | ⟨e, after, ds, js, hmore, he, hds, hjs, rfl⟩
        · exact value_empty_array hc' (skipBlanks_append hmore rest) fuel' level
        · rw [value_array hc' (skipBlanks_append hmore rest) he, ← List.cons_append,
            items_append hrest hle hds hjs]
      · by_cases hbrace : c = '\x7b'
        · subst hbrace
          rcases of_value_object h hd hc with
            ⟨hmore, rfl⟩ | ⟨e, after, ds, ms, hmore, he, hds, hms, rfl⟩
          · exact value_empty_object hc' (skipBlanks_append hmore rest) fuel' level
          · rw [value_object hc' (skipBlanks_append hmore rest) he, ← List.cons_append,
              members_append hrest hle hds hms]
        · rw [value, hc] at h
          rw [value, hc']
          simp only [beq_iff_eq, hbracket, hbrace, if_false] at h ⊢
          split_ifs at h ⊢
          · exact ofQuoted_append h hd
          · exact ofWord_append h hd
          · exact ofWord_append h hd
          · exact ofWord_append h hd
          · exact ofNumber_append hrest h hd
          · cases h
            cases hd

theorem items_append (hrest : Clear isNumberPart rest) :
    ∀ {fuel fuel' level : Nat} {cs left : List Char} {ds : List Draft} {js : List Json},
    fuel ≤ fuel' → items fuel level cs = (ds, none, left) →
    completeItems ds = .ok js → items fuel' level (cs ++ rest) = (ds, none, left ++ rest) := by
  intro fuel fuel' level cs left ds js hle h hds
  obtain ⟨f, d, mid, j, rfl, hd, hj, hrest'⟩ := of_items h hds
  obtain ⟨fuel', rfl⟩ : ∃ f', fuel' = f' + 1 := ⟨fuel' - 1, by omega⟩
  have hle := Nat.le_of_succ_le_succ hle
  have hfirst := value_append hrest hle hd hj
  rcases hrest' with ⟨hmid, rfl⟩ | ⟨more, ds', js', hmid, hmore, hjs, rfl⟩
  · exact items_last hfirst (skipBlanks_append hmid rest)
  · exact items_more hfirst (skipBlanks_append hmid rest) (items_append hrest hle hmore hjs)

theorem members_append (hrest : Clear isNumberPart rest) :
    ∀ {fuel fuel' level : Nat} {cs left : List Char}
    {ds : List (Name × Draft)} {ms : List (String × Json)}, fuel ≤ fuel' →
    members fuel level cs = (ds, none, left) → completeMembers ds = .ok ms →
    members fuel' level (cs ++ rest) = (ds, none, left ++ rest) := by
  intro fuel fuel' level cs left ds ms hle h hds
  obtain ⟨f, s, d, mid, j, rfl, hmember, hj, hrest'⟩ := of_members h hds
  obtain ⟨fuel', rfl⟩ : ∃ f', fuel' = f' + 1 := ⟨fuel' - 1, by omega⟩
  have hle := Nat.le_of_succ_le_succ hle
  obtain ⟨quoted, after, text, hquoted, hname, hcolon, hd⟩ := hmember
  have hfirst : ReadsMember fuel' level (cs ++ rest) s d (mid ++ rest) :=
    ⟨quoted ++ rest, after ++ rest, text ++ rest, skipBlanks_append hquoted rest,
      ofQuoted_append hname rfl, skipBlanks_append hcolon rest, value_append hrest hle hd hj⟩
  rcases hrest' with ⟨hmid, rfl⟩ | ⟨more, ds', ms', hmid, hmore, hms, rfl⟩
  · exact members_last hfirst (skipBlanks_append hmid rest)
  · exact members_more hfirst (skipBlanks_append hmid rest) (members_append hrest hle hmore hms)

end

end Draft

/-- A document at the front of a text is read in the same way if the text goes on. -/
theorem readPrefix_append (hrest : Clear isNumberPart rest) {cs left : List Char} {j : Json}
    (h : readPrefix cs = .ok (j, left)) : readPrefix (cs ++ rest) = .ok (j, left ++ rest) := by
  obtain ⟨d, after, hd⟩ : ∃ d after, Draft.ofText cs = (d, after) := ⟨_, _, rfl⟩
  unfold readPrefix at h ⊢
  rw [hd] at h
  cases hj : d.complete with
  | error f => simp [hj, Except.map] at h
  | ok k =>
    simp only [hj, Except.map, Except.ok.injEq, Prod.mk.injEq] at h
    obtain ⟨rfl, rfl⟩ := h
    have hmore : Draft.ofText (cs ++ rest) = (d, after ++ rest) :=
      Draft.value_append hrest (by simp only [List.length_append]; omega) hd hj
    simp only [hmore, hj, Except.map]

end TreeQuery.Json
