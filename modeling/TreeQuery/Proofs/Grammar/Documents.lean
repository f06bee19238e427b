import TreeQuery.Proofs.Grammar.Numbers
import TreeQuery.Proofs.Value.Literal

/-! Documents in front of something else. The text of a literal is read back as an equal value,
whatever follows it, as long as that cannot continue a number. The induction follows the value; the
fuel that reading spends is bounded by the length of the text, and the level goes up by one with
each container. -/

namespace TreeQuery

open Grammar (Clear clear_cons isNumberPart)

namespace Value

/-- A literal whose numbers are read back. -/
abbrev ReadsBack (v : Value) : Prop := v.IsLiteral NumberReadsBack 0

/-! ### The text of a value -/

/-- The text of the document of a value. -/
def text (v : Value) : List Char := v.toJson.compact.toList

def itemsText (items : List Value) : List Char :=
  (",".intercalate (Json.compactItems (itemsJson items))).toList

def membersText (members : List (String × Value)) : List Char :=
  (",".intercalate (Json.compactMembers (membersJson members))).toList

theorem text_array (items : List Value) :
    (array items).text = '[' :: (itemsText items ++ [']']) := by
  simp [text, itemsText, toJson, Json.compact]

theorem text_object (members : List (String × Value)) :
    (object members).text = '\x7b' :: (membersText members ++ ['\x7d']) := by
  simp [text, membersText, toJson, Json.compact]

theorem itemsText_singleton (x : Value) : itemsText [x] = x.text := by
  simp [text, itemsText, itemsJson, Json.compactItems]

theorem itemsText_cons_cons (x y : Value) (rest : List Value) :
    itemsText (x :: y :: rest) = x.text ++ ',' :: itemsText (y :: rest) := by
  simp [text, itemsText, itemsJson, Json.compactItems, String.intercalate_cons_cons]

/-- The text of a member. -/
def memberText (m : String × Value) : List Char := (Text.document m.1).toList ++ ':' :: m.2.text

theorem membersText_singleton {m : String × Value} (hm : m.2.isAbsent = false) :
    membersText [m] = memberText m := by
  obtain ⟨s, x⟩ := m
  simp only at hm
  simp [text, membersText, memberText, membersJson, Json.compactMembers, hm]

theorem membersText_cons_cons {m n : String × Value} {rest : List (String × Value)}
    (hm : m.2.isAbsent = false) (hn : n.2.isAbsent = false) :
    membersText (m :: n :: rest) = memberText m ++ ',' :: membersText (n :: rest) := by
  obtain ⟨s, x⟩ := m
  obtain ⟨t, y⟩ := n
  simp only at hm hn
  simp [text, membersText, memberText, membersJson, Json.compactMembers, hm, hn,
    String.intercalate_cons_cons]

/-- A text is not mistaken for the end of an array. -/
theorem text_start {v : Value} {level : Nat} (hv : v.IsLiteral NumberReadsBack level) :
    ∃ c cs, v.text = c :: cs ∧ Json.isBlank c = false ∧ c ≠ ']' := by
  cases v with
  | absent => exact absurd hv.isPresent (by decide)
  | null => exact ⟨'n', _, rfl, by decide, by decide⟩
  | bool b => cases b <;> exact ⟨_, _, rfl, by decide, by decide⟩
  | number x =>
    obtain ⟨c, cs, -, -, htext, hc, -⟩ := hv.of_number.spelled
    have hne : ∀ d, (d == '-' || Json.isDigit d) = false → c ≠ d :=
      fun d hd => Grammar.ne_of_holds (p := fun d => d == '-' || Json.isDigit d) hc hd
    refine ⟨c, cs, htext, ?_, hne ']' rfl⟩
    simp [Json.isBlank, hne ' ' rfl, hne '\t' rfl, hne '\n' rfl, hne '\r' rfl]
  | string s => exact ⟨'"', _, Text.toList_document s, by decide, by decide⟩
  | array items => exact ⟨_, _, text_array items, by decide, by decide⟩
  | object members => exact ⟨_, _, text_object members, by decide, by decide⟩

theorem itemsText_start {x : Value} {more : List Value} {level : Nat}
    (h : ∀ y ∈ x :: more, y.IsLiteral NumberReadsBack level) :
    ∃ c cs, itemsText (x :: more) = c :: cs ∧ Json.isBlank c = false ∧ c ≠ ']' := by
  obtain ⟨c, cs, htext, hc⟩ := text_start (h x (by simp))
  cases more with
  | nil => exact ⟨c, cs, by rw [itemsText_singleton, htext], hc⟩
  | cons y more => exact ⟨c, _, by rw [itemsText_cons_cons, htext, List.cons_append], hc⟩

theorem membersText_start {m : String × Value} {more : List (String × Value)} {level : Nat}
    (h : ∀ n ∈ m :: more, n.2.IsLiteral NumberReadsBack level) :
    ∃ cs, membersText (m :: more) = '"' :: cs := by
  have hm := (h m (by simp)).isPresent
  cases more with
  | nil =>
    rw [membersText_singleton hm, memberText, Text.toList_document, List.cons_append]
    exact ⟨_, rfl⟩
  | cons n more =>
    rw [membersText_cons_cons hm (h n (by simp)).isPresent, memberText, Text.toList_document,
      List.cons_append, List.cons_append]
    exact ⟨_, rfl⟩

end Value

/-! ### What a draft starts with -/

namespace Json.Draft

theorem skipBlanks_of_not_blank {c : Char} (hc : isBlank c = false) (cs : List Char) :
    skipBlanks (c :: cs) = c :: cs := by
  simp [skipBlanks, hc]

theorem ofQuoted_document (s : String) (rest : List Char) :
    ofQuoted (s.toList.flatMap Text.documentChar ++ '"' :: rest) = (string s, rest) := by
  simp [ofQuoted, readText_flatMap]

theorem value_string (fuel level : Nat) (s : String) (rest : List Char) :
    value (fuel + 1) level ((Text.document s).toList ++ rest) = (string s, rest) := by
  rw [Text.toList_document, List.cons_append, List.append_assoc]
  exact ofQuoted_document s rest

theorem value_empty_array {cs more rest : List Char} (hcs : skipBlanks cs = '[' :: more)
    (hmore : skipBlanks more = ']' :: rest) (fuel level : Nat) :
    value (fuel + 1) level cs = (array (greatestDepth ≤ level) [] none, rest) := by
  rw [value, hcs]
  simp [hmore]

theorem value_array {c : Char} {cs more after : List Char} (hcs : skipBlanks cs = '[' :: more)
    (hmore : skipBlanks more = c :: after) (hc : c ≠ ']') (fuel level : Nat) :
    value (fuel + 1) level cs =
      (array (greatestDepth ≤ level) (items fuel (level + 1) (c :: after)).1
        (items fuel (level + 1) (c :: after)).2.1, (items fuel (level + 1) (c :: after)).2.2) := by
  rw [value, hcs]
  simp [hmore, hc]

theorem value_empty_object {cs more rest : List Char} (hcs : skipBlanks cs = '\x7b' :: more)
    (hmore : skipBlanks more = '\x7d' :: rest) (fuel level : Nat) :
    value (fuel + 1) level cs = (object (greatestDepth ≤ level) [] none, rest) := by
  rw [value, hcs]
  simp [hmore]

theorem value_object {c : Char} {cs more after : List Char} (hcs : skipBlanks cs = '\x7b' :: more)
    (hmore : skipBlanks more = c :: after) (hc : c ≠ '\x7d') (fuel level : Nat) :
    value (fuel + 1) level cs =
      (object (greatestDepth ≤ level) (members fuel (level + 1) (c :: after)).1
        (members fuel (level + 1) (c :: after)).2.1,
        (members fuel (level + 1) (c :: after)).2.2) := by
  rw [value, hcs]
  simp [hmore, hc]

/-- The last item of an array. -/
theorem items_last {fuel level : Nat} {cs mid rest : List Char} {d : Draft}
    (hd : value fuel level cs = (d, mid)) (hmid : skipBlanks mid = ']' :: rest) :
    items (fuel + 1) level cs = ([d], none, rest) := by
  rw [items, hd]
  simp only [hmid]

/-- An item that others follow. -/
theorem items_more {fuel level : Nat} {cs mid more rest : List Char} {d : Draft} {ds : List Draft}
    (hd : value fuel level cs = (d, mid)) (hmid : skipBlanks mid = ',' :: more)
    (hds : items fuel level more = (ds, none, rest)) :
    items (fuel + 1) level cs = (d :: ds, none, rest) := by
  rw [items, hd]
  simp only [hmid, hds]

/-- The name `s`, a colon and the value that is drafted as `d` are at the front of `cs`. -/
def ReadsMember (fuel level : Nat) (cs : List Char) (s : String) (d : Draft) (rest : List Char) :
    Prop :=
  ∃ quoted after text, skipBlanks cs = '"' :: quoted ∧ ofQuoted quoted = (string s, after) ∧
    skipBlanks after = ':' :: text ∧ value fuel level text = (d, rest)

theorem readsMember_document {fuel level : Nat} (s : String) {cs rest : List Char} {d : Draft}
    (hd : value fuel level cs = (d, rest)) :
    ReadsMember fuel level ((Text.document s).toList ++ ':' :: cs) s d rest := by
  rw [Text.toList_document, List.cons_append, List.append_assoc]
  exact ⟨_, _, cs, skipBlanks_of_not_blank (by decide) _, ofQuoted_document s (':' :: cs),
    skipBlanks_of_not_blank (by decide) cs, hd⟩

section

variable {fuel level : Nat} {cs mid rest : List Char} {s : String} {d : Draft}
  (hmember : ReadsMember fuel level cs s d mid)

include hmember

theorem members_last (hmid : skipBlanks mid = '\x7d' :: rest) :
    members (fuel + 1) level cs = ([(.text s, d)], none, rest) := by
  obtain ⟨quoted, after, text, hquoted, hname, hcolon, hd⟩ := hmember
  rw [members, hquoted]
  simp only [hname, hcolon, hd, hmid]

theorem members_more {more : List Char} {ms : List (Name × Draft)}
    (hmid : skipBlanks mid = ',' :: more) (hms : members fuel level more = (ms, none, rest)) :
    members (fuel + 1) level cs = ((.text s, d) :: ms, none, rest) := by
  obtain ⟨quoted, after, text, hquoted, hname, hcolon, hd⟩ := hmember
  rw [members, hquoted]
  simp only [hname, hcolon, hd, hmid, hms]

end

theorem complete_array {level : Nat} (hlevel : level < greatestDepth) {ds : List Draft}
    {js : List Json} (h : completeItems ds = .ok js) :
    (array (greatestDepth ≤ level) ds none).complete = .ok (.array js) := by
  rw [complete, if_neg (by simpa using hlevel), h]
  rfl

theorem complete_object {level : Nat} (hlevel : level < greatestDepth) {ds : List (Name × Draft)}
    {ms : List (String × Json)} (h : completeMembers ds = .ok ms) :
    (object (greatestDepth ≤ level) ds none).complete = .ok (.object ms) := by
  rw [complete, if_neg (by simpa using hlevel), h]
  rfl

theorem completeItems_cons {d : Draft} {ds : List Draft} {j : Json} {js : List Json}
    (hd : d.complete = .ok j) (hds : completeItems ds = .ok js) :
    completeItems (d :: ds) = .ok (j :: js) := by
  rw [completeItems, hd, hds]
  rfl

theorem completeMembers_cons {s : String} {d : Draft} {ds : List (Name × Draft)} {j : Json}
    {ms : List (String × Json)} (hd : d.complete = .ok j) (hds : completeMembers ds = .ok ms) :
    completeMembers ((.text s, d) :: ds) = .ok ((s, j) :: ms) := by
  rw [completeMembers, hd, hds]
  rfl

end Json.Draft

/-! ### Reading a text back -/

namespace Value

theorem presentCount_of_present {members : List (String × Value)}
    (h : ∀ m ∈ members, m.2.isPresent = true) : presentCount members = members.length :=
  List.countP_eq_length.mpr h

/-- Members of the same names, of which each of the first has an equal one among the second, make
equal objects. -/
theorem equal_object {ms : List (String × Json)} {members : List (String × Value)}
    (hpresent : ∀ m ∈ members, m.2.isAbsent = false)
    (hnames : (ofMembers ms).map (·.1) = members.map (·.1))
    (h : equalMembers (ofMembers ms) members = true) :
    (object (ofMembers ms)).equal (object members) = true := by
  have hlength := congrArg List.length hnames
  rw [List.length_map, List.length_map] at hlength
  rw [equal, h, presentCount_of_present (present_ofMembers ms),
    presentCount_of_present fun m hm => by simp [isPresent, hpresent m hm], hlength]
  simp

open Json Draft in
mutual

/-- The text of a literal is drafted as a document that holds an equal value. -/
theorem draft_text : ∀ (v : Value) {level : Nat}, v.IsLiteral NumberReadsBack level →
    ∀ (fuel : Nat) (rest : List Char), 2 * v.text.length ≤ fuel → Clear isNumberPart rest →
    ∃ d j, Draft.value fuel level (v.text ++ rest) = (d, rest) ∧ d.complete = .ok j ∧
      (ofJson j).equal v = true := by
  intro v level hv fuel rest hfuel hrest
  obtain ⟨c, cs, htext, -⟩ := text_start hv
  obtain ⟨fuel, rfl⟩ : ∃ f, fuel = f + 1 := ⟨fuel - 1, by
    rw [htext, List.length_cons] at hfuel
    omega⟩
  cases v with
  | absent => exact absurd hv.isPresent (by decide)
  | null => exact ⟨.null, .null, rfl, rfl, rfl⟩
  | bool b => cases b <;> exact ⟨.bool _, .bool _, rfl, rfl, rfl⟩
  | number x =>
    obtain ⟨m, hm, hx⟩ := hv.of_number.value_append fuel level hrest
    exact ⟨.number m, .number m, hm, rfl, hx⟩
  | string s =>
    exact ⟨.string s, .string s, value_string fuel level s rest, rfl, by simp [ofJson, equal]⟩
  | array items =>
    cases items with
    | nil =>
      exact ⟨.array (greatestDepth ≤ level) [] none, .array [],
        value_empty_array rfl rfl fuel level, complete_array hv.lt_of_array rfl, rfl⟩
    | cons x items =>
      rw [text_array, List.length_cons, List.length_append, List.length_singleton] at hfuel
      obtain ⟨ds, js, hds, hjs, heq⟩ := draft_itemsText (x :: items) (List.cons_ne_nil _ _) hv.item
        fuel rest (by omega)
      refine ⟨.array (greatestDepth ≤ level) ds none, .array js, ?_,
        complete_array hv.lt_of_array hjs, by rwa [ofJson, equal]⟩
      obtain ⟨c, cs, htext, hblank, hc⟩ := itemsText_start hv.item
      rw [text_array, List.cons_append, List.append_assoc, List.singleton_append, htext,
        List.cons_append, value_array (skipBlanks_of_not_blank (by decide) _)
          (skipBlanks_of_not_blank hblank _) hc, ← List.cons_append, ← htext, hds]
  | object members =>
    cases members with
    | nil =>
      exact ⟨.object (greatestDepth ≤ level) [] none, .object [],
        value_empty_object rfl rfl fuel level, complete_object hv.lt_of_object rfl, rfl⟩
    | cons m members =>
      have hnames := hv.names.1
      rw [text_object, List.length_cons, List.length_append, List.length_singleton] at hfuel
      obtain ⟨ds, ms, hds, hms, heq, hfound⟩ := draft_membersText (m :: members)
        (List.cons_ne_nil _ _) hv.member fuel rest (by omega)
      refine ⟨.object (greatestDepth ≤ level) ds none, .object ms, ?_,
        complete_object hv.lt_of_object hms, ?_⟩
      · obtain ⟨cs, htext⟩ := membersText_start hv.member
        rw [text_object, List.cons_append, List.append_assoc, List.singleton_append, htext,
          List.cons_append, value_object (skipBlanks_of_not_blank (by decide) _)
            (skipBlanks_of_not_blank (by decide) _) (by decide), ← List.cons_append, ← htext, hds]
      · rw [ofJson, distinctMembers_of_nodup (heq ▸ hnames)]
        exact equal_object (hv.member · · |>.isPresent) heq
          (hfound _ fun n hn => (lookup_eq_some_iff hnames).mpr hn)

theorem draft_itemsText : ∀ (items : List Value), items ≠ [] → ∀ {level : Nat},
    (∀ x ∈ items, x.IsLiteral NumberReadsBack level) →
    ∀ (fuel : Nat) (rest : List Char), 2 * (itemsText items).length < fuel →
    ∃ ds js, Draft.items fuel level (itemsText items ++ ']' :: rest) = (ds, none, rest) ∧
      completeItems ds = .ok js ∧ equalItems (ofItems js) items = true := by
  intro items hne level hitems fuel rest hfuel
  obtain ⟨fuel, rfl⟩ : ∃ f, fuel = f + 1 := ⟨fuel - 1, by omega⟩
  match items with
  | [] => exact absurd rfl hne
  | [x] =>
    rw [itemsText_singleton] at hfuel ⊢
    obtain ⟨d, j, hd, hj, heq⟩ := draft_text x (hitems x (by simp)) fuel (']' :: rest)
      (by omega) (clear_cons.mpr rfl)
    exact ⟨[d], [j], items_last hd (skipBlanks_of_not_blank (by decide) rest),
      completeItems_cons hj rfl, by simp [ofItems, equalItems, heq]⟩
  | x :: y :: more =>
    rw [itemsText_cons_cons, List.length_append, List.length_cons] at hfuel
    obtain ⟨d, j, hd, hj, heq⟩ := draft_text x (hitems x (by simp)) fuel
      (',' :: (itemsText (y :: more) ++ ']' :: rest)) (by omega) (clear_cons.mpr rfl)
    obtain ⟨ds, js, hds, hjs, heqs⟩ := draft_itemsText (y :: more) (List.cons_ne_nil _ _)
      (fun z hz => hitems z (List.mem_cons_of_mem x hz)) fuel rest (by omega)
    refine ⟨d :: ds, j :: js, ?_, completeItems_cons hj hjs,
      by simp [ofItems, equalItems, heq, heqs]⟩
    rw [itemsText_cons_cons, List.append_assoc]
    exact items_more hd (skipBlanks_of_not_blank (by decide) _) hds

theorem draft_membersText : ∀ (members : List (String × Value)), members ≠ [] → ∀ {level : Nat},
    (∀ m ∈ members, m.2.IsLiteral NumberReadsBack level) →
    ∀ (fuel : Nat) (rest : List Char), 2 * (membersText members).length < fuel →
    ∃ ds ms, Draft.members fuel level (membersText members ++ '\x7d' :: rest) =
        (ds, none, rest) ∧ completeMembers ds = .ok ms ∧
      (ofMembers ms).map (·.1) = members.map (·.1) ∧
      ∀ ys, (∀ m ∈ members, ys.lookup m.1 = some m.2) → equalMembers (ofMembers ms) ys = true := by
  intro members hne level hmembers fuel rest hfuel
  obtain ⟨fuel, rfl⟩ : ∃ f, fuel = f + 1 := ⟨fuel - 1, by omega⟩
  match members with
  | [] => exact absurd rfl hne
  | [(s, x)] =>
    have hx := hmembers (s, x) (by simp)
    simp only [membersText_singleton hx.isPresent, memberText, List.length_append,
      List.length_cons] at hfuel
    obtain ⟨d, j, hd, hj, heq⟩ := draft_text x hx fuel ('\x7d' :: rest) (by omega)
      (clear_cons.mpr rfl)
    refine ⟨[(.text s, d)], [(s, j)], ?_, completeMembers_cons hj rfl, rfl, fun ys hys => ?_⟩
    · rw [membersText_singleton hx.isPresent, memberText, List.append_assoc]
      exact members_last (readsMember_document s hd) (skipBlanks_of_not_blank (by decide) rest)
    · simp [ofMembers, equalMembers, hys (s, x) (by simp), heq]
  | (s, x) :: n :: more =>
    have hx := hmembers (s, x) (by simp)
    have hn := hmembers n (by simp)
    simp only [membersText_cons_cons hx.isPresent hn.isPresent, memberText, List.length_append,
      List.length_cons] at hfuel
    obtain ⟨d, j, hd, hj, heq⟩ := draft_text x hx fuel
      (',' :: (membersText (n :: more) ++ '\x7d' :: rest)) (by omega) (clear_cons.mpr rfl)
    obtain ⟨ds, ms, hds, hms, hnames, hfound⟩ := draft_membersText (n :: more)
      (List.cons_ne_nil _ _) (fun m hm => hmembers m (List.mem_cons_of_mem _ hm)) fuel rest
      (by omega)
    refine ⟨(.text s, d) :: ds, (s, j) :: ms, ?_, completeMembers_cons hj hms,
      by simp [ofMembers, hnames], fun ys hys => ?_⟩
    · rw [membersText_cons_cons hx.isPresent hn.isPresent, memberText, List.append_assoc,
        List.append_assoc]
      exact members_more (readsMember_document s hd) (skipBlanks_of_not_blank (by decide) _) hds
    · have hmore := hfound ys fun m hm => hys m (List.mem_cons_of_mem _ hm)
      simp [ofMembers, equalMembers, hys (s, x) (by simp), heq, hmore]

end

end Value

/-! ### Literals -/

namespace Grammar

/-- What can follow an operand: nothing, a blank or a closing mark. -/
abbrev Stops : List Char → Prop := EndsIn [' ', ')', ']']

theorem reads_literal_of_start {cs rest : List Char} {v : Value}
    (hcs : Clear (fun c => c == 'n' || c == 't' || c == 'f' || c == '\'') cs)
    (h : Reads (oneOf [documentLiteral, numberLiteral]) cs v rest) :
    Reads literal ('\x60' :: cs) v rest := by
  have hn : Clear (· == 'n') cs := hcs.mono fun c hc => by simp [hc]
  have ht : Clear (· == 't') cs := hcs.mono fun c hc => by simp [hc]
  have hf : Clear (· == 'f') cs := hcs.mono fun c hc => by simp [hc]
  have hquote : Clear (· == '\'') cs := hcs.mono fun c hc => by simp [hc]
  refine (reads_char '\x60' cs).optional.bind ?_
  refine .later (((refuses_tag_of_clear hn _).bind _).bind _) ?_
  refine .later (((refuses_tag_of_clear ht _).bind _).bind _) ?_
  refine .later (((refuses_tag_of_clear hf _).bind _).bind _) ?_
  exact .later (((refuses_char hquote).bind _).bind _) h

theorem reads_documentLiteral {v : Value} (hv : v.ReadsBack)
    {rest : List Char} (hrest : Clear isNumberPart rest)
    (hstart : v.text.head?.any (fun c => c == '"' || c == '[' || c == '\x7b') = true) :
    ∃ w, Reads documentLiteral (v.text ++ rest) w rest ∧ w.equal v = true := by
  obtain ⟨d, j, hd, hj, heq⟩ := Value.draft_text v hv (2 * (v.text ++ rest).length + 2) rest
    (by simp only [List.length_append]; omega) hrest
  refine ⟨Value.ofJson j, ?_, heq⟩
  have hhead :
      (v.text ++ rest).head?.any (fun c => c == '"' || c == '[' || c == '\x7b') = true := by
    cases htext : v.text with
    | nil => simp [htext] at hstart
    | cons c cs => simpa [htext] using hstart
  unfold Reads documentLiteral
  rw [if_pos hhead, Json.readPrefix, Json.Draft.ofText, hd]
  simp only [hj, Except.map]

theorem reads_word (word : List Char) (v : Value) {rest : List Char} (h : Clear isNamePart rest) :
    Reads (do keyword word; return v) (word ++ rest) v rest :=
  (reads_keyword word h).bind (reads_pure v rest)

/-- A literal is read back as an equal value. -/
theorem reads_literal {v : Value} (hv : v.ReadsBack) {rest : List Char}
    (hrest : Stops rest) :
    ∃ w, Reads literal ('\x60' :: (v.text ++ rest)) w rest ∧ w.equal v = true := by
  have hname : Clear isNamePart rest := hrest.clear rfl
  have hnumber : Clear isNumberPart rest := hrest.clear rfl
  have hmark := fun cs => (reads_char '\x60' cs).optional
  match v with
  | .absent => exact absurd hv.isPresent (by decide)
  | .null =>
    exact ⟨.null, (hmark _).bind (reads_word ['n', 'u', 'l', 'l'] .null hname).first, rfl⟩
  | .bool true =>
    refine ⟨.bool true, (hmark _).bind (.later ?_ ?_), rfl⟩
    · exact (refuses_keyword rfl).bind _
    · exact (reads_word ['t', 'r', 'u', 'e'] (.bool true) hname).first
  | .bool false =>
    refine ⟨.bool false, (hmark _).bind (.later ?_ (.later ?_ ?_)), rfl⟩
    · exact (refuses_keyword rfl).bind _
    · exact (refuses_keyword rfl).bind _
    · exact (reads_word ['f', 'a', 'l', 's', 'e'] (.bool false) hname).first
  | .number x =>
    obtain ⟨y, hy, heq⟩ := hv.of_number.reads_numberLiteral hnumber
    obtain ⟨c, cs, -, -, htext, hc, -⟩ := hv.of_number.spelled
    have hno : ∀ d, (d == '-' || Json.isDigit d) = false → c ≠ d :=
      fun d hd => ne_of_holds (p := fun d => d == '-' || Json.isDigit d) hc hd
    refine ⟨.number y, ?_, by rwa [Value.equal]⟩
    rw [show (Value.number x).text = c :: cs from htext, List.cons_append]
    rw [htext, List.cons_append] at hy
    refine reads_literal_of_start ?_ (.later ?_ hy.first)
    · simp [hno 'n' rfl, hno 't' rfl, hno 'f' rfl, hno '\'' rfl]
    · refine ⟨⟨c :: (cs ++ rest), .operand, false⟩, ?_, rfl⟩
      rw [documentLiteral, if_neg]
      simp [hno '"' rfl, hno '[' rfl, hno '\x7b' rfl]
  | .string s =>
    have htext : (Value.string s).text = '"' :: _ := Text.toList_document s
    obtain ⟨w, hw, heq⟩ := reads_documentLiteral hv hnumber (by rw [htext]; rfl)
    rw [htext, List.cons_append] at hw ⊢
    exact ⟨w, reads_literal_of_start (clear_cons.mpr rfl) hw.first, heq⟩
  | .array items =>
    have htext := Value.text_array items
    obtain ⟨w, hw, heq⟩ := reads_documentLiteral hv hnumber (by rw [htext]; rfl)
    rw [htext, List.cons_append] at hw ⊢
    exact ⟨w, reads_literal_of_start (clear_cons.mpr rfl) hw.first, heq⟩
  | .object members =>
    have htext := Value.text_object members
    obtain ⟨w, hw, heq⟩ := reads_documentLiteral hv hnumber (by rw [htext]; rfl)
    rw [htext, List.cons_append] at hw ⊢
    exact ⟨w, reads_literal_of_start (clear_cons.mpr rfl) hw.first, heq⟩

end Grammar

end TreeQuery
