import TreeQuery.Grammar.Condition
import TreeQuery.Proofs.Grammar.Numbers

/-! Parsers that a closing parenthesis stops. Names, numbers, scopes and slices are read, or
refused, in front of a closing parenthesis as they are at the end of a text. Quoted texts are not
among them: a quote that is not closed before the parenthesis may be closed behind it. -/

namespace TreeQuery.Grammar

variable {α β : Type} {rest : List Char}

/-! ### Rules -/

theorem isPrefixOf_append {word : List Char} (h : ∀ c ∈ word, Clear (· == c) rest)
    (cs : List Char) (hcs : word.isPrefixOf cs = false) : word.isPrefixOf (cs ++ rest) = false := by
  induction word generalizing cs with
  | nil => simp at hcs
  | cons w word ih =>
    obtain ⟨hw, hword⟩ := List.forall_mem_cons.mp h
    cases cs with
    | nil =>
      cases rest with
      | nil => exact hcs
      | cons c rest =>
        have hne : (c == w) = false := hw
        simp [List.isPrefixOf, Ne.symm (beq_eq_false_iff_ne.mp hne)]
    | cons c cs =>
      rw [List.isPrefixOf, Bool.and_eq_false_iff] at hcs
      rw [List.cons_append, List.isPrefixOf, Bool.and_eq_false_iff]
      exact hcs.imp_right (ih hword cs)

theorem reads_tag_iff {word cs left : List Char} {u : Unit} :
    Reads (tag word) cs u left ↔ cs = word ++ left := by
  constructor
  · intro hread
    unfold Reads tag at hread
    split at hread
    next hprefix =>
      obtain ⟨after, rfl⟩ := List.isPrefixOf_iff_prefix.mp hprefix
      rw [List.drop_left] at hread
      cases hread
      rfl
    · cases hread
  · rintro rfl
    exact reads_tag word left

theorem isPrefixOf_of_refuses {word cs : List Char} (h : Refuses (tag word) cs) :
    word.isPrefixOf cs = false := by
  obtain ⟨f, hf, -⟩ := h
  unfold tag at hf
  split at hf
  · cases hf
  next hprefix => exact eq_false_of_ne_true hprefix

theorem stopped_tag {word : List Char} (h : ∀ c ∈ word, Clear (· == c) rest) :
    Stopped (tag word) rest := by
  intro cs
  constructor
  · intro u left hread
    rw [reads_tag_iff] at hread ⊢
    rw [hread, List.append_assoc]
  · intro hrefuses
    exact refuses_tag (isPrefixOf_append h cs (isPrefixOf_of_refuses hrefuses))

theorem head?_append_any {p : Char → Bool} (h : Clear p rest) (cs : List Char) :
    (cs ++ rest).head?.any p = cs.head?.any p := by
  cases cs with
  | nil => exact h
  | cons c cs => rfl

theorem stopped_ahead {p : Char → Bool} {cause : Cause} (h : Clear p rest) :
    Stopped (ahead p cause) rest := by
  intro cs
  simp only [Reads, Refuses, ahead, head?_append_any h]
  cases cs.head?.any p <;> simp

theorem stopped_notAhead {p : Char → Bool} (h : Clear p rest) : Stopped (notAhead p) rest := by
  intro cs
  simp only [Reads, Refuses, notAhead, head?_append_any h]
  cases cs.head?.any p <;> simp

theorem stopped_spaces (h : Clear isSpace rest) : Stopped spaces rest :=
  (stopped_run h).bind fun _ => stopped_pure _ _

theorem Stopped.spaced {p : Parser α} (hp : Stopped p rest) (h : Clear isSpace rest) :
    Stopped (Grammar.spaced p) rest :=
  (stopped_spaces h).bind fun _ => hp.bind fun _ => (stopped_spaces h).bind fun _ =>
    stopped_pure _ _

theorem Stopped.between {p : Parser α} (hp : Stopped p rest) {opening closing : List Char}
    (hopening : ∀ c ∈ opening, Clear (· == c) rest)
    (hclosing : ∀ c ∈ closing, Clear (· == c) rest) :
    Stopped (Grammar.between opening p closing) rest :=
  (stopped_tag hopening).bind fun _ => hp.bind fun _ => (stopped_tag hclosing).bind fun _ =>
    stopped_pure _ _

/-- `p`, where what it reads has to pass a check. -/
def checked (p : Parser α) (check : α → Bool) (f : α → β) (cause : Cause) : Parser β := fun cs =>
  match p cs with
  | .ok (a, left) => if check a then .ok (f a, left) else .error ⟨cs, cause, false⟩
  | .error e => .error e

theorem Stopped.checked {p : Parser α} (hp : Stopped p rest) {check : α → Bool} {f : α → β}
    {cause : Cause} : Stopped (Grammar.checked p check f cause) rest := by
  intro cs
  obtain ⟨hreads, hrefuses⟩ := hp cs
  unfold Reads Refuses at *
  unfold Grammar.checked
  cases hcs : p cs with
  | ok x =>
    obtain ⟨a, left⟩ := x
    simp only [hreads a left hcs]
    cases check a <;> simp
  | error e =>
    refine ⟨by simp, fun ⟨f, hf, hc⟩ => ?_⟩
    obtain ⟨f, hf, hc⟩ := hrefuses ⟨e, hcs, by cases hf; exact hc⟩
    simp [hf, hc]

theorem operatorName_eq :
    operatorName = checked identifier (fun name => !keywords.contains name) id .rejected := by
  funext cs
  unfold operatorName checked
  cases identifier cs with
  | error f => rfl
  | ok x => cases keywords.contains x.1 <;> simp

theorem scopeIndex_eq : scopeIndex = optional
    (checked (run1 isDigit .number) (fun ds => Json.fitsUnsigned (Json.digitsValue ds))
      Json.digitsValue .number) := by
  unfold scopeIndex
  congr 1
  funext cs
  unfold checked
  cases run1 isDigit .number cs <;> rfl

/-- The whole number behind a sign. -/
def signed (negative : Bool) (ds : List Char) : Int :=
  if negative then -(Json.digitsValue ds : Int) else Json.digitsValue ds

theorem integer_eq : integer = (do
    let negative ← sign
    checked (run1 isDigit .number) (fun ds => Json.fitsSigned (signed negative ds))
      (signed negative) .number) := by
  funext cs
  change integer cs = (sign cs >>= fun x => checked _ _ _ _ x.2)
  unfold integer
  cases sign cs with
  | error f => rfl
  | ok x =>
    simp only [bind, Except.bind]
    unfold checked
    cases run1 isDigit .number x.2 <;> rfl

/-! ### What a closing parenthesis stops -/

section

variable (hrest : EndsIn [')'] rest)

include hrest

theorem stopped_mark {c : Char} (hc : c ≠ ')') : Stopped (char c) rest :=
  stopped_char (hrest.clear (by simpa using hc.symm))

theorem clear_of_mem {word : List Char} (hword : ')' ∉ word) : ∀ c ∈ word, Clear (· == c) rest := by
  intro c hc
  have hne : ')' ≠ c := fun h => hword (h ▸ hc)
  exact hrest.clear (by simpa using hne)

theorem stopped_keyword {word : List Char} (hword : ')' ∉ word) : Stopped (keyword word) rest :=
  (stopped_tag (clear_of_mem hrest hword)).bind fun _ => stopped_notAhead (hrest.clear rfl)

theorem stopped_identifier : Stopped identifier rest :=
  (stopped_ahead (hrest.clear rfl)).bind fun _ => (stopped_run (hrest.clear rfl)).bind fun _ =>
    stopped_pure _ _

theorem stopped_operatorName : Stopped operatorName rest := by
  rw [operatorName_eq]
  exact (stopped_identifier hrest).checked

theorem stopped_quantifier : Stopped quantifier rest :=
  .or ((stopped_keyword hrest (by decide)).bind fun _ => stopped_pure _ _)
    ((stopped_keyword hrest (by decide)).bind fun _ => stopped_pure _ _)

theorem stopped_integer : Stopped integer rest := by
  have hsign : Stopped sign rest :=
    .or ((stopped_mark hrest (by decide)).bind fun _ => stopped_pure _ _)
      (.or ((stopped_mark hrest (by decide)).bind fun _ => stopped_pure _ _) (stopped_pure _ _))
  rw [integer_eq]
  exact hsign.bind fun _ => (stopped_run1 (hrest.clear rfl)).checked

theorem stopped_scope : Stopped scope rest := by
  have hindex : Stopped scopeIndex rest := by
    rw [scopeIndex_eq]
    exact (stopped_run1 (hrest.clear rfl)).checked.optional
  exact .or ((stopped_mark hrest (by decide)).bind fun _ => hindex.bind fun _ => stopped_pure _ _)
    (.or ((stopped_mark hrest (by decide)).bind fun _ => hindex.bind fun _ => stopped_pure _ _)
      ((stopped_run1 (hrest.clear rfl)).bind fun _ => stopped_pure _ _))

theorem stopped_slice : Stopped slice rest := by
  have hpart : Stopped (optional (spaced integer)) rest :=
    ((stopped_integer hrest).spaced (hrest.clear rfl)).optional
  have hcolon : Stopped (char ':') rest := stopped_mark hrest (by decide)
  exact hpart.bind fun _ => hcolon.bind fun _ => hpart.bind fun _ =>
    (hcolon.bind fun _ => hpart).optional.bind fun _ => stopped_pure _ _

theorem stopped_dotSelector : Stopped dotSelector rest :=
  (stopped_mark hrest (by decide)).bind fun _ =>
    .or ((stopped_mark hrest (by decide)).bind fun _ => stopped_pure _ _)
      ((stopped_identifier hrest).bind fun _ => stopped_pure _ _)

theorem stopped_numberLiteral : Stopped numberLiteral rest :=
  (stopped_ahead (hrest.clear rfl)).bind fun _ => (stopped_float (hrest.clear rfl)).bind fun _ =>
    stopped_pure _ _

end

end TreeQuery.Grammar
