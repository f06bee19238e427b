import TreeQuery.Proofs.Grammar.Reads

/-! What all readings of a parser have in common, whatever the text. Each combinator has a rule
that derives what it gives from what its parts give. -/

namespace TreeQuery.Grammar

variable {α β : Type}

/-- Whatever `p` reads satisfies `P`. -/
def Gives (P : α → Prop) (p : Parser α) : Prop := ∀ cs a rest, Reads p cs a rest → P a

variable {P : α → Prop} {Q : β → Prop}

theorem gives_true (p : Parser α) : Gives (fun _ => True) p := fun _ _ _ _ => trivial

theorem gives_pure {a : α} (ha : P a) : Gives P (pure a) := by
  intro cs b rest hread
  cases hread
  exact ha

/-! ### Sequences and alternatives -/

theorem Gives.bind {p : Parser α} {f : α → Parser β} (hp : Gives P p)
    (hf : ∀ a, P a → Gives Q (f a)) : Gives Q (p >>= f) := by
  intro cs b rest hread
  obtain ⟨a, mid, ha, hb⟩ := reads_bind_iff.mp hread
  exact hf a (hp _ _ _ ha) _ _ _ hb

/-- What is read first may not matter. -/
theorem gives_bind {p : Parser α} {f : α → Parser β} (hf : ∀ a, Gives Q (f a)) :
    Gives Q (p >>= f) :=
  (gives_true p).bind fun a _ => hf a

theorem Gives.or {p q : Parser α} {ps : List (Parser α)} (hp : Gives P p)
    (hq : Gives P (oneOf (q :: ps))) : Gives P (oneOf (p :: q :: ps)) := by
  intro cs a rest hread
  rcases reads_orElse_iff.mp hread with hread | ⟨-, hread⟩
  · exact hp _ _ _ hread
  · exact hq _ _ _ hread

theorem Gives.optional {p : Parser α} (hp : Gives P p) :
    Gives (fun a? => ∀ a ∈ a?, P a) (Grammar.optional p) := by
  intro cs a? rest hread a ha
  rcases reads_optional_iff.mp hread with ⟨b, rfl, hb⟩ | ⟨rfl, -⟩
  · cases ha
    exact hp _ _ _ hb
  · cases ha

theorem Gives.named {p : Parser α} (hp : Gives P p) (cause : Cause) :
    Gives P (Grammar.named cause p) := by
  intro cs a rest hread
  unfold Reads Grammar.named at hread
  split at hread
  · cases hread
  · exact hp _ _ _ hread

/-! ### Repetition -/

theorem Gives.many {p : Parser α} (hp : Gives P p) :
    Gives (fun as => ∀ a ∈ as, P a) (Grammar.many p) := by
  intro cs as rest hread
  induction as generalizing cs with
  | nil => exact List.forall_mem_nil _
  | cons a as ih =>
    rcases reads_many_iff.mp hread with ⟨has, -⟩ | ⟨a', more, mid, has, hfirst, -, hmore⟩
    · cases has
    · cases has
      exact List.forall_mem_cons.mpr ⟨hp _ _ _ hfirst, ih _ hmore⟩

theorem Gives.many1 {p : Parser α} (hp : Gives P p) :
    Gives (fun as => ∀ a ∈ as, P a) (Grammar.many1 p) :=
  hp.bind fun _ ha => hp.many.bind fun _ has =>
    gives_pure (List.forall_mem_cons.mpr ⟨ha, has⟩)

theorem gives_commaList (p : Parser α) : Gives (· ≠ []) (commaList p) :=
  gives_bind fun _ => gives_bind fun _ => gives_pure (List.cons_ne_nil _ _)

/-! ### Surroundings -/

theorem Gives.spaced {p : Parser α} (hp : Gives P p) : Gives P (Grammar.spaced p) :=
  gives_bind fun _ => hp.bind fun _ ha => gives_bind fun _ => gives_pure ha

theorem Gives.between {p : Parser α} (hp : Gives P p) (opening closing : List Char) :
    Gives P (Grammar.between opening p closing) :=
  gives_bind fun _ => hp.bind fun _ ha => gives_bind fun _ => gives_pure ha

end TreeQuery.Grammar
