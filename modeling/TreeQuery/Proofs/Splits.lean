/-! Lists dealt out to two lists. Every entry of the whole goes to exactly one of the two parts,
and both parts keep the order of the whole. Equal entries at different places may go to different
parts. -/

namespace TreeQuery

variable {α β : Type}

/-- The entries of the first list, each dealt to one of the other two, in order. -/
inductive Splits : List α → List α → List α → Prop where
  | nil : Splits [] [] []
  | left {a : α} {whole l r : List α} (h : Splits whole l r) : Splits (a :: whole) (a :: l) r
  | right {a : α} {whole l r : List α} (h : Splits whole l r) : Splits (a :: whole) l (a :: r)

namespace Splits

/-- A test and its opposite split a list. -/
theorem filter (p : α → Bool) (l : List α) : Splits l (l.filter p) (l.filter fun a => !p a) := by
  induction l with
  | nil => exact .nil
  | cons a l ih =>
    cases h : p a with
    | true => simpa [h] using ih.left
    | false => simpa [h] using ih.right

theorem joined (l r : List α) : Splits (l ++ r) l r := by
  induction l with
  | nil =>
    induction r with
    | nil => exact .nil
    | cons a r ih => exact ih.right
  | cons a l ih => exact ih.left

/-- Nothing is lost and nothing is added. -/
theorem perm {whole l r : List α} (h : Splits whole l r) : whole.Perm (l ++ r) := by
  induction h with
  | nil => exact .refl _
  | left _ ih => exact ih.cons _
  | right _ ih => exact (ih.cons _).trans List.perm_middle.symm

theorem append {whole l r whole' l' r' : List α} (h : Splits whole l r)
    (h' : Splits whole' l' r') : Splits (whole ++ whole') (l ++ l') (r ++ r') := by
  induction h with
  | nil => exact h'
  | left _ ih => exact ih.left
  | right _ ih => exact ih.right

theorem map {whole l r : List α} (f : α → β) (h : Splits whole l r) :
    Splits (whole.map f) (l.map f) (r.map f) := by
  induction h with
  | nil => exact .nil
  | left _ ih => exact ih.left
  | right _ ih => exact ih.right

theorem flatMap {f g h : α → List β} (l : List α) (hs : ∀ a ∈ l, Splits (f a) (g a) (h a)) :
    Splits (l.flatMap f) (l.flatMap g) (l.flatMap h) := by
  induction l with
  | nil => exact .nil
  | cons a l ih =>
    rw [List.flatMap_cons, List.flatMap_cons, List.flatMap_cons]
    exact (hs a (by simp)).append (ih fun b hb => hs b (by simp [hb]))

end Splits

end TreeQuery
