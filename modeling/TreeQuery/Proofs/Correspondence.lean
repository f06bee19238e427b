import Mathlib.Data.List.Forall2
import Mathlib.Data.List.Perm.Basic

/-! Lists whose entries are related. Two lists correspond in order if they are related entry by
entry, and in any order if that is so once the first has been rearranged. What is true of both is
gathered in one structure, so that a search which visits the children of related values can be
followed on both sides without saying whether it visits them in the same order. -/

variable {α β γ δ : Type}

theorem List.Forall₂.getElem? {r : α → β → Prop} {l : List α} {l' : List β}
    (h : List.Forall₂ r l l') (i : Nat) : Option.Rel r l[i]? l'[i]? := by
  induction h generalizing i with
  | nil => exact .none
  | cons hab _ ih =>
    cases i with
    | zero => exact .some hab
    | succ i => exact ih i

theorem List.Forall₂.exists_of_mem_right {r : α → β → Prop} {l : List α} {l' : List β}
    (h : List.Forall₂ r l l') {b : β} (hb : b ∈ l') : ∃ a ∈ l, r a b := by
  induction h with
  | nil => simp at hb
  | cons hab _ ih =>
    rcases List.mem_cons.mp hb with rfl | hb
    · exact ⟨_, by simp, hab⟩
    · obtain ⟨a, ha, hab⟩ := ih hb
      exact ⟨a, by simp [ha], hab⟩

theorem List.Forall₂.headD {r : α → α → Prop} {l l' : List α} (h : List.Forall₂ r l l') (d : α) :
    Relation.ReflGen r (l.headD d) (l'.headD d) := by
  cases h with
  | nil => exact .refl
  | cons hab _ => exact .single hab

theorem List.Forall₂.of_map {r : α → β → Prop} {f : α → β} {l : List α}
    (h : ∀ a ∈ l, r a (f a)) : List.Forall₂ r l (l.map f) :=
  List.forall₂_map_right_iff.mpr (List.forall₂_same.mpr h)

theorem List.Forall₂.eq_map {r : α → β → Prop} {f : α → β} {l : List α} {l' : List β}
    (h : List.Forall₂ r l l') (hf : ∀ a b, r a b → b = f a) : l' = l.map f := by
  induction h with
  | nil => rfl
  | cons hab _ ih => rw [List.map_cons, ← ih, hf _ _ hab]

namespace Option.Rel

variable {r : α → β → Prop} {a : Option α} {b : Option β}

theorem of_isSome (h : a.isSome = b.isSome) (hr : ∀ x ∈ a, ∀ y ∈ b, r x y) :
    Option.Rel r a b := by
  cases a <;> cases b
  · exact .none
  · exact nomatch h
  · exact nomatch h
  · exact .some (hr _ rfl _ rfl)

theorem isSome_eq (h : Option.Rel r a b) : a.isSome = b.isSome := by
  cases h <;> rfl

theorem map {s : γ → δ → Prop} {f : α → γ} {g : β → δ} (h : Option.Rel r a b)
    (hs : ∀ x y, r x y → s (f x) (g y)) : Option.Rel s (a.map f) (b.map g) := by
  cases h with
  | none => exact .none
  | some hxy => exact .some (hs _ _ hxy)

theorem filter {p : α → Bool} {q : β → Bool} (h : Option.Rel r a b)
    (hpq : ∀ x y, r x y → p x = q y) : Option.Rel r (a.filter p) (b.filter q) := by
  cases h with
  | none => exact .none
  | @some x y hxy =>
    rw [Option.filter_some, Option.filter_some, hpq x y hxy]
    split
    · exact .some hxy
    · exact .none

theorem toList (h : Option.Rel r a b) : List.Forall₂ r a.toList b.toList := by
  cases h with
  | none => exact .nil
  | some hxy => exact .cons hxy .nil

end Option.Rel

namespace TreeQuery

/-! ### Related up to order -/

/-- The entries of the first list can be rearranged so that they are related to those of the second
one by one. -/
def Permuted (r : α → β → Prop) (l : List α) (l' : List β) : Prop :=
  ∃ m, l.Perm m ∧ List.Forall₂ r m l'

namespace Permuted

variable {r : α → β → Prop} {s : γ → δ → Prop} {l : List α} {l' : List β}

theorem of_forall₂ (h : List.Forall₂ r l l') : Permuted r l l' := ⟨l, .refl l, h⟩

theorem refl {r : α → α → Prop} (h : ∀ a, r a a) (l : List α) : Permuted r l l :=
  of_forall₂ (List.forall₂_same.mpr fun a _ => h a)

theorem mono {r' : α → β → Prop} (h : Permuted r l l') (hr : ∀ a b, r a b → r' a b) :
    Permuted r' l l' := by
  obtain ⟨m, hm, hml⟩ := h
  exact ⟨m, hm, hml.imp fun a b => hr a b⟩

theorem flatMap {f : α → List γ} {g : β → List δ} (h : Permuted r l l')
    (hs : ∀ a ∈ l, ∀ b, r a b → Permuted s (f a) (g b)) :
    Permuted s (l.flatMap f) (l'.flatMap g) := by
  obtain ⟨m, hm, hml⟩ := h
  replace hs : ∀ a ∈ m, ∀ b, r a b → Permuted s (f a) (g b) :=
    fun a ha => hs a (hm.mem_iff.mpr ha)
  -- the parts are put together in the order of the rearranged list
  suffices h : Permuted s (m.flatMap f) (l'.flatMap g) by
    obtain ⟨k, hk, hkl⟩ := h
    exact ⟨k, (hm.flatMap_right f).trans hk, hkl⟩
  clear hm
  induction hml with
  | nil => exact of_forall₂ .nil
  | cons hab _ ih =>
    obtain ⟨k, hk, hkl⟩ := hs _ (by simp) _ hab
    obtain ⟨k', hk', hkl'⟩ := ih fun a ha => hs a (by simp [ha])
    exact ⟨k ++ k', hk.append hk', List.rel_append hkl hkl'⟩

theorem any_eq {p : α → Bool} {q : β → Bool} (h : Permuted r l l')
    (hpq : ∀ a ∈ l, ∀ b, r a b → p a = q b) : l.any p = l'.any q := by
  obtain ⟨m, hm, hml⟩ := h
  replace hpq : ∀ a ∈ m, ∀ b, r a b → p a = q b := fun a ha => hpq a (hm.mem_iff.mpr ha)
  rw [hm.any_eq]
  clear hm
  induction hml with
  | nil => rfl
  | cons hab _ ih =>
    rw [List.any_cons, List.any_cons, hpq _ (by simp) _ hab, ih fun a ha => hpq a (by simp [ha])]

theorem all_eq {p : α → Bool} {q : β → Bool} (h : Permuted r l l')
    (hpq : ∀ a ∈ l, ∀ b, r a b → p a = q b) : l.all p = l'.all q := by
  rw [List.all_eq_not_any_not, List.all_eq_not_any_not,
    h.any_eq fun a ha b hab => congrArg (!·) (hpq a ha b hab)]

/-- A list of at most one entry has no other order. -/
theorem forall₂_of_length_le_one (h : Permuted r l l') (hl : l.length ≤ 1) :
    List.Forall₂ r l l' := by
  obtain ⟨m, hm, hml⟩ := h
  match l, hl with
  | [], _ => rwa [List.nil_perm.mp hm] at hml
  | [a], _ => rwa [← List.singleton_perm.mp hm] at hml

/-- Lists with the same keys, each of them once, correspond if what they have under each key is
related. -/
theorem of_keys {κ : Type} {l : List (κ × α)} {l' : List (κ × β)} (hl : (l.map (·.1)).Nodup)
    (hl' : (l'.map (·.1)).Nodup) (hkeys : ∀ k, k ∈ l.map (·.1) ↔ k ∈ l'.map (·.1))
    (hr : ∀ k x y, (k, x) ∈ l → (k, y) ∈ l' → r x y) :
    Permuted (fun c d => c.1 = d.1 ∧ r c.2 d.2) l l' := by
  have hself : List.Forall₂ (fun (c : κ × α) k => c.1 = k) l (l.map (·.1)) := by
    rw [List.forall₂_map_right_iff]
    exact List.forall₂_same.mpr fun _ _ => rfl
  have hperm : (l.map (·.1)).Perm (l'.map (·.1)) := (List.perm_ext_iff_of_nodup hl hl').mpr hkeys
  -- rearranging the keys of the first list rearranges the list
  have hcomp : Relation.Comp (List.Forall₂ fun (c : κ × α) k => c.1 = k) List.Perm l
      (l'.map (·.1)) := ⟨_, hself, hperm⟩
  rw [List.forall₂_comp_perm_eq_perm_comp_forall₂] at hcomp
  obtain ⟨m, hm, hml⟩ := hcomp
  rw [List.forall₂_map_right_iff, List.forall₂_iff_zip] at hml
  refine ⟨m, hm, List.forall₂_iff_zip.mpr ⟨hml.1, fun {c d} hcd => ?_⟩⟩
  have hk := hml.2 hcd
  obtain ⟨hc, hd⟩ := List.of_mem_zip hcd
  obtain ⟨k, x⟩ := c
  obtain ⟨k', y⟩ := d
  obtain rfl : k = k' := hk
  exact ⟨rfl, hr k x y (hm.mem_iff.mpr hc) hd⟩

end Permuted

/-! ### In order or not -/

theorem filter_eq_flatMap (p : α → Bool) (l : List α) :
    l.filter p = l.flatMap fun a => if p a then [a] else [] := by
  induction l with
  | nil => rfl
  | cons a l ih => cases h : p a <;> simp [h, ih]

/-- A way for lists to correspond when their entries are related. It is kept when each entry is
replaced by a list of its own, and related entries by lists that correspond. -/
structure Correspondence where
  holds : ∀ {α β : Type}, (α → β → Prop) → List α → List β → Prop
  of_forall₂ : ∀ {α β : Type} {r : α → β → Prop} {l : List α} {l' : List β},
    List.Forall₂ r l l' → holds r l l'
  flatMap : ∀ {α β γ δ : Type} {r : α → β → Prop} {s : γ → δ → Prop} {l : List α} {l' : List β}
    {f : α → List γ} {g : β → List δ}, holds r l l' →
    (∀ a ∈ l, ∀ b, r a b → holds s (f a) (g b)) → holds s (l.flatMap f) (l'.flatMap g)
  permuted : ∀ {α β : Type} {r : α → β → Prop} {l : List α} {l' : List β},
    holds r l l' → Permuted r l l'

namespace Correspondence

/-- Entry by entry. -/
def inOrder : Correspondence where
  holds := List.Forall₂
  of_forall₂ := id
  flatMap h hs := by
    induction h with
    | nil => exact .nil
    | cons hab _ ih =>
      exact List.rel_append (hs _ (by simp) _ hab) (ih fun a ha => hs a (by simp [ha]))
  permuted := .of_forall₂

/-- Entry by entry after rearranging one of the lists. -/
def anyOrder : Correspondence where
  holds := Permuted
  of_forall₂ := .of_forall₂
  flatMap := .flatMap
  permuted := id

variable (L : Correspondence) {r : α → β → Prop} {s : γ → δ → Prop} {l m : List α}
  {l' m' : List β}

theorem append (h : L.holds r l l') (hm : L.holds r m m') : L.holds r (l ++ m) (l' ++ m') := by
  have hparts : List.Forall₂ (L.holds r) [l, m] [l', m'] := .cons h (.cons hm .nil)
  simpa using L.flatMap (f := id) (g := id) (L.of_forall₂ hparts) fun _ _ _ hab => hab

theorem map {f : α → γ} {g : β → δ} (h : L.holds r l l') (hs : ∀ a b, r a b → s (f a) (g b)) :
    L.holds s (l.map f) (l'.map g) := by
  rw [List.map_eq_flatMap, List.map_eq_flatMap]
  exact L.flatMap h fun a _ b hab => L.of_forall₂ (.cons (hs a b hab) .nil)

theorem filter {p : α → Bool} {q : β → Bool} (h : L.holds r l l')
    (hpq : ∀ a b, r a b → p a = q b) : L.holds r (l.filter p) (l'.filter q) := by
  rw [filter_eq_flatMap p, filter_eq_flatMap q]
  refine L.flatMap h fun a _ b hab => L.of_forall₂ ?_
  rw [hpq a b hab]
  split
  · exact .cons hab .nil
  · exact .nil

end Correspondence

end TreeQuery
