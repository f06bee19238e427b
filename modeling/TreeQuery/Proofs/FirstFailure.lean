import Mathlib.Data.List.Forall2
import TreeQuery.Log

/-! Computations that may fail, one after the other. Together they give the results of all of them,
or the failure of the first that fails; what comes after that one makes no difference. This is so
for the entries of a list, and for two computations of which the second may be left out. -/

variable {ε δ α β : Type}

namespace Except

/-- A result with that of a second computation, if there is one. -/
def withOptional (x : Except ε α) (y : Option (Except ε β)) : Except ε (α × Option β) :=
  x.bind fun a => match y with
    | none => .ok (a, none)
    | some y => y.map fun b => (a, some b)

variable {x : Except ε α} {y : Option (Except ε β)}

theorem withOptional_ok_iff {a : α} {b : Option β} :
    x.withOptional y = .ok (a, b) ↔ x = .ok a ∧ y = b.map .ok := by
  cases x with
  | error e => simp [withOptional, Except.bind]
  | ok a' =>
    rcases y with _ | e | b' <;> cases b <;> simp [withOptional, Except.bind, Except.map]

theorem withOptional_error_iff {e : ε} :
    x.withOptional y = .error e ↔ x = .error e ∨ (∃ a, x = .ok a) ∧ y = some (.error e) := by
  cases x with
  | error e' => simp [withOptional, Except.bind]
  | ok a => rcases y with _ | e' | b <;> simp [withOptional, Except.bind, Except.map]

/-- Other words for what comes out make no difference to whether it is a failure. -/
theorem mapError_map_ok_iff {f : α → β} {g : ε → δ} {b : β} :
    (x.map f).mapError g = .ok b ↔ ∃ a, x = .ok a ∧ b = f a := by
  cases x <;> simp [Except.map, Except.mapError, eq_comm]

theorem mapError_map_error_iff {f : α → β} {g : ε → δ} {d : δ} :
    (x.map f).mapError g = .error d ↔ ∃ e, x = .error e ∧ d = g e := by
  cases x <;> simp [Except.map, Except.mapError, eq_comm]

theorem bind_ok_iff {x : Except ε α} {f : α → Except ε β} {b : β} :
    x.bind f = .ok b ↔ ∃ a, x = .ok a ∧ f a = .ok b := by
  cases x <;> simp [Except.bind]

theorem bind_error_iff {x : Except ε α} {f : α → Except ε β} {e : ε} :
    x.bind f = .error e ↔ x = .error e ∨ ∃ a, x = .ok a ∧ f a = .error e := by
  cases x <;> simp [Except.bind]

/-- What fails for a reason that is there, if there is one, succeeds if there is none. -/
theorem succeeds_iff_eq_none {x : Except ε α} {reason : Option β} {f : β → ε}
    (h : ∀ {e}, x = .error e ↔ ∃ b, reason = some b ∧ e = f b) :
    (∃ a, x = .ok a) ↔ reason = none := by
  cases reason with
  | some b =>
    have hfails : x = .error (f b) := h.mpr ⟨b, rfl, rfl⟩
    simp [hfails]
  | none =>
    cases x with
    | error e =>
      obtain ⟨b, hb, -⟩ := h.mp rfl
      cases hb
    | ok a => simp

end Except

namespace List

section

variable {f : α → Except ε β} {a : α} {l : List α}

theorem mapM_cons_ok_iff {l' : List β} :
    (a :: l).mapM f = .ok l' ↔ ∃ b, f a = .ok b ∧ ∃ more, l.mapM f = .ok more ∧ l' = b :: more := by
  rw [mapM_cons]
  cases f a with
  | error e => simp [bind, Except.bind]
  | ok b =>
    cases l.mapM f with
    | error e => simp [bind, Except.bind]
    | ok more => simp [bind, Except.bind, pure, Except.pure, eq_comm]

theorem mapM_cons_error_iff {e : ε} :
    (a :: l).mapM f = .error e ↔ f a = .error e ∨ (∃ b, f a = .ok b) ∧ l.mapM f = .error e := by
  rw [mapM_cons]
  cases f a with
  | error e' => simp [bind, Except.bind]
  | ok b => cases l.mapM f <;> simp [bind, Except.bind, pure, Except.pure]

end

variable {f : α → Except ε β} {l : List α}

theorem mapM_ok_iff_forall₂ {l' : List β} :
    l.mapM f = .ok l' ↔ Forall₂ (fun a b => f a = .ok b) l l' := by
  induction l generalizing l' with
  | nil => simp [pure, Except.pure, eq_comm]
  | cons a l ih => simp only [mapM_cons_ok_iff, forall₂_cons_left_iff, exists_and_left, ih]

theorem mapM_succeeds_iff : (∃ l', l.mapM f = .ok l') ↔ ∀ a ∈ l, ∃ b, f a = .ok b := by
  induction l with
  | nil => simp [pure, Except.pure]
  | cons a l ih =>
    rw [forall_mem_cons, ← ih]
    simp only [mapM_cons_ok_iff]
    constructor
    · rintro ⟨_, b, hb, more, hmore, -⟩
      exact ⟨⟨b, hb⟩, more, hmore⟩
    · rintro ⟨⟨b, hb⟩, more, hmore⟩
      exact ⟨_, b, hb, more, hmore, rfl⟩

/-- The failure is that of the first entry that fails. -/
theorem mapM_error_iff {e : ε} :
    l.mapM f = .error e ↔ ∃ before a after, l = before ++ a :: after ∧
      (∀ b ∈ before, ∃ c, f b = .ok c) ∧ f a = .error e := by
  induction l with
  | nil => simp [pure, Except.pure]
  | cons x l ih =>
    rw [mapM_cons_error_iff, ih]
    constructor
    · rintro (hx | ⟨hx, before, a, after, rfl, hbefore, ha⟩)
      · exact ⟨[], x, l, rfl, by simp, hx⟩
      · exact ⟨x :: before, a, after, rfl, List.forall_mem_cons.mpr ⟨hx, hbefore⟩, ha⟩
    · rintro ⟨before, a, after, hsplit, hbefore, ha⟩
      cases before with
      | nil =>
        cases hsplit
        exact .inl ha
      | cons y before =>
        cases hsplit
        rw [List.forall_mem_cons] at hbefore
        exact .inr ⟨hbefore.1, before, a, after, rfl, hbefore.2, ha⟩

end List

namespace TreeQuery.Logged

/-- The records that are left on the way make no difference to the outcome. -/
theorem result_mapM (f : α → Logged ε β) (l : List α) :
    (l.mapM f).result = l.mapM fun a => (f a).result := by
  suffices h : ∀ done : List β, (List.mapM.loop f l done).result =
      List.mapM.loop (fun a => (f a).result) l done from h []
  induction l with
  | nil => exact fun done => rfl
  | cons a l ih =>
    intro done
    simp only [List.mapM.loop]
    refine (result_bind _ _).trans ?_
    cases (f a).result with
    | error e => rfl
    | ok b => exact ih (b :: done)

end TreeQuery.Logged
