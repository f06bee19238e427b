import TreeQuery.Proofs.Value.Equality

/-! Values written differently. Leaving out members that hold nothing and writing members in
another order, anywhere in a value, leads to an equal value. Each such change keeps names distinct
and brings no new scalar in, so that any number of them can follow one another. -/

namespace TreeQuery.Value

/-- The second value is the first one with some members that hold nothing left out and the members
of some objects in another order, at any depth. -/
inductive Rearranges : Value → Value → Prop where
  | refl (v : Value) : Rearranges v v
  | trans {u v w : Value} (huv : Rearranges u v) (hvw : Rearranges v w) : Rearranges u w
  | drop (before : List (String × Value)) (s : String) (after : List (String × Value)) :
    Rearranges (object (before ++ (s, absent) :: after)) (object (before ++ after))
  | permute {xs ys : List (String × Value)} (h : xs.Perm ys) : Rearranges (object xs) (object ys)
  | item (before : List Value) {x y : Value} (after : List Value) (h : Rearranges x y) :
    Rearranges (array (before ++ x :: after)) (array (before ++ y :: after))
  | member (before : List (String × Value)) (s : String) {x y : Value}
    (after : List (String × Value)) (h : Rearranges x y) :
    Rearranges (object (before ++ (s, x) :: after)) (object (before ++ (s, y) :: after))

namespace Rearranges

variable {v w : Value}

theorem namesDistinct (h : Rearranges v w) (hv : v.NamesDistinct) : w.NamesDistinct := by
  induction h with
  | refl => exact hv
  | trans _ _ ihu ihv => exact ihv (ihu hv)
  | drop before s after =>
    have hsub : (before ++ after).Sublist (before ++ (s, absent) :: after) :=
      (List.sublist_cons_self _ _).append_left before
    refine ⟨hv.1.sublist (hsub.map _), ?_⟩
    rw [membersDistinct_iff]
    exact fun m hm => (membersDistinct_iff _).mp hv.2 m (hsub.subset hm)
  | permute h =>
    refine ⟨(h.map _).nodup_iff.mp hv.1, ?_⟩
    rw [membersDistinct_iff]
    exact fun m hm => (membersDistinct_iff _).mp hv.2 m (h.mem_iff.mpr hm)
  | item before after _ ih =>
    simp only [NamesDistinct, itemsDistinct_iff, List.forall_mem_append, List.forall_mem_cons]
      at hv ⊢
    exact ⟨hv.1, ih hv.2.1, hv.2.2⟩
  | member before s after _ ih =>
    simp only [NamesDistinct, membersDistinct_iff, List.forall_mem_append, List.forall_mem_cons,
      List.map_append, List.map_cons] at hv ⊢
    exact ⟨hv.1, hv.2.1, ih hv.2.2.1, hv.2.2.2⟩

theorem withoutNaN (h : Rearranges v w) (hv : v.WithoutNaN) : w.WithoutNaN := by
  induction h with
  | refl => exact hv
  | trans _ _ ihu ihv => exact ihv (ihu hv)
  | drop before s after =>
    simp only [withoutNaN_object_iff, List.forall_mem_append, List.forall_mem_cons] at hv ⊢
    exact ⟨hv.1, hv.2.2⟩
  | permute h =>
    rw [withoutNaN_object_iff] at hv ⊢
    exact fun m hm => hv m (h.mem_iff.mpr hm)
  | item before after _ ih =>
    simp only [withoutNaN_array_iff, List.forall_mem_append, List.forall_mem_cons] at hv ⊢
    exact ⟨hv.1, ih hv.2.1, hv.2.2⟩
  | member before s after _ ih =>
    simp only [withoutNaN_object_iff, List.forall_mem_append, List.forall_mem_cons] at hv ⊢
    exact ⟨hv.1, ih hv.2.1, hv.2.2⟩

/-! ### Rearranged values are equal -/

end Rearranges

/-- Two objects are equal if the members of one that hold something are, but for their order, those
of the other. -/
theorem equal_object_of_perm {xs ys : List (String × Value)} (hv : (object xs).NamesDistinct)
    (hn : (object xs).WithoutNaN) (hy : (ys.map (·.1)).Nodup)
    (h : (presentMembers xs).Perm (presentMembers ys)) :
    equal (object xs) (object ys) = true := by
  refine (equal_object_iff hv.1 hy).mpr ⟨fun s => (h.map _).mem_iff, fun s x y hx hy => ?_⟩
  cases List.inj_on_of_nodup_map (nodup_names_presentMembers hv.1) hx (h.mem_iff.mpr hy) rfl
  exact equal_self (hv.of_mem_presentMembers hx)
    ((withoutNaN_object_iff xs).mp hn _ (mem_presentMembers.mp hx).1)

theorem equal_array_item {before after : List Value} {x y : Value}
    (hv : (array (before ++ x :: after)).NamesDistinct)
    (hn : (array (before ++ x :: after)).WithoutNaN) (h : equal x y = true) :
    equal (array (before ++ x :: after)) (array (before ++ y :: after)) = true := by
  refine (equal_array_iff _ _).mpr ⟨by simp, fun i a b ha hb => ?_⟩
  have hself : equal a a = true :=
    equal_self (hv.of_getElem? ha) ((withoutNaN_array_iff _).mp hn a (List.mem_of_getElem? ha))
  rw [List.getElem?_append] at ha hb
  split at ha
  · next hi =>
    rw [if_pos hi, ha] at hb
    rwa [← Option.some.inj hb]
  · next hi =>
    rw [if_neg hi] at hb
    cases hj : i - before.length with
    | zero =>
      simp only [hj, List.getElem?_cons_zero, Option.some.injEq] at ha hb
      rwa [← ha, ← hb]
    | succ j =>
      rw [hj, List.getElem?_cons_succ] at ha hb
      rwa [← Option.some.inj (ha.symm.trans hb)]

theorem equal_object_member {before after : List (String × Value)} {s : String} {x y : Value}
    (hv : (object (before ++ (s, x) :: after)).NamesDistinct)
    (hn : (object (before ++ (s, x) :: after)).WithoutNaN) (h : equal x y = true) :
    equal (object (before ++ (s, x) :: after)) (object (before ++ (s, y) :: after)) = true := by
  have hy : ((before ++ (s, y) :: after).map (·.1)).Nodup := by simpa using hv.1
  refine (equal_object_iff hv.1 hy).mpr ⟨fun t => ?_, fun t a b ha hb => ?_⟩
  · have hpresent := isPresent_of_equal h
    cases hp : y.isPresent <;> simp [presentMembers, hpresent, hp]
  · have ham := (mem_presentMembers.mp ha).1
    have hself : equal a a = true :=
      equal_self (hv.of_mem_presentMembers ha) ((withoutNaN_object_iff _).mp hn _ ham)
    -- the names on the left tell which member is meant
    have hunique : ∀ c, (t, c) ∈ before ++ (s, x) :: after → c = a := fun c hc =>
      congrArg Prod.snd (List.inj_on_of_nodup_map hv.1 hc ham rfl)
    rcases List.mem_append.mp (mem_presentMembers.mp hb).1 with hb | hb
    · rwa [hunique b (List.mem_append_left _ hb)]
    · rcases List.mem_cons.mp hb with hb | hb
      · cases hb
        rwa [← hunique x (by simp)]
      · rwa [hunique b (List.mem_append_right _ (List.mem_cons_of_mem _ hb))]

/-- Rearranging a value without NaN leads to an equal value. -/
theorem equal_of_rearranges {v w : Value} (h : Rearranges v w) (hv : v.NamesDistinct)
    (hn : v.WithoutNaN) : equal v w = true := by
  induction h with
  | refl => exact equal_self hv hn
  | trans huv hvw ihu ihv =>
    have hd := huv.namesDistinct hv
    exact equal_of_equal_of_equal (ihu hv hn) (ihv hd (huv.withoutNaN hn))
  | drop before s after =>
    refine equal_object_of_perm hv hn ((Rearranges.drop before s after).namesDistinct hv).1 ?_
    simp [presentMembers, isPresent, isAbsent]
  | permute h =>
    exact equal_object_of_perm hv hn ((h.map _).nodup_iff.mp hv.1) (h.filter _)
  | item before after _ ih =>
    refine equal_array_item hv hn (ih ?_ ?_)
    · exact (itemsDistinct_iff _).mp hv _ (by simp)
    · exact (withoutNaN_array_iff _).mp hn _ (by simp)
  | member before s after _ ih =>
    refine equal_object_member hv hn (ih ?_ ?_)
    · exact (membersDistinct_iff _).mp hv.2 (s, _) (by simp)
    · exact (withoutNaN_object_iff _).mp hn (s, _) (by simp)

/-- Equality is transitive. Where no object names a member twice it is symmetric, and a value
without NaN is equal to itself. Two objects are equal exactly if, without the members that hold
nothing, they have the same names and an equal value under each of them. A value without NaN stays
equal to itself when members that hold nothing are left out and members change places at any
depth. -/
theorem equal_equivalence :
    (∀ v w : Value, v.NamesDistinct → w.NamesDistinct → equal v w = equal w v) ∧
    (∀ u v w : Value, equal u v = true → equal v w = true → equal u w = true) ∧
    (∀ v : Value, v.NamesDistinct → v.WithoutNaN → equal v v = true) ∧
    (∀ xs ys, (object xs).NamesDistinct → (object ys).NamesDistinct →
      (equal (object xs) (object ys) = true ↔
        (∀ s, s ∈ (presentMembers xs).map (·.1) ↔ s ∈ (presentMembers ys).map (·.1)) ∧
        ∀ s x y, (s, x) ∈ presentMembers xs → (s, y) ∈ presentMembers ys → equal x y = true)) ∧
    ∀ v w : Value, v.NamesDistinct → v.WithoutNaN → Rearranges v w → equal v w = true := by
  refine ⟨fun v w hv hw => ?_, fun u v w => equal_of_equal_of_equal,
    fun v => equal_self, fun xs ys hx hy => equal_object_iff hx.1 hy.1,
    fun v w hv hn h => equal_of_rearranges h hv hn⟩
  exact Bool.eq_iff_iff.mpr ⟨equal_symm hv hw, equal_symm hw hv⟩

/-- Members left out below an array, and two members that change places. -/
theorem equal_equivalence_reordered :
    ∃ v w : Value, v.NamesDistinct ∧ w.NamesDistinct ∧ v.WithoutNaN ∧ Rearranges v w ∧
      equal v w = true ∧ equal w v = true := by
  have hv : (object [("a", array [object [("b", absent), ("c", number 1.5)], absent]),
      ("d", null)]).NamesDistinct := by
    simp [NamesDistinct, MembersDistinct, ItemsDistinct]
  have hn : (object [("a", array [object [("b", absent), ("c", number 1.5)], absent]),
      ("d", null)]).WithoutNaN := by
    intro x hx
    simp only [leaves, leavesOfMembers, leavesOfItems, List.mem_append, List.mem_cons,
      List.not_mem_nil, or_false, number.injEq, reduceCtorEq, false_or] at hx
    rw [hx]
    decide +kernel
  have hdrop :
      Rearranges (object [("b", absent), ("c", number 1.5)]) (object [("c", number 1.5)]) :=
    .drop [] "b" [("c", number 1.5)]
  have h : Rearranges
      (object [("a", array [object [("b", absent), ("c", number 1.5)], absent]), ("d", null)])
      (object [("d", null), ("a", array [object [("c", number 1.5)], absent])]) :=
    (Rearranges.member [] "a" [("d", null)] (.item [] [absent] hdrop)).trans (.permute (.swap ..))
  have hw := h.namesDistinct hv
  obtain ⟨hsymm, -, -, -, hequal⟩ := equal_equivalence
  have heq := hequal _ _ hv hn h
  exact ⟨_, _, hv, hw, hn, h, heq, hsymm _ _ hv hw ▸ heq⟩

end TreeQuery.Value
