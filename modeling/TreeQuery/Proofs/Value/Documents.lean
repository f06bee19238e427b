import TreeQuery.Proofs.Decimal.NotNaN
import TreeQuery.Proofs.Value.Equality

/-! Values read from document texts. They hold nothing absent and no NaN: all their numbers were
spelled in the text, and a draft keeps a number only once its numeral has been read. -/

namespace TreeQuery

/-! ### Numerals -/

namespace Json

theorem Numeral.isNaN_toFloat? {n : Numeral} {x : Float} (h : n.toFloat? = some x) :
    x.isNaN = false := by
  simp only [toFloat?, Option.map_eq_some_iff] at h
  obtain ⟨y, hy, rfl⟩ := h
  have hmagnitude : y.isNaN = false := by
    split at hy
    · exact Decimal.isNaN_scaled hy
    · split at hy
      · split at hy
        · cases hy
        · cases hy
          rfl
      · exact Decimal.isNaN_scaled hy
  split
  · exact Decimal.isNaN_neg hmagnitude
  · exact hmagnitude

theorem Numeral.isNaN_number? {n : Numeral} {m : Number} (h : n.number? = some m) :
    m.toFloat.isNaN = false := by
  have hfloat : ∀ {m}, n.toFloat?.map Number.float = some m → m.toFloat.isNaN = false := by
    intro m h
    obtain ⟨x, hx, rfl⟩ := Option.map_eq_some_iff.mp h
    exact isNaN_toFloat? hx
  simp only [number?] at h
  split at h
  · split at h
    · split at h
      · cases h
        exact Decimal.isNaN_ofInt _
      · exact hfloat h
    · split at h
      · cases h
        exact Decimal.isNaN_ofInt _
      · exact hfloat h
  · exact hfloat h

end Json

/-! ### Documents -/

namespace Json

mutual

/-- The numbers in a document, in the order written. -/
def numbers : Json → List Number
  | number n => [n]
  | array items => numbersOfItems items
  | object members => numbersOfMembers members
  | _ => []

def numbersOfItems : List Json → List Number
  | [] => []
  | j :: rest => numbers j ++ numbersOfItems rest

def numbersOfMembers : List (String × Json) → List Number
  | [] => []
  | (_, j) :: rest => numbers j ++ numbersOfMembers rest

end

/-- None of the numbers is NaN. -/
def NoNaN (ns : List Number) : Prop := ∀ n ∈ ns, n.toFloat.isNaN = false

theorem noNaN_nil : NoNaN [] := List.forall_mem_nil _

theorem noNaN_append {ns ms : List Number} : NoNaN (ns ++ ms) ↔ NoNaN ns ∧ NoNaN ms :=
  List.forall_mem_append

theorem NoNaN.append {ns ms : List Number} (hn : NoNaN ns) (hm : NoNaN ms) : NoNaN (ns ++ ms) :=
  noNaN_append.mpr ⟨hn, hm⟩

namespace Draft

mutual

/-- The numbers in a draft, in the order written. -/
def numbers : Draft → List Number
  | number n => [n]
  | array _ items _ => numbersOfItems items
  | object _ members _ => numbersOfMembers members
  | _ => []

def numbersOfItems : List Draft → List Number
  | [] => []
  | d :: rest => numbers d ++ numbersOfItems rest

def numbersOfMembers : List (Name × Draft) → List Number
  | [] => []
  | (_, d) :: rest => numbers d ++ numbersOfMembers rest

end

/-- One reading after another succeeds if both do. -/
theorem bind_eq_ok_iff {α β : Type} {x : Except Fault α} {f : α → Except Fault β} {b : β} :
    x >>= f = .ok b ↔ ∃ a, x = .ok a ∧ f a = .ok b := by
  cases x with
  | error e => exact ⟨fun h => (nomatch h), fun ⟨_, h, _⟩ => (nomatch h)⟩
  | ok a => exact ⟨fun h => ⟨a, rfl, h⟩, fun ⟨_, ha, h⟩ => by cases ha; exact h⟩

theorem eq_of_close {α : Type} {ending : Option Fault} {content c : α}
    (h : close ending content = .ok c) : c = content := by
  cases ending with
  | none => exact (Except.ok.inj h).symm
  | some f => cases h

mutual

/-- Completing a draft keeps its numbers. -/
theorem numbers_complete :
    ∀ {d : Draft} {j : Json}, d.complete = .ok j → j.numbers = d.numbers
  | null, _, h | bool _, _, h | string _, _, h | number _, _, h => by
    cases h
    rfl
  | array false items _, _, h => by
    obtain ⟨js, hitems, h⟩ := bind_eq_ok_iff.mp h
    rw [eq_of_close h]
    exact numbersOfItems_completeItems hitems
  | object false members _, _, h => by
    obtain ⟨ms, hmembers, h⟩ := bind_eq_ok_iff.mp h
    rw [eq_of_close h]
    exact numbersOfMembers_completeMembers hmembers

theorem numbersOfItems_completeItems : ∀ {ds : List Draft} {js : List Json},
    completeItems ds = .ok js → Json.numbersOfItems js = numbersOfItems ds
  | [], _, h => by
    cases h
    rfl
  | d :: ds, _, h => by
    obtain ⟨j, hj, h⟩ := bind_eq_ok_iff.mp h
    obtain ⟨js, hjs, h⟩ := bind_eq_ok_iff.mp h
    cases h
    rw [Json.numbersOfItems, numbersOfItems, numbers_complete hj, numbersOfItems_completeItems hjs]

theorem numbersOfMembers_completeMembers :
    ∀ {ds : List (Name × Draft)} {ms : List (String × Json)}, completeMembers ds = .ok ms →
      Json.numbersOfMembers ms = numbersOfMembers ds
  | [], _, h => by
    cases h
    rfl
  | (.text _, d) :: ds, _, h => by
    obtain ⟨j, hj, h⟩ := bind_eq_ok_iff.mp h
    obtain ⟨ms, hms, h⟩ := bind_eq_ok_iff.mp h
    cases h
    rw [Json.numbersOfMembers, numbersOfMembers, numbers_complete hj,
      numbersOfMembers_completeMembers hms]

end

/-! ### Drafts of texts -/

theorem noNaN_ofNumber (c : Char) (cs : List Char) : NoNaN (ofNumber c cs).1.numbers := by
  unfold ofNumber
  split
  · exact noNaN_nil
  · split
    next hn => exact List.forall_mem_singleton.mpr (Numeral.isNaN_number? hn)
    · exact noNaN_nil

theorem numbers_ofQuoted (cs : List Char) : (ofQuoted cs).1.numbers = [] := by
  unfold ofQuoted
  split <;> rfl

theorem numbers_ofWord {c : Char} {word cs : List Char} {d : Draft} (hd : d.numbers = []) :
    (ofWord c word cs d).1.numbers = [] := by
  unfold ofWord
  split
  · exact hd
  · rfl

mutual

/-- A draft takes its numbers from numerals, so none is NaN. -/
theorem noNaN_value : ∀ fuel level cs, NoNaN (value fuel level cs).1.numbers
  | 0, _, _ => noNaN_nil
  | fuel + 1, level, cs => by
    unfold value
    split
    · exact noNaN_nil
    next c rest _ =>
      split_ifs
      · rw [numbers_ofQuoted]
        exact noNaN_nil
      · rw [numbers]
        split
        · exact noNaN_nil
        · exact noNaN_nil
        · exact noNaN_items fuel (level + 1) _
      · rw [numbers]
        split
        · exact noNaN_nil
        · exact noNaN_members fuel (level + 1) _
      · rw [numbers_ofWord rfl]
        exact noNaN_nil
      · rw [numbers_ofWord rfl]
        exact noNaN_nil
      · rw [numbers_ofWord rfl]
        exact noNaN_nil
      · exact noNaN_ofNumber _ _
      · exact noNaN_nil

theorem noNaN_items : ∀ fuel level cs, NoNaN (numbersOfItems (items fuel level cs).1)
  | 0, _, _ => noNaN_nil
  | fuel + 1, level, cs => by
    have hfirst := noNaN_value fuel level cs
    unfold items
    generalize value fuel level cs = first at hfirst ⊢
    obtain ⟨d, rest⟩ := first
    dsimp only
    split
    · exact hfirst.append noNaN_nil
    · exact hfirst.append (noNaN_items fuel level _)
    · exact hfirst.append noNaN_nil
    · exact hfirst.append noNaN_nil

theorem noNaN_members : ∀ fuel level cs, NoNaN (numbersOfMembers (members fuel level cs).1)
  | 0, _, _ => noNaN_nil
  | fuel + 1, level, cs => by
    unfold members
    split
    · exact noNaN_nil.append noNaN_nil
    · split
      · exact noNaN_nil.append noNaN_nil
      · extract_lets label
        split
        next d after hsecond =>
          have hd : NoNaN d.numbers := by
            split at hsecond
            next more _ =>
              have hvalue := noNaN_value fuel level more
              rwa [hsecond] at hvalue
            · cases hsecond
              exact noNaN_nil
            · cases hsecond
              exact noNaN_nil
          split
          · exact hd.append noNaN_nil
          · exact hd.append (noNaN_members fuel level _)
          · exact hd.append noNaN_nil
          · exact hd.append noNaN_nil
    · exact (noNaN_value fuel level _).append noNaN_nil

end

end Draft

theorem noNaN_readPrefix {cs rest : List Char} {j : Json} (h : readPrefix cs = .ok (j, rest)) :
    NoNaN j.numbers := by
  have hdraft := Draft.noNaN_value (2 * cs.length + 2) 0 cs
  unfold readPrefix Draft.ofText at h
  generalize Draft.value (2 * cs.length + 2) 0 cs = read at h hdraft
  obtain ⟨d, after⟩ := read
  cases hj : d.complete with
  | error f => simp [hj, Except.map] at h
  | ok j' =>
    simp only [hj, Except.map, Except.ok.injEq, Prod.mk.injEq] at h
    rw [← h.1, Draft.numbers_complete hj]
    exact hdraft

end Json

/-! ### Values -/

namespace Value

/-- Nothing in the value is absent or NaN, at any depth. -/
structure Solid (v : Value) : Prop where
  present : absent ∉ v.leaves
  withoutNaN : v.WithoutNaN

theorem solid_array_iff {items : List Value} :
    (array items).Solid ↔ ∀ x ∈ items, x.Solid := by
  constructor
  · rintro ⟨hpresent, hnumbers⟩ x hx
    exact ⟨fun h => hpresent (leaves_subset_of_mem_items hx h),
      (withoutNaN_array_iff items).mp hnumbers x hx⟩
  · intro h
    refine ⟨fun habsent => ?_, (withoutNaN_array_iff items).mpr fun x hx => (h x hx).withoutNaN⟩
    obtain ⟨x, hx, hleaf⟩ := mem_leavesOfItems.mp habsent
    exact (h x hx).present hleaf

theorem solid_object_iff {members : List (String × Value)} :
    (object members).Solid ↔ ∀ m ∈ members, m.2.Solid := by
  constructor
  · rintro ⟨hpresent, hnumbers⟩ m hm
    exact ⟨fun h => hpresent (leaves_subset_of_mem_members hm h),
      (withoutNaN_object_iff members).mp hnumbers m hm⟩
  · intro h
    refine ⟨fun habsent => ?_, (withoutNaN_object_iff members).mpr fun m hm => (h m hm).withoutNaN⟩
    obtain ⟨m, hm, hleaf⟩ := mem_leavesOfMembers.mp habsent
    exact (h m hm).present hleaf

theorem solid_null : null.Solid := ⟨by simp [leaves], by simp [WithoutNaN, leaves]⟩

theorem solid_bool (b : Bool) : (bool b).Solid := ⟨by simp [leaves], by simp [WithoutNaN, leaves]⟩

theorem solid_string (s : String) : (string s).Solid :=
  ⟨by simp [leaves], by simp [WithoutNaN, leaves]⟩

theorem solid_number {x : Float} (hx : x.isNaN = false) : (number x).Solid :=
  ⟨by simp [leaves], by simpa [WithoutNaN, leaves] using hx⟩

mutual

/-- A value is solid if no number of its document is NaN: documents spell nothing absent. -/
theorem solid_ofJson : ∀ {j : Json}, Json.NoNaN j.numbers → (ofJson j).Solid
  | .null, _ => solid_null
  | .bool b, _ => solid_bool b
  | .string s, _ => solid_string s
  | .number n, h => solid_number (h n (List.mem_singleton_self n))
  | .array _, h => solid_array_iff.mpr (solid_ofItems h)
  | .object members, h => solid_object_iff.mpr fun m hm =>
    solid_ofMembers h m ((distinctMembers_spec (ofMembers members)).2 m hm)

theorem solid_ofItems : ∀ {items : List Json}, Json.NoNaN (Json.numbersOfItems items) →
    ∀ x ∈ ofItems items, x.Solid
  | [], _ => List.forall_mem_nil _
  | _ :: _, h =>
    have ⟨hfirst, hrest⟩ := Json.noNaN_append.mp h
    List.forall_mem_cons.mpr ⟨solid_ofJson hfirst, solid_ofItems hrest⟩

theorem solid_ofMembers : ∀ {members : List (String × Json)},
    Json.NoNaN (Json.numbersOfMembers members) → ∀ m ∈ ofMembers members, m.2.Solid
  | [], _ => List.forall_mem_nil _
  | (_, _) :: _, h =>
    have ⟨hfirst, hrest⟩ := Json.noNaN_append.mp h
    List.forall_mem_cons.mpr ⟨solid_ofJson hfirst, solid_ofMembers hrest⟩

end

/-- A value read from the front of a document text is solid. -/
theorem solid_of_readPrefix {cs rest : List Char} {j : Json}
    (h : Json.readPrefix cs = .ok (j, rest)) : (ofJson j).Solid :=
  solid_ofJson (Json.noNaN_readPrefix h)

end Value

end TreeQuery
