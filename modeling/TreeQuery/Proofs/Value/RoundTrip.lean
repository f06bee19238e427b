import TreeQuery.Proofs.Decimal.Whole
import TreeQuery.Proofs.Value.Equality

/-! Values written as documents and read again. What comes back is equal to what was written, unless
the document could not say it: numbers that are NaN or infinite and absent values turn into null,
and only the absent members of an object are better left out. -/

namespace TreeQuery.Value

mutual

/-- Nothing of the value is lost in a document: no number is NaN or infinite, and nothing is absent
but members of objects. -/
def Kept : Value → Prop
  | absent => False
  | number x => x.isFinite = true
  | array items => ItemsKept items
  | object members => MembersKept members
  | _ => True

def ItemsKept : List Value → Prop
  | [] => True
  | x :: rest => x.Kept ∧ ItemsKept rest

def MembersKept : List (String × Value) → Prop
  | [] => True
  | (_, x) :: rest => (x.isPresent = true → x.Kept) ∧ MembersKept rest

end

theorem itemsKept_iff (items : List Value) : ItemsKept items ↔ ∀ x ∈ items, x.Kept := by
  induction items with
  | nil => simp [ItemsKept]
  | cons x rest ih => simp [ItemsKept, ih]

theorem membersKept_iff (members : List (String × Value)) :
    MembersKept members ↔ ∀ m ∈ presentMembers members, m.2.Kept := by
  have h : MembersKept members ↔ ∀ m ∈ members, m.2.isPresent = true → m.2.Kept := by
    induction members with
    | nil => simp [MembersKept]
    | cons m rest ih => simp [MembersKept, ih]
  rw [h]
  simp only [mem_presentMembers, and_imp]

/-! ### Documents of values -/

theorem itemsJson_eq (items : List Value) : itemsJson items = items.map toJson := by
  induction items with
  | nil => rfl
  | cons x rest ih => rw [itemsJson, ih, List.map_cons]

theorem membersJson_eq (members : List (String × Value)) :
    membersJson members = (presentMembers members).map fun m => (m.1, m.2.toJson) := by
  induction members with
  | nil => rfl
  | cons m rest ih =>
    obtain ⟨s, x⟩ := m
    rw [membersJson, ih]
    cases h : x.isAbsent <;> simp [presentMembers, isPresent, h]

theorem ofJson_toJson_array (items : List Value) :
    ofJson (array items).toJson = array (items.map fun x => ofJson x.toJson) := by
  rw [toJson, ofJson, itemsJson_eq, ofItems_eq, List.map_map]
  rfl

theorem ofJson_toJson_object {members : List (String × Value)}
    (h : (members.map (·.1)).Nodup) : ofJson (object members).toJson =
      object ((presentMembers members).map fun m => (m.1, ofJson m.2.toJson)) := by
  have hnames : ((ofMembers (membersJson members)).map (·.1)).Nodup := by
    simpa [ofMembers_eq, membersJson_eq, Function.comp_def] using nodup_names_presentMembers h
  rw [toJson, ofJson, distinctMembers_of_nodup hnames, ofMembers_eq, membersJson_eq, List.map_map]
  rfl

/-- A number comes back as a number equal to it, or not as a number at all. -/
theorem equal_number_iff (x : Float) :
    equal (number x) (ofJson (numberJson x)) = true ↔ x.isFinite = true := by
  rw [Decimal.isFinite_iff]
  unfold numberJson
  cases hx : Decimal.Binary.ofFloat? x with
  | none => simp [ofJson, equal]
  | some b =>
    have hself : (x == x) = true :=
      Decimal.beq_of_unpack_eq rfl (Decimal.unpacks_of_ofFloat? hx).1.ne_notANumber
    refine iff_of_true ?_ ⟨b, rfl⟩
    dsimp only
    split
    next n hn =>
      split
      next hle =>
        have hlt : n.natAbs < 2 ^ 53 := Nat.lt_of_le_pred (by decide) hle
        simpa [ofJson, equal, Json.Number.toFloat] using Decimal.beq_ofInt hx hn hlt
      · simpa [ofJson, equal, Json.Number.toFloat] using hself
    · simpa [ofJson, equal, Json.Number.toFloat] using hself

/-- A value comes back from its document equal to what it was exactly if nothing of it is lost. -/
theorem equal_ofJson_toJson_iff {v : Value} (hv : v.NamesDistinct) :
    equal v (ofJson v.toJson) = true ↔ v.Kept := by
  induction v using parts_induction with
  | absent => simp [toJson, ofJson, equal, Kept]
  | null | bool | string => simp [toJson, ofJson, equal, Kept]
  | number x =>
    rw [toJson, Kept]
    exact equal_number_iff x
  | array xs ih =>
    have hitem : ∀ {i x}, xs[i]? = some x → (equal x (ofJson x.toJson) = true ↔ x.Kept) :=
      fun {i x} hx => ih x (List.mem_of_getElem? hx) (hv.of_getElem? hx)
    rw [ofJson_toJson_array, equal_array_iff, Kept, itemsKept_iff]
    simp only [List.length_map, List.getElem?_map, true_and]
    constructor
    · intro h x hx
      obtain ⟨i, hi⟩ := List.mem_iff_getElem?.mp hx
      exact (hitem hi).mp (h i x _ hi (by rw [hi]; rfl))
    · intro h i x y hx hy
      rw [hx] at hy
      cases hy
      exact (hitem hx).mpr (h x (List.mem_of_getElem? hx))
  | object xs ih =>
    have hmember : ∀ m ∈ presentMembers xs, (equal m.2 (ofJson m.2.toJson) = true ↔ m.2.Kept) :=
      fun m hm => ih m (mem_presentMembers.mp hm).1 (hv.of_mem_presentMembers hm)
    have hnames := nodup_names_presentMembers hv.1
    have hcount : presentCount xs =
        presentCount ((presentMembers xs).map fun m => (m.1, ofJson m.2.toJson)) := by
      rw [← length_presentMembers, ← List.length_map]
      exact (List.countP_eq_length.mpr
        (List.forall_mem_map.mpr fun m _ => isPresent_ofJson m.2.toJson)).symm
    rw [ofJson_toJson_object hv.1, equal, ← hcount, beq_self_eq_true, Bool.true_and,
      equalMembers_iff (by simpa [Function.comp_def] using hnames), Kept, membersKept_iff]
    constructor
    · intro h m hm
      obtain ⟨y, hy, hxy⟩ := h m.1 m.2 hm
      obtain ⟨n, hn, heq⟩ := List.mem_map.mp hy
      obtain ⟨hname, rfl⟩ := Prod.mk.inj heq
      obtain rfl : n = m := List.inj_on_of_nodup_map hnames hn hm hname
      exact (hmember n hm).mp hxy
    · intro h s x hx
      exact ⟨_, List.mem_map.mpr ⟨(s, x), hx, rfl⟩, (hmember (s, x) hx).mpr (h (s, x) hx)⟩

end TreeQuery.Value
