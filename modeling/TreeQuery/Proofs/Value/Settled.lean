import TreeQuery.Proofs.Value.Documents
import TreeQuery.Proofs.Value.RoundTrip

/-! Documents that come back unchanged. Reading a document makes all its numbers floating point, and
writing one makes whole numbers of those that are whole and not too large. So a document comes back
from the value read from it exactly if its numbers are in that form already, and the documents of
values are of this kind: written, read and written again, a value has the same document. -/

namespace TreeQuery

namespace Json

/-- The number has the form in which it is written: it is whole if floating point tells it from all
other whole numbers, and floating point if it is not equal to such a number. -/
def Number.Settled : Number → Prop
  | .whole n => n.natAbs ≤ Value.greatestExact
  | .float x => x.isFinite = true ∧
      ∀ n : Int, n.natAbs ≤ Value.greatestExact → (x == Float.ofInt n) = false

mutual

/-- No object in the document names a member twice. -/
def NamesDistinct : Json → Prop
  | array items => ItemsDistinct items
  | object members => (members.map (·.1)).Nodup ∧ MembersDistinct members
  | _ => True

def ItemsDistinct : List Json → Prop
  | [] => True
  | j :: rest => NamesDistinct j ∧ ItemsDistinct rest

def MembersDistinct : List (String × Json) → Prop
  | [] => True
  | (_, j) :: rest => NamesDistinct j ∧ MembersDistinct rest

end

theorem itemsDistinct_iff (items : List Json) :
    ItemsDistinct items ↔ ∀ j ∈ items, j.NamesDistinct := by
  induction items with
  | nil => simp [ItemsDistinct]
  | cons j rest ih => simp [ItemsDistinct, ih]

theorem membersDistinct_iff (members : List (String × Json)) :
    MembersDistinct members ↔ ∀ m ∈ members, m.2.NamesDistinct := by
  induction members with
  | nil => simp [MembersDistinct]
  | cons m rest ih => simp [MembersDistinct, ih]

theorem numbersOfItems_eq (items : List Json) : numbersOfItems items = items.flatMap numbers := by
  induction items with
  | nil => rfl
  | cons j rest ih => rw [numbersOfItems, ih, List.flatMap_cons]

theorem numbersOfMembers_eq (members : List (String × Json)) :
    numbersOfMembers members = members.flatMap fun m => m.2.numbers := by
  induction members with
  | nil => rfl
  | cons m rest ih => rw [numbersOfMembers, ih, List.flatMap_cons]

/-- All numbers in the document have the form in which they are written. -/
def Settled (j : Json) : Prop := ∀ n ∈ j.numbers, n.Settled

theorem settled_array_iff (items : List Json) :
    (array items).Settled ↔ ∀ j ∈ items, j.Settled := by
  simp only [Settled, numbers, numbersOfItems_eq, List.mem_flatMap]
  exact ⟨fun h j hj n hn => h n ⟨j, hj, hn⟩, fun h n ⟨j, hj, hn⟩ => h j hj n hn⟩

theorem settled_object_iff (members : List (String × Json)) :
    (object members).Settled ↔ ∀ m ∈ members, m.2.Settled := by
  simp only [Settled, numbers, numbersOfMembers_eq, List.mem_flatMap]
  exact ⟨fun h m hm n hn => h n ⟨m, hm, hn⟩, fun h n ⟨m, hm, hn⟩ => h m hm n hn⟩

end Json

namespace Value

/-! ### Numbers -/

theorem lt_of_le_greatestExact {m : Nat} (h : m ≤ greatestExact) : m < 2 ^ 53 :=
  Nat.lt_of_le_pred (by decide) h

/-- A number is written as null, as the whole number it is equal to or as it is. -/
theorem numberJson_cases (x : Float) :
    (x.isFinite = false ∧ numberJson x = .null) ∨
      (∃ n : Int, n.natAbs ≤ greatestExact ∧ (x == Float.ofInt n) = true ∧
        numberJson x = .number (.whole n)) ∨
      (Json.Number.float x).Settled ∧ numberJson x = .number (.float x) := by
  have hequal : ∀ {n : Int}, n.natAbs ≤ greatestExact → (x == Float.ofInt n) = true →
      ∃ b, Decimal.Binary.ofFloat? x = some b ∧ b.toInt? = some n :=
    fun hn => (Decimal.beq_ofInt_iff (lt_of_le_greatestExact hn)).mp
  unfold numberJson
  cases hx : Decimal.Binary.ofFloat? x with
  | none =>
    have hfinite : ¬x.isFinite = true := by simp [Decimal.isFinite_iff, hx]
    exact .inl ⟨eq_false_of_ne_true hfinite, rfl⟩
  | some b =>
    have hfinite : x.isFinite = true := Decimal.isFinite_iff.mpr ⟨b, hx⟩
    right
    cases hb : b.toInt? with
    | none =>
      refine .inr ⟨⟨hfinite, fun n hn => eq_false_of_ne_true fun h => ?_⟩, by simp [hb]⟩
      obtain ⟨c, hc, hcn⟩ := hequal hn h
      cases hx.symm.trans hc
      cases hb.symm.trans hcn
    | some m =>
      by_cases hm : m.natAbs ≤ greatestExact
      · have hlt := lt_of_le_greatestExact hm
        exact .inl ⟨m, hm, Decimal.beq_ofInt hx hb hlt, by simp [hb, hm]⟩
      · refine .inr ⟨⟨hfinite, fun n hn => eq_false_of_ne_true fun h => ?_⟩, by simp [hb, hm]⟩
        obtain ⟨c, hc, hcn⟩ := hequal hn h
        cases hx.symm.trans hc
        cases hb.symm.trans hcn
        exact hm hn

/-- A whole number that floating point represents exactly is written as itself. -/
theorem numberJson_ofInt {n : Int} (hn : n.natAbs ≤ greatestExact) :
    numberJson (Float.ofInt n) = .number (.whole n) := by
  have hself : (Float.ofInt n == Float.ofInt n) = true :=
    Float.beq_self_iff.mpr (by simpa using Decimal.isNaN_ofInt n)
  obtain ⟨b, hb, hbn⟩ := (Decimal.beq_ofInt_iff (lt_of_le_greatestExact hn)).mp hself
  simp [numberJson, hb, hbn, hn]

theorem numberJson_toFloat {n : Json.Number} (h : n.Settled) :
    numberJson n.toFloat = .number n := by
  cases n with
  | whole n => exact numberJson_ofInt h
  | float x =>
    obtain ⟨hfinite, hwhole⟩ := h
    rcases numberJson_cases x with ⟨hx, -⟩ | ⟨n, hn, hx, -⟩ | ⟨-, hx⟩
    · rw [hfinite] at hx
      cases hx
    · rw [hwhole n hn] at hx
      cases hx
    · exact hx

theorem settled_numberJson (x : Float) : (numberJson x).Settled := by
  rcases numberJson_cases x with ⟨-, hx⟩ | ⟨n, hn, -, hx⟩ | ⟨hsettled, hx⟩
  · simp [hx, Json.Settled, Json.numbers]
  · simpa [hx, Json.Settled, Json.numbers, Json.Number.Settled] using hn
  · simpa [hx, Json.Settled, Json.numbers] using hsettled

/-! ### Documents -/

theorem settled_toJson (v : Value) : v.toJson.Settled := by
  induction v using parts_induction with
  | absent | null | bool | string => simp [toJson, Json.Settled, Json.numbers]
  | number x => exact settled_numberJson x
  | array xs ih =>
    rw [toJson, Json.settled_array_iff, itemsJson_eq]
    exact List.forall_mem_map.mpr ih
  | object xs ih =>
    rw [toJson, Json.settled_object_iff, membersJson_eq]
    exact List.forall_mem_map.mpr fun m hm => ih m (mem_presentMembers.mp hm).1

theorem namesDistinct_toJson {v : Value} (hv : v.NamesDistinct) : v.toJson.NamesDistinct := by
  induction v using parts_induction with
  | absent | null | bool | string => trivial
  | number x =>
    rcases numberJson_cases x with ⟨-, hx⟩ | ⟨n, -, -, hx⟩ | ⟨-, hx⟩
    all_goals
      rw [toJson, hx]
      trivial
  | array xs ih =>
    rw [toJson, Json.NamesDistinct, Json.itemsDistinct_iff, itemsJson_eq]
    exact List.forall_mem_map.mpr fun x hx => ih x hx ((itemsDistinct_iff xs).mp hv x hx)
  | object xs ih =>
    rw [toJson, Json.NamesDistinct, Json.membersDistinct_iff, membersJson_eq]
    constructor
    · simpa [Function.comp_def] using nodup_names_presentMembers hv.1
    · exact List.forall_mem_map.mpr fun m hm =>
        ih m (mem_presentMembers.mp hm).1 (hv.of_mem_presentMembers hm)

mutual

/-- A document in which no name is repeated and all numbers have the form in which they are written
is the document of the value read from it. -/
theorem toJson_ofJson : ∀ {j : Json}, j.NamesDistinct → j.Settled → (ofJson j).toJson = j
  | .null, _, _ | .bool _, _, _ | .string _, _, _ => rfl
  | .number n, _, h => numberJson_toFloat (h n (List.mem_singleton_self n))
  | .array items, hd, h => by
    rw [ofJson, toJson, itemsJson_ofItems hd ((Json.settled_array_iff items).mp h)]
  | .object members, ⟨hnames, hd⟩, h => by
    have hdistinct : ((ofMembers members).map (·.1)).Nodup := by
      simpa [ofMembers_eq, Function.comp_def] using hnames
    rw [ofJson, distinctMembers_of_nodup hdistinct, toJson,
      membersJson_ofMembers hd ((Json.settled_object_iff members).mp h)]

theorem itemsJson_ofItems : ∀ {items : List Json}, Json.ItemsDistinct items →
    (∀ j ∈ items, j.Settled) → itemsJson (ofItems items) = items
  | [], _, _ => rfl
  | j :: rest, ⟨hfirst, hrest⟩, h => by
    obtain ⟨hj, hsettled⟩ := List.forall_mem_cons.mp h
    rw [ofItems, itemsJson, toJson_ofJson hfirst hj, itemsJson_ofItems hrest hsettled]

/-- Nothing read from a document is absent, so every member is written again. -/
theorem membersJson_ofMembers : ∀ {members : List (String × Json)}, Json.MembersDistinct members →
    (∀ m ∈ members, m.2.Settled) → membersJson (ofMembers members) = members
  | [], _, _ => rfl
  | (_, j) :: rest, ⟨hfirst, hrest⟩, h => by
    obtain ⟨hj, hsettled⟩ := List.forall_mem_cons.mp h
    have hpresent : (ofJson j).isAbsent = false := by
      simpa [isPresent] using isPresent_ofJson j
    rw [ofMembers, membersJson, hpresent, toJson_ofJson hfirst hj,
      membersJson_ofMembers hrest hsettled]
    rfl

end

theorem toJson_ofJson_iff (j : Json) :
    (ofJson j).toJson = j ↔ j.NamesDistinct ∧ j.Settled := by
  constructor
  · intro h
    rw [← h]
    exact ⟨namesDistinct_toJson (namesDistinct_ofJson j), settled_toJson (ofJson j)⟩
  · rintro ⟨hd, hs⟩
    exact toJson_ofJson hd hs

/-- The document of a value comes back unchanged, and the value itself comes back equal to what it
was exactly if its document says all of it. A document comes back unchanged exactly if no object in
it repeats a name, its whole numbers are not too large to be represented exactly, and none of its
other numbers is equal to a whole number of that kind. -/
theorem conversion_roundTrip :
    (∀ v : Value, v.NamesDistinct →
      (ofJson v.toJson).toJson = v.toJson ∧ (equal (ofJson v.toJson) v = true ↔ v.Kept)) ∧
    ∀ j : Json, (ofJson j).toJson = j ↔ j.NamesDistinct ∧ j.Settled := by
  constructor
  · intro v hv
    constructor
    · exact toJson_ofJson (namesDistinct_toJson hv) (settled_toJson v)
    · rw [← equal_ofJson_toJson_iff hv]
      have hback := namesDistinct_ofJson v.toJson
      exact ⟨equal_symm hback hv, equal_symm hv hback⟩
  · exact toJson_ofJson_iff

/-- An absent item turns into null, so the value does not come back equal, but its document does not
change any more. The absent member is of no account. -/
theorem conversion_roundTrip_absent :
    let v := object [("size", number 2), ("gone", absent), ("rows", array [absent, number 0.5])]
    v.NamesDistinct ∧ (ofJson v.toJson).toJson = v.toJson ∧ equal (ofJson v.toJson) v = false := by
  intro v
  have hv : v.NamesDistinct := by
    simp [v, NamesDistinct, MembersDistinct, ItemsDistinct]
  obtain ⟨hdocument, hequal⟩ := conversion_roundTrip.1 v hv
  have hlost : ¬v.Kept := by
    simp [v, Kept, MembersKept, ItemsKept, isPresent, isAbsent]
  exact ⟨hv, hdocument, eq_false_of_ne_true fun h => hlost (hequal.mp h)⟩

end Value

end TreeQuery
