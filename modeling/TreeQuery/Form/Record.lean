import TreeQuery.Json.Basic

/-! Records in documents. A record is an object with its fields as members, in any order and
among others that do not matter, or an array with its fields in their own order. A variant says
in a member `type`, or in the first element, which fields to expect. -/

namespace TreeQuery.Form

/-- A field of a record: the names it goes by, and whether an array may end before it. -/
structure Field where
  names : List String
  omissible : Bool

/-- A field that a record in an array must have, if only as null. -/
def field (name : String) : Field := ⟨[name], false⟩

/-- A field that a record in an array may leave out. -/
def omissible (name : String) : Field := ⟨[name], true⟩

/-- The fields of a record, before they are told apart. -/
inductive Content where
  | named (members : List (String × Json))
  | listed (items : List Json)

/-- Fields by position; the missing ones at the end must be omissible. -/
def pickListed : List Json → List Field → Option (List (Option Json))
  | [], [] => some []
  | [], f :: fields =>
    if f.omissible then (pickListed [] fields).map (none :: ·) else none
  | _ :: _, [] => none
  | j :: items, _ :: fields => (pickListed items fields).map (some j :: ·)

/-- The member that is the field, if there is one; no field may be given twice. -/
def pickNamed (members : List (String × Json)) (f : Field) : Option (Option Json) :=
  match members.filter fun m => f.names.contains m.1 with
  | [] => some none
  | [m] => some (some m.2)
  | _ => none

/-- The content of each field, nothing for a field that is left out. -/
def Content.pick (fields : List Field) : Content → Option (List (Option Json))
  | named members => fields.mapM (pickNamed members)
  | listed items => pickListed items fields

def content? : Json → Option Content
  | .object members => some (.named members)
  | .array items => some (.listed items)
  | _ => none

/-- Which of the tags is meant. Within another variant a tag may also be given by its position. -/
def tag? {α : Type} (tags : List (String × α)) (inner : Bool) : Json → Option α
  | .string s => tags.lookup s
  | .number (.whole (.ofNat i)) => if inner then tags[i]?.map (·.2) else none
  | _ => none

/-- The tag of a variant and the content that goes with it. -/
def variant? {α : Type} (tags : List (String × α)) (inner : Bool) :
    Json → Option (α × Content)
  | .object members =>
    match members.filter (·.1 == "type") with
    | [m] => (tag? tags inner m.2).map fun t => (t, .named (members.filter (·.1 != "type")))
    | _ => none
  | .array (t :: rest) => (tag? tags inner t).map fun t => (t, .listed rest)
  | _ => none

/-- One of several words, as a text or as the only member of an object, with nothing in it. -/
def word? {α : Type} (words : List (String × α)) (inner : Bool) : Json → Option α
  | .string s => words.lookup s
  | .object [(s, .null)] => words.lookup s
  | .object [(s, .object [])] => if inner then words.lookup s else none
  | _ => none

/-- A switch, off when it is left out. -/
def flag? : Option Json → Option Bool
  | none => some false
  | some j => j.bool?

/-- A field that may be left out or null. -/
def maybe? {α : Type} (read : Json → Option α) : Option Json → Option (Option α)
  | none => some none
  | some .null => some none
  | some j => (read j).map some

/-- A list, each item read alike. -/
def list? {α : Type} (read : Json → Option α) : Json → Option (List α)
  | .array items => items.mapM read
  | _ => none

/-! ### Fields are smaller than their record -/

theorem pickListed_sizeOf {items : List Json} {fields : List Field} {slots : List (Option Json)}
    {x : Json} (h : pickListed items fields = some slots) (hx : some x ∈ slots) :
    sizeOf x < sizeOf items := by
  induction items, fields using pickListed.induct generalizing slots with
  | case1 => simp_all [pickListed]
  | case2 f fields hf ih =>
    simp only [pickListed, hf, if_true, Option.map_eq_some_iff] at h
    obtain ⟨rest, hr, rfl⟩ := h
    exact ih hr (by simpa using hx)
  | case3 f fields hf => simp [pickListed, hf] at h
  | case4 => simp [pickListed] at h
  | case5 j items f fields ih =>
    simp only [pickListed, Option.map_eq_some_iff] at h
    obtain ⟨rest, hr, rfl⟩ := h
    rcases List.mem_cons.1 hx with hx | hx
    · cases hx
      simp only [List.cons.sizeOf_spec]
      omega
    · have := ih hr hx
      simp only [List.cons.sizeOf_spec]
      omega

theorem pickNamed_sizeOf {members : List (String × Json)} {f : Field} {x : Json}
    (h : pickNamed members f = some (some x)) : sizeOf x < sizeOf members := by
  unfold pickNamed at h
  split at h
  · simp at h
  · rename_i m hm
    have hmem : m ∈ members :=
      (List.mem_filter.1 (hm ▸ List.mem_singleton.2 rfl : m ∈ members.filter _)).1
    have := List.sizeOf_lt_of_mem hmem
    obtain ⟨s, y⟩ := m
    simp only [Option.some.injEq] at h
    subst h
    simp only [Prod.mk.sizeOf_spec] at this
    omega
  · simp at h

theorem pickNamed_mapM_sizeOf {members : List (String × Json)} {fields : List Field}
    {slots : List (Option Json)} {x : Json} (h : fields.mapM (pickNamed members) = some slots)
    (hx : some x ∈ slots) : sizeOf x < sizeOf members := by
  induction fields generalizing slots with
  | nil => simp_all
  | cons f fields ih =>
    simp only [List.mapM_cons, Option.bind_eq_bind, Option.bind_eq_some_iff] at h
    obtain ⟨slot, hs, rest, hr, he⟩ := h
    cases he
    rcases List.mem_cons.1 hx with hx | hx
    · exact pickNamed_sizeOf (hx ▸ hs)
    · exact ih hr hx

noncomputable def Content.size : Content → Nat
  | named members => sizeOf members
  | listed items => sizeOf items

theorem Content.pick_size {c : Content} {fields : List Field} {slots : List (Option Json)}
    {x : Json} (h : c.pick fields = some slots) (hx : some x ∈ slots) : sizeOf x < c.size := by
  cases c with
  | named => exact pickNamed_mapM_sizeOf h hx
  | listed => exact pickListed_sizeOf h hx

theorem sizeOf_filter_le {α : Type} [SizeOf α] (p : α → Bool) (l : List α) :
    sizeOf (l.filter p) ≤ sizeOf l := by
  induction l with
  | nil => simp
  | cons a l ih =>
    by_cases h : p a <;> simp only [h, List.filter_cons_of_pos, List.filter_cons_of_neg,
      List.cons.sizeOf_spec, Bool.not_eq_true] <;> omega

theorem variant?_size {α : Type} {tags : List (String × α)} {inner : Bool} {j : Json} {t : α}
    {c : Content} (h : variant? tags inner j = some (t, c)) : c.size < sizeOf j := by
  unfold variant? at h
  split at h
  · rename_i members
    split at h
    · simp only [Option.map_eq_some_iff, Prod.mk.injEq] at h
      obtain ⟨_, -, -, rfl⟩ := h
      have := sizeOf_filter_le (fun m : String × Json => m.1 != "type") members
      simp only [Content.size, Json.object.sizeOf_spec]
      omega
    · simp at h
  · simp only [Option.map_eq_some_iff, Prod.mk.injEq] at h
    obtain ⟨_, -, -, rfl⟩ := h
    simp only [Content.size, Json.array.sizeOf_spec, List.cons.sizeOf_spec]
    omega
  · simp at h

end TreeQuery.Form
