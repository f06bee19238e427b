import TreeQuery.Proofs.Operator.Builtin
import TreeQuery.Proofs.Value.Equality

/-! Values without their absent members. A member that holds nothing is as good as missing, so that
leaving it out, at any depth, changes neither the children of a value nor what it is equal to. Items
of arrays stay where they are, absent ones too, since the positions of the others depend on them. -/

namespace TreeQuery.Value

mutual

/-- The value without the members that hold nothing, at any depth. -/
def strip : Value → Value
  | array items => array (stripItems items)
  | object members => object (stripMembers members)
  | v => v

def stripItems : List Value → List Value
  | [] => []
  | x :: rest => strip x :: stripItems rest

def stripMembers : List (String × Value) → List (String × Value)
  | [] => []
  | (s, x) :: rest => if x.isPresent then (s, strip x) :: stripMembers rest else stripMembers rest

end

theorem stripItems_eq_map (items : List Value) : stripItems items = items.map strip := by
  induction items with
  | nil => rfl
  | cons x rest ih => rw [stripItems, ih, List.map_cons]

theorem stripMembers_eq_map (members : List (String × Value)) :
    stripMembers members = (presentMembers members).map fun m => (m.1, m.2.strip) := by
  induction members with
  | nil => rfl
  | cons m rest ih =>
    rw [stripMembers, presentMembers, List.filter_cons, ih]
    split
    · rfl
    · rfl

@[simp] theorem kind_strip (v : Value) : v.strip.kind = v.kind := by
  cases v <;> simp [strip, kind]

@[simp] theorem isPresent_strip (v : Value) : v.strip.isPresent = v.isPresent := by
  rw [isPresent_eq_kind, isPresent_eq_kind, kind_strip]

theorem items?_strip (v : Value) : v.strip.items? = v.items?.map (·.map strip) := by
  cases v <;> simp [strip, items?, stripItems_eq_map]

/-! ### Children -/

theorem children_strip (v : Value) :
    v.strip.children = v.children.map fun c => (c.1, c.2.strip) := by
  have hpresent : ∀ l : List (Key × Value),
      (l.map fun c => (c.1, c.2.strip)).filter (·.2.isPresent) =
        (l.filter (·.2.isPresent)).map fun c => (c.1, c.2.strip) := by
    intro l
    simp [List.filter_map, Function.comp_def]
  cases v with
  | array items =>
    rw [strip, stripItems_eq_map, children, children, ← hpresent, List.zipIdx_map]
    simp [Function.comp_def, Prod.map]
  | object members =>
    rw [strip, stripMembers_eq_map, children, children, ← hpresent, presentMembers]
    simp [List.filter_map, Function.comp_def]
  | _ => simp [strip, children]

theorem namesDistinct_strip {v : Value} (hv : v.NamesDistinct) : v.strip.NamesDistinct := by
  induction v using parts_induction with
  | array items ih =>
    rw [strip, NamesDistinct, stripItems_eq_map, itemsDistinct_iff, List.forall_mem_map]
    exact fun x hx => ih x hx ((itemsDistinct_iff items).mp hv x hx)
  | object members ih =>
    rw [strip, NamesDistinct, stripMembers_eq_map, membersDistinct_iff, List.forall_mem_map,
      List.map_map]
    refine ⟨nodup_names_presentMembers hv.1, fun m hm => ?_⟩
    exact ih m (mem_presentMembers.mp hm).1 (hv.of_mem_presentMembers hm)
  | _ => exact hv

/-- Under every key there is the same value, stripped. -/
theorem child?_strip {v : Value} (hv : v.NamesDistinct) (k : Key) :
    v.strip.child? k = (v.child? k).map strip := by
  ext y
  rw [← mem_children_iff (namesDistinct_strip hv), children_strip, Option.map_eq_some_iff]
  simp [← mem_children_iff hv]

/-! ### What the operators see -/

theorem isEmpty_strip (v : Value) : v.strip.isEmpty = v.isEmpty := by
  induction v using children_induction with
  | step v ih =>
    by_cases hv : v.kind = .array ∨ v.kind = .object
    · rw [isEmpty_eq_all_children hv, isEmpty_eq_all_children (by simpa using hv),
        children_strip, List.all_map, Bool.eq_iff_iff, List.all_eq_true, List.all_eq_true]
      exact forall₂_congr fun c hc => by rw [Function.comp_apply, ih c.1 c.2 hc]
    · cases v <;> first | rfl | simp [kind] at hv

theorem presentCount_stripMembers (members : List (String × Value)) :
    presentCount (stripMembers members) = presentCount members := by
  rw [stripMembers_eq_map, ← length_presentMembers, ← length_presentMembers]
  simp [presentMembers, List.filter_map, Function.comp_def]

mutual

theorem equal_strip_left : ∀ v w : Value, equal v.strip w = equal v w
  | array xs, w => by
    cases w <;> simp only [strip, equal]
    exact equalItems_stripItems_left xs _
  | object xs, w => by
    cases w <;> simp only [strip, equal, presentCount_stripMembers]
    rw [equalMembers_stripMembers_left xs]
  | absent, _ | null, _ | bool _, _ | number _, _ | string _, _ => rfl

theorem equalItems_stripItems_left :
    ∀ xs ys : List Value, equalItems (stripItems xs) ys = equalItems xs ys
  | [], _ => rfl
  | x :: xs, [] => rfl
  | x :: xs, y :: ys => by
    rw [stripItems, equalItems, equalItems, equal_strip_left x y, equalItems_stripItems_left xs ys]

theorem equalMembers_stripMembers_left :
    ∀ xs ys : List (String × Value), equalMembers (stripMembers xs) ys = equalMembers xs ys
  | [], _ => rfl
  | (s, x) :: xs, ys => by
    have ih := equalMembers_stripMembers_left xs ys
    have hx : equal x.strip = equal x := funext (equal_strip_left x)
    rw [stripMembers, equalMembers_cons s x]
    split
    · next hpresent =>
      have habsent : x.strip.isAbsent = x.isAbsent := by
        simpa [isPresent] using isPresent_strip x
      rw [equalMembers_cons, ih, habsent, hx]
    · next hpresent =>
      have habsent : x.isAbsent = true := by simpa [isPresent] using hpresent
      rw [ih, habsent, Bool.true_or, Bool.true_and]

end

/-- A value that holds something is not equal to an absent member, so that absent members can be
passed over when it is compared with the one of a name. -/
theorem any_equal_lookup {x : Value} (hx : x.isPresent = true) (members : List (String × Value))
    (s : String) :
    (members.lookup s).any (equal x) = ((object members).property? s).any (equal x) := by
  rw [property?, members?, Option.bind_some]
  cases members.lookup s with
  | none => rfl
  | some y =>
    rw [Option.filter_some, Option.any_some]
    split
    · rfl
    · next hy =>
      rw [Option.any_none, Bool.eq_false_iff]
      exact fun h => hy (isPresent_of_equal h ▸ hx)

mutual

theorem equal_strip_right : ∀ v w : Value, w.NamesDistinct → equal v w.strip = equal v w
  | array xs, w, hw => by
    cases w <;> simp only [strip, equal]
    exact equalItems_stripItems_right xs _ hw
  | object xs, w, hw => by
    cases w <;> simp only [strip, equal, presentCount_stripMembers]
    rw [equalMembers_stripMembers_right xs _ hw]
  | absent, w, _ | null, w, _ | bool _, w, _ | number _, w, _ | string _, w, _ => by
    cases w <;> rfl

theorem equalItems_stripItems_right : ∀ xs ys : List Value, ItemsDistinct ys →
    equalItems xs (stripItems ys) = equalItems xs ys
  | [], [], _ => rfl
  | [], _ :: _, _ => rfl
  | _ :: _, [], _ => rfl
  | x :: xs, y :: ys, h => by
    rw [stripItems, equalItems, equalItems, equal_strip_right x y h.1,
      equalItems_stripItems_right xs ys h.2]

theorem equalMembers_stripMembers_right : ∀ xs ys : List (String × Value),
    (object ys).NamesDistinct → equalMembers xs (stripMembers ys) = equalMembers xs ys
  | [], _, _ => rfl
  | (s, x) :: xs, ys, h => by
    rw [equalMembers_cons, equalMembers_cons, equalMembers_stripMembers_right xs ys h]
    cases hx : x.isAbsent with
    | true => rfl
    | false =>
      have hpresent : x.isPresent = true := by rw [isPresent, hx, Bool.not_false]
      have hproperty : (object (stripMembers ys)).property? s =
          ((object ys).property? s).map strip := child?_strip h (.name s)
      rw [any_equal_lookup hpresent, any_equal_lookup hpresent, hproperty, Option.any_map]
      cases hy : (object ys).property? s with
      | none => rfl
      | some y =>
        have hdistinct : y.NamesDistinct := h.of_child? (k := .name s) hy
        rw [Option.any_some, Option.any_some, ← equal_strip_right x y hdistinct]

end

end TreeQuery.Value
