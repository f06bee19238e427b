import TreeQuery.Form.Facts
import TreeQuery.Proofs.Value.RoundTrip

/-! Paths, conditions, facts and rules written as documents and read again. Each shape is written
with its tag and its fields under their names, so that reading finds the tag first and then every
field, and what is left out comes back as what leaving it out means. Only literals may come back
different, and then equal as values. -/

namespace TreeQuery

open Form

/-! ### What documents can hold

Positions are limited to 64 bits, and literals must not lose anything. Nothing is asked of the
shape: a path may be empty or have its scopes in the wrong places. -/

mutual

/-- A document can hold the selector. -/
def Selector.Storable : Selector → Prop
  | .root index => Json.fitsUnsigned index = true
  | .relative index => Json.fitsUnsigned index = true
  | .named .. => True
  | .elements positions => ∀ i ∈ positions, Json.fitsSigned i = true
  | .slice start stop step =>
    (∀ i ∈ start, Json.fitsSigned i = true) ∧ (∀ i ∈ stop, Json.fitsSigned i = true) ∧
      ∀ i ∈ step, Json.fitsSigned i = true
  | .all _ => True
  | .filter c _ => c.Storable

def Selector.StorableAll : List Selector → Prop
  | [] => True
  | s :: p => s.Storable ∧ Selector.StorableAll p

/-- A document can hold the operand. -/
def Operand.Storable : Operand → Prop
  | .value v => v.NamesDistinct ∧ v.Kept
  | .path p _ => Selector.StorableAll p

/-- A document can hold the condition. -/
def Condition.Storable : Condition → Prop
  | .or l r => l.Storable ∧ r.Storable
  | .and l r => l.Storable ∧ r.Storable
  | .unary _ _ x => x.Storable
  | .binary _ _ l r => l.Storable ∧ r.Storable

end

/-- A document can hold the path. -/
def Path.Storable (p : Path) : Prop := Selector.StorableAll p

/-! ### Fields -/

namespace Form

theorem list?_map {α : Type} {write : α → Json} {read : Json → Option α} {l : List α}
    (h : ∀ a ∈ l, read (write a) = some a) : list? read (.array (l.map write)) = some l := by
  rw [list?]
  induction l with
  | nil => rfl
  | cons a l ih =>
    obtain ⟨ha, hl⟩ := List.forall_mem_cons.mp h
    rw [List.map_cons, List.mapM_cons, ha, ih hl]
    rfl

theorem index?_nat {n : Nat} (h : Json.fitsUnsigned n = true) : (Json.nat n).index? = some n :=
  if_pos h

theorem int?_intJson {i : Int} (h : Json.fitsSigned i = true) : (intJson i).int? = some i :=
  if_pos h

theorem maybe?_optionalJson {o : Option Int} (h : ∀ i ∈ o, Json.fitsSigned i = true) :
    maybe? Json.int? (some (optionalJson o)) = some o := by
  cases o with
  | none => rfl
  | some i => exact congrArg (Option.map some) (int?_intJson (h i rfl))

end Form

/-! ### One layer of a document

A selector, operand or condition is read by reading its parts. -/

theorem Selector.ofJson?_toJson_filter (inner : Bool) (c : Condition) (deep : Bool) :
    ofJson? inner (filter c deep).toJson =
      (Condition.ofJson? true c.toJson).bind fun c' => some (filter c' deep) := by
  rw [toJson, ofJson?]
  rfl

/-- A selector without a condition comes back as it was. -/
theorem Selector.ofJson?_toJson_flat (inner : Bool) {s : Selector}
    (hs : ∀ c deep, s ≠ .filter c deep) (h : s.Storable) : ofJson? inner s.toJson = some s := by
  rw [ofJson?]
  cases s with
  | root index => exact congrArg (Option.map root) (index?_nat h)
  | relative index => exact congrArg (Option.map relative) (index?_nat h)
  | named names deep =>
    have hnames : list? Json.string? (.array (names.map .string)) = some names :=
      list?_map fun _ _ => rfl
    exact congrArg (Option.bind · fun ns => some (named ns deep)) hnames
  | elements positions =>
    exact congrArg (Option.map elements) (list?_map fun i hi => int?_intJson (h i hi))
  | slice start stop step =>
    have hstart := maybe?_optionalJson h.1
    have hstop := maybe?_optionalJson h.2.1
    have hstep := maybe?_optionalJson h.2.2
    change ((maybe? Json.int? (some (optionalJson start))).bind fun a =>
      (maybe? Json.int? (some (optionalJson stop))).bind fun b =>
        (maybe? Json.int? (some (optionalJson step))).bind fun c => some (slice a b c)) = _
    rw [hstart, hstop, hstep]
    rfl
  | all deep => rfl
  | filter c deep => exact absurd rfl (hs c deep)

theorem Path.ofJson?_array (inner : Bool) (items : List Json) :
    Path.ofJson? inner (.array items) = items.mapM (Selector.ofJson? inner) := by
  rw [Path.ofJson?]
  exact (List.mapM_subtype fun _ _ => rfl).trans (by rw [List.unattach_attach])

theorem Operand.ofJson?_toJson_value (inner : Bool) (v : Value) :
    ofJson? inner (value v).toJson = some (value (.ofJson v.toJson)) := by
  rw [toJson, ofJson?]
  rfl

theorem Operand.ofJson?_toJson_path (inner : Bool) (p : List Selector)
    (quantifier : Option Quantifier) : ofJson? inner (path p quantifier).toJson =
      (Path.ofJson? true (Path.toJson p)).bind fun q => some (path q quantifier) := by
  match quantifier with
  | none | some .some | some .every =>
    rw [toJson, ofJson?]
    rfl

namespace Condition

variable (inner : Bool) (l r : Condition) (op : String) (negate : Bool) (x y : Operand)

theorem ofJson?_toJson_or : ofJson? inner (or l r).toJson =
    (ofJson? true l.toJson).bind fun l' => (ofJson? true r.toJson).bind fun r' =>
      some (or l' r') := by
  rw [toJson, ofJson?]
  rfl

theorem ofJson?_toJson_and : ofJson? inner (and l r).toJson =
    (ofJson? true l.toJson).bind fun l' => (ofJson? true r.toJson).bind fun r' =>
      some (and l' r') := by
  rw [toJson, ofJson?]
  rfl

theorem ofJson?_toJson_unary : ofJson? inner (unary op negate x).toJson =
    (Operand.ofJson? true x.toJson).bind fun x' => some (unary op negate x') := by
  rw [toJson, ofJson?]
  rfl

theorem ofJson?_toJson_binary : ofJson? inner (binary op negate x y).toJson =
    (Operand.ofJson? true x.toJson).bind fun x' => (Operand.ofJson? true y.toJson).bind fun y' =>
      some (binary op negate x' y') := by
  rw [toJson, ofJson?]
  rfl

end Condition

/-! ### The whole of a document -/

mutual

theorem Selector.exists_ofJson? : ∀ (inner : Bool) (s : Selector), s.Storable →
    ∃ t, Selector.ofJson? inner s.toJson = some t ∧ s.equal t = true
  | inner, .filter c deep, h => by
    obtain ⟨c', hc, hequal⟩ := Condition.exists_ofJson? true c h
    refine ⟨.filter c' deep, ?_, ?_⟩
    · rw [Selector.ofJson?_toJson_filter, hc]
      rfl
    · simp [Selector.equal, hequal]
  | inner, .root _, h | inner, .relative _, h | inner, .named .., h | inner, .elements _, h
  | inner, .slice .., h | inner, .all _, h =>
    ⟨_, Selector.ofJson?_toJson_flat inner (by simp) h, by simp [Selector.equal]⟩

theorem Selector.exists_ofJson?_list : ∀ (inner : Bool) (p : List Selector),
    Selector.StorableAll p → ∃ q, (Selector.listJson p).mapM (Selector.ofJson? inner) = some q ∧
      Selector.equalLists p q = true
  | _, [], _ => ⟨[], rfl, by rw [Selector.equalLists]⟩
  | inner, s :: p, h => by
    obtain ⟨t, ht, hst⟩ := Selector.exists_ofJson? inner s h.1
    obtain ⟨q, hq, hpq⟩ := Selector.exists_ofJson?_list inner p h.2
    refine ⟨t :: q, ?_, ?_⟩
    · rw [Selector.listJson, List.mapM_cons, ht, hq]
      rfl
    · rw [Selector.equalLists, hst, hpq]
      rfl

theorem Operand.exists_ofJson? : ∀ (inner : Bool) (x : Operand), x.Storable →
    ∃ y, Operand.ofJson? inner x.toJson = some y ∧ x.equal y = true
  | inner, .value v, h => by
    refine ⟨_, Operand.ofJson?_toJson_value inner v, ?_⟩
    rw [Operand.equal]
    exact (Value.equal_ofJson_toJson_iff h.1).mpr h.2
  | inner, .path p quantifier, h => by
    obtain ⟨q, hq, hpq⟩ := Selector.exists_ofJson?_list true p h
    refine ⟨.path q quantifier, ?_, ?_⟩
    · rw [Operand.ofJson?_toJson_path, Path.toJson, Path.ofJson?_array, hq]
      rfl
    · simp [Operand.equal, hpq]

theorem Condition.exists_ofJson? : ∀ (inner : Bool) (c : Condition), c.Storable →
    ∃ d, Condition.ofJson? inner c.toJson = some d ∧ c.equal d = true
  | inner, .or l r, h => by
    obtain ⟨l', hl, hequal⟩ := Condition.exists_ofJson? true l h.1
    obtain ⟨r', hr, hequal'⟩ := Condition.exists_ofJson? true r h.2
    refine ⟨.or l' r', ?_, ?_⟩
    · rw [Condition.ofJson?_toJson_or, hl, hr]
      rfl
    · rw [Condition.equal, hequal, hequal']
      rfl
  | inner, .and l r, h => by
    obtain ⟨l', hl, hequal⟩ := Condition.exists_ofJson? true l h.1
    obtain ⟨r', hr, hequal'⟩ := Condition.exists_ofJson? true r h.2
    refine ⟨.and l' r', ?_, ?_⟩
    · rw [Condition.ofJson?_toJson_and, hl, hr]
      rfl
    · rw [Condition.equal, hequal, hequal']
      rfl
  | inner, .unary op negate x, h => by
    obtain ⟨x', hx, hequal⟩ := Operand.exists_ofJson? true x h
    refine ⟨.unary op negate x', ?_, ?_⟩
    · rw [Condition.ofJson?_toJson_unary, hx]
      rfl
    · simp [Condition.equal, hequal]
  | inner, .binary op negate x y, h => by
    obtain ⟨x', hx, hequal⟩ := Operand.exists_ofJson? true x h.1
    obtain ⟨y', hy, hequal'⟩ := Operand.exists_ofJson? true y h.2
    refine ⟨.binary op negate x' y', ?_, ?_⟩
    · rw [Condition.ofJson?_toJson_binary, hx, hy]
      rfl
    · simp [Condition.equal, hequal, hequal']

end

theorem Path.exists_ofJson? (inner : Bool) {p : Path} (h : p.Storable) :
    ∃ q, Path.ofJson? inner (Path.toJson p) = some q ∧ Path.equal p q = true := by
  rw [Path.toJson, Path.ofJson?_array]
  exact Selector.exists_ofJson?_list inner p h

/-! ### Facts and rules -/

def Location.Storable (p : Location) : Prop := ∀ i, .index i ∈ p → Json.fitsUnsigned i = true

theorem Location.ofJson?_toJson {p : Location} (h : p.Storable) :
    Location.ofJson? p.toJson = some p := by
  refine list?_map fun k hk => ?_
  cases k with
  | index i => exact congrArg (Option.map Key.index) (index?_nat (h i hk))
  | name s => rfl

theorem Extent.maybe?_toJson (extent : Option Extent) :
    maybe? Extent.ofJson? (extent.map Extent.toJson) = some extent := by
  match extent with
  | none | some .ancestors | some .descendants => rfl

theorem Fact.ofJson?_toJson {f : Fact} (h : f.context.Storable) :
    Fact.ofJson? f.toJson = some f := by
  obtain ⟨name, context, extent⟩ := f
  have hpick : (Content.named ([("name", Json.string name), ("context", context.toJson)] ++
      optionalMember "extent" (extent.map Extent.toJson))).pick Fact.fields =
      some [some (.string name), some context.toJson, extent.map Extent.toJson] := by
    cases extent <;> rfl
  rw [Fact.toJson, Fact.ofJson?]
  simp only [content?, Option.bind_eq_bind, Option.bind_some, hpick, Json.string?,
    Location.ofJson?_toJson h, Extent.maybe?_toJson, Option.pure_def]

theorem Guard.ofJson?_toJson (g : Guard) : Guard.ofJson? g.toJson = some g := rfl

theorem Form.guards?_map (guards : List Guard) :
    guards? (some (.array (guards.map Guard.toJson))) = some guards :=
  list?_map fun g _ => g.ofJson?_toJson

/-- The fields of a rule are found as they were written. -/
theorem Form.pick_ruleJson (name : String) (context : Json) (extent : Option Extent)
    (guards : List Guard) (condition : Option Json) :
    ∃ content, content? (ruleJson name context extent guards condition) = some content ∧
      content.pick Rule.fields = some [some (.string name), some context,
        extent.map Extent.toJson, some (.array (guards.map Guard.toJson)), condition] := by
  refine ⟨_, rfl, ?_⟩
  cases extent <;> cases condition <;> rfl

/-- Rules are equal when they are written alike, their literals being compared as values. -/
def Rule.equal (r s : Rule) : Bool :=
  r.name == s.name && Path.equal r.context s.context && r.extent == s.extent &&
    r.guards == s.guards &&
      match r.condition, s.condition with
      | none, none => true
      | some c, some d => c.equal d
      | _, _ => false

/-- A document can hold the rule. -/
structure Rule.Storable (r : Rule) : Prop where
  context : r.context.Storable
  condition : ∀ c ∈ r.condition, c.Storable

/-- No condition is written as null. -/
theorem Condition.maybe?_toJson {c d : Condition} (h : ofJson? false c.toJson = some d) :
    maybe? (ofJson? false) (some c.toJson) = some (some d) := by
  cases c
  all_goals
    rw [toJson] at h ⊢
    exact congrArg (Option.map some) h

theorem Rule.exists_ofJson? {r : Rule} (h : r.Storable) :
    ∃ s, Rule.ofJson? r.toJson = some s ∧ r.equal s = true := by
  obtain ⟨name, context, extent, guards, condition⟩ := r
  obtain ⟨q, hq, hequal⟩ := Path.exists_ofJson? false h.context
  obtain ⟨content, hcontent, hpick⟩ := pick_ruleJson name (Path.toJson context) extent guards
    (condition.map Condition.toJson)
  have hread : ∀ o, maybe? (Condition.ofJson? false) (condition.map Condition.toJson) = some o →
      Rule.ofJson? (Rule.toJson ⟨name, context, extent, guards, condition⟩) =
        some ⟨name, q, extent, guards, o⟩ := by
    intro o ho
    rw [Rule.ofJson?, Rule.toJson, hcontent]
    simp only [Option.bind_eq_bind, Option.bind_some, hpick, Json.string?, hq,
      Extent.maybe?_toJson, guards?_map, ho, Option.pure_def]
  cases condition with
  | none =>
    refine ⟨_, hread none rfl, ?_⟩
    simp [Rule.equal, hequal]
  | some c =>
    obtain ⟨d, hd, hequal'⟩ := Condition.exists_ofJson? false c (h.condition c rfl)
    refine ⟨_, hread (some d) (Condition.maybe?_toJson hd), ?_⟩
    simp [Rule.equal, hequal, hequal']

/-- A rule that is not read yet comes back as it was. -/
theorem RuleText.ofJson?_toJson (r : RuleText) : RuleText.ofJson? r.toJson = some r := by
  obtain ⟨name, context, extent, guards, condition⟩ := r
  obtain ⟨content, hcontent, hpick⟩ := pick_ruleJson name (.string context) extent guards
    (condition.map .string)
  have hcondition : maybe? Json.string? (condition.map .string) = some condition := by
    cases condition <;> rfl
  rw [RuleText.ofJson?, RuleText.toJson, hcontent]
  simp only [Option.bind_eq_bind, Option.bind_some, hpick, Json.string?, Extent.maybe?_toJson,
    guards?_map, hcondition, Option.pure_def]

/-- Whatever can be written, malformed paths and empty lists included, is read again from its
document: facts, guards and rules that are not read yet as they were, anything else up to the
equality of literals. -/
theorem exists_ofJson?_toJson :
    (∀ inner (s : Selector), s.Storable →
      ∃ t, Selector.ofJson? inner s.toJson = some t ∧ s.equal t = true) ∧
    (∀ inner (p : Path), p.Storable →
      ∃ q, Path.ofJson? inner p.toJson = some q ∧ p.equal q = true) ∧
    (∀ inner (x : Operand), x.Storable →
      ∃ y, Operand.ofJson? inner x.toJson = some y ∧ x.equal y = true) ∧
    (∀ inner (c : Condition), c.Storable →
      ∃ d, Condition.ofJson? inner c.toJson = some d ∧ c.equal d = true) ∧
    (∀ f : Fact, f.context.Storable → Fact.ofJson? f.toJson = some f) ∧
    (∀ g : Guard, Guard.ofJson? g.toJson = some g) ∧
    (∀ r : Rule, r.Storable → ∃ s, Rule.ofJson? r.toJson = some s ∧ r.equal s = true) ∧
    ∀ r : RuleText, RuleText.ofJson? r.toJson = some r :=
  ⟨Selector.exists_ofJson?, fun inner _ => Path.exists_ofJson? inner, Operand.exists_ofJson?,
    Condition.exists_ofJson?, fun _ => Fact.ofJson?_toJson, Guard.ofJson?_toJson,
    fun _ => Rule.exists_ofJson?, RuleText.ofJson?_toJson⟩

/-- A rule with a path that cannot match, positions at both limits, and a literal with an absent
member and a negative zero. -/
theorem exists_ofJson?_toJson_limits :
    ∃ r : Rule, r.context = [.slice (some (-9223372036854775808)) none (some 9223372036854775807),
        .root 18446744073709551615, .elements [], .filter (.binary "is" true
          (.value (.object [("a", .absent), ("b", .array [.number (-0.0), .number 0.1])]))
          (.path [] (some .every))) true] ∧
      (∃ s, Rule.ofJson? r.toJson = some s ∧ r.equal s = true) ∧
      ∃ f : Fact, f.context = [.index 18446744073709551615, .name "0"] ∧
        Fact.ofJson? f.toJson = some f := by
  refine ⟨⟨"", _, some .ancestors, [.requires "", .excludes ""], none⟩, rfl,
    exists_ofJson?_toJson.2.2.2.2.2.2.1 _ ⟨?_, by simp⟩, ⟨"", _, none⟩, rfl,
    exists_ofJson?_toJson.2.2.2.2.1 _ ?_⟩
  · have hzero : (-0.0 : Float).isFinite = true := by decide +kernel
    have htenth : (0.1 : Float).isFinite = true := by decide +kernel
    simp [Path.Storable, Selector.StorableAll, Selector.Storable, Condition.Storable,
      Operand.Storable, Value.NamesDistinct, Value.MembersDistinct, Value.ItemsDistinct, Value.Kept,
      Value.MembersKept, Value.ItemsKept, Value.isPresent, Value.isAbsent, hzero, htenth,
      Json.fitsSigned, Json.fitsUnsigned]
  · simp [Location.Storable, Json.fitsUnsigned]

end TreeQuery
