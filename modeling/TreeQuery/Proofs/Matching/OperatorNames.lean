import TreeQuery.Proofs.Matching.Prepared

/-! The operators that preparing looks up. They are the names in a condition or path from left to
right, the name of an application before those in its operands; a filter that starts a path is
passed over, since it cannot match. Preparing fails for the first of them that the registry lacks,
and apart from them it does not depend on the registry. -/

namespace TreeQuery

mutual

/-- The operators named in a selector that is not the first of its path, in order. -/
def Selector.operators : Selector → List String
  | .filter c _ => c.operators
  | _ => []

def Selector.operatorsAll : List Selector → List String
  | [] => []
  | s :: p => s.operators ++ Selector.operatorsAll p

/-- What the first selector names is not looked up. -/
def Selector.operatorsPath : List Selector → List String
  | [] => []
  | _ :: rest => Selector.operatorsAll rest

def Operand.operators : Operand → List String
  | .value _ => []
  | .path p _ => Selector.operatorsPath p

def Condition.operators : Condition → List String
  | .or l r => l.operators ++ r.operators
  | .and l r => l.operators ++ r.operators
  | .unary op _ x => op :: x.operators
  | .binary op _ l r => op :: (l.operators ++ r.operators)

end

def Path.operators (p : Path) : List String := Selector.operatorsPath p

/-! ### Looking operators up -/

/-- The first of the names that the registry lacks. -/
def Registry.missing? (ops : Registry) (names : List String) : Option String :=
  names.find? fun name => !ops.contains name

theorem Registry.missing?_append_eq_some_iff {ops : Registry} {names more : List String}
    {name : String} : ops.missing? (names ++ more) = some name ↔
      ops.missing? names = some name ∨
        ops.missing? names = none ∧ ops.missing? more = some name := by
  rw [missing?, List.find?_append, Option.or_eq_some_iff]
  rfl

/-- Both registries have the same operators under these names. -/
def Registry.AgreeOn (names : List String) (ops ops' : Registry) : Prop :=
  ∀ name ∈ names, ops'.get? name = ops.get? name

/-- The computation looks these names up in a registry, in order: it fails for the first that is
missing, succeeds if none is, and sees nothing else of the registry. -/
structure Logged.LooksUp {α : Type} (names : List String)
    (x : Registry → Logged QueryError α) : Prop where
  error : ∀ ops name, ops.missing? names = some name →
    (x ops).result = .error (.unknownOperator name)
  ok : ∀ ops, ops.missing? names = none → ∃ a, (x ops).result = .ok a
  congr : ∀ ops ops', Registry.AgreeOn names ops ops' → x ops' = x ops

namespace Logged

variable {α β : Type} {names more : List String}

theorem looksUp_pure (a : α) : LooksUp [] fun _ => (Pure.pure a : Logged QueryError α) where
  error _ _ h := nomatch h
  ok _ _ := ⟨a, rfl⟩
  congr _ _ _ := rfl

theorem looksUp_note (level : Log.Level) (text : String) :
    LooksUp [] fun _ => (note level text : Logged QueryError Unit) where
  error _ _ h := nomatch h
  ok _ _ := ⟨(), rfl⟩
  congr _ _ _ := rfl

theorem LooksUp.bind {x : Registry → Logged QueryError α}
    {f : Registry → α → Logged QueryError β} (hx : LooksUp names x)
    (hf : ∀ a, LooksUp more fun ops => f ops a) :
    LooksUp (names ++ more) fun ops => x ops >>= f ops where
  error ops name h := by
    rw [result_bind_eq]
    rcases Registry.missing?_append_eq_some_iff.mp h with h | ⟨hnone, h⟩
    · rw [hx.error ops name h]
      rfl
    · obtain ⟨a, ha⟩ := hx.ok ops hnone
      rw [ha]
      exact (hf a).error ops name h
  ok ops h := by
    rw [Registry.missing?, List.find?_append, Option.or_eq_none_iff] at h
    obtain ⟨a, ha⟩ := hx.ok ops h.1
    obtain ⟨b, hb⟩ := (hf a).ok ops h.2
    exact ⟨b, result_bind_ok_iff.mpr ⟨a, ha, hb⟩⟩
  congr ops ops' h := by
    obtain ⟨hnames, hmore⟩ := List.forall_mem_append.mp h
    have hrest : f ops' = f ops := funext fun a => (hf a).congr ops ops' hmore
    change x ops' >>= f ops' = x ops >>= f ops
    rw [hx.congr ops ops' hnames, hrest]

theorem LooksUp.map {x : Registry → Logged QueryError α} (hx : LooksUp names x) (f : α → β) :
    LooksUp names fun ops => x ops >>= fun a => Pure.pure (f a) := by
  simpa using hx.bind fun a => looksUp_pure (f a)

end Logged

theorem Registry.looksUp_require (name : String) :
    Logged.LooksUp [name] fun ops => ops.require name where
  error ops missing h := by
    obtain ⟨hlacks, before, after, hnames, -⟩ := List.find?_eq_some_iff_append.mp h
    obtain rfl : missing = name := by
      simpa using List.mem_singleton.mp (hnames ▸ List.mem_append_right before List.mem_cons_self)
    have hnone : ops.get? missing = none := by simpa [contains] using hlacks
    rw [require, hnone]
    rfl
  ok ops h := by
    have hfound : ops.get? name ≠ none := by simpa [missing?, contains] using h
    obtain ⟨op, hop⟩ := Option.ne_none_iff_exists'.mp hfound
    exact ⟨op, require_ok_iff.mpr hop⟩
  congr ops ops' h := by
    unfold require
    rw [h name (List.mem_singleton_self name)]

open Logged in
mutual

theorem Selector.looksUp_prepare (whole : Path) :
    ∀ s : Selector, LooksUp s.operators fun ops => s.prepare ops whole
  | .root _ | .relative _ => (looksUp_note _ _).map _
  | .named .. | .elements _ | .slice .. | .all _ => looksUp_pure _
  | .filter c _ => (Condition.looksUp_prepare c).map _

theorem Selector.looksUp_prepareAll (whole : Path) : ∀ p : List Selector,
    LooksUp (Selector.operatorsAll p) fun ops => Selector.prepareAll ops whole p
  | [] => looksUp_pure _
  | s :: p => (Selector.looksUp_prepare whole s).bind fun _ =>
    (Selector.looksUp_prepareAll whole p).map _

theorem Selector.looksUp_preparePath : ∀ p : List Selector,
    LooksUp (Selector.operatorsPath p) fun ops => Selector.preparePath ops p
  | [] => (looksUp_note _ _).map _
  | first :: rest => by
    have hrest := Selector.looksUp_prepareAll (first :: rest) rest
    unfold Selector.preparePath Selector.operatorsPath
    cases first.origin?.isNone with
    | true =>
      exact (looksUp_note _ _).bind fun _ => by
        simpa using hrest.bind fun _ => (looksUp_note _ _).map _
    | false => simpa using hrest.bind fun _ => (looksUp_note _ _).map _

theorem Operand.looksUp_prepare : ∀ x : Operand, LooksUp x.operators fun ops => x.prepare ops
  | .value _ => looksUp_pure _
  | .path p _ => (Selector.looksUp_preparePath p).map _

theorem Condition.looksUp_prepare : ∀ c : Condition, LooksUp c.operators fun ops => c.prepare ops
  | .or l r | .and l r => (Condition.looksUp_prepare l).bind fun _ =>
    (Condition.looksUp_prepare r).map _
  | .unary op _ x => (Registry.looksUp_require op).bind fun _ => (Operand.looksUp_prepare x).map _
  | .binary op _ l r => (Registry.looksUp_require op).bind fun _ =>
    (Operand.looksUp_prepare l).bind fun _ => (Operand.looksUp_prepare r).map _

end

/-! ### What can go wrong -/

/-- The computation fails for want of an operator, if it fails. -/
def Logged.OnlyUnknown {α : Type} (x : Logged QueryError α) : Prop :=
  ∀ f, x.result = .error f → ∃ name, f = .unknownOperator name

namespace Logged.LooksUp

variable {α : Type} {names : List String} {x : Registry → Logged QueryError α} {ops : Registry}

theorem error_iff (hx : LooksUp names x) {f : QueryError} :
    (x ops).result = .error f ↔
      ∃ name, ops.missing? names = some name ∧ f = .unknownOperator name := by
  cases hfirst : ops.missing? names with
  | some name => simp [hx.error ops name hfirst, eq_comm]
  | none =>
    obtain ⟨a, ha⟩ := hx.ok ops hfirst
    simp [ha]

theorem onlyUnknown (hx : LooksUp names x) : (x ops).OnlyUnknown := by
  intro f h
  obtain ⟨name, -, hf⟩ := hx.error_iff.mp h
  exact ⟨name, hf⟩

/-- The computation fails if a name is missing, and only then. -/
theorem fails_iff (hx : LooksUp names x) :
    (∃ f, (x ops).result = .error f) ↔ ∃ name ∈ names, ops.contains name = false := by
  have hmissing : (∃ name, ops.missing? names = some name) ↔
      ∃ name ∈ names, ops.contains name = false := by
    rw [← Option.isSome_iff_exists, Registry.missing?, List.find?_isSome]
    simp
  simp only [← hmissing, hx.error_iff]
  exact ⟨fun ⟨_, name, h, _⟩ => ⟨name, h⟩, fun ⟨name, h⟩ => ⟨_, name, h, rfl⟩⟩

/-- The name that it fails for is the first that is missing. -/
theorem error_eq (hx : LooksUp names x) {f : QueryError} (h : (x ops).result = .error f) :
    ∃ before name after, names = before ++ name :: after ∧
      (∀ n ∈ before, ops.contains n = true) ∧ ops.contains name = false ∧
      f = .unknownOperator name := by
  obtain ⟨name, hfirst, rfl⟩ := hx.error_iff.mp h
  obtain ⟨hlacks, before, after, hnames, hbefore⟩ := List.find?_eq_some_iff_append.mp hfirst
  exact ⟨before, name, after, hnames, by simpa using hbefore, by simpa using hlacks, rfl⟩

end Logged.LooksUp

theorem Selector.onlyUnknown_preparePath (ops : Registry) (p : List Selector) :
    (Selector.preparePath ops p).OnlyUnknown :=
  (Selector.looksUp_preparePath p).onlyUnknown

/-- A condition can be prepared unless the registry lacks one of its operators. -/
theorem Condition.onlyUnknown_prepare (ops : Registry) (c : Condition) :
    (c.prepare ops).OnlyUnknown :=
  c.looksUp_prepare.onlyUnknown

/-- Preparing a condition or path fails exactly if the registry lacks one of the operators that are
looked up, and the error names the first that it lacks. What is prepared with success is prepared
by any registry with the same operators under these names, and to what says or finds the same. -/
theorem prepare_fails_iff_missing :
    (∀ (c : Condition) (ops : Registry),
      ((∃ f, (c.prepare ops).result = .error f) ↔
        ∃ name ∈ c.operators, ops.contains name = false) ∧
      (∀ f, (c.prepare ops).result = .error f →
        ∃ before name after, c.operators = before ++ name :: after ∧
          (∀ n ∈ before, ops.contains n = true) ∧ ops.contains name = false ∧
          f = .unknownOperator name) ∧
      ∀ t, (c.prepare ops).result = .ok t → ∀ ops', Registry.AgreeOn c.operators ops ops' →
        ∃ t', (c.prepare ops').result = .ok t' ∧
          ∀ scopes, t'.evaluate scopes = t.evaluate scopes) ∧
    ∀ (p : Path) (ops : Registry),
      ((∃ f, (p.prepare ops).result = .error f) ↔
        ∃ name ∈ p.operators, ops.contains name = false) ∧
      (∀ f, (p.prepare ops).result = .error f →
        ∃ before name after, p.operators = before ++ name :: after ∧
          (∀ n ∈ before, ops.contains n = true) ∧ ops.contains name = false ∧
          f = .unknownOperator name) ∧
      ∀ m, (p.prepare ops).result = .ok m → ∀ ops', Registry.AgreeOn p.operators ops ops' →
        ∃ m', (p.prepare ops').result = .ok m' ∧
          ∀ scopes, m'.findAll scopes = m.findAll scopes := by
  constructor
  · intro c ops
    have hc := c.looksUp_prepare
    refine ⟨hc.fails_iff, fun f => hc.error_eq, fun t ht ops' hagree => ?_⟩
    have hsame : c.prepare ops' = c.prepare ops := hc.congr ops ops' hagree
    exact ⟨t, hsame ▸ ht, fun _ => rfl⟩
  · intro p ops
    have hp := Selector.looksUp_preparePath p
    refine ⟨hp.fails_iff, fun f => hp.error_eq, fun m hm ops' hagree => ?_⟩
    have hsame : p.prepare ops' = p.prepare ops := hp.congr ops ops' hagree
    exact ⟨m, hsame ▸ hm, fun _ => rfl⟩

/-- The filter that starts a path is not looked at, the one further on is, and before what follows
on the right. -/
theorem prepare_fails_iff_missing_filters :
    let leading : Operand := .path [.filter (.unary "lost" false (.value .null)) false] none
    let inner : Operand := .path [.root 0, .filter (.unary "gone" false leading) true] none
    let c : Condition := .or (.binary "is" true inner (.value .null)) (.unary "later" false inner)
    let ops := Registry.builtin.insertAll [("gone", fun x _ => x.isNull), ("later", Operator.empty)]
    let ops' := ops.insert "lost" Operator.is
    c.operators = ["is", "gone", "later", "gone"] ∧
    (∃ f, (c.prepare .builtin).result = .error f) ∧
    (∀ f, (c.prepare .builtin).result = .error f → f = .unknownOperator "gone") ∧
    ∃ t t', (c.prepare ops).result = .ok t ∧ (c.prepare ops').result = .ok t' ∧
      t.evaluate [.array [.null]] = true ∧ ∀ scopes, t'.evaluate scopes = t.evaluate scopes := by
  intro leading inner c ops ops'
  have hnames : c.operators = ["is", "gone", "later", "gone"] := rfl
  obtain ⟨hfails, hfirst, -⟩ := prepare_fails_iff_missing.1 c .builtin
  obtain ⟨-, -, hsame⟩ := prepare_fails_iff_missing.1 c ops
  have ht : (c.prepare ops).result = .ok _ := rfl
  have hagree : Registry.AgreeOn c.operators ops ops' := by
    simp only [hnames, Registry.AgreeOn, List.forall_mem_cons]
    exact ⟨rfl, rfl, rfl, rfl, nofun⟩
  obtain ⟨t', ht', hevaluate⟩ := hsame _ ht ops' hagree
  refine ⟨hnames, hfails.mpr ⟨"gone", by simp [hnames], by decide⟩, fun f hf => ?_, _, t', ht, ht',
    by decide +kernel, hevaluate⟩
  obtain ⟨before, name, after, hsplit, hbefore, hlacks, rfl⟩ := hfirst f hf
  rw [hnames] at hsplit
  match before with
  | [] =>
    cases hsplit
    exact absurd hlacks (by decide)
  | [_] =>
    cases hsplit
    rfl
  | _ :: second :: _ =>
    obtain rfl : "gone" = second := (List.cons.inj (List.cons.inj hsplit).2).1
    exact absurd (hbefore "gone" (by simp)) (by decide)

end TreeQuery
