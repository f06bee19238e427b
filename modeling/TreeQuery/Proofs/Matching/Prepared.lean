import TreeQuery.Matching.Prepare

/-! Preparing without its records. What a selector is prepared to depends on the registry alone, so
the steps of a path are prepared one by one. -/

namespace TreeQuery

namespace Logged

variable {ε α β : Type}

@[simp] theorem result_bind_eq (x : Logged ε α) (f : α → Logged ε β) :
    (x >>= f).result = x.result >>= fun a => (f a).result := result_bind x f

@[simp] theorem result_pure (a : α) : (Pure.pure a : Logged ε α).result = .ok a := rfl

@[simp] theorem result_note (level : Log.Level) (text : String) :
    (note level text : Logged ε Unit).result = .ok () := rfl

@[simp] theorem result_fail (e : ε) : (fail e : Logged ε α).result = .error e := rfl

theorem result_map (f : α → β) (x : Logged ε α) : (f <$> x).result = x.result.map f := by
  change (x >>= fun a => Pure.pure (f a)).result = _
  rw [result_bind_eq]
  cases x.result <;> rfl

/-- One computation after another succeeds if both do. -/
theorem result_bind_ok_iff {x : Logged ε α} {f : α → Logged ε β} {b : β} :
    (x >>= f).result = .ok b ↔ ∃ a, x.result = .ok a ∧ (f a).result = .ok b := by
  rw [result_bind_eq]
  cases x.result with
  | error e => exact ⟨fun h => (nomatch h), fun ⟨_, h, _⟩ => (nomatch h)⟩
  | ok a =>
    refine ⟨fun h => ⟨a, rfl, h⟩, fun ⟨a', ha, h⟩ => ?_⟩
    cases ha
    exact h

theorem result_pure_ok_iff {a b : α} : (Pure.pure a : Logged ε α).result = .ok b ↔ b = a := by
  rw [result_pure, Except.ok.injEq, eq_comm]

end Logged

variable (ops : Registry)

/-- The step that a selector is prepared to when it is not the first of its path. -/
def Selector.prepared : Selector → Except QueryError Step
  | .root _ | .relative _ => .ok .never
  | .named names deep => .ok (.named names deep)
  | .elements positions => .ok (.elements positions)
  | .slice start stop step => .ok (.slice start stop step)
  | .all deep => .ok (.all deep)
  | .filter condition deep => (condition.prepare ops).result.map (.filter · deep)

theorem Selector.result_prepare (whole : Path) (s : Selector) :
    (s.prepare ops whole).result = s.prepared ops := by
  cases s with
  | filter condition deep =>
    simp only [prepare, prepared, Logged.result_bind_eq]
    cases (condition.prepare ops).result <;> rfl
  | _ => simp [prepare, prepared] <;> rfl

theorem Selector.result_prepareAll (whole : Path) (p : List Selector) :
    (Selector.prepareAll ops whole p).result = p.mapM (Selector.prepared ops) := by
  induction p with
  | nil => rfl
  | cons s p ih =>
    simp only [prepareAll, Logged.result_bind_eq, Logged.result_pure, result_prepare, ih,
      List.mapM_cons]
    rfl

/-- A path is prepared to the origin its first selector names and the steps of the others. -/
theorem Path.result_prepare (first : Selector) (rest : List Selector) :
    (Path.prepare ops (first :: rest)).result =
      (rest.mapM (Selector.prepared ops)).map (⟨first.origin?, ·⟩) := by
  simp only [prepare, Selector.preparePath]
  split <;> simp only [Logged.result_bind_eq, Logged.result_note, Logged.result_pure,
    Selector.result_prepareAll] <;> cases rest.mapM (Selector.prepared ops) <;> rfl

theorem Path.origin_of_prepare {ops : Registry} {p : Path} {m : Matcher}
    (h : (p.prepare ops).result = .ok m) : m.origin = p.head?.bind Selector.origin? := by
  cases p with
  | nil =>
    cases h
    rfl
  | cons first rest =>
    rw [Path.result_prepare] at h
    cases hs : rest.mapM (Selector.prepared ops) with
    | error f => simp [hs, Except.map] at h
    | ok steps =>
      rw [hs] at h
      cases h
      rfl

/-- One more selector at the end of a path is one more step at the end of what it is prepared to. -/
theorem Path.result_prepare_concat (first : Selector) (rest : List Selector) (s : Selector) :
    (Path.prepare ops (first :: rest ++ [s])).result =
      (Path.prepare ops (first :: rest)).result.bind fun m =>
        (s.prepared ops).map fun step => ⟨m.origin, m.steps ++ [step]⟩ := by
  rw [List.cons_append, result_prepare, result_prepare, List.mapM_append]
  cases rest.mapM (Selector.prepared ops) with
  | error f => rfl
  | ok steps =>
    rw [List.mapM_cons, List.mapM_nil]
    cases s.prepared ops <;> rfl

theorem Registry.require_ok_iff {ops : Registry} {name : String} {op : Operator} :
    (ops.require name).result = .ok op ↔ ops.get? name = some op := by
  unfold require
  cases ops.get? name <;> simp

end TreeQuery
