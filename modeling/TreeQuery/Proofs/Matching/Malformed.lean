import TreeQuery.Proofs.Correspondence
import TreeQuery.Proofs.Matching.Found
import TreeQuery.Proofs.Matching.Preparation
import TreeQuery.Proofs.Matching.Warnings

/-! Malformed paths: those without a scope in front, and those with a scope further on. They are
prepared like any other path and never find anything, for want of a place to start from or because
the scope further on is a step that leads nowhere, whatever stands around it. Preparing them leaves
a warning, wherever they stand, and nothing else does. -/

namespace TreeQuery

/-- The path does not start with a scope, or has one further on. -/
def Path.Malformed : Path → Prop
  | [] => True
  | first :: rest => first.isScope = false ∨ ∃ s ∈ rest, s.isScope = true

/-! ### Nothing is found -/

/-- A step that leads nowhere ends all ways through it. -/
theorem Step.follow_of_never_mem {steps : List Step} (h : .never ∈ steps) (scopes : Scopes)
    (ms : List Match) : follow steps scopes ms = [] := by
  induction steps generalizing ms with
  | nil => simp at h
  | cons step steps ih =>
    rw [follow_cons]
    rcases List.mem_cons.mp h with rfl | h
    · have hnone : ms.flatMap (fun m => (never.finds scopes m.value).map (Match.under m.path)) =
          [] := List.flatMap_eq_nil_iff.mpr fun _ _ => rfl
      rw [hnone, follow_none]
    · exact ih h _

theorem Selector.prepared_of_isScope {s : Selector} (hs : s.isScope = true) (ops : Registry) :
    s.prepared ops = .ok .never := by
  cases s <;> first | rfl | simp [isScope] at hs

section

variable {ops : Registry} {p : Path} {m : Matcher}

theorem Path.Malformed.findAll_eq_nil (hp : p.Malformed) (hm : (p.prepare ops).result = .ok m)
    (scopes : Scopes) : m.findAll scopes = [] := by
  cases p with
  | nil =>
    cases hm
    exact Step.follow_nil scopes []
  | cons first rest =>
    obtain ⟨steps, hsteps, rfl⟩ := Path.prepare_cons_ok_iff.mp hm
    rcases hp with hfirst | ⟨s, hs, hscope⟩
    · have hnone : first.origin? = none := by
        simpa [hfirst] using first.isNone_origin?
      rw [Matcher.findAll, hnone]
      exact Step.follow_none steps scopes
    · have hprepared := List.mapM_ok_iff_forall₂.mp hsteps
      obtain ⟨step, hstep, hs⟩ := hprepared.flip.exists_of_mem_right hs
      rw [Selector.prepared_of_isScope hscope] at hs
      cases hs
      exact Step.follow_of_never_mem hstep scopes _

/-- An operand with a malformed path stands for no value, for none of any, or for the array of
none. -/
theorem Path.Malformed.resolve_eq (hp : p.Malformed) (hm : (p.prepare ops).result = .ok m)
    (scopes : Scopes) (quantifier : Option Quantifier) :
    (Source.path m.origin m.steps quantifier).resolve scopes =
      match quantifier with
      | some q => .each q []
      | none => .one (if m.isMulti then .array [] else .absent) := by
  have hnone : Step.follow m.steps scopes (Origin.start m.origin scopes) = [] :=
    hp.findAll_eq_nil hm scopes
  cases quantifier with
  | some q => simp [Source.resolve, hnone]
  | none => simp [Source.resolve, hnone, Matcher.isMulti]

end

/-! ### Paths within paths -/

mutual

/-- The paths in a selector that is not the first of its path. -/
def Selector.paths : Selector → List Path
  | .filter c _ => c.paths
  | _ => []

def Selector.pathsAll : List Selector → List Path
  | [] => []
  | s :: p => s.paths ++ Selector.pathsAll p

/-- The path itself and those in its selectors; its first one is not looked into. -/
def Selector.pathsFrom : List Selector → List Path
  | [] => [[]]
  | first :: rest => (first :: rest) :: Selector.pathsAll rest

def Operand.paths : Operand → List Path
  | .value _ => []
  | .path p _ => Selector.pathsFrom p

/-- The paths in a condition at any depth, those in the filters of its operands included. -/
def Condition.paths : Condition → List Path
  | .or l r => l.paths ++ r.paths
  | .and l r => l.paths ++ r.paths
  | .unary _ _ x => x.paths
  | .binary _ _ l r => l.paths ++ r.paths

end

def Path.paths (p : Path) : List Path := Selector.pathsFrom p

/-! ### Warnings -/

/-- When the computation succeeds it has left a warning exactly if `P` holds. -/
def Logged.WarnsIff {ε α : Type} (x : Logged ε α) (P : Prop) : Prop :=
  ∀ a, x.result = .ok a → (x.warned = true ↔ P)

namespace Logged

variable {ε α β : Type} {x : Logged ε α} {P Q : Prop}

theorem warnsIff_pure (a : α) : (Pure.pure a : Logged ε α).WarnsIff False :=
  fun _ _ => by simp [warned_pure]

theorem warnsIff_warning (text : String) : (note .warn text : Logged ε Unit).WarnsIff True :=
  fun _ _ => iff_of_true rfl trivial

theorem warnsIff_debug (text : String) : (note .debug text : Logged ε Unit).WarnsIff False :=
  fun _ _ => iff_of_false (by simp [note, warned]) id

theorem WarnsIff.bind {f : α → Logged ε β} (hx : x.WarnsIff P) (hf : ∀ a, (f a).WarnsIff Q) :
    (x >>= f).WarnsIff (P ∨ Q) := by
  intro b hb
  obtain ⟨a, ha, hb⟩ := result_bind_ok_iff.mp hb
  have hwarned : (x >>= f).warned = (x.warned || (f a).warned) := by
    change (x.bind f).records.any _ = _
    rw [Logged.bind, ha]
    exact List.any_append
  rw [hwarned, Bool.or_eq_true, hx a ha, hf a b hb]

theorem WarnsIff.congr (hx : x.WarnsIff P) (h : P ↔ Q) : x.WarnsIff Q :=
  fun a ha => (hx a ha).trans h

theorem WarnsIff.map (hx : x.WarnsIff P) (f : α → β) :
    (x >>= fun a => Pure.pure (f a)).WarnsIff P :=
  (hx.bind fun a => warnsIff_pure (f a)).congr (by rw [or_false])

end Logged

section

variable (ops : Registry)

theorem Registry.warnsIff_require (name : String) : (ops.require name).WarnsIff False :=
  fun _ _ => by simp [warned_require]

open Logged in
mutual

theorem Selector.warnsIff_prepare (whole : Path) : ∀ s : Selector,
    (s.prepare ops whole).WarnsIff (s.isScope = true ∨ ∃ q ∈ s.paths, q.Malformed)
  | .root _ | .relative _ => ((warnsIff_warning _).map _).congr (by simp [Selector.isScope])
  | .named .. | .elements _ | .slice .. | .all _ =>
    (warnsIff_pure _).congr (by simp [Selector.isScope, Selector.paths])
  | .filter c _ =>
    ((Condition.warnsIff_prepare c).map _).congr (by simp [Selector.isScope, Selector.paths])

theorem Selector.warnsIff_prepareAll (whole : Path) : ∀ p : List Selector,
    (Selector.prepareAll ops whole p).WarnsIff
      ((∃ s ∈ p, s.isScope = true) ∨ ∃ q ∈ Selector.pathsAll p, q.Malformed)
  | [] => (warnsIff_pure _).congr (by simp [Selector.pathsAll])
  | s :: p => by
    refine ((Selector.warnsIff_prepare whole s).bind fun _ =>
      (Selector.warnsIff_prepareAll whole p).map _).congr ?_
    simp only [Selector.pathsAll, List.exists_mem_cons_iff, List.mem_append, or_and_right,
      exists_or]
    exact or_or_or_comm

theorem Selector.warnsIff_preparePath : ∀ p : List Selector,
    (Selector.preparePath ops p).WarnsIff (∃ q ∈ Selector.pathsFrom p, q.Malformed)
  | [] => ((warnsIff_warning _).map _).congr (by simp [Selector.pathsFrom, Path.Malformed])
  | first :: rest => by
    have hrest := Selector.warnsIff_prepareAll (first :: rest) rest
    rw [Selector.preparePath, Selector.isNone_origin?]
    cases hfirst : first.isScope with
    | true =>
      refine (hrest.bind fun _ => (warnsIff_debug _).map _).congr ?_
      simp [Selector.pathsFrom, Path.Malformed, hfirst]
    | false =>
      refine ((warnsIff_warning _).bind fun _ =>
        hrest.bind fun _ => (warnsIff_debug _).map _).congr ?_
      simp [Selector.pathsFrom, Path.Malformed, hfirst]

theorem Operand.warnsIff_prepare : ∀ x : Operand,
    (x.prepare ops).WarnsIff (∃ q ∈ x.paths, q.Malformed)
  | .value _ => (warnsIff_pure _).congr (by simp [Operand.paths])
  | .path p _ => (Selector.warnsIff_preparePath p).map _

theorem Condition.warnsIff_prepare : ∀ c : Condition,
    (c.prepare ops).WarnsIff (∃ q ∈ c.paths, q.Malformed)
  | .or l r | .and l r =>
    ((Condition.warnsIff_prepare l).bind fun _ => (Condition.warnsIff_prepare r).map _).congr
      (by simp [Condition.paths, or_and_right, exists_or])
  | .unary op _ x =>
    ((ops.warnsIff_require op).bind fun _ => (Operand.warnsIff_prepare x).map _).congr
      (by simp [Condition.paths])
  | .binary op _ l r =>
    ((ops.warnsIff_require op).bind fun _ => (Operand.warnsIff_prepare l).bind fun _ =>
      (Operand.warnsIff_prepare r).map _).congr
      (by simp [Condition.paths, or_and_right, exists_or])

end

end

/-- A malformed path that is prepared finds nothing on any stack. An operand with it has no value
without a quantifier, or the array of none if the path is one that can have several matches; nothing
is true of some of its values, and everything of every one. What is prepared with success leaves a
warning exactly if a path in it is malformed: the path itself, or one in an operand or in a filter
behind the first selector of a path, at any depth. -/
theorem warned_iff_exists_malformed (ops : Registry) :
    (∀ (p : Path) m, (p.prepare ops).result = .ok m → p.Malformed → ∀ scopes,
      m.findAll scopes = [] ∧
      (∃ s, ((Operand.path p none).prepare ops).result = .ok s ∧
        s.resolve scopes = .one (if m.isMulti then .array [] else .absent)) ∧
      (∃ s, ((Operand.path p (some .some)).prepare ops).result = .ok s ∧
        ∀ P, (s.resolve scopes).holds P = false) ∧
      ∃ s, ((Operand.path p (some .every)).prepare ops).result = .ok s ∧
        ∀ P, (s.resolve scopes).holds P = true) ∧
    (∀ (p : Path) m, (p.prepare ops).result = .ok m →
      ((p.prepare ops).warned = true ↔ ∃ q ∈ p.paths, q.Malformed)) ∧
    (∀ (x : Operand) s, (x.prepare ops).result = .ok s →
      ((x.prepare ops).warned = true ↔ ∃ q ∈ x.paths, q.Malformed)) ∧
    ∀ (c : Condition) t, (c.prepare ops).result = .ok t →
      ((c.prepare ops).warned = true ↔ ∃ q ∈ c.paths, q.Malformed) := by
  refine ⟨fun p m hm hp scopes => ?_, Selector.warnsIff_preparePath ops,
    Operand.warnsIff_prepare ops, Condition.warnsIff_prepare ops⟩
  have hprepared : ∀ quantifier, ((Operand.path p quantifier).prepare ops).result =
      .ok (.path m.origin m.steps quantifier) :=
    fun quantifier => Operand.prepare_path_ok_iff.mpr ⟨m, hm, rfl⟩
  refine ⟨hp.findAll_eq_nil hm scopes, ⟨_, hprepared none, hp.resolve_eq hm scopes none⟩,
    ⟨_, hprepared (some .some), fun P => ?_⟩, ⟨_, hprepared (some .every), fun P => ?_⟩⟩
  · rw [hp.resolve_eq hm scopes (some .some)]
    rfl
  · rw [hp.resolve_eq hm scopes (some .every)]
    rfl

/-- The scope that stands too late is in a filter of a path that is not malformed itself. -/
theorem warned_iff_exists_malformed_filter :
    let late : Path := [.root 0, .all false, .relative 0, .named ["x"] true]
    let outer : Path := [.root 0, .filter (.unary "empty" true (.path late none)) false]
    let c : Condition := .unary "empty" false (.path outer (some .every))
    let source : Value := .array [.object [("x", .bool true)]]
    late.Malformed ∧ ¬outer.Malformed ∧ c.paths = [outer, late] ∧
    (∃ m, (late.prepare .builtin).result = .ok m ∧ m.findAll [source] = [] ∧
      ∃ s, ((Operand.path late none).prepare .builtin).result = .ok s ∧
        s.resolve [source] = .one (.array [])) ∧
    ∃ t, (c.prepare .builtin).result = .ok t ∧ (c.prepare .builtin).warned = true := by
  intro late outer c source
  have hlate : late.Malformed := .inr ⟨.relative 0, by simp, rfl⟩
  have houter : ¬outer.Malformed := by simp [outer, Path.Malformed, Selector.isScope]
  have hpaths : c.paths = [outer, late] := rfl
  have hm : (late.prepare .builtin).result = .ok _ := rfl
  have hc : (c.prepare .builtin).result = .ok _ := rfl
  obtain ⟨hfinds, -, -, hwarned⟩ := warned_iff_exists_malformed .builtin
  obtain ⟨hnone, hoperand, -⟩ := hfinds late _ hm hlate [source]
  exact ⟨hlate, houter, hpaths, ⟨_, hm, hnone, hoperand⟩, _, hc,
    (hwarned c _ hc).mpr ⟨late, by simp [hpaths], hlate⟩⟩

end TreeQuery
