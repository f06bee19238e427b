import TreeQuery.Proofs.Grammar.Regular
import TreeQuery.Proofs.Matching.OperatorNames

/-! Preparing what has been read from a text. Warnings are about paths with a scope in the wrong
place, or without one, so there are none about regular paths. -/

namespace TreeQuery

namespace Logged

variable {ε α β : Type}

theorem warned_pure (a : α) : (Pure.pure a : Logged ε α).warned = false := rfl

theorem warned_bind {x : Logged ε α} {f : α → Logged ε β} (hx : x.warned = false)
    (hf : ∀ a, (f a).warned = false) : (x >>= f).warned = false := by
  change (x.bind f).records.any _ = false
  unfold Logged.bind
  cases x.result with
  | error e => exact hx
  | ok a => exact List.any_append.trans (Bool.or_eq_false_iff.mpr ⟨hx, hf a⟩)

end Logged

variable (ops : Registry)

theorem Registry.warned_require (name : String) : (ops.require name).warned = false := by
  unfold require
  split <;> rfl

theorem Selector.isNone_origin? (s : Selector) : s.origin?.isNone = !s.isScope := by
  cases s <;> rfl

open Logged in
mutual

theorem Selector.warned_prepare (whole : Path) :
    ∀ {s : Selector}, s.Regular → (s.prepare ops whole).warned = false
  | .named .., _ | .elements _, _ | .slice .., _ | .all _, _ => warned_pure _
  | .filter _ _, hs => warned_bind (Condition.warned_prepare hs) fun _ => warned_pure _

theorem Selector.warned_prepareAll (whole : Path) : ∀ {p : List Selector},
    Selector.RegularAll p → (Selector.prepareAll ops whole p).warned = false
  | [], _ => warned_pure _
  | _ :: _, ⟨hs, hp⟩ => warned_bind (Selector.warned_prepare whole hs) fun _ =>
    warned_bind (Selector.warned_prepareAll whole hp) fun _ => warned_pure _

theorem Selector.warned_preparePath : ∀ {p : List Selector}, Selector.RegularPath p →
    (Selector.preparePath ops p).warned = false
  | first :: rest, ⟨hfirst, hrest⟩ => by
    have hsteps := Selector.warned_prepareAll (first :: rest) hrest
    rw [Selector.preparePath, Selector.isNone_origin?, hfirst]
    exact warned_bind hsteps fun _ => warned_bind rfl fun _ => warned_pure _

theorem Operand.warned_prepare : ∀ {x : Operand}, x.Regular → (x.prepare ops).warned = false
  | .value _, _ => warned_pure _
  | .path _ _, hp => warned_bind (Selector.warned_preparePath hp) fun _ => warned_pure _

theorem Condition.warned_prepare : ∀ {c : Condition}, c.Regular → (c.prepare ops).warned = false
  | .or _ _, ⟨hl, hr⟩ | .and _ _, ⟨hl, hr⟩ =>
    warned_bind (Condition.warned_prepare hl) fun _ =>
      warned_bind (Condition.warned_prepare hr) fun _ => warned_pure _
  | .unary op _ _, ⟨_, hx⟩ => warned_bind (ops.warned_require op) fun _ =>
    warned_bind (Operand.warned_prepare hx) fun _ => warned_pure _
  | .binary op _ _ _, ⟨_, hl, hr⟩ => warned_bind (ops.warned_require op) fun _ =>
    warned_bind (Operand.warned_prepare hl) fun _ =>
      warned_bind (Operand.warned_prepare hr) fun _ => warned_pure _

end

/-- What a text is read as is regular; preparing it leaves no warning, and can only fail for want of
an operator. -/
theorem parse_regular (text : String) :
    (∀ p, Path.parse text = .ok p → p.Regular ∧
      ∀ ops, (p.prepare ops).warned = false ∧ (p.prepare ops).OnlyUnknown) ∧
    ∀ c, Condition.parse text = .ok c → c.Regular ∧
      ∀ ops, (c.prepare ops).warned = false ∧ (c.prepare ops).OnlyUnknown := by
  constructor
  · intro p hparse
    have hp := Path.regular_of_parse hparse
    exact ⟨hp, fun ops =>
      ⟨Selector.warned_preparePath ops hp, Selector.onlyUnknown_preparePath ops p⟩⟩
  · intro c hparse
    have hc := Condition.regular_of_parse hparse
    exact ⟨hc, fun ops => ⟨Condition.warned_prepare ops hc, Condition.onlyUnknown_prepare ops c⟩⟩

/-- A filter with a list of names in it, and a negated condition with carets and an array. -/
theorem parse_regular_nested :
    (∃ p, Path.parse "$.rows[? @['x', 'y'] is 'x']" = .ok p ∧
      p = [.root 0, .named ["rows"] false, .filter (.binary "is" false
        (.path [.relative 0, .named ["x", "y"] false] none) (.value (.string "x"))) false] ∧
      p.Regular ∧ ∀ ops, (p.prepare ops).warned = false ∧ (p.prepare ops).OnlyUnknown) ∧
    ∃ c, Condition.parse "not (some ^^[0, -1] lt [null, 1.5])" = .ok c ∧ c.Regular ∧
      ∀ ops, (c.prepare ops).warned = false ∧ (c.prepare ops).OnlyUnknown := by
  constructor
  · have hparse : Path.parse "$.rows[? @['x', 'y'] is 'x']" = .ok
        [.root 0, .named ["rows"] false, .filter (.binary "is" false
          (.path [.relative 0, .named ["x", "y"] false] none) (.value (.string "x"))) false] := by
      cbv
    exact ⟨_, hparse, rfl, (parse_regular _).1 _ hparse⟩
  · have hok : (Condition.parse "not (some ^^[0, -1] lt [null, 1.5])").isOk = true := by
      decide +kernel
    cases hparse : Condition.parse "not (some ^^[0, -1] lt [null, 1.5])" with
    | error f => simp [hparse, Except.isOk, Except.toBool] at hok
    | ok c => exact ⟨c, rfl, (parse_regular _).2 c hparse⟩

end TreeQuery
