/-! Records of what happens while paths and rules are prepared and run. A computation that keeps
records keeps them also when it fails. -/

namespace TreeQuery

namespace Log

inductive Level where
  | error | warn | info | debug | trace
  deriving DecidableEq, Repr

def Level.name : Level → String
  | error => "ERROR"
  | warn => "WARN"
  | info => "INFO"
  | debug => "DEBUG"
  | trace => "TRACE"

/-- How much each level says, the least first. -/
def Level.detail : Level → Nat
  | error => 1
  | warn => 2
  | info => 3
  | debug => 4
  | trace => 5

structure Record where
  level : Level
  text : String
  deriving DecidableEq, Repr

end Log

/-- The result of a computation that may fail, with the records it left, oldest first. -/
structure Logged (ε α : Type) where
  records : List Log.Record
  result : Except ε α

namespace Logged

variable {ε δ α β : Type}

def pure (a : α) : Logged ε α := ⟨[], .ok a⟩

def bind (x : Logged ε α) (f : α → Logged ε β) : Logged ε β :=
  match x.result with
  | .error e => ⟨x.records, .error e⟩
  | .ok a => ⟨x.records ++ (f a).records, (f a).result⟩

instance : Monad (Logged ε) where
  pure := pure
  bind := bind

def fail (e : ε) : Logged ε α := ⟨[], .error e⟩

def ofExcept (x : Except ε α) : Logged ε α := ⟨[], x⟩

/-- Leaves one record. -/
def note (level : Log.Level) (text : String) : Logged ε Unit := ⟨[⟨level, text⟩], .ok ()⟩

def mapError (f : ε → δ) (x : Logged ε α) : Logged δ α := ⟨x.records, x.result.mapError f⟩

/-- Whether a warning was left. -/
def warned (x : Logged ε α) : Bool := x.records.any (·.level == .warn)

@[simp] theorem result_bind (x : Logged ε α) (f : α → Logged ε β) :
    (x.bind f).result = x.result.bind fun a => (f a).result := by
  unfold bind
  cases x.result <;> rfl

end Logged

end TreeQuery
