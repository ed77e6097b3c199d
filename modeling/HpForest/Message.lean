import HpForest.Error

/-!
# Messages and replies

Operations report what they did through messages of three severities. A reply pairs an answer or a
refusal with the messages given on the way.
-/

namespace HpForest

/-- How urgent a message is, the most urgent first. -/
inductive Severity
  | warn
  | debug
  | trace
deriving DecidableEq, Repr

namespace Severity

def name : Severity → String
  | warn => "warn"
  | debug => "debug"
  | trace => "trace"

/-- Higher ranks are less severe. -/
def rank : Severity → Nat
  | warn => 0
  | debug => 1
  | trace => 2

/-- Whether a log kept at level `limit` records messages of severity `s`. -/
def admits (limit s : Severity) : Bool := s.rank ≤ limit.rank

end Severity

/-- What an operation tells about its work. -/
structure Message where
  severity : Severity
  text : String
deriving DecidableEq, Repr

/-- The message as a line of a log. -/
def Message.line (m : Message) : String := s!"{m.severity.name}: {m.text}"

/-- An answer or a refusal, with the messages given on the way. -/
structure Reply (α : Type) where
  answer : Except AdaptError α
  log : List Message := []

end HpForest
