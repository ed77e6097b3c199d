import HpForest.Forest.Basic
import HpForest.Message

/-!
# Outcomes

What an operation leaves behind: its reply and the forest as it now stands. A refused operation may
leave a forest that differs from the one it was given.
-/

namespace HpForest

/-- A reply with the forest it leaves. -/
structure Outcome (D : Nat) (α : Type) extends Reply α where
  forest : Forest D

namespace Outcome

variable {D : Nat} {α β : Type}

def accept (F : Forest D) (a : α) (log : List Message) : Outcome D α :=
  { forest := F, answer := .ok a, log }

def refuse (F : Forest D) (e : AdaptError) (log : List Message) : Outcome D α :=
  { forest := F, answer := .error e, log }

/-- Goes on from an answer with the forest it left; a refusal ends the run. -/
def andThen (o : Outcome D α) (next : α → Forest D → Outcome D β) : Outcome D β :=
  match o.answer with
  | .ok a =>
    let r := next a o.forest
    { r with log := o.log ++ r.log }
  | .error e => refuse o.forest e o.log

/-- An operation that leaves the forest alone when it refuses. -/
def ofExcept (F : Forest D) (r : Except AdaptError (Forest D × α)) : Outcome D α :=
  match r with
  | .ok (G, a) => accept G a []
  | .error e => refuse F e []

/-! ### Going on -/

section

variable {γ : Type} {F G : Forest D} {a : α} {b : β} {o : Outcome D α}

theorem andThen_congr {next next' : α → Forest D → Outcome D β}
    (same : ∀ a, next a o.forest = next' a o.forest) : o.andThen next = o.andThen next' := by
  cases answer : o.answer with
  | error e => simp [andThen, answer]
  | ok a => simp [andThen, answer, same a]

theorem accept_andThen_congr {log : List Message} {next : α → Forest D → Outcome D γ}
    {next' : β → Forest D → Outcome D γ} (same : next a F = next' b G) :
    (accept F a log).andThen next = (accept G b log).andThen next' :=
  congrArg (fun o : Outcome D γ => { o with log := log ++ o.log }) same

theorem accept_nil_andThen {next : α → Forest D → Outcome D β} :
    (accept F a []).andThen next = next a F := rfl

theorem andThen_accept_andThen {next : β → Forest D → Outcome D γ} :
    (o.andThen fun _ G => accept G b []).andThen next = o.andThen fun _ => next b := by
  cases answer : o.answer <;> simp [andThen, answer, accept, refuse]

end

end Outcome

end HpForest
