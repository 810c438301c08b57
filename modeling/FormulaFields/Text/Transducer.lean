/-!
Machines that read a text one item at a time, write as they go, and write once more when the text
ends. Their use is in `run_append`: what a machine writes for two texts in a row is what it writes
while reading the first, and then what it writes for the second from where the first has led it.
-/
namespace FormulaFields.Text

structure Transducer (State Input Output : Type) where
  step : State → Input → State × List Output
  /-- What is written when the text ends in a state. -/
  finish : State → List Output

namespace Transducer

variable {State Input Output : Type} (m : Transducer State Input Output)

/-- Everything written for a text, its end included. -/
def run (state : State) : List Input → List Output
  | [] => m.finish state
  | x :: rest => (m.step state x).2 ++ run (m.step state x).1 rest

/-- The state that a text leads to. -/
def after (state : State) : List Input → State
  | [] => state
  | x :: rest => after (m.step state x).1 rest

/-- What is written while a text is read, its end not included. -/
def written (state : State) : List Input → List Output
  | [] => []
  | x :: rest => (m.step state x).2 ++ written (m.step state x).1 rest

theorem run_eq (state : State) (text : List Input) :
    m.run state text = m.written state text ++ m.finish (m.after state text) := by
  induction text generalizing state with
  | nil => rfl
  | cons x rest ih => simp [run, written, after, ih]

theorem run_append (state : State) (first second : List Input) :
    m.run state (first ++ second) =
      m.written state first ++ m.run (m.after state first) second := by
  induction first generalizing state with
  | nil => rfl
  | cons x rest ih => simp [run, written, after, ih]

theorem after_append (state : State) (first second : List Input) :
    m.after state (first ++ second) = m.after (m.after state first) second := by
  induction first generalizing state with
  | nil => rfl
  | cons x rest ih => simp [after, ih]

end Transducer

end FormulaFields.Text
