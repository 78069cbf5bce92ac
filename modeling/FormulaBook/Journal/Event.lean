/-!
# Events

What a run reports beside its result: texts with a level. Informative events are shown as they
are, all others with their level in front. A threshold decides which levels are shown.
-/

namespace FormulaBook

/-- How much an event matters, the least first. -/
inductive Level where
  | debug
  | info
  | warning
  | error
deriving DecidableEq

/-- The place of a level in their order. -/
def Level.rank : Level → Nat
  | .debug => 0
  | .info => 1
  | .warning => 2
  | .error => 3

/-- What stands in front of the events of a level. -/
def Level.tag : Level → String
  | .debug => "[DEBUG] "
  | .info => ""
  | .warning => "[WARNING] "
  | .error => "[ERROR] "

/-- A text with its level. -/
structure Event where
  level : Level
  text : String
deriving DecidableEq

namespace Event

/-- An event of the lowest level. -/
def debug (text : String) : Event := ⟨.debug, text⟩

/-- An informative event. -/
def info (text : String) : Event := ⟨.info, text⟩

/-- A warning. -/
def warning (text : String) : Event := ⟨.warning, text⟩

/-- An error. -/
def error (text : String) : Event := ⟨.error, text⟩

/-- The lines of an event. -/
def line (e : Event) : String := e.level.tag ++ e.text ++ "\n"

/-- The lines of the events that reach a threshold. -/
def render (threshold : Level) (l : List Event) : String :=
  String.join ((l.filter fun e => threshold.rank ≤ e.level.rank).map line)

end Event

end FormulaBook
