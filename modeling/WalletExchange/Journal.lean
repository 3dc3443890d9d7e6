/-!
# Journals

What a computation reports on its way, in order.
-/

namespace WalletExchange

/-- How important an entry is. -/
inductive Level where
  | trace
  | debug
  | warn
  deriving DecidableEq, Repr

/-- The name of the level. -/
def Level.name : Level → String
  | trace => "TRACE"
  | debug => "DEBUG"
  | warn => "WARN"

/-- A line of a journal. -/
structure Entry where
  level : Level
  text : String
  deriving DecidableEq, Repr

instance : ToString Entry := ⟨fun e => e.level.name ++ " " ++ e.text⟩

/-- Entries in the order in which they were made. -/
abbrev Journal := List Entry

end WalletExchange
