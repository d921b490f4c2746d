/-!
# Log entries

What the library reports beside its answers, as data: a list of entries, each with a level.
-/

namespace JsonShape.Log

/-- how much an entry matters -/
inductive Level where
  | debug
  | warning
deriving DecidableEq

def Level.name : Level → String
  | debug => "DEBUG"
  | warning => "WARNING"

structure Entry where
  level : Level
  message : String
deriving DecidableEq

end JsonShape.Log
