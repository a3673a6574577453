/-! What a pass reports while it runs. -/

namespace Unnest

inductive Event where
  | started (rules : Nat)
  | skipping
  | expanding (selector : String)
  | finished (dispatched skipped : Nat)
  | notInTree (selector : String)
  | splitOff (selector : String)
  | dropping (selector : String)
deriving DecidableEq

namespace Event

inductive Level where
  | debug
  | trace

def Level.text : Level → String
  | .debug => "DEBUG"
  | .trace => "TRACE"

/-- The pass as a whole is reported at level debug, single rules at level trace. -/
def level : Event → Level
  | .started _ | .skipping | .finished _ _ => .debug
  | .expanding _ | .notInTree _ | .splitOff _ | .dropping _ => .trace

/-- A selector between backquotes. -/
def named (selector : String) : String := "\x60" ++ selector ++ "\x60"

def text : Event → String
  | .started n => "flattening " ++ toString n ++ " rules"
  | .skipping => "skipping rule removed earlier in the pass"
  | .expanding s => "expanding " ++ named s
  | .finished d k =>
    "flattening done: " ++ toString d ++ " dispatched, " ++ toString k ++ " skipped"
  | .notInTree s => named s ++ " is no longer in the tree, skipping"
  | .splitOff s => "split off declarations of " ++ named s
  | .dropping s => "dropping emptied rule " ++ named s

def line (e : Event) : String := e.level.text ++ " " ++ e.text

end Event

end Unnest
