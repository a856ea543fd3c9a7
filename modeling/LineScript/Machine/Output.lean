/-!
# Output

What a program writes is either kept as one text or dropped.
-/

namespace LineScript

/-- Where output goes. -/
inductive Output where
  | kept (text : String)
  | dropped
deriving DecidableEq, Repr

namespace Output

/-- Output that is kept, nothing being written yet. -/
def fresh : Output :=
  .kept ""

def write (output : Output) (text : String) : Output :=
  match output with
  | kept written => .kept (written ++ text)
  | dropped => .dropped

def writeLine (output : Output) (line : String) : Output :=
  (output.write line).write "\n"

def contents : Output → String
  | kept written => written
  | dropped => ""

def clear : Output → Output
  | kept _ => .fresh
  | dropped => .dropped

end Output

end LineScript
