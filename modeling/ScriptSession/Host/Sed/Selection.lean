import ScriptSession.Host.Sed.Editor
/-!
Which lines a command works on. A range remembers how far it has come from one line to the next.
-/
namespace ScriptSession.Sed

namespace EditM

def isAt : Place → EditM Bool
  | .line n => return (← get).number = n
  | .every first step => do
    let n := (← get).number
    return first ≤ n && (n - first) % step = 0
  | .last => isLast
  | .matching p => do
    let p ← resolve p true
    return p.occursIn (← get).space.1

def setRange (c : Command) (state : RangeState) : EditM Unit :=
  modify fun e => { e with ranges := (c.number, state) :: e.ranges.filter (·.1 ≠ c.number) }

/-- Whether a range that does not go on starts here. A start that is a line was reached even if it
was passed over, unless the range was over already. -/
def starts (closed : Bool) (start : Place) (stop : Stop) : EditM Bool := do
  let n := (← get).number
  match start, stop with
  | .line first, .place (.line last) => return !closed && first ≤ n && (n ≤ last || n = first)
  | .line first, _ => return !closed && first ≤ n
  | start, _ => isAt start

/-- Whether the address of a command selects the line. -/
def selects (c : Command) : EditM Bool := do
  match c.address with
  | .always => return true
  | .one place => isAt place
  | .range start stop => do
    let e ← get
    let n := e.number
    let state := (e.ranges.lookup c.number).getD
      (if start matches .line 0 then .active none else .waiting)
    match state, stop with
    | .active (some last), stop => do
      if last ≤ n then setRange c .closed
      return n ≤ last || !(stop matches .place _)
    | .active none, .place p => do
      if ← isAt p then setRange c .closed
      return true
    | .active none, _ => return true
    | state, _ => do
      if !(← starts (state = .closed) start stop) then return false
      setRange c (← match stop with
        | .place (.line last) => pure (if last ≤ n then .closed else .active (some last))
        | .place (.matching _) => pure (.active none)
        | .place p => pure (if ← isAt p then RangeState.closed else .active none)
        | .after k => pure (if k = 0 then .closed else .active (some (n + k)))
        | .multiple k => pure (if k = 0 then .closed else .active (some ((n / k + 1) * k))))
      return true

end EditM

end ScriptSession.Sed
