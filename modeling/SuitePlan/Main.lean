import Std.Time.DateTime.Timestamp
import SuitePlan.Command.Run
import SuitePlan.Disk

/-! The program. -/

namespace SuitePlan

def currentTime : IO Time := do
  let nanos := (← Std.Time.Timestamp.now).toNanosecondsSinceUnixEpoch.val
  pure (.ofEpoch (nanos / 1000000000) (nanos % 1000000000).toNat)

def environment : IO Command.Environment := do
  pure {
    config := ← IO.getEnv "SPECSHARD_CONFIG"
    tags := ← IO.getEnv "TAGS"
    directory := (← IO.currentDir).toString
    now := ← currentTime }

end SuitePlan

def main (args : List String) : IO UInt32 := do
  let r ← SuitePlan.Command.run args (← SuitePlan.environment)
  IO.print r.output
  if let some message := r.message then IO.eprintln ("Error: " ++ message)
  pure (UInt32.ofNat r.code)
