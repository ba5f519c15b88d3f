import SuitePlan.Storage

/-! Access to the files of the machine. -/

namespace SuitePlan

namespace Disk

def storageError : IO.Error → StorageError
  | .noFileOrDirectory .. => .notFound
  | _ => .other

def attempt (x : IO Unit) : IO (Except StorageError Unit) := do
  match ← x.toBaseIO with
  | .ok () => pure (.ok ())
  | .error e => pure (.error (storageError e))

def read (path : String) : IO (Except StorageError String) := do
  match ← (IO.FS.readBinFile path).toBaseIO with
  | .error e => pure (.error (storageError e))
  | .ok bytes =>
    match String.fromUTF8? bytes with
    | some s => pure (.ok s)
    | none => pure (.error .notText)

instance : Storage IO where
  read := Disk.read
  write path content := attempt (IO.FS.writeFile path content)
  makeDir path := attempt (IO.FS.createDir path)
  isDir path := do
    match ← (IO.FS.realPath path).toBaseIO with
    | .ok p => p.isDir
    | .error _ => pure false
  remove path := attempt (IO.FS.removeFile path)

end Disk

end SuitePlan
