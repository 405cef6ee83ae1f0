import Assembler.Command.Run
/-!
# The program

The machine that the command really runs on, and the command on it.
-/

namespace Assembler

/-- Why the system refused a file, as the command reports it. -/
def FileFault.ofError (e : IO.Error) : FileFault :=
  match e with
  | .noFileOrDirectory .. => .notFound
  | .inappropriateType _ code _ => if code = 21 then .isDirectory else .notDirectory
  | .permissionDenied _ code details => .other s!"{details} (os error {code})"
  | e => .other (toString e)

/-- Tries an action on a file. -/
def attempt {α : Type} (path : String) (action : IO α) : IO (Except FileFault α) := do
  if path.contains '\x00' then return .error .nulInName
  try return .ok (← action)
  catch e => return .error (.ofError e)

instance : Machine IO where
  read path := attempt path do return (← IO.FS.readBinFile path).toList
  write path bytes := attempt path (IO.FS.writeBinFile path ⟨bytes.toArray⟩)
  append path bytes := attempt path do
    IO.FS.withFile path .append fun file => file.write ⟨bytes.toArray⟩
  out s := IO.print s
  err s := IO.eprint s
  time := IO.monoMsNow

end Assembler

def main (args : List String) : IO UInt32 :=
  return UInt32.ofNat (← Assembler.Command.run args)
