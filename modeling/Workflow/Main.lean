import Workflow.CommandLine.Run

/-!
# The program

The command line over the files of the machine.
-/

namespace Workflow
namespace Machine

def ioError : IO.Error -> IoError
  | .noFileOrDirectory _ _ _ => .notFound
  | e => .other e.toString

def attempt (action : IO α) : IO (Except IoError α) := do
  try
    return .ok (<- action)
  catch e =>
    return .error (ioError e)

/-- Creates the folder, writes the staging file and puts it in its place. -/
def saveInto (folder id : String) (d : Definition) : IO (Except StoreError Unit) := do
  if !FileName.isValidId id then return .error (.invalidId id)
  let result <- attempt do
    IO.FS.createDirAll folder
    IO.FS.writeFile (folder ++ "/" ++ FileName.staging id) d.text
    IO.FS.rename (folder ++ "/" ++ FileName.staging id) (folder ++ "/" ++ FileName.ofId id)
  match result with
  | .error e => return .error (.io e)
  | .ok () => return .ok ()

def files : FileAccess IO where
  read path := attempt (IO.FS.readFile path)
  write path text := attempt (IO.FS.writeFile path text)
  save := saveInto

end Machine
end Workflow

open Workflow in
def main (args : List String) : IO UInt32 := do
  let answer <- CommandLine.run Machine.files (<- IO.getEnv "HOME") args
  IO.print answer.output
  if !answer.notice.isEmpty then IO.eprintln answer.notice
  return answer.exitCode
