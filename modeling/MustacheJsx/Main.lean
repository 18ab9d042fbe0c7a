import MustacheJsx.CommandLine.Run

/-!
# The program

Reads the arguments, runs on the files of the computer, prints what the run tells, and ends with its
status: 1 if something failed, 2 if the arguments are refused.

Models `main`.
-/

namespace MustacheJsx.Program

def attempt {α : Type} (action : IO α) : IO (Except String α) := do
  try return .ok (← action)
  catch e => return .error (toString e)

/-- All of a stream. -/
partial def readStream (stream : IO.FS.Stream) (before : String) : IO String := do
  let line ← stream.getLine
  if line.isEmpty then return before else readStream stream (before ++ line)

def isDirectory (path : String) : IO Bool := do
  return (← ((← IO.currentDir) / path).isDir)

def namesIn (path : String) : IO (List String) := do
  let entries ← ((← IO.currentDir) / path).readDir
  return (entries.toList.map fun entry => entry.fileName).mergeSort fun a b => a ≤ b

/-- All files below a directory that stands at the end of `parts`. -/
partial def walk (root : String) (parts : List String) :
    IO (List (Except Failure (List String))) := do
  let path := if parts.isEmpty then root else Location.join root (Location.ofParts parts)
  match ← attempt (namesIn path) with
  | .error reason => return [.error (.disk path reason)]
  | .ok names =>
    let found ← names.mapM fun name => do
      let inside := parts ++ [name]
      if ← isDirectory (Location.join path name) then walk root inside else return [.ok inside]
    return found.flatten

def disk : Disk IO where
  standardInput := do attempt (readStream (← IO.getStdin) "")
  isDirectory := isDirectory
  read path := attempt (IO.FS.readFile path)
  walk root := walk root []
  makeDirectories path := attempt (IO.FS.createDirAll path)
  write path text := attempt (IO.FS.writeFile path text)

end MustacheJsx.Program

def main (arguments : List String) : IO UInt32 := do
  match MustacheJsx.Request.read arguments with
  | .error fault =>
    IO.eprintln ("error: " ++ fault.message)
    return 2
  | .ok .help =>
    IO.print MustacheJsx.helpText
    return 0
  | .ok .version =>
    IO.print MustacheJsx.versionText
    return 0
  | .ok (.compile arguments) =>
    let outcome ← MustacheJsx.Program.disk.run arguments
    IO.print outcome.printed
    outcome.failures.forM fun failure => IO.eprintln failure.message
    return UInt32.ofNat outcome.status
