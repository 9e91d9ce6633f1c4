import ShaderCompose.CommandLine.Run

/-!
The command line: the files in the directories of a command are read, the command is run on them,
and what it prints is printed.
-/

namespace ShaderCompose.CommandLine

/-- How deep directories are searched. -/
def directoryDepth : Nat := 32

/-- Add the files below a directory; unreadable ones are left out. -/
def readDirectory : (depth : Nat) → (directory : String) → Files → IO Files
  | 0, _, fs => pure fs
  | depth + 1, directory, fs => do
    try
      let entries ← (← IO.FS.realPath directory).readDir
      entries.foldlM (fun fs entry => do
        let path := Path.join directory entry.fileName
        if ← entry.path.isDir then readDirectory depth path fs
        else
          try
            let bytes ← IO.FS.readBinFile path
            pure (fs.write path (.ofBytes bytes))
          catch _ => pure fs) fs
    catch _ => pure fs

def filesFor (command : Command) : IO Files := do
  let here := Path.steps (← IO.currentDir).toString
  command.directories.foldlM (fun fs directory => readDirectory directoryDepth directory fs) { here }

def Printed.show (p : Printed) : IO UInt32 := do
  IO.eprint p.stderr
  IO.print p.stdout
  return p.code.toUInt32

end ShaderCompose.CommandLine

def main (args : List String) : IO UInt32 := do
  match ShaderCompose.CommandLine.Command.ofArguments args with
  | .error e => (ShaderCompose.CommandLine.usageFailure e).show
  | .ok command =>
    let files ← ShaderCompose.CommandLine.filesFor command
    (ShaderCompose.CommandLine.run files command).show
