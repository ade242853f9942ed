import ShaderInline.Command.Run

/-! # The program

The names of the files that a command may see are read from standard input, one
a line. The command works on what they hold, and what it changes is written back.
-/

namespace ShaderInline

/-- The lines of a stream up to its end. -/
partial def readNames (input : IO.FS.Stream) (names : List Text) : IO (List Text) := do
  let line := (← input.getLine).toList
  if line.isEmpty then return names.reverse
  readNames input (line.filter (!Text.isLineBreak ·) :: names)

/-- The named files, below the working directory. -/
def readFiles (names : List Text) : IO FileTree := do
  let cwd := Utf8.encode (toString (← IO.currentDir)).toList
  let mut files := FileTree.start (Path.names (Path.components cwd))
  for name in names do
    let bytes ← IO.FS.readBinFile (String.ofList name)
    files := files.add (Utf8.encode name) (.file bytes.toList)
  return files

/-- Write the files of a tree that another one does not hold. -/
def writeFiles (before after : FileTree) : IO Unit := do
  for (place, node) in after.entries do
    if before.at? place != some node then
      let path := String.ofList (Utf8.lossyText (FileTree.display place))
      match node with
      | .directory => IO.FS.createDirAll path
      | .file bytes => IO.FS.writeBinFile path ⟨bytes.toArray⟩

end ShaderInline

open ShaderInline in
def main (args : List String) : IO UInt32 := do
  let files ← readFiles (← readNames (← IO.getStdin) [])
  let (code, effects) := runCommandLine (args.map fun arg => Utf8.encode arg.toList) files
  (← IO.getStdout).putStr (String.ofList effects.stdout)
  writeFiles files effects.files
  return UInt32.ofNat code
