import ShaderInline.Command.Build

/-! # Running a command -/

namespace ShaderInline

def versionText : Text := "0.1.0".toList

namespace Command

/-- Write a standard configuration file into the working directory. -/
def initConfig (format : ConfigFormat) (force : Bool) (t : FileTree) :
    Except Failure Unit × Effects :=
  let name := format.defaultFile
  let path := Path.join [Path.dot] (Utf8.encode name)
  if t.exists? path && !force then
    (.error (.config ("Configuration file '".toList ++ name ++ "' already exists".toList)),
      ⟨t, []⟩)
  else
    match t.write path (Utf8.encode (Config.standard.render format)) with
    | .error p => (.error (.io (Utf8.lossyText path) p.message), ⟨t, []⟩)
    | .ok t =>
      (.ok (), ⟨t, "Created configuration file: ".toList ++ name ++
        "\n   Map namespaces to directories under 'roots' to resolve imports.\n".toList⟩)

/-- Print the settings in force. -/
def showConfig (format : ConfigFormat) (config : Option Path) (t : FileTree) :
    Except Failure Unit × Effects :=
  match Config.load t config none with
  | .error f => (.error f, ⟨t, []⟩)
  | .ok c => (.ok (), ⟨t, c.render format ++ ['\n']⟩)

end Command

def runCommandLine (args : List Utf8.Bytes) (t : FileTree) : Nat × Effects :=
  let exitCode : Except Failure Unit × Effects → Nat × Effects
    | (.ok (), e) => (0, e)
    | (.error _, e) => (1, e)
  match Invocation.parse args with
  | .error .usage => (2, ⟨t, []⟩)
  | .error .showVersion => (0, ⟨t, "splice ".toList ++ versionText ++ ['\n']⟩)
  | .error .showHelp => (0, ⟨t, []⟩)
  | .ok ⟨command, config⟩ =>
    match command with
    | .version => (0, ⟨t, versionText ++ ['\n']⟩)
    | .configInit format force => exitCode (Command.initConfig format force t)
    | .configShow format => exitCode (Command.showConfig format config t)
    | .build args =>
      match args.run t config with
      | (.ok 0, e) => (0, e)
      | (.ok _, e) => (1, e)
      | (.error _, e) => (1, e)

end ShaderInline
