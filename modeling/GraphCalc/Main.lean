/-
The program: it reads its surroundings and the settings file, writes the
journal up to the opening of the window, and ends there, having no screen.
-/
import GraphCalc.Startup
import GraphCalc.Toml.Reader
namespace GraphCalc.Startup

def environmentValue (name : String) : IO (Option (List Char)) := do
  return (← IO.getEnv name).map String.toList

def readSurroundings : IO Surroundings := do
  return {
    configHome := ← environmentValue "XDG_CONFIG_HOME"
    home := (← environmentValue "HOME").filter (fun home => !home.isEmpty)
    filter := ← environmentValue "RUST_LOG"
    detailed := (← environmentValue "CALC_DEBUG").isSome }

def readSettingsFile (path : List Char) : IO SettingsFile := do
  try
    let bytes ← IO.FS.readBinFile (String.ofList path)
    match String.fromUTF8? bytes with
    | some content => return .text content.toList
    | none => return .unreadable
  catch _ => return .missing

end GraphCalc.Startup

open GraphCalc in
def main : IO UInt32 := do
  let surroundings ← Startup.readSurroundings
  let file ← Startup.readSettingsFile (Startup.settingsPath surroundings)
  for line in Startup.journal Toml.reader Text.isInvisible surroundings file do
    IO.println line
  return Startup.exitCode
