/-
The start of the program up to its window: the place of the settings file, the
settings, and what is reported meanwhile.
-/
import GraphCalc.Filter
import GraphCalc.Settings
namespace GraphCalc.Startup

/-- What the program learns from its surroundings. -/
structure Surroundings where
  /-- the directory of settings, if it is named -/
  configHome : Option (List Char)
  /-- the directory of the user -/
  home : Option (List Char)
  /-- the filter of the journal, if it is given -/
  filter : Option (List Char)
  /-- the journal is to be detailed -/
  detailed : Bool
deriving Repr, DecidableEq

/-- A place inside a directory. -/
def within (directory place : List Char) : List Char :=
  match directory.getLast? with
  | none => place
  | some '/' => directory ++ place
  | some _ => directory ++ '/' :: place

/-- The directory of settings where none is named. -/
def standardConfigHome (home : Option (List Char)) : List Char :=
  within (home.getD ['/']) ".config".toList

def settingsPath (surroundings : Surroundings) : List Char :=
  within (surroundings.configHome.getD (standardConfigHome surroundings.home))
    "calculatrice-graphe/config.toml".toList

/-- A settings file. -/
inductive SettingsFile where
  | missing
  /-- the bytes of the file are no text -/
  | unreadable
  | text (content : List Char)
deriving Repr, DecidableEq

section Load
-- The notation of the settings file.
variable (reader : Data.Reader)

/-- The settings of a file; without readable settings the standard ones. -/
def load : SettingsFile → Settings
  | .text content => (Settings.read? reader content).getD Settings.standard
  | .missing | .unreadable => Settings.standard

def loadEvents (path : List Char) : SettingsFile → List Event
  | .missing => [.settingsStandard]
  | .unreadable => [.settingsUnreadable, .settingsStandard]
  | .text content =>
      Settings.readEvents reader content ++
        match Settings.read? reader content with
        | some _ => [.settingsLoaded path]
        | none => [.settingsRefused path, .settingsStandard]

/-- What is reported until the window is opened. -/
def events (path : List Char) (file : SettingsFile) : List Event :=
  loadEvents reader path file ++ [.started (load reader file).mode]

end Load

/-- The filter of the journal where no valid one is given. -/
def standardFilter (detailed : Bool) : Filter :=
  if detailed then [⟨Filter.program, some .debug⟩] else Filter.everywhere .info

def filter (surroundings : Surroundings) : Filter :=
  (surroundings.filter.bind Filter.read?).getD (standardFilter surroundings.detailed)

/-- The lines that are written until the window is opened. -/
def journal (reader : Data.Reader) (invisible : Char → Bool) (surroundings : Surroundings)
    (file : SettingsFile) : List String :=
  (filter surroundings).lines invisible (events reader (settingsPath surroundings) file)

/-- How the program ends where no window can be opened. -/
def exitCode : UInt32 :=
  1

end GraphCalc.Startup
