import CursorCommand.Config.Basic
import CursorCommand.Json.Value

/-!
# Configuration from settings

Editor settings are a JSON object. The configuration stands in a section of them, either as an
object under the section's name or as single members whose keys start with that name and a dot. A
member of the section's object hides its dotted twin, whatever it holds. A setting counts only if
its value has the right type; every other choice stays as it is from the start.
-/
namespace CursorCommand

namespace Settings

def sectionName : String := "runCurrentTest"

/-- The key of a setting outside the section's object. -/
def dotted (key : String) : String := sectionName ++ "." ++ key

def setting? (settings : Json) (key : String) : Option Json :=
  match (settings.get? sectionName).bind fun s => s.get? key with
  | some v => some v
  | none => settings.get? (dotted key)

/-- Whether a key stands for a setting outside the section's object. -/
def isDotted (key : String) : Bool := (dotted "").toList.isPrefixOf key.toList

/-- Whether settings have the section in either form. -/
def hasSection (settings : Json) : Bool :=
  settings.members.any fun m => m.1 == sectionName || isDotted m.1

def string? (settings : Json) (key : String) : Option String :=
  (setting? settings key).bind Json.string?

def bool? (settings : Json) (key : String) : Option Bool :=
  (setting? settings key).bind Json.bool?

/-- The strings of an array; its other elements do not count. -/
def strings? (settings : Json) (key : String) : Option (List String) :=
  ((setting? settings key).bind Json.array?).map (List.filterMap Json.string?)

end Settings

namespace Config

open Settings

/-- The configuration that settings describe; none when they lack the section. -/
def ofSettings? (settings : Json) : Option Config :=
  if hasSection settings then
    some
      { run := string? settings "run"
        runAndUpdateSnapshots := string? settings "runAndUpdateSnapshots"
        identifiers := (strings? settings "testBlockIdentifiers").getD standard.identifiers
        separator := (string? settings "testNameSeparator").getD standard.separator
        unknown := (string? settings "unknownTestNameLiteral").getD standard.unknown
        unixPaths := (bool? settings "unixPaths").getD standard.unixPaths }
  else none

inductive LoadError where
  | unreadable (path : String)
  | invalid (path : String)
  deriving DecidableEq, Repr

def LoadError.message : LoadError → String
  | .unreadable path => "Failed to read settings file " ++ path
  | .invalid path => "Failed to parse settings file " ++ path

/-- The configuration in a settings file, given its text if it has one. A file without the section
gives the configuration of a user who has chosen nothing. -/
def load (path : String) (text : Option String) : Except LoadError Config :=
  match text with
  | none => .error (.unreadable path)
  | some text =>
    match Json.parse? text with
    | none => .error (.invalid path)
    | some settings => .ok ((ofSettings? settings).getD standard)

end Config

end CursorCommand
