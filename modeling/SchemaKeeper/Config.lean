import SchemaKeeper.Dataset.Connection
import SchemaKeeper.Json.Reader
import SchemaKeeper.Text.Blank

/-!
# Configuration

A configuration names the directory of the store and the settings of the connection.  It is read
from one JSON text, of which only the directory is required.
-/
namespace SchemaKeeper

/-- Why a configuration is refused. -/
inductive ConfigRefusal where
  | unread (path reason : String)
  | unreadable (reason : String)
  | invalid (reason : String)
  deriving DecidableEq

namespace ConfigRefusal

def code : ConfigRefusal → String
  | .unread _ _ => "AERO_CONFIG_READ_ERROR"
  | .unreadable _ => "AERO_CONFIG_PARSE_ERROR"
  | .invalid _ => "AERO_CONFIG_INVALID"

def text : ConfigRefusal → String
  | .unread path reason => "Failed to read config " ++ path ++ ": " ++ reason
  | .unreadable reason => "Invalid config JSON: " ++ reason
  | .invalid reason => "Invalid config: " ++ reason

end ConfigRefusal

/-- What the tool is told about its store and its connection. -/
structure Config where
  dataDir : String
  definitions : String
  persistent : Bool
  version : String
  logFilter : String
  deriving DecidableEq

namespace Config

/-- The directory that stands for a store kept in no file. -/
def memoryDir : String := ":memory:"

/-- The configuration of a store kept in no file. -/
def inMemory : Config :=
  ⟨memoryDir, Settings.default.definitions, Settings.default.persistent,
    Settings.default.version, "info"⟩

def isInMemory (c : Config) : Bool := c.dataDir == memoryDir

def settings (c : Config) : Settings := ⟨c.definitions, c.version, c.persistent⟩

/-- A text that must hold more than white space. -/
def requireText (name s : String) : Except ConfigRefusal Unit :=
  if Text.isBlank s then .error (.invalid (name ++ " must not be empty")) else .ok ()

/-- The directory, the collection of definitions and the version must be there. -/
def check (c : Config) : Except ConfigRefusal Unit := do
  requireText "data_dir" c.dataDir
  requireText "definitions_collection" c.definitions
  requireText "version" c.version

def ofTree? (t : Tree) : Option Config := do
  let ms ← t.record?
    ["data_dir", "definitions_collection", "default_persistent", "version", "log_filter"]
  let dataDir ← Tree.require? Tree.string? ms "data_dir"
  let definitions ←
    Tree.orElse? Tree.string? inMemory.definitions ms "definitions_collection"
  let persistent ← Tree.orElse? Tree.bool? inMemory.persistent ms "default_persistent"
  let version ← Tree.orElse? Tree.string? inMemory.version ms "version"
  let logFilter ← Tree.orElse? Tree.string? inMemory.logFilter ms "log_filter"
  return ⟨dataDir, definitions, persistent, version, logFilter⟩

/-- The configuration that a text says. -/
def read (text : String) : Except ConfigRefusal Config := do
  match Tree.read? text >>= ofTree? with
  | none => throw (.unreadable "not a configuration")
  | some c =>
    c.check
    return c

/-- The line of the journal about a configuration that was read from a file. -/
def loadedLine (c : Config) (path : String) : Line :=
  .of .info Event.configLoaded.text [("path", path), ("data_dir", c.dataDir)]

/-- The stored form of all members. -/
def json (c : Config) : Json :=
  .object [("data_dir", .string c.dataDir), ("default_persistent", .bool c.persistent),
    ("definitions_collection", .string c.definitions), ("log_filter", .string c.logFilter),
    ("version", .string c.version)]

end Config
end SchemaKeeper
