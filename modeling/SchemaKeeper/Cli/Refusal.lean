import SchemaKeeper.Config
import SchemaKeeper.Refusal

/-!
# Refusals of the command line

A command fails for its configuration, its classes, a device, or because the operation itself is
refused; that keeps the code of its cause.
-/
namespace SchemaKeeper

/-- Why a command fails. -/
inductive CommandRefusal where
  | config (message : String)
  | classes (message : String)
  | device (message : String)
  | operation (cause : Refusal)
  deriving DecidableEq

namespace CommandRefusal

def code : CommandRefusal → String
  | .config _ => "AERO_CLI_CONFIG_ERROR"
  | .classes _ => "AERO_CLI_CLASSES_ERROR"
  | .device _ => "AERO_CLI_IO_ERROR"
  | .operation cause => cause.code

def message : CommandRefusal → String
  | .config message => message
  | .classes message => message
  | .device message => message
  | .operation cause => cause.text

def text (r : CommandRefusal) : String := r.code ++ ": " ++ r.message

/-- A refused configuration as the failure of a command. -/
def ofConfig (r : ConfigRefusal) : CommandRefusal := .config r.text

end CommandRefusal
end SchemaKeeper
