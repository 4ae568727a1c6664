import SchemaKeeper.Cli.Args
import SchemaKeeper.Cli.Refusal
import SchemaKeeper.Dataset.Lifecycle

/-!
# Commands

What each command does to the store and what it answers.
-/
namespace SchemaKeeper.Cli

/-- A dataset as a command shows it. -/
def describe (d : Dataset) : Json :=
  .ofMembers
    [("definition", Json.ofOption Definition.document d.definition?),
      ("collections", Json.ofOption (fun c => .ofKeyed (c.mapValues fun _ s => .string s))
        d.collections?),
      ("validators", .ofKeyed ((d.validators?.getD .empty).mapValues fun _ r => r.document)),
      ("schema", .ofKeyed (d.live.mapValues fun _ f =>
        .string ((f.type.map FieldType.text).getD "untyped")))]

/-- An operation as part of a command. -/
def operation {α : Type} (op : Op Refusal α) : Op CommandRefusal α :=
  op.mapRefusal .operation

/-- Runs a command. -/
def Command.run (config : Config) (c : Connection) : Command → Op CommandRefusal Json
  | .list => do
    let names ← operation c.datasetNames
    return .object [("datasets", .array (names.map .string))]
  | .probe name => do
    let found ← operation (c.hasDataset name)
    return .object [("exists", .bool found), ("name", .string name)]
  | .inspect name => do
    let d ← operation (Dataset.read c (.byName name))
    return describe d
  | .delete name => do
    let d ← operation (Dataset.read c (.byName name))
    let dropped := (d.collections?.map Keyed.values).getD []
    discard <| operation d.delete
    return .object [("dropped_collections", .array (dropped.map .string)), ("name", .string name)]
  | .create name root mediaType persistent => do
    match c.classes.get? root with
    | none => throw (.classes ("Root class '" ++ root ++ "' is not declared"))
    | some root =>
      let d ← operation (Dataset.create c name root mediaType (persistent || config.persistent))
      return describe d

end SchemaKeeper.Cli
