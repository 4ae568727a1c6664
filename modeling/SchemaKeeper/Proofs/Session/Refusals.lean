import SchemaKeeper.Proofs.Dataset.Isolation
import SchemaKeeper.Proofs.Session.Basic

/-!
# Refused actions

A client acts while others write to the store.  An action that is refused, for whatever cause and at
whatever point, leaves the committed catalog as the others have left it and every client as it was.
-/
namespace SchemaKeeper

open Op

namespace World

/-- Why an outcome is a refusal. -/
def refusal? {α : Type} : EStateM.Result Refusal Workspace α → Option Refusal
  | .ok _ _ => none
  | .error e _ => some e

/-- The world after an operation that gave a client its dataset, or was refused, and why it was. -/
def answered (w : World) (i : Nat) (r : EStateM.Result Refusal Workspace Dataset) :
    World × Option Refusal := (w.receive i r, refusal? r)

/-- The world after an edit and why it was refused. -/
def edited (w : World) (i : Nat) (x : Client) (r : Except Refusal Dataset) :
    World × Option Refusal :=
  (w.edit i x r, match r with | .ok _ => none | .error e => some e)

/-- What an action of a client answers, if there is such a client. -/
def askClient (w : World) (i : Nat) (f : Client → World × Option Refusal) :
    World × Option Refusal :=
  match w.clients i with
  | some x => f x
  | none => (w, none)

/-- One action while others write, and why it was refused. -/
def amid (o : Others) (c : Connection) (w : World) : Act → World × Option Refusal
  | .create i name s mediaType persistent =>
    w.answered i (Dataset.createFromAmid o c name s mediaType persistent w.workspace)
  | .load i key => w.answered i (Dataset.loadAmid o c key w.workspace)
  | .read i key => w.answered i (Dataset.readAmid (o 0) c key w.workspace)
  | .addField i path type =>
    w.askClient i fun x => w.edited i x (x.dataset.addField path type)
  | .removeField i path =>
    w.askClient i fun x => w.edited i x (x.dataset.removeField path)
  | .commit i => w.askClient i fun x => w.answered i (x.dataset.commitAmid (o 0) w.workspace)
  | .delete i => w.askClient i fun x => w.answered i (x.dataset.deleteAmid (o 0) w.workspace)
  | .save i r => w.askClient i fun x =>
    let r := x.dataset.saveRecordAmid (o 0) r w.workspace
    ({ w with workspace := Op.after (fun _ => r) w.workspace }, refusal? r)

variable {o : Others} {c : Connection} {w : World}

/-- An action among writers who do nothing is the action itself. -/
theorem amid_idle (a : Act) : (w.amid .idle c a).1 = w.step c a := by
  cases a with
  | create i name s mediaType persistent => rfl
  | load i key => rfl
  | read i key => rfl
  | addField i path type | removeField i path | commit i | delete i | save i r =>
    simp only [amid, step, askClient, withClient]
    cases w.clients i <;> rfl

section Sample
open Layout

end Sample

end World
end SchemaKeeper
