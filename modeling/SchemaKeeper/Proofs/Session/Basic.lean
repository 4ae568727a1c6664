import SchemaKeeper.Proofs.Dataset.Records

/-!
# Sessions

In a session any number of clients work on one store in any order, over one connection or over
several.  Each action is carried out by one client; an action that is refused leaves the clients as
they are.
-/
namespace SchemaKeeper

/-- A client: its dataset, and the live schema that it had right after it last created, loaded,
read or committed it. -/
structure Client where
  dataset : Dataset
  base : Schema

/-- What a client does.  Clients are told apart by numbers; to create, load or read a dataset makes
the client that does it anew. -/
inductive Act where
  | create (i : Nat) (name : String) (s : Schema) (mediaType : Option MediaType)
      (persistent : Bool)
  | load (i : Nat) (key : DatasetKey)
  | read (i : Nat) (key : DatasetKey)
  | addField (i : Nat) (path : String) (type : FieldType)
  | removeField (i : Nat) (path : String)
  | commit (i : Nat)
  | delete (i : Nat)
  | save (i : Nat) (r : Record)

/-- A workspace and the clients on it. -/
structure World where
  workspace : Workspace
  clients : Nat → Option Client

namespace World

/-- The world in which a client stands as given. -/
def put (w : World) (i : Nat) (x : Client) : World :=
  { w with clients := fun j => if j = i then some x else w.clients j }

@[simp] theorem clients_put (w : World) (i : Nat) (x : Client) : (w.put i x).clients i = some x :=
  if_pos rfl

theorem clients_put_of_ne {w : World} {i j : Nat} {x : Client} (h : j ≠ i) :
    (w.put i x).clients j = w.clients j := if_neg h

/-- After a client was put in its place, a client is this one or one that stood there before. -/
theorem eq_or_clients_of_put {w : World} {ws : Workspace} {i j : Nat} {x y : Client}
    (h : ({ w with workspace := ws }.put j y).clients i = some x) :
    (i = j ∧ y = x) ∨ w.clients i = some x := by
  simp only [World.put] at h
  split at h
  · rename_i hij
    injection h with h
    exact .inl ⟨hij, h⟩
  · exact .inr h

/-- What holds of every client still does after one of which it holds was put in its place. -/
theorem forall_clients_put {P : Client → Prop} {w : World} {ws : Workspace} {i : Nat} {x : Client}
    (h : ∀ j y, w.clients j = some y → P y) (hx : P x) :
    ∀ j y, ({ w with workspace := ws }.put i x).clients j = some y → P y := by
  intro j y hy
  rcases eq_or_clients_of_put hy with ⟨-, rfl⟩ | hy
  · exact hx
  · exact h j y hy

/-- The world after an operation that gave a client its dataset, or was refused. -/
def receive (w : World) (i : Nat) : EStateM.Result Refusal Workspace Dataset → World
  | .ok d ws => { w with workspace := ws }.put i ⟨d, d.live⟩
  | .error _ ws => { w with workspace := ws }

/-- The world after an edit, which a client makes without the store. -/
def edit (w : World) (i : Nat) (x : Client) : Except Refusal Dataset → World
  | .ok d => w.put i { x with dataset := d }
  | .error _ => w

/-- What an action of a client does with its dataset. -/
def withClient (w : World) (i : Nat) (f : Client → World) : World :=
  match w.clients i with
  | some x => f x
  | none => w

/-- One action. -/
def step (c : Connection) (w : World) : Act → World
  | .create i name s mediaType persistent =>
    w.receive i (Dataset.createFrom c name s mediaType persistent w.workspace)
  | .load i key => w.receive i (Dataset.load c key w.workspace)
  | .read i key => w.receive i (Dataset.read c key w.workspace)
  | .addField i path type =>
    w.withClient i fun x => w.edit i x (x.dataset.addField path type)
  | .removeField i path =>
    w.withClient i fun x => w.edit i x (x.dataset.removeField path)
  | .commit i => w.withClient i fun x => w.receive i (x.dataset.commit w.workspace)
  | .delete i => w.withClient i fun x => w.receive i (x.dataset.delete w.workspace)
  | .save i r =>
    w.withClient i fun x => { w with workspace := Op.after (x.dataset.saveRecord r) w.workspace }

/-- Actions one after the other. -/
def run (c : Connection) (w : World) (acts : List Act) : World := acts.foldl (step c) w

@[simp] theorem run_nil (c : Connection) (w : World) : w.run c [] = w := rfl

@[simp] theorem run_cons (c : Connection) (w : World) (a : Act) (acts : List Act) :
    w.run c (a :: acts) = (w.step c a).run c acts := rfl

theorem run_append (c : Connection) (w : World) (acts rest : List Act) :
    w.run c (acts ++ rest) = (w.run c acts).run c rest := List.foldl_append

/-- The identifier of the dataset that a client holds. -/
def heldId? (w : World) (i : Nat) : Option Uuid :=
  (w.clients i).bind fun x => x.dataset.definition?.map Definition.id

end World

/-- What happens in a session over several connections: a client acts over a connection, or a schema
is put in place of the live schema of a client without any check. -/
inductive Deed where
  | act (c : Connection) (a : Act)
  | assign (i : Nat) (live : Schema)

namespace World

/-- One deed. -/
def does (w : World) : Deed → World
  | .act c a => w.step c a
  | .assign i live => w.withClient i fun x =>
    w.put i { x with dataset := { x.dataset with live := live } }

section Granted
variable {w : World} {c : Connection} {i : Nat} {d : Dataset} {ws : Workspace}

theorem does_create {name : String} {s : Schema} {mediaType : Option MediaType} {persistent : Bool}
    (h : Dataset.createFrom c name s mediaType persistent w.workspace = .ok d ws) :
    w.does (.act c (.create i name s mediaType persistent)) =
      { w with workspace := ws }.put i ⟨d, d.live⟩ := congrArg (w.receive i) h

theorem does_load {key : DatasetKey} (h : Dataset.load c key w.workspace = .ok d ws) :
    w.does (.act c (.load i key)) = { w with workspace := ws }.put i ⟨d, d.live⟩ :=
  congrArg (w.receive i) h

theorem does_read {key : DatasetKey} (h : Dataset.read c key w.workspace = .ok d ws) :
    w.does (.act c (.read i key)) = { w with workspace := ws }.put i ⟨d, d.live⟩ :=
  congrArg (w.receive i) h

theorem does_commit {x : Client} (hx : w.clients i = some x)
    (h : x.dataset.commit w.workspace = .ok d ws) :
    w.does (.act c (.commit i)) = { w with workspace := ws }.put i ⟨d, d.live⟩ := by
  show w.withClient i _ = _
  rw [withClient, hx]
  exact congrArg (w.receive i) h

end Granted

/-- Deeds one after the other. -/
def play (w : World) (deeds : List Deed) : World := deeds.foldl does w

@[simp] theorem play_nil (w : World) : w.play [] = w := rfl

@[simp] theorem play_cons (w : World) (e : Deed) (deeds : List Deed) :
    w.play (e :: deeds) = (w.does e).play deeds := rfl

theorem play_append (w : World) (deeds rest : List Deed) :
    w.play (deeds ++ rest) = (w.play deeds).play rest := List.foldl_append

/-- Actions over one connection are deeds. -/
theorem run_eq_play (c : Connection) (w : World) (acts : List Act) :
    w.run c acts = w.play (acts.map (.act c)) := by
  induction acts generalizing w with
  | nil => rfl
  | cons a acts ih => exact ih (w.step c a)

/-- A world in which nothing has happened: the store is empty, and there are no clients. -/
structure Blank (w : World) : Prop where
  transaction : w.workspace.transaction = none
  collections : w.workspace.store.catalog.collections = .empty
  clients : ∀ i, w.clients i = none

namespace Blank
variable {w : World}

theorem get?_ne_some (h : w.Blank) {name : String} {state : Collection} :
    w.workspace.store.catalog.collections.get? name ≠ some state := by
  intro hs
  rw [h.collections] at hs
  cases hs

theorem documentAt_ne_some (h : w.Blank) {name key : String} {document : Json} :
    w.workspace.store.catalog.documentAt name key ≠ some document := by
  intro hd
  rw [Catalog.documentAt, h.collections] at hd
  cases hd

theorem stored?_ne_some (h : w.Blank) {c : Connection} {id : Uuid} {d : Definition} :
    c.stored? w.workspace.store.catalog id ≠ some d := by
  intro hd
  rw [Connection.stored?, Catalog.findOne, h.collections] at hd
  cases hd

theorem clients_ne_some (h : w.Blank) {i : Nat} {x : Client} : w.clients i ≠ some x := by
  intro hx
  rw [h.clients] at hx
  cases hx

end Blank

/-- A client with what it gets from an operation on its dataset, unless the operation is refused. -/
def granted? {α : Type} (w : World) (i : Nat) (op : Dataset → Op Refusal α) :
    Option (Client × α × Workspace) :=
  match w.clients i with
  | none => none
  | some x =>
    match op x.dataset w.workspace with
    | .ok a ws => some (x, a, ws)
    | .error _ _ => none

theorem granted?_eq_some {α : Type} {w : World} {i : Nat} {op : Dataset → Op Refusal α}
    {g : Client × α × Workspace} (h : w.granted? i op = some g) :
    w.clients i = some g.1 ∧ op g.1.dataset w.workspace = .ok g.2.1 g.2.2 := by
  rw [granted?] at h
  cases hx : w.clients i with
  | none => simp [hx] at h
  | some x =>
    cases hop : op x.dataset w.workspace with
    | error e ws => simp [hx, hop] at h
    | ok a ws =>
      simp only [hx, hop, Option.some.injEq] at h
      subst h
      exact ⟨rfl, hop⟩

/-- An empty store in memory, identifiers in sequence and a clock that stands still. -/
def sampleWorld : World :=
  ⟨⟨Store.inMemory, none, none, [], ⟨Uuid.ofNat, fun _ => .ofNanoseconds 0, id, 0, 0, 0⟩⟩,
    fun _ => none⟩

/-- A connection with the classes of a sample and its boxes. -/
def sampleConnection : Connection := .plain Layout.sampleRegistry .default

end World
end SchemaKeeper
