import SchemaKeeper.Proofs.Dataset.Contended
import SchemaKeeper.Proofs.Session.Basic

/-!
# Transactions that overlap

Here clients do not wait for each other.  Between finding a definition and reading its dataset,
and between the beginning of a transaction and its end, all others may go on.  The work of a
transaction sees its own copy of the catalog alone, so it can be done when the transaction begins;
whether it takes effect is decided at its end.  A creation begins its transaction whatever an
earlier look at the names has found, and a transaction that is never ended leaves no trace.
-/
namespace SchemaKeeper

open Catalog

/-! ## Operations in halves -/

namespace Op
variable {ε α : Type} {ws ws' : Workspace}

/-- The first half of a transaction: it begins, and its work is done on a copy of the catalog. -/
def start (work : Op ε α) : Op ε (Except ε α × Transaction) := do
  let t ← beginTransaction
  within t work

/-- The second half of a transaction: it is committed if its work succeeded, and aborted
otherwise. -/
def finish [FromStore ε] (result : Except ε α) (t : Transaction) : Op ε α :=
  match result with
  | .ok a => do
    commitTransaction t
    return a
  | .error e => do
    abortTransaction t
    throw e

/-- The two halves in a row are the transaction. -/
theorem inTransaction_eq_start [FromStore ε] (work : Op ε α) :
    inTransaction work = (do
      let (result, t) ← start work
      finish result t) := by
  funext ws
  simp only [inTransaction, start, bind_assoc]
  rfl

/-- The first half leaves the store alone.  If the work succeeds, its copy of the catalog is what
the transaction holds. -/
theorem start_ok {work : Op ε α} (hw : Contained work) {r : Except ε α × Transaction}
    (h : start work ws = .ok r ws') :
    ws'.store = ws.store ∧ ws'.transaction = none ∧ ws.supply.Later ws'.supply ∧
      ∀ a, r.1 = .ok a → ∃ ws₁, work ws.opened = .ok a ws₁ ∧ ws₁.visible = r.2.working ∧
        ws₁.supply = ws'.supply := by
  obtain ⟨hstays, hworking⟩ := after_work hw ws
  have hstart : start work ws = (within ws.store.begin work : Op ε _)
      { ws.opened with transaction := none } := by
    rw [start, bind_apply]
    rfl
  rw [hstart] at h
  simp only [within, bind_apply, get_apply, modify_apply, attempt] at h
  have hopened : { ws.opened with transaction := some ws.store.begin } = ws.opened := rfl
  rw [hopened] at h
  cases hrun : work ws.opened with
  | ok a ws₁ =>
    rw [after_of_ok hrun] at hstays hworking
    rw [hrun] at h
    cases h
    refine ⟨hstays.store, rfl, hstays.supply, fun b hb => ?_⟩
    injection hb with hb
    exact ⟨ws₁, hb ▸ rfl, hworking.symm, rfl⟩
  | error e ws₁ =>
    rw [after_of_error hrun] at hstays
    rw [hrun] at h
    cases h
    exact ⟨hstays.store, rfl, hstays.supply, fun a ha => by cases ha⟩

theorem start_not_error {work : Op ε α} {e : ε} : start work ws ≠ .error e ws' := by
  intro h
  rcases bind_eq_error h with h | ⟨t, ws₁, -, h⟩
  · cases h
  · exact within_not_error h

/-- The second half commits what the work has left, or leaves the catalog alone. -/
theorem after_finish [FromStore ε] (result : Except ε α) (t : Transaction) (ws : Workspace) :
    (after (finish result t) ws).transaction = ws.transaction ∧
      (after (finish result t) ws).supply = ws.supply ∧
      ((after (finish result t) ws).store.catalog = ws.store.catalog ∨
        ∃ a, result = .ok a ∧ Settles ws.store.catalog t.working
          (after (finish result t) ws).store.catalog) := by
  cases result with
  | error e =>
    rw [finish, after_bind, abortTransaction_eq]
    exact ⟨rfl, rfl, .inl rfl⟩
  | ok a =>
    rw [finish, after_bind, commitTransaction_eq]
    cases hcommit : ws.store.commit t with
    | error e => exact ⟨rfl, rfl, .inl rfl⟩
    | ok next =>
      refine ⟨rfl, rfl, .inr ⟨a, rfl, ?_⟩⟩
      show Settles ws.store.catalog t.working next.catalog
      rw [commit_ok hcommit]
      exact settles_advance ws.store t.working

theorem finish_ok [FromStore ε] {result : Except ε α} {t : Transaction} {a : α}
    (h : finish result t ws = .ok a ws') : result = .ok a := by
  cases result with
  | error e =>
    obtain ⟨⟨⟩, ws₁, -, h⟩ := bind_eq_ok.1 h
    cases h
  | ok b =>
    obtain ⟨⟨⟩, ws₁, -, h⟩ := bind_eq_ok.1 h
    cases h
    rfl

end Op

namespace Dataset

/-- The first half of reading a dataset: its definition is found. -/
def look (c : Connection) (key : DatasetKey) : Op Refusal Definition := do
  match ← c.find? key.field key.text with
  | none => throw (.datasetNotFound key.text)
  | some document => Op.lift (Definition.ofDocument document)

/-- The second half of reading a dataset: its validators are loaded and its schema is recovered. -/
def view (c : Connection) (definition : Definition) : Op Refusal Dataset := do
  let validators := Provision.loadedValidators (← Op.catalog) definition.collections
  let live ← Provision.recover definition.fields validators c.classes
  return ⟨c, .attached ⟨definition, validators⟩, live⟩

/-- The two halves in a row are the reading. -/
theorem read_eq_look (c : Connection) (key : DatasetKey) : read c key = look c key >>= view c := by
  rw [read, look, bind_assoc]
  refine bind_congr fun found => ?_
  cases found <;> rfl

/-- A definition is found by a key. -/
theorem observes_look (c : Connection) (key : DatasetKey) :
    Op.Observes (look c key) fun catalog =>
      match catalog.findOne c.definitions key.field (.string key.text) with
      | none => .error (.datasetNotFound key.text)
      | some document => Definition.ofDocument document := by
  have hfound : ∀ found : Option Json, Op.Observes (match found with
      | none => throw (.datasetNotFound key.text)
      | some document => Op.lift (Definition.ofDocument document) : Op Refusal Definition)
      fun _ => match found with
        | none => .error (.datasetNotFound key.text)
        | some document => Definition.ofDocument document := by
    intro found
    cases found with
    | none => exact Op.observes_throw _
    | some document => exact Op.observes_lift _
  exact (c.observes_find? key.field key.text).bind hfound

/-- The second half of loading a dataset, up to the commit: it is read, and may be given the time
of loading. -/
def viewAt (c : Connection) (definition : Definition) (stamped : Bool) : Op Refusal Dataset := do
  let d ← view c definition
  if stamped then return d.stamped (← Op.now) else return d

theorem idles_viewAt (c : Connection) (definition : Definition) (stamped : Bool) :
    Op.Idles (viewAt c definition stamped) := by
  refine (observes_ofDefinition c definition).idles.bind fun d => ?_
  cases stamped with
  | false => exact Op.idles_pure d
  | true =>
    have hnow : Op.Idles (Op.now : Op Refusal Moment) :=
      fun ws => ⟨rfl, rfl, rfl, rfl, Nat.le_refl _, Nat.le_succ _⟩
    exact hnow.bind fun now => Op.idles_pure _

/-- What is read holds the definition that was found, but for the time of loading. -/
theorem viewAt_ok {c : Connection} {definition : Definition} {stamped : Bool} {d : Dataset}
    {ws ws' : Workspace} (h : viewAt c definition stamped ws = .ok d ws') :
    d.connection = c ∧ ∃ v at?,
      d.standing = .attached ⟨{ definition with lastLoadedAt := at? }, v⟩ ∧
      (at? = definition.lastLoadedAt ∨ ∃ k, k < ws'.supply.read ∧ at? = ws'.supply.clock k) := by
  obtain ⟨d₀, ws₁, hview, h⟩ := Op.bind_eq_ok.1 h
  have hfrom := ((observes_ofDefinition c definition).ok hview).1
  obtain ⟨live, -, hd₀⟩ := bind_eq_ok_iff.1 hfrom
  injection hd₀ with hd₀
  subst hd₀
  cases stamped with
  | false =>
    cases h
    exact ⟨rfl, _, definition.lastLoadedAt, rfl, .inl rfl⟩
  | true =>
    obtain ⟨now, ws₂, hnow, h⟩ := Op.bind_eq_ok.1 h
    cases h
    obtain ⟨htime, hread, hrests⟩ := Op.now_ok hnow
    refine ⟨rfl, _, now, rfl, .inr ⟨ws₁.supply.read, by omega, ?_⟩⟩
    rw [htime, hrests.supply.clock]

end Dataset

/-! ## Clients in the middle of something -/

/-- What a client does in one transaction. -/
inductive Task where
  | create (c : Connection) (name : String) (s : Schema) (mediaType : Option MediaType)
      (persistent : Bool)
  | commit
  | delete
  | save (r : Record)

/-- A client that holds a dataset, with what it holds. -/
def Client.attached? (x? : Option Client) : Option (Client × Holding) :=
  x?.bind fun x => x.dataset.standing.holding?.map fun held => (x, held)

/-- The work of a task, which answers how the client stands if it is committed.  A creation needs a
document at the root, everything else a client that holds a dataset. -/
def Task.work? (x? : Option Client) : Task → Option (Op Refusal Client)
  | .create c name s mediaType persistent =>
    match Dataset.rootClass s with
    | .error _ => none
    | .ok _ => some do
      let d ← Dataset.build c name s mediaType persistent
      return ⟨d, d.live⟩
  | .commit => (Client.attached? x?).map fun (x, held) => do
    let (next, live) ← Dataset.merge x.dataset.connection held x.dataset.live
    return ⟨{ x.dataset with standing := .attached next, live := live }, live⟩
  | .delete => (Client.attached? x?).map fun (x, held) => do
    Dataset.demolish x.dataset.connection held.definition
    return { x with dataset := { x.dataset with standing := .deleted } }
  | .save r => (Client.attached? x?).map fun (x, held) => do
    Dataset.writeRecord held.definition.collections r
    return x

/-- What a client is in the middle of: it has found a definition, or the work of a transaction is
done, with what became of the copy of the catalog. -/
inductive Errand where
  | found (c : Connection) (definition : Definition)
  | worked (result : Except Refusal Client) (t : Transaction)

/-- A world in which clients may be in the middle of something. -/
structure Traffic where
  world : World
  errands : Nat → Option Errand

/-- One move of a client. -/
inductive Traffic.Move where
  | look (i : Nat) (c : Connection) (key : DatasetKey)
  | view (i : Nat) (stamped : Bool)
  | start (i : Nat) (task : Task)
  | finish (i : Nat)
  | addField (i : Nat) (path : String) (type : FieldType)
  | removeField (i : Nat) (path : String)
  | assign (i : Nat) (live : Schema)

namespace Traffic
variable {α : Type}

/-- The clients on another workspace. -/
def onto (w : Traffic) (ws : Workspace) : Traffic :=
  { w with world := { w.world with workspace := ws } }

/-- Goes on with the answer of an operation, unless it was refused. -/
def goes (w : Traffic) (op : Op Refusal α) (next : α → Traffic → Traffic) : Traffic :=
  match op w.world.workspace with
  | .ok a ws => next a (w.onto ws)
  | .error _ ws => w.onto ws

theorem goes_of_ok {w : Traffic} {op : Op Refusal α} {next : α → Traffic → Traffic} {a : α}
    {ws : Workspace} (h : op w.world.workspace = .ok a ws) :
    w.goes op next = next a (w.onto ws) := by
  rw [goes, h]

theorem goes_of_error {w : Traffic} {op : Op Refusal α} {next : α → Traffic → Traffic} {e : Refusal}
    {ws : Workspace} (h : op w.world.workspace = .error e ws) : w.goes op next = w.onto ws := by
  rw [goes, h]

/-- A client stands as given. -/
def put (w : Traffic) (i : Nat) (x : Client) : Traffic := { w with world := w.world.put i x }

/-- A client is in the middle of something, or of nothing any more. -/
def send (w : Traffic) (i : Nat) (e : Option Errand) : Traffic :=
  { w with errands := Function.update w.errands i e }

/-- An edit of the live schema of a client, unless it is refused. -/
def edit (w : Traffic) (i : Nat) (f : Dataset → Except Refusal Dataset) : Traffic :=
  match w.world.clients i with
  | none => w
  | some x =>
    match f x.dataset with
    | .ok d => w.put i { x with dataset := d }
    | .error _ => w

/-- One move. -/
def move (w : Traffic) : Move → Traffic
  | .look i c key =>
    w.goes (Dataset.look c key) fun definition w => w.send i (some (.found c definition))
  | .view i stamped =>
    match w.errands i with
    | some (.found c definition) =>
      w.goes (Dataset.viewAt c definition stamped) fun d w => w.put i ⟨d, d.live⟩
    | _ => w
  | .start i task =>
    match task.work? (w.world.clients i) with
    | some work => w.goes (Op.start work) fun r w => w.send i (some (.worked r.1 r.2))
    | none => w
  | .finish i =>
    match w.errands i with
    | some (.worked result t) => (w.send i none).goes (Op.finish result t) fun x w => w.put i x
    | _ => w
  | .addField i path type => w.edit i fun d => d.addField path type
  | .removeField i path => w.edit i fun d => d.removeField path
  | .assign i live => w.edit i fun d => .ok { d with live := live }

/-- Moves one after the other. -/
def run (w : Traffic) (moves : List Move) : Traffic := moves.foldl move w

@[simp] theorem run_nil (w : Traffic) : w.run [] = w := rfl

@[simp] theorem run_cons (w : Traffic) (m : Move) (moves : List Move) :
    w.run (m :: moves) = (w.move m).run moves := rfl

/-- Nothing has happened, and nobody is in the middle of anything. -/
structure Blank (w : Traffic) : Prop where
  world : w.world.Blank
  errands : ∀ i, w.errands i = none

/-- The sample world with nobody on the way. -/
def sampleTraffic : Traffic := ⟨World.sampleWorld, fun _ => none⟩

end Traffic
end SchemaKeeper
