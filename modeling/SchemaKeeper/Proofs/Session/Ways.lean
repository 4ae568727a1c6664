import SchemaKeeper.Proofs.Dataset.Writes
import SchemaKeeper.Proofs.Record.Finite
import SchemaKeeper.Proofs.Session.Sound

/-!
# Where deeds lead

A deed is refused or does what it is meant to do, in one of a few ways; what every session keeps is
told way by way.  So the classes in a session are those that its deeds bring in, what a client holds
it held before or is stored now, and what the writes of the operations keep of a catalog the session
keeps.
-/
namespace SchemaKeeper

open Catalog Op

namespace Deed

/-- What the deed brings in: its connection is as one property says, and the classes of its schema
or type are as another does. -/
def Uses (known : Connection → Prop) (p : DocClass → Prop) : Deed → Prop
  | .act c (.create _ _ s _ _) => known c ∧ s.All p
  | .act c (.addField _ path type) => known c ∧ (Dataset.withField .empty path type).All p
  | .act c _ => known c
  | .assign _ live => live.All p

/-- Of the classes themselves nothing need be known. -/
theorem uses_any {c : Connection} {e : Deed} (ho : e.Over c) :
    e.Uses (fun c' => c'.definitions = c.definitions) fun _ => True := by
  cases e with
  | assign i live => exact fun _ _ _ _ _ _ => trivial
  | act c' a =>
    cases a with
    | create | addField => exact ⟨ho.1, fun _ _ _ _ _ _ => trivial⟩
    | _ => exact ho.1

/-- If the deed saves a record, each document that is written has the property. -/
def Saves (q : Json → Prop) : Deed → Prop
  | .act _ (.save _ r) => (∀ part ∈ r.parts, q part.document) ∧ q r.document
  | _ => True

theorem saves_any (e : Deed) : e.Saves fun _ => True := by
  unfold Saves
  split
  · exact ⟨fun _ _ => trivial, trivial⟩
  · trivial

/-- What is saved of a record holds finite numbers. -/
theorem saves_finite (e : Deed) : e.Saves fun document => document.isFinite = true := by
  unfold Saves
  split
  · exact ⟨fun _ hpart => Record.isFinite_of_mem_parts hpart, Record.isFinite_document _⟩
  · trivial

end Deed

namespace World
variable {c : Connection} {w w' : World} {ws : Workspace} {e : Deed}

/-- Where a deed leads: it is refused, or it is granted and does what it is meant to do. -/
inductive Goes (w : World) : Deed → World → Prop where
  | stays {e : Deed} {ws : Workspace} (unchanged : w.workspace.Unchanged ws) :
    Goes w e { w with workspace := ws }
  | create {c : Connection} {i : Nat} {name : String} {s : Schema} {mediaType : Option MediaType}
    {persistent : Bool} {d : Dataset} {ws : Workspace}
    (granted : Dataset.createFrom c name s mediaType persistent w.workspace = .ok d ws) :
    Goes w (.act c (.create i name s mediaType persistent))
      ({ w with workspace := ws }.put i ⟨d, d.live⟩)
  | load {c : Connection} {i : Nat} {key : DatasetKey} {d : Dataset} {ws : Workspace}
    (granted : Dataset.load c key w.workspace = .ok d ws) :
    Goes w (.act c (.load i key)) ({ w with workspace := ws }.put i ⟨d, d.live⟩)
  | read {c : Connection} {i : Nat} {key : DatasetKey} {d : Dataset} {ws : Workspace}
    (granted : Dataset.read c key w.workspace = .ok d ws) :
    Goes w (.act c (.read i key)) ({ w with workspace := ws }.put i ⟨d, d.live⟩)
  | addField {c : Connection} {i : Nat} {path : String} {type : FieldType} {x : Client}
    {d : Dataset} (client : w.clients i = some x)
    (granted : x.dataset.addField path type = .ok d) :
    Goes w (.act c (.addField i path type)) (w.put i { x with dataset := d })
  | removeField {c : Connection} {i : Nat} {path : String} {x : Client} {d : Dataset}
    (client : w.clients i = some x) (granted : x.dataset.removeField path = .ok d) :
    Goes w (.act c (.removeField i path)) (w.put i { x with dataset := d })
  | commit {c : Connection} {i : Nat} {x : Client} {d : Dataset} {ws : Workspace}
    (client : w.clients i = some x) (granted : x.dataset.commit w.workspace = .ok d ws) :
    Goes w (.act c (.commit i)) ({ w with workspace := ws }.put i ⟨d, d.live⟩)
  | delete {c : Connection} {i : Nat} {x : Client} {d : Dataset} {ws : Workspace}
    (client : w.clients i = some x) (granted : x.dataset.delete w.workspace = .ok d ws) :
    Goes w (.act c (.delete i)) ({ w with workspace := ws }.put i ⟨d, d.live⟩)
  | save {c : Connection} {i : Nat} {x : Client} {r : Record} {ws : Workspace}
    (client : w.clients i = some x) (granted : x.dataset.saveRecord r w.workspace = .ok () ws) :
    Goes w (.act c (.save i r)) { w with workspace := ws }
  | assign {i : Nat} {x : Client} {live : Schema} (client : w.clients i = some x) :
    Goes w (.assign i live) (w.put i { x with dataset := { x.dataset with live := live } })

theorem goes_receive {i : Nat} {r : EStateM.Result Refusal Workspace Dataset}
    (herror : ∀ e' ws, r = .error e' ws → w.workspace.Unchanged ws)
    (hok : ∀ d ws, r = .ok d ws → w.Goes e ({ w with workspace := ws }.put i ⟨d, d.live⟩)) :
    w.Goes e (w.receive i r) := by
  cases r with
  | error e' ws => exact .stays (herror e' ws rfl)
  | ok d ws => exact hok d ws rfl

theorem goes_withClient {i : Nat} {f : Client → World} (ht : w.workspace.transaction = none)
    (hf : ∀ x, w.clients i = some x → w.Goes e (f x)) : w.Goes e (w.withClient i f) := by
  unfold withClient
  cases hi : w.clients i with
  | none => exact .stays ((Workspace.Rests.refl _).unchanged ht)
  | some x => exact hf x hi

theorem goes_edit {i : Nat} {x : Client} {r : Except Refusal Dataset}
    (ht : w.workspace.transaction = none)
    (hr : ∀ d, r = .ok d → w.Goes e (w.put i { x with dataset := d })) :
    w.Goes e (w.edit i x r) := by
  cases r with
  | error e' => exact .stays ((Workspace.Rests.refl _).unchanged ht)
  | ok d => exact hr d rfl

/-- Every deed goes one of these ways. -/
theorem does_goes (ho : e.Over c) (ht : w.workspace.transaction = none) : w.Goes e (w.does e) := by
  cases e with
  | assign i live => exact goes_withClient ht fun x hx => .assign hx
  | act c' a =>
    cases a with
    | create i name s mediaType persistent =>
      exact goes_receive (fun _ _ h => Dataset.createFrom_error ht h) fun d ws h => .create h
    | load i key =>
      exact goes_receive (fun _ _ h => Dataset.load_error ho.2 ht h) fun d ws h => .load h
    | read i key =>
      exact goes_receive (fun _ _ h => ((Dataset.observes_read c' key).error h).unchanged ht)
        fun d ws h => .read h
    | addField i path type =>
      exact goes_withClient ht fun x hx => goes_edit ht fun d h => .addField hx h
    | removeField i path =>
      exact goes_withClient ht fun x hx => goes_edit ht fun d h => .removeField hx h
    | commit i =>
      exact goes_withClient ht fun x hx =>
        goes_receive (fun _ _ h => Dataset.commit_error ht h) fun d ws h => .commit hx h
    | delete i =>
      exact goes_withClient ht fun x hx =>
        goes_receive (fun _ _ h => Dataset.delete_error ht h) fun d ws h => .delete hx h
    | save i r =>
      refine goes_withClient ht fun x hx => ?_
      cases hop : x.dataset.saveRecord r w.workspace with
      | error e' ws =>
        rw [after_of_error hop]
        exact .stays (Dataset.saveRecord_error ht hop)
      | ok _ ws =>
        rw [after_of_ok hop]
        exact .save hx hop

/-! ## Classes -/

variable {known : Connection → Prop} {p : DocClass → Prop} {q : Json → Prop} {i : Nat} {x : Client}
  {deeds : List Deed}

/-- What clients bring to their operations is as two properties say. -/
def Uses (known : Connection → Prop) (p : DocClass → Prop) (w : World) : Prop :=
  ∀ i x, w.clients i = some x → x.dataset.Uses known p

theorem uses_of_blank (h : w.Blank) : w.Uses known p := fun _ _ hx => absurd hx h.clients_ne_some

theorem Uses.put (h : w.Uses known p) (hx : x.dataset.Uses known p) :
    ({ w with workspace := ws }.put i x).Uses known p := forall_clients_put h hx

/-- A deed leaves no classes with the clients but those that it brings in and that were there. -/
theorem does_uses (hknown : ∀ c, known c → c.classes.All p) (ho : e.Over c) (he : e.Uses known p)
    (ht : w.workspace.transaction = none) (h : w.Uses known p) : (w.does e).Uses known p := by
  have hgoes := does_goes ho ht
  generalize w.does e = w' at hgoes
  cases hgoes with
  | stays unchanged => exact h
  | create granted => exact h.put (Dataset.createFrom_uses hknown he.1 granted)
  | load granted => exact h.put (Dataset.load_uses ho.2 ht hknown he granted)
  | read granted =>
    exact h.put (Dataset.readFrom_uses hknown he ((Dataset.observes_read _ _).ok granted).1)
  | addField client granted => exact h.put ((h _ _ client).addField he.2 granted)
  | removeField client granted => exact h.put ((h _ _ client).removeField granted)
  | commit client granted => exact h.put ((h _ _ client).commit hknown granted)
  | delete client granted => exact h.put ((h _ _ client).delete granted)
  | save client granted => exact h
  | assign client => exact h.put ⟨(h _ _ client).connection, he⟩

theorem play_uses (hknown : ∀ c, known c → c.classes.All p) (ho : ∀ e ∈ deeds, e.Over c)
    (he : ∀ e ∈ deeds, e.Uses known p) (ht : w.workspace.transaction = none)
    (h : w.Uses known p) : (w.play deeds).Uses known p := by
  induction deeds generalizing w with
  | nil => exact h
  | cons e deeds ih =>
    obtain ⟨hover, hrest⟩ := List.forall_mem_cons.1 ho
    obtain ⟨huse, huses⟩ := List.forall_mem_cons.1 he
    exact ih hrest huses (does_commits hover ht).transaction (does_uses hknown hover huse ht h)

/-! ## What clients hold -/

variable {guarded : Prop} {l : Ledger} {held : Holding}

/-- A client that keeps what it holds while it is put in its place. -/
theorem held_of_put {ws : Workspace} {j : Nat} {y z : Client} (hz : w.clients j = some z)
    (hkeeps : ∀ got, y.dataset.standing.holding? = some got →
      z.dataset.standing.holding? = some got)
    (hx : ({ w with workspace := ws }.put j y).clients i = some x)
    (hheld : x.dataset.standing.holding? = some held) :
    ∃ x₀, w.clients i = some x₀ ∧ x₀.dataset.standing.holding? = some held := by
  rcases eq_or_clients_of_put hx with ⟨rfl, rfl⟩ | hx
  · exact ⟨z, hz, hkeeps held hheld⟩
  · exact ⟨x, hx, hheld⟩

/-- A client that is given a dataset with a definition that is stored now. -/
theorem held_or_stored_of_put {ws : Workspace} {j : Nat} {d : Dataset} {got : Holding}
    (hx : ({ w with workspace := ws }.put j ⟨d, d.live⟩).clients i = some x)
    (hheld : x.dataset.standing.holding? = some held) (hkeeps : ws.store.catalog.Keeps)
    (hstanding : d.standing = .attached got) (hwritable : got.definition.Writable)
    (hdocument : ws.store.catalog.documentAt c.definitions got.definition.key =
      some got.definition.document) :
    (∃ x₀, w.clients i = some x₀ ∧ x₀.dataset.standing.holding? = some held) ∨
      c.stored? ws.store.catalog held.definition.id = some held.definition := by
  rcases eq_or_clients_of_put hx with ⟨-, rfl⟩ | hx
  · rw [hstanding] at hheld
    injection hheld with hheld
    subst hheld
    exact .inr (Stocked.stored?_of_documentAt hkeeps hwritable hdocument)
  · exact .inl ⟨x, hx, hheld⟩

/-- After a deed a client holds what it held before, or what is stored now. -/
theorem does_held (ho : e.Over c) (h : Steady guarded c l w)
    (hf : (w.does e).workspace.supply.Fits c.definitions)
    (hx : (w.does e).clients i = some x) (hheld : x.dataset.standing.holding? = some held) :
    (∃ x₀, w.clients i = some x₀ ∧ x₀.dataset.standing.holding? = some held) ∨
      c.stored? (w.does e).workspace.store.catalog held.definition.id = some held.definition := by
  have hkeeps := (does_commits ho h.closed).keeps h.stocked.keeps
  have hgoes := does_goes ho h.closed
  generalize w.does e = w' at hgoes hf hx hkeeps
  cases hgoes with
  | stays | save => exact .inl ⟨x, hx, hheld⟩
  | addField client granted =>
    have hsame := (Dataset.addField_edits granted).holding
    exact .inl (held_of_put client (fun _ hgot => hsame ▸ hgot) hx hheld)
  | removeField client granted =>
    have hsame := (Dataset.removeField_edits granted).holding
    exact .inl (held_of_put client (fun _ hgot => hsame ▸ hgot) hx hheld)
  | @assign _ z live client =>
    exact .inl (held_of_put (y := { z with dataset := { z.dataset with live := live } }) client
      (fun _ hgot => hgot) hx hheld)
  | delete client granted =>
    obtain ⟨_, -, rfl, -⟩ := Dataset.delete_ok granted
    exact .inl (held_of_put client (fun _ hgot => by cases hgot) hx hheld)
  | read granted =>
    have hc := ho.1
    obtain ⟨hfrom, hrests⟩ := (Dataset.observes_read _ _).ok granted
    rw [Workspace.visible_of_closed h.closed] at hfrom
    obtain ⟨got, -, hstanding, hholds, hdocument, -⟩ :=
      Dataset.readFrom_stocked (h.stocked.congr hc) hfrom
    rw [← congrArg Store.catalog hrests.store, hc] at hdocument
    exact held_or_stored_of_put hx hheld hkeeps hstanding hholds.traced.writable hdocument
  | create granted =>
    have hc := ho.1
    obtain ⟨_, got, _, -, hd, hholds, -, -, -, -, -, hpersists⟩ :=
      Dataset.createFrom_stores (h.stocked.congr hc) (hc ▸ hf) granted
    exact held_or_stored_of_put hx hheld hkeeps hpersists.standing hholds.traced.writable
      (hc ▸ hd ▸ hpersists.document)
  | load granted =>
    have hc := ho.1
    obtain ⟨_, got, -, hd, hholds, -, -, -, -, hpersists⟩ :=
      Dataset.load_stores ho.2 h.closed (h.stocked.congr hc) (hc ▸ hf) granted
    exact held_or_stored_of_put hx hheld hkeeps hpersists.standing hholds.traced.writable
      (hc ▸ hd ▸ hpersists.document)
  | @commit _ _ z d ws client granted =>
    obtain ⟨hc, -, hholds, -⟩ := h.clients _ z client
    obtain ⟨held, _, _, hheld', -⟩ := Dataset.commit_ok granted
    obtain ⟨_, got, -, hd, hholds', -, -, hpersists⟩ :=
      Dataset.commit_stores (h.stocked.congr hc) hheld' (hholds held hheld') granted
    exact held_or_stored_of_put hx hheld hkeeps hpersists.standing hholds'.traced.writable
      (hc ▸ hd ▸ hpersists.document)

/-! ## What writes keep -/

variable {P : Catalog → Prop}

/-- A deed keeps of the catalog what the writes of the operations keep. -/
theorem does_preserves (hknown : ∀ c', known c' → c'.classes.All p ∧ c'.definitions = c.definitions)
    (hk : KeptBy (Write.Usual c.definitions p q) P) (ho : e.Over c) (he : e.Uses known p)
    (hs : e.Saves q) (ht : w.workspace.transaction = none) (hw : w.Uses known p)
    (h : P w.workspace.store.catalog) : P (w.does e).workspace.store.catalog := by
  have hgoes := does_goes ho ht
  generalize w.does e = w' at hgoes
  cases hgoes with
  | stays unchanged => exact unchanged.catalog.symm ▸ h
  | addField | removeField | assign => exact h
  | read granted =>
    have hrests := ((Dataset.observes_read _ _).ok granted).2
    exact (congrArg Store.catalog hrests.store).symm ▸ h
  | create granted =>
    exact Dataset.createFrom_preserves (ho.1.symm ▸ hk) he.2 granted h
  | load granted =>
    exact Dataset.load_preserves ho.2 ht (fun c' hc' => (hknown c' hc').1) he (ho.1.symm ▸ hk)
      granted h
  | commit client granted =>
    have hx := hw _ _ client
    exact hx.commit_preserves (fun c' hc' => (hknown c' hc').1)
      ((hknown _ hx.connection).2.symm ▸ hk) granted h
  | delete client granted => exact Dataset.delete_preserves hk granted h
  | save client granted => exact Dataset.saveRecord_preserves hk hs.1 hs.2 granted h

/-- A session keeps of the catalog what the writes of the operations keep. -/
theorem play_preserves (hknown : ∀ c', known c' → c'.classes.All p ∧ c'.definitions = c.definitions)
    (hk : KeptBy (Write.Usual c.definitions p q) P) (ho : ∀ e ∈ deeds, e.Over c)
    (he : ∀ e ∈ deeds, e.Uses known p) (hs : ∀ e ∈ deeds, e.Saves q)
    (ht : w.workspace.transaction = none) (hw : w.Uses known p)
    (h : P w.workspace.store.catalog) : P (w.play deeds).workspace.store.catalog := by
  induction deeds generalizing w with
  | nil => exact h
  | cons e deeds ih =>
    obtain ⟨hover, hovers⟩ := List.forall_mem_cons.1 ho
    obtain ⟨huse, huses⟩ := List.forall_mem_cons.1 he
    obtain ⟨hsave, hsaves⟩ := List.forall_mem_cons.1 hs
    exact ih hovers huses hsaves (does_commits hover ht).transaction
      (does_uses (fun c' hc' => (hknown c' hc').1) hover huse ht hw)
      (does_preserves hknown hk hover huse hsave ht hw h)

/-- What writes of whatever classes keep a session keeps that began in a blank world. -/
theorem play_keeps (hk : KeptBy (Write.Usual c.definitions (fun _ => True) q) P)
    (ho : ∀ e ∈ deeds, e.Over c) (hs : ∀ e ∈ deeds, e.Saves q) (hb : w.Blank)
    (h : P w.workspace.store.catalog) : P (w.play deeds).workspace.store.catalog :=
  play_preserves (fun _ hc => ⟨fun _ _ => trivial, hc⟩) hk ho
    (fun e he => Deed.uses_any (ho e he)) hs hb.transaction (uses_of_blank hb) h

end World
end SchemaKeeper
