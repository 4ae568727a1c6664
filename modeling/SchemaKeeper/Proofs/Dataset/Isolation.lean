import SchemaKeeper.Proofs.Dataset.Contended

/-!
# Transactions are isolated

Inside a transaction an operation neither looks at the committed catalog nor moves it.  So it makes
no difference whether other writers move the catalog before the work of a transaction, amid it or
after it: every piece of the work commutes with what they do.
-/
namespace SchemaKeeper

open Op Provision

namespace Op
variable {ε α β : Type} {f : Catalog → Catalog} {ws : Workspace}

/-- An outcome after which others have moved the committed catalog. -/
def carried (f : Catalog → Catalog) :
    EStateM.Result ε Workspace α → EStateM.Result ε Workspace α
  | .ok a ws => .ok a (ws.moved f)
  | .error e ws => .error e (ws.moved f)

/-- Inside a transaction, which stays open, the operation does the same wherever others have moved
the committed catalog to. -/
def Secluded (op : Op ε α) : Prop :=
  ∀ (f : Catalog → Catalog) (ws : Workspace) (t : Transaction), ws.transaction = some t →
    op (ws.moved f) = carried f (op ws) ∧ ∃ t', (after op ws).transaction = some t'

theorem Secluded.bind {x : Op ε α} {g : α → Op ε β} (hx : Secluded x)
    (hg : ∀ a, Secluded (g a)) : Secluded (x >>= g) := by
  intro f ws t ht
  obtain ⟨hmoved, t₁, ht₁⟩ := hx f ws t ht
  rw [bind_apply, bind_apply, after_bind, hmoved]
  cases h : x ws with
  | error e ws₁ =>
    rw [after_of_error h] at ht₁
    exact ⟨rfl, t₁, ht₁⟩
  | ok a ws₁ =>
    rw [after_of_ok h] at ht₁
    exact hg a f ws₁ t₁ ht₁

theorem secluded_pure (a : α) : Secluded (pure a : Op ε α) := fun _ _ t ht => ⟨rfl, t, ht⟩

theorem secluded_throw (e : ε) : Secluded (throw e : Op ε α) := fun _ _ t ht => ⟨rfl, t, ht⟩

theorem secluded_lift (r : Except ε α) : Secluded (lift r) := by
  cases r with
  | ok a => exact secluded_pure a
  | error e => exact secluded_throw e

theorem secluded_liftStore [FromStore ε] (r : Except StoreRefusal α) :
    Secluded (liftStore r : Op ε α) := by
  cases r with
  | ok a => exact secluded_pure a
  | error e => exact secluded_throw _

theorem secluded_log (line : Line) : Secluded (log line : Op ε Unit) :=
  fun _ _ t ht => ⟨rfl, t, ht⟩

theorem secluded_note (severity : Severity) (event : Event) (fields : List (String × String)) :
    Secluded (note severity event fields : Op ε Unit) := secluded_log _

theorem secluded_freshId : Secluded (freshId : Op ε Uuid) := fun _ _ t ht => ⟨rfl, t, ht⟩

theorem secluded_now : Secluded (now : Op ε Moment) := fun _ _ t ht => ⟨rfl, t, ht⟩

theorem secluded_catalog : Secluded (catalog : Op ε Catalog) := by
  intro f ws t ht
  have hseen : ∀ ws : Workspace, ws.transaction = some t →
      (catalog : Op ε Catalog) ws = .ok t.working ws := by
    intro ws ht
    simp only [catalog, bind_apply, get_apply, ht]
    rfl
  refine ⟨?_, t, ?_⟩
  · rw [hseen ws ht, hseen (ws.moved f) ht]
    rfl
  · rwa [after_of_ok (hseen ws ht)]

theorem secluded_query [FromStore ε] (read : Catalog → Except StoreRefusal α) :
    Secluded (query read : Op ε α) := secluded_catalog.bind fun _ => secluded_liftStore _

theorem secluded_write [FromStore ε] (w : Write) : Secluded (write w : Op ε Bool) := by
  intro f ws t ht
  have hmoved : (ws.moved f).transaction = some t := ht
  rw [write_within hmoved, after, write_within ht]
  cases t.perform w with
  | ok r => exact ⟨rfl, r.2, rfl⟩
  | error e => exact ⟨rfl, t, ht⟩

theorem secluded_discard_write [FromStore ε] (w : Write) :
    Secluded (discard (write w) : Op ε Unit) := (secluded_write w).bind fun _ => secluded_pure ()

end Op

/-! ## The work of transactions -/

namespace Provision

theorem secluded_define (s : Schema) (known : Collections) : Secluded (define s known) := by
  intro f ws t ht
  rw [after, define_eq, define_eq, show (ws.moved f).supply = ws.supply from rfl]
  cases Layout.define ws.supply.ids known ws.supply.drawn s.entries with
  | error e => exact ⟨rfl, t, ht⟩
  | ok r => exact ⟨rfl, t, ht⟩

theorem secluded_ensureIndexes (name : String) :
    ∀ indexes : List Index, Secluded (ensureIndexes name indexes)
  | [] => secluded_pure ()
  | index :: rest => by
    refine (secluded_write _).bind fun answer => ?_
    split
    · exact (secluded_note _ _ _).bind fun _ => secluded_ensureIndexes name rest
    · exact secluded_ensureIndexes name rest

theorem secluded_ensureCollections (s : Schema) (existing : Keyed Unit) :
    ∀ es : List (String × String), Secluded (ensureCollections s existing es)
  | [] => secluded_pure ()
  | (path, name) :: rest => by
    have hrest := (secluded_ensureIndexes name (indexesAt s path)).bind fun _ =>
      secluded_ensureCollections s existing rest
    rw [ensureCollections]
    split
    · exact (secluded_discard_write _).bind fun _ => (secluded_note _ _ _).bind fun _ => hrest
    · exact hrest

theorem secluded_installValidators (rules : List (String × Rule)) :
    Secluded (installValidators rules) := by
  induction rules with
  | nil => exact secluded_pure ()
  | cons rule rest ih =>
    have hone : Secluded (installValidator rule.1 rule.2 : Op Refusal Bool) := by
      refine (secluded_query _).bind fun installed => ?_
      split
      · exact (secluded_note _ _ _).bind fun _ => secluded_pure false
      · exact (secluded_discard_write _).bind fun _ =>
          (secluded_note _ _ _).bind fun _ => secluded_pure true
    exact (hone.bind fun _ => secluded_pure ()).bind fun _ => ih

theorem secluded_make (s : Schema) (known : Collections) : Secluded (make s known) :=
  (secluded_define s known).bind fun _ => (secluded_lift _).bind fun _ =>
    secluded_catalog.bind fun _ => (secluded_ensureCollections s _ _).bind fun _ =>
      (secluded_installValidators _).bind fun _ => secluded_pure _

theorem secluded_recover (ds : List FieldDefinition) (v : Validators) (r : Registry) :
    Secluded (recover ds v r) := by
  have hnotes : ∀ paths : List String, Secluded (paths.forM fun path =>
      (Op.note .warn .validatorFallback [("path", path)] : Op Refusal Unit)) := by
    intro paths
    induction paths with
    | nil => exact secluded_pure ()
    | cons path rest ih => exact (secluded_note _ _ _).bind fun _ => ih
  exact (hnotes _).bind fun _ => secluded_lift _

end Provision

namespace Dataset
variable {c : Connection}

theorem secluded_find? (c : Connection) (field text : String) : Secluded (c.find? field text) :=
  secluded_catalog.bind fun _ => secluded_pure _

theorem secluded_build (c : Connection) (name : String) (s : Schema)
    (mediaType : Option MediaType) (persistent : Bool) :
    Secluded (build c name s mediaType persistent) := by
  have hensure : Secluded c.ensureDefinitions := by
    refine secluded_catalog.bind fun catalog => ?_
    split
    · exact (secluded_discard_write _).bind fun _ => secluded_discard_write _
    · exact secluded_discard_write _
  refine hensure.bind fun _ =>
    ((secluded_find? c "name" name).bind fun _ => secluded_pure _).bind fun found => ?_
  split
  · exact secluded_throw _
  · exact (secluded_make s .empty).bind fun _ => (secluded_recover _ _ _).bind fun _ =>
      secluded_freshId.bind fun _ => secluded_now.bind fun _ =>
        (secluded_discard_write _).bind fun _ => secluded_pure _

theorem secluded_read (c : Connection) (key : DatasetKey) : Secluded (read c key) := by
  refine (secluded_find? c _ _).bind fun found => ?_
  cases found with
  | none => exact secluded_throw _
  | some document =>
    exact (secluded_lift _).bind fun _ => secluded_catalog.bind fun _ =>
      (secluded_recover _ _ _).bind fun _ => secluded_pure _

theorem secluded_merge (c : Connection) (h : Holding) (edited : Schema) :
    Secluded (merge c h edited) := by
  refine (secluded_read c _).bind fun latest => (secluded_recover _ _ _).bind fun base =>
    (secluded_note _ _ _).bind fun _ => (secluded_make _ _).bind fun provision =>
      (secluded_recover _ _ _).bind fun _ => (secluded_write _).bind fun answer => ?_
  split
  · exact secluded_throw _
  · exact secluded_pure _

theorem secluded_dropLive : ∀ es : List (String × String), Secluded (dropLive es)
  | [] => secluded_pure ()
  | (_, _) :: rest => by
    refine (secluded_write _).bind fun answer => ?_
    split
    · exact (secluded_note _ _ _).bind fun _ => secluded_dropLive rest
    · exact secluded_dropLive rest

theorem secluded_dropRetired : ∀ names : List String, Secluded (dropRetired names)
  | [] => secluded_pure ()
  | _ :: rest => by
    refine (secluded_write _).bind fun answer => ?_
    split
    · exact (secluded_note _ _ _).bind fun _ => secluded_dropRetired rest
    · exact secluded_dropRetired rest

theorem secluded_demolish (c : Connection) (definition : Definition) :
    Secluded (demolish c definition) := by
  have hlast : ∀ names : List String, Secluded (do
      dropRetired names
      discard <| Op.write (.deleteOne c.definitions definition.key) : Op Refusal Unit) :=
    fun names => (secluded_dropRetired names).bind fun _ => secluded_discard_write _
  refine (secluded_dropLive _).bind fun _ => (secluded_find? c _ _).bind fun found => ?_
  cases found with
  | none => exact hlast _
  | some document => exact (secluded_lift _).bind fun stored => hlast _

theorem secluded_writeRecord (cs : Collections) (r : Record) : Secluded (writeRecord cs r) := by
  have hparts : ∀ parts : List Part, Secluded (writeParts cs parts) := by
    intro parts
    induction parts with
    | nil => exact secluded_pure ()
    | cons part rest ih =>
      exact (secluded_lift _).bind fun _ => (secluded_discard_write _).bind fun _ => ih
  exact (secluded_lift _).bind fun _ => (hparts _).bind fun _ => secluded_discard_write _

end Dataset

/-! ## The others move early or late -/

/-- What others do before the work of a transaction, or before the rest of it, they can as well do
after it. -/
theorem Op.within_meanwhile {ε α β : Type} {work : Op ε α} (hw : Secluded work)
    (f : Catalog → Catalog) (t : Transaction) :
    (within t (meanwhile f >>= fun _ => work) : Op β _) =
      (within t work >>= fun r => meanwhile f >>= fun _ => pure r) := by
  funext ws
  obtain ⟨hmoved, -⟩ := hw f { ws with transaction := some t } t rfl
  simp only [within, bind_apply, get_apply, modify_apply, attempt, meanwhile_apply, hmoved]
  cases work { ws with transaction := some t } <;> rfl

end SchemaKeeper
