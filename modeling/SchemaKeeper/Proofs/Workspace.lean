import SchemaKeeper.Proofs.Store.Catalog
import SchemaKeeper.Workspace

/-!
# What operations do to a workspace

An operation that only looks answers from the catalog that it sees and leaves no more than lines
in the journal.  One that runs inside a transaction changes the transaction's own catalog alone.
What a transaction wrote is committed as one change, or nothing of it is.
-/
namespace SchemaKeeper

namespace Supply

/-- A later state of a supply: the same source, more of it drawn. -/
structure Later (s s' : Supply) : Prop where
  ids : s'.ids = s.ids
  clock : s'.clock = s.clock
  drawn : s.drawn ≤ s'.drawn
  read : s.read ≤ s'.read

theorem Later.refl (s : Supply) : s.Later s := ⟨rfl, rfl, Nat.le_refl _, Nat.le_refl _⟩

theorem Later.trans {a b c : Supply} (h : a.Later b) (h' : b.Later c) : a.Later c :=
  ⟨h'.ids.trans h.ids, h'.clock.trans h.clock, Nat.le_trans h.drawn h'.drawn,
    Nat.le_trans h.read h'.read⟩

end Supply

namespace Workspace

/-- The catalog that operations see. -/
def visible (ws : Workspace) : Catalog :=
  match ws.transaction with
  | some t => t.working
  | none => ws.store.catalog

/-- Nothing moved but the journal and the supply. -/
structure Rests (ws ws' : Workspace) : Prop where
  store : ws'.store = ws.store
  transaction : ws'.transaction = ws.transaction
  supply : ws.supply.Later ws'.supply

theorem Rests.refl (ws : Workspace) : ws.Rests ws := ⟨rfl, rfl, .refl _⟩

theorem Rests.trans {a b c : Workspace} (h : a.Rests b) (h' : b.Rests c) : a.Rests c :=
  ⟨h'.store.trans h.store, h'.transaction.trans h.transaction, h.supply.trans h'.supply⟩

theorem Rests.visible {ws ws' : Workspace} (h : ws.Rests ws') : ws'.visible = ws.visible := by
  rw [Workspace.visible, Workspace.visible, h.store, h.transaction]

/-- Inside a transaction: the store is left alone, a transaction stays open, and documents stay
under their own identifiers. -/
structure Stays (ws ws' : Workspace) : Prop where
  store : ws'.store = ws.store
  transaction : ∃ t, ws'.transaction = some t
  supply : ws.supply.Later ws'.supply
  keeps : ws.visible.Keeps → ws'.visible.Keeps

theorem Stays.trans {a b c : Workspace} (h : a.Stays b) (h' : b.Stays c) : a.Stays c :=
  ⟨h'.store.trans h.store, h'.transaction, h.supply.trans h'.supply,
    fun hk => h'.keeps (h.keeps hk)⟩

/-- The workspace in which the work of a transaction begins. -/
def opened (ws : Workspace) : Workspace :=
  { ws with
    journal := ws.journal ++ [.of .trace Event.transactionBegin.text
      [("base_version", toString ws.store.begin.base)]]
    transaction := some ws.store.begin }

theorem Rests.stays {ws ws' : Workspace} (h : ws.Rests ws') {t : Transaction}
    (ht : ws.transaction = some t) : ws.Stays ws' :=
  ⟨h.store, ⟨t, h.transaction.trans ht⟩, h.supply, fun hk => h.visible ▸ hk⟩

/-- The committed catalog is as it was, no transaction is open. -/
structure Unchanged (ws ws' : Workspace) : Prop where
  catalog : ws'.store.catalog = ws.store.catalog
  transaction : ws'.transaction = none
  supply : ws.supply.Later ws'.supply

theorem Rests.unchanged {ws ws' : Workspace} (h : ws.Rests ws') (ht : ws.transaction = none) :
    ws.Unchanged ws' := ⟨congrArg Store.catalog h.store, h.transaction.trans ht, h.supply⟩

theorem Unchanged.trans {a b c : Workspace} (h : a.Unchanged b) (h' : b.Unchanged c) :
    a.Unchanged c :=
  ⟨h'.catalog.trans h.catalog, h'.transaction, h.supply.trans h'.supply⟩

/-- Between two operations: no transaction is open, and documents stay under their own
identifiers. -/
structure Commits (ws ws' : Workspace) : Prop where
  transaction : ws'.transaction = none
  supply : ws.supply.Later ws'.supply
  keeps : ws.store.catalog.Keeps → ws'.store.catalog.Keeps

theorem Unchanged.commits {ws ws' : Workspace} (h : ws.Unchanged ws') : ws.Commits ws' :=
  ⟨h.transaction, h.supply, fun hk => h.catalog ▸ hk⟩

theorem Commits.trans {a b c : Workspace} (h : a.Commits b) (h' : b.Commits c) : a.Commits c :=
  ⟨h'.transaction, h.supply.trans h'.supply, fun hk => h'.keeps (h.keeps hk)⟩

theorem visible_of_closed {ws : Workspace} (h : ws.transaction = none) :
    ws.visible = ws.store.catalog := by
  rw [visible, h]

end Workspace

namespace Op
variable {ε α β : Type} {ws ws' : Workspace}

/-- The workspace after an operation, however it went. -/
def after (op : Op ε α) (ws : Workspace) : Workspace :=
  match op ws with
  | .ok _ ws' => ws'
  | .error _ ws' => ws'

/-- The answer of an operation with the workspace after it, unless it was refused. -/
def given? : EStateM.Result ε Workspace α → Option (α × Workspace)
  | .ok a ws => some (a, ws)
  | .error _ _ => none

theorem given?_eq_some {res : EStateM.Result ε Workspace α} {g : α × Workspace}
    (h : given? res = some g) : res = .ok g.1 g.2 := by
  cases res with
  | ok a ws =>
    injection h with h
    subst h
    rfl
  | error e ws => cases h

theorem given?_eq_none {res : EStateM.Result ε Workspace α} (h : given? res = none) :
    ∃ e ws, res = .error e ws := by
  cases res with
  | ok a ws => cases h
  | error e ws => exact ⟨e, ws, rfl⟩

/-! ## Sequences -/

theorem get_apply (ws : Workspace) : (get : Op ε Workspace) ws = .ok ws ws := rfl

theorem modify_apply (f : Workspace → Workspace) (ws : Workspace) :
    (modify f : Op ε Unit) ws = .ok () (f ws) := rfl

theorem bind_apply (x : Op ε α) (f : α → Op ε β) (ws : Workspace) :
    (x >>= f) ws = match x ws with
      | .ok a ws₁ => f a ws₁
      | .error e ws₁ => .error e ws₁ := by
  show EStateM.bind x f ws = _
  unfold EStateM.bind
  cases x ws <;> rfl

theorem bind_eq_ok {x : Op ε α} {f : α → Op ε β} {b : β} :
    (x >>= f) ws = .ok b ws' ↔ ∃ a ws₁, x ws = .ok a ws₁ ∧ f a ws₁ = .ok b ws' := by
  rw [bind_apply]
  constructor
  · cases x ws with
    | ok a ws₁ => exact fun h => ⟨a, ws₁, rfl, h⟩
    | error e ws₁ => nofun
  · rintro ⟨a, ws₁, hx, hf⟩
    rw [hx]
    exact hf

theorem bind_eq_error {x : Op ε α} {f : α → Op ε β} {e : ε} (h : (x >>= f) ws = .error e ws') :
    x ws = .error e ws' ∨ ∃ a ws₁, x ws = .ok a ws₁ ∧ f a ws₁ = .error e ws' := by
  rw [bind_apply] at h
  cases hx : x ws with
  | ok a ws₁ =>
    rw [hx] at h
    exact .inr ⟨a, ws₁, rfl, h⟩
  | error e' ws₁ =>
    rw [hx] at h
    cases h
    exact .inl rfl

theorem after_bind (x : Op ε α) (f : α → Op ε β) (ws : Workspace) :
    after (x >>= f) ws = match x ws with
      | .ok a ws₁ => after (f a) ws₁
      | .error _ ws₁ => ws₁ := by
  rw [after, bind_apply]
  cases x ws <;> rfl

theorem after_of_ok {op : Op ε α} {a : α} (h : op ws = .ok a ws') : after op ws = ws' := by
  rw [after, h]

theorem after_of_error {op : Op ε α} {e : ε} (h : op ws = .error e ws') : after op ws = ws' := by
  rw [after, h]

theorem lift_eq_ok {r : Except ε α} {a : α} :
    lift r ws = .ok a ws' ↔ r = .ok a ∧ ws' = ws := by
  cases r with
  | ok b =>
    show (EStateM.Result.ok b ws : EStateM.Result ε Workspace α) = _ ↔ _
    simp [eq_comm]
  | error e =>
    show (EStateM.Result.error e ws : EStateM.Result ε Workspace α) = _ ↔ _
    simp

/-! ## Operations that only look -/

/-- An outcome together with the workspace after it. -/
def outcome (r : Except ε α) (ws : Workspace) : EStateM.Result ε Workspace α :=
  match r with
  | .ok a => .ok a ws
  | .error e => .error e ws

/-- The operation answers what a function says about the catalog that it sees, and nothing moves
but the journal and the supply. -/
def Observes (op : Op ε α) (f : Catalog → Except ε α) : Prop :=
  ∀ ws, ∃ ws', ws.Rests ws' ∧ op ws = outcome (f ws.visible) ws'

theorem observes_pure (a : α) : Observes (pure a : Op ε α) fun _ => .ok a :=
  fun ws => ⟨ws, .refl ws, rfl⟩

theorem observes_lift (r : Except ε α) : Observes (lift r) fun _ => r := by
  intro ws
  refine ⟨ws, .refl ws, ?_⟩
  cases r <;> rfl

theorem observes_throw (e : ε) : Observes (throw e : Op ε α) fun _ => .error e :=
  fun ws => ⟨ws, .refl ws, rfl⟩

theorem observes_catalog : Observes (catalog : Op ε Catalog) .ok := by
  intro ws
  refine ⟨ws, .refl ws, ?_⟩
  show (EStateM.Result.ok (match ws.transaction with
    | some t => t.working
    | none => ws.store.catalog) ws : EStateM.Result ε Workspace Catalog) = _
  rfl

theorem observes_log (line : Line) : Observes (log line : Op ε Unit) fun _ => .ok () :=
  fun ws => ⟨{ ws with journal := ws.journal ++ [line] }, ⟨rfl, rfl, .refl _⟩, rfl⟩

theorem observes_note (severity : Severity) (event : Event) (fields : List (String × String)) :
    Observes (note severity event fields : Op ε Unit) fun _ => .ok () := observes_log _

theorem Observes.bind {x : Op ε α} {f : α → Op ε β} {g : Catalog → Except ε α}
    {h : α → Catalog → Except ε β} (hx : Observes x g) (hf : ∀ a, Observes (f a) (h a)) :
    Observes (x >>= f) fun c => g c >>= fun a => h a c := by
  intro ws
  obtain ⟨ws₁, hr₁, h₁⟩ := hx ws
  rw [bind_apply, h₁]
  cases hg : g ws.visible with
  | error e => exact ⟨ws₁, hr₁, by simp [outcome, hg]⟩
  | ok a =>
    obtain ⟨ws₂, hr₂, h₂⟩ := hf a ws₁
    refine ⟨ws₂, hr₁.trans hr₂, ?_⟩
    rw [hr₁.visible] at h₂
    simpa [outcome, hg] using h₂

theorem observes_liftStore [FromStore ε] (r : Except StoreRefusal α) :
    Observes (liftStore r : Op ε α) fun _ => r.mapError FromStore.ofStore := by
  intro ws
  refine ⟨ws, .refl ws, ?_⟩
  cases r <;> rfl

theorem observes_query [FromStore ε] (read : Catalog → Except StoreRefusal α) :
    Observes (query read : Op ε α) fun c => (read c).mapError FromStore.ofStore :=
  observes_catalog.bind fun c => observes_liftStore (read c)

theorem Observes.ok {op : Op ε α} {f : Catalog → Except ε α} (h : Observes op f) {a : α}
    (hop : op ws = .ok a ws') : f ws.visible = .ok a ∧ ws.Rests ws' := by
  obtain ⟨ws₁, hr, h₁⟩ := h ws
  rw [h₁] at hop
  cases hf : f ws.visible with
  | error e => rw [hf] at hop; cases hop
  | ok b =>
    rw [hf] at hop
    cases hop
    exact ⟨rfl, hr⟩

theorem Observes.of_ok {op : Op ε α} {f : Catalog → Except ε α} (h : Observes op f) {a : α}
    (hf : f ws.visible = .ok a) : ∃ ws', op ws = .ok a ws' := by
  obtain ⟨ws', -, h₁⟩ := h ws
  rw [hf] at h₁
  exact ⟨ws', h₁⟩

theorem Observes.rests {op : Op ε α} {f : Catalog → Except ε α} (h : Observes op f)
    (ws : Workspace) : ws.Rests (after op ws) := by
  obtain ⟨ws', hr, h₁⟩ := h ws
  cases hf : f ws.visible <;> rw [hf] at h₁
  · rwa [after_of_error h₁]
  · rwa [after_of_ok h₁]

/-- The operation succeeds, and nothing moves but the journal and the supply. -/
def Rests (op : Op ε α) : Prop :=
  ∀ ws : Workspace, ∃ a ws', op ws = .ok a ws' ∧ ws.Rests ws'

theorem rests_openScope (name : String) (fields : List (String × String)) :
    Rests (openScope name fields : Op ε Scope) :=
  fun _ => ⟨_, _, rfl, rfl, rfl, rfl, rfl, Nat.le_refl _, Nat.le_refl _⟩

theorem rests_complete (scope : Scope) (extra : List (String × String)) :
    Rests (complete scope extra : Op ε Unit) :=
  fun _ => ⟨_, _, rfl, rfl, rfl, rfl, rfl, Nat.le_refl _, Nat.le_refl _⟩

theorem Rests.ok {op : Op ε α} (h : Rests op) {a : α} (hop : op ws = .ok a ws') :
    ws.Rests ws' := by
  obtain ⟨b, ws₁, h₁, hr⟩ := h ws
  rw [h₁] at hop
  cases hop
  exact hr

theorem freshId_ok {id : Uuid} (h : (freshId : Op ε Uuid) ws = .ok id ws') :
    id = ws.supply.ids ws.supply.drawn ∧ ws'.supply.drawn = ws.supply.drawn + 1 ∧
      ws.Rests ws' := by
  cases h
  exact ⟨rfl, rfl, rfl, rfl, rfl, rfl, Nat.le_succ _, Nat.le_refl _⟩

theorem now_ok {m : Moment} (h : (now : Op ε Moment) ws = .ok m ws') :
    m = ws.supply.clock ws.supply.read ∧ ws'.supply.read = ws.supply.read + 1 ∧
      ws.Rests ws' := by
  cases h
  exact ⟨rfl, rfl, rfl, rfl, rfl, rfl, Nat.le_refl _, Nat.le_succ _⟩

theorem Rests.not_error {op : Op ε α} (h : Rests op) {e : ε} : op ws ≠ .error e ws' := by
  obtain ⟨a, ws₁, h₁, -⟩ := h ws
  rw [h₁]
  nofun

theorem Observes.error {op : Op ε α} {f : Catalog → Except ε α} (h : Observes op f) {e : ε}
    (hop : op ws = .error e ws') : ws.Rests ws' := after_of_error hop ▸ h.rests ws

/-- However the operation goes, nothing moves but the journal and the supply. -/
def Idles (op : Op ε α) : Prop := ∀ ws : Workspace, ws.Rests (after op ws)

theorem Observes.idles {op : Op ε α} {f : Catalog → Except ε α} (h : Observes op f) : Idles op :=
  h.rests

theorem idles_pure (a : α) : Idles (pure a : Op ε α) := (observes_pure a).idles

theorem idles_lift (r : Except ε α) : Idles (lift r) := (observes_lift r).idles

theorem idles_freshId : Idles (freshId : Op ε Uuid) :=
  fun _ => ⟨rfl, rfl, rfl, rfl, Nat.le_succ _, Nat.le_refl _⟩

theorem Idles.bind {x : Op ε α} {f : α → Op ε β} (hx : Idles x) (hf : ∀ a, Idles (f a)) :
    Idles (x >>= f) := by
  intro ws
  have h₁ := hx ws
  rw [after_bind]
  cases h : x ws with
  | ok a ws₁ =>
    rw [after_of_ok h] at h₁
    exact h₁.trans (hf a ws₁)
  | error e ws₁ => rwa [after_of_error h] at h₁

theorem Idles.mapM {f : α → Op ε β} (hf : ∀ a, Idles (f a)) (as : List α) :
    Idles (as.mapM f) := by
  induction as with
  | nil => exact idles_pure []
  | cons a as ih =>
    rw [List.mapM_cons]
    exact (hf a).bind fun b => ih.bind fun bs => idles_pure (b :: bs)

/-- An attempt answers how the operation went. -/
theorem attempt_eq (op : Op ε α) (ws : Workspace) :
    (attempt op : Op β (Except ε α)) ws = match op ws with
      | .ok a ws' => .ok (.ok a) ws'
      | .error e ws' => .ok (.error e) ws' := rfl

/-- What follows an attempt goes on from an operation that has succeeded or was refused. -/
theorem attempt_bind_eq {γ : Type} {op : Op ε α} {f : Except ε α → Op γ β}
    {r : EStateM.Result γ Workspace β} (h : (attempt op >>= f) ws = r) :
    (∃ a ws₁, op ws = .ok a ws₁ ∧ f (.ok a) ws₁ = r) ∨
      ∃ e ws₁, op ws = .error e ws₁ ∧ f (.error e) ws₁ = r := by
  rw [bind_apply, attempt_eq] at h
  cases hop : op ws with
  | ok a ws₁ =>
    rw [hop] at h
    exact .inl ⟨a, ws₁, rfl, h⟩
  | error e ws₁ =>
    rw [hop] at h
    exact .inr ⟨e, ws₁, rfl, h⟩

/-! ## Operations inside a transaction -/

/-- Inside a transaction the operation leaves the store alone, however it goes. -/
def Contained (op : Op ε α) : Prop :=
  ∀ (ws : Workspace) (t : Transaction), ws.transaction = some t → ws.Stays (after op ws)

theorem Observes.contained {op : Op ε α} {f : Catalog → Except ε α} (h : Observes op f) :
    Contained op := fun ws _ ht => (h.rests ws).stays ht

theorem contained_pure (a : α) : Contained (pure a : Op ε α) := (observes_pure a).contained

theorem contained_lift (r : Except ε α) : Contained (lift r) := (observes_lift r).contained

theorem contained_throw (e : ε) : Contained (throw e : Op ε α) := (observes_throw e).contained

theorem contained_note (severity : Severity) (event : Event) (fields : List (String × String)) :
    Contained (note severity event fields : Op ε Unit) := (observes_note _ _ _).contained

theorem Contained.bind {x : Op ε α} {f : α → Op ε β} (hx : Contained x)
    (hf : ∀ a, Contained (f a)) : Contained (x >>= f) := by
  intro ws t ht
  rw [after_bind]
  have h₁ := hx ws t ht
  cases h : x ws with
  | error e ws₁ => rwa [after_of_error h] at h₁
  | ok a ws₁ =>
    rw [after_of_ok h] at h₁
    obtain ⟨t', ht'⟩ := h₁.transaction
    exact h₁.trans (hf a ws₁ t' ht')

theorem write_within [FromStore ε] {w : Write} {t : Transaction} (ht : ws.transaction = some t) :
    (write w : Op ε Bool) ws = match t.perform w with
      | .ok (answer, t') => .ok answer { ws with transaction := some t' }
      | .error e => .error (FromStore.ofStore e) ws := by
  simp only [write, bind_apply, get_apply, ht]
  cases t.perform w <;> rfl

/-- A write inside a transaction changes the catalog that operations see there. -/
theorem write_ok [FromStore ε] {w : Write} {t : Transaction} (ht : ws.transaction = some t)
    {answer : Bool} (h : (write w : Op ε Bool) ws = .ok answer ws') :
    ws.visible.perform w = .ok (answer, ws'.visible) ∧ ws.Stays ws' ∧
      ws'.supply = ws.supply := by
  rw [write_within ht] at h
  cases hp : t.perform w with
  | error e => rw [hp] at h; cases h
  | ok r =>
    obtain ⟨answer', t'⟩ := r
    rw [hp] at h
    cases h
    obtain ⟨⟨answer, next⟩, hnext, hr⟩ := bind_eq_ok_iff.1 hp
    injection hr with hr
    injection hr with h1 h2
    subst h1 h2
    have hvisible : ws.visible = t.working := by rw [Workspace.visible, ht]
    rw [hvisible]
    exact ⟨hnext, ⟨rfl, ⟨_, rfl⟩, .refl _, fun hk => (hvisible ▸ hk).perform hnext⟩, rfl⟩

theorem contained_write [FromStore ε] (w : Write) : Contained (write w : Op ε Bool) := by
  intro ws t ht
  cases hw : (write w : Op ε Bool) ws with
  | ok answer ws' =>
    rw [after_of_ok hw]
    exact (write_ok ht hw).2.1
  | error e ws' =>
    rw [after_of_error hw]
    rw [write_within ht] at hw
    split at hw
    · cases hw
    · cases hw
      exact (Workspace.Rests.refl ws).stays ht

theorem contained_freshId : Contained (freshId : Op ε Uuid) :=
  fun _ t ht => ⟨rfl, ⟨t, ht⟩, ⟨rfl, rfl, Nat.le_succ _, Nat.le_refl _⟩, id⟩

theorem contained_now : Contained (now : Op ε Moment) :=
  fun _ t ht => ⟨rfl, ⟨t, ht⟩, ⟨rfl, rfl, Nat.le_refl _, Nat.le_succ _⟩, id⟩

/-! ## Whole transactions -/

/-- What becomes of a catalog to which a transaction is committed: it stays if the transaction
holds the same, and otherwise has the collections of the transaction. -/
def Settles (before working committed : Catalog) : Prop :=
  committed = before ∧ working.same before = true ∨ committed.collections = working.collections

/-- A transaction in the order of its steps. -/
theorem inTransaction_eq [FromStore ε] (work : Op ε α) (ws : Workspace) :
    inTransaction work ws =
      let ws₂ := after work ws.opened
      let t := ws₂.transaction.getD ws.store.begin
      let ws₃ := { ws₂ with transaction := none }
      match work ws.opened with
      | .ok a _ => (commitTransaction t >>= fun _ => pure a : Op ε α) ws₃
      | .error e _ => (abortTransaction t >>= fun _ => throw e : Op ε α) ws₃ := by
  have hbegin : (beginTransaction : Op ε Transaction) ws = .ok ws.store.begin { ws with
      journal := ws.journal ++ [.of .trace Event.transactionBegin.text
        [("base_version", toString ws.store.begin.base)]] } := rfl
  have hwithin : ∀ ws : Workspace, ∀ t : Transaction, (within t work : Op ε _) ws =
      match work { ws with transaction := some t } with
      | .ok a ws' => .ok (.ok a, ws'.transaction.getD t) { ws' with transaction := none }
      | .error e ws' => .ok (.error e, ws'.transaction.getD t) { ws' with transaction := none } := by
    intro ws t
    simp only [within, bind_apply, get_apply, modify_apply, attempt]
    cases work { ws with transaction := some t } <;> rfl
  rw [inTransaction, bind_apply, hbegin, after, Workspace.opened]
  show (_ >>= _ : Op ε α) _ = _
  rw [bind_apply, hwithin]
  cases work _ <;> rfl

/-- After the work of a transaction the store is as it was, and the transaction holds what the
work left to be seen. -/
theorem after_work {work : Op ε α} (hw : Contained work) (ws : Workspace) :
    ws.opened.Stays (after work ws.opened) ∧
      ((after work ws.opened).transaction.getD ws.store.begin).working =
        (after work ws.opened).visible := by
  have hs := hw ws.opened _ rfl
  obtain ⟨t, ht⟩ := hs.transaction
  exact ⟨hs, by rw [Workspace.visible, ht, Option.getD_some]⟩

theorem abortTransaction_eq (t : Transaction) (ws : Workspace) :
    (abortTransaction t : Op ε Unit) ws = .ok () { ws with
      store := ws.store.countAborted
      journal := ws.journal ++ [.of .trace Event.transactionAbort.text
        [("base_version", toString t.base)]] } := rfl

theorem commitTransaction_eq [FromStore ε] (t : Transaction) (ws : Workspace) :
    (commitTransaction t : Op ε Unit) ws = match ws.store.commit t with
      | .ok next => .ok () { ws.install next with
          journal := ws.journal ++ [.of .trace Event.transactionCommit.text
            [("version", toString next.catalog.version)]] }
      | .error e => .error (FromStore.ofStore e) { ws with
          store := ws.store.countAborted
          journal := ws.journal ++ [.of .trace Event.transactionAbort.text
            [("base_version", toString t.base)]] } := by
  simp only [commitTransaction, bind_apply, get_apply]
  cases ws.store.commit t <;> rfl

/-- A transaction is committed on the version that it began with. -/
theorem commit_ok {s next : Store} {t : Transaction} (h : s.commit t = .ok next) :
    next.catalog = (s.advance t.working).catalog := by
  unfold Store.commit at h
  split at h
  · injection h with h
    rw [← h]
    rfl
  · cases h

theorem settles_advance (s : Store) (working : Catalog) :
    Settles s.catalog working (s.advance working).catalog := by
  unfold Store.advance
  split
  · rename_i h
    exact .inl ⟨rfl, h⟩
  · exact .inr rfl

/-- A transaction that succeeds did its work on a copy of the catalog, which is then committed. -/
theorem inTransaction_ok [FromStore ε] {work : Op ε α} (hw : Contained work) {a : α}
    (h : inTransaction work ws = .ok a ws') :
    ∃ ws₂, work ws.opened = .ok a ws₂ ∧ ws.opened.Stays ws₂ ∧ ws'.transaction = none ∧
      ws'.supply = ws₂.supply ∧ Settles ws.store.catalog ws₂.visible ws'.store.catalog := by
  obtain ⟨hstays, hworking⟩ := after_work hw ws
  refine ⟨after work ws.opened, ?_⟩
  rw [inTransaction_eq] at h
  split at h
  · rename_i b ws₂ hwork
    obtain ⟨_, ws₃, hcommit, hret⟩ := bind_eq_ok.1 h
    cases hret
    rw [commitTransaction_eq] at hcommit
    split at hcommit
    · rename_i next hnext
      cases hcommit
      refine ⟨by rw [after_of_ok hwork, hwork], hstays, rfl, rfl, ?_⟩
      have hsettles := settles_advance ws.store (after work ws.opened).visible
      rw [← hworking] at hsettles ⊢
      have hnext := commit_ok hnext
      simp only [hstays.store] at hnext
      show Settles ws.store.catalog _ next.catalog
      rw [hnext]
      exact hsettles
    · cases hcommit
  · obtain ⟨_, ws₃, -, hret⟩ := bind_eq_ok.1 h
    cases hret

/-- After a transaction that was refused the catalog is what it was. -/
theorem inTransaction_error [FromStore ε] {work : Op ε α} (hw : Contained work) {e : ε}
    (h : inTransaction work ws = .error e ws') : ws.Unchanged ws' := by
  have hstays := (after_work hw ws).1
  have hcatalog : (after work ws.opened).store.catalog = ws.store.catalog :=
    congrArg Store.catalog hstays.store
  rw [inTransaction_eq] at h
  split at h
  · rcases bind_eq_error h with h | ⟨_, _, -, h⟩
    · rw [commitTransaction_eq] at h
      split at h
      · cases h
      · cases h
        exact ⟨hcatalog, rfl, hstays.supply⟩
    · cases h
  · rcases bind_eq_error h with h | ⟨_, ws₃, habort, h⟩
    · cases h
    · rw [abortTransaction_eq] at habort
      cases habort
      cases h
      exact ⟨hcatalog, rfl, hstays.supply⟩

/-- What is committed holds what the transaction held. -/
theorem Settles.keptAs {before working committed : Catalog}
    (h : Settles before working committed) : working.KeptAs committed := by
  rcases h with ⟨rfl, h⟩ | h
  · exact Catalog.keptAs_of_same h
  · exact fun q => .inl (by rw [h])

theorem Settles.keeps {before working committed : Catalog} (h : Settles before working committed)
    (hb : before.Keeps) (hw : working.Keeps) : committed.Keeps := by
  rcases h with ⟨rfl, -⟩ | h
  · exact hb
  · intro q state hs
    exact hw q state (h ▸ hs)

/-- A collection that the transaction left alone is left alone by its commit. -/
theorem Settles.frame {before working committed : Catalog} (h : Settles before working committed)
    {q : String} (hq : working.collections.get? q = before.collections.get? q) :
    committed.collections.get? q = before.collections.get? q := by
  rcases h with ⟨rfl, -⟩ | h
  · rfl
  · rw [h, hq]

/-- The work was done in a transaction of its own, with nothing but lines in the journal before
and after it. -/
structure Ran (work : Op ε α) (a : α) (ws ws₁ ws₂ ws' : Workspace) : Prop where
  start : ws.Rests ws₁
  work : work ws₁.opened = .ok a ws₂
  stays : ws₁.opened.Stays ws₂
  closed : ws'.transaction = none
  supply : ws₂.supply.Later ws'.supply
  settles : Settles ws.store.catalog ws₂.visible ws'.store.catalog

theorem ran_of_inTransaction [FromStore ε] {work : Op ε α} (hw : Contained work) {a : α}
    {ws₁ ws₃ : Workspace} (hr : ws.Rests ws₁) (h : inTransaction work ws₁ = .ok a ws₃)
    (hr' : ws₃.Rests ws') : ∃ ws₂, Ran work a ws ws₁ ws₂ ws' := by
  obtain ⟨ws₂, hwork, hstays, hclosed, hsupply, hsettles⟩ := inTransaction_ok hw h
  refine ⟨ws₂, hr, hwork, hstays, hr'.transaction.trans hclosed, ?_, ?_⟩
  · rw [← hsupply]
    exact hr'.supply
  · rw [← hr.store, congrArg Store.catalog hr'.store]
    exact hsettles

theorem Ran.supply_later {work : Op ε α} {a : α} {ws₁ ws₂ : Workspace}
    (h : Ran work a ws ws₁ ws₂ ws') : ws.supply.Later ws'.supply :=
  h.start.supply.trans (h.stays.supply.trans h.supply)

theorem Ran.visible {work : Op ε α} {a : α} {ws₁ ws₂ : Workspace}
    (h : Ran work a ws ws₁ ws₂ ws') : ws₁.opened.visible = ws.store.catalog :=
  congrArg Store.catalog h.start.store

theorem Ran.keeps {work : Op ε α} {a : α} {ws₁ ws₂ : Workspace} (h : Ran work a ws ws₁ ws₂ ws')
    (hk : ws.store.catalog.Keeps) : ws'.store.catalog.Keeps :=
  h.settles.keeps hk (h.stays.keeps (h.visible ▸ hk))

theorem Ran.commits {work : Op ε α} {a : α} {ws₁ ws₂ : Workspace}
    (h : Ran work a ws ws₁ ws₂ ws') : ws.Commits ws' :=
  ⟨h.closed, h.supply_later, h.keeps⟩

/-- Where an operation begins by looking, its refusal changes nothing if that of the rest does
not. -/
theorem Observes.unchanged_bind {x : Op ε α} {g : Catalog → Except ε α} (hx : Observes x g)
    {f : α → Op ε β} {e : ε} (ht : ws.transaction = none) (h : (x >>= f) ws = .error e ws')
    (hf : ∀ a ws₁, ws₁.transaction = none → f a ws₁ = .error e ws' → ws₁.Unchanged ws') :
    ws.Unchanged ws' := by
  rcases bind_eq_error h with h | ⟨a, ws₁, hok, h⟩
  · exact (hx.error h).unchanged ht
  · have hr := (hx.ok hok).2
    exact (hr.unchanged ht).trans (hf a ws₁ (hr.transaction.trans ht) h)

theorem Rests.unchanged_bind {x : Op ε α} (hx : Rests x) {f : α → Op ε β} {e : ε}
    (ht : ws.transaction = none) (h : (x >>= f) ws = .error e ws')
    (hf : ∀ a ws₁, ws₁.transaction = none → f a ws₁ = .error e ws' → ws₁.Unchanged ws') :
    ws.Unchanged ws' := by
  rcases bind_eq_error h with h | ⟨a, ws₁, hok, h⟩
  · exact absurd h hx.not_error
  · have hr := hx.ok hok
    exact (hr.unchanged ht).trans (hf a ws₁ (hr.transaction.trans ht) h)

/-- A transaction that is attempted and refused changes nothing if what follows does not. -/
theorem unchanged_attempt [FromStore ε] {work : Op ε α} (hw : Contained work)
    {f : Except ε α → Op ε β} {e : ε} (h : (attempt (inTransaction work) >>= f) ws = .error e ws')
    (hok : ∀ a ws₁, f (.ok a) ws₁ ≠ .error e ws')
    (herror : ∀ e' ws₁, f (.error e') ws₁ = .error e ws' → ws₁.Rests ws') :
    ws.Unchanged ws' := by
  rcases attempt_bind_eq h with ⟨a, ws₁, -, h⟩ | ⟨e', ws₁, hrun, h⟩
  · exact absurd h (hok a ws₁)
  · have hu := inTransaction_error hw hrun
    exact hu.trans ((herror e' ws₁ h).unchanged hu.transaction)

end Op
end SchemaKeeper
