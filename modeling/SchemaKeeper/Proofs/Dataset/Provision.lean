import SchemaKeeper.Dataset.Provision
import SchemaKeeper.Proofs.Layout.Validators
import SchemaKeeper.Proofs.Validator.Form
import SchemaKeeper.Proofs.Workspace

/-!
# What provisioning does to a catalog

Laying a schema out touches no documents and no collections but those of the schema.  Afterwards
each of these exists and has the document of its rule as validator.
-/
namespace SchemaKeeper

namespace Catalog

/-- The documents of a collection, none where there is no collection. -/
def documents (c : Catalog) (name : String) : Keyed Json :=
  match c.collections.get? name with
  | some state => state.documents
  | none => .empty

theorem documentAt_eq (c : Catalog) (name id : String) :
    c.documentAt name id = (c.documents name).get? id := by
  unfold documentAt documents
  cases c.collections.get? name <;> rfl

/-- From one catalog to another only collections of certain names changed, none of them in its
documents, and none is gone. -/
structure Outfits (p : String → Prop) (c c' : Catalog) : Prop where
  frame : ∀ q, ¬ p q → c'.collections.get? q = c.collections.get? q
  documents : ∀ q, c'.documents q = c.documents q
  contains : ∀ q, c.collections.contains q = true → c'.collections.contains q = true

variable {p p' : String → Prop} {c c' c'' : Catalog}

theorem Outfits.refl (p : String → Prop) (c : Catalog) : Outfits p c c :=
  ⟨fun _ _ => rfl, fun _ => rfl, fun _ h => h⟩

theorem Outfits.trans (h : Outfits p c c') (h' : Outfits p c' c'') : Outfits p c c'' :=
  ⟨fun q hq => (h'.frame q hq).trans (h.frame q hq),
    fun q => (h'.documents q).trans (h.documents q),
    fun q hq => h'.contains q (h.contains q hq)⟩

theorem Outfits.mono (h : Outfits p c c') (hp : ∀ q, p q → p' q) : Outfits p' c c' :=
  ⟨fun q hq => h.frame q fun hpq => hq (hp q hpq), h.documents, h.contains⟩

/-- A collection is replaced by one with its documents. -/
theorem outfits_insert {name : String} {state : Collection} (hp : p name)
    (hs : state.documents = c.documents name)
    (hc : c'.collections = c.collections.insert name state) : Outfits p c c' := by
  have hget : ∀ q, c'.collections.get? q =
      if name = q then some state else c.collections.get? q := by
    intro q
    rw [hc, Keyed.get?_insert]
  refine ⟨fun q hq => ?_, fun q => ?_, fun q hq => ?_⟩
  · have hne : name ≠ q := fun h => hq (h ▸ hp)
    rw [hget, if_neg hne]
  · unfold Catalog.documents
    rw [hget]
    by_cases hq : name = q
    · subst hq
      simpa [Catalog.documents] using hs
    · rw [if_neg hq]
  · rw [hc]
    exact Keyed.contains_insert hq

end Catalog

open Catalog Op

namespace Provision
variable {p p' : String → Prop} {ws ws₁ ws' : Workspace} {t : Transaction} {name : String}

/-- Inside a transaction only collections of certain names changed, none in its documents. -/
structure Reaches (p : String → Prop) (ws ws' : Workspace) : Prop where
  stays : ws.Stays ws'
  outfits : Outfits p ws.visible ws'.visible

theorem Reaches.trans (h : Reaches p ws ws₁) (h' : Reaches p ws₁ ws') : Reaches p ws ws' :=
  ⟨h.stays.trans h'.stays, h.outfits.trans h'.outfits⟩

theorem Reaches.mono (h : Reaches p ws ws') (hp : ∀ q, p q → p' q) : Reaches p' ws ws' :=
  ⟨h.stays, h.outfits.mono hp⟩

theorem reaches_of_rests (h : ws.Rests ws') (ht : ws.transaction = some t) : Reaches p ws ws' :=
  ⟨h.stays ht, h.visible ▸ .refl p _⟩

theorem reaches_note {severity : Severity} {event : Event} {fields : List (String × String)}
    (ht : ws.transaction = some t)
    (h : (Op.note severity event fields : Op Refusal Unit) ws = .ok () ws') : Reaches p ws ws' :=
  reaches_of_rests ((observes_note severity event fields).ok h).2 ht

/-! ## Single writes -/

theorem createCollection_reaches {answer : Bool} (ht : ws.transaction = some t)
    (h : (Op.write (.createCollection name) : Op Refusal Bool) ws = .ok answer ws') :
    Reaches (· = name) ws ws' ∧ ws'.visible.collections.contains name = true := by
  obtain ⟨hp, hs, -⟩ := write_ok ht h
  obtain ⟨hn, hc⟩ := createCollection_ok hp
  refine ⟨⟨hs, outfits_insert rfl ?_ (congrArg Catalog.collections hc)⟩, ?_⟩
  · rw [Catalog.documents, hn]
    rfl
  · rw [hc, Keyed.contains, get?_setCollection, if_pos rfl]
    rfl

theorem createIndex_reaches {index : Index} {answer : Bool} (ht : ws.transaction = some t)
    (h : (Op.write (.createIndex name index) : Op Refusal Bool) ws = .ok answer ws') :
    Reaches (· = name) ws ws' := by
  obtain ⟨hp, hs, -⟩ := write_ok ht h
  obtain ⟨state, indexes, hstate, hc⟩ := createIndex_ok hp
  refine ⟨hs, outfits_insert rfl ?_ hc⟩
  rw [Catalog.documents, hstate]

theorem setValidator_reaches {document : Json} {answer : Bool} (ht : ws.transaction = some t)
    (h : (Op.write (.setValidator name document) : Op Refusal Bool) ws = .ok answer ws') :
    Reaches (· = name) ws ws' ∧ ∃ state, ws'.visible.collections.get? name = some state ∧
      state.validator = some document := by
  obtain ⟨hp, hs, -⟩ := write_ok ht h
  obtain ⟨state, hstate, hc⟩ := setValidator_ok hp
  refine ⟨⟨hs, outfits_insert rfl ?_ (congrArg Catalog.collections hc)⟩, ?_⟩
  · rw [Catalog.documents, hstate]
  · exact ⟨_, by rw [hc, get?_setCollection, if_pos rfl], rfl⟩

/-! ## Indexes, collections and validators -/

theorem ensureIndexes_ok {indexes : List Index} (ht : ws.transaction = some t)
    (h : ensureIndexes name indexes ws = .ok () ws') : Reaches (· = name) ws ws' := by
  induction indexes generalizing ws t with
  | nil =>
    cases h
    exact reaches_of_rests (.refl _) ht
  | cons index rest ih =>
    obtain ⟨answer, ws₁, hw, h⟩ := bind_eq_ok.1 h
    have h₁ := createIndex_reaches ht hw
    obtain ⟨t₁, ht₁⟩ := h₁.stays.transaction
    split at h
    · obtain ⟨⟨⟩, ws₂, hn, h⟩ := bind_eq_ok.1 h
      have h₂ : Reaches (· = name) ws₁ ws₂ := reaches_note ht₁ hn
      obtain ⟨t₂, ht₂⟩ := h₂.stays.transaction
      exact (h₁.trans h₂).trans (ih ht₂ h)
    · exact h₁.trans (ih ht₁ h)

/-- The first collection of the list was found before, or it is created; then come its indexes and
the rest of the list. -/
theorem ensureCollections_cons_ok {s : Schema} {existing : Keyed Unit} {path name : String}
    {rest : List (String × String)}
    (h : ensureCollections s existing ((path, name) :: rest) ws = .ok () ws') :
    ∃ ws₁ ws₂, ((existing.contains name = true ∧ ws₁ = ws) ∨ ∃ answer ws₀,
        (Op.write (.createCollection name) : Op Refusal Bool) ws = .ok answer ws₀ ∧
          ws₀.Rests ws₁) ∧
      (ensureIndexes name (indexesAt s path) : Op Refusal Unit) ws₁ = .ok () ws₂ ∧
      ensureCollections s existing rest ws₂ = .ok () ws' := by
  rw [ensureCollections] at h
  split at h
  · obtain ⟨⟨⟩, ws₀, hw, h⟩ := bind_eq_ok.1 h
    obtain ⟨answer, _, hw, hd⟩ := bind_eq_ok.1 hw
    cases hd
    obtain ⟨⟨⟩, ws₁, hn, h⟩ := bind_eq_ok.1 h
    obtain ⟨⟨⟩, ws₂, hi, h⟩ := bind_eq_ok.1 h
    exact ⟨ws₁, ws₂, .inr ⟨answer, ws₀, hw, ((observes_note _ _ _).ok hn).2⟩, hi, h⟩
  · rename_i hc
    obtain ⟨⟨⟩, ws₂, hi, h⟩ := bind_eq_ok.1 h
    exact ⟨ws, ws₂, .inl ⟨by simpa using hc, rfl⟩, hi, h⟩

/-- Afterwards all collections of the list exist, if those do that were found before. -/
theorem ensureCollections_ok {s : Schema} {existing : Keyed Unit}
    {es : List (String × String)} (ht : ws.transaction = some t)
    (hex : ∀ q, existing.contains q = true → ws.visible.collections.contains q = true)
    (h : ensureCollections s existing es ws = .ok () ws') :
    Reaches (· ∈ es.map Prod.snd) ws ws' ∧
      ∀ e ∈ es, ws'.visible.collections.contains e.2 = true := by
  induction es generalizing ws t with
  | nil =>
    cases h
    exact ⟨reaches_of_rests (.refl _) ht, by simp⟩
  | cons e rest ih =>
    obtain ⟨path, name⟩ := e
    obtain ⟨ws₁, ws₂, hhead, hi, h⟩ := ensureCollections_cons_ok h
    have hmade : Reaches (· = name) ws ws₁ ∧
        ws₁.visible.collections.contains name = true := by
      rcases hhead with ⟨hc, rfl⟩ | ⟨answer, ws₀, hw, hrests⟩
      · exact ⟨reaches_of_rests (.refl _) ht, hex name hc⟩
      · obtain ⟨h₀, hc⟩ := createCollection_reaches ht hw
        obtain ⟨t₀, ht₀⟩ := h₀.stays.transaction
        exact ⟨h₀.trans (reaches_of_rests hrests ht₀), hrests.visible.symm ▸ hc⟩
    obtain ⟨h₁, hc⟩ := hmade
    obtain ⟨t₁, ht₁⟩ := h₁.stays.transaction
    have h₂ := ensureIndexes_ok ht₁ hi
    obtain ⟨t₂, ht₂⟩ := h₂.stays.transaction
    obtain ⟨h₃, hrest⟩ := ih ht₂
      (fun q hq => (h₁.trans h₂).outfits.contains q (hex q hq)) h
    refine ⟨((h₁.trans h₂).mono ?_).trans (h₃.mono ?_), List.forall_mem_cons.2 ⟨?_, hrest⟩⟩
    · rintro q rfl
      simp
    · intro q hq
      exact List.mem_cons_of_mem _ hq
    · exact h₃.outfits.contains _ (h₂.outfits.contains _ hc)

/-- A validator that agrees with the document of a rule is this document, which has no
fractions. -/
theorem eq_of_sameValidator {installed : Option Json} {rule : Rule}
    (h : Collection.sameValidator installed (some rule.document) = true) :
    installed = some rule.document := by
  cases installed with
  | none => cases h
  | some j => rw [Json.eq_of_same rule.floatFree_document h]

theorem installValidator_ok {rule : Rule} {answer : Bool} (ht : ws.transaction = some t)
    (h : (installValidator name rule : Op Refusal Bool) ws = .ok answer ws') :
    Reaches (· = name) ws ws' ∧ ∃ state, ws'.visible.collections.get? name = some state ∧
      state.validator = some rule.document := by
  obtain ⟨installed, ws₁, hq, h⟩ := bind_eq_ok.1 h
  obtain ⟨hread, hr⟩ := (observes_query _).ok hq
  have h₁ : Reaches (· = name) ws ws₁ := reaches_of_rests hr ht
  obtain ⟨t₁, ht₁⟩ := h₁.stays.transaction
  split at h
  · rename_i hsame
    obtain ⟨⟨⟩, ws₂, hn, h⟩ := bind_eq_ok.1 h
    cases h
    have hvis := ((observes_note _ _ _).ok hn).2.visible
    refine ⟨h₁.trans (reaches_note ht₁ hn), ?_⟩
    cases hs : ws.visible.collections.get? name with
    | none => simp [Catalog.validatorOf, Catalog.collection, hs, Except.map, Except.mapError] at hread
    | some state =>
      simp only [Catalog.validatorOf, Catalog.collection, hs, Except.map, Except.mapError,
        Except.ok.injEq] at hread
      exact ⟨state, by rw [hvis, hr.visible, hs], hread.trans (eq_of_sameValidator hsame)⟩
  · obtain ⟨⟨⟩, ws₂, hw, h⟩ := bind_eq_ok.1 h
    obtain ⟨answer, ws₃, hw, hd⟩ := bind_eq_ok.1 hw
    cases hd
    obtain ⟨h₂, state, hs, hv⟩ := setValidator_reaches ht₁ hw
    obtain ⟨t₂, ht₂⟩ := h₂.stays.transaction
    obtain ⟨⟨⟩, ws₄, hn, h⟩ := bind_eq_ok.1 h
    cases h
    have hvis := ((observes_note _ _ _).ok hn).2.visible
    exact ⟨(h₁.trans h₂).trans (reaches_note ht₂ hn), state, hvis ▸ hs, hv⟩

/-- Afterwards every collection of the list has the document of its rule as validator. -/
theorem installValidators_ok {rules : List (String × Rule)} (ht : ws.transaction = some t)
    (ho : Entries.Ordered rules) (h : installValidators rules ws = .ok () ws') :
    Reaches (· ∈ rules.map Prod.fst) ws ws' ∧ ∀ e ∈ rules, ∃ state,
      ws'.visible.collections.get? e.1 = some state ∧ state.validator = some e.2.document := by
  induction rules generalizing ws t with
  | nil =>
    cases h
    exact ⟨reaches_of_rests (.refl _) ht, by simp⟩
  | cons e rest ih =>
    obtain ⟨name, rule⟩ := e
    obtain ⟨hlt, hrest⟩ := Entries.ordered_cons.1 ho
    obtain ⟨⟨⟩, ws₁, hi, h⟩ := bind_eq_ok.1 h
    obtain ⟨answer, ws₂, hi, hd⟩ := bind_eq_ok.1 hi
    cases hd
    obtain ⟨h₁, state, hs, hv⟩ := installValidator_ok ht hi
    obtain ⟨t₁, ht₁⟩ := h₁.stays.transaction
    obtain ⟨h₂, hin⟩ := ih ht₁ hrest h
    refine ⟨(h₁.mono ?_).trans (h₂.mono ?_), List.forall_mem_cons.2 ⟨⟨state, ?_, hv⟩, hin⟩⟩
    · rintro q rfl
      simp
    · intro q hq
      exact List.mem_cons_of_mem _ hq
    · -- The names further on are greater, so this validator stays installed.
      rw [h₂.outfits.frame, hs]
      intro hmem
      obtain ⟨e, he, hname⟩ := List.mem_map.1 hmem
      exact Entries.key_ne_of_lt (hlt e he) hname.symm

/-! ## Laying out a schema -/

theorem define_eq (s : Schema) (known : Collections) (ws : Workspace) :
    define s known ws =
      match Layout.define ws.supply.ids known ws.supply.drawn s.entries with
      | .ok (ds, n) => .ok ds { ws with supply := { ws.supply with drawn := n } }
      | .error e => .error e ws := by
  simp only [define, Op.bind_apply, Op.get_apply]
  cases Layout.define ws.supply.ids known ws.supply.drawn s.entries <;> rfl

/-- What a schema was laid out as, and what became of the catalog: only the collections of the
schema changed, none in its documents, and each has the document of its rule as validator. -/
structure LaidOut (ids : Nat → Uuid) (known : Collections) (s : Schema) (drawn drawn' : Nat)
    (c c' : Catalog) (provision : Provision) : Prop where
  define : ∃ n, Layout.define ids known drawn s.entries = .ok (provision.definitions, n) ∧
    n ≤ drawn'
  validators : Layout.validators provision.collections s = .ok provision.validators
  outfits : Outfits (· ∈ provision.collections.values) c c'
  exist : ∀ q ∈ provision.collections.values, c'.collections.contains q = true
  installed : ∀ q rule, provision.validators.get? q = some rule → ∃ state,
    c'.collections.get? q = some state ∧ state.validator = some rule.document

theorem make_ok {s : Schema} {known : Collections} {provision : Provision}
    (ht : ws.transaction = some t) (h : make s known ws = .ok provision ws') :
    ws.Stays ws' ∧ LaidOut ws.supply.ids known s ws.supply.drawn ws'.supply.drawn ws.visible
      ws'.visible provision := by
  obtain ⟨ds, ws₁, hd, h₁⟩ := bind_eq_ok.1 h
  obtain ⟨v, ws₂, hv, h₂⟩ := bind_eq_ok.1 h₁
  obtain ⟨catalog, ws₃, hc, h₃⟩ := bind_eq_ok.1 h₂
  obtain ⟨⟨⟩, ws₄, he, h₄⟩ := bind_eq_ok.1 h₃
  obtain ⟨⟨⟩, ws₅, hi, h₅⟩ := bind_eq_ok.1 h₄
  cases h₅
  obtain ⟨hvalidators, hws⟩ := lift_eq_ok.1 hv
  subst hws
  obtain ⟨hcat, hr⟩ := observes_catalog.ok hc
  injection hcat with hcat
  rw [define_eq] at hd
  split at hd
  · rename_i ds' n hdefine
    cases hd
    have hdrawn : ws.Rests { ws with supply := { ws.supply with drawn := n } } :=
      ⟨rfl, rfl, rfl, rfl, (Layout.define_ok hdefine).1, Nat.le_refl _⟩
    have h₆ : Reaches (· ∈ (FieldDefinition.collections ds).values) ws ws₃ :=
      reaches_of_rests (hdrawn.trans hr) ht
    obtain ⟨t₃, ht₃⟩ := h₆.stays.transaction
    have hexisting : ∀ q, (catalog.existing (FieldDefinition.collections ds).values).contains q =
        true → ws₃.visible.collections.contains q = true := by
      intro q hq
      obtain ⟨⟨⟩, hq⟩ := Keyed.contains_iff.1 hq
      obtain ⟨name, hname, heq⟩ := List.mem_map.1 (Keyed.mem_of_get?_ofList hq)
      injection heq with heq
      subst heq
      rw [hr.visible, hcat]
      exact (List.mem_filter.1 hname).2
    obtain ⟨h₇, hin⟩ := ensureCollections_ok ht₃ hexisting he
    obtain ⟨t₄, ht₄⟩ := h₇.stays.transaction
    obtain ⟨h₈, hinstalled⟩ := installValidators_ok ht₄ v.ordered hi
    have hkeys : ∀ q, q ∈ v.entries.map Prod.fst →
        q ∈ (FieldDefinition.collections ds).values := by
      intro q hq
      obtain ⟨rule, hrule⟩ := Keyed.mem_keys.1 hq
      obtain ⟨path, k, ps, hpath, -⟩ := (Layout.validators_speak hvalidators q rule hrule).titled
      exact Keyed.mem_values.2 ⟨path, hpath⟩
    have h₉ : Reaches (· ∈ (FieldDefinition.collections ds).values) ws₄ ws' := h₈.mono hkeys
    have hall := (h₆.trans h₇).trans h₉
    have hn := Nat.le_trans hr.supply.drawn (h₇.trans h₉).stays.supply.drawn
    refine ⟨hall.stays, ⟨n, hdefine, hn⟩, hvalidators, hall.outfits, ?_, ?_⟩
    · intro q hq
      obtain ⟨e, hmem, rfl⟩ := List.mem_map.1 hq
      exact h₉.outfits.contains _ (hin e hmem)
    · intro q rule hrule
      exact hinstalled (q, rule) (Keyed.mem_entries_iff.2 hrule)
  · cases hd

/-! ## However it goes -/

theorem contained_ensureIndexes (name : String) :
    ∀ indexes : List Index, Contained (ensureIndexes name indexes)
  | [] => contained_pure ()
  | index :: rest => by
    refine (contained_write _).bind fun answer => ?_
    split
    · exact (contained_note _ _ _).bind fun _ => contained_ensureIndexes name rest
    · exact contained_ensureIndexes name rest

theorem contained_ensureCollections (s : Schema) (existing : Keyed Unit) :
    ∀ es : List (String × String), Contained (ensureCollections s existing es)
  | [] => contained_pure ()
  | (path, name) :: rest => by
    have hrest := (contained_ensureIndexes name (indexesAt s path)).bind fun _ =>
      contained_ensureCollections s existing rest
    rw [ensureCollections]
    split
    · exact ((contained_write _).bind fun _ => contained_pure ()).bind fun _ =>
        (contained_note _ _ _).bind fun _ => hrest
    · exact hrest

theorem contained_installValidators (rules : List (String × Rule)) :
    Contained (installValidators rules) := by
  induction rules with
  | nil => exact contained_pure ()
  | cons e rest ih =>
    obtain ⟨name, rule⟩ := e
    have hone : Contained (installValidator name rule : Op Refusal Bool) := by
      refine (observes_query _).contained.bind fun installed => ?_
      split
      · exact (contained_note _ _ _).bind fun _ => contained_pure false
      · exact ((contained_write _).bind fun _ => contained_pure ()).bind fun _ =>
          (contained_note _ _ _).bind fun _ => contained_pure true
    exact (hone.bind fun _ => contained_pure ()).bind fun _ => ih

theorem contained_define (s : Schema) (known : Collections) : Contained (define s known) := by
  intro ws t ht
  rw [Op.after, define_eq]
  cases hd : Layout.define ws.supply.ids known ws.supply.drawn s.entries with
  | error e => exact (Workspace.Rests.refl ws).stays ht
  | ok r =>
    obtain ⟨ds, n⟩ := r
    exact Workspace.Rests.stays ⟨rfl, rfl, rfl, rfl, (Layout.define_ok hd).1, Nat.le_refl _⟩ ht

theorem contained_make (s : Schema) (known : Collections) : Contained (make s known) :=
  (contained_define s known).bind fun _ => (contained_lift _).bind fun _ =>
    observes_catalog.contained.bind fun _ => (contained_ensureCollections s _ _).bind fun _ =>
      (contained_installValidators _).bind fun _ => contained_pure _

/-! ## Reading a schema back -/

theorem observes_forM_note {severity : Severity} {event : Event}
    {fields : String → List (String × String)} :
    ∀ paths : List String, Observes (paths.forM fun path =>
      (Op.note severity event (fields path) : Op Refusal Unit)) fun _ => .ok ()
  | [] => observes_pure ()
  | _ :: rest => (observes_note _ _ _).bind fun _ => observes_forM_note rest

/-- A schema is read back from definitions and validators alone. -/
theorem observes_recover (ds : List FieldDefinition) (v : Validators) (r : Registry) :
    Observes (recover ds v r) fun _ => Layout.schema ds v r :=
  (observes_forM_note _).bind fun _ => observes_lift _

end Provision
end SchemaKeeper
