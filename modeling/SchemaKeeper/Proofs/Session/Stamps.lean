import SchemaKeeper.Proofs.Dataset.Stamps
import SchemaKeeper.Proofs.Session.Committable
import SchemaKeeper.Proofs.Session.Rooted

/-!
# Loads only stamp, and idle commits do nothing

Whatever was done before, with each name of a class denoting one class: to load a dataset with a
document at its root changes nothing in the store but the time of loading in its definition, and a
client that has edited nothing, and whose dataset nobody has stored anew since it got it, commits
without any change.  A dataset that lost its root to an unchecked edit is another matter.
-/
namespace SchemaKeeper

open Catalog Op Provision

namespace World
variable {guarded : Prop} {v : Vocabulary} {c c' : Connection} {l : Ledger} {w w₀ : World}
  {e : Deed} {deeds : List Deed} {d : Dataset} {definition : Definition}

/-! ## What a session keeps -/

/-- What a deed brings has the indexes that its classes ask for. -/
theorem Brings.furnishes (hd : w.Brings e d) (ho : e.Over c) (he : e.Uses (v.Binds c) v.Has)
    (ht : w.workspace.transaction = none) (hw : w.Uses (v.Binds c) v.Has) :
    ∃ held, d.standing = .attached held ∧
      (w.does e).workspace.store.catalog.Furnishes v held.definition := by
  cases hd with
  | create granted =>
    rw [does_create granted]
    exact Dataset.createFrom_furnishes he.2 granted
  | load granted =>
    rw [does_load granted]
    exact Dataset.load_furnishes ho.2 ht he granted
  | commit client granted =>
    rw [does_commit client granted]
    exact Dataset.commit_furnishes (hw _ _ client) granted

/-- A deed leaves every stored definition with its indexes. -/
theorem does_furnishes (ho : e.Over c) (he : e.Uses (v.Binds c) v.Has) (h : Steady guarded c l w)
    (hf : (w.does e).workspace.supply.Fits c.definitions) (hw : w.Uses (v.Binds c) v.Has)
    (hall : w.workspace.store.catalog.AllStored c (Furnishes v)) :
    (w.does e).workspace.store.catalog.AllStored c (Furnishes v) := by
  refine does_allStored isLocal_furnishes ho h hf hall (fun d held hbrings hstanding _ => ?_)
    fun i x r ws client granted _ d hd => ?_
  · obtain ⟨held', hstanding', hfurnishes⟩ := hbrings.furnishes ho he h.closed hw
    rw [hstanding] at hstanding'
    injection hstanding' with hheld
    exact hheld ▸ hfurnishes
  · exact hd.of_indexes fun q _ => (Dataset.saveRecord_furnishedAs granted).indexes q

/-- What a session keeps in which each name of a class denotes one class: all that belongs to the
stored definitions is there, and finite numbers alone. -/
structure Tidy (v : Vocabulary) (c : Connection) (l : Ledger) (w : World) : Prop where
  steady : Steady False c l w
  backed : w.workspace.store.catalog.Backed c
  registers : w.workspace.store.catalog.Registers c.definitions
  furnished : w.workspace.store.catalog.AllStored c (Furnishes v)
  finite : w.workspace.store.catalog.IsFinite
  uses : w.Uses (v.Binds c) v.Has

theorem tidy_of_blank (h : w.Blank) (l : Ledger) : Tidy v c l w :=
  ⟨steady_of_blank h l, backed_of_blank h, registers_of_blank h, allStored_of_blank h,
    fun _ _ hs => absurd hs h.get?_ne_some, uses_of_blank h⟩

theorem Tidy.does (h : Tidy v c l w) (ho : e.Over c) (he : e.Uses (v.Binds c) v.Has)
    (hf : (w.does e).workspace.supply.Fits c.definitions) : ∃ l', Tidy v c l' (w.does e) := by
  have hknown : ∀ c', v.Binds c c' → c'.classes.All v.Has ∧ c'.definitions = c.definitions :=
    fun _ hb => ⟨hb.all, hb.definitions⟩
  obtain ⟨l', htakes⟩ := does_takes ho False.elim h.steady hf
  exact ⟨l', htakes.steady, does_backed ho h.steady hf h.backed,
    does_registers ho h.steady hf h.registers, does_furnishes ho he h.steady hf h.uses h.furnished,
    does_preserves hknown keptBy_isFinite ho he e.saves_finite h.steady.closed h.uses h.finite,
    does_uses (fun c' hc' => (hknown c' hc').1) ho he h.steady.closed h.uses⟩

theorem Tidy.play (h : Tidy v c l w) (ho : ∀ e ∈ deeds, e.Over c)
    (he : ∀ e ∈ deeds, e.Uses (v.Binds c) v.Has)
    (hf : (w.play deeds).workspace.supply.Fits c.definitions) :
    ∃ l', Tidy v c l' (w.play deeds) := by
  induction deeds generalizing w l with
  | nil => exact ⟨l, h⟩
  | cons e deeds ih =>
    obtain ⟨hover, hovers⟩ := List.forall_mem_cons.1 ho
    obtain ⟨huse, huses⟩ := List.forall_mem_cons.1 he
    have hstep := does_commits hover h.steady.closed
    obtain ⟨l₁, h₁⟩ :=
      h.does hover huse (hf.of_later (play_commits hovers hstep.transaction).supply)
    exact ih h₁ hovers huses hf

/-! ## Loads -/

/-- What a stored definition says is read of it under its name as under its identifier. -/
theorem Tidy.readFrom_stored (h : Tidy v c l w) (hc : v.Binds c c') {id : Uuid}
    (hstored : c.stored? w.workspace.store.catalog id = some definition) {key : DatasetKey}
    (hkey : key = .byName definition.name ∨ key = .byId definition.id) :
    Dataset.readFrom c' key w.workspace.store.catalog =
      Dataset.ofDefinition c' w.workspace.store.catalog definition := by
  have hs := h.steady.stocked
  obtain ⟨hdocument, -, htraced, -⟩ := hs.stored?_eq_some hstored
  have hfound : w.workspace.store.catalog.findOne c'.definitions key.field (.string key.text) =
      some definition.document := by
    rw [hc.definitions]
    rcases hkey with rfl | rfl
    · refine findOne_unique hdocument (Definition.get?_document_name _)
        fun q document hq hname => ?_
      exact hs.named _ _ _ _ hq hdocument (hname.trans (Definition.get?_document_name _).symm)
    · exact (findOne_id hs.keeps).trans hdocument
  unfold Dataset.readFrom
  rw [hfound]
  simp only
  rw [Definition.ofDocument_document htraced.writable, ok_bind]

/-- Through the deeds the stored definition of an identifier stays what it is. -/
def Unwritten (c : Connection) (id : Uuid) (w : World) : List Deed → Prop
  | [] => True
  | e :: rest => c.stored? (w.does e).workspace.store.catalog id =
      c.stored? w.workspace.store.catalog id ∧ Unwritten c id (w.does e) rest

theorem Unwritten.stored? {id : Uuid} {rest : List Deed} (h : Unwritten c id w rest) :
    c.stored? (w.play rest).workspace.store.catalog id =
      c.stored? w.workspace.store.catalog id := by
  induction rest generalizing w with
  | nil => rfl
  | cons e rest ih => exact (ih h.2).trans h.1

/-- By one of the deeds a client got the dataset that is held, by creating, loading, reading or
committing it; since then nobody has written its definition, and no edits are left. -/
structure Idle (c : Connection) (w₀ : World) (deeds : List Deed) (x : Client) (held : Holding) :
    Prop where
  got : ∃ past e rest d, deeds = past ++ e :: rest ∧ (w₀.play past).Attaches e d ∧
    d.standing = .attached held ∧
    Unwritten c held.definition.id ((w₀.play past).does e) rest
  holding : x.dataset.standing.holding? = some held
  unedited : ∀ path, x.dataset.live.entry path = x.base.entry path

/-- What an idle client holds is what is stored, and it holds the validators that were made for
it, at least but for some. -/
theorem Idle.stored {x : Client} {held : Holding} {deeds : List Deed} (hx : Idle c w₀ deeds x held)
    (hb : w₀.Blank) (ho : ∀ e ∈ deeds, e.Over c) (he : ∀ e ∈ deeds, e.Uses (v.Binds c) v.Has)
    (hf : (w₀.play deeds).workspace.supply.Fits c.definitions)
    (hroot : held.definition.IsRooted) :
    c.stored? (w₀.play deeds).workspace.store.catalog held.definition.id =
        some held.definition ∧
      ∃ schema rules, Layout.Describes held.definition.fields schema ∧
        Layout.validators held.definition.collections schema = .ok rules ∧
        ∀ name rule, held.validators.get? name = some rule → rules.get? name = some rule := by
  obtain ⟨past, e, rest, d, rfl, hattaches, hstanding, hunwritten⟩ := hx.got
  obtain ⟨hpast, hover, hrest⟩ := List.forall_mem_append.1 ho |>.imp_right List.forall_mem_cons.1
  obtain ⟨huses, huse, -⟩ := List.forall_mem_append.1 he |>.imp_right List.forall_mem_cons.1
  rw [play_append, play_cons] at hf ⊢
  have hstep := does_commits hover (play_commits hpast hb.transaction).transaction
  have hf₁ := hf.of_later (play_commits hrest hstep.transaction).supply
  obtain ⟨l, htidy⟩ := (tidy_of_blank hb fun _ => (held.definition.id, "")).play hpast huses
    (hf₁.of_later hstep.supply)
  obtain ⟨i, rules, hclient, hpersists, hamong⟩ :=
    hattaches.persists hover htidy.steady htidy.backed hf₁ hstanding hroot
  obtain ⟨l', htidy'⟩ := htidy.does hover huse hf₁
  obtain ⟨hc, -, hholds, -⟩ := htidy'.steady.clients i _ hclient
  have htraced := (hholds held (by rw [hstanding]; rfl)).traced
  obtain ⟨schema, hdescribes, hvalidators⟩ := hpersists.described
  have hdocument := hpersists.document
  rw [show (Dataset.mk d.connection (.attached ⟨held.definition, rules⟩) d.live).connection =
    d.connection from rfl, hc] at hdocument
  exact ⟨hunwritten.stored?.trans (Stocked.stored?_of_documentAt htidy'.steady.stocked.keeps
    htraced.writable hdocument), schema, rules, hdescribes, hvalidators, hamong⟩

/-- A client that has edited nothing and holds what is stored commits without any change. -/
theorem Tidy.exists_commit {i : Nat} {x : Client} {held : Holding} {schema : Schema}
    {rules : Validators} (h : Tidy v c l w) (hf : w.workspace.supply.Fits c.definitions)
    (hx : w.clients i = some x) (hheld : x.dataset.standing.holding? = some held)
    (hstored : c.stored? w.workspace.store.catalog held.definition.id = some held.definition)
    (hdescribes : Layout.Describes held.definition.fields schema)
    (hvalidators : Layout.validators held.definition.collections schema = .ok rules)
    (hamong : ∀ name rule, held.validators.get? name = some rule → rules.get? name = some rule)
    (hsame : ∀ path, x.dataset.live.entry path = x.base.entry path)
    (hroot : held.definition.IsRooted) :
    ∃ d ws, x.dataset.commit w.workspace = .ok d ws ∧
      ws.store.catalog = w.workspace.store.catalog := by
  have hs := h.steady.stocked
  have hbinds := (h.uses i x hx).connection
  obtain ⟨hdocument, -, htraced, hexist⟩ := hs.stored?_eq_some hstored
  have hbacks := h.backed _ _ hstored
  obtain ⟨k, hk⟩ := Dataset.root_of_isRooted hroot hdescribes
  -- What the client last saw is what is read of the dataset, and both the definition says.
  have hseen := (h.steady.holds i x hx held hheld).seen
  have hsays : Layout.schema held.definition.fields .empty x.dataset.connection.classes =
      .ok x.base :=
    (Layout.schema_of_among hdescribes (hf.apart htraced.live) hk hvalidators hamong).symm.trans
      hseen
  have hread := h.readFrom_stored hbinds hstored (.inr rfl)
  rw [Dataset.ofDefinition, Dataset.schema_of_backs hf hbacks htraced hroot, hsays] at hread
  obtain ⟨rules', hplace⟩ := Dataset.exists_inPlace hf hbacks (h.furnished _ _ hstored) htraced
    hexist hroot hbinds hsays
  rw [← hbinds.definitions] at hdocument
  exact Dataset.exists_commit_idle hheld hread hseen hsame hplace hdocument
    (Dataset.exists_replaceStored (hs.congr hbinds.definitions)
      (hbinds.definitions.symm ▸ h.registers) hdocument rfl rfl) h.finite

section Sample

end Sample

end World
end SchemaKeeper
