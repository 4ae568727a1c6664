import SchemaKeeper.Proofs.Dataset.Equipment
import SchemaKeeper.Proofs.Session.Aftermath
import SchemaKeeper.Proofs.Session.Backed

/-!
# Roots

Over however many connections, as long as no client puts a schema in place without a check, every
stored definition has a document at its root: a new dataset starts with one, edits never reach it,
and a commit takes it over from what is stored.
-/
namespace SchemaKeeper

open Catalog Op Provision

/-- The deed is an action, so every edit in it is checked. -/
def Deed.IsAct : Deed → Prop
  | .act .. => True
  | .assign .. => False

namespace Dataset
variable {c : Connection} {ws ws' : Workspace} {d d' : Dataset} {held : Holding} {base : Schema}

theorem createFrom_isRooted {name : String} {s : Schema} {mediaType : Option MediaType}
    {persistent : Bool} (h : createFrom c name s mediaType persistent ws = .ok d ws') :
    ∃ held, d.standing = .attached held ∧ held.definition.IsRooted := by
  obtain ⟨⟨k, hroot⟩, ws₁, ws₂, hran⟩ := createFrom_ok h
  obtain ⟨_, _, provision, definition, _, _, -, -, hmake, -, -, -, hdef, -, -, hstanding, -⟩ :=
    build_made rfl hran.work
  obtain ⟨n, hdefine⟩ := (make_equipped hmake).define
  have hdescribes := Layout.describes_of_define hdefine
  refine ⟨_, hstanding, ?_⟩
  have hfields : definition.fields = provision.definitions := by
    rw [hdef]
    exact FieldDefinition.sorted_of_ascending hdescribes.ascending
  rw [Definition.IsRooted, hfields]
  exact hdescribes.root_definition (rootClass_eq_ok.1 hroot)

/-- A commit that leaves the root alone takes it over from the definition that it reads. -/
theorem commit_isRooted (hheld : d.standing.holding? = some held)
    (hbase : Layout.schema held.definition.fields held.validators d.connection.classes = .ok base)
    (hroot : d.live.get? "" = base.get? "")
    (hlatest : ∀ latest v seen, readFrom d.connection (.byId held.definition.id)
        ws.store.catalog = .ok ⟨d.connection, .attached ⟨latest, v⟩, seen⟩ →
      ∃ k, seen.typeAt "" = .ok (.document k))
    (h : commit d ws = .ok d' ws') :
    ∃ held', d'.standing = .attached held' ∧ held'.definition.IsRooted := by
  obtain ⟨held₀, held', live, hheld₀, rfl, ws₁, ws₂, hran⟩ := commit_ok h
  rw [hheld] at hheld₀
  injection hheld₀ with hheld₀
  subst hheld₀
  obtain ⟨_, _, latest, seen, base', v, provision, hread, hbase', -, hmake, -, rfl, -⟩ :=
    merge_made rfl hran.work
  rw [hbase] at hbase'
  injection hbase' with hbase'
  subst hbase'
  rw [hran.visible] at hread
  obtain ⟨k, hk⟩ := hlatest latest v seen hread
  obtain ⟨n, hdefine⟩ := (make_equipped hmake).define
  have hdescribes := Layout.describes_of_define hdefine
  have hfields : (committed held latest provision).fields = provision.definitions :=
    FieldDefinition.sorted_of_ascending hdescribes.ascending
  refine ⟨_, rfl, ?_⟩
  rw [Definition.IsRooted, hfields]
  exact hdescribes.root_definition ((typeAt_congr (Delta.get?_apply_of_eq hroot)).trans hk)

end Dataset

namespace World
variable {guarded : Prop} {c : Connection} {l l' : Ledger} {w : World} {e : Deed}
  {deeds : List Deed} {d : Dataset}

/-- Every stored definition has a document at its root, and so has what each client holds; the
client leaves its root alone. -/
structure HasRoots (c : Connection) (w : World) : Prop where
  stored : w.workspace.store.catalog.AllStored c fun _ d => d.IsRooted
  clients : ∀ i x held, w.clients i = some x → x.dataset.standing.holding? = some held →
    held.definition.IsRooted ∧ ∃ f, x.base.get? "" = some f ∧ x.dataset.live.get? "" = some f

/-- The base of a client that holds a dataset with a document at its root has a root. -/
theorem Steady.exists_root {i : Nat} {x : Client} {held : Holding} (hs : Steady guarded c l w)
    (hx : w.clients i = some x) (hheld : x.dataset.standing.holding? = some held)
    (hr : held.definition.IsRooted) : ∃ f, x.base.get? "" = some f := by
  obtain ⟨f, hf, hp, ⟨name, hname⟩, -⟩ := hr
  have hholds := hs.holds i x hx held hheld
  obtain ⟨k, hk⟩ := Layout.typeAt_root_of_schema hholds.seen hholds.traced.ascending hf hp hname
  obtain ⟨f, hf, -⟩ := Schema.typeAt_eq_ok.1 hk
  exact ⟨f, hf⟩

/-- What is read of a dataset has a document at its root. -/
theorem HasRoots.root_of_read (h : HasRoots c w) (hs : Steady guarded c l w) {c' : Connection}
    (hc : c'.definitions = c.definitions) {key : DatasetKey}
    (hread : Dataset.readFrom c' key w.workspace.store.catalog = .ok d) :
    ∃ held, d.standing = .attached held ∧ held.definition.IsRooted ∧
      Layout.schema held.definition.fields held.validators d.connection.classes = .ok d.live ∧
      ∃ k, d.live.typeAt "" = .ok (.document k) := by
  obtain ⟨held, -, hstanding, hholds, hdocument, -⟩ :=
    Dataset.readFrom_stocked (hs.stocked.congr hc) hread
  have hrooted := h.stored _ _ (Stocked.stored?_of_documentAt hs.stocked.keeps
    hholds.traced.writable (hc ▸ hdocument))
  obtain ⟨f, hf, hp, ⟨name, hname⟩, -⟩ := id hrooted
  exact ⟨held, hstanding, hrooted, hholds.seen,
    Layout.typeAt_root_of_schema hholds.seen hholds.traced.ascending hf hp hname⟩

/-- What a deed brings has a document at its root. -/
theorem HasRoots.brings (h : HasRoots c w) (hs : Steady guarded c l w) (ho : e.Over c)
    (hd : w.Brings e d) : ∃ held, d.standing = .attached held ∧ held.definition.IsRooted := by
  cases hd with
  | create granted => exact Dataset.createFrom_isRooted granted
  | load granted =>
    obtain ⟨⟨c', standing, live⟩, ws₁, ws₂, i, hfrom, hu, -, -, hcommit, -⟩ :=
      Dataset.load_ok ho.2 hs.closed granted
    have hc : c'.definitions = c.definitions := by
      obtain ⟨_, rfl, -⟩ := Dataset.readFrom_stocked (hs.stocked.congr ho.1) hfrom
      exact ho.1
    obtain ⟨held, rfl, -, hseen, -⟩ := h.root_of_read hs ho.1 hfrom
    generalize ws₁.supply.clock i = now at hcommit
    have hstamped : ((Dataset.mk c' (.attached held) live).stamped now).standing.holding? =
        some { held with definition := { held.definition with lastLoadedAt := now } } := rfl
    refine Dataset.commit_isRooted hstamped hseen rfl (fun latest v seen hread => ?_) hcommit
    rw [hu.catalog] at hread
    obtain ⟨_, -, -, -, hroot⟩ := h.root_of_read hs hc hread
    exact hroot
  | commit client granted =>
    obtain ⟨held, _, _, hheld, -⟩ := Dataset.commit_ok granted
    obtain ⟨hc, -, hholds, -⟩ := hs.clients _ _ client
    obtain ⟨-, f, hbase, hlive⟩ := h.clients _ _ held client hheld
    refine Dataset.commit_isRooted hheld (hholds held hheld).seen (hlive.trans hbase.symm)
      (fun latest v seen hread => ?_) granted
    obtain ⟨_, -, -, -, hroot⟩ := h.root_of_read hs hc hread
    exact hroot

theorem HasRoots.does_stored (h : HasRoots c w) (hs : Steady guarded c l w) (ho : e.Over c)
    (hf : (w.does e).workspace.supply.Fits c.definitions) :
    (w.does e).workspace.store.catalog.AllStored c fun _ d => d.IsRooted := by
  refine does_allStored (fun _ hd => hd) ho hs hf h.stored (fun d held hbrings hstanding _ => ?_)
    fun _ _ _ _ _ _ _ _ hd => hd
  obtain ⟨held', hstanding', hrooted⟩ := h.brings hs ho hbrings
  rw [hstanding] at hstanding'
  injection hstanding' with hheld
  exact hheld ▸ hrooted

/-- A deed other than to put a schema in place leaves what a client edits with its root. -/
theorem HasRoots.does_root {i : Nat} {x : Client} {held : Holding} (h : HasRoots c w)
    (hs : Steady guarded c l w) (ho : e.Over c) (he : e.IsAct)
    (hx : (w.does e).clients i = some x) (hheld : x.dataset.standing.holding? = some held)
    (hbase : ∃ f, x.base.get? "" = some f) :
    ∃ f, x.base.get? "" = some f ∧ x.dataset.live.get? "" = some f := by
  have hgoes := does_goes ho hs.closed
  generalize w.does e = w' at hgoes hx
  have hkept : ∀ j y d, w.clients j = some y → y.dataset.Edits d →
      (w.put j { y with dataset := d }).clients i = some x →
      ∃ f, x.base.get? "" = some f ∧ x.dataset.live.get? "" = some f := by
    intro j y d hy hedits hx
    rcases eq_or_clients_of_put hx with ⟨-, rfl⟩ | hx
    · obtain ⟨-, f, hbase, hlive⟩ := h.clients j y held hy (hedits.holding.symm.trans hheld)
      exact ⟨f, hbase, hedits.root f hlive⟩
    · exact (h.clients i x held hx hheld).2
  have hgot : ∀ j d ws, ({ w with workspace := ws }.put j ⟨d, d.live⟩).clients i = some x →
      ∃ f, x.base.get? "" = some f ∧ x.dataset.live.get? "" = some f := by
    intro j d ws hx
    rcases eq_or_clients_of_put hx with ⟨-, rfl⟩ | hx
    · exact hbase.imp fun f hf => ⟨hf, hf⟩
    · exact (h.clients i x held hx hheld).2
  cases hgoes with
  | assign => exact he.elim
  | stays | save => exact (h.clients i x held hx hheld).2
  | addField client granted => exact hkept _ _ _ client (Dataset.addField_edits granted) hx
  | removeField client granted => exact hkept _ _ _ client (Dataset.removeField_edits granted) hx
  | read | create | load | commit | delete => exact hgot _ _ _ hx

theorem HasRoots.does (h : HasRoots c w) (hs : Steady guarded c l w) (ho : e.Over c) (he : e.IsAct)
    (hs' : Steady guarded c l' (w.does e))
    (hf : (w.does e).workspace.supply.Fits c.definitions) : HasRoots c (w.does e) := by
  have hstored := h.does_stored hs ho hf
  refine ⟨hstored, fun i x held hx hheld => ?_⟩
  have hrooted : held.definition.IsRooted := by
    rcases does_held ho hs hf hx hheld with ⟨x₀, hx₀, hheld₀⟩ | hfound
    · exact (h.clients i x₀ held hx₀ hheld₀).1
    · exact hstored _ _ hfound
  exact ⟨hrooted, h.does_root hs ho he hx hheld (hs'.exists_root hx hheld hrooted)⟩

end World
end SchemaKeeper
