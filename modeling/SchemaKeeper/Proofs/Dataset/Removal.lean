import SchemaKeeper.Proofs.Dataset.Effect

/-!
# What a deletion leaves

A deletion drops the collections that the client's own definition uses and those that the stored
definition has retired, and removes the stored definition.  Collections that others have put into
use since the client last saw the dataset are not among them.
-/
namespace SchemaKeeper

open Catalog Op

namespace Dataset
variable {guarded : Prop} {c : Connection} {ws ws' : Workspace} {l : Ledger} {s : Supply}
  {base : Schema}
  {d d' : Dataset} {held : Holding} {before after mid : Catalog} {names : List String}

theorem Drops.keeps (h : Drops names before after) (hk : before.Keeps) : after.Keeps := by
  intro q state hs
  rw [h q] at hs
  split at hs
  · cases hs
  · exact hk q state hs

/-- Dropping collections of datasets leaves the definitions alone. -/
theorem Drops.documentAt (h : Drops names before after) {name : String} (hn : name ∉ names)
    (id : String) : after.documentAt name id = before.documentAt name id := by
  unfold Catalog.documentAt
  rw [h name, if_neg hn]

theorem Drops.removes {key : String} {answer : Bool} (h : Drops names before mid)
    (hn : c.definitions ∉ names)
    (hd : mid.perform (.deleteOne c.definitions key) = .ok (answer, after)) :
    Removes c key names before after := by
  have hframe : ∀ q, q ≠ c.definitions → after.collections.get? q = mid.collections.get? q :=
    fun q hq => perform_frame hd (Ne.symm hq)
  refine ⟨fun q => ?_, fun q hq => ?_, fun q hq hin => ?_⟩
  · rw [← h.documentAt hn]
    rcases deleteOne_ok hd with ⟨hnone, rfl⟩ | ⟨state, hs, hc⟩
    · simp [Catalog.documentAt, hnone]
    · unfold Catalog.documentAt
      rw [hc, Keyed.get?_insert, if_pos rfl, hs]
      exact Keyed.get?_erase _ _ _
  · unfold Keyed.contains
    rw [hframe q hq, h q]
    by_cases hin : q ∈ names <;> simp [hin]
  · rw [hframe q hq, h q, if_neg hin]

/-- The names that a deletion drops were made for its dataset. -/
theorem ascribes_dropped {definition : Definition} {stored : Option Definition}
    (hd : definition.Traced guarded l s)
    (hs : ∀ d ∈ stored, d.Traced guarded l s ∧ d.id = definition.id)
    {name : String} (hn : name ∈ dropped definition stored) :
    ∃ path, l.Ascribes s.ids s.drawn name definition.id path := by
  rcases List.mem_append.1 hn with hn | hn
  · exact hd.ascribes (.inl hn)
  · cases stored with
    | none => exact hd.ascribes (.inr hn)
    | some d =>
      obtain ⟨ht, hid⟩ := hs d rfl
      exact hid ▸ ht.ascribes (.inr hn)

/-- The stored definition that a deletion finds is the one that was stored when it began. -/
theorem storedFrom_eq {stored : Option Definition} {id : Uuid} (h : before.Stocked guarded c l s)
    (hdrops : Drops names before mid) (hn : c.definitions ∉ names)
    (hs : storedFrom c id.text mid = .ok stored) : c.stored? before id = stored := by
  unfold storedFrom at hs
  unfold Connection.stored?
  rw [findOne_id (hdrops.keeps h.keeps), hdrops.documentAt hn] at hs
  rw [findOne_id h.keeps]
  cases hd : before.documentAt c.definitions id.text with
  | none =>
    rw [hd] at hs
    injection hs
  | some document =>
    rw [hd] at hs
    simp only at hs
    rw [Option.bind_some]
    cases hdoc : Definition.ofDocument document with
    | error e =>
      rw [hdoc] at hs
      cases hs
    | ok d =>
      rw [hdoc] at hs
      injection hs

/-- A deletion removes the stored definition and the collections that it drops. -/
theorem delete_removes (h : ws.store.catalog.Stocked guarded c l ws.supply)
    (hf : ws.supply.Fits c.definitions) (hc : d.connection = c)
    (hheld : d.standing.holding? = some held) (ht : held.definition.Traced guarded l ws.supply)
    (hop : delete d ws = .ok d' ws') :
    d' = { d with standing := .deleted } ∧
      Removes c held.definition.key
        (dropped held.definition (c.stored? ws.store.catalog held.definition.id))
        ws.store.catalog ws'.store.catalog := by
  obtain ⟨held₀, hheld₀, hd', ws₁, ws₂, hran⟩ := delete_ok hop
  rw [hheld] at hheld₀
  injection hheld₀ with hheld₀
  subst hheld₀ hc
  obtain ⟨stored, mid₁, mid₂, answer, hdrop₁, hstored, hdrop₂, hdelete⟩ :=
    demolish_ok rfl hran.work
  rw [hran.visible] at hdrop₁
  have hlive : d.connection.definitions ∉ held.definition.collections.values := fun hin => by
    obtain ⟨path, ha⟩ := ht.ascribes (.inl hin)
    exact hf.ne_definitions ha rfl
  have hfound : d.connection.stored? ws.store.catalog held.definition.id = stored :=
    storedFrom_eq h hdrop₁ hlive hstored
  have hall : d.connection.definitions ∉ dropped held.definition stored := fun hin => by
    obtain ⟨path, ha⟩ := ascribes_dropped ht (fun d₁ hd₁ => by
      rw [Option.mem_def] at hd₁
      obtain ⟨-, hid, ht₁, -⟩ := h.stored?_eq_some (hfound.trans hd₁)
      exact ⟨ht₁, hid⟩) hin
    exact hf.ne_definitions ha rfl
  refine ⟨hd', ?_⟩
  rw [hfound]
  exact hran.settles.removes (fun _ _ hj => h.floatFree hj)
    ((hdrop₁.append hdrop₂).removes hall hdelete)

end Dataset
end SchemaKeeper
