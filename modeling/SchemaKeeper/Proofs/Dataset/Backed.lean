import SchemaKeeper.Proofs.Dataset.Effect
import SchemaKeeper.Proofs.Dataset.Plain

/-!
# Stored definitions and their validators

The validators of the schema that a stored definition describes are installed in its collections.
What is done to one dataset leaves those of the others in place.
-/
namespace SchemaKeeper

open Catalog Op

namespace Catalog
variable {guarded : Prop} {c : Connection} {l l' : Ledger} {s s' : Supply}
  {before after : Catalog} {d : Definition} {p : String → Prop}

/-- The validators of the schema that the definition describes are installed. -/
def Backs (catalog : Catalog) (d : Definition) : Prop :=
  ∃ (schema : Schema) (v : Validators), Layout.Describes d.fields schema ∧
    Layout.validators d.collections schema = .ok v ∧ catalog.Installs v

/-- Every stored definition has its validators installed. -/
def Backed (c : Connection) (catalog : Catalog) : Prop :=
  ∀ id d, c.stored? catalog id = some d → catalog.Backs d

/-- What is told of a definition in a catalog depends on the collections of the definition alone. -/
def IsLocal (P : Catalog → Definition → Prop) : Prop :=
  ∀ {before after : Catalog} {d : Definition}, (∀ q ∈ d.collections.values,
    after.collections.get? q = before.collections.get? q) → P before d → P after d

/-- Something is told of every stored definition. -/
def AllStored (c : Connection) (P : Catalog → Definition → Prop) (catalog : Catalog) : Prop :=
  ∀ id d, c.stored? catalog id = some d → P catalog d

/-- A dataset keeps its validators if its collections are left alone. -/
theorem isLocal_backs : IsLocal Backs := by
  rintro before after d hframe ⟨schema, v, hdescribes, hvalidators, hinstalls⟩
  refine ⟨schema, v, hdescribes, hvalidators, fun q rule hrule => ?_⟩
  obtain ⟨path, k, ps, hpath, -⟩ := (Layout.validators_speak hvalidators q rule hrule).titled
  rw [hframe q (Keyed.mem_values.2 ⟨path, hpath⟩)]
  exact hinstalls q rule hrule

/-- A dataset that the catalog has is backed. -/
theorem backs_of_persists {x : Dataset} {held : Holding}
    (h : Dataset.Persists after x held) : after.Backs held.definition := by
  obtain ⟨schema, hdescribes, hvalidators⟩ := h.described
  exact ⟨schema, held.validators, hdescribes, hvalidators, h.installed⟩

/-- To store a definition leaves the collections of the others alone. -/
theorem AllStored.stores {P : Catalog → Definition → Prop} (hP : IsLocal P)
    (h : before.AllStored c P) (hb : before.Stocked guarded c l s)
    (hs : Stores c d before after) (ha : after.Keeps) (hd : d.Traced guarded l' s')
    (hlater : s.Later s') (hl : l.AgreeBelow s.drawn l') (hf : s'.Fits c.definitions)
    (hnew : P after d) : after.AllStored c P := by
  intro id other hother
  rw [hs.stored? hb.keeps ha hd.writable] at hother
  split at hother
  · injection hother with hother
    exact hother ▸ hnew
  · rename_i hne
    obtain ⟨-, hid, ht, -⟩ := hb.stored?_eq_some hother
    refine hP (fun q hq => ?_) (h id other hother)
    obtain ⟨path, hascribes⟩ := (ht.mono hlater hl).ascribes (.inl hq)
    refine hs.frame q (hf.ne_definitions hascribes) fun hin => hne ?_
    -- A collection of both would have been made for one of them.
    obtain ⟨path', hascribes'⟩ := hd.ascribes (.inl hin)
    rw [← hid, (hf.ascribes_unique hascribes' hascribes).1]

/-- To remove a definition with collections that were made for it leaves those of the others
alone. -/
theorem AllStored.removes {P : Catalog → Definition → Prop} (hP : IsLocal P)
    (h : before.AllStored c P) (hb : before.Stocked guarded c l s) {id : Uuid}
    {names : List String} (hr : Removes c id.text names before after) (ha : after.Keeps)
    (hnames : ∀ name ∈ names, ∃ path, l.Ascribes s.ids s.drawn name id path)
    (hf : s.Fits c.definitions) : after.AllStored c P := by
  intro id' other hother
  rw [hr.stored? hb.keeps ha] at hother
  split at hother
  · cases hother
  · rename_i hne
    obtain ⟨-, hid, ht, -⟩ := hb.stored?_eq_some hother
    refine hP (fun q hq => ?_) (h id' other hother)
    obtain ⟨path, hascribes⟩ := ht.ascribes (.inl hq)
    refine hr.frame q (hf.ne_definitions hascribes) fun hin => hne ?_
    obtain ⟨path', hascribes'⟩ := hnames q hin
    rw [← hid, (hf.ascribes_unique hascribes' hascribes).1]

/-- To write documents leaves the stored definitions alone. -/
theorem AllStored.fills {P : Catalog → Definition → Prop} (h : before.AllStored c P)
    (hb : before.Keeps) (hf : Fills p before after) (ha : after.Keeps) (hp : ¬ p c.definitions)
    (hP : ∀ d, P before d → P after d) : after.AllStored c P := by
  intro id other hother
  rw [hf.stored? hb ha hp] at hother
  exact hP other (h id other hother)

theorem Backs.fills (h : before.Backs d) (hf : Fills p before after) : after.Backs d := by
  obtain ⟨schema, v, hdescribes, hvalidators, hinstalls⟩ := h
  exact ⟨schema, v, hdescribes, hvalidators, hf.installs v hinstalls⟩

/-- The collections of a definition that is backed screen what is written to them. -/
theorem Backs.screens (h : before.Backs d) (ht : d.Traced guarded l s) (hf : s.Fits c.definitions)
    (hcounted : ∀ f ∈ d.fields, f.type.isCounted = true) :
    ∃ schema, Layout.Describes d.fields schema ∧ before.Screens d.collections schema := by
  obtain ⟨schema, v, hdescribes, hvalidators, hinstalls⟩ := h
  exact ⟨schema, hdescribes,
    screens_of_installs hdescribes hcounted hvalidators (hf.apart ht.live) hinstalls⟩

end Catalog
end SchemaKeeper
