import SchemaKeeper.Cli.Classes
import SchemaKeeper.Proofs.Schema.Registry

/-!
# What a classes file declares

A classes file is accepted exactly if it declares no class twice and refers, at any depth, to
classes that it has declared already.  Its registry then holds the declared classes as they are
declared and no others: each class that is registered nests only classes that are there.
-/
namespace SchemaKeeper

namespace Registry
variable {c : DocClass} {r : Registry}

/-- To register classes whose names are taken changes nothing. -/
theorem registerAll_of_contains {cs : List DocClass} (h : ∀ c ∈ cs, r.contains c.name = true) :
    registerAll cs r = r := by
  induction cs with
  | nil => rfl
  | cons c cs ih =>
    obtain ⟨hc, hcs⟩ := List.forall_mem_cons.1 h
    rw [registerAll, List.foldl_cons, register_eq, if_pos hc]
    exact ih hcs

/-- A new class that nests known ones alone is all that is added. -/
theorem register_of_new (hnew : r.contains c.name = false)
    (hnested : ∀ k, c.Nests k → r.contains k.name = true) :
    register c r = r.insert c.name c := by
  rw [register_eq, if_neg (by simp [hnew])]
  exact registerAll_of_contains fun k hk => Keyed.contains_insert (hnested k hk)

end Registry

namespace Declaration
variable {d : Declaration} {c : DocClass} {past later ds : List Declaration} {r r' : Registry}

/-! ## One declaration -/

/-- The classes that a declaration names in its fields, at any depth. -/
def named (d : Declaration) : List String := d.fields.values.flatMap Shape.leaves

theorem mem_named {name : String} :
    name ∈ d.named ↔ ∃ e ∈ d.fields.entries, name ∈ e.2.leaves := by
  simp only [named, Keyed.values, List.flatMap_map, List.mem_flatMap]

/-- The fields are resolved exactly if each class that they name is known. -/
theorem exists_resolveFields (className : String) {entries : List (String × Descriptor)} :
    (∃ fields, resolveFields r className entries = .ok fields) ↔
      ∀ e ∈ entries, ∀ name ∈ e.2.leaves, r.contains name = true := by
  induction entries with
  | nil => exact ⟨nofun, fun _ => ⟨[], rfl⟩⟩
  | cons e entries ih =>
    obtain ⟨field, d⟩ := e
    rw [List.forall_mem_cons, ← ih, resolveFields]
    cases ht : d.fieldType (className ++ "." ++ field) r with
    | error e =>
      refine ⟨nofun, fun ⟨h, _⟩ => ?_⟩
      obtain ⟨t, ht'⟩ := Descriptor.exists_fieldType h
      exact nomatch ht.symm.trans ht'
    | ok t =>
      constructor
      · rintro ⟨_, h⟩
        obtain ⟨fields, hfields, -⟩ := bind_eq_ok_iff.1 h
        refine ⟨fun name hname => ?_, fields, hfields⟩
        obtain ⟨k, hk⟩ := (Shape.leaves_of_resolveWith ht).1 name hname
        exact Keyed.contains_iff.2 ⟨k, Registry.resolve_eq_ok.1 hk⟩
      · rintro ⟨-, fields, hfields⟩
        exact ⟨_, bind_eq_ok_iff.2 ⟨fields, hfields, rfl⟩⟩

/-- Resolved fields have the declared names and descriptors, in the same order, and their types hold
classes of the registry. -/
theorem resolveFields_ok {className : String} {entries : List (String × Descriptor)}
    {fields : List (String × Option FieldType)} (hr : r.Named)
    (h : resolveFields r className entries = .ok fields) :
    fields.map (fun f => (f.1, f.2.map FieldType.descriptor)) =
        entries.map (fun e => (e.1, some e.2)) ∧
      ∀ field t, (field, some t) ∈ fields → ∀ k ∈ t.leaves, r.get? k.name = some k := by
  induction entries generalizing fields with
  | nil =>
    cases h
    exact ⟨rfl, nofun⟩
  | cons e entries ih =>
    obtain ⟨field, d⟩ := e
    rw [resolveFields] at h
    split at h
    · cases h
    · rename_i t ht
      obtain ⟨rest, hrest, hfields⟩ := bind_eq_ok_iff.1 h
      cases hfields
      obtain ⟨hmap, hlinked⟩ := ih hrest
      refine ⟨?_, fun field' t' hmem k hk => ?_⟩
      · rw [List.map_cons, List.map_cons, hmap, Option.map_some,
          Descriptor.descriptor_of_fieldType hr ht]
      · rcases List.mem_cons.1 hmem with hmem | hmem
        · cases hmem
          obtain ⟨name, hname⟩ := (Shape.leaves_of_resolveWith ht).2 k hk
          rw [Registry.resolve_eq_ok] at hname
          rwa [hr name k hname]
        · exact hlinked field' t' hmem k hk

/-- The class is the declared one: it has the name, under the declared names fields whose types have
the declared descriptors, and the indexes in order. -/
structure Gives (d : Declaration) (c : DocClass) : Prop where
  name : c.name = d.name
  fields : c.fields.map (fun f => (f.1, f.2.map FieldType.descriptor)) =
    d.fields.entries.map fun e => (e.1, some e.2)
  indexes : c.indexes = d.indexes

/-- The classes in the types of a class, at any depth, are those of the registry. -/
def Linked (r : Registry) (c : DocClass) : Prop :=
  ∀ field t, (field, some t) ∈ c.fields → ∀ k ∈ t.leaves, r.get? k.name = some k

theorem Linked.nested (h : Linked r c) {k : DocClass} (hk : c.Nests k) :
    r.contains k.name = true := by
  obtain ⟨field, t, hmem, hk⟩ := DocClass.nests_iff.1 hk
  exact Keyed.contains_iff.2 ⟨k, h field t hmem k (Shape.mem_leaves_of_nested? hk)⟩

theorem exists_resolve : (∃ c, d.resolve r = .ok c) ↔ ∀ name ∈ d.named, r.contains name = true := by
  have hnamed : (∀ name ∈ d.named, r.contains name = true) ↔
      ∀ e ∈ d.fields.entries, ∀ name ∈ e.2.leaves, r.contains name = true := by
    simp only [mem_named]
    exact ⟨fun h e he name hname => h name ⟨e, he, hname⟩,
      fun h name ⟨e, he, hname⟩ => h e he name hname⟩
  rw [hnamed, ← exists_resolveFields d.name]
  constructor
  · rintro ⟨c, h⟩
    obtain ⟨fields, hfields, -⟩ := bind_eq_ok_iff.1 h
    exact ⟨fields, hfields⟩
  · rintro ⟨fields, hfields⟩
    exact ⟨_, bind_eq_ok_iff.2 ⟨fields, hfields, rfl⟩⟩

theorem resolve_ok (hr : r.Named) (h : d.resolve r = .ok c) : d.Gives c ∧ Linked r c := by
  obtain ⟨fields, hfields, hc⟩ := bind_eq_ok_iff.1 h
  cases hc
  obtain ⟨hmap, hlinked⟩ := resolveFields_ok hr hfields
  exact ⟨⟨rfl, hmap, rfl⟩, hlinked⟩

/-! ## The declarations in order -/

/-- No name is declared twice, and each declaration names earlier ones alone. -/
structure InOrder (ds : List Declaration) : Prop where
  distinct : (ds.map Declaration.name).Nodup
  earlier : ∀ past d later, ds = past ++ d :: later →
    ∀ name ∈ d.named, name ∈ past.map Declaration.name

theorem InOrder.nil : InOrder [] :=
  ⟨List.nodup_nil, fun _ _ _ h => by simp at h⟩

/-- The declarations up to any place are in order. -/
theorem InOrder.of_append (h : InOrder (past ++ later)) : InOrder past := by
  refine ⟨?_, fun past' d later' hpast => h.earlier past' d (later' ++ later) (by simp [hpast])⟩
  exact (List.nodup_append.1 (List.map_append ▸ h.distinct)).1

/-- One more declaration is in order if its name is new and those that it names are declared. -/
theorem inOrder_concat : InOrder (past ++ [d]) ↔ InOrder past ∧
    d.name ∉ past.map Declaration.name ∧ ∀ name ∈ d.named, name ∈ past.map Declaration.name := by
  constructor
  · intro h
    refine ⟨h.of_append, fun hmem => ?_, h.earlier past d [] rfl⟩
    have hdistinct := h.distinct
    rw [List.map_append, List.nodup_append] at hdistinct
    exact hdistinct.2.2 _ hmem _ (List.mem_singleton_self _) rfl
  · rintro ⟨h, hnew, hnamed⟩
    refine ⟨?_, fun past' d' later hds => ?_⟩
    · rw [List.map_append, List.nodup_append]
      refine ⟨h.distinct, List.pairwise_singleton _ _, fun name hname name' hname' => ?_⟩
      rintro rfl
      exact hnew (List.mem_singleton.1 hname' ▸ hname)
    · -- The one that is asked for is the last one or stands before it.
      rcases List.eq_nil_or_concat later with rfl | ⟨later, last, rfl⟩
      · obtain ⟨rfl, hd⟩ := List.append_inj' hds rfl
        cases hd
        exact hnamed
      · rw [List.concat_eq_append, ← List.cons_append, ← List.append_assoc] at hds
        exact h.earlier past' d' later (List.append_inj' hds rfl).1

/-- The registry holds the declared classes and no others. -/
structure Declares (ds : List Declaration) (r : Registry) : Prop where
  names : ∀ name, r.contains name = true ↔ name ∈ ds.map Declaration.name
  classes : ∀ d ∈ ds, ∃ c, r.get? d.name = some c ∧ d.Gives c ∧ Linked r c

theorem Declares.nil : Declares [] .empty :=
  ⟨fun name => by simp [Keyed.contains], nofun⟩

/-- Each class that is declared is kept under its own name. -/
theorem Declares.named (h : Declares ds r) : r.Named := by
  intro name c hc
  obtain ⟨d, hd, rfl⟩ := List.mem_map.1 ((h.names name).1 (Keyed.contains_iff.2 ⟨c, hc⟩))
  obtain ⟨c', hc', hgives, -⟩ := h.classes d hd
  rw [Option.some.inj (hc.symm.trans hc')]
  exact hgives.name

/-- What is declared stays as it is when a class with a new name is put in. -/
theorem Declares.concat (h : Declares past r) (hnew : r.contains d.name = false)
    (hgives : d.Gives c) (hlinked : Linked r c) :
    Declares (past ++ [d]) (r.insert d.name c) := by
  have hkept : ∀ name k, r.get? name = some k → (r.insert d.name c).get? name = some k := by
    intro name k hk
    rw [Keyed.get?_insert, if_neg, hk]
    rintro rfl
    exact nomatch hnew.symm.trans (Keyed.contains_iff.2 ⟨k, hk⟩)
  have hlinked_of : ∀ k, Linked r k → Linked (r.insert d.name c) k :=
    fun k hk field t hmem k' hk' => hkept _ _ (hk field t hmem k' hk')
  refine ⟨fun name => ?_, fun d' hd' => ?_⟩
  · rw [List.map_append, List.mem_append, ← h.names, Keyed.contains, Keyed.get?_insert]
    split
    · rename_i hname
      exact ⟨fun _ => .inr (List.mem_singleton.2 hname.symm), fun _ => rfl⟩
    · rename_i hname
      exact (or_iff_left fun hmem => hname (List.mem_singleton.1 hmem).symm).symm
  · rcases List.mem_append.1 hd' with hd' | hd'
    · obtain ⟨c', hc', hgives', hlinked'⟩ := h.classes d' hd'
      exact ⟨c', hkept _ _ hc', hgives', hlinked_of c' hlinked'⟩
    · obtain rfl := List.mem_singleton.1 hd'
      exact ⟨c, by simp, hgives, hlinked_of c hlinked⟩

/-- The declarations that follow are registered exactly if all are in order, and all are declared
then. -/
theorem registerAll_declares (hpast : InOrder past) (h : Declares past r) :
    ((∃ r', registerAll ds r = .ok r') ↔ InOrder (past ++ ds)) ∧
      ∀ r', registerAll ds r = .ok r' → Declares (past ++ ds) r' := by
  induction ds generalizing past r with
  | nil =>
    rw [List.append_nil]
    refine ⟨⟨fun _ => hpast, fun _ => ⟨r, rfl⟩⟩, fun r' hr' => ?_⟩
    cases hr'
    exact h
  | cons d ds ih =>
    have hsplit : past ++ d :: ds = (past ++ [d]) ++ ds := by simp
    rw [hsplit]
    have hordered : InOrder (past ++ [d]) ↔ InOrder past ∧ ¬ r.contains d.name = true ∧
        ∀ name ∈ d.named, r.contains name = true := by
      simp only [inOrder_concat, h.names]
    -- The first one is refused, and then it is out of order, or it is declared with the past ones.
    by_cases hknown : r.contains d.name = true
    · rw [registerAll, if_pos hknown]
      exact ⟨⟨nofun, fun hall => absurd hknown (hordered.1 hall.of_append).2.1⟩, nofun⟩
    · rw [registerAll, if_neg hknown]
      cases hc : d.resolve r with
      | error e =>
        refine ⟨⟨nofun, fun hall => ?_⟩, nofun⟩
        obtain ⟨c, hc'⟩ := exists_resolve.2 (hordered.1 hall.of_append).2.2
        exact nomatch hc.symm.trans hc'
      | ok c =>
        obtain ⟨hgives, hlinked⟩ := resolve_ok h.named hc
        have hnew : r.contains d.name = false := Bool.eq_false_iff.2 hknown
        have hregister : Registry.register c r = r.insert d.name c := by
          rw [← hgives.name]
          exact Registry.register_of_new (hgives.name.symm ▸ hnew) fun k hk => hlinked.nested hk
        rw [ok_bind, hregister]
        exact ih (hordered.2 ⟨hpast, hknown, exists_resolve.1 ⟨c, hc⟩⟩)
          (h.concat hnew hgives hlinked)

/-- A text with declarations is read exactly if these are in order, and its registry then holds what
they declare and nothing else. -/
theorem read_declares {text : String} (h : Tree.read? text >>= listOfTree? = some ds) :
    ((∃ r, read text = .ok r) ↔ InOrder ds) ∧ ∀ r, read text = .ok r → Declares ds r := by
  have hread : read text = registerAll ds .empty := by
    rw [read, h]
    rfl
  rw [hread]
  exact registerAll_declares .nil .nil

section Sample

instance : DecidableEq Declaration := fun a b =>
  decidable_of_iff (a.name = b.name ∧ a.fields = b.fields ∧ a.indexes = b.indexes) (by
    cases a; cases b; simp)

/-- A class without fields. -/
def tagDeclaration : Declaration := ⟨"Tag", .empty, []⟩

/-- A class with a list of documents of the other one. -/
def bagDeclaration : Declaration := ⟨"Bag", .ofList [("tags", .list (.document "Tag"))], []⟩

/-- The text that declares them in this order. -/
def bagText : String :=
  "\x7b\"classes\":[\x7b\"name\":\"Tag\"\x7d,\x7b\"name\":\"Bag\",\"fields\":" ++
    "\x7b\"tags\":\x7b\"kind\":\"list\",\"element\":" ++
    "\x7b\"kind\":\"document\",\"class\":\"Tag\"\x7d\x7d\x7d\x7d]\x7d"

theorem read_declares_bag :
    (Tree.read? bagText >>= listOfTree?) = some [tagDeclaration, bagDeclaration] ∧
      ∃ r, read bagText = .ok r ∧ Declares [tagDeclaration, bagDeclaration] r := by
  have h : (Tree.read? bagText >>= listOfTree?) =
      some [tagDeclaration, bagDeclaration] := by decide +kernel
  have horder : InOrder ([] ++ [tagDeclaration] ++ [bagDeclaration]) :=
    inOrder_concat.2 ⟨inOrder_concat.2 ⟨.nil, by decide⟩, by decide⟩
  obtain ⟨hread, hdeclares⟩ := read_declares h
  obtain ⟨r, hr⟩ := hread.2 horder
  exact ⟨h, r, hr, hdeclares r hr⟩

example : (registry [bagDeclaration, tagDeclaration]).isOk = false := by decide +kernel

end Sample

end Declaration
end SchemaKeeper
