import Mathlib.Data.List.Nodup
import SchemaKeeper.Proofs.Dataset.Lifecycle
import SchemaKeeper.Proofs.Schema.Delta

/-!
# Where the names of collections come from

Every collection is named with an identifier of its own, drawn for one path of one dataset.  A
ledger tells for each identifier which path and dataset that was, so a name says for which path of
which dataset it was made, and what one dataset drops is never what another uses.
-/
namespace SchemaKeeper

/-- For each identifier that was drawn for a collection, the dataset and the path of it. -/
abbrev Ledger := Nat → Uuid × String

namespace Ledger

/-- Two ledgers agree about the first identifiers. -/
def AgreeBelow (drawn : Nat) (l l' : Ledger) : Prop := ∀ k, k < drawn → l' k = l k

/-- A name was made for a path of a dataset. -/
def Ascribes (l : Ledger) (ids : Nat → Uuid) (drawn : Nat) (name : String) (id : Uuid)
    (path : String) : Prop :=
  ∃ k className, k < drawn ∧ name = Layout.collectionName className (ids k) ∧ l k = (id, path)

variable {l l' : Ledger} {ids : Nat → Uuid} {drawn drawn' : Nat} {name path path' : String}
  {id id' : Uuid}

theorem Ascribes.mono (h : l.Ascribes ids drawn name id path) (hd : drawn ≤ drawn')
    (hl : l.AgreeBelow drawn l') : l'.Ascribes ids drawn' name id path := by
  obtain ⟨k, className, hk, hname, hlk⟩ := h
  exact ⟨k, className, Nat.lt_of_lt_of_le hk hd, hname, (hl k hk).trans hlk⟩

end Ledger

/-- The identifiers that were drawn are distinct, none of them names the collection of
definitions, and the times that were read can be written. -/
structure Supply.Fits (s : Supply) (definitions : String) : Prop where
  distinct : ∀ i j, i < s.drawn → j < s.drawn → s.ids i = s.ids j → i = j
  named : ∀ k, k < s.drawn → ∀ className,
    Layout.collectionName className (s.ids k) ≠ definitions
  writable : ∀ k, k < s.read → (s.clock k).Writable

namespace Layout

/-- The names of collections have a dot. -/
theorem collectionName_ne {name : String} (h : '.' ∉ name.toList) (className : String)
    (id : Uuid) : collectionName className id ≠ name := by
  rintro rfl
  exact h (by simp [collectionName, String.toList_append])

end Layout

theorem Supply.Fits.of_nodup {s : Supply} {definitions : String} (hn : '.' ∉ definitions.toList)
    (hd : ((List.range s.drawn).map s.ids).Nodup)
    (hw : ∀ k ∈ List.range s.read, (s.clock k).Writable) : s.Fits definitions := by
  refine ⟨fun i j hi hj hij => ?_, fun k _ className => Layout.collectionName_ne hn className _,
    fun k hk => hw k (List.mem_range.2 hk)⟩
  exact List.inj_on_of_nodup_map hd (List.mem_range.2 hi) (List.mem_range.2 hj) hij

/-- The identifiers that were drawn are distinct, and the times that were read can be written. -/
def Supply.isFit (s : Supply) : Bool :=
  decide (((List.range s.drawn).map s.ids).Nodup ∧ ∀ k ∈ List.range s.read, (s.clock k).Writable)

theorem Supply.Fits.of_isFit {s : Supply} {definitions : String} (hn : '.' ∉ definitions.toList)
    (h : s.isFit = true) : s.Fits definitions :=
  .of_nodup hn (of_decide_eq_true h).1 (of_decide_eq_true h).2

theorem Supply.Fits.of_later {s s' : Supply} {definitions : String} (h : s'.Fits definitions)
    (hl : s.Later s') : s.Fits definitions := by
  refine ⟨fun i j hi hj hij => ?_, fun k hk className => ?_, fun k hk => ?_⟩
  · rw [← hl.ids] at hij
    exact h.distinct i j (Nat.lt_of_lt_of_le hi hl.drawn) (Nat.lt_of_lt_of_le hj hl.drawn) hij
  · rw [← hl.ids]
    exact h.named k (Nat.lt_of_lt_of_le hk hl.drawn) className
  · rw [← hl.clock]
    exact h.writable k (Nat.lt_of_lt_of_le hk hl.read)

namespace Supply.Fits
variable {s : Supply} {definitions name path path' : String} {id id' : Uuid} {l : Ledger}

/-- A name was made for one path of one dataset. -/
theorem ascribes_unique (h : s.Fits definitions) (ha : l.Ascribes s.ids s.drawn name id path)
    (ha' : l.Ascribes s.ids s.drawn name id' path') : id = id' ∧ path = path' := by
  obtain ⟨k, className, hk, hname, hlk⟩ := ha
  obtain ⟨k', className', hk', hname', hlk'⟩ := ha'
  have hids := Layout.collectionName_injective (hname.symm.trans hname')
  have hkk := h.distinct k k' hk hk' hids
  subst hkk
  rw [hlk] at hlk'
  exact Prod.mk.inj hlk'

theorem ne_definitions (h : s.Fits definitions) (ha : l.Ascribes s.ids s.drawn name id path) :
    name ≠ definitions := by
  obtain ⟨k, className, hk, rfl, -⟩ := ha
  exact h.named k hk className

end Supply.Fits

namespace Definition

/-- The definition names a collection, in use or retired. -/
def Names (d : Definition) (name : String) : Prop :=
  name ∈ d.collections.values ∨ name ∈ d.retired

/-- A later version of a definition has the name of the earlier one and names what that named. -/
structure Follows (later earlier : Definition) : Prop where
  name : later.name = earlier.name
  keeps : ∀ name, earlier.Names name → later.Names name

theorem Follows.refl (d : Definition) : d.Follows d := ⟨rfl, fun _ h => h⟩

theorem Follows.trans {a b c : Definition} (h : a.Follows b) (h' : b.Follows c) : a.Follows c :=
  ⟨h.name.trans h'.name, fun name hn => h.keeps name (h'.keeps name hn)⟩

/-- The definition is one that a dataset can have: its fields are in order, its identifier was
drawn, and each of its names was made for it.  As long as the clients guard the roots of their
schemas, its root is a document. -/
structure Traced (guarded : Prop) (l : Ledger) (s : Supply) (d : Definition) : Prop where
  ascending : d.fields.Pairwise fun a b => a.path < b.path
  root : guarded → ∃ f ∈ d.fields, f.path = "" ∧ (∃ name, f.type = .document name) ∧
    f.collection ≠ none
  identifier : ∃ k, k < s.drawn ∧ d.id = s.ids k
  live : ∀ path name, d.collections.get? path = some name →
    l.Ascribes s.ids s.drawn name d.id path
  retired : ∀ name ∈ d.retired, ∃ path, l.Ascribes s.ids s.drawn name d.id path
  apart : ∀ name ∈ d.retired, name ∉ d.collections.values
  distinct : d.retired.Nodup
  writable : d.Writable

variable {guarded : Prop} {l l' : Ledger} {s s' : Supply} {d : Definition}

theorem Traced.mono (h : d.Traced guarded l s) (hs : s.Later s') (hl : l.AgreeBelow s.drawn l') :
    d.Traced guarded l' s' := by
  obtain ⟨k, hk, hid⟩ := h.identifier
  refine ⟨h.ascending, h.root, ⟨k, Nat.lt_of_lt_of_le hk hs.drawn, by rw [hs.ids, hid]⟩,
    fun path name hn => ?_, fun name hn => ?_, h.apart, h.distinct, h.writable⟩
  · rw [hs.ids]
    exact (h.live path name hn).mono hs.drawn hl
  · obtain ⟨path, ha⟩ := h.retired name hn
    rw [hs.ids]
    exact ⟨path, ha.mono hs.drawn hl⟩

/-- An identifier that is drawn later is none that a definition has. -/
theorem Traced.ne_fresh {definitions : String} (h : d.Traced guarded l s) (hs : s.Later s')
    (hf : s'.Fits definitions) {k : Nat} (hk : s.drawn ≤ k) (hk' : k < s'.drawn) :
    d.id ≠ s'.ids k := by
  intro hid
  obtain ⟨j, hj, hdj⟩ := h.identifier
  have hids : s'.ids j = s'.ids k := by rw [← hid, hdj, hs.ids]
  have hjk := hf.distinct j k (Nat.lt_of_lt_of_le hj hs.drawn) hk' hids
  omega

theorem Traced.ascribes (h : d.Traced guarded l s) {name : String} (hn : d.Names name) :
    ∃ path, l.Ascribes s.ids s.drawn name d.id path := by
  rcases hn with hn | hn
  · obtain ⟨path, hp⟩ := Keyed.mem_values.1 hn
    exact ⟨path, h.live path name hp⟩
  · exact h.retired name hn

/-- A name that is made later is none that a definition names. -/
theorem Traced.ne_collectionName {definitions : String} (h : d.Traced guarded l s)
    (hs : s.Later s') (hf : s'.Fits definitions) {name : String} (hn : d.Names name) {k : Nat}
    (hk : s.drawn ≤ k) (hk' : k < s'.drawn) (className : String) :
    name ≠ Layout.collectionName className (s'.ids k) := by
  intro heq
  obtain ⟨path, j, className', hj, hname, -⟩ := h.ascribes hn
  have hids := Layout.collectionName_injective (hname.symm.trans heq)
  rw [← hs.ids] at hids
  have hjk := hf.distinct j k (Nat.lt_of_lt_of_le hj hs.drawn) hk' hids
  omega

end Definition

namespace Layout

/-- The collections of definitions were each made for their path, if the known ones were: the
ledger is carried on to the identifiers that were drawn. -/
theorem exists_ledger {ids : Nat → Uuid} {known : Collections} {drawn n : Nat} {s : Schema}
    {ds : List FieldDefinition} (h : define ids known drawn s.entries = .ok (ds, n)) (l : Ledger)
    (id : Uuid) (hknown : ∀ path name, known.get? path = some name →
      l.Ascribes ids drawn name id path) :
    ∃ l' : Ledger, l.AgreeBelow drawn l' ∧ ∀ path name,
      (FieldDefinition.collections ds).get? path = some name →
        l'.Ascribes ids n name id path := by
  obtain ⟨hn, owner, hall⟩ := define_ok h
  have hl : l.AgreeBelow drawn fun k => if k < drawn then l k else (id, owner k) := by
    intro k hk
    simp [hk]
  refine ⟨_, hl, fun path name hname => ?_⟩
  obtain ⟨d, hd, rfl, hdn⟩ :=
    (collections_get?_iff (describes_of_define h).ascending).1 hname
  obtain ⟨e, -, hp, t, -, -, ⟨-, hc⟩ | ⟨c, name', -, hc, hk | ⟨-, k, hlo, hhi, hname', ho⟩⟩⟩ :=
    exists_of_mem_right hall hd
  · rw [hdn] at hc
    cases hc
  · rw [hdn] at hc
    injection hc with hc
    subst hc
    rw [hp]
    exact (hknown _ _ hk).mono hn hl
  · rw [hdn] at hc
    injection hc with hc
    subst hc
    refine ⟨k, c.name, hhi, hname', ?_⟩
    simp only [if_neg (Nat.not_lt.2 hlo), ho, hp]

/-- The definition of a root document names its class and has a collection. -/
theorem Describes.root_definition {ds : List FieldDefinition} {s : Schema} (h : Describes ds s)
    {k : DocClass} (hroot : s.typeAt "" = .ok (.document k)) :
    ∃ f ∈ ds, f.path = "" ∧ (∃ name, f.type = .document name) ∧ f.collection ≠ none := by
  obtain ⟨f, hf, -⟩ := Schema.typeAt_eq_ok.1 hroot
  obtain ⟨d, hd, hp⟩ := h.complete "" f hf
  obtain ⟨t, ht, hdt, hc⟩ := h.sound d hd
  rw [hp, hroot] at ht
  injection ht with ht
  subst ht
  exact ⟨d, hd, hp, ⟨k.name, hdt⟩, fun hn => by simpa [Shape.nested?] using hc.1 hn⟩

end Layout

/-- The collections of a provision were each made for their path, if the known ones were. -/
theorem Provision.LaidOut.exists_ledger {ids : Nat → Uuid} {known : Collections} {s : Schema}
    {drawn drawn' : Nat} {c c' : Catalog} {p : Provision}
    (h : LaidOut ids known s drawn drawn' c c' p) (l : Ledger) (id : Uuid)
    (hknown : ∀ path name, known.get? path = some name → l.Ascribes ids drawn name id path) :
    ∃ l' : Ledger, l.AgreeBelow drawn l' ∧ ∀ path name, p.collections.get? path = some name →
      l'.Ascribes ids drawn' name id path := by
  obtain ⟨n, hdefine, hn⟩ := h.define
  obtain ⟨l', hl', ha⟩ := Layout.exists_ledger hdefine l id hknown
  exact ⟨l', hl', fun path name hp => (ha path name hp).mono hn fun _ _ => rfl⟩

theorem Provision.LaidOut.describes {ids : Nat → Uuid} {known : Collections} {s : Schema}
    {drawn drawn' : Nat} {c c' : Catalog} {p : Provision}
    (h : LaidOut ids known s drawn drawn' c c' p) : Layout.Describes p.definitions s := by
  obtain ⟨n, hdefine, -⟩ := h.define
  exact Layout.describes_of_define hdefine

theorem Provision.LaidOut.drawn_le {ids : Nat → Uuid} {known : Collections} {s : Schema}
    {drawn drawn' : Nat} {c c' : Catalog} {p : Provision}
    (h : LaidOut ids known s drawn drawn' c c' p) : drawn ≤ drawn' := by
  obtain ⟨n, hdefine, hn⟩ := h.define
  exact Nat.le_trans (Layout.define_ok hdefine).1 hn

theorem FieldDefinition.sorted_of_ascending {ds : List FieldDefinition}
    (h : ds.Pairwise fun a b => a.path < b.path) : sorted ds = ds :=
  Ascending.arrange_of_ordered path (h.imp fun hab => Std.le_of_lt hab)

/-! ## Definitions that are stored -/

namespace Definition
variable {guarded : Prop} {l : Ledger} {s : Supply} {ds : List FieldDefinition} {schema : Schema}
  {k : DocClass}

theorem collections_setFields (d : Definition)
    (h : ds.Pairwise fun a b => a.path < b.path) :
    (d.setFields ds).collections = FieldDefinition.collections ds := by
  unfold setFields collections
  rw [FieldDefinition.sorted_of_ascending h]

theorem mem_retire {d : Definition} {names : List String} {live : Collections} {name : String} :
    name ∈ (d.retire names live).retired ↔
      (name ∈ d.retired ∨ name ∈ names) ∧ name ∉ live.values := by
  have hall : name ∈ (Keyed.ofList ((d.retired ++ names).map fun name => (name, ()))).keys ↔
      name ∈ d.retired ∨ name ∈ names := by
    rw [Keyed.mem_keys]
    constructor
    · rintro ⟨⟨⟩, h⟩
      obtain ⟨n, hn, heq⟩ := List.mem_map.1 (Keyed.mem_of_get?_ofList h)
      injection heq with heq
      exact List.mem_append.1 (heq ▸ hn)
    · intro h
      refine ⟨(), (Keyed.get?_ofList_iff fun _ _ _ _ _ => rfl).2 ?_⟩
      exact List.mem_map.2 ⟨name, List.mem_append.2 h, rfl⟩
  rw [retire, List.mem_filter, hall]
  simp

theorem nodup_retire (d : Definition) (names : List String) (live : Collections) :
    (d.retire names live).retired.Nodup :=
  (Keyed.nodup_keys _).filter _

/-- The definition of a new dataset, laid out without known collections. -/
theorem traced_new {id : Uuid} {now : Moment} {name version : String}
    {mediaType : Option MediaType} {persistent : Bool} (hd : Layout.Describes ds schema)
    (hroot : schema.typeAt "" = .ok (.document k)) (hid : ∃ k, k < s.drawn ∧ id = s.ids k)
    (hlive : ∀ path name, (FieldDefinition.collections ds).get? path = some name →
      l.Ascribes s.ids s.drawn name id path) (hnow : now.Writable) :
    (Definition.new id now name ds mediaType persistent version).Traced guarded l s := by
  have hsorted := FieldDefinition.sorted_of_ascending hd.ascending
  refine ⟨?_, fun _ => ?_, hid, ?_, nofun, nofun, .nil, hnow, hnow⟩
  · rw [new, hsorted]
    exact hd.ascending
  · rw [new, hsorted]
    exact hd.root_definition hroot
  · rw [collections, new, hsorted]
    exact hlive

/-- The definition of a new dataset is traced by a ledger that goes on with the given one.  Its
identifier was drawn after those of its collections. -/
theorem exists_traced_new {drawn drawn' i : Nat} {mid mid' : Catalog} {p : Provision}
    {now : Moment} {name version : String} {mediaType : Option MediaType} {persistent : Bool}
    (h : Provision.LaidOut s.ids .empty schema drawn drawn' mid mid' p)
    (hroot : schema.typeAt "" = .ok (.document k)) (hi : drawn' ≤ i) (hi' : i < s.drawn)
    (hnow : now.Writable) (l : Ledger) :
    ∃ l' : Ledger, l.AgreeBelow drawn l' ∧
      (Definition.new (s.ids i) now name p.definitions mediaType persistent version).Traced
        guarded l' s := by
  obtain ⟨l', hl', ha⟩ := h.exists_ledger l (s.ids i) nofun
  refine ⟨l', hl', traced_new h.describes hroot ⟨i, hi', rfl⟩ (fun path name hp => ?_) hnow⟩
  exact (ha path name hp).mono (Nat.le_trans hi (Nat.le_of_lt hi')) fun _ _ => rfl

end Definition

namespace Dataset
variable {guarded : Prop} {l : Ledger} {s : Supply} {schema : Schema} {h : Holding}
  {latest : Definition} {provision : Provision}

@[simp] theorem committed_id : (committed h latest provision).id = h.definition.id := rfl

theorem collections_committed (hd : Layout.Describes provision.definitions schema) :
    (committed h latest provision).collections = provision.collections :=
  Definition.collections_setFields _ hd.ascending

theorem mem_retired_committed {name : String} :
    name ∈ (committed h latest provision).retired ↔
      (name ∈ latest.retired ∨
        name ∈ (h.definition.collections.union latest.collections).values) ∧
      name ∉ provision.collections.values := Definition.mem_retire

/-- A commit keeps every name of the definition that it read. -/
theorem names_committed (hd : Layout.Describes provision.definitions schema) {name : String}
    (hn : latest.Names name) : (committed h latest provision).Names name := by
  unfold Definition.Names
  rw [collections_committed hd, mem_retired_committed]
  by_cases hlive : name ∈ provision.collections.values
  · exact .inl hlive
  · refine .inr ⟨?_, hlive⟩
    rcases hn with hn | hn
    · exact .inr (Keyed.mem_values_union hn)
    · exact .inl hn

/-- A commit makes up no name beyond those that it lays out. -/
theorem names_of_committed {name : String} (hn : (committed h latest provision).Names name) :
    name ∈ (committed h latest provision).collections.values ∨ latest.Names name ∨
      h.definition.Names name := by
  rcases hn with hn | hn
  · exact .inl hn
  · right
    rcases (mem_retired_committed.1 hn).1 with hn | hn
    · exact .inl (.inr hn)
    · obtain ⟨path, hp⟩ := Keyed.mem_values.1 hn
      rw [Keyed.get?_union, Option.or_eq_some_iff] at hp
      rcases hp with hp | ⟨-, hp⟩
      · exact .inl (.inl (Keyed.mem_values.2 ⟨path, hp⟩))
      · exact .inr (.inl (Keyed.mem_values.2 ⟨path, hp⟩))

/-- The names that a commit knows were made for the dataset. -/
theorem ascribes_known {d : Definition} (hd : d.Traced guarded l s)
    (hlatest : latest.Traced guarded l s)
    (hid : latest.id = d.id) {path name : String}
    (hp : (d.collections.union latest.collections).get? path = some name) :
    l.Ascribes s.ids s.drawn name d.id path := by
  rw [Keyed.get?_union, Option.or_eq_some_iff] at hp
  rcases hp with hp | ⟨-, hp⟩
  · exact hid ▸ hlatest.live path name hp
  · exact hd.live path name hp

/-- What a commit stores is traced, if the definitions are that it started from. -/
theorem traced_committed (hh : h.definition.Traced guarded l s)
    (hlatest : latest.Traced guarded l s) (hid : latest.id = h.definition.id)
    (hd : Layout.Describes provision.definitions schema)
    (hroot : guarded → ∃ k, schema.typeAt "" = .ok (.document k))
    (hlive : ∀ path name, provision.collections.get? path = some name →
      l.Ascribes s.ids s.drawn name h.definition.id path) :
    (committed h latest provision).Traced guarded l s := by
  have hcollections : (committed h latest provision).collections = provision.collections :=
    collections_committed hd
  have hfields : (committed h latest provision).fields = provision.definitions :=
    FieldDefinition.sorted_of_ascending hd.ascending
  refine ⟨?_, fun hg => ?_, hh.identifier, ?_, fun name hname => ?_, fun name hname => ?_,
    Definition.nodup_retire _ _ _, hh.writable⟩
  · rw [hfields]
    exact hd.ascending
  · obtain ⟨k, hk⟩ := hroot hg
    rw [hfields]
    exact hd.root_definition hk
  · rw [hcollections]
    exact hlive
  · rw [committed_id]
    rcases (mem_retired_committed.1 hname).1 with hname | hname
    · rw [← hid]
      exact hlatest.retired name hname
    · obtain ⟨path, hpath⟩ := Keyed.mem_values.1 hname
      exact ⟨path, ascribes_known hh hlatest hid hpath⟩
  · rw [hcollections]
    exact (mem_retired_committed.1 hname).2

/-- What a commit stores is traced by a ledger that goes on with the given one. -/
theorem exists_traced_committed {start : Supply} {drawn drawn' : Nat} {mid mid' : Catalog}
    (hlaid : Provision.LaidOut s.ids (h.definition.collections.union latest.collections) schema
      drawn drawn' mid mid' provision)
    (hh : h.definition.Traced guarded l start) (hlatest : latest.Traced guarded l start)
    (hid : latest.id = h.definition.id) (hs : start.Later s) (hdrawn : start.drawn ≤ drawn)
    (hdrawn' : drawn' ≤ s.drawn)
    (hroot : guarded → ∃ k, schema.typeAt "" = .ok (.document k)) :
    ∃ l' : Ledger, l.AgreeBelow start.drawn l' ∧
      (committed h latest provision).Traced guarded l' s := by
  obtain ⟨l', hl', ha⟩ := hlaid.exists_ledger l h.definition.id fun path name hp => by
    have hknown := ascribes_known hh hlatest hid hp
    rw [← hs.ids] at hknown
    exact hknown.mono hdrawn fun _ _ => rfl
  have hl : l.AgreeBelow start.drawn l' := fun k hk => hl' k (Nat.lt_of_lt_of_le hk hdrawn)
  exact ⟨l', hl, traced_committed (hh.mono hs hl) (hlatest.mono hs hl) hid hlaid.describes hroot
    fun path name hp => (ha path name hp).mono hdrawn' fun _ _ => rfl⟩

end Dataset
end SchemaKeeper
