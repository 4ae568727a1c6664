import SchemaKeeper.Proofs.Record.Readable

/-!
# Records that can be read again

A record that the store let through can be read again if no path has another type in the schema
that reads it than in the one that let it through.  What stands in the place of a document may be
another one of the same record with the same identifier, so it is not the fields of this one
document that are read back; but whichever it is, it was let through as well.
-/
namespace SchemaKeeper

/-- No path has another type in the schema than in the definitions. -/
def Schema.KeepsTypes (s : Schema) (ds : List FieldDefinition) : Prop :=
  ∀ f ∈ ds, ∀ t ∈ s.declares? f.path, f.type = FieldType.descriptor t

instance (s : Schema) (ds : List FieldDefinition) : Decidable (s.KeepsTypes ds) :=
  inferInstanceAs (Decidable (∀ f ∈ ds, ∀ t ∈ s.declares? f.path, f.type = FieldType.descriptor t))

theorem Layout.Describes.keepsTypes {s : Schema} {ds : List FieldDefinition}
    (h : Layout.Describes ds s) : s.KeepsTypes ds := by
  intro f hf t ht
  have hdeclared := h.declares_iff.2 ⟨f, hf, rfl, rfl⟩
  rw [← Schema.declares?, ht] at hdeclared
  exact (Option.some.inj hdeclared).symm

namespace Value

/-- The fields of a document value. -/
def fields : Value → List (String × Value)
  | .document _ _ fields => fields
  | _ => []

/-- The documents inside a document inside one of the fields are inside the fields. -/
theorem fieldsDocuments_subset {path q : String} {id : Uuid} {className : String}
    {inner es : List (String × Value)}
    (h : (q, Value.document id className inner) ∈ fieldsDocuments path es) :
    fieldsDocuments q inner ⊆ fieldsDocuments path es := by
  have hdown : PassesDown fun q v => documents q v ⊆ fieldsDocuments path es :=
    ⟨fun hs v hv d hd => hs (mem_itemsDocuments.2 ⟨v, hv, hd⟩),
      fun hs v hv d hd => hs (mem_itemsDocuments.2 ⟨v, hv, hd⟩),
      fun hs e he d hd => hs (mem_entriesDocuments.2 ⟨e, he, hd⟩),
      fun hs e he d hd => hs (List.mem_cons_of_mem _ (mem_fieldsDocuments.2 ⟨e, he, hd⟩))⟩
  have hfield : ∀ e ∈ es, documents (Path.join path e.1) e.2 ⊆ fieldsDocuments path es :=
    fun e he d hd => mem_fieldsDocuments.2 ⟨e, he, hd⟩
  exact List.Subset.trans (List.subset_cons_self _ _) (hdown.fieldsDocuments es hfield _ h)

theorem passesDown_isAscending : PassesDown fun _ v => v.isAscending = true := by
  refine ⟨fun h => ?_, fun h => ?_, fun h => ?_, fun h => ?_⟩
  · exact List.all_eq_true.1 (itemsAscending_eq _ ▸ h)
  · exact List.all_eq_true.1 (itemsAscending_eq _ ▸ h)
  · exact List.all_eq_true.1 (entriesAscending_eq _ ▸ (Bool.and_eq_true_iff.1 h).2)
  · exact List.all_eq_true.1 (entriesAscending_eq _ ▸ (Bool.and_eq_true_iff.1 h).2)

end Value

namespace Record

open Value

variable {catalog : Catalog} {s : Schema} {c : Collections} {path : String}

/-! ## Documents -/

/-- A document at a path carries its identifier, and what it holds has the form of the declared
types. -/
structure Suited (s : Schema) (path : String) (id : Uuid) (fields : List (String × Value)) :
    Prop where
  ordered : Entries.Ordered fields
  own : (storedDocument id fields).get? "_id" = some (.string id.text)
  suits : ∀ e ∈ fields, e.1 ≠ "_id" →
    e.2.stored.suits (FieldType.descriptor (declared s (Path.join path e.1))) = true

/-- A document at a path can be read again: moreover it does not forge references. -/
structure Legible (s : Schema) (path : String) (id : Uuid) (fields : List (String × Value)) : Prop
    extends Suited s path id fields where
  genuine : ∀ e ∈ fields, e.1 ≠ "_id" → e.2.forges (declared s (Path.join path e.1)) = false

/-- A document that was let through suits the declared types if its entries ascend and no path was
given another type meanwhile. -/
theorem suited_of_admitted {schema : Schema} {ds : List FieldDefinition} {id : Uuid}
    {fields : List (String × Value)} (hd : Layout.Describes ds schema) (hs : s.KeepsTypes ds)
    (ho : Entries.Ordered fields)
    (ha : Part.Admitted schema c ⟨path, id, storedDocument id fields⟩) :
    Suited s path id fields := by
  refine ⟨ho, ha.own, fun e he hne => ?_⟩
  have hget : (storedDocument id fields).get? e.1 = some e.2.stored := by
    rw [storedDocument, Json.ofMembers, Json.get?, get?_storedDocument ho,
      Entries.get?_of_mem ho he]
    rfl
  have hadmits := ha.members e.1 e.2.stored hget
  unfold Schema.admits at hadmits
  split at hadmits
  · rename_i t' ht'
    unfold Schema.memberType? at ht'
    split at ht'
    · rw [declared, ← Schema.declares?]
      cases ht : s.declares? (Path.join path e.1) with
      | none => rfl
      | some t =>
        obtain ⟨f, hf, hpath, htype⟩ :=
          hd.declares_iff.1 (show _ = some (FieldType.descriptor t') by rw [ht']; rfl)
        rw [Option.getD_some, ← hs f hf t (hpath ▸ ht), htype]
        exact hadmits
    · cases ht'
  · exact absurd (eq_of_beq hadmits) hne

theorem forall₂_sameMembers : ∀ {as bs : List (String × Json)}, Json.sameMembers as bs = true →
    List.Forall₂ (fun b a => a.1 = b.1 ∧ a.2.same b.2 = true) bs as
  | [], [], _ => .nil
  | (_, _) :: _, (_, _) :: _, h => by
    simp only [Json.sameMembers, Bool.and_eq_true, beq_iff_eq] at h
    exact .cons h.1 (forall₂_sameMembers h.2)

/-- A document that is the same as a suited one has its identifier, and members from its fields. -/
theorem Suited.members_of_same {id : Uuid} {fields : List (String × Value)} {j : Json}
    (h : Suited s path id fields) (hj : j.same (storedDocument id fields) = true) :
    ∃ members, j = .object members ∧ (∀ path, identifier path (.object members) = .ok id) ∧
      ∀ m ∈ ownMembers members, ∃ e ∈ fields, e.1 = m.1 ∧ e.1 ≠ "_id" ∧
        m.2.same e.2.stored = true := by
  obtain ⟨members, rfl, hid, hown⟩ := read_storedDocument h.ordered h.own hj
  refine ⟨members, rfl, hid, fun m hm => ?_⟩
  obtain ⟨m', hm', hname, hsame⟩ := Layout.exists_of_mem_right (forall₂_sameMembers hown) hm
  rw [storedEntries_eq, Entries.mapValues] at hm'
  obtain ⟨e, he, rfl⟩ := List.mem_map.1 hm'
  obtain ⟨he, hne⟩ := List.mem_filter.1 he
  exact ⟨e, he, hname.symm, bne_iff_ne.1 hne, hsame⟩

theorem exists_readFields {ask : String → Json → Except Refusal Value} :
    ∀ {ms : List (String × Json)},
      (∀ m ∈ ms, ∃ u, ask (Path.join path m.1) m.2 = .ok u ∧ u.isStorable = true) →
        ∃ us, readFields ask path ms = .ok us ∧ entriesStorable us = true
  | [], _ => ⟨[], rfl, rfl⟩
  | (name, j) :: ms, h => by
    obtain ⟨⟨u, hread, hu⟩, hrest⟩ := List.forall_mem_cons.1 h
    obtain ⟨us, hreads, hus⟩ := exists_readFields hrest
    exact ⟨(name, u) :: us, by rw [readFields, hread, ok_bind, hreads]; rfl,
      Bool.and_eq_true_iff.2 ⟨hu, hus⟩⟩

/-- Under the path and the identifier of each document stands what is the same as the stored form
of one of the documents with this path and this identifier. -/
def Covers (catalog : Catalog) (c : Collections) (documents : List (String × Value)) : Prop :=
  ∀ path id className fields, (path, Value.document id className fields) ∈ documents →
    ∃ name j className' fields', (path, Value.document id className' fields') ∈ documents ∧
      c.get? path = some name ∧ catalog.findOne name "_id" (.string id.text) = some j ∧
        j.same (storedDocument id fields') = true

/-- Where documents of one path and one identifier have the same stored form, each of them stands
there itself. -/
theorem Covers.stands {r : Record} (h : Covers catalog c r.documents) (hr : r.Unambiguous) :
    Stands catalog c r.documents := by
  intro path id className fields hd
  obtain ⟨name, j, className', fields', hd', hname, hfind, hj⟩ := h path id className fields hd
  exact ⟨name, j, hname, hfind, Json.same_trans hj
    (hr _ (mem_parts.2 ⟨_, hd', rfl⟩) _ (mem_parts.2 ⟨_, hd, rfl⟩) rfl rfl)⟩

/-- The documents can all be read again. -/
structure Readable (catalog : Catalog) (s : Schema) (c : Collections)
    (documents : List (String × Value)) : Prop where
  covers : Covers catalog c documents
  below : ∀ path id className fields,
    (path, Value.document id className fields) ∈ documents → path ≠ ""
  closed : ∀ path id className fields, (path, Value.document id className fields) ∈ documents →
    fieldsDocuments path fields ⊆ documents
  legible : ∀ path id className fields, (path, Value.document id className fields) ∈ documents →
    Legible s path id fields

/-- The reference to each of the documents leads to a document.  What stands in its place may be
another one of the same identifier, so the induction is on how many references are followed. -/
theorem Readable.exists_follow {documents : List (String × Value)}
    (h : Readable catalog s c documents) : ∀ (depth : Nat) {path : String} {id : Uuid}
      {className : String} {fields : List (String × Value)},
        (path, Value.document id className fields) ∈ documents → room c path ≤ depth →
          ∀ k, ∃ u, follow catalog s c depth path k id.text = .ok u ∧
            u.className? = some k.name ∧ u.isStorable = true := by
  intro depth
  induction depth with
  | zero =>
    intro path id className fields hd hroom
    obtain ⟨name, -, -, -, -, hname, -⟩ := h.covers _ _ _ _ hd
    have hless := room_join (h.below _ _ _ _ hd) hname ""
    omega
  | succ depth ih =>
    intro path id className fields hd hroom k
    obtain ⟨name, j, className', fields', hd', hname, hfind, hj⟩ := h.covers _ _ _ _ hd
    have hbelow := h.below _ _ _ _ hd'
    have hlegible := h.legible _ _ _ _ hd'
    obtain ⟨members, rfl, hid, hmembers⟩ := hlegible.members_of_same hj
    obtain ⟨us, hread, hstorable⟩ : ∃ us, readFields
        (fun p j => readAs (follow catalog s c depth p) p (declared s p) j) path
          (ownMembers members) = .ok us ∧ entriesStorable us = true := by
      refine exists_readFields fun m hm => ?_
      obtain ⟨e, he, hfield, hne, hsame⟩ := hmembers m hm
      rw [← hfield]
      have hleads : Leads (follow catalog s c depth (Path.join path e.1)) (Path.join path e.1)
          e.2 := by
        intro id'' className'' fields'' hin k''
        have hless := room_join hbelow hname e.1
        refine ih (h.closed _ _ _ _ hd' (mem_fieldsDocuments.2 ⟨e, he, hin⟩)) (by omega) k''
      obtain ⟨u, hu, hreturns⟩ := exists_readAs _ hleads (hlegible.genuine e he hne)
        (hlegible.suits e he hne) hsame
      exact ⟨u, hu, hreturns.storable⟩
    exact ⟨_, follow_eq_ok hname hfind (hid path) hread, rfl, hstorable⟩

/-! ## Whole records -/

theorem exists_set {r : Record} {name : String} {t : FieldType} {v : Value}
    (hname : isTopLevel name = true) (ht : s.declares? name = some t) (hv : v.fits t = true) :
    ∃ r', r.set s name v = .ok r' ∧ r'.id = r.id := by
  obtain ⟨h, hh⟩ : ∃ h, hold name 0 t v = .ok h := (Held.hold_ok_iff t).2 hv
  exact ⟨_, set_of_hold hname ht hh, rfl⟩

theorem exists_takeFields : ∀ (ms : List (String × Json)) {r : Record},
    (∀ m ∈ ms, ∀ f ∈ s.get? m.1, isTopLevel m.1 = true ∧ ∃ t u, f.type = some t ∧
      readAs (follow catalog s c (followLimit catalog c) m.1) m.1 t m.2 = .ok u ∧
        u.fits t = true) →
      ∃ r', takeFields catalog s c ms r = .ok r' ∧ r'.id = r.id
  | [], r, _ => ⟨r, rfl, rfl⟩
  | (name, j) :: ms, r, h => by
    obtain ⟨hfirst, hrest⟩ := List.forall_mem_cons.1 h
    cases hfield : s.get? name with
    | none =>
      obtain ⟨r', htake, hid⟩ := exists_takeFields ms (r := r) hrest
      exact ⟨r', by rw [takeFields, hfield]; exact htake, hid⟩
    | some field =>
      obtain ⟨htop, t, u, htype, hread, hfits⟩ := hfirst field hfield
      have ht : s.declares? name = some t := Option.bind_eq_some_iff.2 ⟨field, hfield, htype⟩
      obtain ⟨r₁, hset, hid₁⟩ := exists_set (r := r) htop ht hfits
      obtain ⟨r', htake, hid⟩ := exists_takeFields ms (r := r₁) hrest
      refine ⟨r', ?_, hid.trans hid₁⟩
      rw [takeFields, hfield]
      simp only [Field.requireType, htype, ok_bind, hread, isNull_of_fits hfits,
        Bool.false_eq_true, if_false, hset, htake]

/-- Each value of a field that the schema knows is an instance of the type of this field. -/
def FitsKnown (s : Schema) (r : Record) : Prop :=
  ∀ e ∈ r.values.entries, ∀ f ∈ s.get? e.1, ∃ t ∈ f.type, e.2.fits t = true

instance (s : Schema) (r : Record) : Decidable (r.FitsKnown s) :=
  inferInstanceAs (Decidable
    (∀ e ∈ r.values.entries, ∀ f ∈ s.get? e.1, ∃ t ∈ f.type, e.2.fits t = true))

/-- What is the same as a stored record is read as a record with the same identifier. -/
theorem Readable.exists_ofDocument {r : Record} {j : Json} (root : DocClass)
    (h : Readable catalog s c r.documents) (hr : r.Formed) (hf : r.FitsKnown s)
    (hl : Legible s "" r.id r.values.entries) (hj : j.same r.document = true) :
    ∃ r', ofDocument catalog s c root j = .ok r' ∧ r'.id = r.id := by
  obtain ⟨members, rfl, hid, hmembers⟩ := hl.members_of_same hj
  have htakes : ∀ m ∈ ownMembers members, ∀ f ∈ s.get? m.1, isTopLevel m.1 = true ∧
      ∃ t u, f.type = some t ∧
        readAs (follow catalog s c (followLimit catalog c) m.1) m.1 t m.2 = .ok u ∧
          u.fits t = true := by
    intro m hm f hfield
    obtain ⟨e, he, hname, hne, hsame⟩ := hmembers m hm
    rw [← hname] at hfield ⊢
    obtain ⟨t, ht, hfits⟩ := hf e he f hfield
    have hroom : room c e.1 ≤ followLimit catalog c := room_le_followLimit e.1
    have hleads : Leads (follow catalog s c (followLimit catalog c) e.1) e.1 e.2 := by
      intro id className fields hin k
      rw [← Path.join_root e.1] at hin
      exact h.exists_follow _ (mem_fieldsDocuments.2 ⟨e, he, hin⟩) hroom k
    have hdeclares : s.declares? e.1 = some t := Option.bind_eq_some_iff.2 ⟨f, hfield, ht⟩
    have hsuits := hl.suits e he hne
    rw [Path.join_root, declared, ← Schema.declares?, hdeclares] at hsuits
    obtain ⟨u, hu, hreturns⟩ := exists_readAs t hleads (forges_of_fits t hfits) hsuits hsame
    exact ⟨hr.topLevel e he, t, u, ht, hu, hreturns.fits hfits⟩
  obtain ⟨r', htake, hid'⟩ := exists_takeFields _ (r := .empty r.id root) htakes
  exact ⟨r', by rw [ofDocument, hid, ok_bind]; exact htake, hid'⟩

/-- No field of a document inside the record holds a dict where the schema declares a document. -/
def IsGenuine (s : Schema) (r : Record) : Prop :=
  ∀ d ∈ r.documents, ∀ e ∈ d.2.fields, e.2.forges (declared s (Path.join d.1 e.1)) = false

instance (s : Schema) (r : Record) : Decidable (r.IsGenuine s) :=
  inferInstanceAs (Decidable (∀ d ∈ r.documents, ∀ e ∈ d.2.fields,
    e.2.forges (declared s (Path.join d.1 e.1)) = false))

/-- The documents inside a record that was let through suit the declared types. -/
theorem suited_of_mem_documents {schema : Schema} {ds : List FieldDefinition} {r : Record}
    (hd : Layout.Describes ds schema) (hs : s.KeepsTypes ds) (hr : r.Formed)
    (ha : ∀ p ∈ r.written, p.Admitted schema c) {id : Uuid} {className : String}
    {fields : List (String × Value)}
    (hmem : (path, Value.document id className fields) ∈ r.documents) :
    Suited s path id fields := by
  have hascending : (Value.document id className fields).isAscending = true :=
    passesDown_isAscending.fieldsDocuments r.values.entries
      (List.all_eq_true.1 (entriesAscending_eq _ ▸ hr.ascending)) _ hmem
  exact suited_of_admitted hd hs (of_decide_eq_true (Bool.and_eq_true_iff.1 hascending).1)
    (ha _ (List.mem_append_left _ (mem_parts.2 ⟨_, hmem, rfl⟩)))

/-- A record that was let through suits the declared types. -/
theorem suited_root {schema : Schema} {ds : List FieldDefinition} {r : Record}
    (hd : Layout.Describes ds schema) (hs : s.KeepsTypes ds)
    (ha : ∀ p ∈ r.written, p.Admitted schema c) : Suited s "" r.id r.values.entries :=
  suited_of_admitted hd hs r.values.ordered
    (ha ⟨"", r.id, r.document⟩ (List.mem_append_right _ List.mem_cons_self))

/-- The documents inside a record that was let through can be read again. -/
theorem readable_of_admitted {schema : Schema} {ds : List FieldDefinition} {r : Record}
    (hd : Layout.Describes ds schema) (hs : s.KeepsTypes ds) (hr : r.Formed) (hg : r.IsGenuine s)
    (ha : ∀ p ∈ r.written, p.Admitted schema c) (hcovers : Covers catalog c r.documents) :
    Readable catalog s c r.documents :=
  ⟨hcovers, fun _ _ _ _ hmem => hr.path_ne_root (mem_parts.2 ⟨_, hmem, rfl⟩),
    fun _ _ _ _ => fieldsDocuments_subset, fun _ _ _ _ hmem =>
      ⟨suited_of_mem_documents hd hs hr ha hmem, fun e he _ => hg _ hmem e he⟩⟩

/-- A record that was let through can be read again. -/
theorem legible_of_written {schema : Schema} {ds : List FieldDefinition} {r : Record}
    (hd : Layout.Describes ds schema) (hs : s.KeepsTypes ds) (hf : r.FitsKnown s)
    (ha : ∀ p ∈ r.written, p.Admitted schema c) : Legible s "" r.id r.values.entries := by
  refine ⟨suited_root hd hs ha, fun e he _ => ?_⟩
  rw [Path.join_root, declared]
  cases hfield : s.get? e.1 with
  | none => exact forges_any e.2
  | some f =>
    obtain ⟨t, ht, hfits⟩ := hf e he f hfield
    rw [Option.bind_some, ht]
    exact forges_of_fits t hfits

end Record
end SchemaKeeper
