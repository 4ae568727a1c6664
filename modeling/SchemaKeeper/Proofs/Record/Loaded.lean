import SchemaKeeper.Proofs.Container.Runs
import SchemaKeeper.Proofs.Record.Parts
import SchemaKeeper.Proofs.Record.Writable

/-!
# Records that were read

A reference is resolved through the collection of its path, and the identifier of a document is not
read as one of its fields.  So each document inside a record that was read has a collection and
carries its identifier when it is written again.  The fields of the record itself are instances of
their declared types; the fields of the documents inside it need not be.
-/
namespace SchemaKeeper

/-- The documents inside a held value were inside the value that is held. -/
theorem documents_subset_of_hold {path q : String} : ∀ (t : FieldType) {level : Nat} {v : Value}
    {h : Held}, hold path level t v = .ok h → Value.documents q h.plain ⊆ Value.documents q v
  | t, level, v, h, hh => by
    cases t with
    | list t =>
      cases v with
      | list items =>
        obtain ⟨hs, hhs, rfl⟩ := map_eq_ok_iff.1 hh
        intro d hd
        rw [Held.plain, Value.documents, Value.mem_itemsDocuments, Held.plainItems_eq] at hd
        obtain ⟨u, hu, hd⟩ := hd
        obtain ⟨x, hx, rfl⟩ := List.mem_map.1 hu
        obtain ⟨v, hv, hask⟩ := holdItems_mem hhs x hx
        exact Value.mem_itemsDocuments.2
          ⟨v, hv, documents_subset_of_hold t (refuseNull_eq_ok hask) hd⟩
      | _ => cases hh
    | dict t =>
      cases v with
      | dict entries =>
        obtain ⟨hs, hhs, rfl⟩ := map_eq_ok_iff.1 hh
        intro d hd
        rw [Held.plain, Value.documents, Value.mem_entriesDocuments, Held.plainEntries_eq,
          Entries.mapValues] at hd
        obtain ⟨u, hu, hd⟩ := hd
        obtain ⟨x, hx, rfl⟩ := List.mem_map.1 hu
        have hx := (Entries.mem_of_mem_foldl_insert hs hx).resolve_right List.not_mem_nil
        obtain ⟨e, he, hask⟩ := holdEntries_mem hhs x hx
        exact Value.mem_entriesDocuments.2
          ⟨e, he, documents_subset_of_hold t (refuseNull_eq_ok hask) hd⟩
      | _ => cases hh
    | _ =>
      rw [hold] at hh
      split at hh
      · cases hh
        exact List.Subset.refl _
      · cases hh

namespace Record

open Value

variable {catalog : Catalog} {s : Schema} {c : Collections} {path : String}

/-! ## What readers of items, members and fields give -/

theorem mem_of_readItems {ask : Json → Except Refusal Value} {js : List Json} {vs : List Value}
    (h : readItems ask js = .ok vs) : ∀ v ∈ vs, ∃ j ∈ js, ask j = .ok v := by
  induction js generalizing vs with
  | nil =>
    cases h
    exact List.forall_mem_nil _
  | cons j js ih =>
    obtain ⟨v, hv, h⟩ := bind_eq_ok_iff.1 h
    obtain ⟨us, hus, h⟩ := bind_eq_ok_iff.1 h
    cases h
    refine List.forall_mem_cons.2 ⟨⟨j, List.mem_cons_self, hv⟩, fun u hu => ?_⟩
    obtain ⟨j', hj', hask⟩ := ih hus u hu
    exact ⟨j', List.mem_cons_of_mem _ hj', hask⟩

theorem mem_of_readMembers {ask : Json → Except Refusal Value} {ms : List (String × Json)}
    {es : List (String × Value)} (h : readMembers ask ms = .ok es) :
    ∀ e ∈ es, ∃ m ∈ ms, ask m.2 = .ok e.2 := by
  induction ms generalizing es with
  | nil =>
    cases h
    exact List.forall_mem_nil _
  | cons m ms ih =>
    obtain ⟨v, hv, h⟩ := bind_eq_ok_iff.1 h
    obtain ⟨fs, hfs, h⟩ := bind_eq_ok_iff.1 h
    cases h
    refine List.forall_mem_cons.2 ⟨⟨m, List.mem_cons_self, hv⟩, fun e he => ?_⟩
    obtain ⟨m', hm', hask⟩ := ih hfs e he
    exact ⟨m', List.mem_cons_of_mem _ hm', hask⟩

theorem mem_of_readFields {ask : String → Json → Except Refusal Value} {ms : List (String × Json)}
    {es : List (String × Value)} (h : readFields ask path ms = .ok es) :
    ∀ e ∈ es, ∃ m ∈ ms, m.1 = e.1 ∧ ask (Path.join path e.1) m.2 = .ok e.2 := by
  induction ms generalizing es with
  | nil =>
    cases h
    exact List.forall_mem_nil _
  | cons m ms ih =>
    obtain ⟨v, hv, h⟩ := bind_eq_ok_iff.1 h
    obtain ⟨fs, hfs, h⟩ := bind_eq_ok_iff.1 h
    cases h
    refine List.forall_mem_cons.2 ⟨⟨m, List.mem_cons_self, rfl, hv⟩, fun e he => ?_⟩
    obtain ⟨m', hm', hask⟩ := ih hfs e he
    exact ⟨m', List.mem_cons_of_mem _ hm', hask⟩

/-! ## Documents that were read -/

mutual

/-- Nothing is read as a document where no type is declared. -/
theorem documents_readAny : ∀ j : Json, Value.documents path (readAny j) = []
  | .null | .bool _ | .float _ | .string _ => rfl
  | .int n => by
    rw [readAny, numberOf]
    cases wordOf? n <;> rfl
  | .array items => documents_readAnyItems items
  | .object members => by
    rw [readAny]
    cases dateOf? (.object members) with
    | some m => rfl
    | none => exact documents_readAnyMembers members

theorem documents_readAnyItems : ∀ js : List Json, itemsDocuments path (readAnyItems js) = []
  | [] => rfl
  | j :: js => by
    rw [readAnyItems, itemsDocuments, documents_readAny j, documents_readAnyItems js,
      List.append_nil]

theorem documents_readAnyMembers : ∀ ms : List (String × Json),
    entriesDocuments path (readAnyMembers ms) = []
  | [] => rfl
  | (_, j) :: ms => by
    rw [readAnyMembers, entriesDocuments, documents_readAny j, documents_readAnyMembers ms,
      List.append_nil]

end

theorem documents_readScalar? {k : Scalar} {j : Json} {v : Value}
    (h : readScalar? k j = some v) : Value.documents path v = [] := by
  cases k with
  | any =>
    injection h with h
    rw [← h]
    exact documents_readAny j
  | datetime =>
    obtain ⟨m, -, rfl⟩ := Option.map_eq_some_iff.1 h
    rfl
  | int =>
    cases j with
    | int n =>
      obtain ⟨w, -, rfl⟩ := Option.map_eq_some_iff.1 h
      rfl
    | _ => cases h
  | _ => cases j <;> cases h <;> rfl

theorem readAs_scalar_ok {f : DocClass → String → Except Refusal Value} {k : Scalar} {j : Json}
    {v : Value} (h : readAs f path (.scalar k) j = .ok v) :
    v = .null ∨ readScalar? k j = some v := by
  unfold readAs at h
  split at h
  · cases h
    exact .inl rfl
  · split at h
    · rename_i u hu
      injection h with h
      exact .inr (h ▸ hu)
    · cases h

theorem readAs_document_ok {f : DocClass → String → Except Refusal Value} {k : DocClass} {j : Json}
    {v : Value} (h : readAs f path (.document k) j = .ok v) :
    v = .null ∨ ∃ text, f k text = .ok v := by
  unfold readAs at h
  split at h
  · cases h
    exact .inl rfl
  · split at h
    · exact .inr ⟨_, h⟩
    · cases h

mutual

/-- What is told of the documents to which references lead is told of all documents in what is
read. -/
theorem documents_readAs {P : String × Value → Prop} {f : DocClass → String → Except Refusal Value}
    (hf : ∀ k text v, f k text = .ok v → ∀ d ∈ Value.documents path v, P d) :
    ∀ (t : FieldType) {j : Json} {v : Value}, readAs f path t j = .ok v →
      ∀ d ∈ Value.documents path v, P d
  | .scalar k, j, v, h => by
    rcases readAs_scalar_ok h with rfl | h
    · nofun
    · rw [documents_readScalar? h]
      nofun
  | .list t, j, v, h => by
    cases j with
    | null =>
      cases h
      nofun
    | array items =>
      obtain ⟨vs, hvs, rfl⟩ := map_eq_ok_iff.1 h
      intro d hd
      obtain ⟨v, hv, hd⟩ := mem_itemsDocuments.1 hd
      obtain ⟨j, -, hask⟩ := mem_of_readItems hvs v hv
      exact documents_readAs hf t hask d hd
    | _ => cases h
  | .dict t, j, v, h => by
    cases j with
    | null =>
      cases h
      nofun
    | object members =>
      obtain ⟨es, hes, rfl⟩ := map_eq_ok_iff.1 h
      intro d hd
      obtain ⟨e, he, hd⟩ := mem_entriesDocuments.1 hd
      obtain ⟨m, -, hask⟩ := mem_of_readMembers hes e he
      exact documents_readAs hf t hask d hd
    | _ => cases h
  | .tuple ts, j, v, h => by
    cases j with
    | null =>
      cases h
      nofun
    | array items =>
      rw [readAs] at h
      split at h
      · obtain ⟨vs, hvs, rfl⟩ := map_eq_ok_iff.1 h
        exact documents_readEach hf ts hvs
      · cases h
    | _ => cases h
  | .document k, j, v, h => by
    rcases readAs_document_ok h with rfl | ⟨text, h⟩
    · nofun
    · exact hf k text v h

theorem documents_readEach {P : String × Value → Prop}
    {f : DocClass → String → Except Refusal Value}
    (hf : ∀ k text v, f k text = .ok v → ∀ d ∈ Value.documents path v, P d) :
    ∀ (ts : List FieldType) {js : List Json} {vs : List Value}, readEach f path ts js = .ok vs →
      ∀ d ∈ itemsDocuments path vs, P d
  | [], _, _, h => by
    cases h
    nofun
  | _ :: _, [], _, h => by
    cases h
    nofun
  | t :: ts, j :: js, vs, h => by
    obtain ⟨v, hv, h⟩ := bind_eq_ok_iff.1 h
    obtain ⟨us, hus, h⟩ := bind_eq_ok_iff.1 h
    cases h
    intro d hd
    rcases List.mem_append.1 hd with hd | hd
    · exact documents_readAs hf t hv d hd
    · exact documents_readEach hf ts hus d hd

end

/-- What a reference was resolved to: a document in the collection of the path. -/
theorem follow_ok {depth : Nat} {k : DocClass} {text : String} {v : Value}
    (h : follow catalog s c (depth + 1) path k text = .ok v) :
    ∃ name members id fields, c.get? path = some name ∧
      catalog.findOne name "_id" (.string text) = some (.object members) ∧
      identifier path (.object members) = .ok id ∧ v = .document id k.name fields ∧
      readFields (fun p j => readAs (follow catalog s c depth p) p (declared s p) j) path
        (ownMembers members) = .ok fields := by
  obtain ⟨name, hname, h⟩ := bind_eq_ok_iff.1 h
  have hname := Dataset.collectionFor_eq_ok.1 hname
  split at h
  · cases h
  · rename_i document hfind
    split at h
    · rename_i members
      obtain ⟨id, hid, h⟩ := bind_eq_ok_iff.1 h
      obtain ⟨fields, hfields, h⟩ := bind_eq_ok_iff.1 h
      cases h
      exact ⟨name, members, id, fields, hname, hfind, hid, rfl, hfields⟩
    · cases h

/-- The document is what a reference at its path leads to. -/
def Sourced (catalog : Catalog) (s : Schema) (c : Collections) (d : String × Value) : Prop :=
  ∃ depth k text, follow catalog s c depth d.1 k text = .ok d.2

/-- All documents in what a reference leads to are what references lead to. -/
theorem sourced_follow : ∀ (depth : Nat) {path : String} {k : DocClass} {text : String}
    {v : Value}, follow catalog s c depth path k text = .ok v →
      ∀ d ∈ Value.documents path v, Sourced catalog s c d
  | 0, _, _, _, _, h => by cases h
  | depth + 1, path, k, text, v, h => by
    obtain ⟨name, members, id, fields, -, -, -, rfl, hread⟩ := follow_ok h
    refine List.forall_mem_cons.2 ⟨⟨depth + 1, k, text, h⟩, fun d hd => ?_⟩
    obtain ⟨e, he, hd⟩ := mem_fieldsDocuments.1 hd
    obtain ⟨m, -, -, hask⟩ := mem_of_readFields hread e he
    exact documents_readAs (fun _ _ _ => sourced_follow depth) _ hask d hd

/-- The document appears under a path that has a collection, and none of its fields is called
`_id`. -/
def Resolved (c : Collections) (d : String × Value) : Prop :=
  c.contains d.1 = true ∧
    ∀ id className fields, d.2 = .document id className fields → ∀ e ∈ fields, e.1 ≠ "_id"

theorem Sourced.resolved {d : String × Value} (h : Sourced catalog s c d) : Resolved c d := by
  obtain ⟨depth, k, text, h⟩ := h
  cases depth with
  | zero => cases h
  | succ depth =>
    obtain ⟨name, members, id, fields, hname, -, -, hd, hread⟩ := follow_ok h
    refine ⟨Keyed.contains_iff.2 ⟨name, hname⟩, fun _ _ _ heq e he hid => ?_⟩
    rw [hd] at heq
    cases heq
    obtain ⟨m, hm, hname, -⟩ := mem_of_readFields hread e he
    have hown := (List.mem_filter.1 hm).2
    rw [hname, hid] at hown
    cases hown

/-! ## Records -/

/-- Each field that a record takes over is given by one of the members. -/
theorem gives_of_takeFields : ∀ (ms : List (String × Json)) {r r' : Record},
    takeFields catalog s c ms r = .ok r' → r'.id = r.id ∧ r'.root = r.root ∧
      ∀ e ∈ r'.fields.entries, e ∈ r.fields.entries ∨ ∃ m ∈ ms, Gives catalog s c m e
  | [], _, _, h => by
    cases h
    exact ⟨rfl, rfl, fun e he => .inl he⟩
  | (name, j) :: ms, r, r', h => by
    have hlater : ∀ {e : String × Held} {p : Prop}, (p ∨ ∃ m ∈ ms, Gives catalog s c m e) →
        p ∨ ∃ m ∈ (name, j) :: ms, Gives catalog s c m e :=
      fun h => h.imp_right fun ⟨m, hm, hgives⟩ => ⟨m, List.mem_cons_of_mem _ hm, hgives⟩
    rw [takeFields] at h
    split at h
    · obtain ⟨hid, hroot, htaken⟩ := gives_of_takeFields ms h
      exact ⟨hid, hroot, fun e he => hlater (htaken e he)⟩
    · rename_i field hfield
      obtain ⟨t, htype, h⟩ := bind_eq_ok_iff.1 h
      obtain ⟨v, hv, h⟩ := bind_eq_ok_iff.1 h
      split at h
      · obtain ⟨hid, hroot, htaken⟩ := gives_of_takeFields ms h
        exact ⟨hid, hroot, fun e he => hlater (htaken e he)⟩
      · obtain ⟨r₁, hset, h⟩ := bind_eq_ok_iff.1 h
        obtain ⟨htop, t', held, ht', hheld, rfl⟩ := set_ok hset
        obtain ⟨hid, hroot, htaken⟩ := gives_of_takeFields ms h
        refine ⟨hid, hroot, fun e he => (hlater (htaken e he)).elim (fun he => ?_) .inr⟩
        rcases Entries.mem_insert he with rfl | he
        · have ht : s.typeAt name = .ok t := by
            rw [Schema.typeAt, hfield]
            exact htype
          have ht := Schema.typeAt_eq_ok_iff.1 ht
          obtain rfl : t' = t := Option.some.inj (ht'.symm.trans ht)
          exact .inr ⟨_, List.mem_cons_self, rfl, htop, t', v, ht, hv, hheld⟩
        · exact .inl he

/-- A record is read from the members of its document. -/
theorem ofDocument_ok {root : DocClass} {document : Json} {r : Record}
    (h : ofDocument catalog s c root document = .ok r) :
    ∃ members, document = .object members ∧ identifier "" document = .ok r.id ∧ r.root = root ∧
      ∀ e ∈ r.fields.entries, ∃ m ∈ ownMembers members, Gives catalog s c m e := by
  cases document with
  | object members =>
    obtain ⟨id, hid, h⟩ := bind_eq_ok_iff.1 h
    obtain ⟨rfl, hroot, htaken⟩ := gives_of_takeFields _ h
    exact ⟨members, rfl, hid, hroot, fun e he => (htaken e he).resolve_left List.not_mem_nil⟩
  | _ => cases h

theorem Gives.ne_id {members : List (String × Json)} {m : String × Json} {e : String × Held}
    (h : Gives catalog s c m e) (hm : m ∈ ownMembers members) : e.1 ≠ "_id" := by
  intro hid
  have hown := (List.mem_filter.1 hm).2
  rw [h.name, hid] at hown
  cases hown

theorem Gives.sourced {m : String × Json} {e : String × Held} (h : Gives catalog s c m e) :
    ∀ d ∈ Value.documents e.1 e.2.plain, Sourced catalog s c d := by
  obtain ⟨t, v, -, hread, hheld⟩ := h.held
  exact fun d hd => documents_readAs (fun _ _ _ => sourced_follow _) t hread d
    (documents_subset_of_hold t hheld hd)

/-- What is known of a record that was read: its fields are instances of the live schema, and the
documents inside it were resolved. -/
structure Fetched (s : Schema) (c : Collections) (r : Record) : Prop where
  fits : r.Fits s
  own : ∀ e ∈ r.values.entries, e.1 ≠ "_id"
  resolved : ∀ d ∈ r.documents, Resolved c d

/-- A record that was read has only fields of the live schema, and resolved documents. -/
theorem fetched_ofDocument {root : DocClass} {document : Json} {r : Record}
    (h : ofDocument catalog s c root document = .ok r) : r.Fetched s c := by
  obtain ⟨members, -, -, -, hgives⟩ := ofDocument_ok h
  have hvalues : ∀ e ∈ r.values.entries, ∃ x ∈ r.fields.entries, (x.1, x.2.plain) = e :=
    fun e he => List.mem_map.1 he
  refine ⟨fun e he => ?_, fun e he => ?_, fun d hd => ?_⟩
  · obtain ⟨x, hx, rfl⟩ := hvalues e he
    obtain ⟨m, -, hgives⟩ := hgives x hx
    obtain ⟨t, v, ht, -, hheld⟩ := hgives.held
    exact (Option.any_eq_true _ _).2 ⟨t, ht, (Held.sits_of_hold t hheld).fits⟩
  · obtain ⟨x, hx, rfl⟩ := hvalues e he
    obtain ⟨m, hm, hgives⟩ := hgives x hx
    exact hgives.ne_id hm
  · obtain ⟨e, he, hd⟩ := mem_fieldsDocuments.1 hd
    obtain ⟨x, hx, rfl⟩ := hvalues e he
    obtain ⟨m, -, hgives⟩ := hgives x hx
    rw [Path.join_root] at hd
    exact (hgives.sourced d hd).resolved

/-- Of a record that was read, only the members decide whether a document is admitted. -/
theorem Fetched.admitted_iff {r : Record} (h : r.Fetched s c) (hroot : c.contains "" = true)
    {p : Part} (hp : p ∈ r.written) : p.Admitted s c ↔
      ∀ key j, p.document.get? key = some j → s.admits c p.path key j = true := by
  refine ⟨Part.Admitted.members, fun hmembers => ?_⟩
  rcases List.mem_append.1 hp with hp | hp
  · obtain ⟨d, hd, hpart⟩ := mem_parts.1 hp
    obtain ⟨className, fields, rfl, hdocument⟩ := part?_eq_some.1 hpart
    obtain ⟨hseat, hid⟩ := h.resolved _ hd
    refine ⟨Keyed.contains_iff.1 hseat, ?_, hmembers⟩
    rw [hdocument]
    exact get?_storedDocument_id (hid _ _ _ rfl)
  · cases List.mem_singleton.1 hp
    exact ⟨Keyed.contains_iff.1 hroot, get?_storedDocument_id h.own, hmembers⟩

end Record
end SchemaKeeper
