import SchemaKeeper.Proofs.Record.Ending
import SchemaKeeper.Proofs.Record.Reading

/-!
# A record that was read is read again

Documents inside a record that was read came from the catalog, so those of one path and one
identifier have the same fields, however deep they lie.  Once the stored form of each of them stands
in a catalog, the record is read there from its own stored form, as it is.
-/
namespace SchemaKeeper.Record

open Value

variable {catalog catalog' : Catalog} {s : Schema} {c : Collections} {path : String} {id : Uuid}
  {r : Record}

/-! ## Documents of one path and one identifier -/

theorem follow_unique_of_le {n m : Nat} {text : String} {k k' : DocClass} {v v' : Value}
    (hle : n ≤ m) (h : follow catalog s c n path k text = .ok v)
    (h' : follow catalog s c m path k' text = .ok v') :
    ∃ id fields, v = .document id k.name fields ∧ v' = .document id k'.name fields := by
  cases n with
  | zero => cases h
  | succ n =>
    obtain ⟨m, rfl⟩ : ∃ m', m = m' + 1 := ⟨m - 1, by omega⟩
    rw [follow_succ n k ⟨path, text⟩] at h
    rw [follow_succ m k' ⟨path, text⟩] at h'
    obtain ⟨d, hd, rfl⟩ := map_eq_ok_iff.1 h
    obtain ⟨d', hd', rfl⟩ := map_eq_ok_iff.1 h'
    have hextends : Resolver.Extends (follow catalog s c m) (follow catalog s c n) :=
      follow_extends_of_le (Nat.le_of_succ_le_succ hle)
    have hcontents : Sequential (LeadsTo catalog s c ⟨path, text⟩)
        (contents catalog s c ⟨path, text⟩) := sequential_contents _
    have hsame := hcontents.deeper _ _ hextends
    rw [hd, hd'] at hsame
    obtain rfl : d' = d := by simpa using hsame
    exact ⟨d'.1, d'.2, rfl, rfl⟩

/-- How deep references are followed makes no difference to what one leads to. -/
theorem follow_unique {n m : Nat} {text : String} {k k' : DocClass} {v v' : Value}
    (h : follow catalog s c n path k text = .ok v)
    (h' : follow catalog s c m path k' text = .ok v') :
    ∃ id fields, v = .document id k.name fields ∧ v' = .document id k'.name fields := by
  rcases Nat.le_total n m with hle | hle
  · exact follow_unique_of_le hle h h'
  · obtain ⟨id, fields, hv', hv⟩ := follow_unique_of_le hle h' h
    exact ⟨id, fields, hv, hv'⟩

/-- A reference says the identifier of the document to which it leads. -/
theorem text_of_follow (hc : Filed catalog c) {n : Nat} {text className : String} {k : DocClass}
    {fields : List (String × Value)}
    (h : follow catalog s c n path k text = .ok (.document id className fields)) :
    text = id.text := by
  cases n with
  | zero => cases h
  | succ n =>
    obtain ⟨name, members, id', fields', hname, hfind, hid, hd, -⟩ := follow_ok h
    cases hd
    exact hc.text hname hfind hid

theorem fields_eq_of_sourced (hc : Filed catalog c) {className className' : String}
    {fields fields' : List (String × Value)}
    (h : Sourced catalog s c (path, .document id className fields))
    (h' : Sourced catalog s c (path, .document id className' fields')) : fields = fields' := by
  obtain ⟨n, k, text, h⟩ := h
  obtain ⟨m, k', text', h'⟩ := h'
  obtain rfl := text_of_follow hc h
  obtain rfl := text_of_follow hc h'
  obtain ⟨_, _, hv, hv'⟩ := follow_unique h h'
  cases hv
  cases hv'
  rfl

/-- Of what is written, documents of one path and one identifier are the same. -/
def Consistent (parts : List Part) : Prop :=
  ∀ p ∈ parts, ∀ q ∈ parts, p.path = q.path → p.id = q.id → p.document = q.document

theorem sourced_of_ofDocument {root : DocClass} {document : Json}
    (h : ofDocument catalog s c root document = .ok r) :
    ∀ d ∈ r.documents, Sourced catalog s c d := by
  obtain ⟨members, -, -, -, hgives⟩ := ofDocument_ok h
  intro d hd
  obtain ⟨e, he, hd⟩ := mem_fieldsDocuments.1 hd
  obtain ⟨x, hx, rfl⟩ := List.mem_map.1 he
  obtain ⟨m, -, hgives⟩ := hgives x hx
  rw [Path.join_root] at hd
  exact hgives.sourced d hd

/-- No document inside a record that was read stands at the root. -/
theorem path_ne_root_of_ofDocument {root : DocClass} {document : Json}
    (h : ofDocument catalog s c root document = .ok r) {p : Part} (hp : p ∈ r.parts) :
    p.path ≠ "" := by
  obtain ⟨members, -, -, -, hgives⟩ := ofDocument_ok h
  refine path_ne_root (fun e he => ?_) hp
  obtain ⟨x, hx, rfl⟩ := List.mem_map.1 he
  obtain ⟨m, -, hgives⟩ := hgives x hx
  exact hgives.topLevel

theorem consistent_of_ofDocument (hc : Filed catalog c) {root : DocClass} {document : Json}
    (h : ofDocument catalog s c root document = .ok r) : Consistent r.written := by
  have hparts : Consistent r.parts := by
    intro p hp q hq hpath hid
    obtain ⟨d, hd, hpart⟩ := mem_parts.1 hp
    obtain ⟨className, fields, rfl, hdocument⟩ := part?_eq_some.1 hpart
    obtain ⟨d', hd', hpart'⟩ := mem_parts.1 hq
    obtain ⟨className', fields', rfl, hdocument'⟩ := part?_eq_some.1 hpart'
    have hsource := sourced_of_ofDocument h _ hd
    rw [hpath, hid] at hsource
    rw [hdocument, hdocument', hid,
      fields_eq_of_sourced hc hsource (sourced_of_ofDocument h _ hd')]
  intro p hp q hq hpath hid
  rcases List.mem_append.1 hp with hp | hp <;> rcases List.mem_append.1 hq with hq | hq
  · exact hparts p hp q hq hpath hid
  · cases List.mem_singleton.1 hq
    exact absurd hpath (path_ne_root_of_ofDocument h hp)
  · cases List.mem_singleton.1 hp
    exact absurd hpath.symm (path_ne_root_of_ofDocument h hq)
  · rw [List.mem_singleton.1 hp, List.mem_singleton.1 hq]

/-! ## Reading again -/

/-- A record that was read, with moments that can be written, is read again from what is stored of
it wherever what is stored of its documents stands. -/
theorem ofDocument_again (hc : Filed catalog c) {root : DocClass} {document : Json}
    (h : ofDocument catalog s c root document = .ok r)
    (hd : entriesDated r.values.entries = true) (hs : StandsExactly catalog' c r.documents) :
    ofDocument catalog' s c root r.document = .ok r := by
  have hfetched := fetched_ofDocument h
  obtain ⟨members, -, -, rfl, hgives⟩ := ofDocument_ok h
  have hagain : List.Forall₂ (Gives catalog' s c) (storedEntries r.values.entries)
      r.fields.entries := by
    rw [storedEntries_eq, entries_values, Entries.mapValues, Entries.mapValues, List.map_map]
    refine List.forall₂_map_left_iff.2 (List.forall₂_same.2 fun e he => ?_)
    obtain ⟨m, -, hgives⟩ := hgives e he
    obtain ⟨t, v, ht, hread, hheld⟩ := hgives.held
    have hvalue : (e.1, e.2.plain) ∈ r.values.entries := List.mem_map_of_mem he
    have hgiven := reading_readAs (fun _ _ _ => reading_follow hc _) t hread
    have hreading := Reading.hold t hgiven hheld
    have hlasts : e.2.plain.Lasts := by
      rw [entriesDated_eq, List.all_eq_true] at hd
      exact ⟨isStorable_of_fits (fits_of_hold _ (hold_again t hheld)), hd _ hvalue⟩
    have hdocuments : Value.documents e.1 e.2.plain ⊆ r.documents := fun d hd =>
      mem_fieldsDocuments.2 ⟨_, hvalue, by rwa [Path.join_root]⟩
    refine ⟨rfl, hgives.topLevel, t, e.2.plain, ht, ?_, hold_again t hheld⟩
    exact hreading.readAs (ne_root_of_isTopLevel hgives.topLevel) (room_le_followLimit _) hlasts
      (hs.mono hdocuments)
  obtain ⟨r', htake, hid, hroot, hentries⟩ :=
    takeFields_gives hagain (r := .empty r.id r.root) r.fields.ordered (List.forall_mem_nil _)
  have hsame : r' = r := by
    obtain ⟨id, root, ⟨entries, ho⟩⟩ := r'
    subst hid hroot hentries
    rfl
  rw [hsame] at htake
  show (identifier "" (storedDocument r.id r.values.entries) >>= _) = _
  rw [identifier_storedDocument hfetched.own, ok_bind,
    ownMembers_storedDocument r.id r.values.ordered, ownFields_of_ne hfetched.own]
  exact htake

end SchemaKeeper.Record
