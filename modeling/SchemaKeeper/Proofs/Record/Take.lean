import SchemaKeeper.Proofs.Record.Read

/-!
# Taking a stored record over

A record takes up an instance of a declared type and then has it as its plain value.  So the fields
of a stored record, read one after the other, are the fields that were stored.
-/
namespace SchemaKeeper

open Value

/-! ## Held values -/

theorem Value.isNull_of_fits {t : FieldType} {v : Value} (h : v.fits t = true) :
    v.isNull = false := by
  cases v with
  | null => cases t <;> simp [fits, isNull, positions?, className?] at h
  | _ => rfl

theorem Held.plainEntries_eq (hs : List (String × Held)) :
    plainEntries hs = Entries.mapValues (fun _ => plain) hs := by
  induction hs with
  | nil => rfl
  | cons e hs ih => rw [plainEntries, ih, Entries.mapValues, Entries.mapValues, List.map_cons]

theorem refuseNull_of_fits {t : FieldType} {v : Value} (h : v.fits t = true) (path : String)
    (ask : Value → Except Refusal Held) : refuseNull path ask v = ask v := by
  simp [refuseNull, isNull_of_fits h]

mutual

/-- An instance of a type is held, and its plain value is what it was. -/
theorem hold_plain : ∀ (v : Value) {t : FieldType} (path : String) (level : Nat),
    v.fits t = true → v.isAscending = true →
      ∃ h, hold path level t v = .ok h ∧ h.plain = v
  | v, t, path, level, hv, ha => by
    cases t with
    | list t =>
      cases v with
      | list items =>
        have hf := List.all_eq_true.1 hv
        obtain ⟨hs, hhold, hplain⟩ := holdItems_plain items path (level + 1) hf ha
        exact ⟨.list ⟨path, level⟩ hs, by rw [hold, hhold]; rfl, by rw [Held.plain, hplain]⟩
      | _ => cases hv
    | dict t =>
      cases v with
      | dict entries =>
        have hf := List.all_eq_true.1 hv
        obtain ⟨ho, ha⟩ := Bool.and_eq_true_iff.1 ha
        obtain ⟨hs, hhold, hplain⟩ := holdEntries_plain entries path (level + 1) hf ha
        refine ⟨.dict ⟨path, level⟩ (Entries.ofList hs), by rw [hold, hhold]; rfl, ?_⟩
        have hho : Entries.Ordered hs := by
          rw [← Entries.ordered_mapValues_iff (f := fun _ => Held.plain), ← Held.plainEntries_eq,
            hplain]
          exact of_decide_eq_true ho
        rw [Held.plain, Entries.ofList_of_ordered hho, hplain]
      | _ => cases hv
    | scalar k => exact ⟨.value v, by rw [hold, if_pos hv], rfl⟩
    | tuple ts => exact ⟨.value v, by rw [hold, if_pos hv], rfl⟩
    | document c => exact ⟨.value v, by rw [hold, if_pos hv], rfl⟩

theorem holdItems_plain : ∀ (vs : List Value) {t : FieldType} (path : String) (level : Nat),
    (∀ v ∈ vs, v.fits t = true) → itemsAscending vs = true →
      ∃ hs, holdItems (refuseNull path fun item => hold path level t item) vs = .ok hs ∧
        Held.plainItems hs = vs
  | [], _, _, _, _, _ => ⟨[], rfl, rfl⟩
  | v :: vs, t, path, level, hv, ha => by
    obtain ⟨hv1, hv2⟩ := List.forall_mem_cons.1 hv
    obtain ⟨ha1, ha2⟩ := Bool.and_eq_true_iff.1 ha
    obtain ⟨h, hhold, hplain⟩ := hold_plain v path level hv1 ha1
    obtain ⟨hs, hholds, hplains⟩ := holdItems_plain vs path level hv2 ha2
    refine ⟨h :: hs, ?_, by rw [Held.plainItems, hplain, hplains]⟩
    rw [holdItems, refuseNull_of_fits hv1, hhold, ok_bind, hholds]
    rfl

theorem holdEntries_plain : ∀ (es : List (String × Value)) {t : FieldType} (path : String)
    (level : Nat), (∀ e ∈ es, e.2.fits t = true) → entriesAscending es = true →
      ∃ hs, holdEntries (refuseNull path fun item => hold path level t item) es = .ok hs ∧
        Held.plainEntries hs = es
  | [], _, _, _, _, _ => ⟨[], rfl, rfl⟩
  | (k, v) :: es, t, path, level, hv, ha => by
    obtain ⟨hv1, hv2⟩ := List.forall_mem_cons.1 hv
    obtain ⟨ha1, ha2⟩ := Bool.and_eq_true_iff.1 ha
    obtain ⟨h, hhold, hplain⟩ := hold_plain v path level hv1 ha1
    obtain ⟨hs, hholds, hplains⟩ := holdEntries_plain es path level hv2 ha2
    refine ⟨(k, h) :: hs, ?_, by rw [Held.plainEntries, hplain, hplains]⟩
    rw [holdEntries, refuseNull_of_fits hv1, hhold, ok_bind, hholds]
    rfl

end

theorem refuseNull_eq_ok {path : String} {ask : Value → Except Refusal Held} {v : Value} {h : Held}
    (hh : refuseNull path ask v = .ok h) : ask v = .ok h := by
  rw [refuseNull] at hh
  split at hh
  · cases hh
  · exact hh

mutual

/-- Only instances of a type are held. -/
theorem fits_of_hold : ∀ (v : Value) {t : FieldType} {path : String} {level : Nat} {h : Held},
    hold path level t v = .ok h → v.fits t = true
  | v, t, path, level, h, hh => by
    cases t with
    | list t =>
      cases v with
      | list items =>
        obtain ⟨hs, hhs, -⟩ := map_eq_ok_iff.1 hh
        exact List.all_eq_true.2 (fits_of_holdItems items hhs)
      | _ => cases hh
    | dict t =>
      cases v with
      | dict entries =>
        obtain ⟨hs, hhs, -⟩ := map_eq_ok_iff.1 hh
        exact List.all_eq_true.2 (fits_of_holdEntries entries hhs)
      | _ => cases hh
    | _ =>
      rw [hold] at hh
      split at hh
      · assumption
      · cases hh

theorem fits_of_holdItems : ∀ (vs : List Value) {t : FieldType} {path : String} {level : Nat}
    {hs : List Held}, holdItems (refuseNull path fun item => hold path level t item) vs = .ok hs →
      ∀ v ∈ vs, v.fits t = true
  | [], _, _, _, _, _ => nofun
  | v :: vs, t, path, level, hs, hh => by
    obtain ⟨h, hv, hh⟩ := bind_eq_ok_iff.1 hh
    obtain ⟨hs', hvs, -⟩ := bind_eq_ok_iff.1 hh
    exact List.forall_mem_cons.2
      ⟨fits_of_hold v (refuseNull_eq_ok hv), fits_of_holdItems vs hvs⟩

theorem fits_of_holdEntries : ∀ (es : List (String × Value)) {t : FieldType} {path : String}
    {level : Nat} {hs : List (String × Held)},
      holdEntries (refuseNull path fun item => hold path level t item) es = .ok hs →
        ∀ e ∈ es, e.2.fits t = true
  | [], _, _, _, _, _ => nofun
  | (k, v) :: es, t, path, level, hs, hh => by
    obtain ⟨h, hv, hh⟩ := bind_eq_ok_iff.1 hh
    obtain ⟨hs', hvs, -⟩ := bind_eq_ok_iff.1 hh
    exact List.forall_mem_cons.2
      ⟨fits_of_hold v (refuseNull_eq_ok hv), fits_of_holdEntries es hvs⟩

end

/-! ## Fields -/

theorem Schema.typeAt_eq_ok_iff {s : Schema} {path : String} {t : FieldType} :
    s.typeAt path = .ok t ↔ s.declares? path = some t := by
  rw [typeAt, declares?]
  cases s.get? path with
  | none => simp
  | some f => cases h : f.type <;> simp [Field.requireType, h]

/-- A value that is held where a type is asked for is held at the type that is answered. -/
theorem hold_asked_iff {path : String} {level : Nat} {v : Value} {h : Held} {e : Refusal}
    {asked : Except Refusal FieldType} :
    (if v.isNull then .error e else asked >>= fun t => hold path level t v) = .ok h ↔
      ∃ t, asked = .ok t ∧ hold path level t v = .ok h := by
  rw [← bind_eq_ok_iff]
  split
  · -- Null would be refused at any type as well.
    rename_i hnull
    simp only [reduceCtorEq, false_iff]
    intro hh
    obtain ⟨t, -, hh⟩ := bind_eq_ok_iff.1 hh
    rw [isNull_of_fits (fits_of_hold v hh)] at hnull
    cases hnull
  · exact Iff.rfl

theorem holdField_eq_ok_iff {s : Schema} {path : String} {v : Value} {h : Held} :
    holdField s path v = .ok h ↔ ∃ t, s.typeAt path = .ok t ∧ hold path 0 t v = .ok h := by
  rw [holdField, hold_asked_iff]

theorem Binding.hold_eq_ok_iff {b : Binding} {s : Schema} {v : Value} {h : Held} :
    b.hold s v = .ok h ↔
      ∃ t, b.typeIn s = .ok t ∧ SchemaKeeper.hold b.path (b.level + 1) t v = .ok h := by
  rw [hold, hold_asked_iff]

namespace Entries
variable {α : Type}

theorem insert_of_lt {key : String} {value : α} :
    ∀ {entries : List (String × α)}, (∀ e ∈ entries, e.1 < key) →
      insert key value entries = entries ++ [(key, value)]
  | [], _ => rfl
  | (k, v) :: rest, h => by
    obtain ⟨hk, hrest⟩ := List.forall_mem_cons.1 h
    rw [insert, if_neg (String.lt_asymm hk), if_neg (key_ne_of_lt hk), insert_of_lt hrest,
      List.cons_append]

end Entries

namespace Record
variable {catalog : Catalog} {s : Schema} {c : Collections}

/-- A top-level field takes up what is held at its declared type. -/
theorem set_of_hold {r : Record} {name : String} {t : FieldType} {v : Value} {h : Held}
    (hname : isTopLevel name = true) (ht : s.declares? name = some t)
    (hh : hold name 0 t v = .ok h) :
    r.set s name v = .ok { r with fields := r.fields.insert name h } := by
  rw [set, hname, holdField_eq_ok_iff.2 ⟨t, Schema.typeAt_eq_ok_iff.2 ht, hh⟩]
  rfl

/-- What is set fits the declared type of a top-level field and is held there. -/
theorem set_ok {r r' : Record} {name : String} {v : Value} (h : r.set s name v = .ok r') :
    isTopLevel name = true ∧ ∃ t held, s.declares? name = some t ∧ hold name 0 t v = .ok held ∧
      r' = { r with fields := r.fields.insert name held } := by
  rw [set] at h
  split at h
  · cases h
  · rename_i htop
    obtain ⟨held, hheld, h⟩ := bind_eq_ok_iff.1 h
    injection h with h
    obtain ⟨t, ht, hheld⟩ := holdField_eq_ok_iff.1 hheld
    exact ⟨by simpa using htop, t, held, Schema.typeAt_eq_ok_iff.1 ht, hheld, h.symm⟩

theorem values_insert {r : Record} {name : String} {h : Held} :
    ({ r with fields := r.fields.insert name h } : Record).values =
      r.values.insert name h.plain := by
  refine Keyed.ext_get? fun q => ?_
  simp only [values, Keyed.get?_mapValues, Keyed.get?_insert]
  split <;> rfl

theorem formed_iff {r : Record} : r.Formed ↔
    ∀ name v, r.values.get? name = some v → isTopLevel name = true ∧ v.isAscending = true := by
  constructor
  · intro hr name v hv
    have he := Keyed.mem_entries_iff.2 hv
    have ha := hr.ascending
    rw [entriesAscending_eq, List.all_eq_true] at ha
    exact ⟨hr.topLevel _ he, ha _ he⟩
  · intro h
    refine ⟨fun e he => (h e.1 e.2 (Keyed.mem_entries_iff.1 he)).1, ?_⟩
    rw [entriesAscending_eq, List.all_eq_true]
    exact fun e he => (h e.1 e.2 (Keyed.mem_entries_iff.1 he)).2

theorem formed_empty (id : Uuid) (root : DocClass) : (empty id root).Formed := ⟨nofun, rfl⟩

/-- Setting a field keeps a record formed. -/
theorem formed_set {r r' : Record} {name : String} {v : Value} (hr : r.Formed)
    (hv : v.isAscending = true) (h : r.set s name v = .ok r') : r'.Formed := by
  obtain ⟨htop, t, held, -, hheld, rfl⟩ := set_ok h
  obtain ⟨held', hheld', hplain⟩ := hold_plain v name 0 (fits_of_hold v hheld) hv
  rw [hheld] at hheld'
  injection hheld' with hheld'
  rw [formed_iff] at hr ⊢
  intro q u hu
  rw [values_insert, Keyed.get?_insert, hheld', hplain] at hu
  split at hu
  · rename_i hq
    injection hu with hu
    subst hq hu
    exact ⟨htop, hv⟩
  · exact hr q u hu

/-- Taking a field away keeps a record formed. -/
theorem formed_unset {r : Record} (hr : r.Formed) (name : String) : (r.unset name).Formed := by
  rw [formed_iff] at hr ⊢
  intro q v hv
  rw [Record.unset, values, Keyed.get?_mapValues, Keyed.get?_erase] at hv
  split at hv
  · cases hv
  · refine hr q v ?_
    rw [values, Keyed.get?_mapValues]
    exact hv

theorem entries_values (r : Record) :
    r.values.entries = Entries.mapValues (fun _ => Held.plain) r.fields.entries := rfl

/-- A member of a stored record gives a field: it is read at the type that is declared there, and
what is read is held. -/
structure Gives (catalog : Catalog) (s : Schema) (c : Collections) (m : String × Json)
    (e : String × Held) : Prop where
  name : m.1 = e.1
  topLevel : isTopLevel e.1 = true
  held : ∃ t v, s.declares? e.1 = some t ∧
    readAs (follow catalog s c (followLimit catalog c) e.1) e.1 t m.2 = .ok v ∧
    hold e.1 0 t v = .ok e.2

/-- Members that give fields are taken over one after the other. -/
theorem takeFields_gives {ms : List (String × Json)} {es : List (String × Held)}
    (h : List.Forall₂ (Gives catalog s c) ms es) : ∀ {r : Record}, Entries.Ordered es →
      (∀ a ∈ r.fields.entries, ∀ e ∈ es, a.1 < e.1) →
        ∃ r', takeFields catalog s c ms r = .ok r' ∧ r'.id = r.id ∧ r'.root = r.root ∧
          r'.fields.entries = r.fields.entries ++ es := by
  induction h with
  | nil => exact fun {r} _ _ => ⟨r, rfl, rfl, rfl, (List.append_nil _).symm⟩
  | @cons m e ms es hgives _ ih =>
    intro r ho hlt
    obtain ⟨name, j⟩ := m
    obtain ⟨name', x⟩ := e
    obtain ⟨rfl, htop, t, v, ht, hread, hheld⟩ := hgives
    obtain ⟨hname, hes⟩ := Entries.ordered_cons.1 ho
    have hlast : (r.fields.insert name x).entries = r.fields.entries ++ [(name, x)] :=
      Entries.insert_of_lt fun a ha => hlt a ha _ List.mem_cons_self
    have hlt' : ∀ a ∈ (r.fields.insert name x).entries, ∀ e ∈ es, a.1 < e.1 := by
      intro a ha e he
      rw [hlast, List.mem_append, List.mem_singleton] at ha
      rcases ha with ha | rfl
      · exact hlt a ha e (List.mem_cons_of_mem _ he)
      · exact hname e he
    obtain ⟨r', htake, hid, hroot, hentries⟩ :=
      ih (r := { r with fields := r.fields.insert name x }) hes hlt'
    refine ⟨r', ?_, hid, hroot, ?_⟩
    · obtain ⟨field, hfield, htype⟩ := Option.bind_eq_some_iff.1 ht
      rw [takeFields, hfield]
      simp only [Field.requireType, htype, ok_bind, hread, isNull_of_fits (fits_of_hold v hheld),
        Bool.false_eq_true, if_false, set_of_hold htop ht hheld, htake]
    · rw [hentries, hlast, List.append_assoc, List.singleton_append]

/-- What makes the fields of a stored record readable. -/
structure Takes (s : Schema) (e : String × Value) : Prop where
  topLevel : isTopLevel e.1 = true
  type : ∃ t, s.declares? e.1 = some t ∧ e.2.fits t = true ∧ Reads s e.1 t e.2

theorem room_le_followLimit (path : String) : room c path ≤ followLimit catalog c := by
  have hsize := room_le_size (c := c) path
  rw [followLimit]
  omega

/-- The members of what is the same as a stored record give fields with equal values. -/
theorem exists_gives_same : ∀ (es : List (String × Value)) {js : List (String × Json)},
    (∀ e ∈ es, Takes s e) → Stands catalog c (fieldsDocuments "" es) →
      Json.sameMembers js (storedEntries es) = true →
        ∃ hs, List.Forall₂ (Gives catalog s c) js hs ∧
          sameEntries (Held.plainEntries hs) es = true
  | [], [], _, _, _ => ⟨[], .nil, rfl⟩
  | (name, v) :: es, (name', j) :: js, htakes, hs, hj => by
    obtain ⟨hfirst, hrest⟩ := List.forall_mem_cons.1 htakes
    obtain ⟨htop, t, ht, hfits, hreads⟩ := hfirst
    simp only [storedEntries, Json.sameMembers, Bool.and_eq_true, beq_iff_eq] at hj
    obtain ⟨⟨hk, hj1⟩, hj2⟩ := hj
    subst hk
    have hp : name' ≠ "" := by
      rintro rfl
      cases htop
    obtain ⟨v', hread, hsame⟩ := readAs_same v hp (room_le_followLimit name') hreads
      (hs.mono (List.subset_append_left _ _)) hj1
    obtain ⟨h, hhold, hplain⟩ := hold_plain v' name' 0 ((fits_of_same t hsame).trans hfits)
      ((isAscending_of_same hsame).trans hreads.ascending)
    obtain ⟨hs', hgives, hsames⟩ :=
      exists_gives_same es hrest (hs.mono (List.subset_append_right _ _)) hj2
    refine ⟨(name', h) :: hs', .cons ⟨rfl, htop, t, v', ht, hread, hhold⟩ hgives, ?_⟩
    simp only [Held.plainEntries, sameEntries, Bool.and_eq_true, hplain]
    exact ⟨⟨BEq.rfl, hsame⟩, hsames⟩

theorem beq_eq_sameEntries : ∀ as bs : List (String × Value), (as == bs) = sameEntries as bs
  | [], [] => rfl
  | [], _ :: _ => rfl
  | _ :: _, [] => rfl
  | (k, a) :: as, (k', b) :: bs => by
    rw [List.cons_beq_cons, beq_eq_sameEntries as bs]
    rfl

theorem Fits.storable {r : Record} (h : r.Fits s) : entriesStorable r.values.entries = true := by
  rw [entriesStorable_eq]
  refine List.all_eq_true.2 fun e he => ?_
  obtain ⟨t, -, hfits⟩ := (Option.any_eq_true _ _).1 (h e he)
  exact isStorable_of_fits hfits

/-- What is the same as a stored record is read as a record of the live class that has the same
identifier and equal values. -/
theorem ofDocument_same {r : Record} {root : DocClass} {j : Json} (hr : r.Formed) (hf : r.Fits s)
    (hc : r.Canonical s) (hs : Stands catalog c r.documents) (hj : j.same r.document = true) :
    ∃ r', ofDocument catalog s c root j = .ok r' ∧ r'.id = r.id ∧ r'.root = root ∧
      (r'.values == r.values) = true := by
  have hfields := Reads.fields hf.storable hr.ascending hc.fields
  have htakes : ∀ e ∈ r.values.entries, Takes s e := by
    intro e he
    obtain ⟨t, ht, hfits⟩ := (Option.any_eq_true _ _).1 (hf e he)
    have hreads := (hfields e he).2
    rw [Path.join_root, declared, ← Schema.declares?, ht] at hreads
    exact ⟨hr.topLevel e he, t, ht, hfits, hreads⟩
  have hne : ∀ e ∈ r.values.entries, e.1 ≠ "_id" := fun e he => (hfields e he).1
  obtain ⟨members, rfl, hid, hown⟩ :=
    read_storedDocument r.values.ordered (get?_storedDocument_id hne) hj
  rw [ownFields_of_ne hne] at hown
  obtain ⟨hs', hgives, hsame⟩ := exists_gives_same r.values.entries htakes hs hown
  have hordered : Entries.Ordered hs' := by
    rw [← Entries.ordered_mapValues_iff (f := fun _ => Held.plain), ← Held.plainEntries_eq]
    exact (ordered_of_sameEntries hsame).2 r.values.ordered
  obtain ⟨r', htake, hid', hroot, hentries⟩ :=
    takeFields_gives hgives (r := .empty r.id root) hordered (List.forall_mem_nil _)
  refine ⟨r', ?_, hid', hroot, ?_⟩
  · rw [ofDocument, hid, ok_bind]
    exact htake
  · show (r'.values.entries == r.values.entries) = true
    rw [beq_eq_sameEntries, entries_values, hentries, ← Held.plainEntries_eq]
    exact hsame

end Record
end SchemaKeeper
