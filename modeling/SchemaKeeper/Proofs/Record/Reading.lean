import SchemaKeeper.Proofs.Record.Finite
import SchemaKeeper.Proofs.Record.Loaded

/-!
# What reading gives is read again

What is stored of a value need not be read back as this value: an integer may come back as a
floating-point number, a list as a tuple, and what stands under `any` as what its stored form looks
like.  What reading itself gave has none of these ways to differ.  It is read back from its own
stored form, at its type and below its path, as long as its numbers are finite and its moments can
be written with four digits of the year.
-/
namespace SchemaKeeper

namespace Value

mutual

/-- Each moment inside is of a year from 0 to 9999. -/
def isDated : Value → Bool
  | .datetime m => decide (0 ≤ m.date.year ∧ m.date.year ≤ 9999)
  | .list items => itemsDated items
  | .tuple items => itemsDated items
  | .dict entries => entriesDated entries
  | .document _ _ fields => entriesDated fields
  | _ => true

def itemsDated : List Value → Bool
  | [] => true
  | v :: vs => isDated v && itemsDated vs

def entriesDated : List (String × Value) → Bool
  | [] => true
  | (_, v) :: vs => isDated v && entriesDated vs

end

theorem itemsDated_eq (vs : List Value) : itemsDated vs = vs.all isDated := by
  induction vs with
  | nil => rfl
  | cons v vs ih => rw [itemsDated, ih, List.all_cons]

theorem entriesDated_eq (es : List (String × Value)) :
    entriesDated es = es.all fun e => e.2.isDated := by
  induction es with
  | nil => rfl
  | cons e es ih => rw [entriesDated, ih, List.all_cons]

/-- All numbers and all moments in the value are stored. -/
structure Lasts (v : Value) : Prop where
  storable : v.isStorable = true
  dated : v.isDated = true

theorem lasts_items {items : List Value} (hs : itemsStorable items = true)
    (hd : itemsDated items = true) : ∀ v ∈ items, v.Lasts := by
  rw [itemsStorable_eq, List.all_eq_true] at hs
  rw [itemsDated_eq, List.all_eq_true] at hd
  exact fun v hv => ⟨hs v hv, hd v hv⟩

theorem lasts_entries {entries : List (String × Value)} (hs : entriesStorable entries = true)
    (hd : entriesDated entries = true) : ∀ e ∈ entries, e.2.Lasts := by
  rw [entriesStorable_eq, List.all_eq_true] at hs
  rw [entriesDated_eq, List.all_eq_true] at hd
  exact fun e he => ⟨hs e he, hd e he⟩

end Value

namespace Record

open Value

variable {catalog : Catalog} {s : Schema} {c : Collections} {path : String}

/-! ## Where no type is declared -/

/-- A dict is read only where the stored object is no date. -/
theorem isDate_readAnyMembers : ∀ {ms : List (String × Json)}, dateOf? (.object ms) = none →
    isDate (readAnyMembers ms) = false
  | [], _ => rfl
  | [(k, .string text)], h => by
    by_cases hk : k = "$date"
    · subst hk
      simp only [dateOf?, Json.wrapped?, if_true, Option.bind_eq_bind, Option.bind_some] at h
      simp [readAnyMembers, readAny, isDate, h]
    · simp [readAnyMembers, readAny, isDate, hk]
  | [(_, .null)], _ | [(_, .bool _)], _ | [(_, .float _)], _ | [(_, .array _)], _ => rfl
  | [(_, .int n)], _ => by
    rw [readAnyMembers, readAny, numberOf]
    cases wordOf? n <;> rfl
  | [(_, .object ms)], _ => by
    rw [readAnyMembers, readAny]
    cases dateOf? (.object ms) <;> rfl
  | (_, _) :: (_, _) :: _, _ => by simp [readAnyMembers, isDate]

mutual

theorem readAny_stored : ∀ {j : Json}, (readAny j).Lasts → readAny (readAny j).stored = readAny j
  | .null, _ | .bool _, _ | .string _, _ => rfl
  | .int n, h => by
    have hs := h.storable
    rw [readAny, numberOf] at hs ⊢
    cases hw : wordOf? n with
    | some w => simp [stored, readAny, numberOf]
    | none =>
      rw [hw] at hs
      simp only [isStorable] at hs
      simp [stored, readAny, hs]
  | .float x, h => by
    have hs : x.isFinite = true := h.storable
    simp [readAny, stored, hs]
  | .array items, h => by
    have hitems : ∀ v ∈ readAnyItems items, v.Lasts := lasts_items h.storable h.dated
    rw [readAny, stored, readAny, readAnyItems_stored hitems]
  | .object ms, h => by
    rw [readAny] at h ⊢
    cases hd : dateOf? (.object ms) with
    | some m =>
      rw [hd] at h
      have hm := dateOf?_stored (of_decide_eq_true h.dated)
      simp only [stored] at hm ⊢
      rw [readAny, hm]
    | none =>
      rw [hd] at h
      have hes : ∀ e ∈ readAnyMembers ms, e.2.Lasts := lasts_entries h.storable h.dated
      simp only [stored]
      rw [readAny, dateOf?_eq_none (isDate_readAnyMembers hd)
        (Json.sameMembers_self (membersFinite_storedEntries _)), readAnyMembers_stored hes]

theorem readAnyItems_stored : ∀ {js : List Json}, (∀ v ∈ readAnyItems js, v.Lasts) →
    readAnyItems (storedItems (readAnyItems js)) = readAnyItems js
  | [], _ => rfl
  | j :: js, h => by
    obtain ⟨hj, hjs⟩ := List.forall_mem_cons.1 h
    rw [readAnyItems, storedItems, readAnyItems, readAny_stored hj, readAnyItems_stored hjs]

theorem readAnyMembers_stored : ∀ {ms : List (String × Json)},
    (∀ e ∈ readAnyMembers ms, e.2.Lasts) →
      readAnyMembers (storedEntries (readAnyMembers ms)) = readAnyMembers ms
  | [], _ => rfl
  | (k, j) :: ms, h => by
    obtain ⟨hj, hms⟩ := List.forall_mem_cons.1 h
    rw [readAnyMembers, storedEntries, readAnyMembers, readAny_stored hj, readAnyMembers_stored hms]

end

/-- What was read at a scalar kind is read back. -/
theorem readScalar?_stored {k : Scalar} {j : Json} {v : Value} (h : readScalar? k j = some v)
    (hv : v.Lasts) : readScalar? k v.stored = some v := by
  cases k with
  | any =>
    injection h with h
    subst h
    exact congrArg some (readAny_stored hv)
  | datetime =>
    obtain ⟨m, -, rfl⟩ := Option.map_eq_some_iff.1 h
    have hm := dateOf?_stored (of_decide_eq_true hv.dated)
    rw [readScalar?, hm]
    rfl
  | int =>
    cases j with
    | int n =>
      obtain ⟨w, -, rfl⟩ := Option.map_eq_some_iff.1 h
      simp [stored, readScalar?]
    | _ => cases h
  | float =>
    obtain ⟨x, rfl⟩ : ∃ x, v = .float x := by
      cases j with
      | int n => exact ⟨_, (Option.some.inj h).symm⟩
      | float x => exact ⟨x, (Option.some.inj h).symm⟩
      | _ => cases h
    have hx : x.isFinite = true := hv.storable
    simp [stored, hx, readScalar?]
  | bool =>
    cases j with
    | bool b => exact Option.some.inj h ▸ rfl
    | _ => cases h
  | string =>
    cases j with
    | string text => exact Option.some.inj h ▸ rfl
    | _ => cases h

theorem readAs_null (f : DocClass → String → Except Refusal Value) (t : FieldType) :
    readAs f path t .null = .ok .null := by
  cases t <;> rfl

theorem readAs_scalar_stored (f : DocClass → String → Except Refusal Value) {k : Scalar} {j : Json}
    {v : Value} (h : readScalar? k j = some v) (hv : v.Lasts) :
    readAs f path (.scalar k) v.stored = .ok v := by
  have hread := readScalar?_stored h hv
  by_cases hk : k = .any
  · subst hk
    injection hread with hread
    rw [readAs_any, hread]
  · exact readAs_of_readScalar? f path hk hread

/-! ## Readings -/

/-- The value is one that reading gives at the type below the path. -/
inductive Reading (s : Schema) : String → FieldType → Value → Prop where
  | null {path : String} {t : FieldType} : Reading s path t .null
  | scalar {path : String} {k : Scalar} {j : Json} {v : Value} (read : readScalar? k j = some v) :
    Reading s path (.scalar k) v
  | list {path : String} {t : FieldType} {items : List Value}
    (each : ∀ v ∈ items, Reading s path t v) : Reading s path (.list t) (.list items)
  | dict {path : String} {t : FieldType} {entries : List (String × Value)}
    (each : ∀ e ∈ entries, Reading s path t e.2) : Reading s path (.dict t) (.dict entries)
  | tuple {path : String} {ts : List FieldType} {items : List Value}
    (length : items.length = ts.length)
    (each : ∀ p ∈ ts.zip items, Reading s path p.1 p.2) : Reading s path (.tuple ts) (.tuple items)
  | document {path : String} {k : DocClass} {id : Uuid} {fields : List (String × Value)}
    (ordered : Entries.Ordered fields) (own : ∀ e ∈ fields, e.1 ≠ "_id")
    (each : ∀ e ∈ fields,
      Reading s (Path.join path e.1) (declared s (Path.join path e.1)) e.2) :
    Reading s path (.document k) (.document id k.name fields)

mutual

/-- Where references lead to readings, whatever is read is one. -/
theorem reading_readAs {f : DocClass → String → Except Refusal Value}
    (hf : ∀ k text v, f k text = .ok v → Reading s path (.document k) v) :
    ∀ (t : FieldType) {j : Json} {v : Value}, readAs f path t j = .ok v → Reading s path t v
  | .scalar k, j, v, h => by
    rcases readAs_scalar_ok h with rfl | h
    · exact .null
    · exact .scalar h
  | .list t, j, v, h => by
    cases j with
    | null =>
      cases h
      exact .null
    | array items =>
      obtain ⟨vs, hvs, rfl⟩ := map_eq_ok_iff.1 h
      refine .list fun v hv => ?_
      obtain ⟨j, -, hask⟩ := mem_of_readItems hvs v hv
      exact reading_readAs hf t hask
    | _ => cases h
  | .dict t, j, v, h => by
    cases j with
    | null =>
      cases h
      exact .null
    | object members =>
      obtain ⟨es, hes, rfl⟩ := map_eq_ok_iff.1 h
      refine .dict fun e he => ?_
      obtain ⟨m, -, hask⟩ := mem_of_readMembers hes e he
      exact reading_readAs hf t hask
    | _ => cases h
  | .tuple ts, j, v, h => by
    cases j with
    | null =>
      cases h
      exact .null
    | array items =>
      rw [readAs] at h
      split at h
      · rename_i hlength
        obtain ⟨vs, hvs, rfl⟩ := map_eq_ok_iff.1 h
        obtain ⟨hl, heach⟩ := reading_readEach hf ts hvs hlength
        exact .tuple hl heach
      · cases h
    | _ => cases h
  | .document k, j, v, h => by
    rcases readAs_document_ok h with rfl | ⟨text, h⟩
    · exact .null
    · exact hf k text v h

theorem reading_readEach {f : DocClass → String → Except Refusal Value}
    (hf : ∀ k text v, f k text = .ok v → Reading s path (.document k) v) :
    ∀ (ts : List FieldType) {js : List Json} {vs : List Value}, readEach f path ts js = .ok vs →
      js.length = ts.length →
        vs.length = ts.length ∧ ∀ p ∈ ts.zip vs, Reading s path p.1 p.2
  | [], [], _, h, _ => by
    cases h
    exact ⟨rfl, nofun⟩
  | t :: ts, j :: js, vs, h, hl => by
    obtain ⟨v, hv, h⟩ := bind_eq_ok_iff.1 h
    obtain ⟨us, hus, h⟩ := bind_eq_ok_iff.1 h
    cases h
    obtain ⟨hlength, heach⟩ := reading_readEach hf ts hus (Nat.succ.inj hl)
    exact ⟨congrArg (· + 1) hlength,
      List.forall_mem_cons.2 ⟨reading_readAs hf t hv, heach⟩⟩

end

/-- The documents to which references can lead are filed as they were written: their members ascend,
and each stands under the text of its identifier. -/
structure Filed (catalog : Catalog) (c : Collections) : Prop where
  ordered : ∀ {path name text members}, c.get? path = some name →
    catalog.findOne name "_id" (.string text) = some (.object members) → Entries.Ordered members
  text : ∀ {path name text members id}, c.get? path = some name →
    catalog.findOne name "_id" (.string text) = some (.object members) →
      identifier path (.object members) = .ok id → text = id.text

theorem names_of_readFields {ask : String → Json → Except Refusal Value} :
    ∀ {ms : List (String × Json)} {es : List (String × Value)}, readFields ask path ms = .ok es →
      es.map Prod.fst = ms.map Prod.fst
  | [], _, h => by
    cases h
    rfl
  | (name, j) :: ms, es, h => by
    obtain ⟨v, -, h⟩ := bind_eq_ok_iff.1 h
    obtain ⟨fs, hfs, h⟩ := bind_eq_ok_iff.1 h
    cases h
    rw [List.map_cons, List.map_cons, names_of_readFields hfs]

/-- What a reference leads to is a reading. -/
theorem reading_follow (hc : Filed catalog c) : ∀ (depth : Nat) {path : String} {k : DocClass}
    {text : String} {v : Value}, follow catalog s c depth path k text = .ok v →
      Reading s path (.document k) v
  | 0, _, _, _, _, h => by cases h
  | depth + 1, path, k, text, v, h => by
    obtain ⟨name, members, id, fields, hname, hfind, -, rfl, hread⟩ := follow_ok h
    have hordered : Entries.Ordered (ownMembers members) :=
      Entries.ordered_filter _ (hc.ordered hname hfind)
    have hfields := mem_of_readFields hread
    refine .document ?_ (fun e he hid => ?_) fun e he => ?_
    · have hnames := names_of_readFields hread
      exact List.pairwise_map.1 (hnames ▸ List.pairwise_map.2 hordered)
    · obtain ⟨m, hm, hname, -⟩ := hfields e he
      have hown := (List.mem_filter.1 hm).2
      rw [hname, hid] at hown
      cases hown
    · obtain ⟨m, -, -, hask⟩ := hfields e he
      exact reading_readAs (fun _ _ _ => reading_follow hc depth) _ hask

/-! ## What a record holds of a reading -/

theorem holdItems_plainItems {ask : Value → Except Refusal Held} : ∀ {hs : List Held},
    (∀ x ∈ hs, ask x.plain = .ok x) → holdItems ask (Held.plainItems hs) = .ok hs
  | [], _ => rfl
  | x :: hs, h => by
    obtain ⟨hx, hrest⟩ := List.forall_mem_cons.1 h
    rw [Held.plainItems, holdItems, hx, ok_bind, holdItems_plainItems hrest]
    rfl

theorem holdEntries_plainEntries {ask : Value → Except Refusal Held} :
    ∀ {hs : List (String × Held)}, (∀ e ∈ hs, ask e.2.plain = .ok e.2) →
      holdEntries ask (Held.plainEntries hs) = .ok hs
  | [], _ => rfl
  | (key, x) :: hs, h => by
    obtain ⟨hx, hrest⟩ := List.forall_mem_cons.1 h
    rw [Held.plainEntries, holdEntries, hx, ok_bind, holdEntries_plainEntries hrest]
    rfl

/-- To hold what is held already changes nothing. -/
theorem hold_again : ∀ (t : FieldType) {q : String} {level : Nat} {v : Value} {h : Held},
    hold q level t v = .ok h → hold q level t h.plain = .ok h
  | .list t, q, level, v, h, hh => by
    cases v with
    | list items =>
      obtain ⟨hs, hhs, rfl⟩ := map_eq_ok_iff.1 hh
      refine map_eq_ok_iff.2 ⟨hs, holdItems_plainItems fun x hx => ?_, rfl⟩
      obtain ⟨u, -, hask⟩ := holdItems_mem hhs x hx
      have hagain := hold_again t (refuseNull_eq_ok hask)
      rw [refuseNull_of_fits (fits_of_hold _ hagain), hagain]
    | _ => cases hh
  | .dict t, q, level, v, h, hh => by
    cases v with
    | dict entries =>
      obtain ⟨hs, hhs, rfl⟩ := map_eq_ok_iff.1 hh
      refine map_eq_ok_iff.2 ⟨Entries.ofList hs, holdEntries_plainEntries fun x hx => ?_, by
        rw [Entries.ofList_of_ordered (Entries.ordered_ofList hs)]⟩
      have hx := (Entries.mem_of_mem_foldl_insert hs hx).resolve_right List.not_mem_nil
      obtain ⟨u, -, hask⟩ := holdEntries_mem hhs x hx
      have hagain := hold_again t (refuseNull_eq_ok hask)
      rw [refuseNull_of_fits (fits_of_hold _ hagain), hagain]
    | _ => cases hh
  | .scalar _, _, _, _, _, hh | .tuple _, _, _, _, _, hh | .document _, _, _, _, _, hh => by
    have hsplit := hh
    rw [hold] at hsplit
    split at hsplit
    · cases hsplit
      exact hh
    · cases hsplit

/-- A record holds a reading as a reading. -/
theorem Reading.hold : ∀ (t : FieldType) {path q : String} {level : Nat} {v : Value} {h : Held},
    Reading s path t v → SchemaKeeper.hold q level t v = .ok h → Reading s path t h.plain
  | .list t, path, q, level, v, h, hr, hh => by
    cases hr with
    | null => cases hh
    | list each =>
      obtain ⟨hs, hhs, rfl⟩ := map_eq_ok_iff.1 hh
      refine .list fun u hu => ?_
      rw [Held.plainItems_eq] at hu
      obtain ⟨x, hx, rfl⟩ := List.mem_map.1 hu
      obtain ⟨w, hw, hask⟩ := holdItems_mem hhs x hx
      exact Reading.hold t (each w hw) (refuseNull_eq_ok hask)
  | .dict t, path, q, level, v, h, hr, hh => by
    cases hr with
    | null => cases hh
    | dict each =>
      obtain ⟨hs, hhs, rfl⟩ := map_eq_ok_iff.1 hh
      refine .dict fun e he => ?_
      rw [Held.plainEntries_eq, Entries.mapValues] at he
      obtain ⟨x, hx, rfl⟩ := List.mem_map.1 he
      have hx := (Entries.mem_of_mem_foldl_insert hs hx).resolve_right List.not_mem_nil
      obtain ⟨w, hw, hask⟩ := holdEntries_mem hhs x hx
      exact Reading.hold t (each w hw) (refuseNull_eq_ok hask)
  | .scalar _, _, _, _, _, _, hr, hh | .tuple _, _, _, _, _, _, hr, hh
  | .document _, _, _, _, _, _, hr, hh => by
    rw [SchemaKeeper.hold] at hh
    split at hh
    · cases hh
      exact hr
    · cases hh

/-! ## Reading again -/

theorem readItems_stored {ask : Json → Except Refusal Value} : ∀ {vs : List Value},
    (∀ v ∈ vs, ask v.stored = .ok v) → readItems ask (storedItems vs) = .ok vs
  | [], _ => rfl
  | v :: vs, h => by
    obtain ⟨hv, hvs⟩ := List.forall_mem_cons.1 h
    rw [storedItems, readItems, hv, ok_bind, readItems_stored hvs]
    rfl

theorem readMembers_stored {ask : Json → Except Refusal Value} : ∀ {es : List (String × Value)},
    (∀ e ∈ es, ask e.2.stored = .ok e.2) → readMembers ask (storedEntries es) = .ok es
  | [], _ => rfl
  | (key, v) :: es, h => by
    obtain ⟨hv, hes⟩ := List.forall_mem_cons.1 h
    rw [storedEntries, readMembers, hv, ok_bind, readMembers_stored hes]
    rfl

theorem readFields_stored {ask : String → Json → Except Refusal Value} :
    ∀ {es : List (String × Value)}, (∀ e ∈ es, ask (Path.join path e.1) e.2.stored = .ok e.2) →
      readFields ask path (storedEntries es) = .ok es
  | [], _ => rfl
  | (name, v) :: es, h => by
    obtain ⟨hv, hes⟩ := List.forall_mem_cons.1 h
    rw [storedEntries, readFields, hv, ok_bind, readFields_stored hes]
    rfl

theorem readEach_stored {f : DocClass → String → Except Refusal Value} :
    ∀ {ts : List FieldType} {vs : List Value}, vs.length = ts.length →
      (∀ p ∈ ts.zip vs, readAs f path p.1 p.2.stored = .ok p.2) →
        (storedItems vs).length = ts.length ∧ readEach f path ts (storedItems vs) = .ok vs
  | [], [], _, _ => ⟨rfl, rfl⟩
  | t :: ts, v :: vs, hl, h => by
    obtain ⟨hv, hvs⟩ := List.forall_mem_cons.1 h
    obtain ⟨hlength, hread⟩ := readEach_stored (Nat.succ.inj hl) hvs
    refine ⟨congrArg (· + 1) hlength, ?_⟩
    rw [storedItems, readEach, hv, ok_bind, hread]
    rfl

/-- A stored document names its document. -/
theorem identifier_storedDocument {id : Uuid} {fields : List (String × Value)}
    (h : ∀ e ∈ fields, e.1 ≠ "_id") : identifier path (storedDocument id fields) = .ok id :=
  identifier_of_get? (get?_storedDocument_id h)

/-- Each of the documents stands in the collection of its path, in its own stored form. -/
def StandsExactly (catalog : Catalog) (c : Collections) (documents : List (String × Value)) :
    Prop :=
  ∀ path id className fields, (path, Value.document id className fields) ∈ documents →
    ∃ name, c.get? path = some name ∧
      catalog.findOne name "_id" (.string id.text) = some (storedDocument id fields)

theorem StandsExactly.mono {ds ds' : List (String × Value)} (h : StandsExactly catalog c ds)
    (hs : ds' ⊆ ds) : StandsExactly catalog c ds' :=
  fun path id className fields hd => h path id className fields (hs hd)

/-- A reading whose documents stand in the catalog is read back from its stored form. -/
theorem Reading.readAs {t : FieldType} {v : Value} (h : Reading s path t v) :
    ∀ {depth : Nat}, path ≠ "" → room c path ≤ depth → v.Lasts →
      StandsExactly catalog c (Value.documents path v) →
        Record.readAs (follow catalog s c depth path) path t v.stored = .ok v := by
  induction h with
  | null => exact fun _ _ _ _ => readAs_null _ _
  | scalar read => exact fun _ _ hv _ => readAs_scalar_stored _ read hv
  | list _ ih =>
    intro depth hp hroom hv hs
    refine map_eq_ok_iff.2 ⟨_, readItems_stored fun u hu => ?_, rfl⟩
    exact ih u hu hp hroom (lasts_items hv.storable hv.dated u hu)
      (hs.mono fun d hd => mem_itemsDocuments.2 ⟨u, hu, hd⟩)
  | dict _ ih =>
    intro depth hp hroom hv hs
    refine map_eq_ok_iff.2 ⟨_, readMembers_stored fun e he => ?_, rfl⟩
    exact ih e he hp hroom (lasts_entries hv.storable hv.dated e he)
      (hs.mono fun d hd => mem_entriesDocuments.2 ⟨e, he, hd⟩)
  | tuple length _ ih =>
    intro depth hp hroom hv hs
    obtain ⟨hlength, hread⟩ := readEach_stored (f := follow catalog s c depth _) length
      fun p hp' => ih p hp' hp hroom
        (lasts_items hv.storable hv.dated p.2 (List.of_mem_zip hp').2)
        (hs.mono fun d hd => mem_itemsDocuments.2 ⟨p.2, (List.of_mem_zip hp').2, hd⟩)
    rw [stored, Record.readAs, if_pos hlength, hread]
    rfl
  | @document path k id fields ordered own _ ih =>
    intro depth hp hroom hv hs
    obtain ⟨name, hname, hfind⟩ := hs path id k.name fields List.mem_cons_self
    have hless := room_join hp hname
    cases depth with
    | zero => exact absurd (Nat.lt_of_lt_of_le (hless "") hroom) (Nat.not_lt_zero _)
    | succ depth =>
      have hread : readFields (fun p j => Record.readAs (follow catalog s c depth p) p
          (declared s p) j) path (storedEntries fields) = .ok fields :=
        readFields_stored fun e he => ih e he (join_ne_root hp e.1)
          (Nat.le_of_lt_succ (Nat.lt_of_lt_of_le (hless e.1) hroom))
          (lasts_entries hv.storable hv.dated e he)
          (hs.mono fun d hd => List.mem_cons_of_mem _ (mem_fieldsDocuments.2 ⟨e, he, hd⟩))
      simp only [stored, Record.readAs, Json.get?, Entries.get?_cons, if_true]
      refine follow_eq_ok hname hfind (identifier_storedDocument own) ?_
      rw [ownMembers_storedDocument id ordered, ownFields_of_ne own]
      exact hread

end Record
end SchemaKeeper
