import Mathlib.Data.List.Forall2
import SchemaKeeper.Proofs.Outcome
import SchemaKeeper.Proofs.Record.Any
import SchemaKeeper.Proofs.Uuid

/-!
# Reading at declared types

Where each document inside a value stands in the catalog, the value is read back at its type from
what is the same as its stored form.  A reference leads to a longer path that has a collection, so
the number of such paths bounds how far references are followed.
-/
namespace SchemaKeeper.Record

open Value

variable {catalog : Catalog} {s : Schema} {c : Collections}

/-! ## Scalars -/

theorem readAs_any (f : DocClass → String → Except Refusal Value) (path : String) (j : Json) :
    readAs f path (.scalar .any) j = .ok (readAny j) := by
  cases j <;> simp [readAs, readScalar?, readAny]

theorem readAs_of_readScalar? (f : DocClass → String → Except Refusal Value) (path : String)
    {k : Scalar} {j : Json} {v : Value} (hk : k ≠ .any) (h : readScalar? k j = some v) :
    readAs f path (.scalar k) j = .ok v := by
  cases j with
  | null =>
    cases k with
    | any => exact absurd rfl hk
    | _ => cases h
  | _ => simp [readAs, h]

/-- An instance of a scalar kind is read back from what is the same as its stored form. -/
theorem readScalar?_same {path : String} {k : Scalar} {v : Value} {j : Json} (hk : k ≠ .any)
    (hv : v.fits (.scalar k) = true) (hc : isCanonical s path (.scalar k) v = true)
    (hj : j.same v.stored = true) :
    ∃ v', readScalar? k j = some v' ∧ v'.same v = true := by
  cases v with
  | null => simp [fits, isNull] at hv
  | bool b =>
    have hj : j = .bool b := Json.eq_of_same (b := .bool b) trivial hj
    subst hj
    cases k <;> simp_all [fits, fitsScalar, readScalar?, same]
  | int n =>
    have hj : j = .int n.toInt := Json.eq_of_same (b := .int n.toInt) trivial hj
    subst hj
    cases k <;> simp_all [fits, fitsScalar, readScalar?, same, isCanonical]
  | float x =>
    cases k <;> simp_all [fits, fitsScalar, isWild, stored]
    obtain ⟨y, rfl, hy⟩ := Json.exists_float_of_same hj
    exact ⟨.float y, rfl, hy⟩
  | string t =>
    have hj : j = .string t := Json.eq_of_same (b := .string t) trivial hj
    subst hj
    cases k <;> simp_all [fits, fitsScalar, readScalar?, same]
  | datetime m =>
    have hj : j = (Value.datetime m).stored :=
      Json.eq_of_same (b := (Value.datetime m).stored) ⟨trivial, trivial⟩ hj
    have hd := dateOf?_stored (of_decide_eq_true hc)
    subst hj
    cases k <;> simp_all [fits, fitsScalar, readScalar?, same, stored]
  | list items => cases k <;> simp_all [fits, fitsScalar]
  | dict entries => cases k <;> simp_all [fits, fitsScalar]
  | tuple items => cases k <;> simp_all [fits, fitsScalar]
  | document id className fields => cases k <;> simp_all [fits, fitsScalar]

/-! ## Stored documents -/

theorem ordered_storedEntries {es : List (String × Value)} (h : Entries.Ordered es) :
    Entries.Ordered (storedEntries es) := by
  rw [storedEntries_eq]
  exact Entries.ordered_mapValues _ h

theorem get?_storedEntries (es : List (String × Value)) (name : String) :
    Entries.get? (storedEntries es) name = (Entries.get? es name).map stored := by
  rw [storedEntries_eq, Entries.get?_mapValues]

theorem sameMembers_filter (p : String → Bool) :
    ∀ {as bs : List (String × Json)}, Json.sameMembers as bs = true →
      Json.sameMembers (as.filter fun m => p m.1) (bs.filter fun m => p m.1) = true
  | [], [], _ => rfl
  | (k, a) :: as, (k', b) :: bs, h => by
    simp only [Json.sameMembers, Bool.and_eq_true, beq_iff_eq] at h
    obtain ⟨⟨rfl, ha⟩, h⟩ := h
    have ih := sameMembers_filter p h
    by_cases hp : p k = true
    · simp [hp, Json.sameMembers, ha, ih]
    · simp [hp, ih]

section StoredDocument
variable {id : Uuid} {fields : List (String × Value)}

/-- The members of a stored document: its fields and, unless one of them takes its place, its
identifier. -/
theorem get?_storedDocument (ho : Entries.Ordered fields) (name : String) :
    Entries.get? (Entries.ofList (("_id", .string id.text) :: storedEntries fields)) name =
      ((Entries.get? fields name).map stored).or
        (if name = "_id" then some (.string id.text) else none) := by
  rw [Entries.ofList, List.foldl_cons, Entries.get?_foldl_insert name _ (ordered_storedEntries ho),
    get?_storedEntries, Entries.insert, Entries.get?_cons, Entries.get?_nil]
  simp only [eq_comm]

/-- What a stored document has under a name: its identifier or one of its fields. -/
theorem mem_of_get?_storedDocument {key : String} {j : Json}
    (h : (storedDocument id fields).get? key = some j) :
    (key = "_id" ∧ j = .string id.text) ∨ ∃ e ∈ fields, e.1 = key ∧ e.2.stored = j := by
  rcases List.mem_cons.1 (Entries.mem_of_get?_ofList h) with h | h
  · injection h with hkey hj
    exact .inl ⟨hkey, hj⟩
  · rw [storedEntries_eq, Entries.mapValues] at h
    obtain ⟨e, he, heq⟩ := List.mem_map.1 h
    injection heq with hkey hj
    exact .inr ⟨e, he, hkey, hj⟩

/-- A document whose fields are not called `_id` carries its identifier. -/
theorem get?_storedDocument_id (h : ∀ e ∈ fields, e.1 ≠ "_id") :
    (storedDocument id fields).get? "_id" = some (.string id.text) := by
  have hsome : ((storedDocument id fields).get? "_id").isSome :=
    Entries.isSome_get?_foldl_insert _ (.inl ⟨_, List.mem_cons_self⟩)
  obtain ⟨j, hj⟩ := Option.isSome_iff_exists.1 hsome
  rcases mem_of_get?_storedDocument hj with ⟨-, rfl⟩ | ⟨e, he, hkey, -⟩
  · exact hj
  · exact absurd hkey (h e he)

/-- The fields of a document that do not stand in the place of its identifier. -/
def ownFields (fields : List (String × Value)) : List (String × Value) :=
  fields.filter fun e => e.1 != "_id"

theorem ownFields_of_ne (h : ∀ e ∈ fields, e.1 ≠ "_id") : ownFields fields = fields :=
  List.filter_eq_self.2 fun e he => bne_iff_ne.2 (h e he)

theorem get?_ownFields {name : String} (h : name ≠ "_id") :
    Entries.get? (ownFields fields) name = Entries.get? fields name := by
  rw [ownFields, Entries.get?_filter (fun k => k != "_id"), if_pos (bne_iff_ne.2 h)]

/-- The members of a stored document besides its identifier are its fields. -/
theorem ownMembers_storedDocument (id : Uuid) (ho : Entries.Ordered fields) :
    ownMembers (Entries.ofList (("_id", .string id.text) :: storedEntries fields)) =
      storedEntries (ownFields fields) := by
  refine Entries.ext_get? (Entries.ordered_filter _ (Entries.ordered_ofList _))
    (ordered_storedEntries (Entries.ordered_filter _ ho)) fun name => ?_
  rw [ownMembers, Entries.get?_filter (fun k => k != "_id"), get?_storedDocument ho,
    get?_storedEntries, ownFields, Entries.get?_filter (fun k => k != "_id")]
  by_cases hn : name = "_id" <;> simp [hn]

/-- A document that carries the text of an identifier names it. -/
theorem identifier_of_get? {path : String} {document : Json}
    (h : document.get? "_id" = some (.string id.text)) : identifier path document = .ok id := by
  rw [identifier, h]
  simp [Json.asString?, Uuid.read?_text]

/-- What is read of a document that is the same as a stored one, if this carries its identifier. -/
theorem read_storedDocument {j : Json} (ho : Entries.Ordered fields)
    (hown : (storedDocument id fields).get? "_id" = some (.string id.text))
    (hj : j.same (storedDocument id fields) = true) :
    ∃ members, j = .object members ∧ (∀ path, identifier path (.object members) = .ok id) ∧
      Json.sameMembers (ownMembers members) (storedEntries (ownFields fields)) = true := by
  obtain ⟨members, rfl, hm⟩ := Json.exists_object_of_same hj
  refine ⟨members, rfl, fun path => ?_, ?_⟩
  · rcases Json.get?_sameMembers "_id" hm with ⟨-, hnone⟩ | ⟨a, b, ha, hb, hab⟩
    · rw [show Entries.get? _ "_id" = some (Json.string id.text) from hown] at hnone
      cases hnone
    · rw [show Entries.get? _ "_id" = some (Json.string id.text) from hown] at hb
      injection hb with hb
      subst hb
      have ha' : a = .string id.text := Json.eq_of_same (b := .string id.text) trivial hab
      subst ha'
      exact identifier_of_get? ha
  · have hmembers := ownMembers_storedDocument id ho
    rw [← hmembers]
    exact sameMembers_filter (fun k => k != "_id") hm

end StoredDocument

/-! ## References -/

/-- Each of the documents stands in the collection of its path, under its identifier and in what is
the same as its stored form. -/
def Stands (catalog : Catalog) (c : Collections) (documents : List (String × Value)) : Prop :=
  ∀ path id className fields, (path, Value.document id className fields) ∈ documents →
    ∃ name j, c.get? path = some name ∧ catalog.findOne name "_id" (.string id.text) = some j ∧
      j.same (storedDocument id fields) = true

theorem Stands.mono {ds ds' : List (String × Value)} (h : Stands catalog c ds) (hs : ds' ⊆ ds) :
    Stands catalog c ds' := fun path id className fields hd => h path id className fields (hs hd)

/-- How many paths have collections that are as long as the given one or longer. -/
def room (c : Collections) (path : String) : Nat :=
  c.keys.countP fun k => decide (path.length ≤ k.length)

theorem countP_lt_countP {α : Type} {p q : α → Bool} {l : List α} {a : α} (ha : a ∈ l)
    (h : ∀ x ∈ l, p x = true → q x = true) (hp : ¬ p a = true) (hq : q a = true) :
    l.countP p < l.countP q := by
  obtain ⟨l₁, l₂, rfl⟩ := List.append_of_mem ha
  have h₁ : l₁.countP p ≤ l₁.countP q :=
    List.countP_mono_left fun x hx => h x (by simp [hx])
  have h₂ : l₂.countP p ≤ l₂.countP q :=
    List.countP_mono_left fun x hx => h x (by simp [hx])
  rw [List.countP_append, List.countP_append, List.countP_cons_of_neg hp,
    List.countP_cons_of_pos hq]
  omega

theorem length_join {path : String} (hp : path ≠ "") (name : String) :
    (Path.join path name).length = path.length + 1 + name.length := by
  rw [Path.join_of_ne_root hp, String.length_append, String.length_append]
  rfl

theorem join_ne_root {path : String} (hp : path ≠ "") (name : String) :
    Path.join path name ≠ "" := by
  intro h
  have hl := length_join hp name
  rw [h, String.length_empty] at hl
  omega

/-- Below a path that has a collection there is less room. -/
theorem room_join {path name : String} (hp : path ≠ "") (hn : c.get? path = some name)
    (field : String) : room c (Path.join path field) < room c path := by
  have hl := length_join hp field
  refine countP_lt_countP (Keyed.mem_keys.2 ⟨name, hn⟩) (fun k _ hk => ?_) ?_ ?_
  · simp only [decide_eq_true_eq] at hk ⊢
    omega
  · simp only [decide_eq_true_eq]
    omega
  · simp

theorem room_le_size (path : String) : room c path ≤ c.size := by
  have h := List.countP_le_length (p := fun k : String => decide (path.length ≤ k.length))
    (l := c.keys)
  rwa [Keyed.keys, List.length_map] at h

/-! ## Whole values -/

/-- The value can be read back at a type below a path. -/
structure Reads (s : Schema) (path : String) (t : FieldType) (v : Value) : Prop where
  storable : v.isStorable = true
  ascending : v.isAscending = true
  fits : t ≠ .scalar .any → v.fits t = true
  canonical : v.isCanonical s path t = true

namespace Reads
variable {path : String} {t : FieldType}

theorem items {items : List Value} (h : Reads s path (.list t) (.list items)) :
    ∀ v ∈ items, Reads s path t v := by
  intro v hv
  have hs : itemsStorable items = true := h.storable
  have ha : itemsAscending items = true := h.ascending
  have hc : itemsCanonical s path t items = true := h.canonical
  have hf : (items.all fun v => v.fits t) = true := h.fits nofun
  rw [itemsStorable_eq, List.all_eq_true] at hs
  rw [itemsAscending_eq, List.all_eq_true] at ha
  rw [itemsCanonical_eq, List.all_eq_true] at hc
  rw [List.all_eq_true] at hf
  exact ⟨hs v hv, ha v hv, fun _ => hf v hv, hc v hv⟩

theorem values {entries : List (String × Value)} (h : Reads s path (.dict t) (.dict entries)) :
    ∀ e ∈ entries, Reads s path t e.2 := by
  intro e he
  have hs : entriesStorable entries = true := h.storable
  have ha : entriesAscending entries = true := (Bool.and_eq_true_iff.1 h.ascending).2
  have hc : entriesCanonical s path t entries = true := h.canonical
  have hf : (entries.all fun e => e.2.fits t) = true := h.fits nofun
  rw [entriesStorable_eq, List.all_eq_true] at hs
  rw [entriesAscending_eq, List.all_eq_true] at ha
  rw [entriesCanonical_eq, List.all_eq_true] at hc
  rw [List.all_eq_true] at hf
  exact ⟨hs e he, ha e he, fun _ => hf e he, hc e he⟩

theorem positions {ts : List FieldType} {items : List Value} (hs : itemsStorable items = true)
    (ha : itemsAscending items = true) (hf : fitsEach ts items = true)
    (hc : eachCanonical s path ts items = true) :
    List.Forall₂ (fun t v => Reads s path t v) ts items := by
  induction items generalizing ts with
  | nil =>
    cases ts with
    | nil => exact .nil
    | cons t ts => cases hf
  | cons v vs ih =>
    cases ts with
    | nil => cases hf
    | cons t ts =>
      obtain ⟨hs1, hs2⟩ := Bool.and_eq_true_iff.1 hs
      obtain ⟨ha1, ha2⟩ := Bool.and_eq_true_iff.1 ha
      obtain ⟨hf1, hf2⟩ := Bool.and_eq_true_iff.1 hf
      obtain ⟨hc1, hc2⟩ := Bool.and_eq_true_iff.1 hc
      exact .cons ⟨hs1, ha1, fun _ => hf1, hc1⟩ (ih hs2 ha2 hf2 hc2)

/-- The fields of a document can be read back at their own types. -/
theorem fields {fields : List (String × Value)} (hs : entriesStorable fields = true)
    (ha : entriesAscending fields = true) (hc : fieldsCanonical s path fields = true) :
    ∀ e ∈ fields, e.1 ≠ "_id" ∧
      Reads s (Path.join path e.1) (declared s (Path.join path e.1)) e.2 := by
  intro e he
  rw [entriesStorable_eq, List.all_eq_true] at hs
  rw [entriesAscending_eq, List.all_eq_true] at ha
  rw [fieldsCanonical_eq, List.all_eq_true] at hc
  have hce := hc e he
  simp only [Bool.and_eq_true, bne_iff_ne] at hce
  obtain ⟨⟨hid, hf⟩, hce⟩ := hce
  refine ⟨hid, hs e he, ha e he, fun hany => ?_, hce⟩
  rw [declared, ← Schema.declares?] at hany ⊢
  cases hd : s.declares? (Path.join path e.1) with
  | none =>
    rw [hd] at hany
    exact absurd rfl hany
  | some t =>
    rw [hd] at hf
    exact hf

end Reads

/-- A reference is resolved to the document whose fields are read from what stands in the
collection. -/
theorem follow_eq_ok {depth : Nat} {path name : String} {k : DocClass} {id : Uuid} {text : String}
    {members : List (String × Json)} {fields : List (String × Value)}
    (hn : c.get? path = some name)
    (hfind : catalog.findOne name "_id" (.string text) = some (.object members))
    (hid : identifier path (.object members) = .ok id)
    (hread : readFields (fun p j => readAs (follow catalog s c depth p) p (declared s p) j) path
      (ownMembers members) = .ok fields) :
    follow catalog s c (depth + 1) path k text = .ok (.document id k.name fields) := by
  rw [follow, collectionFor, hn, ok_bind, hfind]
  simp only [hid, ok_bind]
  rw [hread]
  rfl

mutual

/-- A value whose documents stand in the catalog is read back, however many references that lie
inside it have to be followed. -/
theorem readAs_same : ∀ (v : Value) {t : FieldType} {path : String} {depth : Nat} {j : Json},
    path ≠ "" → room c path ≤ depth → Reads s path t v →
      Stands catalog c (Value.documents path v) → j.same v.stored = true →
        ∃ v', readAs (follow catalog s c depth path) path t j = .ok v' ∧ v'.same v = true
  | v, t, path, depth, j, hp, hroom, hv, hs, hj => by
    cases t with
    | scalar k =>
      by_cases hk : k = .any
      · subst hk
        exact ⟨_, readAs_any _ _ _, readAny_same hv.storable hv.canonical hj⟩
      · obtain ⟨v', hread, hsame⟩ :=
          readScalar?_same hk (hv.fits fun h => hk (by injection h)) hv.canonical hj
        exact ⟨v', readAs_of_readScalar? _ _ hk hread, hsame⟩
    | list t =>
      cases v with
      | list items =>
        obtain ⟨js, rfl, hjs⟩ := Json.exists_array_of_same hj
        obtain ⟨vs, hread, hsame⟩ := readItems_same items hp hroom hv.items hs hjs
        refine ⟨.list vs, ?_, hsame⟩
        rw [readAs, hread]
        rfl
      | _ => cases hv.fits nofun
    | dict t =>
      cases v with
      | dict entries =>
        obtain ⟨js, rfl, hjs⟩ := Json.exists_object_of_same hj
        obtain ⟨vs, hread, hsame⟩ := readMembers_same entries hp hroom hv.values hs hjs
        refine ⟨.dict vs, ?_, hsame⟩
        rw [readAs, hread]
        rfl
      | _ => cases hv.fits nofun
    | tuple ts =>
      cases v with
      | tuple items =>
        obtain ⟨js, rfl, hjs⟩ := Json.exists_array_of_same hj
        have hreads := Reads.positions hv.storable hv.ascending (hv.fits nofun) hv.canonical
        obtain ⟨hlength, vs, hread, hsame⟩ := readEach_same items hp hroom hreads hs hjs
        refine ⟨.tuple vs, ?_, hsame⟩
        rw [readAs, if_pos hlength, hread]
        rfl
      | list items => cases hv.canonical
      | _ => cases hv.fits nofun
    | document k =>
      cases v with
      | document id className fields =>
        obtain ⟨name, j', hn, hfind, hj'⟩ := hs path id className fields List.mem_cons_self
        have hfields := Reads.fields hv.storable (Bool.and_eq_true_iff.1 hv.ascending).2 hv.canonical
        have hne : ∀ e ∈ fields, e.1 ≠ "_id" := fun e he => (hfields e he).1
        obtain ⟨members, rfl, hid, hown⟩ := read_storedDocument
          (of_decide_eq_true (Bool.and_eq_true_iff.1 hv.ascending).1) (get?_storedDocument_id hne)
          hj'
        rw [ownFields_of_ne hne] at hown
        have hclass : className = k.name := by
          simpa [className?] using (Bool.and_eq_true_iff.1 (hv.fits nofun)).1
        have hless := room_join hp hn
        cases depth with
        | zero => exact absurd (Nat.lt_of_lt_of_le (hless "") hroom) (Nat.not_lt_zero _)
        | succ depth =>
          obtain ⟨es, hread, hsame⟩ := readFields_same fields
            (fun e he => (hfields e he).2)
            (fun e _ => Nat.le_of_lt_succ (Nat.lt_of_lt_of_le (hless e.1) hroom))
            (fun e _ => join_ne_root hp e.1) (hs.mono (List.subset_cons_self _ _)) hown
          have hoid : j = .object [("$oid", .string id.text)] :=
            Json.eq_of_same (b := .object [("$oid", .string id.text)]) ⟨trivial, trivial⟩ hj
          subst hoid
          refine ⟨.document id k.name es, ?_, by simp [same, hclass, hsame]⟩
          simp only [readAs, Json.get?, Entries.get?_cons, if_true]
          exact follow_eq_ok hn hfind (hid path) hread
      | _ => cases hv.fits nofun

theorem readItems_same : ∀ (vs : List Value) {t : FieldType} {path : String} {depth : Nat}
    {js : List Json}, path ≠ "" → room c path ≤ depth → (∀ v ∈ vs, Reads s path t v) →
      Stands catalog c (itemsDocuments path vs) → Json.sameItems js (storedItems vs) = true →
        ∃ vs', readItems (fun i => readAs (follow catalog s c depth path) path t i) js = .ok vs' ∧
          sameItems vs' vs = true
  | [], _, _, _, [], _, _, _, _, _ => ⟨[], rfl, rfl⟩
  | v :: vs, t, path, depth, j :: js, hp, hroom, hv, hs, hj => by
    obtain ⟨hv1, hv2⟩ := List.forall_mem_cons.1 hv
    obtain ⟨hj1, hj2⟩ := Bool.and_eq_true_iff.1 hj
    obtain ⟨v', hread, hsame⟩ :=
      readAs_same v hp hroom hv1 (hs.mono (List.subset_append_left _ _)) hj1
    obtain ⟨vs', hreads, hsames⟩ :=
      readItems_same vs hp hroom hv2 (hs.mono (List.subset_append_right _ _)) hj2
    exact ⟨v' :: vs', by rw [readItems, hread, ok_bind, hreads]; rfl,
      Bool.and_eq_true_iff.2 ⟨hsame, hsames⟩⟩

theorem readEach_same : ∀ (vs : List Value) {ts : List FieldType} {path : String} {depth : Nat}
    {js : List Json}, path ≠ "" → room c path ≤ depth →
      List.Forall₂ (fun t v => Reads s path t v) ts vs →
        Stands catalog c (itemsDocuments path vs) → Json.sameItems js (storedItems vs) = true →
          js.length = ts.length ∧
            ∃ vs', readEach (follow catalog s c depth path) path ts js = .ok vs' ∧
              sameItems vs' vs = true
  | [], [], _, _, [], _, _, _, _, _ => ⟨rfl, [], rfl, rfl⟩
  | v :: vs, t :: ts, path, depth, j :: js, hp, hroom, .cons hv1 hv2, hs, hj => by
    obtain ⟨hj1, hj2⟩ := Bool.and_eq_true_iff.1 hj
    obtain ⟨v', hread, hsame⟩ :=
      readAs_same v hp hroom hv1 (hs.mono (List.subset_append_left _ _)) hj1
    obtain ⟨hlength, vs', hreads, hsames⟩ :=
      readEach_same vs hp hroom hv2 (hs.mono (List.subset_append_right _ _)) hj2
    exact ⟨congrArg (· + 1) hlength, v' :: vs',
      by rw [readEach, hread, ok_bind, hreads]; rfl, Bool.and_eq_true_iff.2 ⟨hsame, hsames⟩⟩

theorem readMembers_same : ∀ (es : List (String × Value)) {t : FieldType} {path : String}
    {depth : Nat} {js : List (String × Json)}, path ≠ "" → room c path ≤ depth →
      (∀ e ∈ es, Reads s path t e.2) → Stands catalog c (entriesDocuments path es) →
        Json.sameMembers js (storedEntries es) = true →
          ∃ es', readMembers (fun m => readAs (follow catalog s c depth path) path t m) js =
            .ok es' ∧ sameEntries es' es = true
  | [], _, _, _, [], _, _, _, _, _ => ⟨[], rfl, rfl⟩
  | (k, v) :: es, t, path, depth, (k', j) :: js, hp, hroom, hv, hs, hj => by
    obtain ⟨hv1, hv2⟩ := List.forall_mem_cons.1 hv
    simp only [storedEntries, Json.sameMembers, Bool.and_eq_true] at hj
    obtain ⟨⟨hk, hj1⟩, hj2⟩ := hj
    obtain ⟨v', hread, hsame⟩ :=
      readAs_same v hp hroom hv1 (hs.mono (List.subset_append_left _ _)) hj1
    obtain ⟨es', hreads, hsames⟩ :=
      readMembers_same es hp hroom hv2 (hs.mono (List.subset_append_right _ _)) hj2
    exact ⟨(k', v') :: es', by rw [readMembers, hread, ok_bind, hreads]; rfl,
      by simp only [sameEntries, Bool.and_eq_true]; exact ⟨⟨hk, hsame⟩, hsames⟩⟩

theorem readFields_same : ∀ (es : List (String × Value)) {path : String} {depth : Nat}
    {js : List (String × Json)},
      (∀ e ∈ es, Reads s (Path.join path e.1) (declared s (Path.join path e.1)) e.2) →
        (∀ e ∈ es, room c (Path.join path e.1) ≤ depth) → (∀ e ∈ es, Path.join path e.1 ≠ "") →
          Stands catalog c (fieldsDocuments path es) →
            Json.sameMembers js (storedEntries es) = true →
              ∃ es', readFields
                (fun p j => readAs (follow catalog s c depth p) p (declared s p) j) path js =
                  .ok es' ∧ sameEntries es' es = true
  | [], _, _, [], _, _, _, _, _ => ⟨[], rfl, rfl⟩
  | (k, v) :: es, path, depth, (k', j) :: js, hv, hroom, hp, hs, hj => by
    obtain ⟨hv1, hv2⟩ := List.forall_mem_cons.1 hv
    obtain ⟨hroom1, hroom2⟩ := List.forall_mem_cons.1 hroom
    obtain ⟨hp1, hp2⟩ := List.forall_mem_cons.1 hp
    simp only [storedEntries, Json.sameMembers, Bool.and_eq_true, beq_iff_eq] at hj
    obtain ⟨⟨hk, hj1⟩, hj2⟩ := hj
    subst hk
    obtain ⟨v', hread, hsame⟩ :=
      readAs_same v hp1 hroom1 hv1 (hs.mono (List.subset_append_left _ _)) hj1
    obtain ⟨es', hreads, hsames⟩ :=
      readFields_same es hv2 hroom2 hp2 (hs.mono (List.subset_append_right _ _)) hj2
    exact ⟨(k', v') :: es', by rw [readFields, hread, ok_bind, hreads]; rfl,
      by simp only [sameEntries, Bool.and_eq_true]; exact ⟨⟨BEq.rfl, hsame⟩, hsames⟩⟩

end

end SchemaKeeper.Record
