import SchemaKeeper.Proofs.Dataset.Acceptance

/-!
# Records that the store accepts

A stored instance of a type has the form that the type asks for, as long as its dates can be
written.  Where documents stand only at types of documents, and each of their fields is declared
and an instance of its type, everything that is written of a record is admitted.
-/
namespace SchemaKeeper

/-- The last name of a path that was extended by a name without dots is this name. -/
theorem Path.leaf_join {name : String} (hn : '.' ∉ name.toList) (path : String) :
    leaf (join path name) = name := by
  have hall : ∀ cs : List Char, (∀ c ∈ cs, c ≠ '.') →
      ∀ rest, (cs ++ '.' :: rest).takeWhile (· != '.') = cs := by
    intro cs hcs rest
    rw [List.takeWhile_append_of_pos fun c hc => bne_iff_ne.2 (hcs c hc)]
    simp
  have hname : ∀ c ∈ name.toList.reverse, c ≠ '.' := fun c hc heq =>
    hn (heq ▸ List.mem_reverse.1 hc)
  apply String.toList_inj.1
  by_cases hp : path = ""
  · subst hp
    have hwhole : (name.toList.reverse ++ []).takeWhile (· != '.') = name.toList.reverse ++ [] :=
      List.takeWhile_append_of_pos fun c hc => bne_iff_ne.2 (hname c hc)
    rw [List.append_nil] at hwhole
    simp [leaf, hwhole]
  · have hlist : (join path name).toList.reverse =
        name.toList.reverse ++ '.' :: path.toList.reverse := by
      simp [join_of_ne_root hp, String.toList_append]
    rw [leaf, hlist, hall _ hname]
    simp

/-- Wherever the schema has documents there is a collection, and no path ends in `_id`. -/
structure Schema.IsSeated (s : Schema) (cs : Collections) : Prop where
  seat : ∀ path t, s.declares? path = some t → t.nested?.isSome = true → cs.contains path = true
  identifier : ∀ path, Path.leaf path = "_id" → s.get? path = none

namespace Value

mutual

/-- The value, which stands at a type below a path, is one that the store accepts: documents stand
only where documents are declared, each of their fields is declared and an instance of its type,
and dates are written with four digits for the year. -/
def isWritable (s : Schema) (path : String) (t : FieldType) : Value → Bool
  | .datetime m => decide (0 ≤ m.date.year ∧ m.date.year ≤ 9999)
  | .list items =>
    match t with
    | .list t => itemsWritable s path t items
    | _ => itemsWritable s path (.scalar .any) items
  | .tuple items => itemsWritable s path (.scalar .any) items
  | .dict entries =>
    match t with
    | .dict t => entriesWritable s path t entries
    | _ => entriesWritable s path (.scalar .any) entries
  | .document _ _ fields =>
    match t with
    | .document _ => fieldsWritable s path fields
    | _ => false
  | _ => true

def itemsWritable (s : Schema) (path : String) (t : FieldType) : List Value → Bool
  | [] => true
  | v :: vs => isWritable s path t v && itemsWritable s path t vs

def entriesWritable (s : Schema) (path : String) (t : FieldType) : List (String × Value) → Bool
  | [] => true
  | (_, v) :: vs => isWritable s path t v && entriesWritable s path t vs

/-- The fields of a document at a path: their names have no dots and are not `_id`. -/
def fieldsWritable (s : Schema) (path : String) : List (String × Value) → Bool
  | [] => true
  | (name, v) :: vs =>
    !name.toList.contains '.' && name != "_id"
      && (match s.declares? (Path.join path name) with
        | some t => fits t v && isWritable s (Path.join path name) t v
        | none => false)
      && fieldsWritable s path vs

end

variable {s : Schema} {path : String}

/-! ## Items, entries and fields one by one -/

theorem itemsWritable_eq (t : FieldType) (vs : List Value) :
    itemsWritable s path t vs = vs.all (isWritable s path t) := by
  induction vs with
  | nil => rfl
  | cons v vs ih => rw [itemsWritable, ih, List.all_cons]

theorem entriesWritable_eq (t : FieldType) (es : List (String × Value)) :
    entriesWritable s path t es = es.all fun e => isWritable s path t e.2 := by
  induction es with
  | nil => rfl
  | cons e es ih => rw [entriesWritable, ih, List.all_cons]

theorem fieldsWritable_cons {name : String} {v : Value} {fields : List (String × Value)} :
    fieldsWritable s path ((name, v) :: fields) = true ↔
      ('.' ∉ name.toList ∧ name ≠ "_id" ∧ ∃ t, s.declares? (Path.join path name) = some t ∧
        v.fits t = true ∧ v.isWritable s (Path.join path name) t = true) ∧
      fieldsWritable s path fields = true := by
  rw [fieldsWritable]
  cases s.declares? (Path.join path name) <;> simp [and_assoc]

theorem storedItems_eq (vs : List Value) : storedItems vs = vs.map stored := by
  induction vs with
  | nil => rfl
  | cons v vs ih => rw [storedItems, ih, List.map_cons]

/-! ## What is stored of an instance -/

mutual

/-- What has no documents inside can stand at any type. -/
theorem isWritable_of_any (t : FieldType) : ∀ {v : Value},
    v.isWritable s path (.scalar .any) = true → v.isWritable s path t = true
  | .null, _ | .bool _, _ | .int _, _ | .float _, _ | .string _, _ => rfl
  | .datetime _, h => h
  | .list items, h => by
    cases t with
    | list t => exact itemsWritable_of_any t h
    | _ => exact h
  | .tuple _, h => h
  | .dict entries, h => by
    cases t with
    | dict t => exact entriesWritable_of_any t h
    | _ => exact h

theorem itemsWritable_of_any (t : FieldType) : ∀ {vs : List Value},
    itemsWritable s path (.scalar .any) vs = true → itemsWritable s path t vs = true
  | [], _ => rfl
  | _ :: _, h => by
    obtain ⟨h1, h2⟩ := Bool.and_eq_true_iff.1 h
    exact Bool.and_eq_true_iff.2 ⟨isWritable_of_any t h1, itemsWritable_of_any t h2⟩

theorem entriesWritable_of_any (t : FieldType) : ∀ {es : List (String × Value)},
    entriesWritable s path (.scalar .any) es = true → entriesWritable s path t es = true
  | [], _ => rfl
  | (_, _) :: _, h => by
    obtain ⟨h1, h2⟩ := Bool.and_eq_true_iff.1 h
    exact Bool.and_eq_true_iff.2 ⟨isWritable_of_any t h1, entriesWritable_of_any t h2⟩

end

theorem suits_scalar {k : Scalar} {v : Value} (hv : v.fits (.scalar k) = true)
    (hw : v.isWritable s path (.scalar k) = true) : v.stored.suits (.scalar k) = true := by
  cases k with
  | any => rfl
  | datetime =>
    cases v with
    | datetime m =>
      have hread := Moment.read?_text (of_decide_eq_true hw)
      simp [stored, Json.suits, Rule.isDate, Json.wrapped?, Moment.isText, hread]
    | _ => simp [fits, fitsScalar] at hv
  | float =>
    cases v with
    | float x => simp_all [fits, fitsScalar, isWild, stored, Json.suits, Rule.isNumber]
    | int n => rfl
    | _ => simp [fits, fitsScalar] at hv
  | _ => cases v <;> first | rfl | simp [fits, fitsScalar] at hv

mutual

/-- A stored instance of a type is of the form that the type asks for. -/
theorem suits_of_fits : ∀ (t : FieldType) {v : Value}, v.fits t = true →
    v.isWritable s path t = true → v.stored.suits t.descriptor = true
  | .scalar k, v, hv, hw => suits_scalar hv hw
  | .list t, .list items, hv, hw => by
    rw [isWritable, itemsWritable_eq, List.all_eq_true] at hw
    rw [fits, List.all_eq_true] at hv
    show ((storedItems items).all fun j => j.suits (FieldType.descriptor t)) = true
    rw [storedItems_eq, List.all_map, List.all_eq_true]
    exact fun v hmem => suits_of_fits t (hv v hmem) (hw v hmem)
  | .dict t, .dict entries, hv, hw => by
    rw [isWritable, entriesWritable_eq, List.all_eq_true] at hw
    rw [fits, List.all_eq_true] at hv
    show ((storedEntries entries).all fun m => m.2.suits (FieldType.descriptor t)) = true
    rw [storedEntries_eq, Entries.mapValues, List.all_map, List.all_eq_true]
    exact fun e hmem => suits_of_fits t (hv e hmem) (hw e hmem)
  | .tuple ts, .tuple items, hv, hw => suitsEach_of_fits ts hv hw
  | .tuple ts, .list items, hv, hw => suitsEach_of_fits ts hv hw
  | .document k, .document id className fields, _, _ => rfl

theorem suitsEach_of_fits : ∀ (ts : List FieldType) {vs : List Value}, fitsEach ts vs = true →
    itemsWritable s path (.scalar .any) vs = true →
      Json.suitsEach (Shape.mapAll DocClass.name ts) (storedItems vs) = true
  | [], [], _, _ => rfl
  | t :: ts, v :: vs, hv, hw => by
    obtain ⟨hv1, hv2⟩ := Bool.and_eq_true_iff.1 hv
    obtain ⟨hw1, hw2⟩ := Bool.and_eq_true_iff.1 hw
    exact Bool.and_eq_true_iff.2
      ⟨suits_of_fits t hv1 (isWritable_of_any t hw1), suitsEach_of_fits ts hv2 hw2⟩

end

end Value

namespace Record

open Value

variable {s : Schema} {cs : Collections} {path : String} {id : Uuid}
  {fields : List (String × Value)}

/-! ## Stored documents -/

/-- Each member of a document with a collection is admitted if its fields are stored in the form of
their types. -/
theorem admits_storedDocument (hs : s.IsSeated cs) (hseat : cs.contains path = true)
    (hfields : ∀ e ∈ fields, '.' ∉ e.1.toList ∧ Path.join path e.1 ≠ path ∧
      ∃ t, s.declares? (Path.join path e.1) = some t ∧ e.2.stored.suits t.descriptor = true)
    (key : String) (j : Json) (h : (storedDocument id fields).get? key = some j) :
    s.admits cs path key j = true := by
  unfold Schema.admits Schema.memberType?
  rcases mem_of_get?_storedDocument h with ⟨rfl, -⟩ | ⟨e, he, rfl, rfl⟩
  · rw [hs.identifier _ (Path.leaf_join (by decide) path)]
    simp
  · obtain ⟨hdot, hne, t, ht, hsuits⟩ := hfields e he
    rw [if_pos (Collections.owner?_join hseat hdot hne), ← Schema.declares?, ht]
    exact hsuits

theorem join_ne_self {path name : String} (hp : path ≠ "" ∨ name ≠ "") :
    Path.join path name ≠ path := by
  by_cases h : path = ""
  · subst h
    exact hp.resolve_left (absurd rfl)
  · intro heq
    have hl := length_join h name
    rw [heq] at hl
    omega

/-- What `fieldsWritable` says of each field. -/
theorem suits_of_fieldsWritable (h : fieldsWritable s path fields = true) :
    ∀ e ∈ fields, '.' ∉ e.1.toList ∧ e.1 ≠ "_id" ∧
      ∃ t, s.declares? (Path.join path e.1) = some t ∧ e.2.stored.suits t.descriptor = true := by
  induction fields with
  | nil => exact List.forall_mem_nil _
  | cons e fields ih =>
    obtain ⟨⟨hdot, hid, t, ht, hv, hw⟩, hrest⟩ := fieldsWritable_cons.1 h
    exact List.forall_mem_cons.2 ⟨⟨hdot, hid, t, ht, suits_of_fits t hv hw⟩, ih hrest⟩

/-! ## Documents inside values -/

mutual

/-- Nothing is written of a value that may stand under any. -/
theorem partsOf_of_any : ∀ {v : Value}, v.isWritable s path (.scalar .any) = true →
    partsOf path v = []
  | .null, _ | .bool _, _ | .int _, _ | .float _, _ | .string _, _ | .datetime _, _ => rfl
  | .list _, h => partsOfItems_of_any h
  | .tuple _, h => partsOfItems_of_any h
  | .dict _, h => partsOfEntries_of_any h

theorem partsOfItems_of_any : ∀ {vs : List Value}, itemsWritable s path (.scalar .any) vs = true →
    partsOfItems path vs = []
  | [], _ => rfl
  | _ :: _, h => by
    obtain ⟨h1, h2⟩ := Bool.and_eq_true_iff.1 h
    rw [partsOfItems, partsOf_of_any h1, partsOfItems_of_any h2, List.append_nil]

theorem partsOfEntries_of_any : ∀ {es : List (String × Value)},
    entriesWritable s path (.scalar .any) es = true → partsOfEntries path es = []
  | [], _ => rfl
  | (_, _) :: _, h => by
    obtain ⟨h1, h2⟩ := Bool.and_eq_true_iff.1 h
    rw [partsOfEntries, partsOf_of_any h1, partsOfEntries_of_any h2, List.append_nil]

end

mutual

/-- Every document inside a writable instance of a type is admitted. -/
theorem admitted_partsOf (hs : s.IsSeated cs) : ∀ (v : Value) {t : FieldType} {path : String},
    path ≠ "" → (t.nested?.isSome = true → cs.contains path = true) → v.fits t = true →
      v.isWritable s path t = true → ∀ p ∈ partsOf path v, p.Admitted s cs
  | .list items, t, path, hp, hseat, hv, hw => by
    cases t with
    | list t => exact admitted_partsOfItems hs items (t := t) hp hseat hv hw
    | _ =>
      rw [show partsOf path (.list items) = [] from partsOfItems_of_any hw]
      nofun
  | .tuple items, t, path, hp, hseat, hv, hw => by
    rw [show partsOf path (.tuple items) = [] from partsOfItems_of_any hw]
    nofun
  | .dict entries, t, path, hp, hseat, hv, hw => by
    cases t with
    | dict t => exact admitted_partsOfEntries hs entries (t := t) hp hseat hv hw
    | _ =>
      rw [show partsOf path (.dict entries) = [] from partsOfEntries_of_any hw]
      nofun
  | .document id className fields, t, path, hp, hseat, hv, hw => by
    cases t with
    | document k =>
      have hfields := suits_of_fieldsWritable hw
      obtain ⟨name, hname⟩ := Keyed.contains_iff.1 (hseat rfl)
      refine List.forall_mem_cons.2 ⟨⟨⟨name, hname⟩, ?_, ?_⟩, admitted_partsOfFields hs fields
        (fun e _ => join_ne_root hp e.1) hw⟩
      · exact get?_storedDocument_id fun e he => (hfields e he).2.1
      · refine admits_storedDocument hs (hseat rfl) fun e he => ?_
        obtain ⟨hdot, -, hsuits⟩ := hfields e he
        exact ⟨hdot, join_ne_self (.inl hp), hsuits⟩
    | _ => cases hw
  | .null, _, _, _, _, _, _ | .bool _, _, _, _, _, _, _ | .int _, _, _, _, _, _, _
  | .float _, _, _, _, _, _, _ | .string _, _, _, _, _, _, _ | .datetime _, _, _, _, _, _, _ => nofun

theorem admitted_partsOfItems (hs : s.IsSeated cs) : ∀ (vs : List Value) {t : FieldType}
    {path : String}, path ≠ "" → (t.nested?.isSome = true → cs.contains path = true) →
      (vs.all fun v => v.fits t) = true → itemsWritable s path t vs = true →
        ∀ p ∈ partsOfItems path vs, p.Admitted s cs
  | [], _, _, _, _, _, _ => nofun
  | v :: vs, t, path, hp, hseat, hv, hw => by
    obtain ⟨hv1, hv2⟩ := Bool.and_eq_true_iff.1 hv
    obtain ⟨hw1, hw2⟩ := Bool.and_eq_true_iff.1 hw
    exact List.forall_mem_append.2 ⟨admitted_partsOfItems hs vs hp hseat hv2 hw2,
      admitted_partsOf hs v hp hseat hv1 hw1⟩

theorem admitted_partsOfEntries (hs : s.IsSeated cs) : ∀ (es : List (String × Value))
    {t : FieldType} {path : String}, path ≠ "" →
      (t.nested?.isSome = true → cs.contains path = true) →
        (es.all fun e => e.2.fits t) = true → entriesWritable s path t es = true →
          ∀ p ∈ partsOfEntries path es, p.Admitted s cs
  | [], _, _, _, _, _, _ => nofun
  | (_, v) :: es, t, path, hp, hseat, hv, hw => by
    obtain ⟨hv1, hv2⟩ := Bool.and_eq_true_iff.1 hv
    obtain ⟨hw1, hw2⟩ := Bool.and_eq_true_iff.1 hw
    exact List.forall_mem_append.2 ⟨admitted_partsOfEntries hs es hp hseat hv2 hw2,
      admitted_partsOf hs v hp hseat hv1 hw1⟩

theorem admitted_partsOfFields (hs : s.IsSeated cs) : ∀ (es : List (String × Value))
    {path : String}, (∀ e ∈ es, Path.join path e.1 ≠ "") → fieldsWritable s path es = true →
      ∀ p ∈ partsOfFields path es, p.Admitted s cs
  | [], _, _, _ => nofun
  | (name, v) :: es, path, hp, hw => by
    obtain ⟨hp1, hp2⟩ := List.forall_mem_cons.1 hp
    obtain ⟨⟨-, -, t, ht, hv, hw1⟩, hw2⟩ := fieldsWritable_cons.1 hw
    exact List.forall_mem_append.2 ⟨admitted_partsOfFields hs es hp2 hw2,
      admitted_partsOf hs v hp1 (hs.seat _ t ht) hv hw1⟩

end

/-- The values of the record are such that the store accepts them: documents stand only where
documents are declared, each of their fields is declared and an instance of its type, and dates are
written with four digits for the year. -/
def IsWritable (s : Schema) (r : Record) : Prop :=
  ∀ e ∈ r.values.entries, ∀ t ∈ s.declares? e.1, e.2.isWritable s e.1 t = true

variable {r : Record}

/-- The fields of a record are like those of a document at the root. -/
theorem IsWritable.fieldsWritable (h : r.IsWritable s) (hr : r.Formed) (hf : r.Fits s)
    (hs : s.IsSeated cs) : Value.fieldsWritable s "" r.values.entries = true := by
  have hone : ∀ e ∈ r.values.entries, '.' ∉ e.1.toList ∧ e.1 ≠ "_id" ∧
      ∃ t, s.declares? e.1 = some t ∧ e.2.fits t = true ∧ e.2.isWritable s e.1 t = true := by
    intro e he
    have htop := hr.topLevel e he
    obtain ⟨t, ht, hv⟩ := (Option.any_eq_true _ _).1 (hf e he)
    refine ⟨by simpa using (Bool.and_eq_true_iff.1 htop).2, fun hid => ?_, t, ht, hv, h e he t ht⟩
    have hnone := hs.identifier "_id" (by decide)
    rw [hid, Schema.declares?, hnone] at ht
    cases ht
  generalize r.values.entries = es at hone
  induction es with
  | nil => rfl
  | cons e es ih =>
    obtain ⟨he, hes⟩ := List.forall_mem_cons.1 hone
    exact fieldsWritable_cons.2 ⟨he, ih hes⟩

/-- Every document of a writable record is admitted. -/
theorem IsWritable.admitted (hw : r.IsWritable s) (hr : r.Formed) (hf : r.Fits s)
    (hs : s.IsSeated cs) {root : String} (hroot : cs.get? "" = some root) :
    ∀ p ∈ r.written, p.Admitted s cs := by
  have h := hw.fieldsWritable hr hf hs
  have hname : ∀ e ∈ r.values.entries, e.1 ≠ "" := fun e he heq => by
    have htop := hr.topLevel e he
    rw [heq] at htop
    cases htop
  have hfields := suits_of_fieldsWritable h
  refine List.forall_mem_append.2 ⟨admitted_partsOfFields hs _ hname h,
    List.forall_mem_singleton.2 ⟨⟨root, hroot⟩, ?_, ?_⟩⟩
  · exact get?_storedDocument_id fun e he => (hfields e he).2.1
  · refine admits_storedDocument hs (Keyed.contains_iff.2 ⟨root, hroot⟩) fun e he => ?_
    obtain ⟨hdot, -, hsuits⟩ := hfields e he
    exact ⟨hdot, join_ne_self (.inr (hname e he)), hsuits⟩

end Record
end SchemaKeeper
