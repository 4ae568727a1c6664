import SchemaKeeper.Proofs.Record.Positions
import SchemaKeeper.Proofs.Record.Reread

/-!
# Documents come back where they stood

Of a document inside a value only a reference is stored, which says its identifier and not its
class.  What is read finds each document at its position again, and gives it the class that the
schema has at its path.
-/
namespace SchemaKeeper

open Value

/-! ## What is held -/

theorem plainItems_of_holdItems {ask : Value → Except Refusal Held} {vs : List Value}
    {hs : List Held} (h : holdItems ask vs = .ok hs)
    (hv : ∀ v ∈ vs, ∀ x, ask v = .ok x → x.plain = v) : Held.plainItems hs = vs := by
  induction vs generalizing hs with
  | nil =>
    cases h
    rfl
  | cons v vs ih =>
    obtain ⟨hfirst, hrest⟩ := List.forall_mem_cons.1 hv
    obtain ⟨x, hx, h⟩ := bind_eq_ok_iff.1 h
    obtain ⟨xs, hxs, h⟩ := bind_eq_ok_iff.1 h
    cases h
    rw [Held.plainItems, hfirst x hx, ih hxs hrest]

theorem plainEntries_of_holdEntries {ask : Value → Except Refusal Held}
    {es : List (String × Value)} {hs : List (String × Held)} (h : holdEntries ask es = .ok hs)
    (he : ∀ e ∈ es, ∀ x, ask e.2 = .ok x → x.plain = e.2) : Held.plainEntries hs = es := by
  induction es generalizing hs with
  | nil =>
    cases h
    rfl
  | cons e es ih =>
    obtain ⟨hfirst, hrest⟩ := List.forall_mem_cons.1 he
    obtain ⟨x, hx, h⟩ := bind_eq_ok_iff.1 h
    obtain ⟨xs, hxs, h⟩ := bind_eq_ok_iff.1 h
    cases h
    rw [Held.plainEntries, hfirst x hx, ih hxs hrest]

namespace Record

variable {catalog : Catalog} {s : Schema} {c : Collections} {path : String}

/-! ## Readers of what is the same as something stored -/

/-- Each item of a stored list is read at its own index. -/
theorem forall₂_readItems {ask : Json → Except Refusal Value} : ∀ (vs : List Value)
    {js : List Json} {us : List Value}, Json.sameItems js (storedItems vs) = true →
      readItems ask js = .ok us →
        List.Forall₂ (fun v u => ∃ j, j.same v.stored = true ∧ ask j = .ok u) vs us
  | [], [], _, _, h => by
    cases h
    exact .nil
  | v :: vs, j :: js, _, hj, h => by
    obtain ⟨hj1, hj2⟩ := Bool.and_eq_true_iff.1 hj
    obtain ⟨u, hu, h⟩ := bind_eq_ok_iff.1 h
    obtain ⟨us, hus, h⟩ := bind_eq_ok_iff.1 h
    cases h
    exact .cons ⟨j, hj1, hu⟩ (forall₂_readItems vs hj2 hus)

/-- Each stored field is read under its own name. -/
theorem forall₂_readFields {ask : String → Json → Except Refusal Value} :
    ∀ (es : List (String × Value)) {ms : List (String × Json)} {us : List (String × Value)},
      Json.sameMembers ms (storedEntries es) = true → readFields ask path ms = .ok us →
        List.Forall₂ (fun e u => u.1 = e.1 ∧
          ∃ j, j.same e.2.stored = true ∧ ask (Path.join path e.1) j = .ok u.2) es us
  | [], [], _, _, h => by
    cases h
    exact .nil
  | (name, v) :: es, (name', j) :: ms, _, hj, h => by
    simp only [storedEntries, Json.sameMembers, Bool.and_eq_true, beq_iff_eq] at hj
    obtain ⟨⟨rfl, hj1⟩, hj2⟩ := hj
    obtain ⟨u, hu, h⟩ := bind_eq_ok_iff.1 h
    obtain ⟨us, hus, h⟩ := bind_eq_ok_iff.1 h
    cases h
    exact .cons ⟨rfl, j, hj1, hu⟩ (forall₂_readFields es hj2 hus)

/-- The members of a dict are read like fields, only that the path stays. -/
theorem readMembers_eq (path : String) (ask : Json → Except Refusal Value)
    (ms : List (String × Json)) :
    readMembers ask ms = readFields (fun _ => ask) path ms := by
  induction ms with
  | nil => rfl
  | cons m ms ih => rw [readMembers, readFields, ih]

section Forall₂
variable {α β : Type}

theorem exists_getElem?_of_forall₂ {R : α → β → Prop} {as : List α} {bs : List β}
    (h : List.Forall₂ R as bs) {i : Nat} {a : α} (ha : as[i]? = some a) :
    ∃ b, bs[i]? = some b ∧ R a b := by
  induction h generalizing i with
  | nil => cases ha
  | cons hab _ ih =>
    cases i with
    | zero =>
      injection ha with ha
      exact ⟨_, rfl, ha ▸ hab⟩
    | succ i => exact ih ha

theorem exists_get?_of_forall₂ {R : String × α → String × β → Prop} {as : List (String × α)}
    {bs : List (String × β)} (h : List.Forall₂ (fun a b => b.1 = a.1 ∧ R a b) as bs)
    {name : String} {a : α} (ha : Entries.get? as name = some a) :
    ∃ b, Entries.get? bs name = some b ∧ R (name, a) (name, b) := by
  induction h with
  | nil => cases ha
  | @cons e e' _ _ hab _ ih =>
    obtain ⟨key, v⟩ := e
    obtain ⟨key', u⟩ := e'
    obtain ⟨rfl, hr⟩ := hab
    rw [Entries.get?_cons] at ha ⊢
    split at ha
    · rename_i hname
      injection ha with ha
      subst hname ha
      exact ⟨u, if_pos rfl, hr⟩
    · rename_i hname
      rw [if_neg hname]
      exact ih ha

theorem ordered_of_forall₂ {R : String × α → String × β → Prop} {as : List (String × α)}
    {bs : List (String × β)} (h : List.Forall₂ (fun a b => b.1 = a.1 ∧ R a b) as bs)
    (ho : Entries.Ordered as) : Entries.Ordered bs := by
  have hkeys : bs.map Prod.fst = as.map Prod.fst := by
    induction h with
    | nil => rfl
    | cons hab _ ih => rw [List.map_cons, List.map_cons, hab.1, ih (List.Pairwise.of_cons ho)]
  exact List.pairwise_map.1 (hkeys ▸ List.pairwise_map.2 ho)

end Forall₂

/-- What is read at a type is held as it is. -/
theorem plain_of_readAs {f : DocClass → String → Except Refusal Value} : ∀ (t : FieldType)
    {v u : Value} {j : Json} {q : String} {level : Nat} {h : Held}, v.isAscending = true →
      j.same v.stored = true → readAs f path t j = .ok u → hold q level t u = .ok h → h.plain = u
  | .list t, v, u, j, q, level, h, ha, hj, hread, hh => by
    cases u with
    | list us =>
      obtain ⟨hs, hhs, rfl⟩ := map_eq_ok_iff.1 hh
      cases j with
      | array js =>
        obtain ⟨us', hreads, hus⟩ := map_eq_ok_iff.1 hread
        injection hus with hus
        subst hus
        cases hstored : v.stored with
        | array xs =>
          rw [hstored] at hj
          obtain ⟨items, hv, rfl⟩ := items_of_stored hstored
          have ha : ∀ v ∈ items, v.isAscending = true := by
            have hall : itemsAscending items = true := by rcases hv with rfl | rfl <;> exact ha
            rwa [itemsAscending_eq, List.all_eq_true] at hall
          rw [Held.plain, plainItems_of_holdItems hhs fun u hu x hx => ?_]
          obtain ⟨v, hv, j, hj, hask⟩ :=
            Layout.exists_of_mem_right (forall₂_readItems items hj hreads) hu
          exact plain_of_readAs t (ha v hv) hj hask (refuseNull_eq_ok hx)
        | _ =>
          rw [hstored] at hj
          cases hj
      | null => cases hread
      | _ => cases hread
    | _ => cases hh
  | .dict t, v, u, j, q, level, h, ha, hj, hread, hh => by
    cases u with
    | dict us =>
      obtain ⟨hs, hhs, rfl⟩ := map_eq_ok_iff.1 hh
      cases j with
      | object ms =>
        obtain ⟨us', hreads, hus⟩ := map_eq_ok_iff.1 hread
        injection hus with hus
        subst hus
        cases hstored : v.stored with
        | object xs =>
          rw [hstored] at hj
          obtain ⟨entries, rfl, hv⟩ := entries_of_stored hstored
          obtain ⟨ho, ha⟩ : Entries.Ordered entries ∧ ∀ e ∈ entries, e.2.isAscending = true := by
            rcases hv with rfl | ⟨-, name, text, rfl⟩
            · obtain ⟨ho, ha⟩ := Bool.and_eq_true_iff.1 ha
              rw [entriesAscending_eq, List.all_eq_true] at ha
              exact ⟨of_decide_eq_true ho, ha⟩
            · exact ⟨List.pairwise_singleton _ _, List.forall_mem_singleton.2 rfl⟩
          rw [readMembers_eq path] at hreads
          have hfields := forall₂_readFields entries hj hreads
          have hplain : Held.plainEntries hs = us' :=
            plainEntries_of_holdEntries hhs fun u hu x hx => by
              obtain ⟨e, he, -, j, hj, hask⟩ := Layout.exists_of_mem_right hfields hu
              exact plain_of_readAs t (ha e he) hj hask (refuseNull_eq_ok hx)
          have hho : Entries.Ordered hs := by
            rw [← Entries.ordered_mapValues_iff (f := fun _ => Held.plain), ← Held.plainEntries_eq,
              hplain]
            exact ordered_of_forall₂ hfields ho
          rw [Held.plain, Entries.ofList_of_ordered hho, hplain]
        | _ =>
          rw [hstored] at hj
          cases hj
      | null => cases hread
      | _ => cases hread
    | _ => cases hh
  | .scalar _, _, _, _, _, _, _, _, _, _, hh | .tuple _, _, _, _, _, _, _, _, _, _, hh
  | .document _, _, _, _, _, _, _, _, _, _, hh => by
    rw [hold] at hh
    split at hh
    · cases hh
      rfl
    · cases hh

/-! ## Whole values -/

/-- References to the documents inside a value that appear under the path itself lead to what
mirrors them. -/
def Answers (s : Schema) (f : String → Except Refusal Value) (path : String) (v : Value) : Prop :=
  ∀ id className fields, (path, Value.document id className fields) ∈ Value.documents path v →
    ∀ u, f id.text = .ok u → Mirrors s path (.document id className fields) u

theorem Answers.child {f : String → Except Refusal Value} {v w : Value} {way : Way}
    (h : Answers s f path v) (hw : v.child? way = some w) (hbelow : way.below path = path) :
    Answers s f path w := fun id className fields hmem =>
  h id className fields (documents_child_subset hw (hbelow.symm ▸ hmem))

theorem not_suits_string : ∀ (t : FieldType) {k : DocClass} (text : String),
    t.nested? = some k → (Json.string text).suits (FieldType.descriptor t) = false
  | .list _, _, _, _ | .dict _, _, _, _ | .document _, _, _, _ => rfl

/-- A value whose type ends in a document, and whose stored form is that of its type, is mirrored by
what is read in its place. -/
theorem mirrors_readAs {f : DocClass → String → Except Refusal Value} {k : DocClass} :
    ∀ (t : FieldType) {v u : Value} {j : Json}, t.nested? = some k → Answers s (f k) path v →
      v.stored.suits (FieldType.descriptor t) = true → j.same v.stored = true →
        readAs f path t j = .ok u → Mirrors s path v u
  | .list t, v, u, j, hk, hf, hs, hj, hread => by
    obtain ⟨items, hv, hstored, hsuits⟩ := items_of_suits hs
    rw [hstored] at hj
    obtain ⟨js, rfl, hjs⟩ := Json.exists_array_of_same hj
    obtain ⟨us, hreads, rfl⟩ := map_eq_ok_iff.1 hread
    refine mirrors_of_children (by rcases hv with rfl | rfl <;> nofun) fun way w hw _ => ?_
    cases way with
    | item index =>
      have hitem : items[index]? = some w := by rcases hv with rfl | rfl <;> exact hw
      obtain ⟨w', hw', j', hj', hask⟩ :=
        exists_getElem?_of_forall₂ (forall₂_readItems items hjs hreads) hitem
      exact ⟨w', hw', mirrors_readAs t hk (hf.child hw rfl)
        (hsuits w (List.mem_of_getElem? hitem)) hj' hask⟩
    | _ => rcases hv with rfl | rfl <;> cases hw
  | .dict t, v, u, j, hk, hf, hs, hj, hread => by
    obtain ⟨entries, hstored, hv, hsuits⟩ := entries_of_suits hs
    rw [hstored] at hj
    obtain ⟨ms, rfl, hms⟩ := Json.exists_object_of_same hj
    obtain ⟨us, hreads, rfl⟩ := map_eq_ok_iff.1 hread
    rcases hv with rfl | ⟨-, name, text, rfl⟩
    · refine mirrors_of_children nofun fun way w hw _ => ?_
      cases way with
      | entry key =>
        rw [readMembers_eq path] at hreads
        obtain ⟨w', hw', j', hj', hask⟩ :=
          exists_get?_of_forall₂ (forall₂_readFields entries hms hreads) hw
        exact ⟨w', hw', mirrors_readAs t hk (hf.child hw rfl)
          (hsuits (key, w) (Entries.mem_of_get? hw)) hj' hask⟩
      | _ => cases hw
    · have htext := List.forall_mem_singleton.1 hsuits
      rw [stored, not_suits_string t text hk] at htext
      cases htext
  | .document k', v, u, j, hk, hf, hs, hj, hread => by
    injection hk with hk
    subst hk
    obtain ⟨text, htext⟩ := Option.isSome_iff_exists.1 hs
    have hstored := Json.wrapped?_eq_some.1 htext
    rw [hstored] at hj
    have hj : j = .object [("$oid", .string text)] :=
      Json.eq_of_same (b := .object [("$oid", .string text)]) ⟨trivial, trivial⟩ hj
    subst hj
    rcases document_of_stored hstored with ⟨entries, rfl⟩ | ⟨id, className, fields, rfl, rfl⟩
    · -- A dict that looks like a reference holds a text and no document.
      refine mirrors_of_children nofun fun way w hw hbears => ?_
      cases way with
      | entry key =>
        have hmem : (key, w.stored) ∈ [("$oid", Json.string text)] := by
          injection hstored with hstored
          rw [← hstored, storedEntries_eq]
          exact List.mem_map.2 ⟨(key, w), Entries.mem_of_get? hw, rfl⟩
        have hstring : w.stored = .string text :=
          congrArg Prod.snd (List.mem_singleton.1 hmem)
        exact absurd hbears (not_bears_of_stored_string hstring)
      | _ => cases hw
    · refine hf id className fields List.mem_cons_self u ?_
      simp only [readAs, Json.get?, Entries.get?_cons, if_true] at hread
      exact hread

/-! ## References -/

/-- What stands in the place of the identifier of a suited document has no documents. -/
theorem Suited.ne_id {id : Uuid} {fields : List (String × Value)} (h : Suited s path id fields)
    {name : String} {v : Value} (hv : Entries.get? fields name = some v) (hbears : v.Bears) :
    name ≠ "_id" := by
  rintro rfl
  have hown : Entries.get? (Entries.ofList (("_id", .string id.text) :: storedEntries fields))
      "_id" = some (.string id.text) := h.own
  rw [get?_storedDocument h.ordered, hv] at hown
  injection hown with hown
  exact not_bears_of_stored_string hown hbears

/-- The documents inside a value are settled in a catalog: each stands there, what it holds has the
form of the declared types, and each of their paths has a class. -/
structure Housed (catalog : Catalog) (s : Schema) (c : Collections)
    (documents : List (String × Value)) : Prop where
  stands : Stands catalog c documents
  closed : ∀ path id className fields, (path, Value.document id className fields) ∈ documents →
    fieldsDocuments path fields ⊆ documents
  suited : ∀ path id className fields, (path, Value.document id className fields) ∈ documents →
    Suited s path id fields
  classed : ∀ path id className fields, (path, Value.document id className fields) ∈ documents →
    ∃ k, Layout.classAt s path = .ok k

/-- A value at a path is mirrored by what is read at the declared type, if references are. -/
theorem Housed.mirrors_declared {documents : List (String × Value)}
    (h : Housed catalog s c documents) {f : DocClass → String → Except Refusal Value}
    (hf : ∀ k id className fields, Layout.classAt s path = .ok k →
      (path, Value.document id className fields) ∈ documents →
        ∀ u, f k id.text = .ok u → Mirrors s path (.document id className fields) u)
    {v u : Value} {j : Json} (hin : Value.documents path v ⊆ documents)
    (hs : v.stored.suits (FieldType.descriptor (declared s path)) = true)
    (hj : j.same v.stored = true) (hread : readAs f path (declared s path) j = .ok u) :
    Mirrors s path v u := by
  by_cases hbears : v.Bears
  · obtain ⟨id, className, fields, hmem⟩ := hbears.exists_document path
    obtain ⟨k, hk⟩ := h.classed path id className fields (hin hmem)
    obtain ⟨t, ht, hnested⟩ := Layout.classAt_eq_ok.1 hk
    have hdeclared : declared s path = t := by
      rw [declared, ← Schema.declares?, Schema.typeAt_eq_ok_iff.1 ht, Option.getD_some]
    rw [hdeclared] at hs hread
    exact mirrors_readAs t hnested
      (fun id className fields hd => hf k id className fields hk (hin hd)) hs hj hread
  · exact mirrors_of_not_bears hbears

/-- A document is mirrored by what the reference to it leads to.  The induction is on how many
references are followed. -/
theorem Housed.mirrors_follow {documents : List (String × Value)}
    (h : Housed catalog s c documents) : ∀ (depth : Nat) {path : String} (k : DocClass) (id : Uuid)
      (className : String) (fields : List (String × Value)), Layout.classAt s path = .ok k →
        (path, Value.document id className fields) ∈ documents →
          ∀ u, follow catalog s c depth path k id.text = .ok u →
            Mirrors s path (.document id className fields) u := by
  intro depth
  induction depth with
  | zero => nofun
  | succ depth ih =>
    intro path k id className fields hk hd u hu
    obtain ⟨name, members, id', us, hname, hfind, hid', rfl, hread⟩ := follow_ok hu
    have hsuited := h.suited _ _ _ _ hd
    obtain ⟨name', j, hname', hfind', hj⟩ := h.stands _ _ _ _ hd
    obtain ⟨members', rfl, hid, hown⟩ := read_storedDocument hsuited.ordered hsuited.own hj
    rw [hname] at hname'
    injection hname' with hname'
    rw [← hname', hfind] at hfind'
    injection hfind' with hfind'
    injection hfind' with hfind'
    subst hfind'
    rw [hid path] at hid'
    injection hid' with hid'
    subst hid'
    refine mirrors_of_children (fun _ _ _ heq => ?_) fun way w hw hbears => ?_
    · cases heq
      exact ⟨k, us, hk, rfl⟩
    · cases way with
      | field field =>
        have hmem := Entries.mem_of_get? hw
        have hne : field ≠ "_id" := hsuited.ne_id hw hbears
        rw [show child? _ (.field field) = Entries.get? fields field from rfl,
          ← get?_ownFields hne] at hw
        obtain ⟨w', hw', j', hj', hask⟩ :=
          exists_get?_of_forall₂ (forall₂_readFields _ hown hread) hw
        exact ⟨w', hw', h.mirrors_declared ih
          (fun d hd' => h.closed _ _ _ _ hd (mem_fieldsDocuments.2 ⟨_, hmem, hd'⟩))
          (hsuited.suits _ hmem hne) hj' hask⟩
      | _ => cases hw

/-! ## Whole records -/

/-- A record as the document that it is. -/
def whole (r : Record) : Value := .document r.id r.root.name r.values.entries

/-- What taking over the members of a stored document leaves of a record. -/
structure Took (catalog : Catalog) (s : Schema) (c : Collections) (ms : List (String × Json))
    (r r' : Record) : Prop where
  id : r'.id = r.id
  root : r'.root = r.root
  frame : ∀ name, Entries.get? ms name = none → r'.values.get? name = r.values.get? name
  field : ∀ name j t, Entries.get? ms name = some j → s.declares? name = some t →
    ∃ u, readAs (follow catalog s c (followLimit catalog c) name) name t j = .ok u ∧
      (u.isNull = false → ∃ h, hold name 0 t u = .ok h ∧ r'.values.get? name = some h.plain)

/-- A member that is taken over first stays, as no other one has its name. -/
theorem Took.cons {ms : List (String × Json)} {name : String} {j : Json} {r r₁ r' : Record}
    (h : Took catalog s c ms r₁ r') (hname : Entries.get? ms name = none) (hid : r₁.id = r.id)
    (hroot : r₁.root = r.root)
    (hframe : ∀ q, q ≠ name → r₁.values.get? q = r.values.get? q)
    (hfield : ∀ t, s.declares? name = some t →
      ∃ u, readAs (follow catalog s c (followLimit catalog c) name) name t j = .ok u ∧
        (u.isNull = false → ∃ h, hold name 0 t u = .ok h ∧ r₁.values.get? name = some h.plain)) :
    Took catalog s c ((name, j) :: ms) r r' := by
  refine ⟨h.id.trans hid, h.root.trans hroot, fun q hq => ?_, fun q a t hq ht => ?_⟩
  · rw [Entries.get?_cons] at hq
    split at hq
    · cases hq
    · rename_i hne
      exact (h.frame q hq).trans (hframe q (Ne.symm hne))
  · rw [Entries.get?_cons] at hq
    split at hq
    · rename_i heq
      injection hq with hq
      subst heq hq
      rw [h.frame name hname]
      exact hfield t ht
    · exact h.field q a t hq ht

theorem took_takeFields : ∀ (ms : List (String × Json)) {r r' : Record}, Entries.Ordered ms →
    takeFields catalog s c ms r = .ok r' → Took catalog s c ms r r'
  | [], _, _, _, h => by
    cases h
    exact ⟨rfl, rfl, fun _ _ => rfl, nofun⟩
  | (name, j) :: ms, r, r', ho, h => by
    obtain ⟨hlt, ho⟩ := Entries.ordered_cons.1 ho
    have hname : Entries.get? ms name = none := Entries.get?_eq_none_of_lt hlt
    rw [takeFields] at h
    cases hfield : s.get? name with
    | none =>
      rw [hfield] at h
      refine (took_takeFields ms ho h).cons hname rfl rfl (fun _ _ => rfl) fun t ht => ?_
      rw [Schema.declares?, hfield] at ht
      cases ht
    | some field =>
      rw [hfield] at h
      obtain ⟨t, ht, h⟩ := bind_eq_ok_iff.1 h
      obtain ⟨u, hu, h⟩ := bind_eq_ok_iff.1 h
      have hdeclares : s.declares? name = some t :=
        Option.bind_eq_some_iff.2 ⟨field, hfield, Field.requireType_eq_ok.1 ht⟩
      split at h
      · rename_i hnull
        refine (took_takeFields ms ho h).cons hname rfl rfl (fun _ _ => rfl) fun t' ht' => ?_
        rw [hdeclares] at ht'
        injection ht' with ht'
        exact ⟨u, ht' ▸ hu, fun hne => absurd (hnull.symm.trans hne) (by decide)⟩
      · obtain ⟨r₁, hset, h⟩ := bind_eq_ok_iff.1 h
        obtain ⟨-, t', held, ht', hheld, rfl⟩ := set_ok hset
        have hhere : ({ r with fields := r.fields.insert name held } : Record).values.get? name =
            some held.plain := by
          rw [values_insert, Keyed.get?_insert, if_pos rfl]
        have hrest : takeFields catalog s c ms { r with fields := r.fields.insert name held } =
            .ok r' := h
        refine (took_takeFields ms ho hrest).cons hname rfl rfl (fun q hq => ?_) fun t'' ht'' => ?_
        · rw [values_insert, Keyed.get?_insert, if_neg (Ne.symm hq)]
        · rw [hdeclares] at ht' ht''
          injection ht' with ht'
          injection ht'' with ht''
          subst ht' ht''
          exact ⟨u, hu, fun _ => ⟨held, hheld, hhere⟩⟩

/-- A record is mirrored by the one that is read from what is the same as its document. -/
theorem Housed.mirrors_ofDocument {r loaded : Record} {j : Json} {k : DocClass}
    (h : Housed catalog s c r.documents) (hr : r.Formed)
    (hsuited : Suited s "" r.id r.values.entries) (hk : Layout.classAt s "" = .ok k)
    (hj : j.same r.document = true) (hread : ofDocument catalog s c k j = .ok loaded) :
    Mirrors s "" r.whole loaded.whole := by
  obtain ⟨members, rfl, hid, hown⟩ := read_storedDocument hsuited.ordered hsuited.own hj
  rw [ofDocument, hid, ok_bind] at hread
  have hmembers := forall₂_sameMembers hown
  have ho : Entries.Ordered (ownMembers members) := ordered_of_forall₂ hmembers
    (ordered_storedEntries (Entries.ordered_filter _ hsuited.ordered))
  have htook := took_takeFields (ownMembers members) ho hread
  refine mirrors_of_children (fun id className fields heq => ?_) fun way w hw hbears => ?_
  · injection heq with heq
    exact ⟨k, loaded.values.entries, hk, by rw [whole, htook.id, htook.root, ← heq]; rfl⟩
  · cases way with
    | field name =>
      have hw : Entries.get? r.values.entries name = some w := hw
      have hmem := Entries.mem_of_get? hw
      have hne : name ≠ "_id" := hsuited.ne_id hw hbears
      have hin : Value.documents name w ⊆ r.documents := fun d hd =>
        mem_fieldsDocuments.2 ⟨_, hmem, hd⟩
      obtain ⟨id, className, fields, hd⟩ := hbears.exists_document name
      obtain ⟨k', hk'⟩ := h.classed _ _ _ _ (hin hd)
      obtain ⟨t, ht, -⟩ := Layout.classAt_eq_ok.1 hk'
      have hdeclares := Schema.typeAt_eq_ok_iff.1 ht
      have hdeclared : declared s name = t := by
        rw [declared, ← Schema.declares?, hdeclares, Option.getD_some]
      have hstored : Entries.get? (storedEntries (ownFields r.values.entries)) name =
          some w.stored := by
        rw [get?_storedEntries, get?_ownFields hne, hw]
        rfl
      obtain ⟨a, ha, hsame⟩ := exists_get?_of_forall₂ hmembers hstored
      obtain ⟨u, hu, hheld⟩ := htook.field name a t ha hdeclares
      have hmirrors : Mirrors s name w u := by
        exact h.mirrors_declared (h.mirrors_follow _) hin (hsuited.suits _ hmem hne) hsame
          (hdeclared ▸ hu)
      obtain ⟨x, hx, hvalue⟩ := hheld (hmirrors.isNull hbears)
      have hascending : w.isAscending = true := (formed_iff.1 hr name w hw).2
      rw [plain_of_readAs t hascending hsame hu hx] at hvalue
      exact ⟨u, hvalue, hmirrors⟩
    | _ => cases hw

end Record
end SchemaKeeper
