import SchemaKeeper.Proofs.Dataset.Reading
import SchemaKeeper.Proofs.Layout.Entries
import SchemaKeeper.Proofs.Store.Furnishing

/-!
# Collections, indexes and validators of a schema

In either kind of session, once a schema is laid out, its collections exist with the validators
made for them, and there is an index over the fields of each that a class asks for.  What is there
already is not made again: to lay the schema out a second time writes nothing.  An index that is
there over the same fields counts as the one that is asked for, whether it is unique or not.
-/
namespace SchemaKeeper

open Catalog Op

namespace Provision
variable {c c' c'' : Catalog} {asked asked' : String → List Index} {ws ws' : Workspace}
  {name : String}

/-! ## What is added -/

/-- From one catalog to another no collection is gone, and to each the indexes are added that are
asked for in it. -/
structure Equips (asked : String → List Index) (c c' : Catalog) : Prop where
  contains : ∀ q, c.collections.contains q = true → c'.collections.contains q = true
  indexes : ∀ q, c'.indexes q = (asked q).foldl Index.added (c.indexes q)

theorem Equips.refl (c : Catalog) : Equips (fun _ => []) c c := ⟨fun _ h => h, fun _ => rfl⟩

theorem Equips.trans (h : Equips asked c c') (h' : Equips asked' c' c'') :
    Equips (fun q => asked q ++ asked' q) c c'' :=
  ⟨fun q hq => h'.contains q (h.contains q hq), fun q => by
    rw [h'.indexes, h.indexes, List.foldl_append]⟩

theorem Equips.settles {next : Catalog} (h : Equips asked c next) (hs : Settles c next c') :
    Equips asked c c' :=
  ⟨fun q hq => (hs.keptAs.contains q).trans (h.contains q hq), fun q =>
    (hs.keptAs.indexes q).trans (h.indexes q)⟩

theorem createCollection_equips {answer : Bool}
    (h : (Op.write (.createCollection name) : Op Refusal Bool) ws = .ok answer ws') :
    Equips (fun _ => []) ws.visible ws'.visible ∧
      ws'.visible.collections.contains name = true := by
  obtain ⟨next, hp, hs⟩ := write_settles h
  obtain ⟨hn, rfl⟩ := createCollection_ok hp
  have hequips : Equips (fun _ => []) ws.visible (ws.visible.setCollection name .empty) := by
    refine ⟨fun q hq => Keyed.contains_insert hq, fun q => ?_⟩
    rw [indexes_insert rfl]
    split
    · rename_i hq
      rw [← hq, Catalog.indexes, hn]
      rfl
    · rfl
  refine ⟨hequips.settles hs, ?_⟩
  rw [hs.keptAs.contains, Keyed.contains, get?_setCollection, if_pos rfl]
  rfl

theorem createIndex_equips {index : Index} {answer : Bool}
    (h : (Op.write (.createIndex name index) : Op Refusal Bool) ws = .ok answer ws') :
    Equips (fun q => if name = q then [index] else []) ws.visible ws'.visible := by
  obtain ⟨next, hp, hs⟩ := write_settles h
  refine Equips.settles ⟨fun q hq => ?_, fun q => ?_⟩ hs
  · obtain ⟨state, indexes, -, hc⟩ := createIndex_ok hp
    rw [hc]
    exact Keyed.contains_insert hq
  · rw [indexes_createIndex hp]
    split <;> rfl

/-- A validator is put into its collection; every other collection keeps its own. -/
theorem setValidator_equips {rule : Rule} {answer : Bool}
    (h : (Op.write (.setValidator name rule.document) : Op Refusal Bool) ws = .ok answer ws') :
    Equips (fun _ => []) ws.visible ws'.visible ∧
      ∀ q, ws'.visible.validator? q =
        if name = q then some rule.document else ws.visible.validator? q := by
  obtain ⟨next, hp, hs⟩ := write_settles h
  obtain ⟨state, hstate, rfl⟩ := setValidator_ok hp
  have hequips : Equips (fun _ => []) ws.visible
      (ws.visible.setCollection name { state with validator := some rule.document }) := by
    refine ⟨fun q hq => Keyed.contains_insert hq, fun q => ?_⟩
    rw [indexes_insert rfl]
    split
    · rename_i hq
      rw [← hq, Catalog.indexes, hstate]
      rfl
    · rfl
  refine ⟨hequips.settles hs, fun q => ?_⟩
  split
  · rename_i hq
    subst hq
    obtain ⟨state', hstate', hvalidator⟩ := hs.keptAs.validator rule.floatFree_document
      (by rw [get?_setCollection, if_pos rfl]) rfl
    rw [Catalog.validator?, hstate']
    exact hvalidator
  · rename_i hq
    have hframe := hs.frame (q := q) (by rw [get?_setCollection, if_neg hq])
    rw [Catalog.validator?, hframe, ← Catalog.validator?]

/-! ## Laying out -/

theorem ensureIndexes_equips {indexes : List Index}
    (h : ensureIndexes name indexes ws = .ok () ws') :
    Equips (fun q => if name = q then indexes else []) ws.visible ws'.visible := by
  have hnone : (fun q => if name = q then [] else []) = fun _ : String => ([] : List Index) := by
    funext q
    split <;> rfl
  induction indexes generalizing ws with
  | nil =>
    cases h
    rw [hnone]
    exact .refl _
  | cons index rest ih =>
    have hsplit : (fun q => if name = q then index :: rest else []) = fun q =>
        (if name = q then [index] else []) ++ if name = q then rest else [] := by
      funext q
      split <;> rfl
    obtain ⟨answer, ws₁, hw, h⟩ := bind_eq_ok.1 h
    have h₁ := createIndex_equips hw
    rw [hsplit]
    split at h
    · obtain ⟨⟨⟩, ws₂, hn, h⟩ := bind_eq_ok.1 h
      have hvisible := ((observes_note _ _ _).ok hn).2.visible
      exact h₁.trans (hvisible ▸ ih h)
    · exact h₁.trans (ih h)

/-- The indexes that a schema asks for in a collection, path by path. -/
def asks (s : Schema) (es : List (String × String)) (q : String) : List Index :=
  es.flatMap fun e => if e.2 = q then indexesAt s e.1 else []

/-- All collections of the list exist afterwards, if those do that were found before. -/
theorem ensureCollections_equips {s : Schema} {existing : Keyed Unit}
    {es : List (String × String)}
    (hex : ∀ q, existing.contains q = true → ws.visible.collections.contains q = true)
    (h : ensureCollections s existing es ws = .ok () ws') :
    Equips (asks s es) ws.visible ws'.visible ∧
      ∀ e ∈ es, ws'.visible.collections.contains e.2 = true := by
  induction es generalizing ws with
  | nil =>
    cases h
    exact ⟨.refl _, by simp⟩
  | cons e rest ih =>
    obtain ⟨path, name⟩ := e
    obtain ⟨ws₁, ws₂, hhead, hi, h⟩ := ensureCollections_cons_ok h
    have hmade : Equips (fun _ => []) ws.visible ws₁.visible ∧
        ws₁.visible.collections.contains name = true := by
      rcases hhead with ⟨hc, rfl⟩ | ⟨answer, ws₀, hw, hrests⟩
      · exact ⟨.refl _, hex name hc⟩
      · exact hrests.visible.symm ▸ createCollection_equips hw
    obtain ⟨h₁, hc⟩ := hmade
    have h₂ := h₁.trans (ensureIndexes_equips hi)
    obtain ⟨h₃, hrest⟩ := ih (fun q hq => h₂.contains q (hex q hq)) h
    have hall : Equips (asks s ((path, name) :: rest)) ws.visible ws'.visible := h₂.trans h₃
    exact ⟨hall, List.forall_mem_cons.2
      ⟨h₃.contains _ ((ensureIndexes_equips hi).contains _ hc), hrest⟩⟩

theorem installValidator_equips {rule : Rule} {answer : Bool}
    (h : (installValidator name rule : Op Refusal Bool) ws = .ok answer ws') :
    Equips (fun _ => []) ws.visible ws'.visible ∧
      ∀ q, ws'.visible.validator? q =
        if name = q then some rule.document else ws.visible.validator? q := by
  obtain ⟨installed, ws₁, hq, h⟩ := bind_eq_ok.1 h
  obtain ⟨hread, hr⟩ := (observes_query _).ok hq
  split at h
  · rename_i hsame
    obtain ⟨⟨⟩, ws₂, hn, h⟩ := bind_eq_ok.1 h
    cases h
    have hvisible := ((observes_note _ _ _).ok hn).2.visible.trans hr.visible
    rw [hvisible]
    refine ⟨.refl _, fun q => ?_⟩
    split
    · rename_i hq
      subst hq
      cases hof : ws.visible.validatorOf name with
      | error e => rw [hof] at hread; cases hread
      | ok v =>
        rw [hof] at hread
        injection hread with hread
        rw [(validatorOf_eq_ok.1 hof).2, hread, eq_of_sameValidator hsame]
    · rfl
  · obtain ⟨⟨⟩, ws₂, hw, h⟩ := bind_eq_ok.1 h
    obtain ⟨answer, ws₃, hw, hd⟩ := bind_eq_ok.1 hw
    cases hd
    obtain ⟨⟨⟩, ws₄, hn, h⟩ := bind_eq_ok.1 h
    cases h
    rw [((observes_note _ _ _).ok hn).2.visible, ← hr.visible]
    exact setValidator_equips hw

/-- Afterwards every collection of the list has the document of its rule as validator. -/
theorem installValidators_equips {rules : List (String × Rule)} (ho : Entries.Ordered rules)
    (h : installValidators rules ws = .ok () ws') :
    Equips (fun _ => []) ws.visible ws'.visible ∧
      ∀ q, ws'.visible.validator? q =
        match Entries.get? rules q with
        | some rule => some rule.document
        | none => ws.visible.validator? q := by
  induction rules generalizing ws with
  | nil =>
    cases h
    exact ⟨.refl _, fun _ => rfl⟩
  | cons e rest ih =>
    obtain ⟨name, rule⟩ := e
    obtain ⟨hlt, hrest⟩ := Entries.ordered_cons.1 ho
    obtain ⟨⟨⟩, ws₁, hi, h⟩ := bind_eq_ok.1 h
    obtain ⟨answer, ws₂, hi, hd⟩ := bind_eq_ok.1 hi
    cases hd
    obtain ⟨h₁, hone⟩ := installValidator_equips hi
    obtain ⟨h₂, hall⟩ := ih hrest h
    refine ⟨h₁.trans h₂, fun q => ?_⟩
    rw [hall, hone, Entries.get?_cons]
    by_cases hq : name = q
    · -- The names further on are greater, so this validator stays installed.
      have hnone : Entries.get? rest q = none :=
        Entries.get?_eq_none.2 fun e he => hq ▸ (Entries.key_ne_of_lt (hlt e he)).symm
      simp [hq, hnone]
    · simp [hq]

/-- What a schema was laid out as, in either kind of session: its collections exist, the indexes
that it asks for are added, and the documents of its rules are the validators. -/
structure Equipped (ids : Nat → Uuid) (known : Collections) (s : Schema) (drawn : Nat)
    (c c' : Catalog) (provision : Provision) : Prop where
  define : ∃ n, Layout.define ids known drawn s.entries = .ok (provision.definitions, n)
  validators : Layout.validators provision.collections s = .ok provision.validators
  equips : Equips (asks s provision.collections.entries) c c'
  exist : ∀ q ∈ provision.collections.values, c'.collections.contains q = true
  installed : ∀ q rule, provision.validators.get? q = some rule →
    c'.validator? q = some rule.document

theorem make_equipped {s : Schema} {known : Collections} {provision : Provision}
    (h : make s known ws = .ok provision ws') :
    Equipped ws.supply.ids known s ws.supply.drawn ws.visible ws'.visible provision := by
  obtain ⟨ds, ws₁, hd, h₁⟩ := bind_eq_ok.1 h
  obtain ⟨v, ws₂, hv, h₂⟩ := bind_eq_ok.1 h₁
  obtain ⟨catalog, ws₃, hc, h₃⟩ := bind_eq_ok.1 h₂
  obtain ⟨⟨⟩, ws₄, he, h₄⟩ := bind_eq_ok.1 h₃
  obtain ⟨⟨⟩, ws₅, hi, h₅⟩ := bind_eq_ok.1 h₄
  cases h₅
  obtain ⟨hvalidators, rfl⟩ := lift_eq_ok.1 hv
  obtain ⟨hcatalog, hr⟩ := observes_catalog.ok hc
  injection hcatalog with hcatalog
  rw [define_eq] at hd
  split at hd
  · rename_i ds' n hdefine
    cases hd
    have hvisible : ws₃.visible = ws.visible := hr.visible
    have hexisting : ∀ q, (catalog.existing (FieldDefinition.collections ds).values).contains q =
        true → ws₃.visible.collections.contains q = true := by
      intro q hq
      obtain ⟨⟨⟩, hq⟩ := Keyed.contains_iff.1 hq
      obtain ⟨name, hname, heq⟩ := List.mem_map.1 (Keyed.mem_of_get?_ofList hq)
      cases heq
      rw [hr.visible, hcatalog]
      exact (List.mem_filter.1 hname).2
    obtain ⟨h₆, hin⟩ := ensureCollections_equips hexisting he
    obtain ⟨h₇, hinstalled⟩ := installValidators_equips v.ordered hi
    have hasks : Equips (asks s (FieldDefinition.collections ds).entries) ws.visible
        ws'.visible := by
      have hboth := h₆.trans h₇
      simp only [List.append_nil] at hboth
      exact hvisible ▸ hboth
    refine ⟨⟨n, hdefine⟩, hvalidators, hasks, fun q hq => ?_, fun q rule hrule => ?_⟩
    · obtain ⟨e, he, rfl⟩ := List.mem_map.1 hq
      exact h₇.contains _ (hin e he)
    · have hrule : Entries.get? v.entries q = some rule := hrule
      rw [hinstalled, hrule]
  · cases hd

/-! ## Nothing left to do -/

/-- Everything that a schema is laid out as is there. -/
structure Fitted (s : Schema) (provision : Provision) (c : Catalog) : Prop where
  exist : ∀ q ∈ provision.collections.values, c.collections.contains q = true
  indexed : ∀ path q, provision.collections.get? path = some q → ∀ index ∈ indexesAt s path,
    ∃ listed, Index.over? index.keys (c.indexes q) = some listed
  installed : ∀ q rule, provision.validators.get? q = some rule →
    c.validator? q = some rule.document

variable {s : Schema} {known : Collections} {provision : Provision} {ids : Nat → Uuid}
  {drawn : Nat}

theorem Equipped.fitted (h : Equipped ids known s drawn c c' provision) :
    Fitted s provision c' := by
  refine ⟨h.exist, fun path q hpath index hindex => ?_, h.installed⟩
  rw [h.equips.indexes]
  refine Index.exists_over?_foldl_added (List.mem_flatMap.2 ⟨(path, q), ?_, ?_⟩)
  · exact Keyed.mem_entries_iff.2 hpath
  · simpa using hindex

/-- Documents may come and go. -/
theorem Fitted.furnishedAs (h : Fitted s provision c) (hf : c.FurnishedAs c') :
    Fitted s provision c' :=
  ⟨fun q hq => (hf.contains q).trans (h.exist q hq), fun path q hpath index hindex => by
    rw [hf.indexes]
    exact h.indexed path q hpath index hindex, fun q rule hrule =>
    (hf.validator? q).trans (h.installed q rule hrule)⟩

/-- The operation answers and leaves nothing but lines in the journal. -/
def NotesOnly {ε α : Type} (op : Op ε α) (a : α) (ws : Workspace) : Prop :=
  ∃ lines, op ws = .ok a { ws with journal := ws.journal ++ lines }

theorem notesOnly_of_eq {ε α : Type} {op : Op ε α} {a : α} (h : op ws = .ok a ws) :
    NotesOnly op a ws := ⟨[], by rw [h, List.append_nil]⟩

theorem notesOnly_note {ε : Type} (severity : Severity) (event : Event)
    (fields : List (String × String)) (ws : Workspace) :
    NotesOnly (Op.note severity event fields : Op ε Unit) () ws := ⟨[_], rfl⟩

theorem NotesOnly.bind {ε α β : Type} {x : Op ε α} {f : α → Op ε β} {a : α} {b : β}
    (hx : NotesOnly x a ws)
    (hf : ∀ lines, NotesOnly (f a) b { ws with journal := ws.journal ++ lines }) :
    NotesOnly (x >>= f) b ws := by
  obtain ⟨lines, hx⟩ := hx
  obtain ⟨more, hf⟩ := hf lines
  refine ⟨lines ++ more, ?_⟩
  rw [bind_apply, hx]
  simpa using hf

theorem ensureIndexes_silent {indexes : List Index}
    (hc : ws.visible.collections.contains name = true)
    (h : ∀ index ∈ indexes,
      ∃ listed, Index.over? index.keys (ws.visible.indexes name) = some listed)
    (hfinite : ws.transaction = none → ws.visible.IsFinite) :
    ensureIndexes name indexes ws = .ok () ws := by
  induction indexes with
  | nil => rfl
  | cons index rest ih =>
    obtain ⟨⟨listed, hlisted⟩, hrest⟩ := List.forall_mem_cons.1 h
    have hw : (Op.write (.createIndex name index) : Op Refusal Bool) ws = .ok false ws :=
      write_silent (perform_createIndex_of_over? hc hlisted) hfinite
    rw [ensureIndexes, bind_apply, hw]
    exact ih hrest

theorem ensureCollections_silent {existing : Keyed Unit} {es : List (String × String)}
    (hc : ∀ e ∈ es, existing.contains e.2 = true ∧
      ws.visible.collections.contains e.2 = true)
    (h : ∀ e ∈ es, ∀ index ∈ indexesAt s e.1,
      ∃ listed, Index.over? index.keys (ws.visible.indexes e.2) = some listed)
    (hfinite : ws.transaction = none → ws.visible.IsFinite) :
    ensureCollections s existing es ws = .ok () ws := by
  induction es with
  | nil => rfl
  | cons e rest ih =>
    obtain ⟨⟨hexisting, hcontains⟩, hc⟩ := List.forall_mem_cons.1 hc
    obtain ⟨hhead, hrest⟩ := List.forall_mem_cons.1 h
    rw [ensureCollections]
    simp only [hexisting, Bool.not_true, Bool.false_eq_true, if_false]
    rw [bind_apply, ensureIndexes_silent hcontains hhead hfinite]
    exact ih hc hrest

theorem installValidator_silent {rule : Rule}
    (h : ws.visible.validator? name = some rule.document) :
    NotesOnly (installValidator name rule : Op Refusal Bool) false ws := by
  have hquery : (Op.query fun catalog => catalog.validatorOf name : Op Refusal (Option Json)) ws =
      .ok (some rule.document) ws := by
    have hof := validatorOf_eq_ok.2 ⟨contains_of_validator? h, h⟩
    rw [Op.query, bind_apply]
    show Op.liftStore (ws.visible.validatorOf name) ws = _
    rw [hof]
    rfl
  refine (notesOnly_of_eq hquery).bind fun lines => ?_
  have hsame : Collection.sameValidator (some rule.document) (some rule.document) = true :=
    Json.same_self (Json.isFinite_of_floatFree rule.floatFree_document)
  rw [if_pos hsame]
  exact (notesOnly_note _ _ _ _).bind fun _ => notesOnly_of_eq rfl

theorem installValidators_silent {rules : List (String × Rule)}
    (h : ∀ e ∈ rules, ws.visible.validator? e.1 = some e.2.document) :
    NotesOnly (installValidators rules) () ws := by
  induction rules generalizing ws with
  | nil => exact notesOnly_of_eq rfl
  | cons e rest ih =>
    obtain ⟨hhead, hrest⟩ := List.forall_mem_cons.1 h
    refine NotesOnly.bind (a := ()) ?_ fun lines => ih hrest
    exact (installValidator_silent hhead).bind fun _ => notesOnly_of_eq rfl

/-- To lay out a schema for which everything is there writes nothing. -/
theorem make_silent (hfit : Fitted s provision ws.visible)
    (hdefine : Layout.define ws.supply.ids known ws.supply.drawn s.entries =
      .ok (provision.definitions, ws.supply.drawn))
    (hvalidators : Layout.validators provision.collections s = .ok provision.validators)
    (hfinite : ws.transaction = none → ws.visible.IsFinite) :
    NotesOnly (make s known) provision ws := by
  have hd : define s known ws = .ok provision.definitions ws := by rw [define_eq, hdefine]
  refine (notesOnly_of_eq hd).bind fun l₁ => ?_
  have hv : ∀ ws, (Op.lift (Layout.validators provision.collections s) : Op Refusal Validators) ws =
      .ok provision.validators ws := fun _ => lift_eq_ok.2 ⟨hvalidators, rfl⟩
  refine (notesOnly_of_eq (hv _)).bind fun l₂ => ?_
  refine NotesOnly.bind (a := ws.visible) (notesOnly_of_eq rfl) fun l₃ => ?_
  refine NotesOnly.bind (a := ()) (notesOnly_of_eq (ensureCollections_silent
    (fun e he => ?_) (fun e he => ?_) hfinite)) fun l₄ => ?_
  · have hq : e.2 ∈ provision.collections.values := List.mem_map.2 ⟨e, he, rfl⟩
    refine ⟨?_, hfit.exist _ hq⟩
    rw [Keyed.contains_iff]
    exact ⟨(), (Keyed.get?_ofList_iff fun _ _ _ _ _ => rfl).2
      (List.mem_map.2 ⟨e.2, List.mem_filter.2 ⟨hq, hfit.exist _ hq⟩, rfl⟩)⟩
  · exact hfit.indexed e.1 e.2 (Keyed.mem_entries_iff.1 he)
  refine NotesOnly.bind (a := ()) (installValidators_silent fun e he => ?_) fun l₅ => ?_
  · exact hfit.installed e.1 e.2 (Keyed.mem_entries_iff.1 he)
  · exact notesOnly_of_eq rfl

/-- To lay a schema out again over its own collections answers the same and writes nothing, whatever
became of the documents in between.  The catalog holds finite numbers, as what is read from a text
does. -/
theorem make_again {first : Provision} {ws₁ ws₂ : Workspace} (h : make s known ws = .ok first ws₁)
    (hsame : ws₁.visible.FurnishedAs ws₂.visible) (hfinite : ws₂.visible.IsFinite) :
    ∃ lines, make s first.collections ws₂ =
      .ok first { ws₂ with journal := ws₂.journal ++ lines } := by
  have hequipped := make_equipped h
  obtain ⟨n, hdefine⟩ := hequipped.define
  exact make_silent (hequipped.fitted.furnishedAs hsame)
    (Layout.describes_of_define hdefine).define_collections hequipped.validators fun _ => hfinite

/-- What the collection of a document path has once its schema is laid out.  Over the fields of each
index of the class there is one; it is the declared one if that was there before, or if nothing was
and no other one over these fields is asked for first. -/
structure Serves (s : Schema) (provision : Provision) (before after : Catalog) (k : DocClass)
    (name : String) : Prop where
  exists_collection : after.collections.contains name = true
  validator : ∃ rule, provision.validators.get? name = some rule ∧
    Layout.ruleAt after name = some rule
  indexed : ∀ index ∈ k.indexes, ∃ listed ∈ after.indexes name, listed.keys = index.keys
  listed_iff : ∀ index ∈ k.indexes, index ∈ after.indexes name ↔
    index ∈ before.indexes name ∨ Index.over? index.keys (before.indexes name) = none ∧
      Index.over? index.keys (asks s provision.collections.entries name) = some index

/-- Every document path of a schema that was laid out has its collection, whose validator is read
back as the rule made for it. -/
theorem make_serves (h : make s known ws = .ok provision ws')
    (hcounted : ∀ d ∈ provision.definitions, d.type.isCounted = true) {path : String}
    {t : FieldType} {k : DocClass} (ht : s.typeAt path = .ok t) (hk : t.nested? = some k) :
    ∃ name, provision.collections.get? path = some name ∧
      Serves s provision ws.visible ws'.visible k name := by
  have hequipped := make_equipped h
  have hfitted := hequipped.fitted
  obtain ⟨n, hdefine⟩ := hequipped.define
  have hdescribes := Layout.describes_of_define hdefine
  obtain ⟨f, hf, hft⟩ := Schema.typeAt_eq_ok.1 ht
  have hcollection : ∃ name, provision.collections.get? path = some name := by
    obtain ⟨d, hd, rfl⟩ := hdescribes.complete path f hf
    obtain ⟨t', ht', -, hnone⟩ := hdescribes.sound d hd
    rw [ht] at ht'
    cases ht'
    cases hc : d.collection with
    | none => simp [hnone.1 hc] at hk
    | some name =>
      exact ⟨name, (Layout.collections_get?_iff hdescribes.ascending).2 ⟨d, hd, rfl, hc⟩⟩
  obtain ⟨name, hname⟩ := hcollection
  have hvalue : name ∈ provision.collections.values := Keyed.mem_values.2 ⟨path, hname⟩
  have hindexes : indexesAt s path = k.indexes := by simp [indexesAt, hf, hft, hk]
  obtain ⟨rule, hrule⟩ := Layout.exists_validator hequipped.validators hvalue
  refine ⟨name, hname, hequipped.exist name hvalue, ⟨rule, hrule, ?_⟩, fun index hindex => ?_,
    fun index hindex => ?_⟩
  · have hspeaks := Layout.validators_speak hequipped.validators name rule hrule
    obtain ⟨state, hstate, hdocument⟩ :=
      Option.bind_eq_some_iff.1 (hequipped.installed name rule hrule)
    simp only [Layout.ruleAt, hstate, hdocument, Option.bind_eq_bind, Option.bind_some]
    exact hspeaks.isTitled.ofDocument?_document (hspeaks.counted hdescribes hcounted)
  · obtain ⟨listed, hlisted⟩ := hfitted.indexed path name hname index (hindexes ▸ hindex)
    exact ⟨listed, (Index.mem_of_over? hlisted).1, (Index.mem_of_over? hlisted).2⟩
  · rw [hequipped.equips.indexes]
    exact Index.mem_foldl_added

section Sample

/-- A tag with a name by which tags are found. -/
def tagClass : DocClass :=
  .ofFields "Tag" [("name", some (.scalar .string))] [.single "name" .ascending false]

/-- A tag whose name no other tag has. -/
def uniqueTagClass : DocClass :=
  .ofFields "UniqueTag" [("name", some (.scalar .string))] [.single "name" .ascending true]

/-- The schema of samples with a tag of a class. -/
def taggedSchema (tag : DocClass) : Schema :=
  (DocClass.ofFields "Sample" [("tag", some (.document tag))] []).rootSchema

def sampleWorkspace : Workspace :=
  ⟨Store.inMemory, none, none, [], ⟨Uuid.ofNat, fun _ => .ofNanoseconds 0, id, 0, 0, 0⟩⟩

/-- Between the two turns a tag is written. -/
theorem make_again_sample :
    ∃ first ws₁ tags ws₂ lines,
      make (taggedSchema uniqueTagClass) .empty sampleWorkspace = .ok first ws₁ ∧
      first.collections.get? "tag" = some tags ∧
      (Op.write (.insertOne tags (.object [("_id", .string "t"), ("name", .string "cat")])) :
        Op Refusal Bool) ws₁ = .ok true ws₂ ∧
      make (taggedSchema uniqueTagClass) first.collections ws₂ =
        .ok first { ws₂ with journal := ws₂.journal ++ lines } := by
  have hcheck : (given? (make (taggedSchema uniqueTagClass) .empty sampleWorkspace)).any
      (fun g => (g.1.collections.get? "tag").any fun tags =>
        (given? ((Op.write (.insertOne tags
            (.object [("_id", .string "t"), ("name", .string "cat")])) : Op Refusal Bool) g.2)).any
          fun written => written.1 && written.2.visible.collections.entries.all fun e =>
            e.2.documents.values.all Json.isFinite && e.2.validator.all Json.isFinite) = true := by
    decide +kernel
  obtain ⟨g, hg, hcheck⟩ := (Option.any_eq_true _ _).1 hcheck
  obtain ⟨tags, htags, hcheck⟩ := (Option.any_eq_true _ _).1 hcheck
  obtain ⟨written, hwritten, hcheck⟩ := (Option.any_eq_true _ _).1 hcheck
  obtain ⟨hanswer, hfinite⟩ := Bool.and_eq_true_iff.1 hcheck
  have hwrite := given?_eq_some hwritten
  rw [hanswer] at hwrite
  obtain ⟨lines, hagain⟩ := make_again (given?_eq_some hg) (write_furnishedAs rfl hwrite)
    (isFinite_of_all hfinite)
  exact ⟨g.1, g.2, tags, written.2, lines, given?_eq_some hg, htags, hwrite, hagain⟩

/-- Samples with a tag are laid out, and then samples with a tag of unique name over the same
collections. -/
def retagged? : Option ((Provision × Workspace) × Provision × Workspace) := do
  let before ← given? (make (taggedSchema tagClass) .empty sampleWorkspace)
  let after ← given? (make (taggedSchema uniqueTagClass) before.1.collections before.2)
  return (before, after)

theorem make_of_retagged? {g : (Provision × Workspace) × Provision × Workspace}
    (h : retagged? = some g) :
    make (taggedSchema uniqueTagClass) g.1.1.collections g.1.2 = .ok g.2.1 g.2.2 := by
  unfold retagged? at h
  obtain ⟨before, -, h⟩ := Option.bind_eq_some_iff.1 h
  obtain ⟨after, hafter, h⟩ := Option.bind_eq_some_iff.1 h
  cases h
  exact given?_eq_some hafter

theorem make_serves_sample :
    ∃ known ws provision ws' name,
      make (taggedSchema uniqueTagClass) known ws = .ok provision ws' ∧
      provision.collections.get? "tag" = some name ∧
      Serves (taggedSchema uniqueTagClass) provision ws.visible ws'.visible uniqueTagClass name := by
  have hcheck : retagged?.any (fun g => decide
      (∀ d ∈ g.2.1.definitions, d.type.isCounted = true)) = true := by decide +kernel
  obtain ⟨g, hg, hcheck⟩ := (Option.any_eq_true _ _).1 hcheck
  have hmake := make_of_retagged? hg
  have htype : (taggedSchema uniqueTagClass).typeAt "tag" = .ok (.document uniqueTagClass) := rfl
  obtain ⟨name, hname, hserves⟩ := make_serves hmake (of_decide_eq_true hcheck) htype rfl
  exact ⟨g.1.1.collections, g.1.2, g.2.1, g.2.2, name, hmake, hname, hserves⟩

/-- The index that is there over the same field stays, and the unique one is not made. -/
theorem make_misses_unique :
    ∃ known ws provision ws' name index,
      make (taggedSchema uniqueTagClass) known ws = .ok provision ws' ∧
      (taggedSchema uniqueTagClass).typeAt "tag" = .ok (.document uniqueTagClass) ∧
      provision.collections.get? "tag" = some name ∧ index ∈ uniqueTagClass.indexes ∧
      ¬ ∃ listed ∈ ws'.visible.indexes name,
        listed.keys = index.keys ∧ listed.unique = index.unique := by
  have hcheck : retagged?.any (fun g => (g.2.1.collections.get? "tag").any fun name =>
      uniqueTagClass.indexes.any fun index => decide
        (index ∈ uniqueTagClass.indexes ∧ ∀ listed ∈ g.2.2.visible.indexes name,
          listed.keys = index.keys → listed.unique ≠ index.unique)) = true := by decide +kernel
  obtain ⟨g, hg, hcheck⟩ := (Option.any_eq_true _ _).1 hcheck
  obtain ⟨name, hname, hcheck⟩ := (Option.any_eq_true _ _).1 hcheck
  obtain ⟨index, -, hcheck⟩ := List.any_eq_true.1 hcheck
  obtain ⟨hindex, hnone⟩ := of_decide_eq_true hcheck
  exact ⟨g.1.1.collections, g.1.2, g.2.1, g.2.2, name, index, make_of_retagged? hg, rfl, hname,
    hindex, fun ⟨listed, hlisted, hkeys, hunique⟩ => hnone listed hlisted hkeys hunique⟩

end Sample

end Provision
end SchemaKeeper
