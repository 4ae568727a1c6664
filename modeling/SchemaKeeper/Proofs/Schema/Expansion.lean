import SchemaKeeper.Proofs.Schema.Nested

/-!
# What a class unfolds into

A class unfolds into one entry for each chain of fields that leads down through nested classes.
The entry stands at the joined names of the chain and is the field at its end.  Where names are
neither empty nor dotted, no two chains lead to one path, so that none of them overwrites another.
-/
namespace SchemaKeeper

namespace Path

/-- The text may name a field. -/
def IsName (name : String) : Prop := name ≠ "" ∧ '.' ∉ name.toList

instance (name : String) : Decidable (IsName name) := inferInstanceAs (Decidable (_ ∧ _))

theorem join_injective {base a b : String} (h : join base a = join base b) : a = b := by
  have hunder : under base (join base a) = a := under_join a
  rw [← hunder, h, under_join]

theorem join_ne_root {base name : String} (h : name ≠ "") : join base name ≠ "" := by
  by_cases hb : base = ""
  · simpa [join, hb] using h
  · have hlength : (base ++ "." ++ name).toList ≠ [] := by simp [String.toList_append]
    rw [join_of_ne_root hb]
    exact fun hroot => hlength (by rw [hroot]; rfl)

theorem join_join {base name : String} (hname : name ≠ "") (rest : String) :
    join (join base name) rest = join base (name ++ "." ++ rest) := by
  rw [join_of_ne_root (join_ne_root hname)]
  by_cases hb : base = ""
  · simp [join, hb]
  · simp [join, hb, String.append_assoc]

/-- Names that are joined one after the other are joined with dots between them. -/
theorem foldl_join {base : String} {names : List String} (hne : names ≠ [])
    (hnames : ∀ name ∈ names, IsName name) :
    names.foldl join base = join base (String.intercalate "." names) := by
  induction names generalizing base with
  | nil => exact absurd rfl hne
  | cons name names ih =>
    obtain ⟨hname, hrest⟩ := List.forall_mem_cons.1 hnames
    cases names with
    | nil => simp
    | cons name' names =>
      rw [List.foldl_cons, ih (List.cons_ne_nil _ _) hrest, join_join hname.1,
        String.intercalate_cons_cons]

/-- Names without dots can be told from the text that joins them. -/
theorem intercalate_injective {names names' : List String} (hne : names ≠ []) (hne' : names' ≠ [])
    (hnames : ∀ name ∈ names, IsName name) (hnames' : ∀ name ∈ names', IsName name)
    (h : String.intercalate "." names = String.intercalate "." names') : names = names' := by
  have hsplit : ∀ {names : List String}, names ≠ [] → (∀ name ∈ names, IsName name) →
      List.splitOn '.' (String.intercalate "." names).toList = names.map String.toList := by
    intro names hne hnames
    rw [String.toList_intercalate, show ".".toList = ['.'] from rfl, List.splitOn_intercalate]
    · exact List.forall_mem_map.2 fun name hname => (hnames name hname).2
    · simpa using hne
  have hlists := hsplit hne hnames
  rw [h, hsplit hne' hnames'] at hlists
  exact (List.map_inj_right fun _ _ => String.toList_inj.1).1 hlists.symm

theorem foldl_join_injective (base : String) {names names' : List String} (hne : names ≠ [])
    (hne' : names' ≠ []) (hnames : ∀ name ∈ names, IsName name)
    (hnames' : ∀ name ∈ names', IsName name)
    (h : names.foldl join base = names'.foldl join base) : names = names' := by
  rw [foldl_join hne hnames, foldl_join hne' hnames'] at h
  exact intercalate_injective hne hne' hnames hnames' (join_injective h)

end Path

namespace DocClass
variable {c k : DocClass} {name base q : String} {names names' : List String} {f f' : Field}

/-- The names of fields that lead down from a class, and the field at the end of the chain: each
further field is one of the class that the type of the field before ends in. -/
inductive Chain : DocClass → List String → Field → Prop where
  | last {c : DocClass} {name : String} {type : Option FieldType} (h : (name, type) ∈ c.fields) :
    Chain c [name] ⟨name, type⟩
  | further {c k : DocClass} {name : String} {t : FieldType} {names : List String} {f : Field}
    (h : (name, some t) ∈ c.fields) (hk : t.nested? = some k) (rest : Chain k names f) :
    Chain c (name :: names) f

/-- The fields of the class are told apart by their names, which are neither empty nor dotted. -/
structure IsProper (c : DocClass) : Prop where
  nodup : (c.fields.map Prod.fst).Nodup
  names : ∀ name ∈ c.fields.map Prod.fst, Path.IsName name

instance (c : DocClass) : Decidable c.IsProper :=
  decidable_of_iff ((c.fields.map Prod.fst).Nodup ∧ ∀ name ∈ c.fields.map Prod.fst,
    Path.IsName name) ⟨fun h => ⟨h.1, h.2⟩, fun h => ⟨h.nodup, h.names⟩⟩

theorem isProper_of_nested (hc : c.IsProper)
    (h : ∀ l ∈ c.nested, ∀ k, l.Reaches k → k.IsProper) : ∀ k, c.Reaches k → k.IsProper := by
  intro k hk
  obtain rfl | ⟨l, hl, hlk⟩ := Relation.ReflTransGen.cases_head hk
  · exact hc
  · exact h l hl k hlk

theorem Chain.ne_nil (h : Chain c names f) : names ≠ [] := by
  cases h <;> exact List.cons_ne_nil _ _

theorem Chain.isName (h : Chain c names f) (hc : ∀ k, c.Reaches k → k.IsProper) :
    ∀ name ∈ names, Path.IsName name := by
  induction h with
  | @last c name type h =>
    simpa using (hc c .refl).names name (List.mem_map_of_mem h)
  | @further c k name t names f h hk rest ih =>
    refine List.forall_mem_cons.2 ⟨(hc c .refl).names name (List.mem_map_of_mem h), ?_⟩
    exact ih fun l hl => hc l (.head (nests_iff.2 ⟨name, t, h, hk⟩) hl)

/-! ## What unfolding puts where -/

theorem expandShape_eq (t : FieldType) (s : Schema) :
    expandShape base t s = match t.nested? with
      | some k => expandInto base k s
      | none => s := by
  fun_induction Shape.nested? t <;> simp_all [expandShape]

theorem expandInto_eq (c : DocClass) (s : Schema) :
    expandInto base c s = expandFields base c.fields s := by
  cases c
  rfl

theorem expandFields_append (fields rest : List (String × Option FieldType)) (s : Schema) :
    expandFields base (fields ++ rest) s = expandFields base rest (expandFields base fields s) := by
  induction fields generalizing s with
  | nil => rfl
  | cons field fields ih => exact ih _

/-- Below the field nothing is put at the path, nor at the path of the field itself. -/
def Misses (base q : String) (field : String × Option FieldType) : Prop :=
  Path.join base field.1 ≠ q ∧
    ∀ s : Schema, (expandType (Path.join base field.1) field.2 s).get? q = s.get? q

theorem get?_expandFields_of_misses {fields : List (String × Option FieldType)}
    (h : ∀ field ∈ fields, Misses base q field) (s : Schema) :
    (expandFields base fields s).get? q = s.get? q := by
  induction fields generalizing s with
  | nil => rfl
  | cons field fields ih =>
    obtain ⟨⟨hne, hbelow⟩, hrest⟩ := List.forall_mem_cons.1 h
    rw [expandFields, ih hrest, Keyed.get?_insert, if_neg hne, hbelow]

theorem misses_of_not_chain {field : String × Option FieldType} (hfield : field ∈ c.fields)
    (ih : ∀ k, c.Nests k → ∀ base, (∀ names f, Chain k names f → names.foldl Path.join base ≠ q) →
      ∀ s, (expandInto base k s).get? q = s.get? q)
    (h : ∀ names f, Chain c (field.1 :: names) f →
      names.foldl Path.join (Path.join base field.1) ≠ q) : Misses base q field := by
  obtain ⟨name, type⟩ := field
  refine ⟨h [] _ (.last hfield), fun s => ?_⟩
  cases type with
  | none => rfl
  | some t =>
    rw [expandType, expandShape_eq]
    cases hk : t.nested? with
    | none => rfl
    | some k =>
      exact ih k (nests_iff.2 ⟨name, t, hfield, hk⟩) _
        (fun names f hchain => h names f (.further hfield hk hchain)) s

/-- Where no chain leads nothing is put. -/
theorem get?_expandInto_of_not_chain (c : DocClass) (base : String)
    (h : ∀ names f, Chain c names f → names.foldl Path.join base ≠ q) (s : Schema) :
    (expandInto base c s).get? q = s.get? q := by
  induction c using nestedInduction generalizing base s with
  | nest c ih =>
    rw [expandInto_eq]
    refine get?_expandFields_of_misses (fun field hfield => ?_) s
    exact misses_of_not_chain hfield (fun k hk base h s => ih k hk base h s)
      fun names f hchain => h (field.1 :: names) f hchain

/-- Another field puts nothing where a chain leads. -/
theorem misses_of_ne (hc : ∀ k, c.Reaches k → k.IsProper) (h : Chain c (name :: names) f)
    {field : String × Option FieldType} (hfield : field ∈ c.fields) (hne : field.1 ≠ name) :
    Misses base ((name :: names).foldl Path.join base) field := by
  refine misses_of_not_chain hfield
    (fun k _ base h s => get?_expandInto_of_not_chain k base h s) fun names' f' h' heq => ?_
  have hnames := Path.foldl_join_injective base h'.ne_nil h.ne_nil (h'.isName hc) (h.isName hc) heq
  exact hne (List.cons.inj hnames).1

/-- Where a chain leads stands what its first field has put there: the fields behind that one put
nothing there. -/
theorem exists_get?_expandInto {type : Option FieldType} (hc : ∀ k, c.Reaches k → k.IsProper)
    (hmem : (name, type) ∈ c.fields) (h : Chain c (name :: names) f) (base : String) (s : Schema) :
    ∃ s' : Schema, (expandInto base c s).get? ((name :: names).foldl Path.join base)
      = ((expandType (Path.join base name) type s').insert (Path.join base name)
          ⟨name, type⟩).get? ((name :: names).foldl Path.join base) := by
  obtain ⟨before, after, hsplit⟩ := List.append_of_mem hmem
  have hnodup := (hc c .refl).nodup
  rw [hsplit, List.map_append, List.map_cons, List.nodup_append] at hnodup
  have hout : name ∉ after.map Prod.fst := (List.nodup_cons.1 hnodup.2.1).1
  refine ⟨expandFields base before s, ?_⟩
  rw [expandInto_eq, hsplit, expandFields_append, expandFields]
  refine get?_expandFields_of_misses (fun field hfield => ?_) _
  refine misses_of_ne hc h (hsplit ▸ ?_) fun heq => hout ?_
  · exact List.mem_append_right _ (List.mem_cons_of_mem _ hfield)
  · exact List.mem_map.2 ⟨field, hfield, heq⟩

/-- Where a chain leads its field is put. -/
theorem get?_expandInto_of_chain (h : Chain c names f) (hc : ∀ k, c.Reaches k → k.IsProper)
    (base : String) (s : Schema) :
    (expandInto base c s).get? (names.foldl Path.join base) = some f := by
  induction h generalizing base s with
  | @last c name type hmem =>
    obtain ⟨s', hs'⟩ := exists_get?_expandInto hc hmem (.last hmem) base s
    rw [hs', Keyed.get?_insert]
    exact if_pos rfl
  | @further c k name t names f hmem hk rest ih =>
    have hchain : Chain c (name :: names) f := .further hmem hk rest
    obtain ⟨s', hs'⟩ := exists_get?_expandInto hc hmem hchain base s
    have hne : Path.join base name ≠ (name :: names).foldl Path.join base := by
      intro heq
      have hlast : Chain c [name] ⟨name, some t⟩ := .last hmem
      have hnames := Path.foldl_join_injective base hlast.ne_nil hchain.ne_nil (hlast.isName hc)
        (hchain.isName hc) heq
      exact rest.ne_nil (List.cons.inj hnames).2.symm
    rw [hs', Keyed.get?_insert, if_neg hne, expandType, expandShape_eq, hk]
    exact ih (fun l hl => hc l (.head (nests_iff.2 ⟨name, t, hmem, hk⟩) hl)) _ s'

/-- A class whose names, its own and those of the classes inside it, are neither empty nor dotted
unfolds below a base into the fields at the ends of the chains, each at the joined names of its
chain, and no two chains lead to one path. -/
theorem expanded_exact (hc : ∀ k, c.Reaches k → k.IsProper) (base : String) :
    (∀ q f, (c.expanded base).get? q = some f ↔
      ∃ names, Chain c names f ∧ q = Path.join base (String.intercalate "." names)) ∧
    ∀ names names' f f', Chain c names f → Chain c names' f' →
      Path.join base (String.intercalate "." names)
        = Path.join base (String.intercalate "." names') → names = names' ∧ f = f' := by
  have hpath : ∀ {names f}, Chain c names f →
      names.foldl Path.join base = Path.join base (String.intercalate "." names) :=
    fun h => Path.foldl_join h.ne_nil (h.isName hc)
  have hput : ∀ {names f}, Chain c names f →
      (c.expanded base).get? (Path.join base (String.intercalate "." names)) = some f :=
    fun h => hpath h ▸ get?_expandInto_of_chain h hc base .empty
  refine ⟨fun q f => ⟨fun hf => ?_, ?_⟩, fun names names' f f' h h' heq => ⟨?_, ?_⟩⟩
  · by_cases hleads : ∃ names g, Chain c names g ∧ names.foldl Path.join base = q
    · obtain ⟨names, g, hchain, rfl⟩ := hleads
      rw [hpath hchain, hput hchain] at hf
      exact ⟨names, Option.some.inj hf ▸ hchain, hpath hchain⟩
    · have hempty := get?_expandInto_of_not_chain c base
        (fun names g hchain heq => hleads ⟨names, g, hchain, heq⟩) .empty
      exact nomatch hf.symm.trans hempty
  · rintro ⟨names, hchain, rfl⟩
    exact hput hchain
  · exact Path.intercalate_injective h.ne_nil h'.ne_nil (h.isName hc) (h'.isName hc)
      (Path.join_injective heq)
  · exact Option.some.inj ((hput h).symm.trans (heq ▸ hput h'))

section Sample

/-- A page of a book. -/
def pageClass : DocClass := .ofFields "Page" [("text", some (.scalar .string))] []

/-- A book with pages, whose title has no type yet. -/
def bookClass : DocClass :=
  .ofFields "Book" [("pages", some (.list (.document pageClass))), ("title", none)] []

/-- A library with books by subject and a pair of loose pages. -/
def libraryClass : DocClass :=
  .ofFields "Library" [("books", some (.dict (.list (.document bookClass)))),
    ("loose", some (.tuple [.document pageClass, .document pageClass]))] []

theorem isProper_library : ∀ k, libraryClass.Reaches k → k.IsProper := by
  have hpage : ∀ k, pageClass.Reaches k → k.IsProper :=
    isProper_of_nested (by decide) nofun
  have hbook : ∀ k, bookClass.Reaches k → k.IsProper :=
    isProper_of_nested (by decide) (List.forall_mem_singleton.2 hpage)
  exact isProper_of_nested (by decide) (List.forall_mem_singleton.2 hbook)

theorem expanded_exact_library :
    (∀ k, libraryClass.Reaches k → k.IsProper) ∧
      (∀ q f, (libraryClass.expanded "hall.left").get? q = some f ↔
        ∃ names, Chain libraryClass names f ∧
          q = Path.join "hall.left" (String.intercalate "." names)) ∧
      ∀ names names' f f', Chain libraryClass names f → Chain libraryClass names' f' →
        Path.join "hall.left" (String.intercalate "." names)
          = Path.join "hall.left" (String.intercalate "." names') → names = names' ∧ f = f' :=
  ⟨isProper_library, expanded_exact isProper_library "hall.left"⟩

/-- Lists and dicts are passed through, tuples are not. -/
example : (libraryClass.expanded "hall.left").keys =
    ["hall.left.books", "hall.left.books.pages", "hall.left.books.pages.text",
      "hall.left.books.title", "hall.left.loose"] := by decide +kernel

end Sample

end DocClass
end SchemaKeeper
