import Mathlib.Data.List.Chain
import Mathlib.Data.List.Perm.Subperm
import Mathlib.Logic.Relation
import SchemaKeeper.Proofs.Record.Read
import SchemaKeeper.Proofs.Store.Catalog

/-!
# How far references are followed

Reading a record follows the references that its stored documents hold, whatever these are.  Each
reference leads to a longer path, and only so many paths have collections, so there is an end to
it.  There is one exception: below the root a member without a name has the path of the root
itself, so documents of the root can refer to one another there for ever.  Nothing else keeps a
reading from ending, and the limit on its depth is never reached without such a circle.
-/
namespace SchemaKeeper.Record

variable {α β : Type}

/-- The refusal of a reading that has followed references as deep as it may. -/
def tooDeep : Refusal := .store (.internal "references run in a circle")

/-! ## What is not refused for its depth -/

theorem bind_ne_tooDeep {x : Except Refusal α} {f : α → Except Refusal β}
    (hx : x ≠ .error tooDeep) (hf : ∀ a, f a ≠ .error tooDeep) : (x >>= f) ≠ .error tooDeep := by
  cases x with
  | error e => exact fun h => hx (by injection h with h; rw [h])
  | ok a => exact hf a

theorem map_ne_tooDeep {x : Except Refusal α} {f : α → β} (hx : x ≠ .error tooDeep) :
    x.map f ≠ .error tooDeep := by
  cases x with
  | error e => exact fun h => hx (by injection h with h; rw [h])
  | ok a => nofun

theorem holdItems_ne_tooDeep {ask : Value → Except Refusal Held} :
    ∀ {vs : List Value}, (∀ v ∈ vs, ask v ≠ .error tooDeep) → holdItems ask vs ≠ .error tooDeep
  | [], _ => nofun
  | v :: vs, h => by
    obtain ⟨hv, hvs⟩ := List.forall_mem_cons.1 h
    exact bind_ne_tooDeep hv fun _ => bind_ne_tooDeep (holdItems_ne_tooDeep hvs) fun _ => nofun

theorem holdEntries_ne_tooDeep {ask : Value → Except Refusal Held} :
    ∀ {es : List (String × Value)}, (∀ e ∈ es, ask e.2 ≠ .error tooDeep) →
      holdEntries ask es ≠ .error tooDeep
  | [], _ => nofun
  | (k, v) :: es, h => by
    obtain ⟨hv, hes⟩ := List.forall_mem_cons.1 h
    exact bind_ne_tooDeep hv fun _ => bind_ne_tooDeep (holdEntries_ne_tooDeep hes) fun _ => nofun

theorem refuseNull_ne_tooDeep {path : String} {ask : Value → Except Refusal Held} {v : Value}
    (h : ask v ≠ .error tooDeep) : refuseNull path ask v ≠ .error tooDeep := by
  unfold refuseNull
  split
  · nofun
  · exact h

theorem hold_ne_tooDeep (path : String) :
    ∀ (t : FieldType) (level : Nat) (v : Value), hold path level t v ≠ .error tooDeep
  | .scalar k, level, v => by
    unfold hold
    split <;> nofun
  | .tuple ts, level, v => by
    unfold hold
    split <;> nofun
  | .document k, level, v => by
    unfold hold
    split <;> nofun
  | .list t, level, v => by
    cases v with
    | list items =>
      exact map_ne_tooDeep (holdItems_ne_tooDeep fun v _ =>
        refuseNull_ne_tooDeep (hold_ne_tooDeep path t (level + 1) v))
    | _ => nofun
  | .dict t, level, v => by
    cases v with
    | dict entries =>
      exact map_ne_tooDeep (holdEntries_ne_tooDeep fun e _ =>
        refuseNull_ne_tooDeep (hold_ne_tooDeep path t (level + 1) e.2))
    | _ => nofun

theorem requireType_ne_tooDeep (f : Field) (path : String) :
    f.requireType path ≠ .error tooDeep := by
  unfold Field.requireType
  cases f.type <;> nofun

theorem set_ne_tooDeep (r : Record) (s : Schema) (name : String) (v : Value) :
    r.set s name v ≠ .error tooDeep := by
  have htype : s.typeAt name ≠ .error tooDeep := by
    unfold Schema.typeAt
    cases s.get? name with
    | none => nofun
    | some f => exact requireType_ne_tooDeep f name
  have hhold : holdField s name v ≠ .error tooDeep := by
    unfold holdField
    split
    · nofun
    · exact bind_ne_tooDeep htype fun t => hold_ne_tooDeep name t 0 v
  unfold set
  split
  · nofun
  · exact bind_ne_tooDeep hhold fun _ => nofun

/-! ## References -/

/-- A reference inside a record: the path under which it appears and the text of the identifier
that it holds. -/
structure Reference where
  path : String
  id : String

/-- A stored value holds a reference where its type has a document. -/
inductive Refers : FieldType → Json → DocClass → String → Prop where
  | item {t : FieldType} {items : List Json} {j : Json} {k : DocClass} {id : String}
    (mem : j ∈ items) (refers : Refers t j k id) : Refers (.list t) (.array items) k id
  | entry {t : FieldType} {members : List (String × Json)} {m : String × Json} {k : DocClass}
    {id : String} (mem : m ∈ members) (refers : Refers t m.2 k id) :
    Refers (.dict t) (.object members) k id
  | position {ts : List FieldType} {items : List Json} {p : FieldType × Json} {k : DocClass}
    {id : String} (mem : p ∈ ts.zip items) (refers : Refers p.1 p.2 k id) :
    Refers (.tuple ts) (.array items) k id
  | document {k : DocClass} {j : Json} {id : String} (held : j.get? "$oid" = some (.string id)) :
    Refers (.document k) j k id

/-- The reference stands in a value at a path. -/
def RefersAt (path : String) (t : FieldType) (j : Json) (r : Reference) : Prop :=
  r.path = path ∧ ∃ k, Refers t j k r.id

/-- The reference stands in one of the items at a path, each of its own type. -/
def RefersEach (path : String) (ts : List FieldType) (js : List Json) (r : Reference) : Prop :=
  r.path = path ∧ ∃ p ∈ ts.zip js, ∃ k, Refers p.1 p.2 k r.id

/-- The reference stands in one of the members of a document. -/
def MembersRefer (s : Schema) (path : String) (members : List (String × Json)) (r : Reference) :
    Prop :=
  ∃ m ∈ members, RefersAt (Path.join path m.1) (declared s (Path.join path m.1)) m.2 r

/-- The document of a reference is there. -/
def Fetches (catalog : Catalog) (c : Collections) (r : Reference) (document : Json) : Prop :=
  ∃ name, c.get? r.path = some name ∧ catalog.findOne name "_id" (.string r.id) = some document

/-- A reference leads to another if its document holds it. -/
def LeadsTo (catalog : Catalog) (s : Schema) (c : Collections) (r r' : Reference) : Prop :=
  ∃ members, Fetches catalog c r (.object members) ∧
    MembersRefer s r.path (ownMembers members) r'

/-! ## Readings that ask for references in turn -/

/-- How a reference is resolved: by its path, the class there and the text of the identifier. -/
abbrev Resolver := String → DocClass → String → Except Refusal Value

/-- What one way of resolving makes of a reference, the other makes of it too, unless it stops for
its depth. -/
def Resolver.Extends (g f : Resolver) : Prop :=
  ∀ path k id, f path k id = .error tooDeep ∨ g path k id = f path k id

/-- A reading that resolves references of one kind, one after the other.  To resolve them deeper
changes nothing unless it stopped for its depth; then there is one reference at which it stopped,
and it stops there for as long as this reference cannot be resolved. -/
structure Sequential (kind : Reference → Prop) (reading : Resolver → Except Refusal α) : Prop where
  deeper : ∀ f g, Resolver.Extends g f → reading f = .error tooDeep ∨ reading g = reading f
  stops : ∀ f, reading f = .error tooDeep → ∃ r k, kind r ∧ f r.path k r.id = .error tooDeep ∧
    ∀ g, Resolver.Extends g f → g r.path k r.id = .error tooDeep → reading g = .error tooDeep

namespace Sequential
variable {kind : Reference → Prop} {reading : Resolver → Except Refusal α}
  {next : α → Resolver → Except Refusal β}

theorem const {x : Except Refusal α} (h : x ≠ .error tooDeep) : Sequential kind fun _ => x :=
  ⟨fun _ _ _ => .inr rfl, fun _ hx => absurd hx h⟩

theorem ok (a : α) : Sequential kind fun _ => .ok a :=
  const fun h => by injection h

theorem error {e : Refusal} (h : e ≠ tooDeep) :
    Sequential kind fun _ => (.error e : Except Refusal α) :=
  const fun he => h (by injection he)

theorem misread (path : String) (t : FieldType) (j : Json) :
    Sequential kind fun _ => Record.misread path t j :=
  error fun h => by injection h

theorem ask {r : Reference} (k : DocClass) (h : kind r) :
    Sequential kind fun f => f r.path k r.id :=
  ⟨fun _ _ hg => hg r.path k r.id, fun _ hf => ⟨r, k, h, hf, fun _ _ hg => hg⟩⟩

theorem mono {kind' : Reference → Prop} (h : Sequential kind reading)
    (hk : ∀ r, kind r → kind' r) : Sequential kind' reading := by
  refine ⟨h.deeper, fun f hf => ?_⟩
  obtain ⟨r, k, hr, hstops⟩ := h.stops f hf
  exact ⟨r, k, hk r hr, hstops⟩

theorem bind (h : Sequential kind reading) (hn : ∀ a, Sequential kind (next a)) :
    Sequential kind fun f => reading f >>= fun a => next a f := by
  refine ⟨fun f g hg => ?_, fun f hf => ?_⟩
  · rcases h.deeper f g hg with hdeep | hsame
    · exact .inl (by rw [hdeep]; rfl)
    · rw [hsame]
      cases reading f with
      | error e => exact .inr rfl
      | ok a => exact (hn a).deeper f g hg
  · cases ha : reading f with
    | error e =>
      rw [ha] at hf
      injection hf with he
      obtain ⟨r, k, hr, hstop, hstops⟩ := h.stops f (he ▸ ha)
      exact ⟨r, k, hr, hstop, fun g hg hgr => by rw [hstops g hg hgr]; rfl⟩
    | ok a =>
      rw [ha] at hf
      obtain ⟨r, k, hr, hstop, hstops⟩ := (hn a).stops f hf
      refine ⟨r, k, hr, hstop, fun g hg hgr => ?_⟩
      rcases h.deeper f g hg with hdeep | hsame
      · rw [ha] at hdeep
        cases hdeep
      · rw [hsame, ha]
        exact hstops g hg hgr

theorem map {F : α → β} (h : Sequential kind reading) :
    Sequential kind fun f => (reading f).map F := by
  have hbind : (fun f => (reading f).map F) = fun f => reading f >>= fun a => .ok (F a) := by
    funext f
    cases reading f <;> rfl
  exact hbind ▸ h.bind fun a => ok (F a)

theorem readItems {one : Resolver → Json → Except Refusal Value} :
    ∀ {js : List Json}, (∀ j ∈ js, Sequential kind fun f => one f j) →
      Sequential kind fun f => Record.readItems (one f) js
  | [], _ => ok []
  | j :: js, h => by
    obtain ⟨hj, hjs⟩ := List.forall_mem_cons.1 h
    exact hj.bind fun _ => (readItems hjs).bind fun _ => ok _

theorem readMembers {one : Resolver → Json → Except Refusal Value} :
    ∀ {ms : List (String × Json)}, (∀ m ∈ ms, Sequential kind fun f => one f m.2) →
      Sequential kind fun f => Record.readMembers (one f) ms
  | [], _ => ok []
  | (k, j) :: ms, h => by
    obtain ⟨hj, hms⟩ := List.forall_mem_cons.1 h
    exact hj.bind fun _ => (readMembers hms).bind fun _ => ok _

theorem readFields {one : Resolver → String → Json → Except Refusal Value} {path : String} :
    ∀ {ms : List (String × Json)},
      (∀ m ∈ ms, Sequential kind fun f => one f (Path.join path m.1) m.2) →
        Sequential kind fun f => Record.readFields (one f) path ms
  | [], _ => ok []
  | (name, j) :: ms, h => by
    obtain ⟨hj, hms⟩ := List.forall_mem_cons.1 h
    exact hj.bind fun _ => (readFields hms).bind fun _ => ok _

end Sequential

/-- A stored document value is the reference that stands under `$oid`; anything else there is null
or misread. -/
theorem readAs_document (path : String) (k : DocClass) (j : Json) :
    (∃ id, j.get? "$oid" = some (.string id) ∧
      ∀ f, readAs f path (.document k) j = f k id) ∨
    ∃ x, x ≠ .error tooDeep ∧ ∀ f, readAs f path (.document k) j = x := by
  have hmisread : Record.misread path (.document k) j ≠ .error tooDeep :=
    fun h => by injection h with h; injection h
  cases j with
  | null => exact .inr ⟨.ok .null, fun h => by injection h, fun f => rfl⟩
  | object members =>
    cases hoid : (Json.object members).get? "$oid" with
    | none => exact .inr ⟨_, hmisread, fun f => by simp only [readAs, hoid]⟩
    | some held =>
      cases held with
      | string id => exact .inl ⟨id, rfl, fun f => by simp only [readAs, hoid]⟩
      | _ => exact .inr ⟨_, hmisread, fun f => by simp only [readAs, hoid]⟩
  | _ => exact .inr ⟨_, hmisread, fun f => rfl⟩

mutual

theorem sequential_readAs (path : String) : ∀ (t : FieldType) (j : Json),
    Sequential (RefersAt path t j) fun f => readAs (f path) path t j
  | .scalar k, j => by
    have hread : ∀ f, readAs f path (.scalar k) j ≠ .error tooDeep := by
      intro f
      unfold readAs
      split
      · nofun
      · split <;> nofun
    refine ⟨fun f g _ => .inr ?_, fun f hf => absurd hf (hread (f path))⟩
    cases j <;> rfl
  | .list t, j => by
    cases j with
    | null => exact .ok Value.null
    | array items =>
      exact (Sequential.readItems fun j hj =>
        (sequential_readAs path t j).mono fun r ⟨hr, k, hk⟩ => ⟨hr, k, .item hj hk⟩).map
    | _ => exact .misread path (.list t) _
  | .dict t, j => by
    cases j with
    | null => exact .ok Value.null
    | object members =>
      exact (Sequential.readMembers fun m hm =>
        (sequential_readAs path t m.2).mono fun r ⟨hr, k, hk⟩ => ⟨hr, k, .entry hm hk⟩).map
    | _ => exact .misread path (.dict t) _
  | .tuple ts, j => by
    cases j with
    | null => exact .ok Value.null
    | array items =>
      by_cases hl : items.length = ts.length
      · have hread : (fun f : Resolver => readAs (f path) path (.tuple ts) (.array items)) =
            fun f => (readEach (f path) path ts items).map .tuple := by
          funext f
          rw [readAs, if_pos hl]
        rw [hread]
        exact ((sequential_readEach path ts items).mono fun r ⟨hr, p, hp, k, hk⟩ =>
          ⟨hr, k, .position hp hk⟩).map
      · have hread : (fun f : Resolver => readAs (f path) path (.tuple ts) (.array items)) =
            fun _ => misread path (.tuple ts) (.array items) := by
          funext f
          rw [readAs, if_neg hl]
        exact hread ▸ .misread path (.tuple ts) (.array items)
    | _ => exact .misread path (.tuple ts) _
  | .document k, j => by
    rcases readAs_document path k j with ⟨id, hid, hread⟩ | ⟨x, hx, hread⟩
    · have hread : (fun f : Resolver => readAs (f path) path (.document k) j) =
          fun f => f path k id := funext fun f => hread (f path)
      exact hread ▸ .ask (r := ⟨path, id⟩) k ⟨rfl, k, .document hid⟩
    · have hread : (fun f : Resolver => readAs (f path) path (.document k) j) = fun _ => x :=
        funext fun f => hread (f path)
      exact hread ▸ .const hx

theorem sequential_readEach (path : String) : ∀ (ts : List FieldType) (js : List Json),
    Sequential (RefersEach path ts js) fun f => readEach (f path) path ts js
  | [], _ => .ok []
  | _ :: _, [] => .ok []
  | t :: ts, j :: js => by
    have hfirst : Sequential (RefersEach path (t :: ts) (j :: js))
        fun f => readAs (f path) path t j :=
      (sequential_readAs path t j).mono fun r ⟨hr, k, hk⟩ =>
        ⟨hr, (t, j), List.mem_cons_self, k, hk⟩
    have hrest : Sequential (RefersEach path (t :: ts) (j :: js))
        fun f => readEach (f path) path ts js :=
      (sequential_readEach path ts js).mono fun r ⟨hr, p, hp, hk⟩ =>
        ⟨hr, p, List.mem_cons_of_mem _ hp, hk⟩
    exact hfirst.bind fun _ => hrest.bind fun _ => .ok _

end

/-- The members of a document are read one after the other, each at its own path. -/
theorem sequential_members (s : Schema) (path : String) (members : List (String × Json)) :
    Sequential (MembersRefer s path members)
      fun f => readFields (fun p j => readAs (f p) p (declared s p) j) path members :=
  .readFields fun m hm => (sequential_readAs _ _ m.2).mono fun _ hr => ⟨m, hm, hr⟩

/-! ## Resolving references -/

section Resolving
variable {catalog : Catalog} {s : Schema} {c : Collections} {n m : Nat} {r r' : Reference}

/-- What stands in the document of a reference: its identifier and its fields. -/
def contents (catalog : Catalog) (s : Schema) (c : Collections) (r : Reference) (f : Resolver) :
    Except Refusal (Uuid × List (String × Value)) := do
  let collection ← collectionFor c r.path
  match catalog.findOne collection "_id" (.string r.id) with
  | none => throw (.store (.documentNotFound collection r.id))
  | some document =>
    match document with
    | .object members => do
      let uuid ← identifier r.path document
      let fields ← readFields (fun p j => readAs (f p) p (declared s p) j) r.path
        (ownMembers members)
      return (uuid, fields)
    | other => throw (.mismatch r.path "document" (storedKind other))

/-- A reference is resolved to what stands in its document, where those inside it may be followed
one step less deep. -/
theorem follow_succ (n : Nat) (root : DocClass) (r : Reference) :
    follow catalog s c (n + 1) r.path root r.id =
      (contents catalog s c r (follow catalog s c n)).map fun d =>
        .document d.1 root.name d.2 := by
  rw [follow, contents]
  cases collectionFor c r.path with
  | error e => rfl
  | ok collection =>
    rw [ok_bind, ok_bind]
    cases catalog.findOne collection "_id" (.string r.id) with
    | none => rfl
    | some document =>
      cases document with
      | object members =>
        simp only
        cases identifier r.path (.object members) with
        | error e => rfl
        | ok uuid =>
          rw [ok_bind, ok_bind]
          cases readFields (fun p j => readAs (follow catalog s c n p) p (declared s p) j) r.path
            (ownMembers members) <;> rfl
      | _ => rfl

theorem identifier_ne_tooDeep (path : String) (document : Json) :
    identifier path document ≠ .error tooDeep := by
  unfold identifier
  split <;> nofun

/-- Resolving a reference asks for those to which it leads. -/
theorem sequential_contents (r : Reference) :
    Sequential (LeadsTo catalog s c r) (contents catalog s c r) := by
  cases hname : c.get? r.path with
  | none =>
    have hread : contents catalog s c r = fun _ =>
        .error (.unresolvable r.path "no backing collection for document value") := by
      funext f
      rw [contents, collectionFor, hname]
      rfl
    exact hread ▸ .error fun h => by injection h
  | some name =>
    cases hfound : catalog.findOne name "_id" (.string r.id) with
    | none =>
      have hread : contents catalog s c r = fun _ =>
          .error (.store (.documentNotFound name r.id)) := by
        funext f
        rw [contents, collectionFor, hname, ok_bind, hfound]
        rfl
      exact hread ▸ .error fun h => by injection h with h; injection h
    | some document =>
      by_cases hobject : ∃ members, document = .object members
      · obtain ⟨members, rfl⟩ := hobject
        have hread : contents catalog s c r = fun f =>
            identifier r.path (.object members) >>= fun uuid =>
              readFields (fun p j => readAs (f p) p (declared s p) j) r.path
                (ownMembers members) >>= fun fields => .ok (uuid, fields) := by
          funext f
          rw [contents, collectionFor, hname, ok_bind, hfound]
          rfl
        rw [hread]
        exact (Sequential.const (identifier_ne_tooDeep _ _)).bind fun _ =>
          ((sequential_members s r.path _).mono fun _ hr =>
            ⟨members, ⟨name, hname, hfound⟩, hr⟩).bind fun _ => .ok _
      · have hread : contents catalog s c r = fun _ =>
            .error (.mismatch r.path "document" (storedKind document)) := by
          funext f
          rw [contents, collectionFor, hname, ok_bind, hfound]
          cases document with
          | object members => exact absurd ⟨members, rfl⟩ hobject
          | _ => rfl
        exact hread ▸ .error fun h => by injection h

variable (catalog s c) in
theorem sequential_follow_succ (k : DocClass) (r : Reference) :
    Sequential (LeadsTo catalog s c r) fun f =>
      (contents catalog s c r f).map fun d => Value.document d.1 k.name d.2 :=
  (sequential_contents r).map

/-- References are resolved no differently if they may be followed deeper, unless the depth was
the reason for a refusal. -/
theorem follow_extends : ∀ n, Resolver.Extends (follow catalog s c (n + 1)) (follow catalog s c n)
  | 0 => fun _ _ _ => .inl rfl
  | n + 1 => fun path k id => by
    have hdeeper := (sequential_follow_succ catalog s c k ⟨path, id⟩).deeper _ _
      (follow_extends n)
    rwa [← follow_succ, ← follow_succ] at hdeeper

theorem follow_extends_of_le (h : n ≤ m) :
    Resolver.Extends (follow catalog s c m) (follow catalog s c n) := by
  induction h with
  | refl => exact fun _ _ _ => .inr rfl
  | step _ ih =>
    intro path k id
    rcases ih path k id with hdeep | hsame
    · exact .inl hdeep
    · exact hsame ▸ follow_extends _ path k id

variable (catalog s c) in
/-- The reference cannot be resolved within a depth. -/
def Exceeds (n : Nat) (r : Reference) : Prop :=
  ∀ k, follow catalog s c n r.path k r.id = .error tooDeep

/-- Of which class the document is makes no difference to that. -/
theorem exceeds_of_follow {k : DocClass}
    (h : follow catalog s c n r.path k r.id = .error tooDeep) : Exceeds catalog s c n r := by
  intro k'
  cases n with
  | zero => rfl
  | succ n =>
    rw [follow_succ] at h ⊢
    cases hcontents : contents catalog s c r (follow catalog s c n) with
    | error e =>
      rw [hcontents] at h
      injection h with h
      rw [h]
      rfl
    | ok d =>
      rw [hcontents] at h
      cases h

theorem Exceeds.of_le (h : Exceeds catalog s c m r) (hle : n ≤ m) : Exceeds catalog s c n r := by
  intro k
  rcases follow_extends_of_le hle r.path k r.id with hdeep | hsame
  · exact hdeep
  · exact hsame ▸ h k

/-- A reference that exceeds a depth leads to one that exceeds what is left of it, and that is so
at every greater depth too. -/
theorem Exceeds.exists_leads (h : Exceeds catalog s c (n + 1) r) :
    ∃ r', LeadsTo catalog s c r r' ∧ Exceeds catalog s c n r' ∧
      ∀ m, n ≤ m → Exceeds catalog s c m r' → Exceeds catalog s c (m + 1) r := by
  have hdeep := (follow_succ n ⟨"", [], []⟩ r).symm.trans (h _)
  obtain ⟨r', k', hleads, hstop, hstops⟩ := (sequential_follow_succ catalog s c _ r).stops _ hdeep
  refine ⟨r', hleads, exceeds_of_follow hstop, fun m hm hr' => ?_⟩
  exact exceeds_of_follow ((follow_succ m _ r).trans
    (hstops _ (follow_extends_of_le hm) (hr' k')))

/-! ## Below the paths of fields -/

theorem LeadsTo.path_eq (h : LeadsTo catalog s c r r') :
    ∃ name field, c.get? r.path = some name ∧ r'.path = Path.join r.path field := by
  obtain ⟨_, ⟨name, hname, -⟩, m, -, hpath, -⟩ := h
  exact ⟨name, m.1, hname, hpath⟩

/-- The paths besides the root that have collections. -/
def places (c : Collections) : List String := c.keys.filter fun path => path ≠ ""

theorem room_le_places {path : String} (hp : path ≠ "") : room c path ≤ (places c).length := by
  rw [places, ← List.countP_eq_length_filter]
  refine List.countP_mono_left fun k _ hk => ?_
  simp only [decide_eq_true_eq] at hk ⊢
  rintro rfl
  rw [String.length_empty, Nat.le_zero, String.length_eq_zero_iff] at hk
  exact hp hk

theorem room_pos {path name : String} (h : c.get? path = some name) : 0 < room c path :=
  List.countP_pos_iff.2 ⟨path, Keyed.mem_keys.2 ⟨name, h⟩, by simp⟩

/-- A reference below a field is resolved within a depth of as many steps as there is room. -/
theorem not_exceeds_of_room : ∀ {n : Nat} {r : Reference}, r.path ≠ "" → room c r.path < n →
    ¬ Exceeds catalog s c n r
  | 0, _, _, hroom, _ => absurd hroom (Nat.not_lt_zero _)
  | n + 1, r, hp, hroom, h => by
    obtain ⟨r', hleads, hr', -⟩ := h.exists_leads
    obtain ⟨name, field, hname, hpath⟩ := hleads.path_eq
    have hless := room_join hp hname field
    rw [← hpath] at hless
    exact not_exceeds_of_room (hpath ▸ join_ne_root hp field) (by omega) hr'

/-- Where documents are fetched one below the other, below a field, there are no more of them than
there is room. -/
theorem length_le_room : ∀ {refs : List Reference} {r : Reference},
    (r :: refs).IsChain (LeadsTo catalog s c) → (∀ r' ∈ r :: refs, ∃ d, Fetches catalog c r' d) →
      r.path ≠ "" → (r :: refs).length ≤ room c r.path
  | [], r, _, hfetched, _ => by
    obtain ⟨_, _, hname, -⟩ := hfetched r List.mem_cons_self
    exact room_pos hname
  | r' :: refs, r, hchain, hfetched, hp => by
    obtain ⟨hleads, hrest⟩ := List.isChain_cons_cons.1 hchain
    obtain ⟨name, field, hname, hpath⟩ := hleads.path_eq
    have hless := room_join hp hname field
    rw [← hpath] at hless
    have hlength := length_le_room hrest (List.forall_mem_cons.1 hfetched).2
      (hpath ▸ join_ne_root hp field)
    rw [List.length_cons]
    omega

/-- Of documents that are fetched one below the other, however they begin, no more lie below fields
than there are paths of fields with collections. -/
theorem length_filter_le_places : ∀ refs : List Reference, refs.IsChain (LeadsTo catalog s c) →
    (∀ r ∈ refs, ∃ d, Fetches catalog c r d) →
      (refs.filter fun r => r.path ≠ "").length ≤ (places c).length
  | [], _, _ => Nat.zero_le _
  | r :: refs, hchain, hfetched => by
    by_cases hp : r.path = ""
    · have hrest := length_filter_le_places refs hchain.of_cons
        (List.forall_mem_cons.1 hfetched).2
      simpa [hp] using hrest
    · calc ((r :: refs).filter fun r => r.path ≠ "").length
          ≤ (r :: refs).length := List.length_filter_le _ _
        _ ≤ room c r.path := length_le_room hchain hfetched hp
        _ ≤ (places c).length := room_le_places hp

/-! ## Below the root -/

/-- How many documents there are in the collection of the root. -/
def rootCount (catalog : Catalog) (c : Collections) : Nat :=
  (((c.get? "").bind fun name => catalog.collections.get? name).map
    fun state => state.documents.size).getD 0

theorem followLimit_eq : followLimit catalog c = c.size + rootCount catalog c + 1 := rfl

theorem Exceeds.fetches (h : Exceeds catalog s c (n + 1) r) : ∃ d, Fetches catalog c r d := by
  obtain ⟨_, ⟨_, hfetched, -⟩, -⟩ := h.exists_leads
  exact ⟨_, hfetched⟩

/-- Distinct identifiers under which documents of the root are found are no more than there are
such documents. -/
theorem length_le_rootCount {ids : List String} (hn : ids.Nodup)
    (h : ∀ id ∈ ids, ∃ d, Fetches catalog c ⟨"", id⟩ d) : ids.length ≤ rootCount catalog c := by
  cases ids with
  | nil => exact Nat.zero_le _
  | cons id ids =>
    obtain ⟨_, name, hname, hfound⟩ := h id List.mem_cons_self
    obtain ⟨state, _, hstate, -⟩ := Catalog.mem_of_findOne hfound
    have hcount : rootCount catalog c = state.documents.values.length := by
      simp only at hname
      simp [rootCount, hname, hstate, Keyed.size, Keyed.values]
    have hsubset : id :: ids ⊆ state.documents.values.filterMap fun d =>
        d.get? "_id" >>= Json.asString? := by
      intro id' hid'
      obtain ⟨d, name', hname', hfound'⟩ := h id' hid'
      obtain rfl : name = name' := Option.some.inj (hname.symm.trans hname')
      obtain ⟨state', key, hstate', hd⟩ := Catalog.mem_of_findOne hfound'
      obtain rfl : state = state' := Option.some.inj (hstate.symm.trans hstate')
      refine List.mem_filterMap.2 ⟨d, Keyed.mem_values.2 ⟨key, hd⟩, ?_⟩
      rw [Catalog.get?_of_findOne hfound']
      rfl
    calc (id :: ids).length
        ≤ (state.documents.values.filterMap fun d => d.get? "_id" >>= Json.asString?).length :=
          (List.subperm_of_subset hn hsubset).length_le
      _ ≤ state.documents.values.length := List.length_filterMap_le _ _
      _ = rootCount catalog c := hcount.symm

theorem places_lt_size {name : String} (h : c.get? "" = some name) :
    (places c).length < c.size := by
  have hkeys : c.keys.length = c.size := List.length_map _
  rw [← hkeys, places]
  exact List.length_filter_lt_length_iff_exists.2
    ⟨"", Keyed.mem_keys.2 ⟨name, h⟩, by simp⟩

variable (catalog s c) in
/-- A reference that exceeds a depth leads to another that exceeds a lesser one, and exceeds any
depth at which the other exceeds what is left of it. -/
structure Drags (n m : Nat) (r r' : Reference) : Prop where
  lt : m < n
  leads : Relation.TransGen (LeadsTo catalog s c) r r'
  back : ∀ N, m ≤ N → Exceeds catalog s c N r' → Exceeds catalog s c (N + (n - m)) r

theorem Drags.step {r'' : Reference} (h : Drags catalog s c n (m + 1) r r')
    (hleads : LeadsTo catalog s c r' r'')
    (hback : ∀ N, m ≤ N → Exceeds catalog s c N r'' → Exceeds catalog s c (N + 1) r') :
    Drags catalog s c n m r r'' := by
  refine ⟨Nat.lt_of_succ_lt h.lt, h.leads.tail hleads, fun N hN hr'' => ?_⟩
  have hr := h.back (N + 1) (by omega) (hback N hN hr'')
  have hlt := h.lt
  exact (show N + 1 + (n - (m + 1)) = N + (n - m) by omega) ▸ hr

/-- A reference that leads back to itself in this way cannot be resolved at all. -/
theorem Drags.exceeds (h : Drags catalog s c n m r r) (hr : Exceeds catalog s c m r) :
    ∀ N, Exceeds catalog s c N r := by
  intro N
  induction N using Nat.strongRecOn with
  | _ N ih =>
    have hlt := h.lt
    by_cases hN : N ≤ n
    · have hn := h.back m (Nat.le_refl _) hr
      exact hn.of_le (by omega)
    · have hback := h.back (N - (n - m)) (by omega) (ih _ (by omega))
      exact (show N - (n - m) + (n - m) = N by omega) ▸ hback

/-- A document of the root that runs in a circle: a reference to it leads back to itself. -/
def Circles (catalog : Catalog) (s : Schema) (c : Collections) (id : String) : Prop :=
  Relation.TransGen (LeadsTo catalog s c) ⟨"", id⟩ ⟨"", id⟩

/-- A reference to a document of the root that exceeds so great a depth exceeds every depth, and
leads into a circle.  The induction goes down the references that follow one another, and keeps
those that it has passed with the depths at which it has passed them. -/
theorem circle_of_exceeds : ∀ {n : Nat} {id : String} {seen : List (Nat × String)},
    Exceeds catalog s c n ⟨"", id⟩ → followLimit catalog c ≤ n + seen.length →
      (seen.map Prod.snd).Nodup → (∀ e ∈ seen, ∃ d, Fetches catalog c ⟨"", e.2⟩ d) →
        (∀ e ∈ seen, Drags catalog s c e.1 n ⟨"", e.2⟩ ⟨"", id⟩) →
          (∀ N, Exceeds catalog s c N ⟨"", id⟩) ∧ ∃ id',
            Relation.ReflTransGen (LeadsTo catalog s c) ⟨"", id⟩ ⟨"", id'⟩ ∧
              Circles catalog s c id' := by
  intro n id seen h hlimit hnodup hfetched hdrags
  by_cases hseen : id ∈ seen.map Prod.snd
  · obtain ⟨e, he, rfl⟩ := List.mem_map.1 hseen
    exact ⟨(hdrags e he).exceeds h, e.2, .refl, (hdrags e he).leads⟩
  · rw [followLimit_eq] at hlimit
    cases n with
    | zero =>
      have hcount := length_le_rootCount hnodup (List.forall_mem_map.2 hfetched)
      rw [List.length_map] at hcount
      omega
    | succ n =>
      have hnodup' : (((n + 1, id) :: seen).map Prod.snd).Nodup := List.nodup_cons.2 ⟨hseen, hnodup⟩
      have hfetched' : ∀ e ∈ (n + 1, id) :: seen, ∃ d, Fetches catalog c ⟨"", e.2⟩ d :=
        List.forall_mem_cons.2 ⟨h.fetches, hfetched⟩
      have hcount := length_le_rootCount hnodup' (List.forall_mem_map.2 hfetched')
      rw [List.length_map, List.length_cons] at hcount
      obtain ⟨⟨path, id'⟩, hleads, hr', hback⟩ := h.exists_leads
      obtain ⟨name, _, hname, -⟩ := hleads.path_eq
      by_cases hp : path = ""
      · subst hp
        have hdrags' : ∀ e ∈ (n + 1, id) :: seen,
            Drags catalog s c e.1 n ⟨"", e.2⟩ ⟨"", id'⟩ := by
          refine List.forall_mem_cons.2 ⟨⟨Nat.lt_succ_self n, .single hleads, fun N hN hN' => ?_⟩,
            fun e he => (hdrags e he).step hleads hback⟩
          exact (show N + 1 = N + (n + 1 - n) by omega) ▸ hback N hN hN'
        obtain ⟨hall, id'', hpath, hcircle⟩ := circle_of_exceeds hr'
          (by rw [followLimit_eq, List.length_cons]; omega) hnodup' hfetched' hdrags'
        refine ⟨fun N => ?_, id'', .head hleads hpath, hcircle⟩
        exact (hback (max N n) (Nat.le_max_right _ _) (hall _)).of_le (by omega)
      · -- Below a field there is not so much room.
        have hroom := room_le_places (c := c) hp
        have hplaces := places_lt_size hname
        exact absurd hr' (not_exceeds_of_room hp (by simp only; omega))

/-! ## Whole records -/

/-- Takes over the members of a stored root document where references are resolved in this way. -/
def takeWith (s : Schema) (f : Resolver) : List (String × Json) → Record → Except Refusal Record
  | [], record => .ok record
  | (name, j) :: rest, record =>
    match s.get? name with
    | none => takeWith s f rest record
    | some field => do
      let type ← field.requireType name
      let v ← readAs (f name) name type j
      let record ← if v.isNull then pure record else record.set s name v
      takeWith s f rest record

theorem takeFields_eq : ∀ (members : List (String × Json)) (record : Record),
    takeFields catalog s c members record =
      takeWith s (follow catalog s c (followLimit catalog c)) members record
  | [], _ => rfl
  | (name, j) :: rest, record => by
    rw [takeFields, takeWith]
    cases s.get? name with
    | none => exact takeFields_eq rest record
    | some field => simp only [takeFields_eq rest]

/-- The record that a stored root document holds, where references are followed to a depth. -/
def ofDocumentWithin (catalog : Catalog) (s : Schema) (c : Collections) (root : DocClass)
    (n : Nat) : Json → Except Refusal Record
  | .object members => do
    let id ← identifier "" (.object members)
    takeWith s (follow catalog s c n) (ownMembers members) (.empty id root)
  | other => .error (.mismatch "" "document" (storedKind other))

variable {root : DocClass} {document : Json}

theorem ofDocument_eq : ofDocument catalog s c root document =
    ofDocumentWithin catalog s c root (followLimit catalog c) document := by
  cases document with
  | object members => simp only [ofDocument, ofDocumentWithin, takeFields_eq]
  | _ => rfl

/-- Taking over the members of a document asks for the references that they hold. -/
theorem sequential_takeWith : ∀ (members : List (String × Json)) (record : Record),
    Sequential (MembersRefer s "" members) fun f => takeWith s f members record
  | [], record => .ok record
  | (name, j) :: rest, record => by
    have hrest : ∀ record', Sequential (MembersRefer s "" ((name, j) :: rest))
        fun f => takeWith s f rest record' := fun record' =>
      (sequential_takeWith rest record').mono fun r ⟨m, hm, hr⟩ =>
        ⟨m, List.mem_cons_of_mem _ hm, hr⟩
    cases hfield : s.get? name with
    | none =>
      have hread : (fun f => takeWith s f ((name, j) :: rest) record) =
          fun f => takeWith s f rest record := by
        funext f
        rw [takeWith, hfield]
      exact hread ▸ hrest record
    | some field =>
      cases htype : field.type with
      | none =>
        have hread : (fun f => takeWith s f ((name, j) :: rest) record) =
            fun _ => .error (.missingType name) := by
          funext f
          simp [takeWith, hfield, Field.requireType, htype]
        exact hread ▸ .error fun h => by injection h
      | some t =>
        have hdeclared : declared s name = t := by simp [declared, hfield, htype]
        have hread : (fun f => takeWith s f ((name, j) :: rest) record) = fun f =>
            readAs (f name) name t j >>= fun v =>
              if v.isNull then takeWith s f rest record
              else record.set s name v >>= fun record' => takeWith s f rest record' := by
          funext f
          simp only [takeWith, hfield, Field.requireType, htype, ok_bind, pure_eq_ok]
        rw [hread]
        refine ((sequential_readAs name t j).mono fun r hr => ?_).bind fun v => ?_
        · exact ⟨(name, j), List.mem_cons_self, hdeclared.symm ▸ hr⟩
        · cases v.isNull with
          | true => exact hrest record
          | false => exact (Sequential.const (set_ne_tooDeep record s name v)).bind hrest

/-- A reference with which the reading of a document starts. -/
def Starts (s : Schema) (document : Json) (r : Reference) : Prop :=
  ∃ members, document = .object members ∧ MembersRefer s "" (ownMembers members) r

variable (catalog s c) in
theorem sequential_ofDocument (root : DocClass) (document : Json) :
    ∃ reading : Resolver → Except Refusal Record, Sequential (Starts s document) reading ∧
      ∀ n, ofDocumentWithin catalog s c root n document = reading (follow catalog s c n) := by
  cases document with
  | object members =>
    refine ⟨fun f => identifier "" (.object members) >>= fun id =>
      takeWith s f (ownMembers members) (.empty id root), ?_, fun n => rfl⟩
    exact (Sequential.const (identifier_ne_tooDeep _ _)).bind fun id =>
      (sequential_takeWith _ _).mono fun r hr => ⟨members, rfl, hr⟩
  | _ =>
    exact ⟨fun _ => .error (.mismatch "" "document" _), .error fun h => by injection h,
      fun n => rfl⟩

/-- A deeper reading gives the same record, unless the depth was the reason for a refusal. -/
theorem ofDocumentWithin_of_le (h : n ≤ m) :
    ofDocumentWithin catalog s c root n document = .error tooDeep ∨
      ofDocumentWithin catalog s c root m document =
        ofDocumentWithin catalog s c root n document := by
  obtain ⟨reading, hsequential, hwithin⟩ := sequential_ofDocument catalog s c root document
  rw [hwithin, hwithin]
  exact hsequential.deeper _ _ (follow_extends_of_le h)

/-- A reading that is refused for its depth at the limit is refused so at every greater depth, and
has followed a member without a name into a circle. -/
theorem circle_of_tooDeep (h : ofDocument catalog s c root document = .error tooDeep) :
    (∀ n, followLimit catalog c ≤ n →
      ofDocumentWithin catalog s c root n document = .error tooDeep) ∧
      ∃ r id, Starts s document r ∧ r.path = "" ∧
        Relation.ReflTransGen (LeadsTo catalog s c) r ⟨"", id⟩ ∧ Circles catalog s c id := by
  obtain ⟨reading, hsequential, hwithin⟩ := sequential_ofDocument catalog s c root document
  rw [ofDocument_eq, hwithin] at h
  obtain ⟨⟨path, id⟩, k, hstarts, hstop, hstops⟩ := hsequential.stops _ h
  have hexceeds : Exceeds catalog s c (followLimit catalog c) ⟨path, id⟩ :=
    exceeds_of_follow hstop
  by_cases hp : path = ""
  · subst hp
    have hlimit : followLimit catalog c ≤
        followLimit catalog c + ([] : List (Nat × String)).length := Nat.le_refl _
    obtain ⟨hall, id', hleads, hcircle⟩ :=
      circle_of_exceeds hexceeds hlimit List.nodup_nil nofun nofun
    refine ⟨fun n hn => ?_, _, id', hstarts, rfl, hleads, hcircle⟩
    rw [hwithin]
    exact hstops _ (follow_extends_of_le hn) (hall n k)
  · refine absurd hexceeds (not_exceeds_of_room hp ?_)
    rw [followLimit_eq]
    exact Nat.lt_succ_of_le (Nat.le_trans (room_le_size path) (Nat.le_add_right _ _))

/-- To follow references deeper than the limit changes nothing. -/
theorem ofDocumentWithin_of_limit_le (h : followLimit catalog c ≤ n) :
    ofDocumentWithin catalog s c root n document = ofDocument catalog s c root document := by
  rcases ofDocumentWithin_of_le h with hdeep | hsame
  · rw [← ofDocument_eq] at hdeep
    rw [(circle_of_tooDeep hdeep).1 n h, hdeep]
  · rw [hsame, ofDocument_eq]

/-- A reading that has ended gives the record. -/
theorem ofDocument_of_within
    (h : ofDocumentWithin catalog s c root n document ≠ .error tooDeep) :
    ofDocument catalog s c root document = ofDocumentWithin catalog s c root n document := by
  rcases ofDocumentWithin_of_le (Nat.le_max_left n (followLimit catalog c)) with hdeep | hsame
  · exact absurd hdeep h
  · rw [← ofDocumentWithin_of_limit_le (Nat.le_max_right n _), hsame]

/-- The reading of a stored root document comes to an end: there is a depth for which it is not
refused. -/
def Ends (catalog : Catalog) (s : Schema) (c : Collections) (root : DocClass) (document : Json) :
    Prop :=
  ∃ n, ofDocumentWithin catalog s c root n document ≠ .error tooDeep

/-- What becomes of the reading of a stored root document.  The depth to which references are
followed makes no difference once it has ended, or beyond the limit; it ends, or it follows
members without a name into a circle of documents of the root.  Of the documents that are fetched
one below the other no more lie below fields than there are paths of fields with collections.  A
document in which no member is without a name has nothing to do with others of the root. -/
structure Concludes (catalog : Catalog) (s : Schema) (c : Collections) (root : DocClass)
    (document : Json) : Prop where
  result : ∀ n, ofDocumentWithin catalog s c root n document ≠ .error tooDeep →
    ofDocument catalog s c root document = ofDocumentWithin catalog s c root n document
  limit : ∀ n, followLimit catalog c ≤ n →
    ofDocumentWithin catalog s c root n document = ofDocument catalog s c root document
  ends : Ends catalog s c root document ∨ ∃ r id, Starts s document r ∧ r.path = "" ∧
    Relation.ReflTransGen (LeadsTo catalog s c) r ⟨"", id⟩ ∧ Circles catalog s c id
  chains : ∀ refs : List Reference, refs.IsChain (LeadsTo catalog s c) →
    (∀ r ∈ refs, ∃ d, Fetches catalog c r d) →
    (refs.filter fun r => r.path ≠ "").length ≤ (places c).length
  named : (∀ members, document = .object members → ∀ m ∈ members, m.1 ≠ "") →
    Ends catalog s c root document ∧ ∀ r refs, Starts s document r →
      (r :: refs).IsChain (LeadsTo catalog s c) → (∀ r' ∈ r :: refs, ∃ d, Fetches catalog c r' d) →
      (r :: refs).length ≤ (places c).length

/-- Loading a record ends, unless members without a name refer to one another in a circle. -/
theorem ofDocument_concludes (catalog : Catalog) (s : Schema) (c : Collections) (root : DocClass)
    (document : Json) : Concludes catalog s c root document := by
  have hends : Ends catalog s c root document ∨ ∃ r id, Starts s document r ∧ r.path = "" ∧
      Relation.ReflTransGen (LeadsTo catalog s c) r ⟨"", id⟩ ∧ Circles catalog s c id := by
    by_cases hdeep : ofDocument catalog s c root document = .error tooDeep
    · exact .inr (circle_of_tooDeep hdeep).2
    · exact .inl ⟨followLimit catalog c, ofDocument_eq ▸ hdeep⟩
  refine ⟨fun n hn => ofDocument_of_within hn, fun n hn => ofDocumentWithin_of_limit_le hn, hends,
    length_filter_le_places, fun hnamed => ?_⟩
  -- The reading starts below a field, and stays there.
  have hstarts : ∀ r, Starts s document r → r.path ≠ "" := by
    rintro r ⟨members, hmembers, m, hm, hr, -⟩
    exact hr ▸ hnamed members hmembers m (List.mem_of_mem_filter hm)
  refine ⟨hends.resolve_right ?_, fun r refs hr hchain hfetched => ?_⟩
  · rintro ⟨r, _, hr, hp, -⟩
    exact hstarts r hr hp
  · exact Nat.le_trans (length_le_room hchain hfetched (hstarts r hr))
      (room_le_places (hstarts r hr))

section Sample

/-- A document of the root whose member without a name refers to the document itself. -/
def selfReferring : Json :=
  .object [("", .object [("$oid", .string (Uuid.ofNat 0).text)]),
    ("_id", .string (Uuid.ofNat 0).text)]

def bareClass : DocClass := ⟨"Sample", [], []⟩

def bareCollections : Collections := .ofList [("", "sample")]

def circularCatalog : Catalog :=
  ⟨0, .ofList [("sample", { Collection.empty with
    documents := .ofList [((Uuid.ofNat 0).text, selfReferring)] })]⟩

/-- The reading of such a document does not end, and fetches it again and again, though there is
but one path with a collection. -/
theorem selfReferring_not_ends :
    bareClass.rootSchema.typeAt "" = .ok (.document bareClass) ∧
      circularCatalog.documentAt "sample" (Uuid.ofNat 0).text = some selfReferring ∧
      ¬ Ends circularCatalog bareClass.rootSchema bareCollections bareClass selfReferring ∧
      bareCollections.size = 1 ∧ ∀ n, ∃ refs : List Reference, refs.length = n ∧
        refs.IsChain (LeadsTo circularCatalog bareClass.rootSchema bareCollections) ∧
        ∀ r ∈ refs, ∃ d, Fetches circularCatalog bareCollections r d := by
  have hcheck : (match ofDocument circularCatalog bareClass.rootSchema bareCollections bareClass
      selfReferring with
    | .error e => decide (e = tooDeep)
    | .ok _ => false) = true := by
    decide +kernel
  have hdeep : ofDocument circularCatalog bareClass.rootSchema bareCollections bareClass
      selfReferring = .error tooDeep := by
    split at hcheck
    · rename_i e he
      rw [he, of_decide_eq_true hcheck]
    · cases hcheck
  have hfetched : Fetches circularCatalog bareCollections ⟨"", (Uuid.ofNat 0).text⟩
      selfReferring := ⟨"sample", rfl, rfl⟩
  have hleads : LeadsTo circularCatalog bareClass.rootSchema bareCollections
      ⟨"", (Uuid.ofNat 0).text⟩ ⟨"", (Uuid.ofNat 0).text⟩ :=
    ⟨_, hfetched, _, List.mem_cons_self, rfl, bareClass, .document rfl⟩
  refine ⟨rfl, rfl, fun ⟨n, hn⟩ => hn ((ofDocument_of_within hn).symm.trans hdeep), rfl,
    fun n => ⟨.replicate n ⟨"", (Uuid.ofNat 0).text⟩, List.length_replicate,
      List.isChain_replicate_of_rel n hleads, fun r hr => ?_⟩⟩
  rw [List.eq_of_mem_replicate hr]
  exact ⟨_, hfetched⟩

end Sample

end Resolving

end SchemaKeeper.Record
