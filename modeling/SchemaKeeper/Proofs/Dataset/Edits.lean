import SchemaKeeper.Proofs.Dataset.Merge

/-!
# What edits leave alone

An edit touches the live schema alone.  It never reaches the root, and what the client holds stays
what it last saw.
-/
namespace SchemaKeeper

namespace Dataset
variable {d d' : Dataset} {path : String}

theorem holding?_edited (s : Standing) : s.edited.holding? = s.holding? := by
  cases s <;> rfl

theorem checkEditable_ok (h : d.checkEditable path = .ok ()) : path ≠ "" := by
  unfold checkEditable at h
  split at h
  · cases h
  · split at h
    · cases h
    · assumption

theorem get?_prune (path q : String) (s : Schema) :
    (prune path s).get? q = if Path.isBelow path q then none else s.get? q := by
  rw [prune, Keyed.get?_filterKeys]
  cases Path.isBelow path q <;> rfl

/-- What is in a schema without a field was in it before. -/
theorem get?_of_removed {s : Schema} {q : String} {f : Field}
    (h : (prune path (s.erase path)).get? q = some f) : s.get? q = some f := by
  rw [get?_prune, Keyed.get?_erase] at h
  split at h
  · cases h
  · split at h
    · cases h
    · exact h

/-- What is in a schema with a field is this field, was in the schema before, or is what the type
unfolds into. -/
theorem get?_of_withField {s : Schema} {type : FieldType} {q : String} {f : Field}
    (h : (withField s path type).get? q = some f) :
    (path = q ∧ f = .ofPath path (some type)) ∨ s.get? q = some f ∨
      path ≠ q ∧ (unfolded path type).get? q = some f := by
  rw [withField, Keyed.get?_insert] at h
  split at h
  · injection h with h
    exact .inl ⟨‹_›, h.symm⟩
  · rw [Keyed.get?_union] at h
    rcases Option.or_eq_some_iff.1 h with hkept | ⟨-, hunfolded⟩
    · refine .inr (.inl ?_)
      split at hkept
      · exact hkept
      · rw [get?_prune] at hkept
        split at hkept
        · cases hkept
        · exact hkept
    · exact .inr (.inr ⟨‹_›, hunfolded⟩)

/-- What an edit leaves alone: the connection, what the client holds, and the root. -/
structure Edits (d d' : Dataset) : Prop where
  connection : d'.connection = d.connection
  standing : d'.standing = d.standing.edited
  root : ∀ f, d.live.get? "" = some f → d'.live.get? "" = some f

theorem Edits.holding (h : d.Edits d') : d'.standing.holding? = d.standing.holding? := by
  rw [h.standing, holding?_edited]

theorem addField_edits {type : FieldType} (h : d.addField path type = .ok d') : d.Edits d' := by
  obtain ⟨⟨⟩, hedit, h⟩ := bind_eq_ok_iff.1 h
  obtain ⟨⟨⟩, -, h⟩ := bind_eq_ok_iff.1 h
  obtain ⟨⟨⟩, -, h⟩ := bind_eq_ok_iff.1 h
  injection h with h
  subst h
  refine ⟨rfl, rfl, fun f hf => ?_⟩
  have hkept : ∀ b : Bool, (if b then d.live else prune path d.live).get? "" = some f := by
    intro b
    cases b
    · simpa [get?_prune] using hf
    · exact hf
  simp only [withField, Keyed.get?_insert, if_neg (checkEditable_ok hedit), Keyed.get?_union,
    hkept, Option.some_or]

theorem removeField_edits (h : d.removeField path = .ok d') : d.Edits d' := by
  obtain ⟨⟨⟩, hedit, h⟩ := bind_eq_ok_iff.1 h
  split at h
  · cases h
  · injection h with h
    subst h
    refine ⟨rfl, rfl, fun f hf => ?_⟩
    show (prune path (d.live.erase path)).get? "" = some f
    simp [get?_prune, Keyed.get?_erase, checkEditable_ok hedit, hf]

/-- A client that edits still holds what it held. -/
theorem Holds.edit {guarded : Prop} {l : Ledger} {s : Supply} {base : Schema} {held : Holding}
    (h : d.Holds guarded l s base held) (he : d.Edits d') : d'.Holds guarded l s base held := by
  refine ⟨h.traced, he.connection ▸ h.seen, fun hg => ?_⟩
  obtain ⟨k, hk⟩ := h.root_document hg
  obtain ⟨f, hf, -⟩ := Schema.typeAt_eq_ok.1 hk
  rw [he.root f ((h.root hg).trans hf), hf]

/-- A client that puts another live schema in place still holds what it held, unguarded. -/
theorem Holds.assign {guarded : Prop} {l : Ledger} {s : Supply} {base : Schema} {held : Holding}
    (h : d.Holds guarded l s base held) (hg : ¬ guarded) (live : Schema) :
    ({ d with live := live } : Dataset).Holds guarded l s base held :=
  ⟨h.traced, h.seen, fun hg' => absurd hg' hg⟩

end Dataset
end SchemaKeeper
