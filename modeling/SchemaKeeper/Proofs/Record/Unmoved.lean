import SchemaKeeper.Proofs.Record.Ending

/-!
# Readings that see the same documents

What a record is read as depends on the documents of the references that are followed, and on
nothing else in the catalog.  Two catalogs that agree on these documents give the same record or the
same refusal, however much they differ elsewhere and however deep references may be followed in
each.
-/
namespace SchemaKeeper.Record

open Relation

variable {α : Type}

/-- Two ways of resolving that agree on the references which a reading can ask for give the same
reading. -/
theorem Sequential.congr {kind : Reference → Prop} {reading : Resolver → Except Refusal α}
    (h : Sequential kind reading) {f g : Resolver}
    (hfg : ∀ r, kind r → ∀ k, g r.path k r.id = f r.path k r.id) : reading g = reading f := by
  classical
  -- Both are at least what is resolved of these references alone.
  let common : Resolver := fun path k id => if kind ⟨path, id⟩ then f path k id else .error tooDeep
  have hf : Resolver.Extends f common := by
    intro path k id
    by_cases hkind : kind ⟨path, id⟩
    · exact .inr (if_pos hkind).symm
    · exact .inl (if_neg hkind)
  have hg : Resolver.Extends g common := by
    intro path k id
    by_cases hkind : kind ⟨path, id⟩
    · exact .inr ((hfg _ hkind k).trans (if_pos hkind).symm)
    · exact .inl (if_neg hkind)
  by_cases hdeep : reading common = .error tooDeep
  · obtain ⟨r, k, hr, hstop, hstops⟩ := h.stops common hdeep
    have hstop : f r.path k r.id = .error tooDeep := (if_pos hr).symm.trans hstop
    rw [hstops f hf hstop, hstops g hg ((hfg r hr k).trans hstop)]
  · rw [(h.deeper common f hf).resolve_left hdeep, (h.deeper common g hg).resolve_left hdeep]

variable {before after : Catalog} {s : Schema} {c : Collections} {r : Reference}

/-- The catalogs have the same document for the reference, or neither has one. -/
def AgreeAt (before after : Catalog) (c : Collections) (r : Reference) : Prop :=
  ∀ name, c.get? r.path = some name →
    after.findOne name "_id" (.string r.id) = before.findOne name "_id" (.string r.id)

theorem contents_congr (h : AgreeAt before after c r) :
    contents after s c r = contents before s c r := by
  funext f
  unfold contents collectionFor
  cases hname : c.get? r.path with
  | none => rfl
  | some name => rw [ok_bind, ok_bind, h name hname]

/-- A reference is resolved to the same wherever the documents below it are the same. -/
theorem follow_congr : ∀ (n : Nat) {r : Reference},
    (∀ r', ReflTransGen (LeadsTo before s c) r r' → AgreeAt before after c r') →
      ∀ k, follow after s c n r.path k r.id = follow before s c n r.path k r.id
  | 0, _, _, _ => rfl
  | n + 1, r, h, k => by
    have hbelow : ∀ r', LeadsTo before s c r r' → ∀ k,
        follow after s c n r'.path k r'.id = follow before s c n r'.path k r'.id :=
      fun r' hleads => follow_congr n fun r'' hr'' => h r'' (.head hleads hr'')
    rw [follow_succ, follow_succ, contents_congr (h r .refl),
      (sequential_contents r).congr hbelow]

variable {root : DocClass} {document : Json}

/-- A root document is read as the same record wherever the documents of the references that are
followed from it are the same. -/
theorem ofDocument_congr (h : ∀ r r', Starts s document r →
    ReflTransGen (LeadsTo before s c) r r' → AgreeAt before after c r') :
    ofDocument after s c root document = ofDocument before s c root document := by
  have hwithin : ∀ n, ofDocumentWithin after s c root n document =
      ofDocumentWithin before s c root n document := by
    intro n
    cases document with
    | object members =>
      have hfollow : ∀ r, MembersRefer s "" (ownMembers members) r → ∀ k,
          follow after s c n r.path k r.id = follow before s c n r.path k r.id :=
        fun r hr => follow_congr n fun r' hr' => h r r' ⟨members, rfl, hr⟩ hr'
      simp only [ofDocumentWithin, (sequential_takeWith _ _).congr hfollow]
    | _ => rfl
  -- The limits of the two differ, and neither matters.
  rw [← ofDocumentWithin_of_limit_le (Nat.le_max_left (followLimit after c) (followLimit before c)),
    ← ofDocumentWithin_of_limit_le (Nat.le_max_right (followLimit after c) (followLimit before c)),
    hwithin]

end SchemaKeeper.Record
