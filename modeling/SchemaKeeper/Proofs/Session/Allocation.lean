import SchemaKeeper.Proofs.Session.Revision

/-!
# The collections of a path

A commit looks the collection of a path up in the stored definition and in the one that its client
holds.  So a path keeps its collection as long as documents stand there, and gets it back from a
client that still knows it; brought back by any other client, it gets another collection.
-/
namespace SchemaKeeper

open Catalog Op

/-- Documents stand at a path, directly or in lists and dictionaries. -/
def Definition.PutsDocuments (d : Definition) (path : String) : Prop :=
  ∃ f ∈ d.fields, f.path = path ∧ f.type.nested? ≠ none

instance (d : Definition) (path : String) : Decidable (d.PutsDocuments path) :=
  inferInstanceAs (Decidable (∃ f ∈ d.fields, f.path = path ∧ f.type.nested? ≠ none))

/-- Where documents stand the definition has a collection, and nowhere else. -/
theorem Layout.Describes.putsDocuments_iff {d : Definition} {s : Schema}
    (h : Layout.Describes d.fields s) {path : String} :
    d.PutsDocuments path ↔ ∃ name, d.collections.get? path = some name := by
  constructor
  · rintro ⟨f, hf, hpath, hdocuments⟩
    obtain ⟨name, hname⟩ := Option.ne_none_iff_exists'.1 ((h.nested?_ne_none_iff hf).1 hdocuments)
    exact ⟨name, (Layout.collections_get?_iff h.ascending).2 ⟨f, hf, hpath, hname⟩⟩
  · rintro ⟨name, hname⟩
    obtain ⟨f, hf, hpath, hcollection⟩ := (Layout.collections_get?_iff h.ascending).1 hname
    refine ⟨f, hf, hpath, (h.nested?_ne_none_iff hf).2 ?_⟩
    rw [hcollection]
    exact Option.some_ne_none name

/-- The deed brings documents back to a path, by the commit of a client that does not hold the
path with the collection. -/
def Deed.Reallots (c : Connection) (id : Uuid) (path name : String) (w : World) (e : Deed) : Prop :=
  ∃ held d d', e.committing? w = some held ∧ held.definition.id = id ∧
    c.stored? w.workspace.store.catalog id = some d ∧ ¬ d.PutsDocuments path ∧
    c.stored? (w.does e).workspace.store.catalog id = some d' ∧ d'.PutsDocuments path ∧
    held.definition.collections.get? path ≠ some name

namespace World
variable {c : Connection} {w w₀ : World} {ws' : Workspace} {e : Deed} {id : Uuid}
  {d d' : Definition} {path name name' : String} {deeds earlier later front back : List Deed}

/-- What is stored in a session has collections just where documents stand. -/
theorem putsDocuments_iff (hb : w₀.Blank) (ho : ∀ e ∈ deeds, e.Over c)
    (hf : (w₀.play deeds).workspace.supply.Fits c.definitions)
    (hd : c.stored? (w₀.play deeds).workspace.store.catalog id = some d) :
    d.PutsDocuments path ↔ ∃ name, d.collections.get? path = some name := by
  have hblank : Steady False c (fun k => (w₀.workspace.supply.ids k, "")) w₀ := steady_of_blank hb _
  obtain ⟨schema, v, hdescribes, -⟩ := play_backed ho hblank hf (backed_of_blank hb) id d hd
  exact hdescribes.putsDocuments_iff

/-- A path with a collection keeps it in the next version, if it is still there. -/
theorem Revision.keeps (h : Revision w e ws' (some d) d')
    (hname : d.collections.get? path = some name)
    (hname' : d'.collections.get? path = some name') : name' = name := by
  cases h with
  | kept => exact Option.some.inj (hname'.symm.trans hname)
  | committed held commits id revises =>
    rcases revises.allotted path name' hname' with hkept | ⟨hnone, -⟩
    · exact Option.some.inj (hkept.symm.trans hname)
    · cases hname.symm.trans hnone
  | loaded k loads le lt revises keeps =>
    exact Option.some.inj ((keeps path name' hname').symm.trans hname)

/-- A path that is new in a version was committed, and has the collection that the client knew for
it or one that was drawn meanwhile. -/
theorem Revision.brings (h : Revision w e ws' (some d) d')
    (hnone : d.collections.get? path = none) (hname' : d'.collections.get? path = some name') :
    ∃ held, e.committing? w = some held ∧ held.definition.id = d.id ∧
      (held.definition.collections.get? path = some name' ∨
        held.definition.collections.get? path = none ∧ ∃ k className,
          w.workspace.supply.drawn ≤ k ∧ k < ws'.supply.drawn ∧
            name' = Layout.collectionName className (w.workspace.supply.ids k)) := by
  cases h with
  | kept => cases hnone.symm.trans hname'
  | committed held commits id revises =>
    rcases revises.allotted path name' hname' with hkept | ⟨-, hown⟩
    · cases hnone.symm.trans hkept
    · exact ⟨held, commits, id, hown⟩
  | loaded k loads le lt revises keeps => cases hnone.symm.trans (keeps path name' hname')

/-- A path keeps its collection as long as documents stand there. -/
theorem collection_stays (hb : w₀.Blank) (ho : ∀ e ∈ earlier ++ later, e.Over c)
    (hf : (w₀.play (earlier ++ later)).workspace.supply.Fits c.definitions)
    (hd : c.stored? (w₀.play earlier).workspace.store.catalog id = some d)
    (hd' : c.stored? (w₀.play (earlier ++ later)).workspace.store.catalog id = some d')
    (hname : d.collections.get? path = some name)
    (hstays : ∀ front back, later = front ++ back → ∀ v,
      c.stored? (w₀.play (earlier ++ front)).workspace.store.catalog id = some v →
        v.PutsDocuments path) : d'.collections.get? path = some name := by
  obtain ⟨hearlier, hlater⟩ := List.forall_mem_append.1 ho
  obtain ⟨l, hsteady⟩ := exists_steady_play hb hearlier (fits_of_append ho hb.transaction hf)
  have hstep : ∀ front e back, later = front ++ e :: back → ∀ v v',
      c.stored? ((w₀.play earlier).play front).workspace.store.catalog id = some v →
      c.stored? (((w₀.play earlier).play front).does e).workspace.store.catalog id = some v' →
      v.collections.get? path = some name → v'.collections.get? path = some name := by
    rintro front e back rfl v v' hv hv' hvname
    rw [← play_append] at hv hv'
    rw [← List.append_assoc] at ho hf
    have hrevision := revision_of_blank hb ho hf hv'
    rw [hv] at hrevision
    have hplayed : w₀.play (earlier ++ front ++ [e]) = (w₀.play (earlier ++ front)).does e :=
      play_append w₀ (earlier ++ front) [e]
    rw [List.append_cons] at ho hf
    rw [← hplayed] at hv'
    have hputs := hstays (front ++ [e]) back (by simp) v' (by rwa [← List.append_assoc])
    obtain ⟨name', hname'⟩ := (putsDocuments_iff hb (List.forall_mem_append.1 ho).1
      (fits_of_append ho hb.transaction hf) hv').1 hputs
    rw [hname', hrevision.keeps hvname hname']
  rw [play_append] at hf hd'
  exact play_stored (P := fun v => v.collections.get? path = some name) hlater hsteady hf hd hname
    hstep hd'

/-- A path that is new in a version, and not with the collection, was brought back by a client that
did not hold it with this collection. -/
theorem reallots_of_ne (hb : w₀.Blank) (ho : ∀ e' ∈ front ++ e :: back, e'.Over c)
    (hf : (w₀.play (front ++ e :: back)).workspace.supply.Fits c.definitions)
    (hd : c.stored? (w₀.play front).workspace.store.catalog id = some d)
    (hd' : c.stored? ((w₀.play front).does e).workspace.store.catalog id = some d')
    (hnone : d.collections.get? path = none) (hname' : d'.collections.get? path = some name')
    (hne : name' ≠ name) : e.Reallots c id path name (w₀.play front) := by
  have hfront : ∀ e' ∈ front, e'.Over c := fun e' he' => ho e' (List.mem_append_left _ he')
  have hf₁ := fits_of_append ho hb.transaction hf
  obtain ⟨l, hsteady⟩ := exists_steady_play hb hfront hf₁
  obtain ⟨-, hid⟩ := hsteady.traced_of_stored hd
  have hrevision := revision_of_blank hb ho hf hd'
  rw [hd] at hrevision
  obtain ⟨held, hcommits, hheld, hknown⟩ := hrevision.brings hnone hname'
  have hplayed : w₀.play (front ++ [e]) = (w₀.play front).does e := play_append w₀ front [e]
  refine ⟨held, d, d', hcommits, hheld.trans hid, hd, fun hputs => ?_, hd', ?_, fun hheldname => ?_⟩
  · obtain ⟨name₁, hname₁⟩ := (putsDocuments_iff hb hfront hf₁ hd).1 hputs
    cases hnone.symm.trans hname₁
  · rw [List.append_cons] at ho hf
    rw [← hplayed] at hd'
    exact (putsDocuments_iff hb (fun e' he' => ho e' (List.mem_append_left _ he'))
      (fits_of_append ho hb.transaction hf) hd').2 ⟨name', hname'⟩
  · rcases hknown with hknown | ⟨hknown, -⟩
    · exact hne (Option.some.inj (hknown.symm.trans hheldname))
    · cases hknown.symm.trans hheldname

/-- A client that does not hold a path with its former collection brings it back with another
one. -/
theorem ne_of_reallots (hb : w₀.Blank) (ho : ∀ e' ∈ earlier ++ front ++ e :: back, e'.Over c)
    (hf : (w₀.play (earlier ++ front ++ e :: back)).workspace.supply.Fits c.definitions)
    (hd : c.stored? (w₀.play earlier).workspace.store.catalog id = some d)
    (hname : d.collections.get? path = some name)
    (he : e.Reallots c id path name (w₀.play (earlier ++ front)))
    (hd' : c.stored? ((w₀.play (earlier ++ front)).does e).workspace.store.catalog id = some d')
    (hname' : d'.collections.get? path = some name') : name' ≠ name := by
  rintro rfl
  obtain ⟨held, v, -, hcommits, -, hv, hvno, -, -, hheldname⟩ := he
  have hfronts : ∀ e' ∈ earlier ++ front, e'.Over c := fun e' he' =>
    ho e' (List.mem_append_left _ he')
  obtain ⟨hearlier, hfront⟩ := List.forall_mem_append.1 hfronts
  have hfv := fits_of_append ho hb.transaction hf
  have hnone : v.collections.get? path = none := by
    cases hvname : v.collections.get? path with
    | none => rfl
    | some n => exact absurd ((putsDocuments_iff hb hfronts hfv hv).2 ⟨n, hvname⟩) hvno
  have hrevision := revision_of_blank hb ho hf hd'
  rw [hv] at hrevision
  obtain ⟨held', hcommits', -, hknown | ⟨-, k, className, hk, hk', hnew⟩⟩ :=
    hrevision.brings hnone hname'
  · obtain rfl : held = held' := Option.some.inj (hcommits.symm.trans hcommits')
    exact hheldname hknown
  · -- A name that is new now was not there before.
    have hfe := List.append_cons (earlier ++ front) e back ▸ ho
    have hff := fits_of_append hfe hb.transaction
      (List.append_cons (earlier ++ front) e back ▸ hf)
    rw [play_append] at hff
    obtain ⟨l, hsteady⟩ := exists_steady_play hb hearlier
      (fits_of_append hfronts hb.transaction hfv)
    obtain ⟨ht, -⟩ := hsteady.traced_of_stored hd
    have hcommitsv := play_commits hfront hsteady.closed
    rw [← play_append] at hcommitsv
    have hlater := (does_commits (ho e (by simp)) hcommitsv.transaction).supply
    rw [← hlater.ids] at hnew
    exact ht.ne_collectionName (hcommitsv.supply.trans hlater) hff
      (.inl (Keyed.mem_values.2 ⟨path, hname⟩)) (Nat.le_trans hcommitsv.supply.drawn hk) hk'
      className hnew

/-- Two versions of a stored definition have the same collection for a path where documents stand
in both, unless documents were brought back there by a client that did not hold the path with this
collection.  Then it is another one as long as documents stay. -/
theorem collection_reallotted (hb : w₀.Blank) (ho : ∀ e ∈ earlier ++ later, e.Over c)
    (hf : (w₀.play (earlier ++ later)).workspace.supply.Fits c.definitions)
    (hd : c.stored? (w₀.play earlier).workspace.store.catalog id = some d)
    (hd' : c.stored? (w₀.play (earlier ++ later)).workspace.store.catalog id = some d')
    (hp : d.PutsDocuments path) (hp' : d'.PutsDocuments path) :
    ∃ name name', d.collections.get? path = some name ∧
      d'.collections.get? path = some name' ∧
      ((∀ front e back, later = front ++ e :: back →
        ¬ e.Reallots c id path name (w₀.play (earlier ++ front))) → name' = name) ∧
      ∀ front e back, later = front ++ e :: back →
        e.Reallots c id path name (w₀.play (earlier ++ front)) →
        (∀ mid rest, back = mid ++ rest → ∀ v,
          c.stored? (w₀.play (earlier ++ front ++ e :: mid)).workspace.store.catalog id = some v →
            v.PutsDocuments path) → name' ≠ name := by
  obtain ⟨hearlier, hlater⟩ := List.forall_mem_append.1 ho
  have hf₁ := fits_of_append ho hb.transaction hf
  obtain ⟨name, hname⟩ := (putsDocuments_iff hb hearlier hf₁ hd).1 hp
  obtain ⟨name', hname'⟩ := (putsDocuments_iff hb ho hf hd').1 hp'
  refine ⟨name, name', hname, hname', fun hno => ?_, ?_⟩
  · -- As long as nobody else brings documents back, there is this collection or none.
    obtain ⟨l, hsteady⟩ := exists_steady_play hb hearlier hf₁
    have hstep : ∀ front e back, later = front ++ e :: back → ∀ v v',
        c.stored? ((w₀.play earlier).play front).workspace.store.catalog id = some v →
        c.stored? (((w₀.play earlier).play front).does e).workspace.store.catalog id = some v' →
        (∀ n, v.collections.get? path = some n → n = name) →
        ∀ n, v'.collections.get? path = some n → n = name := by
      rintro front e back rfl v v' hv hv' hP n hn
      rw [← play_append] at hv hv'
      rw [← List.append_assoc] at ho hf
      cases hvname : v.collections.get? path with
      | some m =>
        have hrevision := revision_of_blank hb ho hf hv'
        rw [hv] at hrevision
        exact (hrevision.keeps hvname hn).trans (hP m hvname)
      | none =>
        by_contra hne
        exact hno front e back rfl (reallots_of_ne hb ho hf hv hv' hvname hn hne)
    rw [play_append] at hf hd'
    exact play_stored hlater hsteady hf hd
      (fun n hn => Option.some.inj (hn.symm.trans hname)) hstep hd' name' hname'
  · rintro front e back rfl he hstays
    have hreallots := he
    obtain ⟨-, v, v', -, -, hv, -, hv', hvp', -⟩ := hreallots
    have hplayed : w₀.play (earlier ++ front ++ [e]) = (w₀.play (earlier ++ front)).does e :=
      play_append w₀ (earlier ++ front) [e]
    have hsplit : earlier ++ (front ++ e :: back) = earlier ++ front ++ [e] ++ back := by simp
    have hother : ∀ n, v'.collections.get? path = some n → n ≠ name := fun n hn =>
      ne_of_reallots hb (by rwa [List.append_assoc]) (by rwa [List.append_assoc]) hd hname he hv' hn
    rw [hsplit] at ho hf hd'
    rw [← hplayed] at hv'
    obtain ⟨n, hn⟩ := (putsDocuments_iff hb (List.forall_mem_append.1 ho).1
      (fits_of_append ho hb.transaction hf) hv').1 hvp'
    -- From then on the path has this other collection.
    have hlast := collection_stays hb ho hf hv' hd' hn fun mid rest hback u hu =>
      hstays mid rest hback u (by simpa using hu)
    exact Option.some.inj (hlast.symm.trans hname') ▸ hother n hn

section Sample
open Layout

/-- A client creates a dataset of samples with boxes. -/
def boxed : List Deed :=
  [.act sampleConnection (.create 0 "d" sampleClass.rootSchema none false)]

/-- The client takes the boxes out, and after that brings them back. -/
def reboxed : List Deed :=
  [.act sampleConnection (.removeField 0 "boxes"), .act sampleConnection (.commit 0),
    .act sampleConnection (.addField 0 "boxes" (.list (.document boxClass))),
    .act sampleConnection (.commit 0)]

theorem exists_reboxed : ∃ id d d' name name',
    (sampleWorld.play (boxed ++ reboxed)).workspace.supply.isFit = true ∧
    sampleConnection.stored? (sampleWorld.play boxed).workspace.store.catalog id = some d ∧
    sampleConnection.stored? (sampleWorld.play (boxed ++ reboxed)).workspace.store.catalog id =
      some d' ∧ d.collections.get? "boxes" = some name ∧
    d'.collections.get? "boxes" = some name' ∧
    d.PutsDocuments "boxes" ∧ d'.PutsDocuments "boxes" ∧ name' ≠ name := by
  have hcheck : ((sampleWorld.play boxed).heldId? 0).any (fun id =>
      (sampleWorld.play (boxed ++ reboxed)).workspace.supply.isFit &&
      (sampleConnection.stored? (sampleWorld.play boxed).workspace.store.catalog id).any fun d =>
        (sampleConnection.stored?
            (sampleWorld.play (boxed ++ reboxed)).workspace.store.catalog id).any fun d' =>
          (d.collections.get? "boxes").any fun name =>
            (d'.collections.get? "boxes").any fun name' => decide
              (d.PutsDocuments "boxes" ∧ d'.PutsDocuments "boxes" ∧ name' ≠ name)) = true := by
    decide +kernel
  obtain ⟨id, -, hcheck⟩ := (Option.any_eq_true _ _).1 hcheck
  obtain ⟨hfit, hcheck⟩ := Bool.and_eq_true_iff.1 hcheck
  obtain ⟨d, hd, hcheck⟩ := (Option.any_eq_true _ _).1 hcheck
  obtain ⟨d', hd', hcheck⟩ := (Option.any_eq_true _ _).1 hcheck
  obtain ⟨name, hname, hcheck⟩ := (Option.any_eq_true _ _).1 hcheck
  obtain ⟨name', hname', hcheck⟩ := (Option.any_eq_true _ _).1 hcheck
  exact ⟨id, d, d', name, name', hfit, hd, hd', hname, hname', of_decide_eq_true hcheck⟩

/-- The boxes then have another collection. -/
theorem collection_not_stable : ¬ ∀ id d d' path name name',
    sampleConnection.stored? (sampleWorld.play boxed).workspace.store.catalog id = some d →
    sampleConnection.stored? (sampleWorld.play (boxed ++ reboxed)).workspace.store.catalog id =
      some d' → d.PutsDocuments path → d'.PutsDocuments path →
    d.collections.get? path = some name → d'.collections.get? path = some name' →
    name' = name := by
  intro h
  obtain ⟨id, d, d', name, name', -, hd, hd', hname, hname', hp, hp', hne⟩ := exists_reboxed
  exact hne (h id d d' "boxes" name name' hd hd' hp hp' hname hname')

/-- They were brought back by a commit of the client, which had forgotten their collection. -/
theorem collection_reallotted_sample : ∃ id name front e back, reboxed = front ++ e :: back ∧
    e.Reallots sampleConnection id "boxes" name (sampleWorld.play (boxed ++ front)) := by
  obtain ⟨id, d, d', name, name', hfit, hd, hd', hname, hname', hp, hp', hne⟩ := exists_reboxed
  have hover : ∀ e ∈ boxed ++ reboxed, e.Over sampleConnection :=
    over_acts (Connection.quiet_plain _ _)
      [.create 0 "d" sampleClass.rootSchema none false, .removeField 0 "boxes", .commit 0,
        .addField 0 "boxes" (.list (.document boxClass)), .commit 0]
  have hblank : sampleWorld.Blank := ⟨rfl, rfl, fun _ => rfl⟩
  obtain ⟨name₁, name₂, hname₁, hname₂, hsame, -⟩ :=
    collection_reallotted hblank hover (.of_isFit (by decide) hfit) hd hd' hp hp'
  obtain rfl : name = name₁ := Option.some.inj (hname.symm.trans hname₁)
  obtain rfl : name' = name₂ := Option.some.inj (hname'.symm.trans hname₂)
  by_contra hno
  refine hne (hsame fun front e back hsplit he => hno ?_)
  exact ⟨id, name, front, e, back, hsplit, he⟩

end Sample

end World
end SchemaKeeper
