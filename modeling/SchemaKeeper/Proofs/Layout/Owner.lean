import SchemaKeeper.Layout.Owner
import SchemaKeeper.Proofs.Keyed

/-!
# Owners and homes

The owner of a path is a collection path that claims it, only the root path goes without one as
soon as the root has a collection, and two paths never share a home if collections do not share
names.
-/
namespace SchemaKeeper

namespace Path

@[simp] theorem isBelow_root (base : String) : isBelow base "" = false := by
  simp [isBelow]

/-- What remains below a base determines the path. -/
theorem under_injective {base p q : String} (hp : isWithin base p = true)
    (hq : isWithin base q = true) (h : under base p = under base q) : p = q := by
  by_cases hb : base = ""
  · simpa [under, hb] using h
  · have hp' : isBelow base p = true := by simpa [isWithin, hb] using hp
    have hq' : isBelow base q = true := by simpa [isWithin, hb] using hq
    obtain ⟨r, hr⟩ := isBelow_iff.1 hp'
    obtain ⟨s, hs⟩ := isBelow_iff.1 hq'
    have hcut : ∀ t, (base.toList ++ '.' :: t).drop (base.toList.length + 1) = t := by
      intro t
      rw [show base.toList ++ '.' :: t = (base.toList ++ ['.']) ++ t by simp]
      exact List.drop_left' (by simp)
    simp only [under, hb, if_false, hr, hs, hcut] at h
    apply String.toList_inj.1
    rw [hr, hs, String.ofList_injective h]

end Path

namespace Collections

/-- The owner is one of the candidates and claims the path. -/
theorem mem_of_longest {path o : String} :
    ∀ {candidates : List String}, longest path candidates = some o →
      o ∈ candidates ∧ claims o path = true
  | candidate :: rest, h => by
    rw [longest] at h
    cases hrest : longest path rest with
    | none =>
      simp only [hrest] at h
      split at h
      · rename_i hc
        injection h with h
        exact ⟨by simp [h], h ▸ hc⟩
      · cases h
    | some best =>
      obtain ⟨hm, hb⟩ := mem_of_longest hrest
      simp only [hrest] at h
      split at h
      · rename_i hc
        injection h with h
        subst h
        exact ⟨List.mem_cons_self, (Bool.and_eq_true_iff.1 hc).1⟩
      · injection h with h
        subst h
        exact ⟨List.mem_cons_of_mem _ hm, hb⟩

/-- A path is without owner exactly when no candidate claims it. -/
theorem longest_eq_none {path : String} :
    ∀ {candidates : List String}, longest path candidates = none ↔
      ∀ k ∈ candidates, claims k path = false
  | [] => by simp [longest]
  | candidate :: rest => by
    rw [longest, List.forall_mem_cons]
    cases hrest : longest path rest with
    | none =>
      have ih := longest_eq_none.1 hrest
      by_cases hc : claims candidate path = true
      · simp [hc]
      · simp only [hc, Bool.false_eq_true, if_false, true_iff]
        exact ⟨by simp, ih⟩
    | some best =>
      obtain ⟨hm, hb⟩ := mem_of_longest hrest
      have hne : ¬ ∀ k ∈ rest, claims k path = false := by
        intro hall
        rw [hall best hm] at hb
        cases hb
      simp only [hne, and_false, iff_false]
      split <;> simp

@[simp] theorem claims_root (candidate : String) : claims candidate "" = false := by
  unfold claims Path.isWithin
  by_cases h : candidate = "" <;> simp [h]

variable {c : Collections} {path name key : String}

/-- The root path has no owner. -/
@[simp] theorem owner?_root : c.owner? "" = none :=
  longest_eq_none.2 fun k _ => claims_root k

@[simp] theorem home?_root : c.home? "" = none := by
  simp [home?]

theorem owner?_spec {o : String} (h : c.owner? path = some o) :
    (∃ n, c.get? o = some n) ∧ claims o path = true :=
  (mem_of_longest h).imp_left Keyed.mem_keys.1

/-- Where the root has a collection every other path has an owner. -/
theorem exists_owner? (hroot : ∃ n, c.get? "" = some n) (hp : path ≠ "") :
    ∃ o, c.owner? path = some o := by
  cases h : c.owner? path with
  | some o => exact ⟨o, rfl⟩
  | none =>
    have hfalse := longest_eq_none.1 h "" (Keyed.mem_keys.2 hroot)
    have hclaims : claims "" path = true := by simp [claims, Path.isWithin, Ne.symm hp]
    rw [hclaims] at hfalse
    cases hfalse

/-- A home is the collection of the owner, with the path cut off at the owner. -/
theorem home?_eq_some : c.home? path = some (name, key) ↔
    ∃ o, c.owner? path = some o ∧ c.get? o = some name ∧ key = Path.under o path := by
  unfold home?
  cases ho : c.owner? path with
  | none => simp
  | some o =>
    cases hn : c.get? o <;> simp [hn, eq_comm]

theorem exists_home? (hroot : ∃ n, c.get? "" = some n) (hp : path ≠ "") :
    ∃ name key, c.home? path = some (name, key) := by
  obtain ⟨o, ho⟩ := exists_owner? hroot hp
  obtain ⟨name, hn⟩ := (owner?_spec ho).1
  exact ⟨name, Path.under o path, home?_eq_some.2 ⟨o, ho, hn, rfl⟩⟩

/-- No two paths have one collection. -/
def Apart (c : Collections) : Prop :=
  ∀ p q name, c.get? p = some name → c.get? q = some name → p = q

/-- If no two paths have one collection, no two paths have one home. -/
theorem home?_injective (hc : c.Apart) {p q : String} (hp : c.home? p = some (name, key))
    (hq : c.home? q = some (name, key)) : p = q := by
  obtain ⟨o, ho, hn, hk⟩ := home?_eq_some.1 hp
  obtain ⟨o', ho', hn', hk'⟩ := home?_eq_some.1 hq
  have hoo : o = o' := hc o o' name hn hn'
  subst hoo
  have hp' := (owner?_spec ho).2
  have hq' := (owner?_spec ho').2
  exact Path.under_injective (Bool.and_eq_true_iff.1 hp').2 (Bool.and_eq_true_iff.1 hq').2
    (hk.symm.trans hk')

end Collections
end SchemaKeeper
