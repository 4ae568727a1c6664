import SchemaKeeper.Proofs.Keyed
import SchemaKeeper.Proofs.Validator.Form

/-!
# Which rules survive storage

The rules that are read back from their documents as they were are the well-formed ones.  A rule of
any other form is not: its properties come back in the order of their names, and a number of items
that is no unsigned word of 64 bits is refused.
-/
namespace SchemaKeeper.Rule

variable {r : Rule} {ps : List (String × Rule)} {rs : List Rule}

/-! ## Rules all the way down -/

/-- What holds of a rule as soon as it holds of the rules in it holds of every rule. -/
@[elab_as_elim]
theorem induct {motive : Rule → Prop} (step : ∀ r : Rule, (∀ e ∈ r.properties, motive e.2) →
    (∀ x, r.items = some (.all x) → motive x) →
    (∀ xs, r.items = some (.each xs) → ∀ x ∈ xs, motive x) →
    (∀ x, r.values = some x → motive x) → motive r) (r : Rule) : motive r := by
  obtain ⟨type, title, properties, items, values, minItems, maxItems⟩ := r
  refine step _ (fun e he => ?_) (fun x hx => ?_) (fun xs hxs x hx => ?_) (fun x hx => ?_)
  · have := List.sizeOf_lt_of_mem he
    exact induct step e.2
  · exact induct step x
  · have := List.sizeOf_lt_of_mem hx
    exact induct step x
  · exact induct step x
termination_by sizeOf r
decreasing_by
  · obtain ⟨name, x⟩ := e
    simp at this ⊢
    omega
  · simp only at hx
    subst hx
    simp
    omega
  · simp only at hxs
    subst hxs
    simp
    omega
  · simp only at hx
    subst hx
    simp
    omega

/-! ## Lists of rules -/

/-- Properties keep their names and their order. -/
theorem keys_of_ofProperties? {qs : List (String × Rule)}
    (h : ofProperties? (Tree.ofMembers (propertyMembers ps)) = some qs) :
    qs.map Prod.fst = ps.map Prod.fst := by
  induction ps generalizing qs with
  | nil =>
    rw [propertyMembers, Tree.ofMembers, ofProperties?] at h
    injection h with h
    rw [← h]
  | cons p ps ih =>
    rw [propertyMembers, Tree.ofMembers, ofProperties?] at h
    simp only [Option.bind_eq_bind, Option.bind_eq_some_iff] at h
    obtain ⟨y, -, ys, hys, h⟩ := h
    injection h with h
    rw [← h, List.map_cons, List.map_cons, ih hys]

theorem forall_of_ofProperties?
    (h : ofProperties? (Tree.ofMembers (propertyMembers ps)) = some ps) :
    ∀ e ∈ ps, ofTree? (Tree.ofJson e.2.json) = some e.2 := by
  induction ps with
  | nil => exact nofun
  | cons p ps ih =>
    obtain ⟨name, x⟩ := p
    rw [propertyMembers, Tree.ofMembers, ofProperties?] at h
    simp only [Option.bind_eq_bind, Option.bind_eq_some_iff] at h
    obtain ⟨y, hy, ys, hys, h⟩ := h
    injection h with h
    obtain ⟨hp, rfl⟩ := List.cons_eq_cons.1 h
    injection hp with _ hx
    subst hx
    exact List.forall_mem_cons.2 ⟨hy, ih hys⟩

theorem forall_of_ofAll? (h : ofAll? (Tree.ofItems (jsonAll rs)) = some rs) :
    ∀ x ∈ rs, ofTree? (Tree.ofJson x.json) = some x := by
  induction rs with
  | nil => exact nofun
  | cons x rs ih =>
    rw [jsonAll, Tree.ofItems, ofAll?] at h
    simp only [Option.bind_eq_bind, Option.bind_eq_some_iff] at h
    obtain ⟨y, hy, ys, hys, h⟩ := h
    injection h with h
    obtain ⟨rfl, rfl⟩ := List.cons_eq_cons.1 h
    exact List.forall_mem_cons.2 ⟨hy, ih hys⟩

/-! ## Rules -/

/-- A number of items that is read at all is a word. -/
theorem lt_of_orElse? {ms : List (String × Json)} {name : String} {o o' : Option Nat}
    (hget : Entries.get? ms name = o.map fun n => .int (Int.ofNat n))
    (h : Tree.orElse? (Tree.nullable? Tree.word?) none (Tree.ofMembers ms) name = some o') :
    ∀ n ∈ o, n < UInt64.size := by
  rintro n rfl
  rw [Tree.orElse?, Tree.get?_ofMembers, hget] at h
  change (if 0 ≤ (n : Int) ∧ (n : Int) < UInt64.size then some n else none).map some = some o' at h
  split at h
  · rename_i hword
    exact Int.ofNat_lt.1 hword.2
  · cases h

theorem words_of_ofTree?_json {r' : Rule} (h : ofTree? (Tree.ofJson r.json) = some r') :
    (∀ n ∈ r.minItems, n < UInt64.size) ∧ ∀ n ∈ r.maxItems, n < UInt64.size := by
  rw [ofTree?_eq, record?_json] at h
  simp only [Option.bind_eq_bind, Option.bind_some, Option.bind_eq_some_iff] at h
  obtain ⟨-, -, -, -, low, hlow, high, hhigh, -⟩ := h
  exact ⟨lt_of_orElse? (get?_members r _) hlow, lt_of_orElse? (get?_members r _) hhigh⟩

theorem formed_of_ofTree?_json : ofTree? (Tree.ofJson r.json) = some r → r.Formed := by
  induction r using induct with
  | step r ihp iha ihe ihv =>
    intro h
    obtain ⟨hlow, hhigh⟩ := words_of_ofTree?_json h
    obtain ⟨-, -, -, -, ⟨ps, hps, heq⟩, hitems, hvalues⟩ := of_ofTree?_json h
    have hordered : Entries.Ordered r.properties := heq ▸ Entries.ordered_ofList ps
    -- The names read are those written, so what is read stands in order and is not rearranged.
    have hsame : ps = r.properties := by
      have hordered' : Entries.Ordered ps := by
        unfold Entries.Ordered at hordered ⊢
        rw [← List.pairwise_map (f := Prod.fst) (R := (· < ·))] at hordered ⊢
        rwa [keys_of_ofProperties? hps]
      rw [heq, Entries.ofList_of_ordered hordered']
    rw [hsame] at hps
    refine .intro hlow hhigh hordered (fun e he => ihp e he (forall_of_ofProperties? hps e he))
      (fun x hx => ?_) (fun xs hxs x hx => ?_) (fun x hx => ?_)
    · rw [hx] at hitems
      obtain ⟨y, hy, hxy⟩ := hitems
      injection hxy with hxy
      injection hxy with hxy
      exact iha x hx (hxy ▸ hy)
    · rw [hxs] at hitems
      obtain ⟨ys, hys, hxy⟩ := hitems
      injection hxy with hxy
      injection hxy with hxy
      exact ihe xs hxs x hx (forall_of_ofAll? (hxy ▸ hys) x hx)
    · rw [hx] at hvalues
      obtain ⟨y, hy, hxy⟩ := hvalues
      injection hxy with hxy
      exact ihv x hx (hxy ▸ hy)

/-- A rule, however deep and with whatever members, is read back from its document as it was
exactly if it is well formed. -/
theorem ofDocument?_document_iff (r : Rule) : ofDocument? r.document = some r ↔ r.Formed := by
  have hread : ofDocument? r.document = ofTree? (Tree.ofJson r.json) := by
    simp [ofDocument?, document, Json.get?]
  rw [hread]
  exact ⟨formed_of_ofTree?_json, Formed.ofTree?_json⟩

end SchemaKeeper.Rule
