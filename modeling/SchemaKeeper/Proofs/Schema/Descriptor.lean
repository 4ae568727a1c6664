import SchemaKeeper.Proofs.Json
import SchemaKeeper.Schema.Descriptor

/-!
# Descriptors go through their stored form

A descriptor is read back from what is stored of it, at the top and inside another alike.
-/
namespace SchemaKeeper.Descriptor

/-- The kind of a descriptor stored as an object of its kind and its content. -/
theorem kind?_object {inner : Bool} {kind : Kind} {text : String} {members : List (String × Tree)}
    (hk : Entries.get? members "kind" = some (.string text)) (ht : Kind.ofText? text = some kind)
    (hd : (members.map Prod.fst).Nodup) : kind? inner (.object members) = some kind := by
  have hdist : distinct ["kind", kind.content] members = true := by
    simp only [distinct, decide_eq_true_eq]
    exact hd.sublist (List.filter_sublist.map _)
  simp [kind?, hk, kindOf?, ht, hdist]

mutual

theorem ofReadable?_json (inner : Bool) :
    ∀ d : Descriptor, ofReadable? inner (Tree.ofJson d.json) = some d
  | .scalar k => by
    have hkind : kind? inner (Tree.ofJson (json (.scalar k))) = some .scalar :=
      kind?_object rfl rfl (by simp [Tree.ofMembers])
    rw [ofReadable?]
    simp only [hkind]
    simp [json, Tree.ofJson, Tree.ofMembers, Tree.content?, scalarOfTree?, Tree.choice?,
      Scalar.ofText?_text]
  | .list t => by
    have hkind : kind? inner (Tree.ofJson (json (.list t))) = some .list :=
      kind?_object rfl rfl (by simp [Tree.ofMembers])
    have ih := ofReadable?_json true t
    rw [ofReadable?]
    simp only [hkind]
    simp [json, Tree.ofJson, Tree.ofMembers, Tree.content?, ih]
  | .dict t => by
    have hkind : kind? inner (Tree.ofJson (json (.dict t))) = some .dict :=
      kind?_object rfl rfl (by simp [Tree.ofMembers])
    have ih := ofReadable?_json true t
    rw [ofReadable?]
    simp only [hkind]
    simp [json, Tree.ofJson, Tree.ofMembers, Tree.content?, ih]
  | .tuple ts => by
    have hkind : kind? inner (Tree.ofJson (json (.tuple ts))) = some .tuple :=
      kind?_object rfl rfl (by simp [Tree.ofMembers])
    have ih := ofReadableAll?_json ts
    rw [ofReadable?]
    simp only [hkind]
    simp [json, Tree.ofJson, Tree.ofMembers, Tree.content?, ih]
  | .document c => by
    have hkind : kind? inner (Tree.ofJson (json (.document c))) = some .document :=
      kind?_object rfl rfl (by simp [Tree.ofMembers])
    rw [ofReadable?]
    simp only [hkind]
    simp [json, Tree.ofJson, Tree.ofMembers, Tree.content?, Tree.string?]

theorem ofReadableAll?_json :
    ∀ ds : List Descriptor, ofReadableAll? (Tree.ofItems (jsonAll ds)) = some ds
  | [] => by simp [jsonAll, Tree.ofItems, ofReadableAll?]
  | d :: ds => by
    have ih := ofReadable?_json true d
    have ihs := ofReadableAll?_json ds
    rw [jsonAll, Tree.ofItems, ofReadableAll?]
    simp [ih, ihs]

end

/-- A descriptor goes through its stored form. -/
theorem ofTree?_json (d : Descriptor) : ofTree? (Tree.ofJson d.json) = some d := by
  rw [ofTree?, if_pos (Tree.isReadable_ofJson _), ofReadable?_json]

mutual

theorem floatFree_json : ∀ d : Descriptor, d.json.FloatFree
  | .scalar _ => ⟨trivial, trivial, trivial⟩
  | .list t => ⟨floatFree_json t, trivial, trivial⟩
  | .dict t => ⟨trivial, floatFree_json t, trivial⟩
  | .tuple ts => ⟨floatFree_jsonAll ts, trivial, trivial⟩
  | .document _ => ⟨trivial, trivial, trivial⟩

theorem floatFree_jsonAll : ∀ ds : List Descriptor, Json.ItemsFloatFree (jsonAll ds)
  | [] => trivial
  | d :: ds => ⟨floatFree_json d, floatFree_jsonAll ds⟩

end

end SchemaKeeper.Descriptor
