/-!
# Lists in ascending order of a text

`Ascending.arrange` puts the items of a list in ascending order of a text that each has; items
with equal texts keep their order.  The result holds the same items (`arrange_perm`) in order
(`arrange_ordered`), and a list in order stays as it is (`arrange_of_ordered`).
-/
namespace SchemaKeeper.Ascending
variable {α : Type}

/-- The texts of the items ascend. -/
def Ordered (key : α → String) (items : List α) : Prop :=
  items.Pairwise fun a b => key a ≤ key b

/-- Puts an item before the first one whose text is not smaller. -/
def place (key : α → String) (item : α) : List α → List α
  | [] => [item]
  | other :: rest =>
    if key item ≤ key other then item :: other :: rest else other :: place key item rest

/-- The items in ascending order. -/
def arrange (key : α → String) (items : List α) : List α := items.foldr (place key) []

theorem place_perm (key : α → String) (item : α) (items : List α) :
    (place key item items).Perm (item :: items) := by
  induction items with
  | nil => exact .refl _
  | cons other rest ih =>
    unfold place
    split
    · exact .refl _
    · exact (ih.cons other).trans (.swap item other rest)

theorem place_ordered (key : α → String) (item : α) {items : List α} (h : Ordered key items) :
    Ordered key (place key item items) := by
  induction items with
  | nil => exact List.pairwise_singleton _ _
  | cons other rest ih =>
    obtain ⟨hle, hrest⟩ := List.pairwise_cons.1 h
    unfold place
    split
    · rename_i hi
      refine List.pairwise_cons.2 ⟨fun b hb => ?_, h⟩
      rcases List.mem_cons.1 hb with rfl | hb
      · exact hi
      · exact String.le_trans hi (hle b hb)
    · rename_i hi
      refine List.pairwise_cons.2 ⟨fun b hb => ?_, ih hrest⟩
      rcases List.mem_cons.1 ((place_perm key item rest).mem_iff.1 hb) with rfl | hb
      · exact (String.le_total (key b) (key other)).resolve_left hi
      · exact hle b hb

theorem place_of_le (key : α → String) {item : α} {items : List α}
    (h : ∀ b ∈ items, key item ≤ key b) : place key item items = item :: items := by
  cases items with
  | nil => rfl
  | cons other rest => simp [place, h other (by simp)]

theorem arrange_perm (key : α → String) (items : List α) : (arrange key items).Perm items := by
  induction items with
  | nil => exact .refl _
  | cons item rest ih => exact (place_perm key item _).trans (ih.cons item)

theorem arrange_ordered (key : α → String) (items : List α) :
    Ordered key (arrange key items) := by
  induction items with
  | nil => exact List.Pairwise.nil
  | cons item rest ih => exact place_ordered key item ih

theorem arrange_of_ordered (key : α → String) {items : List α} (h : Ordered key items) :
    arrange key items = items := by
  induction items with
  | nil => rfl
  | cons item rest ih =>
    obtain ⟨hle, hrest⟩ := List.pairwise_cons.1 h
    show place key item (arrange key rest) = item :: rest
    rw [ih hrest, place_of_le key hle]

end SchemaKeeper.Ascending
