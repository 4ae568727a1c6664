import Mathlib.Logic.Function.Iterate
import SchemaKeeper.Container.Call
import SchemaKeeper.Dataset.Basic
import SchemaKeeper.Proofs.Record.Take
import SchemaKeeper.Record.Basic

/-!
# Containers under calls

A container keeps no type: it knows its path and its level and asks the schema again for every
value that enters.  `Held.Sits` says that the levels agree with the layers of the declared type at
every depth.  Every call at every depth keeps it, so the whole container stays an instance of the
type, and a container that is some steps down takes in what the type has below as many layers.
-/
namespace SchemaKeeper

/-- As many layers are taken off as there are container layers, and one more. -/
theorem Shape.unwrap_eq_iterate {κ : Type} (t : Shape κ) (level : Nat) :
    t.unwrap level = Shape.element^[level + 1] t := by
  induction level with
  | zero => rfl
  | succ level ih => rw [unwrap, ih, Function.iterate_succ_apply' _ (level + 1)]

/-- The values that a call would bring into a container. -/
def Call.values : Call → List Value
  | .push v | .setAt _ v | .insertAt _ v | .insert _ v | .setDefault _ v => [v]
  | .extend vs => vs
  | .update entries => entries.map Prod.snd
  | .pop | .removeAt _ | .clear | .remove _ => []

/-- The index of a call, if it has one, is one of a list of that many items. -/
def Call.inBounds (size : Nat) : Call → Prop
  | .setAt index _ | .removeAt index => index < size
  | .insertAt index _ => index ≤ size
  | _ => True

theorem holdItems_mem {ask : Value → Except Refusal Held} {vs : List Value} {hs : List Held}
    (h : holdItems ask vs = .ok hs) : ∀ x ∈ hs, ∃ v ∈ vs, ask v = .ok x := by
  induction vs generalizing hs with
  | nil =>
    injection h with h
    simp [← h]
  | cons v vs ih =>
    obtain ⟨x, hx, h⟩ := bind_eq_ok_iff.1 h
    obtain ⟨xs, hxs, h⟩ := bind_eq_ok_iff.1 h
    injection h with h
    subst h
    refine List.forall_mem_cons.2 ⟨⟨v, by simp, hx⟩, fun y hy => ?_⟩
    obtain ⟨w, hw, hask⟩ := ih hxs y hy
    exact ⟨w, List.mem_cons_of_mem _ hw, hask⟩

theorem holdEntries_mem {ask : Value → Except Refusal Held} {es : List (String × Value)}
    {hs : List (String × Held)} (h : holdEntries ask es = .ok hs) :
    ∀ x ∈ hs, ∃ e ∈ es, ask e.2 = .ok x.2 := by
  induction es generalizing hs with
  | nil =>
    injection h with h
    simp [← h]
  | cons e es ih =>
    obtain ⟨x, hx, h⟩ := bind_eq_ok_iff.1 h
    obtain ⟨xs, hxs, h⟩ := bind_eq_ok_iff.1 h
    injection h with h
    subst h
    refine List.forall_mem_cons.2 ⟨⟨e, by simp, hx⟩, fun y hy => ?_⟩
    obtain ⟨f, hf, hask⟩ := ih hxs y hy
    exact ⟨f, List.mem_cons_of_mem _ hf, hask⟩

/-- All items are taken or none. -/
theorem holdItems_ok_iff {ask : Value → Except Refusal Held} {vs : List Value} :
    (∃ hs, holdItems ask vs = .ok hs) ↔ ∀ v ∈ vs, ∃ x, ask v = .ok x := by
  induction vs with
  | nil => simp [holdItems]
  | cons v vs ih => simp [holdItems, bind_eq_ok_iff, ← ih]

/-- All entries are taken or none. -/
theorem holdEntries_ok_iff {ask : Value → Except Refusal Held} {es : List (String × Value)} :
    (∃ hs, holdEntries ask es = .ok hs) ↔ ∀ e ∈ es, ∃ x, ask e.2 = .ok x := by
  induction es with
  | nil => simp [holdEntries]
  | cons e es ih => rw [List.forall_mem_cons, ← ih]; simp [holdEntries, bind_eq_ok_iff]

/-- A list for a field is what the field holds, where this is a list. -/
theorem Dataset.list_eq_ok_iff {d : Dataset} {path : String} {items : List Value} {h : Held} :
    d.list path items = .ok h ↔
      holdField d.live path (.list items) = .ok h ∧ ∃ b hs, h = .list b hs := by
  rw [list, bind_eq_ok_iff]
  constructor
  · rintro ⟨x, hx, hh⟩
    cases x with
    | list b hs =>
      cases hh
      exact ⟨hx, b, hs, rfl⟩
    | value v | dict b hs => cases hh
  · rintro ⟨hh, b, hs, rfl⟩
    exact ⟨_, hh, rfl⟩

/-- A dict for a field is what the field holds, where this is a dict. -/
theorem Dataset.dict_eq_ok_iff {d : Dataset} {path : String} {entries : List (String × Value)}
    {h : Held} : d.dict path entries = .ok h ↔
      holdField d.live path (.dict (Entries.ofList entries)) = .ok h ∧ ∃ b hs, h = .dict b hs := by
  rw [dict, bind_eq_ok_iff]
  constructor
  · rintro ⟨x, hx, hh⟩
    cases x with
    | dict b hs =>
      cases hh
      exact ⟨hx, b, hs, rfl⟩
    | value v | list b hs => cases hh
  · rintro ⟨hh, b, hs, rfl⟩
    exact ⟨_, hh, rfl⟩

namespace Held

/-- The binding of a container. -/
def binding? : Held → Option Binding
  | .value _ => none
  | .list b _ => some b
  | .dict b _ => some b

/-- How many items or entries are in a container. -/
def size : Held → Nat
  | .value _ => 0
  | .list _ items => items.length
  | .dict _ entries => entries.length

/-- The held value sits at the level of the field at the path: it is of the type, and each
container in it is bound to the path and to the number of layers above it. -/
def Sits (path : String) (level : Nat) : FieldType → Held → Prop
  | .list t, .list b items => b = ⟨path, level⟩ ∧ ∀ h ∈ items, Sits path (level + 1) t h
  | .dict t, .dict b entries => b = ⟨path, level⟩ ∧ ∀ e ∈ entries, Sits path (level + 1) t e.2
  | .scalar k, .value v => v.fits (.scalar k) = true
  | .tuple ts, .value v => v.fits (.tuple ts) = true
  | .document c, .value v => v.fits (.document c) = true
  | _, _ => False

variable {s : Schema} {path : String} {level : Nat} {t : FieldType} {b : Binding} {h h' : Held}

theorem Sits.eq_of_list {items : List Held} (hs : Sits path level t (.list b items)) :
    b = ⟨path, level⟩ ∧ ∃ t', t = .list t' ∧ ∀ x ∈ items, Sits path (level + 1) t' x := by
  cases t with
  | list t' => exact ⟨hs.1, t', rfl, hs.2⟩
  | _ => cases hs

theorem Sits.eq_of_dict {entries : List (String × Held)} (hs : Sits path level t (.dict b entries)) :
    b = ⟨path, level⟩ ∧ ∃ t', t = .dict t' ∧ ∀ e ∈ entries, Sits path (level + 1) t' e.2 := by
  cases t with
  | dict t' => exact ⟨hs.1, t', rfl, hs.2⟩
  | _ => cases hs

theorem Sits.binding (hs : Sits path level t h) (hb : h.binding? = some b) : b = ⟨path, level⟩ := by
  cases h with
  | value v => cases hb
  | list c items =>
    injection hb with hb
    exact hb ▸ hs.eq_of_list.1
  | dict c entries =>
    injection hb with hb
    exact hb ▸ hs.eq_of_dict.1

/-! ## What is held sits, and what sits is an instance -/

theorem sits_of_hold : ∀ (t : FieldType) {level : Nat} {v : Value} {h : Held},
    SchemaKeeper.hold path level t v = .ok h → Sits path level t h
  | t, level, v, h, hh => by
    cases t with
    | list t =>
      cases v with
      | list items =>
        obtain ⟨hs, hhs, rfl⟩ := map_eq_ok_iff.1 hh
        refine ⟨rfl, fun x hx => ?_⟩
        obtain ⟨v, -, hask⟩ := holdItems_mem hhs x hx
        exact sits_of_hold t (refuseNull_eq_ok hask)
      | _ => cases hh
    | dict t =>
      cases v with
      | dict entries =>
        obtain ⟨hs, hhs, rfl⟩ := map_eq_ok_iff.1 hh
        refine ⟨rfl, fun e he => ?_⟩
        obtain ⟨v, -, hask⟩ := holdEntries_mem hhs e
          ((Entries.mem_of_mem_foldl_insert hs he).resolve_right List.not_mem_nil)
        exact sits_of_hold t (refuseNull_eq_ok hask)
      | _ => cases hh
    | _ =>
      rw [SchemaKeeper.hold] at hh
      split at hh
      · cases hh
        assumption
      · cases hh

theorem plainItems_eq (hs : List Held) : plainItems hs = hs.map plain := by
  induction hs with
  | nil => rfl
  | cons h hs ih => rw [plainItems, ih, List.map_cons]

theorem Sits.fits : ∀ {t : FieldType} {level : Nat} {h : Held},
    Sits path level t h → h.plain.fits t = true
  | .list t, _, .list _ items, ⟨_, hs⟩ => by
    rw [plain, Value.fits, plainItems_eq, List.all_map, List.all_eq_true]
    exact fun x hx => (hs x hx).fits
  | .dict t, _, .dict _ entries, ⟨_, hs⟩ => by
    rw [plain, Value.fits, plainEntries_eq, Entries.mapValues, List.all_map, List.all_eq_true]
    exact fun e he => (hs e he).fits
  | .scalar _, _, .value _, h => h
  | .tuple _, _, .value _, h => h
  | .document _, _, .value _, h => h

/-! ## Steps down -/

theorem Sits.child {step : Step} {inner : Held} (hs : Sits path level t h)
    (hc : h.child? step = some inner) : Sits path (level + 1) t.element inner := by
  cases h with
  | value v => cases step <;> cases hc
  | list b items =>
    obtain ⟨-, t', rfl, hitems⟩ := hs.eq_of_list
    cases step with
    | index i => exact hitems inner (List.mem_of_getElem? hc)
    | key k => cases hc
  | dict b entries =>
    obtain ⟨-, t', rfl, hentries⟩ := hs.eq_of_dict
    cases step with
    | index i => cases hc
    | key k => exact hentries (k, inner) (Entries.mem_of_get? hc)

theorem Sits.setChild {inner : Held} (hs : Sits path level t h) (step : Step)
    (hi : Sits path (level + 1) t.element inner) : Sits path level t (inner.setChild step h) := by
  cases h with
  | value v => cases step <;> exact hs
  | list b items =>
    cases step with
    | index i =>
      obtain ⟨hb, t', rfl, hitems⟩ := hs.eq_of_list
      refine ⟨hb, fun x hx => ?_⟩
      rcases List.mem_or_eq_of_mem_set hx with hx | rfl
      · exact hitems x hx
      · exact hi
    | key k => exact hs
  | dict b entries =>
    cases step with
    | index i => exact hs
    | key k =>
      obtain ⟨hb, t', rfl, hentries⟩ := hs.eq_of_dict
      refine ⟨hb, fun e he => ?_⟩
      rcases Entries.mem_insert he with rfl | he
      · exact hi
      · exact hentries e he

/-- What is reached sits as many levels down as steps were taken, and its type has as many layers
less. -/
theorem Sits.reach {steps : List Step} {inner : Held} (hs : Sits path level t h)
    (hr : reach? steps h = some inner) :
    Sits path (level + steps.length) (Shape.element^[steps.length] t) inner := by
  induction steps generalizing level t h with
  | nil =>
    injection hr with hr
    exact hr ▸ hs
  | cons step steps ih =>
    obtain ⟨child, hc, hr⟩ := Option.bind_eq_some_iff.1 hr
    have hinner := ih (hs.child hc) hr
    rwa [Nat.add_right_comm, Nat.add_assoc] at hinner

/-! ## Calls -/

/-- A container asks every value the type of its field with the layers taken off down to it. -/
theorem typeIn_eq {D : FieldType} (hD : s.typeAt path = .ok D) (level : Nat) :
    Binding.typeIn ⟨path, level⟩ s = .ok (Shape.element^[level + 1] D) := by
  rw [Binding.typeIn, hD, ok_bind, Shape.unwrap_eq_iterate]
  rfl

/-- What enters a container sits where its type says. -/
theorem sits_of_binding_hold {D : FieldType} {v : Value} (hD : s.typeAt path = .ok D)
    (hh : Binding.hold ⟨path, level⟩ s v = .ok h) :
    Sits path (level + 1) (Shape.element^[level + 1] D) h := by
  obtain ⟨t, ht, hh⟩ := Binding.hold_eq_ok_iff.1 hh
  rw [typeIn_eq hD] at ht
  exact Except.ok.inj ht ▸ sits_of_hold t hh

/-- The items after a call were there before or have entered through the binding. -/
theorem onList_forall {P : Held → Prop} {items items' : List Held} {c : Call} {a : Answer}
    (hP : ∀ x ∈ items, P x) (hin : ∀ v x, b.hold s v = .ok x → P x)
    (h : onList s b items c = some (.ok (a, items'))) : ∀ x ∈ items', P x := by
  cases c with
  | push v =>
    obtain ⟨x, hx, h⟩ := bind_eq_ok_iff.1 (Option.some.inj h)
    cases h
    exact List.forall_mem_append.2 ⟨hP, List.forall_mem_singleton.2 (hin v x hx)⟩
  | setAt index v =>
    obtain ⟨-, -, h⟩ := bind_eq_ok_iff.1 (Option.some.inj h)
    obtain ⟨x, hx, h⟩ := bind_eq_ok_iff.1 h
    cases h
    intro y hy
    rcases List.mem_or_eq_of_mem_set hy with hy | rfl
    · exact hP y hy
    · exact hin v y hx
  | insertAt index v =>
    obtain ⟨-, -, h⟩ := bind_eq_ok_iff.1 (Option.some.inj h)
    obtain ⟨x, hx, h⟩ := bind_eq_ok_iff.1 h
    cases h
    refine List.forall_mem_append.2 ⟨fun y hy => hP y (List.mem_of_mem_take hy), ?_⟩
    exact List.forall_mem_cons.2 ⟨hin v x hx, fun y hy => hP y (List.mem_of_mem_drop hy)⟩
  | extend vs =>
    obtain ⟨xs, hxs, h⟩ := bind_eq_ok_iff.1 (Option.some.inj h)
    cases h
    refine List.forall_mem_append.2 ⟨hP, fun x hx => ?_⟩
    obtain ⟨v, -, hask⟩ := holdItems_mem hxs x hx
    exact hin v x hask
  | pop =>
    cases Option.some.inj h
    exact fun x hx => hP x ((List.dropLast_sublist items).subset hx)
  | removeAt index =>
    obtain ⟨-, -, h⟩ := bind_eq_ok_iff.1 (Option.some.inj h)
    cases h
    exact fun x hx => hP x (List.mem_of_mem_eraseIdx hx)
  | clear =>
    cases Option.some.inj h
    exact nofun
  | insert key v | setDefault key v | update entries | remove key => cases h

/-- The entries after a call were there before or have entered through the binding. -/
theorem onDict_forall {P : Held → Prop} {entries entries' : List (String × Held)} {c : Call}
    {a : Answer} (hP : ∀ e ∈ entries, P e.2) (hin : ∀ v x, b.hold s v = .ok x → P x)
    (h : onDict s b entries c = some (.ok (a, entries'))) : ∀ e ∈ entries', P e.2 := by
  have hinsert : ∀ (key : String) {v x}, b.hold s v = .ok x →
      ∀ e ∈ Entries.insert key x entries, P e.2 := by
    intro key v x hx e he
    rcases Entries.mem_insert he with rfl | he
    · exact hin v x hx
    · exact hP e he
  cases c with
  | insert key v =>
    obtain ⟨x, hx, h⟩ := bind_eq_ok_iff.1 (Option.some.inj h)
    cases h
    exact hinsert key hx
  | setDefault key v =>
    obtain ⟨x, hx, h⟩ := bind_eq_ok_iff.1 (Option.some.inj h)
    split at h
    · cases h
      exact hP
    · cases h
      exact hinsert key hx
  | update vs =>
    obtain ⟨xs, hxs, h⟩ := bind_eq_ok_iff.1 (Option.some.inj h)
    cases h
    intro e he
    rcases Entries.mem_of_mem_foldl_insert xs he with he | he
    · obtain ⟨v, -, hask⟩ := holdEntries_mem hxs e he
      exact hin v.2 e.2 hask
    · exact hP e he
  | remove key =>
    cases Option.some.inj h
    exact fun e he => hP e (List.mem_of_mem_filter he)
  | push v | setAt index v | insertAt index v | extend vs | pop | removeAt index | clear => cases h

/-- What a call that a list takes does to it. -/
theorem call_list_ok {items : List Held} {c : Call} {a : Answer}
    (hc : call s c (.list b items) = some (.ok (a, h'))) :
    ∃ items', onList s b items c = some (.ok (a, items')) ∧ h' = .list b items' := by
  obtain ⟨r, hr, hc⟩ := Option.map_eq_some_iff.1 hc
  obtain ⟨⟨_, items'⟩, rfl, hc⟩ := map_eq_ok_iff.1 hc
  cases hc
  exact ⟨items', hr, rfl⟩

/-- What a call that a dict takes does to it. -/
theorem call_dict_ok {entries : List (String × Held)} {c : Call} {a : Answer}
    (hc : call s c (.dict b entries) = some (.ok (a, h'))) :
    ∃ entries', onDict s b entries c = some (.ok (a, entries')) ∧ h' = .dict b entries' := by
  obtain ⟨r, hr, hc⟩ := Option.map_eq_some_iff.1 hc
  obtain ⟨⟨_, entries'⟩, rfl, hc⟩ := map_eq_ok_iff.1 hc
  cases hc
  exact ⟨entries', hr, rfl⟩

/-- A call further down changes what is held one step down, and puts it back. -/
theorem perform_cons_ok {c : Call} {step : Step} {steps : List Step} {a : Answer}
    (hp : h.perform s c (step :: steps) = some (.ok (a, h'))) :
    ∃ inner inner', h.child? step = some inner ∧
      inner.perform s c steps = some (.ok (a, inner')) ∧ h' = setChild inner' step h := by
  obtain ⟨inner, hinner, hp⟩ := Option.bind_eq_some_iff.1 hp
  obtain ⟨r, hr, hp⟩ := Option.bind_eq_some_iff.1 hp
  obtain ⟨⟨_, inner'⟩, rfl, hp⟩ := map_eq_ok_iff.1 (Option.some.inj hp)
  cases hp
  exact ⟨inner, inner', hinner, hr, rfl⟩

theorem Sits.call {D : FieldType} {c : Call} {a : Answer} (hD : s.typeAt path = .ok D)
    (hs : Sits path level (Shape.element^[level] D) h) (hc : h.call s c = some (.ok (a, h'))) :
    Sits path level (Shape.element^[level] D) h' := by
  have hin : ∀ {t' : FieldType}, Shape.element^[level + 1] D = t' →
      ∀ v x, Binding.hold ⟨path, level⟩ s v = .ok x → Sits path (level + 1) t' x :=
    fun ht v x hx => ht ▸ sits_of_binding_hold hD hx
  generalize ht : Shape.element^[level] D = t at hs
  have hnext : Shape.element^[level + 1] D = t.element := by
    rw [Function.iterate_succ_apply', ht]
  cases h with
  | value v => cases hc
  | list b items =>
    obtain ⟨rfl, t', rfl, hitems⟩ := hs.eq_of_list
    obtain ⟨items', hr, rfl⟩ := call_list_ok hc
    exact ⟨rfl, onList_forall hitems (hin hnext) hr⟩
  | dict b entries =>
    obtain ⟨rfl, t', rfl, hentries⟩ := hs.eq_of_dict
    obtain ⟨entries', hr, rfl⟩ := call_dict_ok hc
    exact ⟨rfl, onDict_forall hentries (hin hnext) hr⟩

/-- Calls at any depth keep what sits. -/
theorem Sits.perform {D : FieldType} {c : Call} {steps : List Step} {a : Answer}
    (hD : s.typeAt path = .ok D) (hs : Sits path level (Shape.element^[level] D) h)
    (hp : h.perform s c steps = some (.ok (a, h'))) :
    Sits path level (Shape.element^[level] D) h' := by
  induction steps generalizing level h h' with
  | nil => exact hs.call hD hp
  | cons step steps ih =>
    obtain ⟨inner, inner', hinner, hr, rfl⟩ := perform_cons_ok hp
    have hchild := hs.child hinner
    rw [← Function.iterate_succ_apply' Shape.element] at hchild
    have hafter := ih hchild hr
    rw [Function.iterate_succ_apply' Shape.element] at hafter
    exact hs.setChild step hafter

/-! ## Which calls are refused -/

theorem checkIndex_ok_iff {items : List Held} {index bound : Nat} :
    (∃ u, checkIndex b items index bound = .ok u) ↔ index < bound := by
  by_cases h : index < bound <;> simp [checkIndex, h]

/-- A list takes a call if its index is one of the list and all its values are taken. -/
theorem onList_ok_iff {items : List Held} {c : Call} {r : Except Refusal (Answer × List Held)}
    (h : onList s b items c = some r) : (∃ x, r = .ok x) ↔
      c.inBounds items.length ∧ ∀ v ∈ c.values, ∃ x, b.hold s v = .ok x := by
  cases c <;> cases h <;>
    simp [Call.inBounds, Call.values, bind_eq_ok_iff, checkIndex_ok_iff, ← holdItems_ok_iff,
      Nat.lt_add_one_iff]

/-- A dict takes a call if all its values are taken. -/
theorem onDict_ok_iff {entries : List (String × Held)} {c : Call}
    {r : Except Refusal (Answer × List (String × Held))} (h : onDict s b entries c = some r) :
    (∃ x, r = .ok x) ↔
      c.inBounds entries.length ∧ ∀ v ∈ c.values, ∃ x, b.hold s v = .ok x := by
  cases c with
  | setDefault key v =>
    cases h
    cases hold : Entries.get? entries key <;> simp [Call.inBounds, Call.values, bind_eq_ok_iff]
  | update vs =>
    cases h
    have hall : (∀ v ∈ vs.map Prod.snd, ∃ x, b.hold s v = .ok x) ↔
        ∀ e ∈ vs, ∃ x, b.hold s e.2 = .ok x := List.forall_mem_map
    rw [Call.values, hall, ← holdEntries_ok_iff]
    simp [Call.inBounds, bind_eq_ok_iff]
  | _ => cases h <;> simp [Call.inBounds, Call.values, bind_eq_ok_iff]

/-- A value is held exactly if it is an instance of the type. -/
theorem hold_ok_iff : ∀ (t : FieldType) {level : Nat} {v : Value},
    (∃ h, SchemaKeeper.hold path level t v = .ok h) ↔ v.fits t = true
  | t, level, v => by
    refine ⟨fun ⟨h, hh⟩ => fits_of_hold v hh, fun hv => ?_⟩
    cases t with
    | list t =>
      cases v with
      | list items =>
        have hitems := List.all_eq_true.1 hv
        have hask : ∀ v ∈ items, ∃ x,
            refuseNull path (fun item => SchemaKeeper.hold path (level + 1) t item) v = .ok x := by
          intro v hin
          rw [refuseNull_of_fits (hitems v hin)]
          exact (hold_ok_iff t).2 (hitems v hin)
        obtain ⟨hs, hhs⟩ := holdItems_ok_iff.2 hask
        exact ⟨.list ⟨path, level⟩ hs, by rw [SchemaKeeper.hold, hhs]; rfl⟩
      | _ => cases hv
    | dict t =>
      cases v with
      | dict entries =>
        have hentries := List.all_eq_true.1 hv
        have hask : ∀ e ∈ entries, ∃ x,
            refuseNull path (fun item => SchemaKeeper.hold path (level + 1) t item) e.2
              = .ok x := by
          intro e hin
          rw [refuseNull_of_fits (hentries e hin)]
          exact (hold_ok_iff t).2 (hentries e hin)
        obtain ⟨hs, hhs⟩ := holdEntries_ok_iff.2 hask
        exact ⟨.dict ⟨path, level⟩ (Entries.ofList hs), by rw [SchemaKeeper.hold, hhs]; rfl⟩
      | _ => cases hv
    | _ => exact ⟨.value v, by rw [SchemaKeeper.hold, if_pos hv]⟩

/-- A container takes the instances of the type of its field with the layers taken off down to
it. -/
theorem binding_hold_ok_iff {D : FieldType} {v : Value} (hD : s.typeAt path = .ok D) :
    (∃ x, Binding.hold ⟨path, level⟩ s v = .ok x) ↔
      v.fits (Shape.element^[level + 1] D) = true := by
  constructor
  · rintro ⟨x, hx⟩
    obtain ⟨t, ht, hx⟩ := Binding.hold_eq_ok_iff.1 hx
    rw [typeIn_eq hD] at ht
    exact Except.ok.inj ht ▸ fits_of_hold v hx
  · intro hv
    obtain ⟨x, hx⟩ : ∃ x, SchemaKeeper.hold path (level + 1) (Shape.element^[level + 1] D) v =
        .ok x := (hold_ok_iff _).2 hv
    exact ⟨x, Binding.hold_eq_ok_iff.2 ⟨_, typeIn_eq hD level, hx⟩⟩

theorem exists_binding_of_call {c : Call} {r : Except Refusal (Answer × Held)}
    (hc : h.call s c = some r) : ∃ b, h.binding? = some b := by
  cases h with
  | value v => cases hc
  | list b items => exact ⟨b, rfl⟩
  | dict b entries => exact ⟨b, rfl⟩

/-- A container takes a call exactly if the index is in bounds and its binding takes every
value. -/
theorem call_ok_iff {c : Call} {r : Except Refusal (Answer × Held)} (hb : h.binding? = some b)
    (hc : h.call s c = some r) :
    (∃ x, r = .ok x) ↔ c.inBounds h.size ∧ ∀ v ∈ c.values, ∃ x, b.hold s v = .ok x := by
  cases h with
  | value v => cases hc
  | list b' items =>
    obtain rfl := Option.some.inj hb
    obtain ⟨q, hq, rfl⟩ := Option.map_eq_some_iff.1 hc
    rw [size, ← onList_ok_iff hq]
    cases q <;> simp [Except.map]
  | dict b' entries =>
    obtain rfl := Option.some.inj hb
    obtain ⟨q, hq, rfl⟩ := Option.map_eq_some_iff.1 hc
    rw [size, ← onDict_ok_iff hq]
    cases q <;> simp [Except.map]

/-- A container that sits takes a call exactly if the index is in bounds and every value is an
instance of the type that is left of the declared one. -/
theorem Sits.call_ok_iff {D : FieldType} {c : Call} {r : Except Refusal (Answer × Held)}
    (hD : s.typeAt path = .ok D) (hs : Sits path level t h) (hc : h.call s c = some r) :
    (∃ x, r = .ok x) ↔ c.inBounds h.size ∧
      ∀ v ∈ c.values, v.fits (Shape.element^[level + 1] D) = true := by
  obtain ⟨b, hb⟩ := exists_binding_of_call hc
  rw [Held.call_ok_iff hb hc, hs.binding hb]
  simp only [binding_hold_ok_iff hD]

/-- A call further down is taken exactly if the container there takes it. -/
theorem perform_ok_iff {c : Call} {steps : List Step} {inner : Held}
    (hr : reach? steps h = some inner) :
    (∃ x, h.perform s c steps = some (.ok x)) ↔ ∃ x, inner.call s c = some (.ok x) := by
  induction steps generalizing h with
  | nil =>
    injection hr with hr
    exact hr ▸ Iff.rfl
  | cons step steps ih =>
    obtain ⟨child, hc, hr⟩ := Option.bind_eq_some_iff.1 hr
    rw [← ih hr, perform, hc]
    cases hp : child.perform s c steps with
    | none => simp [hp]
    | some r => cases r <;> simp [hp, Except.map]

/-! ## Runs -/

/-- A call on a container or on one within it, and the schema as it is then. -/
structure Touch where
  schema : Schema
  steps : List Step
  call : Call

/-- The container after a call; a refused call leaves it as it is. -/
def after (h : Held) (m : Touch) : Held :=
  match h.perform m.schema m.call m.steps with
  | some (.ok (_, h')) => h'
  | _ => h

def run (h : Held) (ms : List Touch) : Held := ms.foldl after h

/-- A container that a client has for a path of a declared type: a list or a dict that the dataset
makes, or the field of a record. -/
inductive Obtained (path : String) (D : FieldType) : Held → Prop
  | list {d : Dataset} {items : List Value} {h : Held} (hD : d.live.typeAt path = .ok D)
      (hh : d.list path items = .ok h) : Obtained path D h
  | dict {d : Dataset} {entries : List (String × Value)} {h : Held}
      (hD : d.live.typeAt path = .ok D) (hh : d.dict path entries = .ok h) : Obtained path D h
  | field {s : Schema} {r r' : Record} {v : Value} {h : Held} (hD : s.typeAt path = .ok D)
      (hset : r.set s path v = .ok r') (hh : r'.fields.get? path = some h) : Obtained path D h

theorem sits_of_holdField {D : FieldType} {v : Value} (hD : s.typeAt path = .ok D)
    (hh : holdField s path v = .ok h) : Sits path 0 D h := by
  obtain ⟨t, ht, hh⟩ := holdField_eq_ok_iff.1 hh
  rw [hD] at ht
  exact Except.ok.inj ht ▸ sits_of_hold t hh

theorem Obtained.sits {D : FieldType} (hh : Obtained path D h) : Sits path 0 D h := by
  cases hh with
  | list hD hh => exact sits_of_holdField hD (Dataset.list_eq_ok_iff.1 hh).1
  | dict hD hh => exact sits_of_holdField hD (Dataset.dict_eq_ok_iff.1 hh).1
  | @field s r r' v h hD hset hh =>
    rw [Record.set] at hset
    split at hset
    · cases hset
    · obtain ⟨x, hx, hset⟩ := bind_eq_ok_iff.1 hset
      cases hset
      rw [Keyed.get?_insert, if_pos rfl] at hh
      cases hh
      exact sits_of_holdField hD hx

theorem Sits.after {D : FieldType} {m : Touch} (hD : m.schema.typeAt path = .ok D)
    (hs : Sits path 0 D h) : Sits path 0 D (h.after m) := by
  unfold Held.after
  split
  · rename_i hp
    exact hs.perform hD hp
  · exact hs

theorem Sits.run {D : FieldType} {ms : List Touch} (hD : ∀ m ∈ ms, m.schema.typeAt path = .ok D)
    (hs : Sits path 0 D h) : Sits path 0 D (h.run ms) := by
  induction ms generalizing h with
  | nil => exact hs
  | cons m ms ih =>
    obtain ⟨hm, hrest⟩ := List.forall_mem_cons.1 hD
    exact ih hrest (hs.after hm)

/-- What is promised of a container for a path of a declared type. -/
structure Obeys (path : String) (D : FieldType) (h : Held) : Prop where
  /-- Its plain value is an instance of the type. -/
  fits : h.plain.fits D = true
  /-- There is no infinite or undefined number in it. -/
  finite : h.plain.isStorable = true
  /-- A refused call leaves the plain value as it is. -/
  refused : ∀ (m : Touch) (e : Refusal),
    h.perform m.schema m.call m.steps = some (.error e) → (h.after m).plain = h.plain
  /-- A container within it knows the path and the number of steps to it, and asks for the type
  without one layer more than that. -/
  nested : ∀ (steps : List Step) (inner : Held) (b : Binding), reach? steps h = some inner →
    inner.binding? = some b → b = ⟨path, steps.length⟩ ∧
      ∀ s : Schema, s.typeAt path = .ok D →
        b.typeIn s = .ok (Shape.element^[steps.length + 1] D)
  /-- A call that a container within it knows is refused only for an index out of bounds or a value
  that is no instance of that type. -/
  taken : ∀ (m : Touch) (inner : Held) (r : Except Refusal (Answer × Held)),
    m.schema.typeAt path = .ok D → reach? m.steps h = some inner →
      inner.call m.schema m.call = some r →
        ((∃ x, h.perform m.schema m.call m.steps = some (.ok x)) ↔ m.call.inBounds inner.size ∧
          ∀ v ∈ m.call.values, v.fits (Shape.element^[m.steps.length + 1] D) = true)

theorem Sits.obeys {D : FieldType} (hs : Sits path 0 D h) : h.Obeys path D where
  fits := hs.fits
  finite := Value.isStorable_of_fits hs.fits
  refused m e he := by rw [Held.after, he]
  nested steps inner b hr hb := by
    obtain rfl := (hs.reach hr).binding hb
    rw [Nat.zero_add]
    exact ⟨rfl, fun s hD => typeIn_eq hD _⟩
  taken m inner r hD hr hc := by
    have hinner := hs.reach hr
    rw [Nat.zero_add] at hinner
    rw [perform_ok_iff hr, hc, ← hinner.call_ok_iff hD hc]
    simp

/-- Whatever is done to a container and to those within it while the type declared at its path
stays, it obeys that type. -/
theorem obeys_run {D : FieldType} {ms : List Touch} (hh : Obtained path D h)
    (hD : ∀ m ∈ ms, m.schema.typeAt path = .ok D) : (h.run ms).Obeys path D :=
  (hh.sits.run hD).obeys

section Sample

/-- A field whose values are lists of lists of integers. -/
def sampleGrid : Schema := .ofTypes [("grid", some (.list (.list (.scalar .int))))]

/-- A call that is refused half way, one on the inner list and one on the outer list. -/
def sampleTouches : List Touch :=
  [⟨sampleGrid, [.index 0], .extend [.int 2, .string "three"]⟩,
    ⟨sampleGrid, [.index 0], .push (.int 2)⟩, ⟨sampleGrid, [], .insertAt 0 (.list [.int 0])⟩]

/-- A record without fields. -/
def sampleRecord : Record := .empty (Uuid.ofNat 0) ⟨"Sample", [], []⟩

theorem obeys_run_sample : ∃ (r : Record) (h : Held),
    sampleRecord.set sampleGrid "grid" (.list [.list [.int 1]]) = .ok r ∧
      r.fields.get? "grid" = some h ∧
      (h.run sampleTouches).Obeys "grid" (.list (.list (.scalar .int))) := by
  have hD : sampleGrid.typeAt "grid" = .ok (.list (.list (.scalar .int))) := rfl
  have hset : sampleRecord.set sampleGrid "grid" (.list [.list [.int 1]]) = .ok _ := rfl
  exact ⟨_, _, hset, rfl, obeys_run (.field hD hset rfl) (by simp [sampleTouches, hD])⟩

end Sample

end Held
end SchemaKeeper
