import SchemaKeeper.Dataset.Lifecycle
import SchemaKeeper.Proofs.Container.Runs
import SchemaKeeper.Proofs.Session.Basic

/-!
# Containers and the live schema

A container outlives the type that it was made for.  While the schema is edited it stays bound to
the path of its field and to the number of layers above it, and each call asks the schema as it is
then.  The layers of the live type are taken off whatever kind they are of, and where there are none
left a value of any type is taken.
-/
namespace SchemaKeeper

namespace Held
variable {s : Schema} {path : String} {level : Nat} {t : FieldType} {b : Binding} {h h' : Held}

/-- The containers in the held value are bound to the path, each to the number of layers above it,
of which as many as the level are above the held value itself. -/
inductive Bound (path : String) : Nat → Held → Prop
  | value {level : Nat} (v : Value) : Bound path level (.value v)
  | list {level : Nat} {items : List Held} (hi : ∀ h ∈ items, Bound path (level + 1) h) :
      Bound path level (.list ⟨path, level⟩ items)
  | dict {level : Nat} {entries : List (String × Held)}
      (he : ∀ e ∈ entries, Bound path (level + 1) e.2) :
      Bound path level (.dict ⟨path, level⟩ entries)

theorem Sits.bound : ∀ {t : FieldType} {level : Nat} {h : Held},
    Sits path level t h → Bound path level h
  | .list _, _, .list _ _, ⟨rfl, hs⟩ => .list fun x hx => (hs x hx).bound
  | .dict _, _, .dict _ _, ⟨rfl, hs⟩ => .dict fun e he => (hs e he).bound
  | .scalar _, _, .value v, _ | .tuple _, _, .value v, _ | .document _, _, .value v, _ => .value v

theorem Bound.binding (hh : Bound path level h) (hb : h.binding? = some b) : b = ⟨path, level⟩ := by
  cases hh <;> cases hb <;> rfl

/-! ## Steps down -/

theorem Bound.child {step : Step} {inner : Held} (hh : Bound path level h)
    (hc : h.child? step = some inner) : Bound path (level + 1) inner := by
  cases hh with
  | value v => cases step <;> cases hc
  | list hi =>
    cases step with
    | index i => exact hi inner (List.mem_of_getElem? hc)
    | key k => cases hc
  | dict he =>
    cases step with
    | index i => cases hc
    | key k => exact he (k, inner) (Entries.mem_of_get? hc)

theorem Bound.setChild {inner : Held} (hh : Bound path level h) (step : Step)
    (hin : Bound path (level + 1) inner) : Bound path level (inner.setChild step h) := by
  cases hh with
  | value v => cases step <;> exact .value v
  | list hi =>
    cases step with
    | index i =>
      refine .list fun x hx => ?_
      rcases List.mem_or_eq_of_mem_set hx with hx | rfl
      · exact hi x hx
      · exact hin
    | key k => exact .list hi
  | dict he =>
    cases step with
    | index i => exact .dict he
    | key k =>
      refine .dict fun e hmem => ?_
      rcases Entries.mem_insert hmem with rfl | hmem
      · exact hin
      · exact he e hmem

/-- What is reached has as many layers more above it as steps were taken. -/
theorem Bound.reach {steps : List Step} {inner : Held} (hh : Bound path level h)
    (hr : reach? steps h = some inner) : Bound path (level + steps.length) inner := by
  induction steps generalizing level h with
  | nil =>
    injection hr with hr
    exact hr ▸ hh
  | cons step steps ih =>
    obtain ⟨child, hc, hr⟩ := Option.bind_eq_some_iff.1 hr
    have hinner := ih (hh.child hc) hr
    rwa [Nat.add_right_comm, Nat.add_assoc] at hinner

/-! ## Calls -/

/-- What enters a container is bound one layer below it, whatever type it was asked. -/
theorem bound_of_binding_hold {v : Value} (hh : Binding.hold ⟨path, level⟩ s v = .ok h) :
    Bound path (level + 1) h := by
  obtain ⟨t, -, hh⟩ := Binding.hold_eq_ok_iff.1 hh
  exact (sits_of_hold t hh).bound

theorem bound_of_holdField {v : Value} (hh : holdField s path v = .ok h) : Bound path 0 h := by
  obtain ⟨t, -, hh⟩ := holdField_eq_ok_iff.1 hh
  exact (sits_of_hold t hh).bound

theorem Bound.call {c : Call} {a : Answer} (hh : Bound path level h)
    (hc : h.call s c = some (.ok (a, h'))) : Bound path level h' := by
  cases hh with
  | value v => cases hc
  | list hi =>
    obtain ⟨items', hr, rfl⟩ := call_list_ok hc
    exact .list (onList_forall hi (fun _ _ => bound_of_binding_hold) hr)
  | dict he =>
    obtain ⟨entries', hr, rfl⟩ := call_dict_ok hc
    exact .dict (onDict_forall he (fun _ _ => bound_of_binding_hold) hr)

/-- Calls at any depth leave every container bound as it was. -/
theorem Bound.perform {c : Call} {steps : List Step} {a : Answer} (hh : Bound path level h)
    (hp : h.perform s c steps = some (.ok (a, h'))) : Bound path level h' := by
  induction steps generalizing level h h' with
  | nil => exact hh.call hp
  | cons step steps ih =>
    obtain ⟨inner, inner', hinner, hr, rfl⟩ := perform_cons_ok hp
    exact hh.setChild step (ih (hh.child hinner) hr)

theorem Bound.after {m : Touch} (hh : Bound path level h) : Bound path level (h.after m) := by
  unfold Held.after
  split
  · rename_i hp
    exact hh.perform hp
  · exact hh

/-- What a list answers was in it. -/
theorem onList_answer {P : Held → Prop} {items items' : List Held} {c : Call} {x : Held}
    (hP : ∀ y ∈ items, P y) (h : onList s b items c = some (.ok (.held (some x), items'))) :
    P x := by
  cases c with
  | push v | setAt index v | insertAt index v | extend vs =>
    simp [onList, bind_eq_ok_iff] at h
  | pop =>
    simp only [onList, Option.some.injEq, Except.ok.injEq, Prod.mk.injEq, Answer.held.injEq] at h
    exact hP x (List.mem_of_getLast? h.1)
  | removeAt index =>
    obtain ⟨-, -, h⟩ := bind_eq_ok_iff.1 (Option.some.inj h)
    simp only [pure_eq_ok, Except.ok.injEq, Prod.mk.injEq, Answer.held.injEq] at h
    exact hP x (List.mem_of_getElem? h.1)
  | clear => simp [onList] at h
  | insert key v | setDefault key v | update entries | remove key => cases h

/-- What a dict answers was in it or has entered through the binding. -/
theorem onDict_answer {P : Held → Prop} {entries entries' : List (String × Held)} {c : Call}
    {x : Held} (hP : ∀ e ∈ entries, P e.2) (hin : ∀ v y, b.hold s v = .ok y → P y)
    (h : onDict s b entries c = some (.ok (.held (some x), entries'))) : P x := by
  have hget : ∀ {key}, Entries.get? entries key = some x → P x := fun hk =>
    hP _ (Entries.mem_of_get? hk)
  cases c with
  | insert key v =>
    obtain ⟨y, -, h⟩ := bind_eq_ok_iff.1 (Option.some.inj h)
    simp only [pure_eq_ok, Except.ok.injEq, Prod.mk.injEq, Answer.held.injEq] at h
    exact hget h.1
  | setDefault key v =>
    obtain ⟨y, hy, h⟩ := bind_eq_ok_iff.1 (Option.some.inj h)
    split at h
    all_goals simp only [pure_eq_ok, Except.ok.injEq, Prod.mk.injEq, Answer.held.injEq,
      Option.some.injEq] at h
    · rename_i hold
      exact hget (h.1 ▸ hold)
    · exact h.1 ▸ hin v y hy
  | update vs => simp [onDict, bind_eq_ok_iff] at h
  | remove key =>
    simp only [onDict, Option.some.injEq, Except.ok.injEq, Prod.mk.injEq, Answer.held.injEq] at h
    exact hget h.1
  | push v | setAt index v | insertAt index v | extend vs | pop | removeAt index | clear => cases h

theorem Bound.call_answer {c : Call} {x : Held} (hh : Bound path level h)
    (hc : h.call s c = some (.ok (.held (some x), h'))) : Bound path (level + 1) x := by
  cases hh with
  | value v => cases hc
  | list hi =>
    obtain ⟨items', hr, rfl⟩ := call_list_ok hc
    exact onList_answer hi hr
  | dict he =>
    obtain ⟨entries', hr, rfl⟩ := call_dict_ok hc
    exact onDict_answer he (fun _ _ => bound_of_binding_hold) hr

/-- What a call takes out or answers is bound to as many layers as were above it. -/
theorem Bound.perform_answer {c : Call} {steps : List Step} {x : Held} (hh : Bound path level h)
    (hp : h.perform s c steps = some (.ok (.held (some x), h'))) :
    Bound path (level + steps.length + 1) x := by
  induction steps generalizing level h h' with
  | nil => exact hh.call_answer hp
  | cons step steps ih =>
    obtain ⟨inner, inner', hinner, hr, rfl⟩ := perform_cons_ok hp
    have hx := ih (hh.child hinner) hr
    rwa [Nat.add_right_comm level 1, Nat.add_assoc level] at hx

/-- A container takes a value exactly if a type is declared at its path and the value is an instance
of what is left of that type below the layers above the container and its own. -/
theorem binding_hold_iff {v : Value} : (∃ x, Binding.hold b s v = .ok x) ↔
    ∃ t, s.typeAt b.path = .ok t ∧ v.fits (Shape.element^[b.level + 1] t) = true := by
  cases ht : s.typeAt b.path with
  | ok t => simpa using binding_hold_ok_iff ht
  | error e =>
    refine iff_of_false (fun ⟨x, hx⟩ => ?_) nofun
    obtain ⟨t, ht', -⟩ := Binding.hold_eq_ok_iff.1 hx
    rw [Binding.typeIn, ht] at ht'
    cases ht'

end Held

/-! ## A dataset that is edited while its containers are in use -/

/-- A dataset in the hands of a client, the workspace on which it is committed, and the containers
that the client has made for its fields, by number. -/
structure Bench where
  workspace : Workspace
  dataset : Dataset
  containers : Nat → Option Held

/-- What a client does with a dataset and its containers.  A container is made as a list, as a dict
or with the value of a field of a record, or it is what a call on another one answers; meanwhile
others may change the store. -/
inductive Bench.Move where
  | list (i : Nat) (path : String) (items : List Value)
  | dict (i : Nat) (path : String) (entries : List (String × Value))
  | record (i : Nat) (r : Record) (path : String) (v : Value)
  | addField (path : String) (type : FieldType)
  | removeField (path : String)
  | commit
  | others (ws : Workspace)
  | call (i : Nat) (steps : List Step) (c : Call)
  | take (i j : Nat) (steps : List Step) (c : Call)

namespace Bench
variable {b : Bench} {i : Nat} {path : String} {moves : List Move}

/-- The bench with a container under a number, unless it was refused. -/
def seat (b : Bench) (i : Nat) : Except Refusal Held → Bench
  | .ok h => { b with containers := fun j => if j = i then some h else b.containers j }
  | .error _ => b

/-- The bench after an edit of the live schema, unless it was refused. -/
def edit (b : Bench) : Except Refusal Dataset → Bench
  | .ok d => { b with dataset := d }
  | .error _ => b

/-- The value that a record holds for a field once it is set. -/
def heldOf (r : Record) (s : Schema) (path : String) (v : Value) : Except Refusal Held :=
  (r.set s path v).map fun r => (r.fields.get? path).getD (.value v)

def after (b : Bench) : Move → Bench
  | .list i path items => b.seat i (b.dataset.list path items)
  | .dict i path entries => b.seat i (b.dataset.dict path entries)
  | .record i r path v => b.seat i (heldOf r b.dataset.live path v)
  | .addField path type => b.edit (b.dataset.addField path type)
  | .removeField path => b.edit (b.dataset.removeField path)
  | .commit =>
    match b.dataset.commit b.workspace with
    | .ok d ws => { b with workspace := ws, dataset := d }
    | .error _ ws => { b with workspace := ws }
  | .others ws => { b with workspace := ws }
  | .call i steps c =>
    match b.containers i with
    | some h => b.seat i (.ok (h.after ⟨b.dataset.live, steps, c⟩))
    | none => b
  | .take i j steps c =>
    match b.containers i with
    | some h =>
      match h.perform b.dataset.live c steps with
      | some (.ok (.held (some x), h')) => (b.seat i (.ok h')).seat j (.ok x)
      | _ => b
    | none => b

def run (b : Bench) (moves : List Move) : Bench := moves.foldl after b

/-- Every container is bound to the path of a field and to a number of layers. -/
def Bound (b : Bench) : Prop :=
  ∀ i h, b.containers i = some h → ∃ path level, Held.Bound path level h

theorem Bound.seat (hb : b.Bound) {r : Except Refusal Held}
    (hr : ∀ h, r = .ok h → ∃ path level, Held.Bound path level h) : (b.seat i r).Bound := by
  cases r with
  | error e => exact hb
  | ok h =>
    intro j h' hj
    by_cases hji : j = i
    · simp only [Bench.seat, hji, if_true, Option.some.injEq] at hj
      exact hr h' (congrArg _ hj)
    · simp only [Bench.seat, hji, if_false] at hj
      exact hb j h' hj

theorem bound_of_list {d : Dataset} {items : List Value} {h : Held}
    (hh : d.list path items = .ok h) : Held.Bound path 0 h :=
  Held.bound_of_holdField (Dataset.list_eq_ok_iff.1 hh).1

theorem bound_of_dict {d : Dataset} {entries : List (String × Value)} {h : Held}
    (hh : d.dict path entries = .ok h) : Held.Bound path 0 h :=
  Held.bound_of_holdField (Dataset.dict_eq_ok_iff.1 hh).1

theorem bound_of_record {r : Record} {s : Schema} {v : Value} {h : Held}
    (hh : heldOf r s path v = .ok h) : Held.Bound path 0 h := by
  obtain ⟨r', hset, rfl⟩ := map_eq_ok_iff.1 hh
  rw [Record.set] at hset
  split at hset
  · cases hset
  · obtain ⟨x, hx, hset⟩ := bind_eq_ok_iff.1 hset
    cases hset
    rw [Keyed.get?_insert, if_pos rfl]
    exact Held.bound_of_holdField hx

/-- Edits of the schema leave the containers as they are, and calls leave them bound. -/
theorem Bound.after (hb : b.Bound) (m : Move) : (b.after m).Bound := by
  cases m with
  | list i path items => exact hb.seat fun h hh => ⟨path, 0, bound_of_list hh⟩
  | dict i path entries => exact hb.seat fun h hh => ⟨path, 0, bound_of_dict hh⟩
  | record i r path v => exact hb.seat fun h hh => ⟨path, 0, bound_of_record hh⟩
  | addField path type =>
    rw [Bench.after]
    cases b.dataset.addField path type <;> exact hb
  | removeField path =>
    rw [Bench.after]
    cases b.dataset.removeField path <;> exact hb
  | commit =>
    rw [Bench.after]
    cases b.dataset.commit b.workspace <;> exact hb
  | others ws => exact hb
  | call i steps c =>
    rw [Bench.after]
    cases hi : b.containers i with
    | none => exact hb
    | some h =>
      obtain ⟨path, level, hh⟩ := hb i h hi
      refine hb.seat fun h' hh' => ⟨path, level, ?_⟩
      obtain rfl := Except.ok.inj hh'
      exact hh.after
  | take i j steps c =>
    rw [Bench.after]
    cases hi : b.containers i with
    | none => exact hb
    | some h =>
      obtain ⟨path, level, hh⟩ := hb i h hi
      dsimp only
      split
      · rename_i x h' hp
        refine (hb.seat fun y hy => ⟨path, level, ?_⟩).seat
          fun y hy => ⟨path, level + steps.length + 1, ?_⟩
        · obtain rfl := Except.ok.inj hy
          exact hh.perform hp
        · obtain rfl := Except.ok.inj hy
          exact hh.perform_answer hp
      · exact hb

theorem Bound.run (hb : b.Bound) : (b.run moves).Bound := by
  induction moves generalizing b with
  | nil => exact hb
  | cons m moves ih => exact ih (hb.after m)

/-- However edits of the schema, commits and calls alternate, a container keeps the path of the
field that it was made for and the number of layers that were above it then, and one within it is
bound to the steps to it as well.  A call that it knows goes through exactly if the index is in
bounds and, for every value that is to enter, the live schema declares a type at the path at that
moment, of which the value is an instance after the layers above the container and one for itself
are taken off.  A list or a dict loses its layer, be the container of that kind or not, and anything
else becomes the type of any value. -/
theorem perform_checks_live (hb : b.containers = fun _ => none) {h inner : Held}
    {binding : Binding} {steps : List Step} {c : Call} {r : Except Refusal (Answer × Held)}
    (hh : (b.run moves).containers i = some h) (hr : Held.reach? steps h = some inner)
    (hbinding : inner.binding? = some binding)
    (hc : inner.call (b.run moves).dataset.live c = some r) :
    (∃ path level, Held.Bound path level h ∧ binding = ⟨path, level + steps.length⟩) ∧
      ((∃ x, h.perform (b.run moves).dataset.live c steps = some (.ok x)) ↔
        c.inBounds inner.size ∧ ∀ v ∈ c.values, ∃ t,
          (b.run moves).dataset.live.typeAt binding.path = .ok t ∧
            v.fits (Shape.element^[binding.level + 1] t) = true) := by
  have hnone : b.Bound := fun j h' hj => by
    rw [hb] at hj
    cases hj
  obtain ⟨path, level, hbound⟩ := hnone.run i h hh
  refine ⟨⟨path, level, hbound, (hbound.reach hr).binding hbinding⟩, ?_⟩
  simp only [← Held.binding_hold_iff]
  rw [Held.perform_ok_iff hr, hc, ← Held.call_ok_iff hbinding hc]
  simp

section Sample

/-- A dataset with a grid of integers, on a new store and without containers. -/
def sampleBench : Bench :=
  ⟨World.sampleWorld.workspace, ⟨World.sampleConnection, .detached, Held.sampleGrid⟩, fun _ => none⟩

/-- The grid is made and its type is changed twice, to a grid of texts and to one integer. -/
def sampleMoves : List Move :=
  [.list 0 "grid" [.list [.int 1]], .addField "grid" (.list (.dict (.scalar .string))),
    .call 0 [.index 0] (.push (.string "two")), .addField "grid" (.scalar .int)]

/-- Before the second change the inner list takes texts, as the dict does that is declared by
then. -/
theorem perform_checks_live_sample : ∃ h inner,
    (sampleBench.run (sampleMoves.take 3)).containers 0 = some h ∧
      Held.reach? [.index 0] h = some inner ∧ inner.binding? = some ⟨"grid", 1⟩ ∧
      ∃ x, h.perform (sampleBench.run (sampleMoves.take 3)).dataset.live
        (.push (.string "three")) [.index 0] = some (.ok x) := by
  refine ⟨_, _, rfl, rfl, rfl, ?_⟩
  refine (perform_checks_live (b := sampleBench) (i := 0) rfl rfl rfl rfl rfl).2.2 ⟨trivial, ?_⟩
  exact List.forall_mem_singleton.2 ⟨_, rfl, rfl⟩

/-- A container takes values that nothing declares: the type at its path has no layers left, and the
list takes a text beside its integers. -/
theorem perform_without_layer : ∃ h x,
    (sampleBench.run sampleMoves).containers 0 = some h ∧ h.binding? = some ⟨"grid", 0⟩ ∧
      (sampleBench.run sampleMoves).dataset.live.typeAt "grid" = .ok (.scalar .int) ∧
      h.perform (sampleBench.run sampleMoves).dataset.live (.push (.string "four")) [] =
        some (.ok x) :=
  ⟨_, _, rfl, rfl, rfl, rfl⟩

end Sample

end Bench
end SchemaKeeper
