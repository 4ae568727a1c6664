import SchemaKeeper.Container.Held

/-!
# Calls on containers

`Call` lists what can be done to a container, `Held.perform` does it at a place within nested
containers.  A refused call changes nothing; a call with several values takes all of them or none.
-/
namespace SchemaKeeper

/-- A change to a list or to a dict. -/
inductive Call where
  | push (v : Value)
  | setAt (index : Nat) (v : Value)
  | insertAt (index : Nat) (v : Value)
  | extend (vs : List Value)
  | pop
  | removeAt (index : Nat)
  | clear
  | insert (key : String) (v : Value)
  | setDefault (key : String) (v : Value)
  | update (entries : List (String × Value))
  | remove (key : String)

/-- One step down from a container: to an item of a list or to an entry of a dict. -/
inductive Step where
  | index (i : Nat)
  | key (k : String)

/-- What a call answers: that it was done, or what it replaced, took out or found, if anything. -/
inductive Answer where
  | done
  | held (h : Option Held)

namespace Held

/-- Refuses an index that is not below the bound. -/
def checkIndex (b : Binding) (items : List Held) (index bound : Nat) : Except Refusal Unit :=
  if index < bound then .ok () else .error (.outOfBounds b.path index items.length)

/-- What a call does to a list: its answer and the list after it. -/
def onList (s : Schema) (b : Binding) (items : List Held) :
    Call → Option (Except Refusal (Answer × List Held))
  | .push v => some do
    let h ← b.hold s v
    return (.done, items ++ [h])
  | .setAt index v => some do
    checkIndex b items index items.length
    let h ← b.hold s v
    return (.done, items.set index h)
  | .insertAt index v => some do
    checkIndex b items index (items.length + 1)
    let h ← b.hold s v
    return (.done, items.take index ++ h :: items.drop index)
  | .extend vs => some do
    let hs ← holdItems (b.hold s) vs
    return (.done, items ++ hs)
  | .pop => some (.ok (.held items.getLast?, items.dropLast))
  | .removeAt index => some do
    checkIndex b items index items.length
    return (.held items[index]?, items.eraseIdx index)
  | .clear => some (.ok (.done, []))
  | _ => none

/-- What a call does to a dict: its answer and the dict after it. -/
def onDict (s : Schema) (b : Binding) (entries : List (String × Held)) :
    Call → Option (Except Refusal (Answer × List (String × Held)))
  | .insert key v => some do
    let h ← b.hold s v
    return (.held (Entries.get? entries key), Entries.insert key h entries)
  | .setDefault key v => some do
    let h ← b.hold s v
    return match Entries.get? entries key with
      | some old => (.held (some old), entries)
      | none => (.held (some h), Entries.insert key h entries)
  | .update vs => some do
    let hs ← holdEntries (b.hold s) vs
    return (.done, hs.foldl (fun es e => Entries.insert e.1 e.2 es) entries)
  | .remove key => some (.ok (.held (Entries.get? entries key), Entries.erase key entries))
  | _ => none

/-- What a call does to a held value; nothing if it is no container that knows the call. -/
def call (s : Schema) (c : Call) : Held → Option (Except Refusal (Answer × Held))
  | .value _ => none
  | .list b items => (onList s b items c).map fun r => r.map fun (a, items) => (a, .list b items)
  | .dict b entries =>
    (onDict s b entries c).map fun r => r.map fun (a, entries) => (a, .dict b entries)

/-- What is held one step down. -/
def child? : Step → Held → Option Held
  | .index i, .list _ items => items[i]?
  | .key k, .dict _ entries => Entries.get? entries k
  | _, _ => none

/-- Puts another held value one step down. -/
def setChild (h : Held) : Step → Held → Held
  | .index i, .list b items => .list b (items.set i h)
  | .key k, .dict b entries => .dict b (Entries.insert k h entries)
  | _, other => other

/-- What is held at the end of steps down. -/
def reach? : List Step → Held → Option Held
  | [], h => some h
  | s :: ss, h => h.child? s >>= reach? ss

/-- Does a call at the end of steps down; nothing if there is no container that knows it. -/
def perform (s : Schema) (c : Call) :
    List Step → Held → Option (Except Refusal (Answer × Held))
  | [], h => h.call s c
  | step :: steps, h => do
    let inner ← h.child? step
    let result ← perform s c steps inner
    return result.map fun (answer, inner) => (answer, setChild inner step h)

end Held
end SchemaKeeper
