import Mathlib.Data.List.Induction
import SchemaKeeper.Proofs.Dataset.Revision
import SchemaKeeper.Proofs.Session.Backed

/-!
# Versions of a stored definition

A deed leaves a stored definition as it is unless a client commits the dataset or loads it.  What is
stored afterwards is then made of the version before and of the one that was committed.
-/
namespace SchemaKeeper

open Catalog Op

/-- What a deed commits: the holding of its client, if the deed is a commit and is granted. -/
def Deed.committing? (w : World) : Deed → Option Holding
  | .act _ (.commit i) =>
    (w.granted? i Dataset.commit).bind fun g => g.1.dataset.standing.holding?
  | _ => none

namespace World
variable {guarded : Prop} {c c' : Connection} {l : Ledger} {w : World} {ws' : Workspace} {e : Deed}
  {i : Nat} {x : Client} {held : Holding} {id : Uuid} {d' : Definition}

theorem committing?_eq_some (h : e.committing? w = some held) :
    ∃ c' i x d ws, e = .act c' (.commit i) ∧ w.clients i = some x ∧
      x.dataset.standing.holding? = some held ∧ x.dataset.commit w.workspace = .ok d ws := by
  cases e with
  | assign j live => cases h
  | act c' a =>
    cases a with
    | commit i =>
      obtain ⟨⟨x, d, ws⟩, hg, hheld⟩ := Option.bind_eq_some_iff.1 h
      obtain ⟨hx, hop⟩ := granted?_eq_some hg
      exact ⟨c', i, x, d, ws, rfl, hx, hheld, hop⟩
    | create | load | read | addField | removeField | delete | save => cases h

theorem committing?_of_granted {d : Dataset} {ws : Workspace} (hx : w.clients i = some x)
    (hheld : x.dataset.standing.holding? = some held)
    (hop : x.dataset.commit w.workspace = .ok d ws) :
    (Deed.act c' (.commit i)).committing? w = some held := by
  simp [Deed.committing?, granted?, hx, hop, hheld]

/-- How the definition that is stored under an identifier after a deed comes from the one that was
stored before, if there was one. -/
inductive Revision (w : World) (e : Deed) (ws' : Workspace) :
    Option Definition → Definition → Prop where
  | kept {d : Definition}
    (spared : ∀ held, e.committing? w = some held → held.definition.id ≠ d.id) :
    Revision w e ws' (some d) d
  | committed {d d' : Definition} (held : Holding) (commits : e.committing? w = some held)
    (id : held.definition.id = d.id)
    (revises : Definition.Revises w.workspace.supply.ids w.workspace.supply.drawn
      ws'.supply.drawn held.definition d d') : Revision w e ws' (some d) d'
  | loaded {d d' : Definition} (k : Nat) (loads : e.committing? w = none)
    (le : w.workspace.supply.read ≤ k) (lt : k < ws'.supply.read)
    (revises : Definition.Revises w.workspace.supply.ids w.workspace.supply.drawn
      ws'.supply.drawn { d with lastLoadedAt := w.workspace.supply.clock k } d d')
    (keeps : ∀ path name, d'.collections.get? path = some name →
      d.collections.get? path = some name) : Revision w e ws' (some d) d'
  | created {d' : Definition} (j k : Nat) (le : w.workspace.supply.drawn ≤ j)
    (lt : j < ws'.supply.drawn) (id : d'.id = ws'.supply.ids j)
    (read : k < ws'.supply.read)
    (date : d'.lastLoadedAt = ws'.supply.clock k) : Revision w e ws' none d'

theorem Revision.same (h : c.stored? ws'.store.catalog id = some d')
    (hsame : c.stored? ws'.store.catalog id = c.stored? w.workspace.store.catalog id)
    (hspared : ∀ held, e.committing? w = some held → held.definition.id ≠ d'.id) :
    Revision w e ws' (c.stored? w.workspace.store.catalog id) d' := by
  rw [← hsame, h]
  exact .kept hspared

/-- A commit stores a new version of what its client holds. -/
theorem commit_revision (h : Steady guarded c l w) (hx : w.clients i = some x)
    (hheld : x.dataset.standing.holding? = some held) {d : Dataset} {ws : Workspace}
    (hop : x.dataset.commit w.workspace = .ok d ws)
    (hd' : c.stored? ws.store.catalog id = some d') :
    Revision w (.act c' (.commit i)) ws
      (c.stored? w.workspace.store.catalog id) d' := by
  have hcommits : (Deed.act c' (.commit i)).committing? w = some held :=
    committing?_of_granted hx hheld hop
  obtain ⟨hc, -, hholds, -⟩ := h.clients i x hx
  obtain ⟨_, _, _, _, _, ws₁, ws₂, hran⟩ := Dataset.commit_ok hop
  obtain ⟨_, held', -, -, hholds', -, hstores, hpersists⟩ :=
    Dataset.commit_stores (h.stocked.congr hc) hheld (hholds held hheld) hop
  obtain ⟨held₁, latest, hstanding, hlatest, hrevises⟩ :=
    Dataset.commit_revises (h.stocked.congr hc) hheld hop
  rw [hpersists.standing] at hstanding
  injection hstanding with hstanding
  subst hstanding
  have hstored := (hstores.congr hc.symm).stored? h.stocked.keeps (hran.keeps h.stocked.keeps)
    hholds'.traced.writable id
  by_cases hid : held'.definition.id = id
  · rw [if_pos hid, hd'] at hstored
    injection hstored with hstored
    subst hstored
    rw [stored?_congr hc, ← hrevises.id, hid] at hlatest
    obtain ⟨-, hsame⟩ := h.traced_of_stored hlatest
    rw [hlatest]
    exact .committed held hcommits (by rw [hsame, ← hid, hrevises.id]) hrevises
  · rw [if_neg hid] at hstored
    refine .same hd' hstored fun held₂ hheld₂ hsame => hid ?_
    rw [hcommits] at hheld₂
    injection hheld₂ with hheld₂
    subst hheld₂
    obtain ⟨-, hd'⟩ := h.traced_of_stored (hstored.symm.trans hd')
    rw [← hd', ← hsame, hrevises.id]

/-- A creation stores a first version. -/
theorem create_revision (h : Steady guarded c l w) (hc : c'.definitions = c.definitions)
    {name : String} {s : Schema} {mediaType : Option MediaType} {persistent : Bool} {d : Dataset}
    {ws : Workspace} (hf : ws.supply.Fits c.definitions)
    (hop : Dataset.createFrom c' name s mediaType persistent w.workspace = .ok d ws)
    (hd' : c.stored? ws.store.catalog id = some d') :
    Revision w (.act c' (.create i name s mediaType persistent)) ws
      (c.stored? w.workspace.store.catalog id) d' := by
  obtain ⟨-, ws₁, ws₂, hran⟩ := Dataset.createFrom_ok hop
  obtain ⟨_, held, j, -, -, hholds, hj, hj', hid, hstores, hstocked, hpersists⟩ :=
    Dataset.createFrom_stores (h.stocked.congr hc) (hc ▸ hf) hop
  have hstored := (hstores.congr hc.symm).stored? h.stocked.keeps hstocked.keeps
    hholds.traced.writable id
  by_cases heq : held.definition.id = id
  · obtain ⟨held', k, hstanding, hk, hdate⟩ := Dataset.createFrom_dated hop
    rw [hpersists.standing] at hstanding
    injection hstanding with hstanding
    subst hstanding
    have hnone : c.stored? w.workspace.store.catalog id = none :=
      Option.eq_none_iff_forall_ne_some.2 fun d₀ hd₀ => by
        obtain ⟨ht, hid₀⟩ := h.traced_of_stored hd₀
        exact ht.ne_fresh hran.supply_later hf hj hj' ((hid₀.trans heq.symm).trans hid)
    rw [if_pos heq, hd'] at hstored
    injection hstored with hstored
    subst hstored
    rw [hnone]
    exact .created j k hj hj' hid hk hdate
  · rw [if_neg heq] at hstored
    exact .same hd' hstored nofun

/-- A load stores a new version of what it has read. -/
theorem load_revision (h : Steady guarded c l w) (hc : c'.definitions = c.definitions)
    (hq : c'.Quiet) {key : DatasetKey} {d : Dataset} {ws : Workspace}
    (hf : ws.supply.Fits c.definitions) (hb : w.workspace.store.catalog.Backed c)
    (hop : Dataset.load c' key w.workspace = .ok d ws)
    (hd' : c.stored? ws.store.catalog id = some d') :
    Revision w (.act c' (.load i key)) ws (c.stored? w.workspace.store.catalog id) d' := by
  have hb' : w.workspace.store.catalog.Backed c' := fun id d hd =>
    hb id d (stored?_congr hc _ _ ▸ hd)
  obtain ⟨_, held, -, -, hholds, -, hstores, hstocked, -, hpersists⟩ :=
    Dataset.load_stores hq h.closed (h.stocked.congr hc) (hc ▸ hf) hop
  obtain ⟨held', latest, k, hstanding, hlatest, hk, hk', hrevises, hnew⟩ :=
    Dataset.load_revises hq h.closed (h.stocked.congr hc) (hc ▸ hf) hb' hop
  rw [hpersists.standing] at hstanding
  injection hstanding with hstanding
  subst hstanding
  have hstored := (hstores.congr hc.symm).stored? h.stocked.keeps hstocked.keeps
    hholds.traced.writable id
  by_cases heq : held.definition.id = id
  · rw [if_pos heq, hd'] at hstored
    injection hstored with hstored
    subst hstored
    rw [stored?_congr hc, heq] at hlatest
    rw [hlatest]
    exact .loaded k rfl hk hk' hrevises hnew
  · rw [if_neg heq] at hstored
    exact .same hd' hstored nofun

/-- Every version that is stored after a deed comes from the one before in one of these ways. -/
theorem does_revision (ho : e.Over c) (h : Steady guarded c l w)
    (hf : (w.does e).workspace.supply.Fits c.definitions)
    (hb : w.workspace.store.catalog.Backed c)
    (hd' : c.stored? (w.does e).workspace.store.catalog id = some d') :
    Revision w e (w.does e).workspace (c.stored? w.workspace.store.catalog id) d' := by
  cases hcommits : e.committing? w with
  | some held =>
    obtain ⟨c', i, x, d, ws, rfl, hx, hheld, hop⟩ := committing?_eq_some hcommits
    rw [does_commit hx hop] at hd' ⊢
    exact commit_revision h hx hheld hop hd'
  | none =>
    have hspared : ∀ held, e.committing? w = some held → held.definition.id ≠ d'.id := by
      intro held hheld
      rw [hcommits] at hheld
      cases hheld
    have hkeeps := (does_commits ho h.closed).keeps h.stocked.keeps
    have hgoes := does_goes ho h.closed
    generalize w.does e = w' at hgoes hf hkeeps hd' ⊢
    cases hgoes with
    | stays unchanged => exact .same hd' (by rw [unchanged.catalog]) hspared
    | addField | removeField | assign => exact .same hd' rfl hspared
    | read granted =>
      have hrests := ((Dataset.observes_read _ _).ok granted).2
      exact .same hd' (congrArg (c.stored? · id) (congrArg Store.catalog hrests.store)) hspared
    | create granted => exact create_revision h ho.1 hf granted hd'
    | load granted => exact load_revision h ho.1 ho.2 hf hb granted hd'
    | @commit _ i x d ws client granted =>
      obtain ⟨held, _, _, hheld, -⟩ := Dataset.commit_ok granted
      rw [committing?_of_granted client hheld granted] at hcommits
      cases hcommits
    | delete client granted =>
      obtain ⟨held, names, -, -, -, -, hremoves⟩ := h.deletes client hf granted
      have hstored := hremoves.stored? h.stocked.keeps hkeeps id
      by_cases heq : held.definition.id = id
      · rw [if_pos heq] at hstored
        cases hstored.symm.trans hd'
      · rw [if_neg heq] at hstored
        exact .same hd' hstored hspared
    | save client granted =>
      obtain ⟨-, p, hfills, hp⟩ := h.saves client hf granted
      exact .same hd' (hfills.stored? h.stocked.keeps hkeeps hp id) hspared

/-! ## Along a session -/

section Play
variable {w₀ : World} {d : Definition} {deeds front back rest : List Deed}

theorem fits_of_append (ho : ∀ e ∈ front ++ rest, e.Over c) (ht : w.workspace.transaction = none)
    (hf : (w.play (front ++ rest)).workspace.supply.Fits c.definitions) :
    (w.play front).workspace.supply.Fits c.definitions := by
  obtain ⟨hfront, hrest⟩ := List.forall_mem_append.1 ho
  rw [play_append] at hf
  exact hf.of_later (play_commits hrest (play_commits hfront ht).transaction).supply

/-- What a deed of a session does to a stored definition. -/
theorem revision_of_blank (hb : w₀.Blank) (ho : ∀ e' ∈ front ++ e :: back, e'.Over c)
    (hf : (w₀.play (front ++ e :: back)).workspace.supply.Fits c.definitions)
    (hd' : c.stored? ((w₀.play front).does e).workspace.store.catalog id = some d') :
    Revision (w₀.play front) e ((w₀.play front).does e).workspace
      (c.stored? (w₀.play front).workspace.store.catalog id) d' := by
  have hfront : ∀ e' ∈ front, e'.Over c := fun e' he' => ho e' (List.mem_append_left _ he')
  have hf₁ := fits_of_append ho hb.transaction hf
  rw [List.append_cons] at ho hf
  have hf₂ := fits_of_append ho hb.transaction hf
  rw [play_append] at hf₂
  obtain ⟨l, hsteady⟩ := exists_steady_play hb hfront hf₁
  have hblank : Steady False c (fun k => (w₀.workspace.supply.ids k, "")) w₀ := steady_of_blank hb _
  have hbacked := play_backed hfront hblank hf₁ (backed_of_blank hb)
  exact does_revision (ho e (by simp)) hsteady hf₂ hbacked hd'

/-- What is stored after a deed and was stored some time before was stored right before it. -/
theorem exists_stored_of_does (ho : e.Over c) (h : Steady guarded c l w)
    (hg : guarded → e.IsActOver c) (hf : (w.does e).workspace.supply.Fits c.definitions)
    {s : Supply} (ht : d.Traced guarded l s) (hs : s.Later w.workspace.supply)
    (hd' : c.stored? (w.does e).workspace.store.catalog d.id = some d') :
    ∃ v, c.stored? w.workspace.store.catalog d.id = some v := by
  obtain ⟨l', htakes⟩ := does_takes ho hg h hf
  have hevolves := htakes.effect.evolves h.stocked.keeps htakes.steady.stocked.keeps
  rcases hevolves _ d' hd' with ⟨v, hv, -⟩ | ⟨k, hk, hk', hid⟩
  · exact ⟨v, hv⟩
  · have hlater := hs.trans (does_commits ho h.closed).supply
    exact absurd hid (ht.ne_fresh hlater hf (Nat.le_trans hs.drawn hk) hk')

/-- A definition that is still stored after some deeds was stored all the time, and what every deed
keeps of its versions holds of the last one. -/
theorem play_stored {P : Definition → Prop} (ho : ∀ e ∈ deeds, e.Over c)
    (h : Steady False c l w) (hf : (w.play deeds).workspace.supply.Fits c.definitions)
    (hd : c.stored? w.workspace.store.catalog id = some d) (hP : P d)
    (hstep : ∀ front e back, deeds = front ++ e :: back → ∀ v v',
      c.stored? (w.play front).workspace.store.catalog id = some v →
      c.stored? ((w.play front).does e).workspace.store.catalog id = some v' → P v → P v')
    (hd' : c.stored? (w.play deeds).workspace.store.catalog id = some d') : P d' := by
  induction deeds using List.reverseRecOn generalizing d' with
  | nil => exact Option.some.inj (hd.symm.trans hd') ▸ hP
  | append_singleton front e ih =>
    have hfront : ∀ e' ∈ front, e'.Over c := fun e' he' => ho e' (List.mem_append_left _ he')
    have he : e.Over c := ho e (by simp)
    have hcommits := play_commits hfront h.closed
    have hplay : w.play (front ++ [e]) = (w.play front).does e := play_append w front [e]
    rw [hplay] at hf hd'
    have hf₁ := hf.of_later (does_commits he hcommits.transaction).supply
    obtain ⟨l₁, hcarries⟩ := play_carries hfront False.elim h hf₁
    obtain ⟨ht, rfl⟩ := h.traced_of_stored hd
    obtain ⟨v, hv⟩ := exists_stored_of_does he hcarries.steady False.elim hf
      (ht.mono (.refl _) hcarries.agree) hcommits.supply hd'
    refine hstep front e [] rfl v d' hv hd' (ih hfront hf₁ (fun front' e' back hsplit => ?_) hv)
    exact hstep front' e' (back ++ [e]) (by simp [hsplit])

end Play

end World
end SchemaKeeper
