import SchemaKeeper.Proofs.Clock
import SchemaKeeper.Proofs.Session.Revision

/-!
# The time of the last loading

A commit stores its client's own version of everything but the fields and the retired names.  What
a dataset was created with is the same in all versions, but the time of the last loading is not: a
client that got the dataset before another one loaded it puts the time back when it commits.
-/
namespace SchemaKeeper

open Catalog Op

/-- The deed commits a version that was loaded before the one that is stored. -/
def Deed.SetsBack (c : Connection) (id : Uuid) (w : World) (e : Deed) : Prop :=
  ∃ held d, e.committing? w = some held ∧ held.definition.id = id ∧
    c.stored? w.workspace.store.catalog id = some d ∧
    held.definition.lastLoadedAt < d.lastLoadedAt

namespace World
variable {guarded : Prop} {c : Connection} {l : Ledger} {w w₀ : World} {ws' : Workspace} {e : Deed}
  {id : Uuid} {d d' : Definition} {deeds earlier later : List Deed}

/-- A time that the clock has shown. -/
def Shown (s : Supply) (t : Moment) : Prop := ∃ k, k < s.read ∧ t = s.clock k

theorem Shown.mono {s s' : Supply} {t : Moment} (h : Shown s t) (hs : s.Later s') :
    Shown s' t := by
  obtain ⟨k, hk, ht⟩ := h
  exact ⟨k, Nat.lt_of_lt_of_le hk hs.read, by rw [hs.clock, ht]⟩

/-- All that is stored and held was loaded at a time that the clock has shown, and clients hold what
the dataset was created with. -/
structure Dated (c : Connection) (w : World) : Prop where
  stored : ∀ id d, c.stored? w.workspace.store.catalog id = some d →
    Shown w.workspace.supply d.lastLoadedAt
  held : ∀ i x held, w.clients i = some x → x.dataset.standing.holding? = some held →
    Shown w.workspace.supply held.definition.lastLoadedAt
  origin : ∀ i x held, w.clients i = some x → x.dataset.standing.holding? = some held →
    ∀ d, c.stored? w.workspace.store.catalog held.definition.id = some d →
      d.origin = held.definition.origin

theorem dated_of_blank (h : w.Blank) : Dated c w :=
  ⟨fun _ _ hd => absurd hd h.stored?_ne_some, fun _ _ _ hx => absurd hx h.clients_ne_some,
    fun _ _ _ hx => absurd hx h.clients_ne_some⟩

/-- What is committed was loaded at a time that the clock has shown, and has the origin of what is
stored. -/
theorem Dated.committing (h : Dated c w) {held : Holding} (he : e.committing? w = some held) :
    Shown w.workspace.supply held.definition.lastLoadedAt ∧
      ∀ d, c.stored? w.workspace.store.catalog held.definition.id = some d →
        d.origin = held.definition.origin := by
  obtain ⟨-, i, x, -, -, -, hx, hheld, -⟩ := committing?_eq_some he
  exact ⟨h.held i x held hx hheld, h.origin i x held hx hheld⟩

/-- A version has the origin of the one before and was loaded when this one was, unless it was
committed or is loaded now. -/
theorem Revision.origin (h : Revision w e ws' (some d) d') (hw : Dated c w)
    (hd : c.stored? w.workspace.store.catalog d.id = some d) : d'.origin = d.origin := by
  cases h with
  | kept => rfl
  | committed held commits id revises =>
    rw [revises.origin, (hw.committing commits).2 d (id ▸ hd)]
  | loaded k loads le lt revises keeps => exact revises.origin

theorem Revision.shown {before : Option Definition} (h : Revision w e ws' before d')
    (hw : Dated c w) (hs : w.workspace.supply.Later ws'.supply)
    (hbefore : before = c.stored? w.workspace.store.catalog id) :
    Shown ws'.supply d'.lastLoadedAt := by
  cases h with
  | kept => exact (hw.stored id _ hbefore.symm).mono hs
  | committed held commits id revises =>
    rw [revises.lastLoadedAt]
    exact (hw.committing commits).1.mono hs
  | loaded k loads le lt revises =>
    rw [revises.lastLoadedAt]
    exact ⟨k, lt, by rw [hs.clock]⟩
  | created j k le lt id read date => exact ⟨k, read, date⟩

theorem does_dated (ho : e.Over c) (h : Steady False c l w)
    (hf : (w.does e).workspace.supply.Fits c.definitions)
    (hb : w.workspace.store.catalog.Backed c) (hw : Dated c w) : Dated c (w.does e) := by
  have hlater := (does_commits ho h.closed).supply
  have hstored : ∀ id d', c.stored? (w.does e).workspace.store.catalog id = some d' →
      Shown (w.does e).workspace.supply d'.lastLoadedAt := fun id d' hd' =>
    (does_revision ho h hf hb hd').shown hw hlater rfl
  refine ⟨hstored, fun i x held hx hheld => ?_, fun i x held hx hheld d' hd' => ?_⟩
  · rcases does_held ho h hf hx hheld with ⟨y, hy, hheld⟩ | hd'
    · exact (hw.held i y held hy hheld).mono hlater
    · exact hstored _ _ hd'
  · rcases does_held ho h hf hx hheld with ⟨y, hy, hheld⟩ | hsame
    · obtain ⟨d, hd⟩ := exists_stored_of_does ho h False.elim hf (h.holds i y hy held hheld).traced
        (.refl _) hd'
      obtain ⟨-, hid⟩ := h.traced_of_stored hd
      have hrevision := does_revision ho h hf hb hd'
      rw [hd] at hrevision
      rw [hrevision.origin hw (hid ▸ hd), hw.origin i y held hy hheld d hd]
    · rw [Option.some.inj (hsame.symm.trans hd')]

theorem play_dated (ho : ∀ e ∈ deeds, e.Over c) (h : Steady False c l w)
    (hf : (w.play deeds).workspace.supply.Fits c.definitions)
    (hb : w.workspace.store.catalog.Backed c) (hw : Dated c w) : Dated c (w.play deeds) := by
  induction deeds generalizing w l with
  | nil => exact hw
  | cons e deeds ih =>
    obtain ⟨he, hrest⟩ := List.forall_mem_cons.1 ho
    have hf₁ := hf.of_later (play_commits hrest (does_commits he h.closed).transaction).supply
    obtain ⟨l₁, htakes⟩ := does_takes he False.elim h hf₁
    exact ih hrest htakes.steady hf (does_backed he h hf₁ hb) (does_dated he h hf₁ hb hw)

/-- A version was loaded before the one that it replaces exactly if it was committed so. -/
theorem Revision.lt_iff (h : Revision w e ws' (some d) d') (hw : Dated c w)
    (hclock : Monotone w.workspace.supply.clock)
    (hd : c.stored? w.workspace.store.catalog d.id = some d) :
    d'.lastLoadedAt < d.lastLoadedAt ↔ e.SetsBack c d.id w := by
  constructor
  · intro hlt
    cases h with
    | kept => exact absurd hlt (lt_irrefl _)
    | committed held commits id revises =>
      exact ⟨held, d, commits, id, hd, revises.lastLoadedAt ▸ hlt⟩
    | loaded k loads le lt revises =>
      -- The clock shows nothing before what it has shown.
      obtain ⟨j, hj, hshown⟩ := hw.stored _ _ hd
      rw [revises.lastLoadedAt, hshown] at hlt
      exact absurd (hclock (Nat.le_trans (Nat.le_of_lt hj) le)) (not_le_of_gt hlt)
  · rintro ⟨held, v, hcommits, hid, hv, hlt⟩
    obtain rfl : d = v := Option.some.inj (hd.symm.trans hv)
    cases h with
    | kept spared => exact absurd hid (spared held hcommits)
    | committed held' commits id revises =>
      obtain rfl : held = held' := Option.some.inj (hcommits.symm.trans commits)
      exact revises.lastLoadedAt ▸ hlt
    | loaded k loads => cases loads.symm.trans hcommits

/-- From one version of a stored definition to a later one only the fields, the retired names and
the time of the last loading change.  The time goes back in just those deeds that commit a version
loaded before the stored one. -/
theorem lastLoadedAt_setBack (hb : w₀.Blank) (ho : ∀ e ∈ earlier ++ later, e.Over c)
    (hf : (w₀.play (earlier ++ later)).workspace.supply.Fits c.definitions)
    (hclock : Monotone w₀.workspace.supply.clock)
    (hd : c.stored? (w₀.play earlier).workspace.store.catalog id = some d)
    (hd' : c.stored? (w₀.play (earlier ++ later)).workspace.store.catalog id = some d') :
    d' = { d with fields := d'.fields, retired := d'.retired, lastLoadedAt := d'.lastLoadedAt } ∧
    ((∀ front e back, later = front ++ e :: back →
        ¬ e.SetsBack c id (w₀.play (earlier ++ front))) → d.lastLoadedAt ≤ d'.lastLoadedAt) ∧
    ∀ front e back, later = front ++ e :: back → ∀ v v',
      c.stored? (w₀.play (earlier ++ front)).workspace.store.catalog id = some v →
      c.stored? (w₀.play (earlier ++ front ++ [e])).workspace.store.catalog id = some v' →
        (v'.lastLoadedAt < v.lastLoadedAt ↔ e.SetsBack c id (w₀.play (earlier ++ front))) := by
  obtain ⟨hearlier, hlater⟩ := List.forall_mem_append.1 ho
  obtain ⟨l, hsteady⟩ := exists_steady_play hb hearlier (fits_of_append ho hb.transaction hf)
  -- What a deed on the way does to the stored definition.
  have hstep : ∀ front e back, later = front ++ e :: back → ∀ v v',
      c.stored? (w₀.play (earlier ++ front)).workspace.store.catalog id = some v →
      c.stored? ((w₀.play (earlier ++ front)).does e).workspace.store.catalog id = some v' →
      v'.origin = v.origin ∧
        (v'.lastLoadedAt < v.lastLoadedAt ↔ e.SetsBack c id (w₀.play (earlier ++ front))) := by
    rintro front e back rfl v v' hv hv'
    rw [← List.append_assoc] at ho hf
    have hfronts : ∀ e' ∈ earlier ++ front, e'.Over c := fun e' he' =>
      ho e' (List.mem_append_left _ he')
    have hf₁ := fits_of_append ho hb.transaction hf
    have hblank : Steady False c (fun k => (w₀.workspace.supply.ids k, "")) w₀ :=
      steady_of_blank hb _
    have hdated := play_dated hfronts hblank hf₁ (backed_of_blank hb) (dated_of_blank hb)
    have hrevision := revision_of_blank hb ho hf hv'
    obtain ⟨l', hsteady'⟩ := exists_steady_play hb hfronts hf₁
    obtain ⟨-, rfl⟩ := hsteady'.traced_of_stored hv
    rw [hv] at hrevision
    have hcommits := play_commits hfronts hb.transaction
    exact ⟨hrevision.origin hdated hv,
      hrevision.lt_iff hdated (hcommits.supply.clock ▸ hclock) hv⟩
  rw [play_append] at hf hd'
  refine ⟨Definition.origin_eq_iff.1 ?_, fun hno => ?_, fun front e back hsplit v v' hv hv' => ?_⟩
  · refine play_stored (P := fun v => v.origin = d.origin) hlater hsteady hf hd rfl
      (fun front e back hsplit v v' hv hv' hP => ?_) hd'
    rw [← play_append] at hv hv'
    exact (hstep front e back hsplit v v' hv hv').1.trans hP
  · refine play_stored (P := fun v => d.lastLoadedAt ≤ v.lastLoadedAt) hlater hsteady hf hd le_rfl
      (fun front e back hsplit v v' hv hv' hP => ?_) hd'
    rw [← play_append] at hv hv'
    have hlt := (hstep front e back hsplit v v' hv hv').2.not.2 (hno front e back hsplit)
    exact hP.trans (not_lt.1 hlt)
  · rw [play_append _ (earlier ++ front)] at hv'
    exact (hstep front e back hsplit v v' hv hv').2

section Sample
open Layout

/-- A world whose clock goes on at each reading. -/
def tickingWorld : World :=
  { sampleWorld with workspace := { sampleWorld.workspace with
    supply := { sampleWorld.workspace.supply with clock := .ofNanoseconds } } }

/-- One client creates a dataset, and another one loads it. -/
def loadedTwice : List Deed :=
  [.act sampleConnection (.create 0 "d" sampleClass.rootSchema none false),
    .act sampleConnection (.load 1 (.byName "d"))]

/-- The first client commits after the other one has loaded. -/
def staleCommit : Deed := .act sampleConnection (.commit 0)

theorem exists_staleCommit : ∃ id d d',
    (tickingWorld.play (loadedTwice ++ [staleCommit])).workspace.supply.isFit = true ∧
    sampleConnection.stored? (tickingWorld.play loadedTwice).workspace.store.catalog id = some d ∧
    sampleConnection.stored? (tickingWorld.play
      (loadedTwice ++ [staleCommit])).workspace.store.catalog id = some d' ∧
    d'.lastLoadedAt < d.lastLoadedAt := by
  have hcheck : ((tickingWorld.play loadedTwice).heldId? 0).any (fun id =>
      (tickingWorld.play (loadedTwice ++ [staleCommit])).workspace.supply.isFit &&
      (sampleConnection.stored? (tickingWorld.play loadedTwice).workspace.store.catalog id).any
        fun d => (sampleConnection.stored? (tickingWorld.play
          (loadedTwice ++ [staleCommit])).workspace.store.catalog id).any fun d' =>
            decide (d'.lastLoadedAt < d.lastLoadedAt)) = true := by
    decide +kernel
  obtain ⟨id, -, hcheck⟩ := (Option.any_eq_true _ _).1 hcheck
  obtain ⟨hfit, hcheck⟩ := Bool.and_eq_true_iff.1 hcheck
  obtain ⟨d, hd, hcheck⟩ := (Option.any_eq_true _ _).1 hcheck
  obtain ⟨d', hd', hlt⟩ := (Option.any_eq_true _ _).1 hcheck
  exact ⟨id, d, d', hfit, hd, hd', of_decide_eq_true hlt⟩

/-- The dataset was then last loaded when it was created, although the clock never goes back. -/
theorem lastLoadedAt_falls : ∃ id d d', Monotone tickingWorld.workspace.supply.clock ∧
    sampleConnection.stored? (tickingWorld.play loadedTwice).workspace.store.catalog id = some d ∧
    sampleConnection.stored? (tickingWorld.play
      (loadedTwice ++ [staleCommit])).workspace.store.catalog id = some d' ∧
    ¬ d.lastLoadedAt ≤ d'.lastLoadedAt := by
  obtain ⟨id, d, d', -, hd, hd', hlt⟩ := exists_staleCommit
  exact ⟨id, d, d', Moment.ofNanoseconds_mono, hd, hd', not_le_of_gt hlt⟩

/-- This commit changes the time of the last loading, and nothing that the dataset was created
with. -/
theorem lastLoadedAt_setBack_sample : ∃ id d d',
    sampleConnection.stored? (tickingWorld.play loadedTwice).workspace.store.catalog id = some d ∧
    sampleConnection.stored? (tickingWorld.play
      (loadedTwice ++ [staleCommit])).workspace.store.catalog id = some d' ∧
    d' = { d with fields := d'.fields, retired := d'.retired, lastLoadedAt := d'.lastLoadedAt } ∧
    staleCommit.SetsBack sampleConnection id (tickingWorld.play loadedTwice) := by
  obtain ⟨id, d, d', hfit, hd, hd', hlt⟩ := exists_staleCommit
  have hover : ∀ e ∈ loadedTwice ++ [staleCommit], e.Over sampleConnection :=
    over_acts (Connection.quiet_plain _ _)
      [.create 0 "d" sampleClass.rootSchema none false, .load 1 (.byName "d"), .commit 0]
  have hf : (tickingWorld.play (loadedTwice ++ [staleCommit])).workspace.supply.Fits
      sampleConnection.definitions := .of_isFit (by decide) hfit
  have hblank : tickingWorld.Blank := ⟨rfl, rfl, fun _ => rfl⟩
  obtain ⟨horigin, -, hiff⟩ :=
    lastLoadedAt_setBack hblank hover hf Moment.ofNanoseconds_mono hd hd'
  have hsets := hiff [] staleCommit [] rfl d d'
  rw [List.append_nil] at hsets
  exact ⟨id, d, d', hd, hd', horigin, (hsets hd hd').1 hlt⟩

end Sample

end World
end SchemaKeeper
