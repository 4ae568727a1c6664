import SchemaKeeper.Proofs.Dataset.Edits
import SchemaKeeper.Proofs.Dataset.Orderly
import SchemaKeeper.Proofs.Session.Records
import SchemaKeeper.Proofs.Session.Traffic

/-!
# Names identify datasets

However the transactions of clients overlap, no two stored definitions have the same identifier or
the same name, and all ways of asking for a name agree.  Every copy of the catalog that a
transaction works on is in order by itself, so each of them may be committed.
-/
namespace SchemaKeeper

open Catalog Op

/-! ## What is kept of clients -/

section Recorded
variable {definitions : String} {l l' : Ledger} {s s' : Supply}

/-- The client keeps definitions where the given collection is, and what it holds is on record. -/
structure Client.Recorded (definitions : String) (l : Ledger) (s : Supply) (x : Client) : Prop where
  definitions : x.dataset.connection.definitions = definitions
  holds : ∀ held, x.dataset.standing.holding? = some held → held.definition.Recorded l s

theorem Client.Recorded.mono {x : Client} (h : x.Recorded definitions l s) (hs : s.Later s')
    (hl : l.AgreeBelow s.drawn l') : x.Recorded definitions l' s' :=
  ⟨h.definitions, fun held hheld => (h.holds held hheld).mono hs hl⟩

theorem Client.attached?_eq_some {x? : Option Client} {x : Client} {held : Holding}
    (h : Client.attached? x? = some (x, held)) :
    x? = some x ∧ x.dataset.standing.holding? = some held := by
  obtain ⟨x', hx, h⟩ := Option.bind_eq_some_iff.1 h
  obtain ⟨held', hheld, h⟩ := Option.map_eq_some_iff.1 h
  injection h with h h'
  subst h h'
  exact ⟨hx, hheld⟩

/-- A definition that was found is on record; what a transaction has worked on is in order. -/
def Errand.Recorded (definitions : String) (l : Ledger) (s : Supply) : Errand → Prop
  | .found c definition => c.definitions = definitions ∧ definition.Recorded l s
  | .worked result t => ∀ x, result = .ok x →
    t.working.Orderly definitions l s ∧ x.Recorded definitions l s

theorem Errand.Recorded.mono {e : Errand} (h : e.Recorded definitions l s) (hs : s.Later s')
    (hl : l.AgreeBelow s.drawn l') : e.Recorded definitions l' s' := by
  cases e with
  | found c definition => exact ⟨h.1, h.2.mono hs hl⟩
  | worked result t => exact fun x hx => ⟨(h x hx).1.mono hs hl, (h x hx).2.mono hs hl⟩

/-- The same definition with another time of loading. -/
theorem Definition.Recorded.loadedAt {d : Definition} {now : Moment} (h : d.Recorded l s)
    (hnow : now.Writable) : ({ d with lastLoadedAt := now } : Definition).Recorded l s := by
  obtain ⟨⟨hascending, hroot, hid, hlive, hretired, hapart, hdistinct, hwritable⟩, htitled⟩ := h
  exact ⟨⟨hascending, hroot, hid, hlive, hretired, hapart, hdistinct, hwritable.1, hnow⟩, htitled⟩

end Recorded

/-! ## The work of a task -/

namespace Task
variable {definitions : String} {l : Ledger} {ws ws' : Workspace} {t : Transaction} {task : Task}
  {x? : Option Client} {x : Client} {work : Op Refusal Client}

/-- The task keeps definitions where the given collection is. -/
def Over (definitions : String) : Task → Prop
  | .create c _ _ _ _ => c.definitions = definitions
  | _ => True

theorem contained_work (h : task.work? x? = some work) : Contained work := by
  cases task with
  | create c name s mediaType persistent =>
    rw [work?] at h
    split at h
    · cases h
    · injection h with h
      exact h ▸ (Dataset.contained_build _ _ _ _ _).bind fun d => contained_pure _
  | commit =>
    obtain ⟨⟨x, held⟩, -, rfl⟩ := Option.map_eq_some_iff.1 h
    exact (Dataset.contained_merge _ _ _).bind fun r => contained_pure _
  | delete =>
    obtain ⟨⟨x, held⟩, -, rfl⟩ := Option.map_eq_some_iff.1 h
    exact (Dataset.contained_demolish _ _).bind fun _ => contained_pure _
  | save r =>
    obtain ⟨⟨x, held⟩, -, rfl⟩ := Option.map_eq_some_iff.1 h
    exact (Dataset.contained_writeRecord r).bind fun _ => contained_pure _

/-- Whatever a task does to its copy of the catalog, the copy stays in order. -/
theorem work_orderly (h : task.work? x? = some work) (ho : task.Over definitions)
    (hx : ∀ x, x? = some x → x.Recorded definitions l ws.supply) (ht : ws.transaction = some t)
    (hc : ws.visible.Orderly definitions l ws.supply) (hf : ws'.supply.Fits definitions)
    (hop : work ws = .ok x ws') :
    ∃ l' : Ledger, l.AgreeBelow ws.supply.drawn l' ∧
      ws'.visible.Orderly definitions l' ws'.supply ∧ x.Recorded definitions l' ws'.supply := by
  have hlater : ws.supply.Later ws'.supply := by
    have hstays := contained_work h ws t ht
    rw [after_of_ok hop] at hstays
    exact hstays.supply
  have hheld : ∀ {y : Client} {held : Holding}, Client.attached? x? = some (y, held) →
      y.Recorded definitions l ws.supply ∧ held.definition.Recorded l ws.supply := by
    intro y held hy
    obtain ⟨hy, hheld⟩ := Client.attached?_eq_some hy
    exact ⟨hx y hy, (hx y hy).holds held hheld⟩
  have hsame : l.AgreeBelow ws.supply.drawn l := fun _ _ => rfl
  cases task with
  | create c name s mediaType persistent =>
    rw [work?] at h
    split at h
    · cases h
    · rename_i k hroot
      injection h with h
      subst h
      obtain ⟨d, ws₁, hbuild, hret⟩ := bind_eq_ok.1 hop
      cases hret
      have hover : c.definitions = definitions := ho
      subst hover
      obtain ⟨l', held, hl, hc', hconnection, hstanding, hrecorded⟩ :=
        Dataset.build_orderly ht hc (Dataset.rootClass_eq_ok.1 hroot) hf hbuild
      refine ⟨l', hl, hc', congrArg Connection.definitions hconnection, fun held' hheld' => ?_⟩
      simp only [hstanding] at hheld'
      injection hheld' with hheld'
      exact hheld' ▸ hrecorded
  | commit =>
    obtain ⟨⟨y, held⟩, hy, rfl⟩ := Option.map_eq_some_iff.1 h
    obtain ⟨hy, hrecorded⟩ := hheld hy
    obtain ⟨⟨next, live⟩, ws₁, hmerge, hret⟩ := bind_eq_ok.1 hop
    cases hret
    obtain ⟨l', hl, hc', hnext⟩ := Dataset.merge_orderly ht (hy.definitions.symm ▸ hc) hrecorded
      (hy.definitions.symm ▸ hf) hmerge
    refine ⟨l', hl, hy.definitions ▸ hc', hy.definitions, fun held' hheld' => ?_⟩
    injection hheld' with hheld'
    exact hheld' ▸ hnext
  | delete =>
    obtain ⟨⟨y, held⟩, hy, rfl⟩ := Option.map_eq_some_iff.1 h
    obtain ⟨hy, hrecorded⟩ := hheld hy
    obtain ⟨⟨⟩, ws₁, hdemolish, hret⟩ := bind_eq_ok.1 hop
    cases hret
    have hc' := Dataset.demolish_orderly ht (hy.definitions.symm ▸ hc) hrecorded
      (hy.definitions.symm ▸ hf.of_later hlater) hdemolish
    refine ⟨l, hsame, hy.definitions ▸ hc'.mono hlater hsame, hy.definitions,
      fun held' hheld' => ?_⟩
    cases hheld'
  | save r =>
    obtain ⟨⟨y, held⟩, hy, rfl⟩ := Option.map_eq_some_iff.1 h
    obtain ⟨hy, hrecorded⟩ := hheld hy
    obtain ⟨⟨⟩, ws₁, hwrite, hret⟩ := bind_eq_ok.1 hop
    cases hret
    have hc' := Dataset.writeRecord_orderly ht hc hrecorded (hf.of_later hlater) hwrite
    exact ⟨l, hsame, hc'.mono hlater hsame, hy.mono hlater hsame⟩

end Task

/-! ## Moves -/

/-- The move keeps definitions where the given collection is. -/
def Traffic.Move.Over (definitions : String) : Move → Prop
  | .look _ c _ => c.definitions = definitions
  | .start _ task => task.Over definitions
  | _ => True

namespace Traffic
variable {definitions : String} {l l' : Ledger} {w w' w₀ : Traffic} {ws ws' : Workspace}

/-- Between moves no transaction is open in the store; the committed catalog, all clients and all
that is on its way are in order. -/
structure Orderly (definitions : String) (l : Ledger) (w : Traffic) : Prop where
  closed : w.world.workspace.transaction = none
  catalog : w.world.workspace.store.catalog.Orderly definitions l w.world.workspace.supply
  clients : ∀ i x, w.world.clients i = some x → x.Recorded definitions l w.world.workspace.supply
  errands : ∀ i e, w.errands i = some e → e.Recorded definitions l w.world.workspace.supply

namespace Orderly

theorem put (h : w.Orderly definitions l) {i : Nat} {x : Client}
    (hx : x.Recorded definitions l w.world.workspace.supply) :
    (w.put i x).Orderly definitions l := by
  refine ⟨h.closed, h.catalog, fun j y hy => ?_, h.errands⟩
  simp only [Traffic.put, World.put] at hy
  split at hy
  · injection hy with hy
    exact hy ▸ hx
  · exact h.clients j y hy

theorem send (h : w.Orderly definitions l) {i : Nat} {e? : Option Errand}
    (he : ∀ e, e? = some e → e.Recorded definitions l w.world.workspace.supply) :
    (w.send i e?).Orderly definitions l := by
  refine ⟨h.closed, h.catalog, h.clients, fun j e hj => ?_⟩
  simp only [Traffic.send, Function.update_apply] at hj
  split at hj
  · exact he e hj
  · exact h.errands j e hj

/-- The workspace moved on. -/
theorem advance (h : w.Orderly definitions l) (hclosed : ws.transaction = none)
    (hs : w.world.workspace.supply.Later ws.supply)
    (hl : l.AgreeBelow w.world.workspace.supply.drawn l')
    (hc : ws.store.catalog.Orderly definitions l' ws.supply) :
    (w.onto ws).Orderly definitions l' :=
  ⟨hclosed, hc, fun i x hx => (h.clients i x hx).mono hs hl,
    fun i e he => (h.errands i e he).mono hs hl⟩

/-- The workspace moved on, and the catalog is what it was. -/
theorem unchanged (h : w.Orderly definitions l) (hu : w.world.workspace.Unchanged ws) :
    (w.onto ws).Orderly definitions l :=
  h.advance hu.transaction hu.supply (fun _ _ => rfl)
    (hu.catalog ▸ h.catalog.mono hu.supply fun _ _ => rfl)

theorem edit (h : w.Orderly definitions l) {i : Nat} {f : Dataset → Except Refusal Dataset}
    (hf : ∀ d d', f d = .ok d' → d'.connection = d.connection ∧
      d'.standing.holding? = d.standing.holding?) : (w.edit i f).Orderly definitions l := by
  unfold Traffic.edit
  split
  · exact h
  · rename_i x hi
    split
    · rename_i d hd
      obtain ⟨hc, hheld⟩ := hf _ _ hd
      have hx := h.clients i x hi
      exact h.put ⟨(congrArg Connection.definitions hc).trans hx.definitions,
        fun held hd => hx.holds held (hheld ▸ hd)⟩
    · exact h

end Orderly

section Workspace
variable {α : Type} (w : Traffic) (i : Nat) (op : Op Refusal α)

theorem workspace_goes_send (e : α → Option Errand) :
    (w.goes op fun a w => w.send i (e a)).world.workspace = after op w.world.workspace := by
  unfold goes after
  cases op w.world.workspace <;> rfl

theorem workspace_goes_put (x : α → Client) :
    (w.goes op fun a w => w.put i (x a)).world.workspace = after op w.world.workspace := by
  unfold goes after
  cases op w.world.workspace <;> rfl

theorem workspace_edit (f : Dataset → Except Refusal Dataset) :
    (w.edit i f).world.workspace = w.world.workspace := by
  unfold edit
  split
  · rfl
  · split <;> rfl

end Workspace

/-- Between moves no transaction is open, and the supply is drawn on alone. -/
theorem move_closed (h : w.world.workspace.transaction = none) (m : Move) :
    (w.move m).world.workspace.transaction = none ∧
      w.world.workspace.supply.Later (w.move m).world.workspace.supply := by
  have hstill : w.world.workspace.transaction = none ∧
      w.world.workspace.supply.Later w.world.workspace.supply := ⟨h, .refl _⟩
  have hidles : ∀ {α : Type} {op : Op Refusal α}, Idles op →
      (after op w.world.workspace).transaction = none ∧
        w.world.workspace.supply.Later (after op w.world.workspace).supply := by
    intro α op hidles
    have hrests := hidles w.world.workspace
    exact ⟨hrests.transaction.trans h, hrests.supply⟩
  cases m with
  | look i c key =>
    rw [move, workspace_goes_send]
    exact hidles (Dataset.observes_look c key).idles
  | view i stamped =>
    rw [move]
    split
    · rw [workspace_goes_put]
      exact hidles (Dataset.idles_viewAt _ _ _)
    · exact hstill
  | start i task =>
    rw [move]
    split
    · rename_i work hwork
      rw [workspace_goes_send]
      cases hstart : start work w.world.workspace with
      | error e ws => exact absurd hstart start_not_error
      | ok r ws =>
        rw [after_of_ok hstart]
        obtain ⟨-, hclosed, hlater, -⟩ := start_ok (Task.contained_work hwork) hstart
        exact ⟨hclosed, hlater⟩
    · exact hstill
  | finish i =>
    rw [move]
    split
    · rename_i result t _
      rw [workspace_goes_put]
      obtain ⟨htransaction, hsupply, -⟩ := after_finish result t (w.send i none).world.workspace
      exact ⟨htransaction.trans h, hsupply ▸ .refl _⟩
    · exact hstill
  | addField i path type => exact (workspace_edit w i _).symm ▸ hstill
  | removeField i path => exact (workspace_edit w i _).symm ▸ hstill
  | assign i live => exact (workspace_edit w i _).symm ▸ hstill

theorem run_closed {moves : List Move} (h : w.world.workspace.transaction = none) :
    (w.run moves).world.workspace.transaction = none ∧
      w.world.workspace.supply.Later (w.run moves).world.workspace.supply := by
  induction moves generalizing w with
  | nil => exact ⟨h, .refl _⟩
  | cons m moves ih =>
    obtain ⟨hclosed, hlater⟩ := move_closed h m
    obtain ⟨hclosed', hlater'⟩ := ih hclosed
    exact ⟨hclosed', hlater.trans hlater'⟩

/-! ## Whole runs -/

namespace Orderly

theorem look (h : w.Orderly definitions l) {i : Nat} {c : Connection} {key : DatasetKey}
    (hc : c.definitions = definitions) :
    (w.move (.look i c key)).Orderly definitions l := by
  have hobs := Dataset.observes_look c key
  rw [move]
  cases hop : Dataset.look c key w.world.workspace with
  | error e ws =>
    rw [goes_of_error hop]
    exact h.unchanged ((hobs.error hop).unchanged h.closed)
  | ok definition ws =>
    obtain ⟨hfound, hrests⟩ := hobs.ok hop
    rw [goes_of_ok hop]
    refine (h.unchanged (hrests.unchanged h.closed)).send fun e he => ?_
    injection he with he
    subst he
    refine ⟨hc, ?_⟩
    rw [Workspace.visible_of_closed h.closed] at hfound
    split at hfound
    · cases hfound
    · rename_i document hat
      obtain ⟨d, rfl, hd, -⟩ := (hc.symm ▸ h.catalog).of_findOne hat
      rw [Definition.ofDocument_document hd.traced.writable] at hfound
      injection hfound with hfound
      exact hfound ▸ hd.mono hrests.supply fun _ _ => rfl

/-- A client reads the dataset of a definition that it has found. -/
theorem view (h : w.Orderly definitions l) {i : Nat} {stamped : Bool} {c : Connection}
    {definition : Definition} (he : w.errands i = some (.found c definition))
    (hf : (after (Dataset.viewAt c definition stamped) w.world.workspace).supply.Fits definitions) :
    (w.goes (Dataset.viewAt c definition stamped) fun d w =>
      w.put i ⟨d, d.live⟩).Orderly definitions l := by
  obtain ⟨hc, hd⟩ := h.errands i _ he
  have hidles := Dataset.idles_viewAt c definition stamped w.world.workspace
  cases hop : Dataset.viewAt c definition stamped w.world.workspace with
  | error e ws =>
    rw [after_of_error hop] at hidles
    rw [goes_of_error hop]
    exact h.unchanged (hidles.unchanged h.closed)
  | ok d ws =>
    rw [after_of_ok hop] at hf hidles
    obtain ⟨hconnection, v, now, hstanding, hnow⟩ := Dataset.viewAt_ok hop
    rw [goes_of_ok hop]
    refine (h.unchanged (hidles.unchanged h.closed)).put
      ⟨(congrArg Connection.definitions hconnection).trans hc, fun held hheld => ?_⟩
    simp only [hstanding] at hheld
    injection hheld with hheld
    subst hheld
    refine (hd.mono hidles.supply fun _ _ => rfl).loadedAt ?_
    rcases hnow with rfl | ⟨k, hk, rfl⟩
    · exact hd.traced.writable.2
    · exact hf.writable k hk

/-- A client does the work of a transaction. -/
theorem start (h : w.Orderly definitions l) {i : Nat} {task : Task} {work : Op Refusal Client}
    (hwork : task.work? (w.world.clients i) = some work) (ho : task.Over definitions)
    (hf : (after (Op.start work) w.world.workspace).supply.Fits definitions) :
    ∃ l' : Ledger, l.AgreeBelow w.world.workspace.supply.drawn l' ∧
      (w.goes (Op.start work) fun r w => w.send i (some (.worked r.1 r.2))).Orderly
        definitions l' := by
  cases hop : Op.start work w.world.workspace with
  | error e ws => exact absurd hop start_not_error
  | ok r ws =>
    rw [after_of_ok hop] at hf
    obtain ⟨hstore, hclosed, hlater, hworked⟩ := start_ok (Task.contained_work hwork) hop
    have hcatalog : ws.store.catalog = w.world.workspace.store.catalog :=
      congrArg Store.catalog hstore
    obtain ⟨result, t⟩ := r
    rw [goes_of_ok hop]
    cases result with
    | error e =>
      refine ⟨l, fun _ _ => rfl, (h.unchanged ⟨hcatalog, hclosed, hlater⟩).send fun e he => ?_⟩
      injection he with he
      subst he
      intro x hx
      cases hx
    | ok x =>
      obtain ⟨ws₁, hrun, hvisible, hsupply⟩ := hworked x rfl
      have hclients : ∀ x, w.world.clients i = some x →
          x.Recorded definitions l w.world.workspace.opened.supply := h.clients i
      obtain ⟨l', hl, horderly, hx⟩ := Task.work_orderly hwork ho hclients rfl h.catalog
        (hsupply ▸ hf) hrun
      rw [hvisible, hsupply] at horderly
      rw [hsupply] at hx
      have hw : (w.onto ws).Orderly definitions l' :=
        h.advance hclosed hlater hl (hcatalog ▸ h.catalog.mono hlater hl)
      refine ⟨l', hl, hw.send fun e he => ?_⟩
      injection he with he
      subst he
      rintro y hy
      injection hy with hy
      exact hy ▸ ⟨horderly, hx⟩

/-- A client ends its transaction. -/
theorem finish (h : w.Orderly definitions l) {i : Nat} {result : Except Refusal Client}
    {t : Transaction} (he : w.errands i = some (.worked result t)) :
    ((w.send i none).goes (Op.finish result t) fun x w => w.put i x).Orderly definitions l := by
  have hrecorded := h.errands i _ he
  have hw : (w.send i none).Orderly definitions l := h.send fun e he => by cases he
  obtain ⟨htransaction, hsupply, hcatalog⟩ :=
    after_finish result t (w.send i none).world.workspace
  have hafter : ((w.send i none).onto
      (after (Op.finish result t) (w.send i none).world.workspace)).Orderly definitions l := by
    refine hw.advance (htransaction.trans h.closed) (hsupply ▸ .refl _) (fun _ _ => rfl) ?_
    rw [hsupply]
    rcases hcatalog with hcatalog | ⟨x, rfl, hsettles⟩
    · exact hcatalog ▸ h.catalog
    · exact h.catalog.settles (hrecorded x rfl).1 hsettles
  cases hop : Op.finish result t (w.send i none).world.workspace with
  | error e ws =>
    rw [after_of_error hop] at hafter
    rw [goes_of_error hop]
    exact hafter
  | ok x ws =>
    rw [after_of_ok hop] at hafter hsupply
    rw [goes_of_ok hop]
    refine hafter.put ?_
    show x.Recorded definitions l ws.supply
    rw [hsupply]
    exact (hrecorded x (finish_ok hop)).2

end Orderly

/-- One move leads on in order. -/
theorem move_orderly {m : Move} (ho : m.Over definitions) (h : w.Orderly definitions l)
    (hf : (w.move m).world.workspace.supply.Fits definitions) :
    ∃ l', l.AgreeBelow w.world.workspace.supply.drawn l' ∧ (w.move m).Orderly definitions l' := by
  have hsame : l.AgreeBelow w.world.workspace.supply.drawn l := fun _ _ => rfl
  cases m with
  | look i c key => exact ⟨l, hsame, h.look ho⟩
  | view i stamped =>
    rw [move] at hf ⊢
    split at hf
    · rename_i c definition he
      rw [workspace_goes_put] at hf
      exact ⟨l, hsame, h.view he hf⟩
    · exact ⟨l, hsame, h⟩
  | start i task =>
    rw [move] at hf ⊢
    split at hf
    · rename_i work hwork
      rw [workspace_goes_send] at hf
      exact h.start hwork ho hf
    · exact ⟨l, hsame, h⟩
  | finish i =>
    rw [move]
    split
    · rename_i result t he
      exact ⟨l, hsame, h.finish he⟩
    · exact ⟨l, hsame, h⟩
  | addField i path type =>
    exact ⟨l, hsame, h.edit fun d d' hd =>
      ⟨(Dataset.addField_edits hd).connection, (Dataset.addField_edits hd).holding⟩⟩
  | removeField i path =>
    exact ⟨l, hsame, h.edit fun d d' hd =>
      ⟨(Dataset.removeField_edits hd).connection, (Dataset.removeField_edits hd).holding⟩⟩
  | assign i live =>
    refine ⟨l, hsame, h.edit (f := fun d => .ok { d with live := live }) fun d d' hd => ?_⟩
    injection hd with hd
    subst hd
    exact ⟨rfl, rfl⟩

/-- Moves lead on in order. -/
theorem run_orderly {moves : List Move} (ho : ∀ m ∈ moves, m.Over definitions)
    (h : w.Orderly definitions l)
    (hf : (w.run moves).world.workspace.supply.Fits definitions) :
    ∃ l', (w.run moves).Orderly definitions l' := by
  induction moves generalizing w l with
  | nil => exact ⟨l, h⟩
  | cons m moves ih =>
    obtain ⟨hm, hrest⟩ := List.forall_mem_cons.1 ho
    have hlater : (w.move m).world.workspace.supply.Later
        ((w.move m).run moves).world.workspace.supply := (run_closed (move_closed h.closed m).1).2
    obtain ⟨l₁, -, h₁⟩ := move_orderly hm h (hf.of_later hlater)
    exact ih hrest h₁ hf

theorem orderly_of_blank (h : w.Blank) (l : Ledger) : w.Orderly definitions l := by
  refine ⟨h.world.transaction, ⟨fun _ _ hs => absurd hs h.world.get?_ne_some,
    fun _ hs => absurd hs h.world.get?_ne_some, fun _ _ hd => absurd hd h.world.documentAt_ne_some,
    fun _ _ _ _ hd => absurd hd h.world.documentAt_ne_some, fun q hq => ?_⟩,
    fun _ _ hx => absurd hx h.world.clients_ne_some, fun i e he => ?_⟩
  · obtain ⟨state, hs⟩ := Keyed.contains_iff.1 hq
    exact absurd hs h.world.get?_ne_some
  · rw [h.errands] at he
    cases he

end Traffic

/-! ## Asking for names -/

namespace Catalog
variable {definitions : String} {l : Ledger} {s : Supply} {catalog : Catalog} {d : Definition}

/-- The names of the documents of a collection in ascending order. -/
def listed (definitions : String) (catalog : Catalog) : List String :=
  Ascending.arrange id
    ((catalog.documents definitions).values.filterMap fun d => d.get? "name" >>= Json.asString?)

namespace Orderly

theorem mem_listed (h : catalog.Orderly definitions l s) {name : String} :
    name ∈ catalog.listed definitions ↔
      ∃ d : Definition, catalog.documentAt definitions d.key = some d.document ∧ d.name = name := by
  rw [listed, (Ascending.arrange_perm id _).mem_iff, List.mem_filterMap]
  constructor
  · rintro ⟨document, hin, hname⟩
    obtain ⟨key, hkey⟩ := Keyed.mem_values.1 hin
    rw [← documentAt_eq] at hkey
    obtain ⟨d, rfl, -⟩ := h.recorded key document hkey
    rw [Definition.get?_document_name] at hname
    injection hname with hname
    exact ⟨d, h.key_eq hkey ▸ hkey, hname⟩
  · rintro ⟨d, hd, rfl⟩
    rw [documentAt_eq] at hd
    exact ⟨d.document, Keyed.mem_values.2 ⟨d.key, hd⟩, by rw [d.get?_document_name]; rfl⟩

/-- No name is listed twice. -/
theorem pairwise_listed (h : catalog.Orderly definitions l s) :
    (catalog.listed definitions).Pairwise (· < ·) := by
  have hnodup : ((catalog.documents definitions).values.filterMap fun d =>
      d.get? "name" >>= Json.asString?).Nodup := by
    have hordered := (catalog.documents definitions).ordered
    refine List.pairwise_filterMap.2 (List.pairwise_map.2 (hordered.imp_of_mem ?_))
    rintro ⟨key, document⟩ ⟨key', document'⟩ hin hin' hlt name hname _ hname' rfl
    rw [Keyed.mem_entries_iff, ← documentAt_eq] at hin hin'
    obtain ⟨d, rfl, -⟩ := h.recorded key document hin
    obtain ⟨d', rfl, -⟩ := h.recorded key' document' hin'
    rw [Definition.get?_document_name] at hname hname'
    injection hname with hname
    injection hname' with hname'
    have hkey := h.named _ _ _ _ hin hin' (by
      rw [Definition.get?_document_name, Definition.get?_document_name, hname, hname'])
    exact Entries.key_ne_of_lt hlt hkey
  have hordered := Ascending.arrange_ordered id ((catalog.documents definitions).values.filterMap
    fun d => d.get? "name" >>= Json.asString?)
  refine (hordered.and ((Ascending.arrange_perm id _).nodup_iff.2 hnodup)).imp fun hab => ?_
  exact Std.lt_of_le_of_ne hab.1 hab.2

end Orderly

end Catalog

namespace Connection

/-- The names are read from the catalog alone. -/
theorem observes_datasetNames (c : Connection) :
    Observes c.datasetNames fun catalog => .ok (catalog.listed c.definitions) := by
  have hrest : ∀ seen : Catalog, Observes (if !seen.collections.contains c.definitions then
        return []
      else do
        let documents ← Op.query fun catalog => catalog.findAll c.definitions
        let names := documents.filterMap fun d => d.get? "name" >>= Json.asString?
        return Ascending.arrange id names : Op Refusal (List String)) fun catalog =>
      if !seen.collections.contains c.definitions then .ok []
      else (catalog.findAll c.definitions).mapError FromStore.ofStore >>= fun documents =>
        .ok (Ascending.arrange id
          (documents.filterMap fun d => d.get? "name" >>= Json.asString?)) := by
    intro seen
    split
    · exact observes_pure _
    · exact (observes_query _).bind fun documents => observes_pure _
  have hread := observes_catalog.bind hrest
  have hsame : (fun catalog : Catalog => (.ok catalog : Except Refusal Catalog) >>= fun seen =>
      if !seen.collections.contains c.definitions then .ok []
      else (catalog.findAll c.definitions).mapError FromStore.ofStore >>= fun documents =>
        .ok (Ascending.arrange id
          (documents.filterMap fun d => d.get? "name" >>= Json.asString?))) =
      fun catalog => .ok (catalog.listed c.definitions) := by
    funext catalog
    rw [ok_bind, Catalog.listed, Catalog.findAll, Catalog.collection, Catalog.documents,
      Keyed.contains]
    cases catalog.collections.get? c.definitions <;> rfl
  exact hsame ▸ hread

end Connection

/-- All ways of asking for a name agree: a dataset of the name exists exactly if the name is listed,
and exactly if its definition is found, which then is the only one of this name. -/
structure Connection.Identifies (c : Connection) (ws : Workspace) (names : List String)
    (name : String) : Prop where
  existing : ∃ ws', c.hasDataset name ws = .ok (decide (name ∈ names)) ws'
  found : name ∈ names ↔ ∃ d ws', Dataset.look c (.byName name) ws = .ok d ws'
  only : ∀ d ws', Dataset.look c (.byName name) ws = .ok d ws' → d.name = name ∧
    ∀ key document, ws.store.catalog.documentAt c.definitions key = some document →
      (document.get? "name" = some (.string name) ↔ key = d.key)

theorem Definition.name_eq {d : Definition} {name : String}
    (h : d.document.get? "name" = some (.string name)) : d.name = name := by
  rw [d.get?_document_name] at h
  injection h with h
  injection h

namespace Catalog.Orderly
variable {c : Connection} {l : Ledger} {s : Supply} {ws : Workspace}

/-- What is found by a name is called so, and is stored. -/
theorem of_look (h : ws.store.catalog.Orderly c.definitions l s) (ht : ws.transaction = none)
    {name : String} {d : Definition} {ws' : Workspace}
    (hd : Dataset.look c (.byName name) ws = .ok d ws') :
    d.name = name ∧ ws.store.catalog.documentAt c.definitions d.key = some d.document := by
  obtain ⟨hfrom, -⟩ := (Dataset.observes_look c (.byName name)).ok hd
  rw [Workspace.visible_of_closed ht] at hfrom
  split at hfrom
  · cases hfrom
  · rename_i document hone
    obtain ⟨d', rfl, hrecorded, hat⟩ := h.of_findOne hone
    rw [Definition.ofDocument_document hrecorded.traced.writable] at hfrom
    injection hfrom with hfrom
    subst hfrom
    exact ⟨Definition.name_eq (get?_of_findOne hone), hat⟩

/-- What is listed is found. -/
theorem exists_look (h : ws.store.catalog.Orderly c.definitions l s) (ht : ws.transaction = none)
    {name : String} (hin : name ∈ ws.store.catalog.listed c.definitions) :
    ∃ d ws', Dataset.look c (.byName name) ws = .ok d ws' := by
  obtain ⟨d, hat, rfl⟩ := h.mem_listed.1 hin
  obtain ⟨d', hd', hrecorded⟩ := h.recorded _ _ hat
  refine ⟨d', (Dataset.observes_look c (.byName d.name)).of_ok ?_⟩
  have hone : ws.visible.findOne c.definitions (DatasetKey.byName d.name).field
      (.string (DatasetKey.byName d.name).text) = some d.document := by
    rw [Workspace.visible_of_closed ht]
    exact h.findOne_name hat
  rw [hone, hd']
  exact Definition.ofDocument_document hrecorded.traced.writable

/-- A name is listed exactly if a document with it is found. -/
theorem mem_listed_iff_findOne (h : ws.store.catalog.Orderly c.definitions l s) {name : String} :
    name ∈ ws.store.catalog.listed c.definitions ↔
      (ws.store.catalog.findOne c.definitions "name" (.string name)).isSome = true := by
  rw [h.mem_listed, Option.isSome_iff_exists]
  constructor
  · rintro ⟨d, hat, rfl⟩
    exact ⟨d.document, h.findOne_name hat⟩
  · rintro ⟨document, hone⟩
    obtain ⟨d, rfl, -, hat⟩ := h.of_findOne hone
    exact ⟨d, hat, Definition.name_eq (get?_of_findOne hone)⟩

theorem identifies (h : ws.store.catalog.Orderly c.definitions l s) (ht : ws.transaction = none)
    (name : String) : c.Identifies ws (ws.store.catalog.listed c.definitions) name := by
  refine ⟨?_, ⟨h.exists_look ht, fun ⟨d, ws', hd⟩ => ?_⟩, fun d ws' hd => ?_⟩
  · refine (c.observes_hasDataset name).of_ok (congrArg _ ?_)
    rw [Workspace.visible_of_closed ht, Bool.eq_iff_iff, decide_eq_true_iff,
      h.mem_listed_iff_findOne]
  · obtain ⟨hname, hat⟩ := h.of_look ht hd
    exact h.mem_listed.2 ⟨d, hat, hname⟩
  · obtain ⟨rfl, hat⟩ := h.of_look ht hd
    refine ⟨rfl, fun key document hdoc => ⟨fun hname => ?_, fun hkey => ?_⟩⟩
    · exact h.named _ _ _ _ hdoc hat (hname.trans d.get?_document_name.symm)
    · rw [hkey, hat] at hdoc
      injection hdoc with hdoc
      rw [← hdoc, d.get?_document_name]

end Catalog.Orderly

namespace Traffic
variable {c : Connection} {w₀ : Traffic} {moves : List Move}

/-- In whatever way the transactions of clients overlap, no two stored definitions have the same
identifier or the same name, the names are listed in strictly ascending order, and all ways of
asking for a name agree. -/
theorem run_identifies (hb : w₀.Blank) (ho : ∀ m ∈ moves, m.Over c.definitions)
    (hf : (w₀.run moves).world.workspace.supply.Fits c.definitions) :
    (∀ member ∈ ["_id", "name"], ∀ key key' document document',
      (w₀.run moves).world.workspace.store.catalog.documentAt c.definitions key = some document →
      (w₀.run moves).world.workspace.store.catalog.documentAt c.definitions key' =
        some document' →
      document.get? member = document'.get? member → key = key') ∧
    ∃ names ws', c.datasetNames (w₀.run moves).world.workspace = .ok names ws' ∧
      names.Pairwise (· < ·) ∧
      ∀ name, c.Identifies (w₀.run moves).world.workspace names name := by
  obtain ⟨l, horderly⟩ := run_orderly ho
    (orderly_of_blank hb fun k => (w₀.world.workspace.supply.ids k, "")) hf
  have hcatalog := horderly.catalog
  obtain ⟨ws', hnames⟩ : ∃ ws', c.datasetNames (w₀.run moves).world.workspace =
      .ok ((w₀.run moves).world.workspace.visible.listed c.definitions) ws' :=
    c.observes_datasetNames.of_ok rfl
  rw [Workspace.visible_of_closed horderly.closed] at hnames
  refine ⟨fun member hmember key key' document document' hdoc hdoc' heq => ?_, _, ws', hnames,
    hcatalog.pairwise_listed, fun name => hcatalog.identifies horderly.closed name⟩
  obtain rfl | rfl : member = "_id" ∨ member = "name" := by simpa using hmember
  · obtain ⟨d, rfl, -⟩ := hcatalog.recorded key document hdoc
    obtain ⟨d', rfl, -⟩ := hcatalog.recorded key' document' hdoc'
    rw [d.get?_document_id, d'.get?_document_id] at heq
    injection heq with heq
    injection heq with heq
    rw [← hcatalog.key_eq hdoc, ← hcatalog.key_eq hdoc', heq]
  · exact hcatalog.named _ _ _ _ hdoc hdoc' heq

section Sample
open Layout

/-- Two clients create a dataset of one name at the same time, and a third one loads it while it is
deleted and created again. -/
def overlappingMoves : List Move :=
  [.start 0 (.create World.sampleConnection "d" sampleClass.rootSchema none false),
    .start 1 (.create World.sampleConnection "d" boxClass.rootSchema none false), .finish 0,
    .finish 1, .look 2 World.sampleConnection (.byName "d"), .start 0 .delete, .view 2 true,
    .start 2 .commit, .finish 0,
    .start 1 (.create World.sampleConnection "d" boxClass.rootSchema none false), .finish 2,
    .finish 1]

theorem run_identifies_overlapping :
    ∃ ws', World.sampleConnection.datasetNames
        (sampleTraffic.run overlappingMoves).world.workspace = .ok ["d"] ws' ∧
      World.sampleConnection.Identifies (sampleTraffic.run overlappingMoves).world.workspace
        ["d"] "d" := by
  have hover : ∀ m ∈ overlappingMoves, m.Over World.sampleConnection.definitions := by
    simp [overlappingMoves, Move.Over, Task.Over]
  obtain ⟨-, names, ws', hnames, -, hall⟩ :=
    @run_identifies World.sampleConnection sampleTraffic overlappingMoves
      ⟨⟨rfl, rfl, fun _ => rfl⟩, fun _ => rfl⟩ hover (.of_isFit (by decide) (by decide +kernel))
  have hcheck : (given? (World.sampleConnection.datasetNames
      (sampleTraffic.run overlappingMoves).world.workspace)).any
        (fun g => decide (g.1 = ["d"])) = true := by
    decide +kernel
  rw [hnames] at hcheck
  have hd : names = ["d"] := of_decide_eq_true hcheck
  exact ⟨ws', hd ▸ hnames, hd ▸ hall "d"⟩

end Sample

end Traffic
end SchemaKeeper
