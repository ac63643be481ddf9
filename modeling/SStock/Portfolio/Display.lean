import SStock.Framework.Run
import SStock.Model.Steps

namespace SStock

open Framework

variable {P : Type}

/-- The cell is what its row was when the log had length `cell.version`. -/
structure Realm.Snapshot (m : Realm P) (cell : Cell P) : Prop where
  version_le : cell.version≤ m.log.length
  origin : ∃task stock,m.log[cell.row.obj]?=some (.add task stock) ∧ cell.row.stock=
    stock.setQuote (lastValue stock.quote (writes cell.row.obj (m.log.take cell.version)))

namespace Realm.Snapshot

variable {m m' : Realm P} {cell : Cell P}

theorem now {row : Row P} (h : row∈m.rows) : m.Snapshot ⟨row,m.log.length⟩ := by
  obtain ⟨task,stock,hlog,hstock⟩ := m.logged.origin row h
  exact ⟨Nat.le_refl _,task,stock,hlog,by rw [List.take_length]; exact hstock⟩

theorem grow (h : m.Snapshot cell) (hl : m.log <+: m'.log) : m'.Snapshot cell := by
  obtain ⟨task,stock,hlog,hstock⟩ := h.origin
  refine ⟨h.version_le.trans hl.length_le,task,stock,getElem?_of_grown hl hlog,?_⟩
  obtain ⟨more,hmore⟩ := hl
  rw [← hmore,List.take_append_of_le_length h.version_le]
  exact hstock

/-- What the row holds by now: the cell with the last quote written since. -/
theorem stock_eq (h : m.Snapshot cell) {row : Row P} (hr : row∈m.rows)
    (ho : row.obj=cell.row.obj) :
    row.stock=cell.row.stock.setQuote (lastValue cell.row.stock.quote
      (writes cell.row.obj (m.log.drop cell.version))) := by
  obtain ⟨task,stock,hlog,hstock⟩ := h.origin
  obtain ⟨task',stock',hlog',hrow⟩ := m.logged.origin row hr
  rw [ho,hlog] at hlog'
  cases hlog'
  rw [hrow,ho,hstock,RealmStock.setQuote_setQuote,RealmStock.quote_setQuote,
    ← lastValue_append_append,← writes_append,List.take_append_drop]

end Realm.Snapshot

namespace App

/-- Every cell is a snapshot of its row, and unless a reload is queued the
cells are those of the stored objects, in order. -/
structure Displays (s : App P) : Prop where
  cells : ∀cell∈s.tableView,s.realm.Snapshot cell
  rows : Block.reloadData∈s.mainQueue ∨
    s.tableView.map (fun cell => cell.row.obj)=s.realm.rows.map Row.obj

namespace Displays

variable {env : Env P} {s t : App P}

/-- A reload makes the display right whatever it was before. -/
theorem reloadData (s : App P) : Displays s.reloadData := by
  refine ⟨?_,Or.inr ?_⟩
  · intro cell hc
    obtain ⟨row,hr,rfl⟩ := List.mem_map.mp hc
    exact Realm.Snapshot.now hr
  · simp [App.reloadData]

theorem frame (h : Displays s) (htable : t.tableView=s.tableView)
    (hlog : s.realm.log <+: t.realm.log)
    (hobjs : t.realm.rows.map Row.obj=s.realm.rows.map Row.obj)
    (hqueue : Block.reloadData∈s.mainQueue → Block.reloadData∈t.mainQueue) : Displays t := by
  refine ⟨?_,?_⟩
  · intro cell hc
    rw [htable] at hc
    exact (h.cells cell hc).grow hlog
  · rw [htable,hobjs]
    exact h.rows.imp hqueue id

theorem same (h : Displays s) (htable : t.tableView=s.tableView) (hrealm : t.realm=s.realm)
    (hqueue : Block.reloadData∈s.mainQueue → Block.reloadData∈t.mainQueue) : Displays t :=
  h.frame htable (hrealm ▸ List.prefix_refl _) (hrealm ▸ rfl) hqueue

theorem performed {block : Block P} {rest : List (Block P)} (h : Displays s)
    (hq : s.mainQueue=block::rest) (hp : Performed {s with mainQueue := rest} block t) :
    Displays t := by
  cases hp with
  | refreshStocks hw =>
    -- no reload follows, but the cells stay those of the same objects
    obtain ⟨row,hr,hrows,hlog⟩ := Realm.write?_eq_some hw
    refine h.frame rfl ⟨_,hlog.symm⟩ ?_ (fun hb => ?_)
    · rw [hrows]
      exact map_obj_set hr _
    · simpa [hq] using hb
  | unwindFromSearchVC => exact reloadData _
  | reloadData => exact reloadData _
  | searchResults => exact h.same rfl rfl (fun hb => by simpa [hq] using hb)

theorem deleteRow {r : ℕ} {realm : Realm P} (h : Displays s) (hd : s.realm.delete? r=some realm) :
    Displays {s with realm := realm,mainQueue := s.mainQueue++[.reloadData]} := by
  obtain ⟨row,_,_,hlog⟩ := Realm.delete?_eq_some hd
  refine ⟨?_,Or.inl (by simp)⟩
  intro cell hc
  exact (h.cells cell hc).grow ⟨_,hlog.symm⟩

theorem cellForRow {r : ℕ} {cell : Cell P} {row : Row P} (h : Displays s)
    (hc : s.tableView[r]?=some cell) (hr : s.realm.rows[r]?=some row) :
    Displays {s with tableView := s.tableView.set r ⟨row,s.realm.log.length⟩} := by
  refine ⟨?_,?_⟩
  · intro cell' hm
    cases List.mem_or_eq_of_mem_set hm with
    | inl hm => exact h.cells cell' hm
    | inr he =>
      rw [he]
      exact Realm.Snapshot.now (List.mem_of_getElem? hr)
  · refine h.rows.imp id (fun hobjs => ?_)
    have hobj : cell.row.obj=row.obj := by
      have hi := congrArg (fun objs : List ℕ => objs[r]?) hobjs
      simpa [hc,hr] using hi
    exact (map_set_of_eq hc hobj.symm).trans hobjs

theorem viewed (h : Displays s) (hv : Viewed s t) : Displays t := by
  cases hv with
  | unchanged => exact h
  | reloadData => exact reloadData s
  | cellForRow hc hr => exact h.cellForRow hc hr
  | shareRow | alertClosed | selectRow | back | onSave | clock => exact h.same rfl rfl id

theorem step [Zero P] [One P] {e : Event P} (h : Displays s) (hs : s.step env e=some t) :
    Displays t := by
  cases step_cases hs with
  | other hview => exact h.viewed hview
  | refreshStocks => exact reloadData _
  | quoteReply | searchReply => exact h.same rfl rfl (List.mem_append_left _)
  | mainQueue hq hp => exact h.performed hq hp
  | deleteRow _ hd => exact h.deleteRow hd
  | openSearchVC | didSelectRow => exact h.same rfl rfl id
  | textDidChange hv =>
    rw [App.textDidChange,hv]
    exact h.same rfl rfl id

end Displays

/-- Code and closing price of the rows as last loaded, and as stored. -/
def displayed (s : App P) : List (String × P) :=
  s.tableView.map fun cell => (cell.row.stock.datasetCode,cell.row.stock.close)

def persisted (s : App P) : List (String × P) :=
  s.realm.rows.map fun row => (row.stock.datasetCode,row.stock.close)

/-- With no reload queued the stored rows are the displayed ones, each with the
last quote written since it was loaded. -/
theorem Displays.rows_eq {s : App P} (h : Displays s) (hq : s.mainQueue=[]) :
    s.realm.rows=s.tableView.map fun cell => ⟨cell.row.obj,cell.row.stock.setQuote
      (lastValue cell.row.stock.quote
        (writes cell.row.obj (s.realm.log.drop cell.version)))⟩ := by
  have hobjs : s.tableView.map (fun cell => cell.row.obj)=s.realm.rows.map Row.obj := by
    cases h.rows with
    | inl hb => simp [hq] at hb
    | inr hobjs => exact hobjs
  apply List.ext_getElem?
  intro i
  have hi := congrArg (fun objs : List ℕ => objs[i]?) hobjs
  simp only [List.getElem?_map] at hi ⊢
  cases hc : s.tableView[i]? with
  | none =>
    rw [hc] at hi
    simpa using hi.symm
  | some cell =>
    rw [hc] at hi
    obtain ⟨row,hr,ho⟩ := Option.map_eq_some_iff.mp hi.symm
    have ho : row.obj=cell.row.obj := ho
    have hs := (h.cells cell (List.mem_of_getElem? hc)).stock_eq (List.mem_of_getElem? hr) ho
    rw [hr,Option.map_some,← hs,← ho]

end App

variable [Zero P] [One P] {env : Env P} {portfolio : List (RealmStock P)}
  {users : List RealmUser} {firebase : List (String × Json P)} {clock : DateFields}
  {es : List (Event P)} {s : App P}

theorem displays_of_run
    (h : run (App.step env) (App.launch portfolio users firebase clock) es=some s) : s.Displays :=
  run_invariant h (App.Displays.reloadData _) (fun _ _ _ hu hv => hu.step hv)

/-- In a state with nothing pending on the main queue the display agrees with
the store exactly when, for every row, the last quote written to it since it
was loaded, if any, has the closing price already shown. -/
theorem display_agrees_iff
    (h : run (App.step env) (App.launch portfolio users firebase clock) es=some s)
    (hq : s.mainQueue=[]) :
    s.displayed=s.persisted ↔ ∀cell∈s.tableView,∀task quote,
      (writes cell.row.obj (s.realm.log.drop cell.version)).getLast?=some (task,quote) →
        quote.close=cell.row.stock.close := by
  have hrows := (displays_of_run h).rows_eq hq
  rw [App.displayed,App.persisted,hrows,List.map_map,List.map_inj_left]
  refine forall₂_congr (fun cell _ => ?_)
  simp only [Function.comp_apply,RealmStock.datasetCode_setQuote,RealmStock.close_setQuote,
    Prod.mk.injEq,true_and]
  cases hw : (writes cell.row.obj (s.realm.log.drop cell.version)).getLast? with
  | none =>
    rw [lastValue,hw]
    simp [RealmStock.quote]
  | some d =>
    rw [lastValue,hw]
    constructor
    · intro hc task quote hd
      cases hd
      exact hc.symm
    · intro hc
      exact (hc d.1 d.2 rfl).symm

/-- When the screen reappears after the reply the new price is shown. -/
theorem display_agrees_after_reappearance :
    ∃s,run (App.step App.sampleEnv) (App.sampleLaunch [App.sampleStock "FB" 3])
        [.refreshStocks,.quoteReply 1 (App.sampleReply "FB" "2016-04-08" 4),.mainQueue,
          .viewWillAppear]=some s ∧
      s.persisted=[("FB",4)] ∧ s.displayed=s.persisted := by
  obtain ⟨s,hs,hq,hp,hw⟩ : ∃s,run (App.step App.sampleEnv)
        (App.sampleLaunch [App.sampleStock "FB" 3])
        [.refreshStocks,.quoteReply 1 (App.sampleReply "FB" "2016-04-08" 4),.mainQueue,
          .viewWillAppear]=some s ∧ s.mainQueue=[] ∧ s.persisted=[("FB",4)] ∧
      ∀cell∈s.tableView,writes cell.row.obj (s.realm.log.drop cell.version)=[] :=
    ⟨_,rfl,rfl,rfl,by decide⟩
  refine ⟨s,hs,hp,(display_agrees_iff hs hq).mpr ?_⟩
  intro cell hc task quote hl
  simp [hw cell hc] at hl

/-- Without it the screen keeps the old price although nothing is in flight. -/
theorem display_misses_refresh :
    ¬∀(es : List (Event ℕ)) (s : App ℕ),
      run (App.step App.sampleEnv) (App.sampleLaunch [App.sampleStock "FB" 3]) es=some s →
      s.quoteTasks=[] → s.searchTasks=[] → s.mainQueue=[] → s.displayed=s.persisted := by
  intro h
  have hd := h [.refreshStocks,.quoteReply 1 (App.sampleReply "FB" "2016-04-08" 4),.mainQueue]
    _ rfl rfl rfl rfl
  exact absurd hd (by decide)

end SStock
