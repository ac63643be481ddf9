import SStock.Framework.Run
import SStock.Model.Steps

namespace SStock

open Framework

variable {P : Type}

/-- A change leaves the object at row `r` where it is: it is not a deletion of
row `r`, nor one made while row `r` was the last row. -/
def Change.Keeps (r : ℕ) : Change P → Prop
  | .moveLastOver row count _ => row≠r ∧ count≠r+1
  | _ => True

namespace Realm

/-- Every change since `version` keeps row `r`. -/
def KeptSince (m : Realm P) (version r : ℕ) : Prop := ∀c∈m.log.drop version,c.Keeps r

/-- Object `obj` was at row `r` when the log had length `version`, so it still
is exactly if the row has been kept since. -/
structure Tracks (m : Realm P) (obj r version : ℕ) : Prop where
  version_le : version≤ m.log.length
  known : obj < m.log.length
  tracked : Tracked (m.rows.map Row.obj) obj r (m.KeptSince version r)

variable {m m' : Realm P} {obj r version : ℕ}

theorem Tracks.resolves_iff (h : m.Tracks obj r version) :
    m.rows[r]?.map Row.obj=some obj ↔ m.KeptSince version r := by
  rw [← List.getElem?_map]
  exact h.tracked.resolves_iff

theorem Tracks.now {row : Row P} (h : m.rows[r]?=some row) :
    m.Tracks row.obj r m.log.length := by
  refine ⟨Nat.le_refl _,m.logged.obj_lt (List.mem_of_getElem? h),Tracked.start ?_ ?_⟩
  · simp [h]
  · intro c hc
    simp at hc

theorem keptSince_append {c : Change P} (hv : version≤ m.log.length)
    (hl : m'.log=m.log++[c]) :
    m'.KeptSince version r ↔ m.KeptSince version r ∧ c.Keeps r := by
  unfold KeptSince
  rw [hl,List.drop_append_of_le_length hv,List.forall_mem_append]
  simp

/-- What was tracked before a change of the store is tracked after it. -/
def Grows (m m' : Realm P) : Prop := ∀obj r version,m.Tracks obj r version → m'.Tracks obj r version

theorem grows_add (m : Realm P) (task : ℕ) (stock : RealmStock P) :
    m.Grows (m.add task stock) := by
  intro obj r version h
  have hk := keptSince_append (r := r) h.version_le (log_add (m := m) task stock)
  have hne : m.log.length≠obj := Nat.ne_of_gt h.known
  refine ⟨?_,?_,?_⟩
  · simp only [log_add,List.length_append]
    exact h.version_le.trans (Nat.le_add_right _ _)
  · simp only [log_add,List.length_append]
    exact h.known.trans_le (Nat.le_add_right _ _)
  · rw [rows_add,List.map_append]
    exact (h.tracked.append hne).congr (by simp [hk,Change.Keeps])

theorem grows_delete {p : ℕ} (hd : m.delete? p=some m') : m.Grows m' := by
  intro obj r version h
  obtain ⟨row,_,hrows,hlog⟩ := delete?_eq_some hd
  have hk := keptSince_append (r := r) h.version_le hlog
  refine ⟨?_,?_,?_⟩
  · rw [hlog,List.length_append]
    exact h.version_le.trans (Nat.le_add_right _ _)
  · rw [hlog,List.length_append]
    exact h.known.trans_le (Nat.le_add_right _ _)
  · rw [hrows,map_moveLastOver]
    refine (h.tracked.delete m.logged.nodup).congr ?_
    simp [hk,Change.Keeps]

theorem grows_write {p task : ℕ} {data : RealmStock P} (hw : m.write? p task data=some m') :
    m.Grows m' := by
  intro obj r version h
  obtain ⟨row,hr,hrows,hlog⟩ := write?_eq_some hw
  have hk := keptSince_append (r := r) h.version_le hlog
  refine ⟨?_,?_,?_⟩
  · rw [hlog,List.length_append]
    exact h.version_le.trans (Nat.le_add_right _ _)
  · rw [hlog,List.length_append]
    exact h.known.trans_le (Nat.le_add_right _ _)
  · rw [hrows,map_obj_set hr]
    exact h.tracked.congr (by simp [hk,Change.Keeps])

end Realm

namespace App

/-- Every captured row index, in a task, a block, a loaded cell or an alert, is
tracked by the object it was captured for. -/
structure Tracking (s : App P) : Prop where
  tasks : ∀task∈s.quoteTasks,∀i obj version,
    task.completion=.refreshStocks i obj version → s.realm.Tracks obj i version
  blocks : ∀task i obj version data,
    Block.refreshStocks task i obj version data∈s.mainQueue → s.realm.Tracks obj i version
  cells : ∀r cell,s.tableView[r]?=some cell → s.realm.Tracks cell.row.obj r cell.version
  alert : ∀alert,s.alert=some alert →
    s.realm.Tracks alert.cell.row.obj alert.row alert.cell.version

namespace Tracking

variable {env : Env P} {s t : App P}

theorem reloadData (h : Tracking s) : Tracking s.reloadData := by
  refine ⟨h.tasks,h.blocks,?_,h.alert⟩
  intro r cell hc
  have hc' : (s.realm.rows.map fun row => (⟨row,s.realm.log.length⟩ : Cell P))[r]?=some cell := hc
  rw [List.getElem?_map] at hc'
  obtain ⟨row,hr,rfl⟩ := Option.map_eq_some_iff.mp hc'
  exact Realm.Tracks.now hr

theorem setRealm (h : Tracking s) {realm : Realm P} (hg : s.realm.Grows realm) :
    Tracking {s with realm := realm} :=
  ⟨fun task hm i obj version hc => hg _ _ _ (h.tasks task hm i obj version hc),
    fun task i obj version data hb => hg _ _ _ (h.blocks task i obj version data hb),
    fun r cell hc => hg _ _ _ (h.cells r cell hc),
    fun alert ha => hg _ _ _ (h.alert alert ha)⟩

/-- Steps that leave the store and what was captured alone, but for new blocks. -/
theorem same (h : Tracking s) (hrealm : t.realm=s.realm)
    (htasks : ∀task∈t.quoteTasks,task∈s.quoteTasks)
    (hblocks : ∀task i obj version data,Block.refreshStocks task i obj version data∈t.mainQueue →
      s.realm.Tracks obj i version)
    (htable : t.tableView=s.tableView) (halert : t.alert=s.alert ∨ t.alert=none) :
    Tracking t := by
  refine ⟨?_,hrealm ▸ hblocks,?_,?_⟩
  · intro task hm i obj version hc
    exact hrealm ▸ h.tasks task (htasks task hm) i obj version hc
  · rw [hrealm,htable]
    exact h.cells
  · intro alert ha
    cases halert with
    | inl hsame => exact hrealm ▸ h.alert alert (hsame ▸ ha)
    | inr hnone => simp [hnone] at ha

theorem refreshStocks {new : List QuoteTask} {next : ℕ} (h : Tracking s)
    (hnew : ∀task∈new,RefreshTask s task) :
    Tracking {s with quoteTasks := s.quoteTasks++new,nextTask := next}.reloadData := by
  refine Tracking.reloadData ⟨?_,h.blocks,h.cells,h.alert⟩
  intro task hm i obj version hcomp
  cases List.mem_append.mp hm with
  | inl hm => exact h.tasks task hm i obj version hcomp
  | inr hm =>
    obtain ⟨j,row,hr,_,hc⟩ := (hnew task hm).issued
    rw [hcomp] at hc
    cases hc
    exact Realm.Tracks.now hr

/-- The block of a reply captures what its task captured. -/
theorem answered [Zero P] [One P] {task : QuoteTask} (h : Tracking s) (hm : task∈s.quoteTasks)
    (response : Response P) : Tracking (s.answered task response) := by
  refine h.same rfl (fun _ => List.mem_of_mem_filter) ?_ rfl (Or.inl rfl)
  intro k i obj version d hb
  cases mem_mainQueue_answered hb with
  | inl hb => exact h.blocks k i obj version d hb
  | inr hnew =>
    obtain ⟨data,_,hblock⟩ := hnew
    cases hc : task.completion with
    | refreshStocks i' obj' version' =>
      rw [hc] at hblock
      cases hblock
      exact h.tasks task hm i obj version hc
    | unwindFromSearchVC =>
      rw [hc] at hblock
      cases hblock

theorem performed {block : Block P} {rest : List (Block P)} (h : Tracking s)
    (hq : s.mainQueue=block::rest) (hp : Performed {s with mainQueue := rest} block t) :
    Tracking t := by
  have hrest : Tracking {s with mainQueue := rest} :=
    h.same rfl (fun _ => id) (fun task i obj version data hb => h.blocks task i obj version data
      (hq ▸ List.mem_cons_of_mem _ hb)) rfl (Or.inl rfl)
  cases hp with
  | refreshStocks hw => exact hrest.setRealm (Realm.grows_write hw)
  | unwindFromSearchVC => exact (hrest.setRealm (Realm.grows_add _ _ _)).reloadData
  | reloadData => exact hrest.reloadData
  | searchResults => exact hrest.same rfl (fun _ => id) hrest.blocks rfl (Or.inl rfl)

theorem deleteRow {r : ℕ} {realm : Realm P} (h : Tracking s) (hd : s.realm.delete? r=some realm) :
    Tracking {s with realm := realm,mainQueue := s.mainQueue++[.reloadData]} := by
  have hr := h.setRealm (Realm.grows_delete hd)
  refine hr.same rfl (fun _ => id) ?_ rfl (Or.inl rfl)
  intro task i obj version data hb
  have hold : Block.refreshStocks task i obj version data∈s.mainQueue := by simpa using hb
  exact hr.blocks task i obj version data hold

theorem cellForRow {r : ℕ} {row : Row P} (h : Tracking s) (hr : s.realm.rows[r]?=some row) :
    Tracking {s with tableView := s.tableView.set r ⟨row,s.realm.log.length⟩} := by
  refine ⟨h.tasks,h.blocks,?_,h.alert⟩
  intro j cell hc
  have hc' : (s.tableView.set r ⟨row,s.realm.log.length⟩)[j]?=some cell := hc
  rw [List.getElem?_set] at hc'
  split_ifs at hc' with he
  · subst he
    cases hc'
    exact Realm.Tracks.now hr
  · exact h.cells j cell hc'

theorem viewed (h : Tracking s) (hv : Viewed s t) : Tracking t := by
  cases hv with
  | unchanged => exact h
  | reloadData => exact h.reloadData
  | cellForRow _ hr => exact h.cellForRow hr
  | shareRow hc =>
    refine ⟨h.tasks,h.blocks,h.cells,?_⟩
    intro alert ha
    cases ha
    exact h.cells _ _ hc
  | alertClosed => exact h.same rfl (fun _ => id) h.blocks rfl (Or.inr rfl)
  | selectRow | back | onSave | clock => exact h.same rfl (fun _ => id) h.blocks rfl (Or.inl rfl)

theorem didSelectRow {vc : ℕ} {v : SearchVC} {shown stock : Stock} (h : Tracking s) :
    Tracking ((s.selected vc v shown stock).getStockData env stock.datasetCode
      .unwindFromSearchVC) := by
  refine ⟨?_,h.blocks,h.cells,h.alert⟩
  intro task hm i obj version hc
  cases Tickets.mem_of_mem_issued hm with
  | inl hm => exact h.tasks task hm i obj version hc
  | inr heq =>
    rw [heq] at hc
    cases hc

theorem step [Zero P] [One P] {e : Event P} (h : Tracking s) (hs : s.step env e=some t) :
    Tracking t := by
  cases step_cases hs with
  | other hview => exact h.viewed hview
  | refreshStocks hnew _ => exact h.refreshStocks (fun task hm => (hnew task hm).1)
  | quoteReply hm => exact h.answered hm _
  | searchReply hm =>
    refine h.same rfl (fun _ => id) ?_ rfl (Or.inl rfl)
    intro k i obj version data hb
    cases mem_mainQueue_searchAnswered hb with
    | inl hb => exact h.blocks k i obj version data hb
    | inr hnew =>
      obtain ⟨stocks,hblock⟩ := hnew
      cases hblock
  | mainQueue hq hp => exact h.performed hq hp
  | deleteRow _ hd => exact h.deleteRow hd
  | openSearchVC => exact h.same rfl (fun _ => id) h.blocks rfl (Or.inl rfl)
  | textDidChange hv =>
    rw [App.textDidChange,hv]
    exact h.same rfl (fun _ => id) h.blocks rfl (Or.inl rfl)
  | didSelectRow => exact h.didSelectRow

theorem launch (portfolio : List (RealmStock P)) (users : List RealmUser)
    (firebase : List (String × Json P)) (clock : DateFields) :
    Tracking (App.launch portfolio users firebase clock) := by
  refine Tracking.reloadData ⟨?_,?_,?_,?_⟩
  · intro task hm
    cases hm
  · intro task i obj version data hb
    cases hb
  · intro r cell hc
    cases hc
  · intro alert ha
    cases ha

end Tracking

/-- The row index a handler looks up in `realmTableData` for a user event, and
the displayed cell the user acted on. -/
def indexed (s : App P) : Event P → Option (ℕ × Cell P)
  | .deleteRow r => s.tableView[r]?.map fun cell => (r,cell)
  | .selectRow r => s.tableView[r]?.map fun cell => (r,cell)
  | .cellForRow r => s.tableView[r]?.map fun cell => (r,cell)
  | .send _ _ => s.alert.map fun alert => (alert.row,alert.cell)
  | _ => none

/-- The tracked cell behind a user event. -/
theorem Tracking.indexed {s : App P} (h : s.Tracking) {e : Event P} {r : ℕ} {cell : Cell P}
    (he : s.indexed e=some (r,cell)) : s.realm.Tracks cell.row.obj r cell.version := by
  cases e with
  | deleteRow r' | selectRow r' | cellForRow r' =>
    obtain ⟨cell',hc,heq⟩ := Option.map_eq_some_iff.mp he
    cases heq
    exact h.cells r cell hc
  | send autoId recipient =>
    obtain ⟨alert,ha,heq⟩ := Option.map_eq_some_iff.mp he
    cases heq
    exact h.alert alert ha
  | _ => cases he

end App

end SStock
