import SStock.Framework.Simulation
import SStock.Portfolio.Display
import SStock.Portfolio.Identity
import SStock.Portfolio.Quotes

namespace SStock

open Framework

variable {P : Type}

/-- The statistics screen shows `stock`: it loads, its header is the code, and
its two cells hold the prices under their labels. -/
structure StockStatsVC.Shows (env : Env P) (vc : StockStatsVC) (stock : RealmStock P) : Prop where
  loads : vc.viewDidLoad=some vc
  count : vc.numberOfRowsInSection=2
  header : vc.titleForHeaderInSection 0=stock.datasetCode
  openClose : vc.cellForRowAtIndexPath 0=
    some ("Open",env.describe stock.openPrice,"Close",env.describe stock.close)
  highLow : vc.cellForRowAtIndexPath 1=
    some ("High",env.describe stock.high,"Low",env.describe stock.low)

namespace App

variable {env : Env P} {s t : App P}

/-- A selected cell, the row stored at its index, and whether the row has been
kept since the cell was loaded. -/
abbrev Selection (P : Type) := Cell P × Row P × Bool

/-- What an event does to the statistics screen: a selection opens it on what is
found at the row, Back closes it. -/
def navigations (s : App P) : Event P → List (Option (Selection P))
  | .selectRow r => match s.tableView[r]?,s.realm.rows[r]? with
    | some cell,some row => [some (cell,row,decide (s.realm.KeptSince cell.version r))]
    | _,_ => []
  | .back => [none]
  | _ => []

theorem prepareForSegue_shows {r : ℕ} {row : Row P} {vc : StockStatsVC}
    (hr : s.realm.rows[r]?=some row) (hv : s.prepareForSegue env r=some vc) :
    vc.Shows env row.stock := by
  obtain ⟨vc',hvc,hfirst,hsecond⟩ := prepareForSegue_labels env hr
  obtain rfl : vc=vc' := Option.some.inj (hv.symm.trans hvc)
  rw [prepareForSegue,hr] at hv
  cases hv
  exact ⟨rfl,rfl,rfl,hfirst,hsecond⟩

/-- The screen after the selections and Backs so far: it is closed, or shows
what the last of them selected. -/
def LastSelection (env : Env P) (s : App P) (moves : List (Option (Selection P))) : Prop :=
  (s.statsVC=none ∧ moves.getLast?.join=none) ∨ ∃vc cell row kept,s.statsVC=some vc ∧
    moves.getLast?=some (some (cell,row,kept)) ∧ vc.Shows env row.stock ∧
      (kept=true → vc.titleForHeaderInSection 0=cell.row.stock.datasetCode)

namespace LastSelection

variable {moves : List (Option (Selection P))}

theorem same (h : LastSelection env s moves) (hv : t.statsVC=s.statsVC) :
    LastSelection env t (moves++[]) := by
  rw [List.append_nil,LastSelection,hv]
  exact h

/-- A row kept since its cell was loaded is that of the object displayed, whose
code no refresh has changed. -/
theorem selectRow (h : LastSelection env s moves) (htracking : s.Tracking)
    (hdisplays : s.Displays) {r : ℕ} (hs : s.selectRow env r=some t) :
    LastSelection env t (moves++s.navigations (.selectRow r)) := by
  cases hc : s.tableView[r]? with
  | none =>
    have he : s=t := by simpa [App.selectRow,hc] using hs
    rw [navigations,hc]
    exact h.same (by rw [he])
  | some cell =>
    simp only [App.selectRow,hc] at hs
    obtain ⟨vc,hv,rfl⟩ := Option.map_eq_some_iff.mp hs
    obtain ⟨row,hr,_⟩ := Option.map_eq_some_iff.mp hv
    have hshows := prepareForSegue_shows hr hv
    refine Or.inr ⟨vc,cell,row,decide (s.realm.KeptSince cell.version r),rfl,?_,hshows,?_⟩
    · rw [navigations,hc,hr]
      exact List.getLast?_concat
    · intro hk
      have hresolves := (htracking.cells r cell hc).resolves_iff.mpr (of_decide_eq_true hk)
      obtain ⟨row',hr',ho⟩ := Option.map_eq_some_iff.mp hresolves
      obtain rfl : row=row' := Option.some.inj (hr.symm.trans hr')
      have hcell := hdisplays.cells cell (List.mem_of_getElem? hc)
      rw [hshows.header,hcell.stock_eq (List.mem_of_getElem? hr) ho,
        RealmStock.datasetCode_setQuote]

/-- Only a selection and Back touch the screen. -/
theorem sameDevice {e : Event P} (h : LastSelection env s moves) (hv : t.statsVC=s.statsVC)
    (hr : ∀r,e≠.selectRow r) (hb : e≠.back) : LastSelection env t (moves++s.navigations e) := by
  have hnil : s.navigations e=[] := by
    cases e with
    | selectRow r => exact absurd rfl (hr r)
    | back => exact absurd rfl hb
    | _ => rfl
  rw [hnil]
  exact h.same hv

theorem step [Zero P] [One P] {e : Event P} (h : LastSelection env s moves)
    (htracking : s.Tracking) (hdisplays : s.Displays) (hs : s.step env e=some t) :
    LastSelection env t (moves++s.navigations e) := by
  by_cases hr : ∃r,e=.selectRow r
  · obtain ⟨r,rfl⟩ := hr
    exact h.selectRow htracking hdisplays hs
  by_cases hb : e=.back
  · subst hb
    cases hs
    exact Or.inl ⟨rfl,congrArg Option.join List.getLast?_concat⟩
  refine h.sameDevice ?_ (fun r he => hr ⟨r,he⟩) hb
  rcases sameDevice_of_step hs with hsame|⟨r,rfl⟩|⟨autoId,recipient,rfl⟩|rfl|⟨r,rfl⟩|rfl|
    ⟨text,rfl⟩|⟨clock,rfl⟩
  · exact hsame.statsVC
  · cases hs
    cases shareRow_cases s r with
    | inl he => rw [he]
    | inr hex =>
      obtain ⟨cell,_,he⟩ := hex
      rw [he]
  · cases send_cases hs with
    | inl he => rw [he]
    | inr hex =>
      obtain ⟨alert,row,_,_,rfl⟩ := hex
      rfl
  · cases hs
    rfl
  · exact absurd ⟨r,rfl⟩ hr
  · exact absurd rfl hb
  · cases hs
    rfl
  · cases hs
    rfl

end LastSelection

end App

variable [Zero P] [One P] {env : Env P} {portfolio : List (RealmStock P)}
  {users : List RealmUser} {firebase : List (String × Json P)} {clock : DateFields}
  {es : List (Event P)} {s : App P}

/-- In every run the statistics screen is open if and only if the last of the
selections of displayed rows and the Backs was a selection. It then shows the
row found by that selection as it was stored then, whatever has been written,
moved or deleted since; it opened without a trap, and if the row had been kept
since its cell was loaded its header is the code the user tapped on. -/
theorem stats_show_last_selection
    (h : run (App.step env) (App.launch portfolio users firebase clock) es=some s) :
    let moves := emitted (App.step env) App.navigations
      (App.launch portfolio users firebase clock) es
    (s.statsVC.isSome ↔ ∃selected,moves.getLast?=some (some selected)) ∧
      ∀vc,s.statsVC=some vc →
        ∃cell row kept,moves.getLast?=some (some (cell,row,kept)) ∧ vc.Shows env row.stock ∧
          (kept=true → vc.titleForHeaderInSection 0=cell.row.stock.datasetCode) := by
  intro moves
  have hlast := run_emits
    (R := fun u l => u.Tracking ∧ u.Displays ∧ App.LastSelection env u l) (l := []) h
    ⟨App.Tracking.launch portfolio users firebase clock,App.Displays.reloadData _,
      Or.inl ⟨rfl,rfl⟩⟩
    (fun u e v l ⟨htracking,hdisplays,hu⟩ hv =>
      ⟨htracking.step hv,hdisplays.step hv,hu.step htracking hdisplays hv⟩)
  rcases hlast.2.2 with ⟨hnone,hjoin⟩|⟨vc,cell,row,kept,hvc,hget,hshows⟩
  · refine ⟨⟨fun hsome => ?_,fun ⟨selected,hget⟩ => ?_⟩,fun vc hvc => ?_⟩
    · rw [hnone] at hsome
      cases hsome
    · change moves.getLast?.join=none at hjoin
      rw [hget] at hjoin
      cases hjoin
    · rw [hnone] at hvc
      cases hvc
  · refine ⟨⟨fun _ => ⟨_,hget⟩,fun _ => by rw [hvc]; rfl⟩,fun vc' hvc' => ?_⟩
    obtain rfl : vc=vc' := Option.some.inj (hvc.symm.trans hvc')
    exact ⟨cell,row,kept,hget,hshows⟩

/-- A refresh under way when a row is selected: its reply is written while the
screen is open, which still shows the old prices. -/
theorem stats_show_last_selection_refreshed :
    ∃s vc,run (App.step App.sampleEnv) (App.sampleLaunch [App.sampleStock "FB" 3])
        [.refreshStocks,.selectRow 0,.back,.viewWillAppear,.selectRow 0,
          .quoteReply 1 (App.sampleReply "FB" "2016-04-08" 4),.mainQueue]=some s ∧
      s.persisted=[("FB",4)] ∧ s.statsVC=some vc ∧
      vc.Shows App.sampleEnv (App.sampleStock "FB" 3) := by
  let es : List (Event ℕ) := [.refreshStocks,.selectRow 0,.back,.viewWillAppear,.selectRow 0,
    .quoteReply 1 (App.sampleReply "FB" "2016-04-08" 4),.mainQueue]
  obtain ⟨s,vc,hs,hrows,hvc,hget⟩ : ∃s vc,run (App.step App.sampleEnv)
        (App.sampleLaunch [App.sampleStock "FB" 3]) es=some s ∧
      s.persisted=[("FB",4)] ∧ s.statsVC=some vc ∧
      (emitted (App.step App.sampleEnv) App.navigations
        (App.sampleLaunch [App.sampleStock "FB" 3]) es).getLast?.join.map
          (fun selected => selected.2.1.stock)=some (App.sampleStock "FB" 3) :=
    ⟨_,_,rfl,rfl,rfl,rfl⟩
  obtain ⟨cell,row,kept,hlast,hshows,_⟩ := (stats_show_last_selection hs).2 vc hvc
  have hlast' : (emitted (App.step App.sampleEnv) App.navigations
      (App.sampleLaunch [App.sampleStock "FB" 3]) es).getLast?=some (some (cell,row,kept)) := hlast
  rw [hlast'] at hget
  have hstock : row.stock=App.sampleStock "FB" 3 := Option.some.inj hget
  exact ⟨s,vc,hs,hrows,hvc,hstock ▸ hshows⟩

end SStock
