import SStock.Portfolio.Ledger
import SStock.Portfolio.Quotes

namespace SStock

open Framework StockManager

variable {P : Type}

/-- A stock in the results of a search that was answered. -/
def Offered (es : List (Event P)) (shown : Stock) : Prop :=
  ∃id response stocks,Event.searchReply id response∈es ∧
    searchReply response=.completed stocks ∧ shown∈stocks

/-- A stock whose code a search offered and whose name a quote reply gave. -/
def Found (es : List (Event P)) (stock : RealmStock P) : Prop :=
  ∃shown id response,Offered es shown ∧ Event.quoteReply id response∈es ∧
    response.datasetName=some stock.name ∧ stock.datasetCode=escapedQuery shown.datasetCode

theorem Offered.mono {es fs : List (Event P)} {shown : Stock} (h : Offered es shown)
    (hsub : es ⊆ fs) : Offered fs shown := by
  obtain ⟨id,response,stocks,hm,hrest⟩ := h
  exact ⟨id,response,stocks,hsub hm,hrest⟩

theorem Found.mono {es fs : List (Event P)} {stock : RealmStock P} (h : Found es stock)
    (hsub : es ⊆ fs) : Found fs stock := by
  obtain ⟨shown,id,response,ho,hm,hrest⟩ := h
  exact ⟨shown,id,response,ho.mono hsub,hsub hm,hrest⟩

namespace App

/-- The answers in the history were delivered by the events `es`, and every tap
was on a stock these offered. -/
structure Recorded (es : List (Event P)) (s : App P) : Prop where
  answers : ∀answer∈s.history.answers,Event.quoteReply answer.task.id answer.response∈es
  searchAnswers : ∀d∈s.history.searchAnswers,Event.searchReply d.1 d.2∈es
  taps : ∀tap∈s.history.taps,Offered es tap.2

namespace Recorded

variable {env : Env P} {es fs : List (Event P)} {s t : App P}

theorem mono (h : Recorded es s) (hsub : es ⊆ fs) : Recorded fs s :=
  ⟨fun answer hm => hsub (h.answers answer hm),fun d hm => hsub (h.searchAnswers d hm),
    fun tap hm => (h.taps tap hm).mono hsub⟩

theorem same (h : Recorded es s) (hh : t.history=s.history) : Recorded es t := by
  refine ⟨?_,?_,?_⟩ <;> rw [hh]
  · exact h.answers
  · exact h.searchAnswers
  · exact h.taps

/-- A screen only ever shows results of searches that were answered. -/
theorem offered (h : Recorded es s) (hsearch : s.Searching) {vc : ℕ} {v : SearchVC}
    (hv : s.searchVCs[vc]?=some v) {shown : Stock} (hm : shown∈v.tableData) :
    Offered es shown := by
  have hscreen := hsearch.screens vc v hv
  rw [hscreen.shown,lastValue] at hm
  cases hl : v.received.getLast? with
  | none => simp [hl] at hm
  | some d =>
    simp only [hl,Option.map_some,Option.getD_some] at hm
    have hd : d∈results v.typed s.history.searchAnswers := by
      rw [← hscreen.arrivals]
      exact List.mem_append_left _ (List.mem_of_getLast? hl)
    obtain ⟨_,response,ha,hr⟩ := mem_results.mp hd
    exact ⟨d.1,response,d.2,h.searchAnswers _ ha,hr,hm⟩

theorem step [Zero P] [One P] {e : Event P} (h : Recorded es s) (hsearch : s.Searching)
    (hs : s.step env e=some t) : Recorded (es++[e]) t := by
  have hold : Recorded (es++[e]) s := h.mono (List.subset_append_left _ _)
  cases step_cases hs with
  | other hview => exact hold.same hview.sameStore.history
  | refreshStocks | openSearchVC | deleteRow => exact hold.same rfl
  | quoteReply hm =>
    next task response =>
    refine ⟨fun answer ha => ?_,hold.searchAnswers,hold.taps⟩
    cases List.mem_append.mp ha with
    | inl ha => exact hold.answers answer ha
    | inr ha =>
      rw [List.mem_singleton.mp ha]
      exact List.mem_append_right _ List.mem_cons_self
  | searchReply hm =>
    next task response =>
    refine ⟨hold.answers,fun d hd => ?_,hold.taps⟩
    cases List.mem_append.mp hd with
    | inl hd => exact hold.searchAnswers d hd
    | inr hd =>
      rw [List.mem_singleton.mp hd]
      exact List.mem_append_right _ List.mem_cons_self
  | mainQueue _ hp => cases hp <;> exact hold.same rfl
  | textDidChange hv =>
    rw [App.textDidChange,hv]
    exact hold.same rfl
  | didSelectRow hv hshown _ =>
    refine ⟨hold.answers,hold.searchAnswers,fun tap ht => ?_⟩
    cases List.mem_append.mp ht with
    | inl ht => exact hold.taps tap ht
    | inr ht =>
      rw [List.mem_singleton.mp ht]
      have hm := List.mem_of_getElem? hshown
      rw [(hsearch.screens _ _ hv).loaded] at hm
      exact hold.offered hsearch hv hm

theorem launch (portfolio : List (RealmStock P)) (users : List RealmUser)
    (firebase : List (String × Json P)) (clock : DateFields) :
    Recorded [] (App.launch portfolio users firebase clock) := by
  refine ⟨?_,?_,?_⟩
  · intro answer hm
    cases hm
  · intro d hm
    cases hm
  · intro tap hm
    cases hm

end Recorded

/-- What a tap's reply brought was found: the request is for the code tapped,
and the stock is named by the reply. -/
theorem Arrived.found [Zero P] [One P] {portfolio : List (RealmStock P)} {es : List (Event P)}
    {s : App P} {k : ℕ} {data : RealmStock P} (h : s.Arrived k data)
    (horigins : s.Origins portfolio) (hrecorded : s.Recorded es) : Found es data := by
  obtain ⟨answer,ha,rfl,hcomp,hreply⟩ := h
  obtain ⟨hname,hcode,_⟩ := getStockDataReply_completed hreply
  have hrequest : answer.task∈s.requests :=
    List.mem_append_right _ (List.mem_map_of_mem ha)
  obtain ⟨shown,htap,htext⟩ := (horigins.issued _ hrequest).unwind hcomp
  exact ⟨shown,_,_,hrecorded.taps _ htap,hrecorded.answers answer ha,hname,by rw [hcode,htext]⟩

end App

section Runs

variable [Zero P] [One P] {env : Env P} {portfolio : List (RealmStock P)}
  {users : List RealmUser} {firebase : List (String × Json P)} {clock : DateFields}
  {es : List (Event P)} {s : App P}

theorem recorded_of_run
    (h : run (App.step env) (App.launch portfolio users firebase clock) es=some s) :
    s.Recorded es := by
  have hboth := run_history (I := fun fs u => App.Recorded fs u ∧ u.Searching) h
    ⟨App.Recorded.launch portfolio users firebase clock,
      App.Searching.launch portfolio users firebase clock⟩
    (fun fs e u v hu hv => ⟨hu.1.step hu.2 hv,hu.2.step hv⟩)
  exact hboth.1

/-- Every row is an initial one with its name and code, or a stock that the user
found in the run; its quote is the initial one or that of a reply. -/
theorem holdings_of_run
    (h : run (App.step env) (App.launch portfolio users firebase clock) es=some s)
    {row : Row P} (hr : row∈s.realm.rows) :
    (∃stock∈portfolio,row.stock.identity=stock.identity ∧
        (row.stock.quote=stock.quote ∨ FromReply es row.stock.quote)) ∨
      (Found es row.stock ∧ FromReply es row.stock.quote) := by
  obtain ⟨_,horigins⟩ := origins_of_run h
  have hsourced : s.Sourced portfolio es :=
    run_history (I := fun fs u => App.Sourced portfolio fs u) h
      (App.Sourced.launch portfolio users firebase clock) (fun _ _ _ _ hu hv => hu.step hv)
  obtain ⟨k,stock,hadd,hstock⟩ := s.realm.logged.origin row hr
  have hidentity : row.stock.identity=stock.identity := by
    rw [hstock]
    rfl
  cases horigins.added row.obj k stock hadd with
  | inl hinitial =>
    refine Or.inl ⟨stock,List.mem_of_getElem? hinitial.2,hidentity,?_⟩
    rcases hsourced.rows row hr with hf|⟨stock',hs',hq⟩
    · exact Or.inr hf
    · cases hinitial.2.symm.trans hs'
      exact Or.inl hq
  | inr harrived =>
    rcases hsourced.rows row hr with hf|⟨stock',hs',hq⟩
    · obtain ⟨shown,id,response,ho,hm,hname,hcode⟩ :=
        harrived.found horigins (recorded_of_run h)
      refine Or.inr ⟨⟨shown,id,response,ho,hm,?_,?_⟩,hf⟩
      · rw [hstock]
        exact hname
      · rw [hstock]
        exact hcode
    · -- the place of an initial row in the log holds its insertion
      have hlog : (s.realm.log)[row.obj]?=some (.add 0 stock') := by
        refine getElem?_of_grown (App.log_prefix_of_run h) ?_
        change (portfolio.map (Change.add 0))[row.obj]?=_
        rw [List.getElem?_map,hs',Option.map_some]
      cases hadd.symm.trans hlog
      exact Or.inl ⟨stock,List.mem_of_getElem? hs',hidentity,Or.inl hq⟩

end Runs

end SStock
