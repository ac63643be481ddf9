import SStock.Portfolio.Origins
import SStock.Portfolio.StatsScreen

namespace SStock

open Framework StockManager

variable {P : Type}

namespace App

variable {env : Env P} {s t : App P} {e : Event P} {r : ℕ} {cell : Cell P}

/-- What a handler with an index does with the row it finds there: the row is
deleted, its code sent, its prices shown on the next screen, or the row itself
in its cell. -/
def ActsOn (env : Env P) (s : App P) (row : Row P) (t : App P) : Event P → Prop
  | .deleteRow r => t.realm.rows=moveLastOver s.realm.rows r ∧
      t.realm.log=s.realm.log++[.moveLastOver r s.realm.rows.length row]
  | .send autoId recipient =>
    t.firebase=(sendStock autoId s.users s.firebase recipient row.stock.datasetCode).2
  | .selectRow _ => ∃vc,t.statsVC=some vc ∧ vc.Shows env row.stock
  | .cellForRow r => t.tableView[r]?=some ⟨row,s.realm.log.length⟩
  | _ => False

/-- The handlers act on the row at the index they look up. -/
theorem actsOn_of_step [Zero P] [One P] (he : s.indexed e=some (r,cell))
    (hs : s.step env e=some t) :
    ∃row,s.realm.rows[r]?=some row ∧ ActsOn env s row t e := by
  cases e with
  | deleteRow r' =>
    obtain ⟨cell',hc,heq⟩ := Option.map_eq_some_iff.mp he
    cases heq
    simp only [App.step,App.deleteRow,hc] at hs
    obtain ⟨realm,hd,rfl⟩ := Option.map_eq_some_iff.mp hs
    obtain ⟨row,hr,hrows,hlog⟩ := Realm.delete?_eq_some hd
    exact ⟨row,hr,hrows,hlog⟩
  | send autoId recipient =>
    obtain ⟨alert,ha,heq⟩ := Option.map_eq_some_iff.mp he
    cases heq
    rw [App.step,send_eq ha] at hs
    obtain ⟨row,hr,rfl⟩ := Option.map_eq_some_iff.mp hs
    exact ⟨row,hr,rfl⟩
  | selectRow r' =>
    obtain ⟨cell',hc,heq⟩ := Option.map_eq_some_iff.mp he
    cases heq
    simp only [App.step,App.selectRow,hc] at hs
    obtain ⟨vc,hv,rfl⟩ := Option.map_eq_some_iff.mp hs
    obtain ⟨row,hr,_⟩ := Option.map_eq_some_iff.mp hv
    exact ⟨row,hr,vc,rfl,prepareForSegue_shows hr hv⟩
  | cellForRow r' =>
    obtain ⟨cell',hc,heq⟩ := Option.map_eq_some_iff.mp he
    cases heq
    simp only [App.step,App.cellForRow,hc] at hs
    obtain ⟨row,hr,rfl⟩ := Option.map_eq_some_iff.mp hs
    have hlt : r < s.tableView.length := (List.getElem?_eq_some_iff.mp hc).1
    exact ⟨row,hr,by simp [ActsOn,hlt]⟩
  | _ => cases he

end App

variable [Zero P] [One P] {env : Env P} {portfolio : List (RealmStock P)}
  {users : List RealmUser} {firebase : List (String × Json P)} {clock : DateFields}
  {es : List (Event P)} {s t : App P}

/-- Where Delete, Send, the selection or the request for a cell ends, what it
deletes, sends or shows is a stored row, and that of the object displayed exactly
when the row was kept since it was loaded. -/
theorem row_action_acts_on_displayed
    (h : run (App.step env) (App.launch portfolio users firebase clock) es=some s)
    {e : Event P} {r : ℕ} {cell : Cell P} (he : s.indexed e=some (r,cell))
    (hs : s.step env e=some t) :
    ∃row,s.realm.rows[r]?=some row ∧ App.ActsOn env s row t e ∧
      (row.obj=cell.row.obj ↔ s.realm.KeptSince cell.version r) := by
  obtain ⟨row,hr,hacts⟩ := App.actsOn_of_step he hs
  refine ⟨row,hr,hacts,?_⟩
  rw [← ((tracking_of_run h).indexed he).resolves_iff,hr,Option.map_some,Option.some.injEq]

/-- From the reply on: a refresh reply with a quote queues its block, and
whenever that block is next it brings the quote to the object of the request
exactly when the row has been kept since the request was made. -/
theorem refresh_reply_delivers_from_answer
    (h : run (App.step env) (App.launch portfolio users firebase clock) es=some s)
    {task : QuoteTask} (hm : task∈s.quoteTasks) {i obj version : ℕ}
    (hc : task.completion=.refreshStocks i obj version) {response : Response P}
    {data : RealmStock P}
    (hreply : getStockDataReply (escapedQuery task.text) response=.completed data) :
    ∃t,s.step env (.quoteReply task.id response)=some t ∧
      t.mainQueue=s.mainQueue++[.refreshStocks task.id i obj version data] ∧
      ∀gs u rest,run (App.step env) t gs=some u →
        u.mainQueue=.refreshStocks task.id i obj version data::rest →
        ((∃v,u.step env .mainQueue=some v ∧ DeliversTo obj data.quote u v) ↔
          u.realm.KeptSince version i) := by
  have hpending : (s.quoteTasks.map QuoteTask.id).Nodup :=
    (List.nodup_append'.mp (origins_of_run h).2.tickets.nodup).1
  have ht : s.step env (.quoteReply task.id response)=some (s.answered task response) :=
    App.quoteReply_of_mem hpending hm (by simp [hreply])
  refine ⟨s.answered task response,ht,?_,?_⟩
  · rw [App.answered,hreply,hc]
    rfl
  · intro gs u rest hu hq
    have hrun : run (App.step env) (App.launch portfolio users firebase clock)
        (es++.quoteReply task.id response::gs)=some u := by
      refine (run_append_eq_some _).mpr ⟨s,h,?_⟩
      rw [run_cons,ht]
      exact hu
    have htr := (tracking_of_run hrun).blocks task.id i obj version data (by simp [hq])
    exact htr.delivers_iff hq

end SStock
