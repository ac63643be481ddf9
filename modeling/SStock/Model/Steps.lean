import SStock.Framework.Run
import SStock.Model.App

namespace SStock.App

open Framework StockManager

variable {P : Type} {env : Env P} {s t : App P}

/-- What one loop of `refreshStocks` issues for the rows of `s`. -/
structure RefreshTask (s : App P) (task : QuoteTask) : Prop where
  issued : ∃i row,s.realm.rows[i]?=some row ∧ task.text=row.stock.datasetCode ∧
    task.completion=.refreshStocks i row.obj s.realm.log.length
  url : task.url=stockDataURL s.clock task.text
  id_ge : s.nextTask≤task.id

/-- The tasks appended by the loop over `entries`, numbered in order. -/
theorem foldl_refreshRow (env : Env P) (entries : List (Row P × ℕ)) (s : App P)
    (he : ∀entry∈entries,s.realm.rows[entry.2]?=some entry.1) :
    ∃new,entries.foldl (refreshRow env) s=
        {s with quoteTasks := s.quoteTasks++new,nextTask := s.nextTask+entries.length} ∧
      (∀task∈new,RefreshTask s task ∧ task.id<s.nextTask+entries.length) ∧
      (new.map QuoteTask.id).Nodup := by
  induction entries generalizing s with
  | nil => exact ⟨[],by simp,by simp,by simp⟩
  | cons entry entries ih =>
    let u := s.refreshRow env entry
    have hu : ∀e∈entries,u.realm.rows[e.2]?=some e.1 :=
      fun e hm => he e (List.mem_cons_of_mem _ hm)
    obtain ⟨new,hfold,hnew,hnodup⟩ := ih u hu
    have hlen : s.nextTask+1+entries.length=s.nextTask+(entries.length+1) := by omega
    have hrest : ∀task∈new,RefreshTask s task ∧ task.id<s.nextTask+(entries.length+1) ∧
        s.nextTask<task.id := by
      intro task hm
      obtain ⟨⟨hi,hurl,hge⟩,hlt⟩ := hnew task hm
      have hge' : s.nextTask+1≤task.id := hge
      have hlt' : task.id<s.nextTask+1+entries.length := hlt
      exact ⟨⟨hi,hurl,by omega⟩,by omega,by omega⟩
    rw [List.foldl_cons]
    change ∃new,entries.foldl (refreshRow env) u=_ ∧ _
    rw [hfold]
    let url := stockDataURL s.clock entry.1.stock.datasetCode
    let task : QuoteTask := ⟨s.nextTask,entry.1.stock.datasetCode,url,
      .refreshStocks entry.2 entry.1.obj s.realm.log.length⟩
    have htask : RefreshTask s task :=
      ⟨⟨entry.2,entry.1,he entry List.mem_cons_self,rfl,rfl⟩,rfl,Nat.le_refl _⟩
    by_cases ha : env.nsurlAccepts url
    · refine ⟨task::new,?_,?_,?_⟩
      · simp [u,refreshRow,getStockData,url,ha,task,hlen]
      · intro task' hm
        cases List.mem_cons.mp hm with
        | inl heq =>
          subst heq
          exact ⟨htask,by simp [task]⟩
        | inr hm => exact ⟨(hrest task' hm).1,(hrest task' hm).2.1⟩
      · rw [List.map_cons,List.nodup_cons]
        refine ⟨fun hm => ?_,hnodup⟩
        obtain ⟨task',hm',hid⟩ := List.mem_map.mp hm
        have hgt := (hrest task' hm').2.2
        have hid' : task'.id=s.nextTask := hid
        omega
    · refine ⟨new,?_,fun task' hm => ⟨(hrest task' hm).1,(hrest task' hm).2.1⟩,hnodup⟩
      simp [u,refreshRow,getStockData,url,ha,hlen]

theorem refreshStocks_eq (env : Env P) (s : App P) :
    ∃new,s.refreshStocks env=
        {s with
          quoteTasks := s.quoteTasks++new
          nextTask := s.nextTask+s.realm.rows.length}.reloadData ∧
      (∀task∈new,RefreshTask s task ∧ task.id<s.nextTask+s.realm.rows.length) ∧
      (new.map QuoteTask.id).Nodup := by
  have he : ∀entry∈s.realm.rows.zipIdx,s.realm.rows[entry.2]?=some entry.1 :=
    fun entry hm => List.mem_zipIdx_iff_getElem?.mp hm
  obtain ⟨new,hfold,hnew,hnodup⟩ := foldl_refreshRow env s.realm.rows.zipIdx s he
  rw [List.length_zipIdx] at hfold hnew
  exact ⟨new,by rw [refreshStocks,hfold],hnew,hnodup⟩

/-- The state in which `task` has been answered by `response`, with the block
of the completion in the queue if the reply called it. -/
def answered [Zero P] [One P] (s : App P) (task : QuoteTask) (response : Response P) : App P :=
  {s with
    quoteTasks := s.quoteTasks.filter fun other => other.id≠task.id
    history.answers := s.history.answers++[⟨task,response⟩]
    mainQueue := s.mainQueue++((getStockDataReply (escapedQuery task.text) response).result.map
      (task.completion.block task.id)).toList}

def searchAnswered (s : App P) (task : SearchTask) (response : Response P) : App P :=
  {s with
    searchTasks := s.searchTasks.filter fun other => other.id≠task.id
    history.searchAnswers := s.history.searchAnswers++[(task.id,response)]
    mainQueue := s.mainQueue++((StockManager.searchReply response).result.map
      (Block.searchResults task.id task.vc)).toList}

/-- A reply queues at most the block of its task. -/
theorem mem_mainQueue_answered [Zero P] [One P] {task : QuoteTask} {response : Response P}
    {block : Block P} (h : block∈(s.answered task response).mainQueue) :
    block∈s.mainQueue ∨
      ∃data,getStockDataReply (escapedQuery task.text) response=.completed data ∧
        block=task.completion.block task.id data := by
  cases List.mem_append.mp h with
  | inl hold => exact Or.inl hold
  | inr hnew =>
    obtain ⟨data,hdata,hblock⟩ := Option.map_eq_some_iff.mp (Option.mem_toList.mp hnew)
    exact Or.inr ⟨data,Handled.result_eq_some.mp hdata,hblock.symm⟩

theorem mem_mainQueue_searchAnswered {task : SearchTask} {response : Response P}
    {block : Block P} (h : block∈(s.searchAnswered task response).mainQueue) :
    block∈s.mainQueue ∨ ∃stocks,block=.searchResults task.id task.vc stocks := by
  cases List.mem_append.mp h with
  | inl hold => exact Or.inl hold
  | inr hnew =>
    obtain ⟨stocks,_,hblock⟩ := Option.map_eq_some_iff.mp (Option.mem_toList.mp hnew)
    exact Or.inr ⟨stocks,hblock.symm⟩

theorem quoteReply_cases [Zero P] [One P] {id : ℕ} {response : Response P}
    (h : s.quoteReply id response=some t) :
    t=s ∨ ∃task∈s.quoteTasks,task.id=id ∧ t=s.answered task response := by
  unfold quoteReply at h
  cases hf : s.quoteTasks.find? fun task => decide (task.id=id) with
  | none => exact Or.inl (by simpa [hf] using h.symm)
  | some task =>
    have hm := List.mem_of_find?_eq_some hf
    have hid : task.id=id := by simpa using List.find?_some hf
    subst hid
    refine Or.inr ⟨task,hm,rfl,?_⟩
    simp only [hf] at h
    cases hr : getStockDataReply (escapedQuery task.text) response with
    | trapped => simp [hr] at h
    | returned => simpa [hr,answered,Handled.result] using h.symm
    | completed data => simpa [hr,answered,Handled.result] using h.symm

/-- A reply to a pending request that does not trap answers that request. -/
theorem quoteReply_of_mem [Zero P] [One P] {task : QuoteTask} {response : Response P}
    (hn : (s.quoteTasks.map QuoteTask.id).Nodup) (hm : task∈s.quoteTasks)
    (hr : getStockDataReply (escapedQuery task.text) response≠.trapped) :
    s.quoteReply task.id response=some (s.answered task response) := by
  unfold quoteReply
  cases hf : s.quoteTasks.find? fun other => decide (other.id=task.id) with
  | none => simpa using List.find?_eq_none.mp hf task hm
  | some other =>
    have hid : other.id=task.id := by simpa using List.find?_some hf
    obtain rfl : other=task :=
      List.inj_on_of_nodup_map hn (List.mem_of_find?_eq_some hf) hm hid
    simp only
    cases hreply : getStockDataReply (escapedQuery other.text) response with
    | trapped => exact absurd hreply hr
    | returned => simp [answered,hreply,Handled.result]
    | completed data => simp [answered,hreply,Handled.result]

theorem searchReply_cases {id : ℕ} {response : Response P}
    (h : s.searchReply id response=some t) :
    t=s ∨ ∃task∈s.searchTasks,task.id=id ∧ t=s.searchAnswered task response := by
  unfold searchReply at h
  cases hf : s.searchTasks.find? fun task => decide (task.id=id) with
  | none => exact Or.inl (by simpa [hf] using h.symm)
  | some task =>
    have hm := List.mem_of_find?_eq_some hf
    have hid : task.id=id := by simpa using List.find?_some hf
    subst hid
    refine Or.inr ⟨task,hm,rfl,?_⟩
    simp only [hf] at h
    cases hr : StockManager.searchReply response with
    | trapped => simp [hr] at h
    | returned => simpa [hr,searchAnswered,Handled.result] using h.symm
    | completed stocks => simpa [hr,searchAnswered,Handled.result] using h.symm

theorem searchReply_of_mem {task : SearchTask} {response : Response P}
    (hn : (s.searchTasks.map SearchTask.id).Nodup) (hm : task∈s.searchTasks)
    (hr : StockManager.searchReply response≠.trapped) :
    s.searchReply task.id response=some (s.searchAnswered task response) := by
  unfold searchReply
  cases hf : s.searchTasks.find? fun other => decide (other.id=task.id) with
  | none => simpa using List.find?_eq_none.mp hf task hm
  | some other =>
    have hid : other.id=task.id := by simpa using List.find?_some hf
    obtain rfl : other=task :=
      List.inj_on_of_nodup_map hn (List.mem_of_find?_eq_some hf) hm hid
    simp only
    cases hreply : StockManager.searchReply response with
    | trapped => exact absurd hreply hr
    | returned => simp [searchAnswered,hreply,Handled.result]
    | completed stocks => simp [searchAnswered,hreply,Handled.result]

/-- What the turn of a main-queue block does, block by block. -/
inductive Performed (s : App P) : Block P → App P → Prop
  | refreshStocks {task i obj version : ℕ} {data : RealmStock P} {realm : Realm P}
      (h : s.realm.write? i task data=some realm) :
      Performed s (.refreshStocks task i obj version data) {s with realm := realm}
  | unwindFromSearchVC {task : ℕ} {data : RealmStock P} :
      Performed s (.unwindFromSearchVC task data)
        {s with realm := s.realm.add task data}.reloadData
  | reloadData : Performed s .reloadData s.reloadData
  | searchResults {task vc : ℕ} {stocks : List Stock} :
      Performed s (.searchResults task vc stocks)
        {s with searchVCs := s.searchVCs.modify vc (SearchVC.showResults task stocks)}

theorem perform_cases {block : Block P} (h : s.perform block=some t) : Performed s block t := by
  cases block with
  | refreshStocks task i obj version data =>
    obtain ⟨realm,hw,rfl⟩ := Option.map_eq_some_iff.mp h
    exact .refreshStocks hw
  | unwindFromSearchVC task data =>
    cases h
    exact .unwindFromSearchVC
  | reloadData =>
    cases h
    exact .reloadData
  | searchResults task vc stocks =>
    cases h
    exact .searchResults

theorem runMainQueue_cases (h : s.runMainQueue=some t) :
    (s.mainQueue=[] ∧ t=s) ∨ ∃block rest,s.mainQueue=block::rest ∧
      Performed {s with mainQueue := rest} block t := by
  unfold runMainQueue at h
  cases hq : s.mainQueue with
  | nil => exact Or.inl ⟨rfl,by simpa [hq] using h.symm⟩
  | cons block rest =>
    simp only [hq] at h
    exact Or.inr ⟨block,rest,rfl,perform_cases h⟩

theorem deleteRow_cases {r : ℕ} (h : s.deleteRow r=some t) :
    t=s ∨ ∃cell realm,s.tableView[r]?=some cell ∧ s.realm.delete? r=some realm ∧
      t={s with realm := realm,mainQueue := s.mainQueue++[.reloadData]} := by
  unfold deleteRow at h
  cases hc : s.tableView[r]? with
  | none => exact Or.inl (by simpa [hc] using h.symm)
  | some cell =>
    simp only [hc] at h
    obtain ⟨realm,hd,rfl⟩ := Option.map_eq_some_iff.mp h
    exact Or.inr ⟨cell,realm,rfl,hd,rfl⟩

theorem shareRow_cases (s : App P) (r : ℕ) :
    s.shareRow r=s ∨ ∃cell,s.tableView[r]?=some cell ∧
      s.shareRow r={s with alert := some ⟨r,cell⟩} := by
  unfold shareRow
  split
  · next cell hc _ => exact Or.inr ⟨cell,hc,rfl⟩
  · exact Or.inl rfl

/-- Send reads the row at the index the alert was opened on. -/
theorem send_eq {alert : ShareAlert P} (ha : s.alert=some alert) (autoId recipient : String) :
    s.send autoId recipient=s.realm.rows[alert.row]?.map fun row => {s with
      alert := none
      firebase := (sendStock autoId s.users s.firebase recipient row.stock.datasetCode).2} := by
  rw [send,ha]
  exact Option.map_map _ _ _

theorem send_cases {autoId recipient : String} (h : s.send autoId recipient=some t) :
    t=s ∨ ∃alert row,s.alert=some alert ∧ s.realm.rows[alert.row]?=some row ∧
      t={s with
        alert := none
        firebase := (sendStock autoId s.users s.firebase recipient row.stock.datasetCode).2} := by
  cases ha : s.alert with
  | none => exact Or.inl (by simpa [send,ha] using h.symm)
  | some alert =>
    rw [send_eq ha] at h
    obtain ⟨row,hr,rfl⟩ := Option.map_eq_some_iff.mp h
    exact Or.inr ⟨alert,row,rfl,hr,rfl⟩

theorem selectRow_cases {r : ℕ} (h : s.selectRow env r=some t) :
    t=s ∨ ∃vc,s.prepareForSegue env r=some vc ∧ t={s with statsVC := some vc} := by
  unfold selectRow at h
  cases hc : s.tableView[r]? with
  | none => exact Or.inl (by simpa [hc] using h.symm)
  | some cell =>
    simp only [hc] at h
    obtain ⟨vc,hv,rfl⟩ := Option.map_eq_some_iff.mp h
    exact Or.inr ⟨vc,hv,rfl⟩

theorem cellForRow_cases {r : ℕ} (h : s.cellForRow r=some t) :
    t=s ∨ ∃cell row,s.tableView[r]?=some cell ∧ s.realm.rows[r]?=some row ∧
      t={s with tableView := s.tableView.set r ⟨row,s.realm.log.length⟩} := by
  unfold cellForRow at h
  cases hc : s.tableView[r]? with
  | none => exact Or.inl (by simpa [hc] using h.symm)
  | some cell =>
    simp only [hc] at h
    obtain ⟨row,hr,rfl⟩ := Option.map_eq_some_iff.mp h
    exact Or.inr ⟨cell,row,rfl,hr,rfl⟩

/-- The state in which `stock` of row `r`, shown as `shown`, has been selected
in search screen `vc` with data `v`. -/
def selected (s : App P) (vc : ℕ) (v : SearchVC) (shown stock : Stock) : App P :=
  {s with
    searchVCs := s.searchVCs.set vc {v with selectedStock := stock}
    history.taps := s.history.taps++[(s.nextTask,shown)]}

theorem didSelectRow_cases {vc r : ℕ} (h : s.didSelectRow env vc r=some t) :
    t=s ∨ ∃v shown stock,s.searchVCs[vc]?=some v ∧ v.tableView[r]?=some shown ∧
      v.tableData[r]?=some stock ∧
      t=(s.selected vc v shown stock).getStockData env stock.datasetCode
        .unwindFromSearchVC := by
  unfold didSelectRow at h
  cases hv : s.searchVCs[vc]? with
  | none => exact Or.inl (by simpa [hv] using h.symm)
  | some v =>
    simp only [hv] at h
    cases hs : v.tableView[r]? with
    | none => exact Or.inl (by simpa [hs] using h.symm)
    | some shown =>
      simp only [hs] at h
      obtain ⟨stock,hd,rfl⟩ := Option.map_eq_some_iff.mp h
      exact Or.inr ⟨v,shown,stock,rfl,hs,hd,rfl⟩

theorem Performed.log {block : Block P} (h : Performed s block t) :
    t.realm.log=s.realm.log ∨ ∃c,t.realm.log=s.realm.log++[c] := by
  cases h with
  | refreshStocks hw =>
    obtain ⟨row,_,_,hlog⟩ := Realm.write?_eq_some hw
    exact Or.inr ⟨_,hlog⟩
  | unwindFromSearchVC => exact Or.inr ⟨_,rfl⟩
  | reloadData | searchResults => exact Or.inl rfl

/-- What the steps that leave the store, the requests and the search screens
alone do on the portfolio screen and around it. -/
inductive Viewed (s : App P) : App P → Prop
  | unchanged : Viewed s s
  | reloadData : Viewed s s.reloadData
  | cellForRow {r : ℕ} {cell : Cell P} {row : Row P} (hc : s.tableView[r]?=some cell)
      (hr : s.realm.rows[r]?=some row) :
      Viewed s {s with tableView := s.tableView.set r ⟨row,s.realm.log.length⟩}
  | shareRow {r : ℕ} {cell : Cell P} (hc : s.tableView[r]?=some cell) :
      Viewed s {s with alert := some ⟨r,cell⟩}
  | alertClosed {firebase : List (String × Json P)} :
      Viewed s {s with alert := none,firebase := firebase}
  | selectRow {vc : StockStatsVC} : Viewed s {s with statsVC := some vc}
  | back : Viewed s s.back
  | onSave {users : List RealmUser} : Viewed s {s with users := users}
  | clock {startDate : DateFields} : Viewed s {s with clock := startDate}

structure SameStore (s t : App P) : Prop where
  realm : t.realm=s.realm
  quoteTasks : t.quoteTasks=s.quoteTasks
  searchTasks : t.searchTasks=s.searchTasks
  mainQueue : t.mainQueue=s.mainQueue
  nextTask : t.nextTask=s.nextTask
  searchVCs : t.searchVCs=s.searchVCs
  history : t.history=s.history

theorem Viewed.sameStore (h : Viewed s t) : SameStore s t := by
  cases h <;> exact ⟨rfl,rfl,rfl,rfl,rfl,rfl,rfl⟩

/-- Everything a step can do, event by event. -/
inductive Stepped [Zero P] [One P] (env : Env P) (s : App P) : Event P → App P → Prop
  | other {e : Event P} {t : App P} (h : Viewed s t) : Stepped env s e t
  | refreshStocks {new : List QuoteTask}
      (hnew : ∀task∈new,RefreshTask s task ∧ task.id<s.nextTask+s.realm.rows.length)
      (hnodup : (new.map QuoteTask.id).Nodup) :
      Stepped env s .refreshStocks {s with
        quoteTasks := s.quoteTasks++new
        nextTask := s.nextTask+s.realm.rows.length}.reloadData
  | quoteReply {task : QuoteTask} {response : Response P} (hm : task∈s.quoteTasks) :
      Stepped env s (.quoteReply task.id response) (s.answered task response)
  | searchReply {task : SearchTask} {response : Response P} (hm : task∈s.searchTasks) :
      Stepped env s (.searchReply task.id response) (s.searchAnswered task response)
  | mainQueue {block : Block P} {rest : List (Block P)} {t : App P}
      (hq : s.mainQueue=block::rest) (hp : Performed {s with mainQueue := rest} block t) :
      Stepped env s .mainQueue t
  | deleteRow {r : ℕ} {cell : Cell P} {realm : Realm P} (hc : s.tableView[r]?=some cell)
      (hd : s.realm.delete? r=some realm) :
      Stepped env s (.deleteRow r)
        {s with realm := realm,mainQueue := s.mainQueue++[.reloadData]}
  | openSearchVC : Stepped env s .openSearchVC {s with searchVCs := s.searchVCs++[{}]}
  | textDidChange {vc : ℕ} {text : String} {v : SearchVC} (hv : s.searchVCs[vc]?=some v) :
      Stepped env s (.textDidChange vc text) (s.textDidChange env vc text)
  | didSelectRow {vc r : ℕ} {v : SearchVC} {shown stock : Stock}
      (hv : s.searchVCs[vc]?=some v) (hs : v.tableView[r]?=some shown)
      (hd : v.tableData[r]?=some stock) :
      Stepped env s (.didSelectRow vc r)
        ((s.selected vc v shown stock).getStockData env stock.datasetCode .unwindFromSearchVC)

theorem step_cases [Zero P] [One P] {e : Event P} (h : s.step env e=some t) :
    Stepped env s e t := by
  cases e with
  | viewWillAppear =>
    cases h
    exact .other .reloadData
  | refreshStocks =>
    cases h
    obtain ⟨new,heq,hnew,hnodup⟩ := refreshStocks_eq env s
    rw [heq]
    exact .refreshStocks hnew hnodup
  | quoteReply id response =>
    cases quoteReply_cases h with
    | inl he => exact he ▸ .other .unchanged
    | inr hex =>
      obtain ⟨task,hm,rfl,rfl⟩ := hex
      exact .quoteReply hm
  | searchReply id response =>
    cases searchReply_cases h with
    | inl he => exact he ▸ .other .unchanged
    | inr hex =>
      obtain ⟨task,hm,rfl,rfl⟩ := hex
      exact .searchReply hm
  | mainQueue =>
    cases runMainQueue_cases h with
    | inl he => exact he.2 ▸ .other .unchanged
    | inr hex =>
      obtain ⟨block,rest,hq,hp⟩ := hex
      exact .mainQueue hq hp
  | deleteRow r =>
    cases deleteRow_cases h with
    | inl he => exact he ▸ .other .unchanged
    | inr hex =>
      obtain ⟨cell,realm,hc,hd,rfl⟩ := hex
      exact .deleteRow hc hd
  | shareRow r =>
    cases h
    cases shareRow_cases s r with
    | inl he =>
      rw [he]
      exact .other .unchanged
    | inr hex =>
      obtain ⟨cell,hc,he⟩ := hex
      rw [he]
      exact .other (.shareRow hc)
  | send autoId recipient =>
    cases send_cases h with
    | inl he => exact he ▸ .other .unchanged
    | inr hex =>
      obtain ⟨alert,row,_,_,rfl⟩ := hex
      exact .other .alertClosed
  | cancelAlert =>
    cases h
    exact .other .alertClosed
  | selectRow r =>
    cases selectRow_cases h with
    | inl he => exact he ▸ .other .unchanged
    | inr hex =>
      obtain ⟨vc,_,rfl⟩ := hex
      exact .other .selectRow
  | back =>
    cases h
    exact .other .back
  | cellForRow r =>
    cases cellForRow_cases h with
    | inl he => exact he ▸ .other .unchanged
    | inr hex =>
      obtain ⟨cell,row,hc,hr,rfl⟩ := hex
      exact .other (.cellForRow hc hr)
  | openSearchVC =>
    cases h
    exact .openSearchVC
  | textDidChange vc text =>
    cases h
    cases hv : s.searchVCs[vc]? with
    | none =>
      have he : s.textDidChange env vc text=s := by simp [textDidChange,hv]
      rw [he]
      exact .other .unchanged
    | some v => exact .textDidChange hv
  | didSelectRow vc r =>
    cases didSelectRow_cases h with
    | inl he => exact he ▸ .other .unchanged
    | inr hex =>
      obtain ⟨v,shown,stock,hv,hs,hd,rfl⟩ := hex
      exact .didSelectRow hv hs hd
  | onSave text =>
    cases h
    exact .other .onSave
  | clock startDate =>
    cases h
    exact .other .clock

structure SameDevice (s t : App P) : Prop where
  users : t.users=s.users
  firebase : t.firebase=s.firebase
  alert : t.alert=s.alert
  statsVC : t.statsVC=s.statsVC
  clock : t.clock=s.clock

/-- Seven events apart, no step touches the user, the messages, the alert, the
statistics screen or the clock. -/
theorem sameDevice_of_step [Zero P] [One P] {e : Event P} (h : s.step env e=some t) :
    SameDevice s t ∨ (∃r,e=.shareRow r) ∨ (∃autoId recipient,e=.send autoId recipient) ∨
      e=.cancelAlert ∨ (∃r,e=.selectRow r) ∨ e=.back ∨ (∃text,e=.onSave text) ∨
        ∃clock,e=.clock clock := by
  have hsame : SameDevice s s := ⟨rfl,rfl,rfl,rfl,rfl⟩
  cases e with
  | viewWillAppear | openSearchVC =>
    cases h
    exact Or.inl ⟨rfl,rfl,rfl,rfl,rfl⟩
  | refreshStocks =>
    obtain ⟨new,heq,_⟩ := refreshStocks_eq env s
    cases h
    rw [heq]
    exact Or.inl ⟨rfl,rfl,rfl,rfl,rfl⟩
  | quoteReply id response =>
    cases quoteReply_cases h with
    | inl he => exact Or.inl (he ▸ hsame)
    | inr hex =>
      obtain ⟨task,_,_,rfl⟩ := hex
      exact Or.inl ⟨rfl,rfl,rfl,rfl,rfl⟩
  | searchReply id response =>
    cases searchReply_cases h with
    | inl he => exact Or.inl (he ▸ hsame)
    | inr hex =>
      obtain ⟨task,_,_,rfl⟩ := hex
      exact Or.inl ⟨rfl,rfl,rfl,rfl,rfl⟩
  | mainQueue =>
    cases runMainQueue_cases h with
    | inl he => exact Or.inl (he.2 ▸ hsame)
    | inr hex =>
      obtain ⟨block,rest,_,hp⟩ := hex
      cases hp <;> exact Or.inl ⟨rfl,rfl,rfl,rfl,rfl⟩
  | deleteRow r =>
    cases deleteRow_cases h with
    | inl he => exact Or.inl (he ▸ hsame)
    | inr hex =>
      obtain ⟨cell,realm,_,_,rfl⟩ := hex
      exact Or.inl ⟨rfl,rfl,rfl,rfl,rfl⟩
  | cellForRow r =>
    cases cellForRow_cases h with
    | inl he => exact Or.inl (he ▸ hsame)
    | inr hex =>
      obtain ⟨cell,row,_,_,rfl⟩ := hex
      exact Or.inl ⟨rfl,rfl,rfl,rfl,rfl⟩
  | textDidChange vc text =>
    cases h
    unfold textDidChange
    split <;> exact Or.inl ⟨rfl,rfl,rfl,rfl,rfl⟩
  | didSelectRow vc r =>
    cases didSelectRow_cases h with
    | inl he => exact Or.inl (he ▸ hsame)
    | inr hex =>
      obtain ⟨v,shown,stock,_,_,_,rfl⟩ := hex
      exact Or.inl ⟨rfl,rfl,rfl,rfl,rfl⟩
  | shareRow | send | cancelAlert | selectRow | back | onSave | clock => simp

/-- Only turns of the main queue and deletions touch the store. -/
theorem realm_of_step [Zero P] [One P] {e : Event P} (hs : s.step env e=some t)
    (hm : e≠.mainQueue) (hd : ∀r,e≠.deleteRow r) : t.realm=s.realm := by
  cases step_cases hs with
  | other hview => exact hview.sameStore.realm
  | mainQueue => exact absurd rfl hm
  | deleteRow => exact absurd rfl (hd _)
  | refreshStocks | quoteReply | searchReply | openSearchVC | didSelectRow => rfl
  | textDidChange hv => rw [App.textDidChange,hv]

/-- A step logs at most one change. -/
theorem log_of_step [Zero P] [One P] {e : Event P} (h : s.step env e=some t) :
    t.realm.log=s.realm.log ∨ ∃c,t.realm.log=s.realm.log++[c] := by
  cases step_cases h with
  | other hview => exact Or.inl (by rw [hview.sameStore.realm])
  | mainQueue _ hp => exact hp.log
  | deleteRow _ hd =>
    obtain ⟨row,_,_,hlog⟩ := Realm.delete?_eq_some hd
    exact Or.inr ⟨_,hlog⟩
  | refreshStocks | quoteReply | searchReply | openSearchVC | didSelectRow => exact Or.inl rfl
  | textDidChange hv =>
    rw [App.textDidChange,hv]
    exact Or.inl rfl

/-- The log of the store only grows. -/
theorem log_prefix [Zero P] [One P] {e : Event P} (h : s.step env e=some t) :
    s.realm.log <+: t.realm.log := by
  cases log_of_step h with
  | inl hsame => exact hsame ▸ List.prefix_refl s.realm.log
  | inr hone =>
    obtain ⟨c,hlog⟩ := hone
    exact ⟨[c],hlog.symm⟩

theorem log_prefix_of_run [Zero P] [One P] {es : List (Event P)}
    (h : run (step env) s es=some t) : s.realm.log <+: t.realm.log :=
  run_relates (R := fun u v => u.realm.log <+: v.realm.log) h (fun _ => List.prefix_refl _)
    (fun _ _ _ => List.IsPrefix.trans) (fun _ _ _ => log_prefix)

end SStock.App
