import SStock.Framework.Simulation
import SStock.Portfolio.Identity
import SStock.Portfolio.Ledger
import SStock.Portfolio.QuoteReply
import SStock.Search.SearchReply

namespace SStock

open Framework StockManager

variable {P : Type}

namespace Event

/-- Replies of the server, if the event is one, are shaped as the handlers
expect. -/
def Sound : Event P → Prop
  | .quoteReply _ response => response.QuoteGuarded
  | .searchReply _ response => response.SearchGuarded
  | _ => True

end Event

namespace StockManager

theorem getStockDataReply_ne_trapped [Zero P] [One P] {response : Response P}
    (h : response.QuoteGuarded) (escapedQuery : String) :
    getStockDataReply escapedQuery response≠.trapped := by
  have ho := getStockDataReply_outcome escapedQuery response
  generalize getStockDataReply escapedQuery response=result at ho
  cases ho with
  | array ha => exact absurd ha (h.notArray _)
  | unshaped | quote => simp
  | noQuote ht hq =>
    obtain ⟨q,_,hsome⟩ := firstQuote_of_guarded h ht
    cases hq.symm.trans hsome

theorem searchReply_ne_trapped {response : Response P} (h : response.SearchGuarded) :
    searchReply response≠.trapped := by
  have ho := searchReply_outcome response
  generalize searchReply response=result at ho
  cases ho with
  | array ha => exact absurd ha (h.notArray _)
  | unshaped | stocks => simp
  | undescribed hd hm hn =>
    obtain ⟨stock,hstock⟩ := h.described _ hd (Json.exists_map_object.mp ⟨_,rfl⟩) _
      (List.mem_map_of_mem hm)
    rw [hn] at hstock
    cases hstock

/-- A reply with a table of one row. -/
def quoteResponse (name : String) (q : Quote P) : Response P :=
  .json (.object [("dataset",.object [("name",.string name),("data",.array [.array
    [.string q.date,.number q.openPrice,.number q.high,.number q.low,.number q.close]])])])

theorem quotes_quoteResponse (name : String) (q : Quote P) :
    (quoteResponse name q).Quotes name q :=
  ⟨_,⟨_,_,rfl,rfl,rfl,rfl⟩,[],[],rfl⟩

end StockManager

theorem Response.Quotes.guarded {response : Response P} {name : String} {q : Quote P}
    (h : response.Quotes name q) : response.QuoteGuarded := by
  obtain ⟨rows,ht,hl⟩ := h
  refine ⟨?_,?_⟩
  · rintro items rfl
    obtain ⟨members,_,hm,_⟩ := ht
    cases hm
  · intro name' rows' ht'
    rw [← (ht.unique ht').2]
    exact ⟨q,hl⟩

/-- The row indices captured by the blocks of a queue are in range when their
turns come, where `n` rows are stored now and none is deleted in between. -/
def QueueInRange : ℕ → List (Block P) → Prop
  | _,[] => True
  | n,.refreshStocks _ i _ _ _::rest => i<n ∧ QueueInRange n rest
  | n,.unwindFromSearchVC _ _::rest => QueueInRange (n+1) rest
  | n,.reloadData::rest => QueueInRange n rest
  | n,.searchResults _ _ _::rest => QueueInRange n rest

/-- The insertions in front of a block count as rows for it. -/
theorem queueInRange_append {n : ℕ} {queue queue' : List (Block P)} :
    QueueInRange n (queue++queue') ↔
      QueueInRange n queue ∧ QueueInRange (n+(pendingAdds queue).length) queue' := by
  induction queue generalizing n with
  | nil => simp [QueueInRange,pendingAdds]
  | cons block rest ih =>
    cases block with
    | refreshStocks task i obj version data =>
      change i<n ∧ QueueInRange n (rest++queue') ↔ (i<n ∧ QueueInRange n rest) ∧ _
      rw [ih,and_assoc]
      rfl
    | unwindFromSearchVC task data =>
      change QueueInRange (n+1) (rest++queue') ↔ QueueInRange (n+1) rest ∧ _
      have hlen : n+(pendingAdds (.unwindFromSearchVC task data::rest)).length=
          n+1+(pendingAdds rest).length := by
        change n+((pendingAdds rest).length+1)=_
        omega
      rw [ih,hlen]
    | reloadData => exact ih
    | searchResults task vc stocks => exact ih

namespace App

/-- Every row index captured in the alert, a block or a request is in range
when it is used, if no row is deleted before. -/
structure Captured (s : App P) : Prop where
  alert : ∀alert,s.alert=some alert → alert.row<s.realm.rows.length
  queue : QueueInRange s.realm.rows.length s.mainQueue
  tasks : ∀task∈s.quoteTasks,∀i obj version,task.completion=.refreshStocks i obj version →
    i<s.realm.rows.length+(pendingAdds s.mainQueue).length
  screens : ∀v∈s.searchVCs,v.tableView.length≤v.tableData.length

/-- The rows on display are in range as well. -/
structure InRange (s : App P) : Prop extends Captured s where
  table : s.tableView.length≤ s.realm.rows.length

variable {env : Env P} {s t : App P}

namespace Captured

/-- Steps that leave the store, the queue and the search screens alone and add
no request with a row index. -/
theorem same (h : Captured s) (hrealm : t.realm=s.realm) (hqueue : t.mainQueue=s.mainQueue)
    (htasks : ∀task∈t.quoteTasks,task∈s.quoteTasks ∨ task.completion=.unwindFromSearchVC)
    (hscreens : ∀v∈t.searchVCs,v.tableView.length≤v.tableData.length)
    (halert : ∀alert,t.alert=some alert → alert.row<t.realm.rows.length) : Captured t := by
  refine ⟨halert,?_,?_,hscreens⟩
  · rw [hrealm,hqueue]
    exact h.queue
  · intro task hm i obj version hc
    rw [hrealm,hqueue]
    cases htasks task hm with
    | inl hm => exact h.tasks task hm i obj version hc
    | inr hu =>
      rw [hu] at hc
      cases hc

theorem refreshStocks {new : List QuoteTask} {next : ℕ} (h : Captured s)
    (hnew : ∀task∈new,RefreshTask s task) :
    Captured {s with quoteTasks := s.quoteTasks++new,nextTask := next}.reloadData := by
  refine ⟨h.alert,h.queue,?_,h.screens⟩
  intro task hm i obj version hcomp
  cases List.mem_append.mp hm with
  | inl hm => exact h.tasks task hm i obj version hcomp
  | inr hm =>
    obtain ⟨j,row,hr,_,hc⟩ := (hnew task hm).issued
    rw [hcomp] at hc
    cases hc
    have hlt : i<s.realm.rows.length := (List.getElem?_eq_some_iff.mp hr).1
    exact hlt.trans_le (Nat.le_add_right _ _)

/-- The block of a reply comes behind the insertions already queued. -/
theorem answered [Zero P] [One P] {task : QuoteTask} (h : Captured s) (hm : task∈s.quoteTasks)
    (response : Response P) : Captured (s.answered task response) := by
  refine ⟨h.alert,?_,?_,h.screens⟩
  · refine queueInRange_append.mpr ⟨h.queue,?_⟩
    cases (getStockDataReply (escapedQuery task.text) response).result with
    | none => trivial
    | some data =>
      cases hc : task.completion with
      | refreshStocks i obj version => exact ⟨h.tasks task hm i obj version hc,trivial⟩
      | unwindFromSearchVC => trivial
  · intro other ho i obj version hc
    have hlt := h.tasks other (List.mem_of_mem_filter ho) i obj version hc
    simp only [App.answered,pendingAdds_append,List.length_append]
    omega

theorem searchAnswered {task : SearchTask} (h : Captured s) (response : Response P) :
    Captured (s.searchAnswered task response) := by
  have hpending : pendingAdds (s.searchAnswered task response).mainQueue=
      pendingAdds s.mainQueue := by
    rw [App.searchAnswered,pendingAdds_append]
    cases (StockManager.searchReply response).result <;> exact List.append_nil _
  refine ⟨h.alert,?_,?_,h.screens⟩
  · refine queueInRange_append.mpr ⟨h.queue,?_⟩
    cases (StockManager.searchReply response).result <;> trivial
  · intro other ho i obj version hc
    rw [hpending]
    exact h.tasks other ho i obj version hc

theorem performed {block : Block P} {rest : List (Block P)} (h : Captured s)
    (hq : s.mainQueue=block::rest) (hp : Performed {s with mainQueue := rest} block t) :
    Captured t := by
  have hqueue := h.queue
  have htasks := h.tasks
  rw [hq] at hqueue htasks
  cases hp with
  | refreshStocks hw =>
    obtain ⟨row,_,hrows,_⟩ := Realm.write?_eq_some hw
    have hlen := congrArg List.length hrows
    rw [List.length_set] at hlen
    refine ⟨?_,?_,?_,h.screens⟩
    · intro alert ha
      rw [hlen]
      exact h.alert alert ha
    · rw [hlen]
      exact hqueue.2
    · intro task hm i obj version hc
      rw [hlen]
      exact htasks task hm i obj version hc
  | unwindFromSearchVC =>
    next k data =>
    have hlen : (s.realm.add k data).rows.length=s.realm.rows.length+1 := by simp
    refine ⟨?_,?_,?_,h.screens⟩
    · intro alert ha
      have hlt := h.alert alert ha
      change alert.row<(s.realm.add k data).rows.length
      omega
    · change QueueInRange (s.realm.add k data).rows.length rest
      rw [hlen]
      exact hqueue
    · intro task hm i obj version hc
      have hlt : i<s.realm.rows.length+((pendingAdds rest).length+1) :=
        htasks task hm i obj version hc
      change i<(s.realm.add k data).rows.length+(pendingAdds rest).length
      omega
  | reloadData => exact ⟨h.alert,hqueue,htasks,h.screens⟩
  | searchResults =>
    refine ⟨h.alert,hqueue,htasks,?_⟩
    intro v hv
    obtain ⟨j,hj⟩ := List.mem_iff_getElem?.mp hv
    simp only [List.getElem?_modify] at hj
    obtain ⟨u,hu,rfl⟩ := Option.map_eq_some_iff.mp hj
    split_ifs
    · exact Nat.le_refl _
    · exact h.screens u (List.mem_of_getElem? hu)

theorem textDidChange {vc : ℕ} {text : String} (h : Captured s) :
    Captured (s.textDidChange env vc text) := by
  unfold App.textDidChange
  cases hv : s.searchVCs[vc]? with
  | none => exact h
  | some v =>
    refine h.same rfl rfl (fun _ => Or.inl) ?_ h.alert
    intro w hw
    obtain ⟨j,hj⟩ := List.mem_iff_getElem?.mp hw
    simp only [List.getElem?_modify] at hj
    obtain ⟨u,hu,rfl⟩ := Option.map_eq_some_iff.mp hj
    have hle := h.screens u (List.mem_of_getElem? hu)
    split_ifs <;> exact hle

theorem didSelectRow {vc : ℕ} {v : SearchVC} {shown stock : Stock} (h : Captured s)
    (hv : s.searchVCs[vc]?=some v) :
    Captured ((s.selected vc v shown stock).getStockData env stock.datasetCode
      .unwindFromSearchVC) := by
  refine h.same rfl rfl ?_ ?_ h.alert
  · intro task hm
    cases Tickets.mem_of_mem_issued hm with
    | inl hm => exact Or.inl hm
    | inr heq => exact Or.inr (by rw [heq])
  · intro w hw
    cases List.mem_or_eq_of_mem_set hw with
    | inl hw => exact h.screens w hw
    | inr heq =>
      subst heq
      exact h.screens v (List.mem_of_getElem? hv)

end Captured

namespace InRange

theorem table_cell (h : InRange s) {e : Event P} {r : ℕ} {cell : Cell P} (he : s.indexed e=some (r,cell)) :
    r<s.realm.rows.length := by
  cases e with
  | deleteRow r' | selectRow r' | cellForRow r' =>
    obtain ⟨cell',hc,heq⟩ := Option.map_eq_some_iff.mp he
    cases heq
    exact (List.getElem?_eq_some_iff.mp hc).1.trans_le h.table
  | send autoId recipient =>
    obtain ⟨alert,ha,heq⟩ := Option.map_eq_some_iff.mp he
    cases heq
    exact h.alert alert ha
  | _ => cases he

theorem launch (portfolio : List (RealmStock P)) (users : List RealmUser)
    (firebase : List (String × Json P)) (clock : DateFields) :
    InRange (App.launch portfolio users firebase clock) := by
  refine ⟨⟨?_,trivial,?_,?_⟩,?_⟩
  · intro alert ha
    cases ha
  · intro task hm
    cases hm
  · intro v hv
    cases hv
  · simp [App.launch,App.reloadData]

end InRange

section Steps

variable [Zero P] [One P] {e : Event P}

/-- Only Share opens an alert. -/
theorem alert_cases (hs : s.step env e=some t) : t.alert=s.alert ∨ t.alert=none ∨
    ∃r cell,e=.shareRow r ∧ s.tableView[r]?=some cell ∧ t.alert=some ⟨r,cell⟩ := by
  rcases sameDevice_of_step hs with hsame|⟨r,rfl⟩|⟨autoId,recipient,rfl⟩|rfl|⟨r,rfl⟩|rfl|
    ⟨text,rfl⟩|⟨clock,rfl⟩
  · exact Or.inl hsame.alert
  · cases hs
    cases shareRow_cases s r with
    | inl he => exact Or.inl (by rw [he])
    | inr hex =>
      obtain ⟨cell,hc,he⟩ := hex
      exact Or.inr (Or.inr ⟨r,cell,rfl,hc,by rw [he]⟩)
  · cases send_cases hs with
    | inl he => exact Or.inl (by rw [he])
    | inr hex =>
      obtain ⟨alert,row,_,_,rfl⟩ := hex
      exact Or.inr (Or.inl rfl)
  · cases hs
    exact Or.inr (Or.inl rfl)
  · cases selectRow_cases hs with
    | inl he => exact Or.inl (by rw [he])
    | inr hex =>
      obtain ⟨vc,_,rfl⟩ := hex
      exact Or.inl rfl
  · cases hs
    exact Or.inl rfl
  · cases hs
    exact Or.inl rfl
  · cases hs
    exact Or.inl rfl

/-- A step that is no deletion removes no row. -/
theorem rows_length_le (hs : Stepped env s e t) (hd : ∀r,e≠.deleteRow r) :
    s.realm.rows.length≤t.realm.rows.length := by
  cases hs with
  | other hview => rw [hview.sameStore.realm]
  | refreshStocks | quoteReply | searchReply | openSearchVC | didSelectRow => exact Nat.le_refl _
  | deleteRow => exact absurd rfl (hd _)
  | textDidChange hv =>
    rw [textDidChange,hv]
  | mainQueue _ hp =>
    cases hp with
    | refreshStocks hw =>
      obtain ⟨row,_,hrows,_⟩ := Realm.write?_eq_some hw
      rw [hrows,List.length_set]
    | unwindFromSearchVC =>
      change _≤(s.realm.rows++[_]).length
      rw [List.length_append]
      exact Nat.le_add_right _ _
    | reloadData | searchResults => exact Nat.le_refl _

/-- An event does not trap when its reply, if it is one, is well shaped and the
row it looks up, if any, exists. -/
theorem isSome_step_of (he : e.Sound)
    (hrow : ∀r cell,s.indexed e=some (r,cell) → r<s.realm.rows.length)
    (hblock : e=.mainQueue → ∀task i obj version data rest,
      s.mainQueue=.refreshStocks task i obj version data::rest → i<s.realm.rows.length)
    (hscreens : ∀v∈s.searchVCs,v.tableView.length≤v.tableData.length) :
    (s.step env e).isSome := by
  have hindexed (r : ℕ) (cell : Cell P) (hi : s.indexed e=some (r,cell)) :
      (s.step env e).isSome :=
    (isSome_step_iff hi).mpr (by simp [Realm.objAt,hrow r cell hi])
  cases e with
  | deleteRow r =>
    cases hc : s.tableView[r]? with
    | none => simp [App.step,App.deleteRow,hc]
    | some cell => exact hindexed r cell (by simp [indexed,hc])
  | selectRow r =>
    cases hc : s.tableView[r]? with
    | none => simp [App.step,App.selectRow,hc]
    | some cell => exact hindexed r cell (by simp [indexed,hc])
  | cellForRow r =>
    cases hc : s.tableView[r]? with
    | none => simp [App.step,App.cellForRow,hc]
    | some cell => exact hindexed r cell (by simp [indexed,hc])
  | send autoId recipient =>
    cases ha : s.alert with
    | none => simp [App.step,App.send,ha]
    | some alert => exact hindexed alert.row alert.cell (by simp [indexed,ha])
  | quoteReply id response =>
    simp only [App.step,App.quoteReply]
    cases s.quoteTasks.find? fun task => task.id=id with
    | none => rfl
    | some task =>
      have hne := getStockDataReply_ne_trapped he (escapedQuery task.text)
      cases hr : getStockDataReply (escapedQuery task.text) response with
      | trapped => exact absurd hr hne
      | returned | completed => simp only [hr,Option.isSome_some]
  | searchReply id response =>
    simp only [App.step,App.searchReply]
    cases s.searchTasks.find? fun task => task.id=id with
    | none => rfl
    | some task =>
      have hne := searchReply_ne_trapped he
      cases hr : StockManager.searchReply response with
      | trapped => exact absurd hr hne
      | returned | completed => rfl
  | mainQueue =>
    simp only [App.step,App.runMainQueue]
    cases hq : s.mainQueue with
    | nil => rfl
    | cons block rest =>
      cases block with
      | refreshStocks task i obj version data =>
        have hlt := hblock rfl task i obj version data rest hq
        simp [App.perform,Option.isSome_iff_ne_none,Realm.write?_eq_none,hlt]
      | unwindFromSearchVC | reloadData | searchResults => rfl
  | didSelectRow vc r =>
    simp only [App.step,App.didSelectRow]
    cases hv : s.searchVCs[vc]? with
    | none => rfl
    | some v =>
      cases hs : v.tableView[r]? with
      | none => simp [hs]
      | some shown =>
        have hlt := (List.getElem?_eq_some_iff.mp hs).1
        have hle := hscreens v (List.mem_of_getElem? hv)
        simp [hs,hlt.trans_le hle]
  | _ => rfl

namespace Captured

/-- A step that is no deletion keeps what was captured in range, if Share was
not tapped on a row out of range. -/
theorem step (h : Captured s) (hd : ∀r,e≠.deleteRow r)
    (hshare : ∀r,e=.shareRow r → s.tableView.length≤ s.realm.rows.length)
    (hs : s.step env e=some t) : Captured t := by
  have hlen := rows_length_le (step_cases hs) hd
  have halert : ∀alert,t.alert=some alert → alert.row<t.realm.rows.length := by
    intro alert ha
    rcases alert_cases hs with hsame|hnone|⟨r,cell,he,hc,hopen⟩
    · exact (h.alert alert (hsame ▸ ha)).trans_le hlen
    · simp [hnone] at ha
    · rw [hopen] at ha
      cases ha
      have hlt := (List.getElem?_eq_some_iff.mp hc).1
      have hle := hshare r he
      simp only
      omega
  cases step_cases hs with
  | other hview =>
    have hsame := hview.sameStore
    refine h.same hsame.realm hsame.mainQueue (fun task hm => ?_) ?_ halert
    · exact Or.inl (hsame.quoteTasks ▸ hm)
    · rw [hsame.searchVCs]
      exact h.screens
  | refreshStocks hnew _ => exact h.refreshStocks (fun task hm => (hnew task hm).1)
  | quoteReply hm => exact h.answered hm _
  | searchReply hm => exact h.searchAnswered _
  | mainQueue hq hp => exact h.performed hq hp
  | deleteRow => exact absurd rfl (hd _)
  | openSearchVC =>
    refine h.same rfl rfl (fun _ => Or.inl) ?_ h.alert
    intro v hv
    cases List.mem_append.mp hv with
    | inl hv => exact h.screens v hv
    | inr hv => rw [List.mem_singleton.mp hv]
  | textDidChange => exact h.textDidChange
  | didSelectRow hv => exact h.didSelectRow hv

theorem isSome_step (h : Captured s) (he : e.Sound)
    (hrow : ∀r cell,s.indexed e=some (r,cell) → r<s.realm.rows.length) :
    (s.step env e).isSome := by
  refine isSome_step_of he hrow (fun _ task i obj version data rest hq => ?_) h.screens
  have hqueue := h.queue
  rw [hq] at hqueue
  exact hqueue.1

end Captured

namespace InRange

/-- What a step does to the table: a reload, or one row is loaded again. -/
theorem table_step (hs : s.step env e=some t) : t.tableView.length=s.tableView.length ∨
    t.tableView.length=t.realm.rows.length := by
  cases step_cases hs with
  | other hview =>
    cases hview with
    | reloadData => exact Or.inr (by simp [App.reloadData])
    | cellForRow => exact Or.inl (by simp)
    | unchanged | shareRow | alertClosed | selectRow | back | onSave | clock => exact Or.inl rfl
  | refreshStocks => exact Or.inr (by simp [App.reloadData])
  | quoteReply | searchReply | deleteRow | openSearchVC | didSelectRow => exact Or.inl rfl
  | textDidChange hv =>
    rw [App.textDidChange,hv]
    exact Or.inl rfl
  | mainQueue _ hp =>
    cases hp with
    | refreshStocks | searchResults => exact Or.inl rfl
    | unwindFromSearchVC | reloadData => exact Or.inr (by simp [App.reloadData])

theorem step (h : InRange s) (hd : ∀r,e≠.deleteRow r) (hs : s.step env e=some t) :
    InRange t := by
  refine ⟨h.toCaptured.step hd (fun _ _ => h.table) hs,?_⟩
  have hlen := rows_length_le (step_cases hs) hd
  have htable := h.table
  rcases table_step hs with heq|heq <;> omega

/-- From a state in range nothing traps without a deletion or a malformed reply. -/
theorem total (h : InRange s) {fs : List (Event P)}
    (hf : ∀f∈fs,f.Sound ∧ ∀r,f≠.deleteRow r) : ∃t,run (App.step env) s fs=some t ∧ InRange t := by
  refine (Along.of_forall hf).total h ?_
  intro u e hu ⟨he,hd⟩
  have hsome : (u.step env e).isSome :=
    hu.toCaptured.isSome_step he (fun r cell hi => hu.table_cell hi)
  obtain ⟨v,hv⟩ := Option.isSome_iff_exists.mp hsome
  exact ⟨v,hv,hu.step hd hv⟩

end InRange

/-- A queue whose turns never trap is in range. -/
theorem queueInRange_of_turns
    (h : ∀n,(run (App.step env) s (List.replicate n .mainQueue)).isSome) :
    QueueInRange s.realm.rows.length s.mainQueue := by
  obtain ⟨queue,hq⟩ : ∃queue,queue=s.mainQueue := ⟨_,rfl⟩
  rw [← hq]
  induction queue generalizing s with
  | nil => trivial
  | cons block rest ih =>
    have hone := h 1
    rw [List.replicate_one,run_cons,Option.isSome_bind] at hone
    obtain ⟨u,hu⟩ : ∃u,s.step env .mainQueue=some u := by
      cases hs : s.step env .mainQueue with
      | none => simp [hs] at hone
      | some u => exact ⟨u,rfl⟩
    have hnext (n : ℕ) : (run (App.step env) u (List.replicate n .mainQueue)).isSome := by
      have hn := h (n+1)
      rwa [List.replicate_succ,run_cons,hu,Option.bind_some] at hn
    have hperform : ({s with mainQueue := rest} : App P).perform block=some u := by
      simpa [App.step,App.runMainQueue,← hq] using hu
    cases perform_cases hperform with
    | refreshStocks hw =>
      obtain ⟨row,hr,hrows,_⟩ := Realm.write?_eq_some hw
      have hlt := (List.getElem?_eq_some_iff.mp hr).1
      have hrest := ih hnext rfl
      simp only [hrows,List.length_set] at hrest
      exact ⟨hlt,hrest⟩
    | unwindFromSearchVC =>
      have hrest := ih hnext rfl
      simp only [App.reloadData,Realm.rows_add,List.length_append,List.length_singleton] at hrest
      exact hrest
    | reloadData | searchResults =>
      have hrest := ih hnext rfl
      exact hrest

/-- Conversely every index that is out of range is used by a run of events that
are no deletions and no malformed replies. -/
theorem InRange.of_total (hn : (s.quoteTasks.map QuoteTask.id).Nodup)
    (h : ∀fs,(∀f∈fs,f.Sound ∧ ∀r,f≠.deleteRow r) → ∃t,run (App.step env) s fs=some t) :
    InRange s := by
  have hstep (f : Event P) (hs : f.Sound) (hd : ∀r,f≠.deleteRow r) : ∃t,s.step env f=some t := by
    obtain ⟨t,ht⟩ := h [f] (by simpa using ⟨hs,hd⟩)
    exact ⟨t,by simpa using ht⟩
  have hturns (n : ℕ) : ∀f∈List.replicate n (Event.mainQueue : Event P),
      f.Sound ∧ ∀r,f≠.deleteRow r := by
    intro f hf
    rw [List.eq_of_mem_replicate hf]
    exact ⟨trivial,by simp⟩
  refine ⟨⟨?_,?_,?_,?_⟩,?_⟩
  · intro alert ha
    obtain ⟨t,ht⟩ := hstep (.send "" "") trivial (by simp)
    have hindexed : s.indexed (.send "" "")=some (alert.row,alert.cell) := by simp [indexed,ha]
    have hsome : (s.step env (.send "" "")).isSome := by
      rw [ht]
      rfl
    have hobj := (isSome_step_iff hindexed).mp hsome
    simpa [Realm.objAt] using hobj
  · have hruns (n : ℕ) : (run (App.step env) s (List.replicate n .mainQueue)).isSome := by
      obtain ⟨t,ht⟩ := h _ (hturns n)
      rw [ht]
      rfl
    exact queueInRange_of_turns hruns
  · intro task hm i obj version hc
    -- a well-shaped reply queues the block of the request behind all others
    let q : Quote P := ⟨"",0,0,0,0⟩
    have hquotes := quotes_quoteResponse "" q
    have hsound := hquotes.guarded
    have hreply : getStockDataReply (escapedQuery task.text) (quoteResponse "" q)=
        .completed ⟨"",escapedQuery task.text,"",0,0,0,0⟩ := getStockDataReply_quotes hquotes rfl
    have hanswered := quoteReply_of_mem hn hm (getStockDataReply_ne_trapped hsound _)
    have hruns (n : ℕ) : (run (App.step env) (s.answered task (quoteResponse "" q))
        (List.replicate n .mainQueue)).isSome := by
      obtain ⟨t,ht⟩ := h (.quoteReply task.id (quoteResponse "" q)::List.replicate n .mainQueue)
        (List.forall_mem_cons.mpr ⟨⟨hsound,by simp⟩,hturns n⟩)
      rw [run_cons,App.step,hanswered,Option.bind_some] at ht
      rw [ht]
      rfl
    have hlast := (queueInRange_append.mp (queueInRange_of_turns hruns)).2
    rw [hreply,Handled.result,hc] at hlast
    exact hlast.1
  · intro v hv
    obtain ⟨vc,hvc⟩ := List.mem_iff_getElem?.mp hv
    by_contra hlt
    obtain ⟨t,ht⟩ := hstep (.didSelectRow vc v.tableData.length) trivial
      (by simp)
    have hshown : v.tableData.length<v.tableView.length := Nat.lt_of_not_le hlt
    simp [App.step,App.didSelectRow,hvc,hshown] at ht
  · by_contra hlt
    obtain ⟨t,ht⟩ := hstep (.cellForRow s.realm.rows.length) trivial (by simp)
    have hshown : s.realm.rows.length<s.tableView.length := Nat.lt_of_not_le hlt
    simp [App.step,App.cellForRow,hshown] at ht

end Steps

end App

section Runs

variable [Zero P] [One P] {env : Env P} {portfolio : List (RealmStock P)}
  {users : List RealmUser} {firebase : List (String × Json P)} {clock : DateFields}
  {es : List (Event P)} {s : App P}

/-- Whatever happens next short of a deletion and of a malformed reply, nothing
traps: exactly if every row index on display, in the alert, in a block and in a
request is in range, counting the insertions queued before its use. -/
theorem inRange_iff_never_traps
    (h : run (App.step env) (App.launch portfolio users firebase clock) es=some s) :
    s.InRange ↔ ∀fs,(∀f∈fs,f.Sound ∧ ∀r,f≠.deleteRow r) → ∃t,run (App.step env) s fs=some t := by
  constructor
  · intro hin fs hf
    obtain ⟨t,ht,_⟩ := hin.total hf
    exact ⟨t,ht⟩
  · intro hall
    have htickets := (origins_of_run h).2.tickets
    exact App.InRange.of_total (List.nodup_append'.mp htickets.nodup).1 hall

/-- With one of two rows deleted while both are being refreshed, some later
events trap. -/
theorem inRange_iff_never_traps_after_deletion :
    ∃s,run (App.step App.sampleEnv)
        (App.sampleLaunch [App.sampleStock "FB" 3,App.sampleStock "GE" 5])
        [.refreshStocks,.deleteRow 0,.mainQueue]=some s ∧
      ∃fs,(∀f∈fs,f.Sound ∧ ∀r,f≠.deleteRow r) ∧ ∀t,run (App.step App.sampleEnv) s fs≠some t := by
  obtain ⟨s,hs,task,hm,hc,hrows,hqueue⟩ : ∃s,run (App.step App.sampleEnv)
        (App.sampleLaunch [App.sampleStock "FB" 3,App.sampleStock "GE" 5])
        [.refreshStocks,.deleteRow 0,.mainQueue]=some s ∧
      ∃task∈s.quoteTasks,task.completion=.refreshStocks 1 1 2 ∧ s.realm.rows.length=1 ∧
        (pendingAdds s.mainQueue).length=0 :=
    ⟨_,rfl,_,.tail _ (.head _),rfl,rfl,rfl⟩
  have hout : ¬s.InRange := by
    intro hin
    have hlt := hin.tasks task hm 1 1 2 hc
    omega
  have hnot := mt (inRange_iff_never_traps hs).mpr hout
  push Not at hnot
  exact ⟨s,hs,hnot⟩

end Runs

end SStock
