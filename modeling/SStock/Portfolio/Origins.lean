import SStock.Search.Screens

namespace SStock

open Framework StockManager

variable {P : Type}

namespace App

/-- The quote requests sent so far, pending or answered. -/
def requests (s : App P) : List QuoteTask := s.quoteTasks++s.history.answers.map Answer.task

/-- What a quote request was made for: a row in the store at the time, by its
code, or the stock of a tap, by the code displayed. -/
structure Issued (s : App P) (task : QuoteTask) : Prop where
  url : ∃date,task.url=stockDataURL date task.text
  refresh : ∀i obj version,task.completion=.refreshStocks i obj version →
    task.id∉s.history.taps.map Prod.fst ∧ ∃k stock,s.realm.log[obj]?=some (.add k stock) ∧
      k<task.id ∧ task.text=stock.datasetCode
  unwind : task.completion=.unwindFromSearchVC →
    ∃shown,(task.id,shown)∈s.history.taps ∧ task.text=shown.datasetCode

/-- The request `k` of a tap was answered by the quote `data`. -/
def Arrived [Zero P] [One P] (s : App P) (k : ℕ) (data : RealmStock P) : Prop :=
  ∃answer∈s.history.answers,answer.task.id=k ∧ answer.task.completion=.unwindFromSearchVC ∧
    getStockDataReply (escapedQuery answer.task.text) answer.response=.completed data

/-- Where requests, insertions and the blocks that insert come from. -/
structure Origins [Zero P] [One P] (portfolio : List (RealmStock P)) (s : App P) : Prop where
  pos : 0<s.nextTask
  tickets : Tickets s.nextTask (s.quoteTasks.map QuoteTask.id)
    (s.history.answers.map fun answer => answer.task.id)
  taps_lt : ∀tap∈s.history.taps,0<tap.1 ∧ tap.1<s.nextTask
  taps_nodup : (s.history.taps.map Prod.fst).Nodup
  issued : ∀task∈s.requests,s.Issued task
  added : ∀(obj k : ℕ) stock,s.realm.log[obj]?=some (.add k stock) →
    (k=0 ∧ portfolio[obj]?=some stock) ∨ s.Arrived k stock
  arriving : ∀k data,Block.unwindFromSearchVC k data∈s.mainQueue → s.Arrived k data

variable {env : Env P} {portfolio : List (RealmStock P)} {s t : App P} {task : QuoteTask}

theorem Issued.grow (h : s.Issued task) (hlog : s.realm.log <+: t.realm.log)
    (htaps : t.history.taps=s.history.taps) : t.Issued task := by
  refine ⟨h.url,fun i obj version hc => ?_,fun hc => htaps ▸ h.unwind hc⟩
  obtain ⟨hid,k,stock,hadd,hrest⟩ := h.refresh i obj version hc
  exact ⟨htaps ▸ hid,k,stock,getElem?_of_grown hlog hadd,hrest⟩

/-- A later tap changes nothing for earlier requests. -/
theorem Issued.tapped {k : ℕ} {shown : Stock} (h : s.Issued task) (hlt : task.id<k)
    (hlog : t.realm.log=s.realm.log) (htaps : t.history.taps=s.history.taps++[(k,shown)]) :
    t.Issued task := by
  refine ⟨h.url,?_,?_⟩
  · intro i obj version hc
    obtain ⟨hid,hrest⟩ := h.refresh i obj version hc
    rw [htaps,hlog,List.map_append,List.mem_append]
    refine ⟨?_,hrest⟩
    intro hmem
    cases hmem with
    | inl hold => exact hid hold
    | inr hnew =>
      have hk : task.id=k := by simpa using hnew
      omega
  · intro hc
    obtain ⟨shown',hm,htext⟩ := h.unwind hc
    rw [htaps]
    exact ⟨shown',List.mem_append_left _ hm,htext⟩

namespace Origins

variable [Zero P] [One P]

theorem request_lt (h : Origins portfolio s) (hm : task∈s.requests) : task.id<s.nextTask := by
  apply h.tickets.lt
  rw [requests,List.mem_append,List.mem_map] at hm
  rw [List.mem_append,List.mem_map,List.mem_map]
  cases hm with
  | inl hm => exact Or.inl ⟨task,hm,rfl⟩
  | inr hex =>
    obtain ⟨answer,ha,rfl⟩ := hex
    exact Or.inr ⟨answer,ha,rfl⟩

/-- An insertion answers a request made before. -/
theorem added_lt (h : Origins portfolio s) {obj k : ℕ} {stock : RealmStock P}
    (hadd : s.realm.log[obj]?=some (.add k stock)) : k<s.nextTask := by
  cases h.added obj k stock hadd with
  | inl hex =>
    obtain ⟨rfl,_⟩ := hex
    exact h.pos
  | inr hex =>
    obtain ⟨answer,ha,rfl,_⟩ := hex
    exact h.request_lt (List.mem_append_right _ (List.mem_map_of_mem ha))

/-- The request of a tap is for the code displayed. -/
theorem text_of_tap {k : ℕ} {shown : Stock} (h : Origins portfolio s) (hm : task∈s.requests)
    (hid : task.id=k) (htap : (k,shown)∈s.history.taps) : task.text=shown.datasetCode := by
  subst hid
  have hi := h.issued task hm
  cases hc : task.completion with
  | refreshStocks i obj version =>
    exact absurd (List.mem_map_of_mem htap) (hi.refresh i obj version hc).1
  | unwindFromSearchVC =>
    obtain ⟨shown',htap',htext⟩ := hi.unwind hc
    have he := List.inj_on_of_nodup_map h.taps_nodup htap' htap rfl
    cases he
    exact htext

/-- Steps that make no tap. -/
theorem grow (h : Origins portfolio s) (hs : s.realm.log <+: t.realm.log)
    (htaps : t.history.taps=s.history.taps) (hnext : s.nextTask≤t.nextTask)
    (htickets : Tickets t.nextTask (t.quoteTasks.map QuoteTask.id)
      (t.history.answers.map fun answer => answer.task.id))
    (hrequests : ∀task∈t.requests,task∈s.requests ∨ t.Issued task)
    (hanswers : s.history.answers ⊆ t.history.answers)
    (hadded : ∀(obj k : ℕ) stock,t.realm.log[obj]?=some (.add k stock) →
      s.realm.log[obj]?=some (.add k stock) ∨ s.Arrived k stock)
    (harriving : ∀k data,Block.unwindFromSearchVC k data∈t.mainQueue →
      Block.unwindFromSearchVC k data∈s.mainQueue ∨ t.Arrived k data) :
    Origins portfolio t := by
  have harrived {k : ℕ} {data : RealmStock P} (ha : s.Arrived k data) : t.Arrived k data := by
    obtain ⟨answer,hm,hrest⟩ := ha
    exact ⟨answer,hanswers hm,hrest⟩
  refine ⟨h.pos.trans_le hnext,htickets,?_,htaps ▸ h.taps_nodup,?_,?_,?_⟩
  · intro tap hm
    have hlt := h.taps_lt tap (htaps ▸ hm)
    exact ⟨hlt.1,hlt.2.trans_le hnext⟩
  · intro task hm
    cases hrequests task hm with
    | inl hold => exact (h.issued task hold).grow hs htaps
    | inr hnew => exact hnew
  · intro obj k stock hl
    cases hadded obj k stock hl with
    | inl hold => exact (h.added obj k stock hold).imp id harrived
    | inr hnew => exact Or.inr (harrived hnew)
  · intro k data hb
    cases harriving k data hb with
    | inl hold => exact harrived (h.arriving k data hold)
    | inr hnew => exact hnew

/-- Steps that make no request, answer none and log nothing. -/
theorem same (h : Origins portfolio s) (hrealm : t.realm=s.realm)
    (htasks : t.quoteTasks=s.quoteTasks) (htaps : t.history.taps=s.history.taps)
    (hanswers : t.history.answers=s.history.answers) (hnext : s.nextTask≤t.nextTask)
    (hqueue : ∀k data,Block.unwindFromSearchVC k data∈t.mainQueue →
      Block.unwindFromSearchVC k data∈s.mainQueue) : Origins portfolio t := by
  refine h.grow ?_ htaps hnext ?_ ?_ ?_ ?_ (fun k data hb => Or.inl (hqueue k data hb))
  · exact hrealm ▸ List.prefix_refl s.realm.log
  · rw [htasks,hanswers]
    exact h.tickets.mono hnext
  · intro task hm
    rw [requests,htasks,hanswers] at hm
    exact Or.inl hm
  · rw [hanswers]
    exact List.Subset.refl _
  · intro obj k stock hl
    rw [hrealm] at hl
    exact Or.inl hl

/-- A refresh asks for a row by the code it was inserted with. -/
theorem issued_of_refresh (h : Origins portfolio s) (ht : RefreshTask s task) : s.Issued task := by
  obtain ⟨⟨i,row,hr,htext,hcomp⟩,hurl,hge⟩ := ht
  refine ⟨⟨s.clock,hurl⟩,?_,?_⟩
  · intro i' obj version hc
    rw [hcomp] at hc
    cases hc
    obtain ⟨k,stock,hadd,hstock⟩ := s.realm.logged.origin row (List.mem_of_getElem? hr)
    refine ⟨?_,k,stock,hadd,(h.added_lt hadd).trans_le hge,?_⟩
    · intro hmem
      obtain ⟨tap,htap,hid⟩ := List.mem_map.mp hmem
      have hlt := h.taps_lt tap htap
      omega
    · rw [htext,hstock,RealmStock.datasetCode_setQuote]
  · intro hc
    rw [hcomp] at hc
    cases hc

theorem refreshStocks (h : Origins portfolio s) {new : List QuoteTask}
    (hnew : ∀task∈new,RefreshTask s task ∧ task.id<s.nextTask+s.realm.rows.length)
    (hnodup : (new.map QuoteTask.id).Nodup) :
    Origins portfolio {s with
      quoteTasks := s.quoteTasks++new
      nextTask := s.nextTask+s.realm.rows.length}.reloadData := by
  refine h.grow (List.prefix_refl _) rfl (Nat.le_add_right _ _) ?_ ?_ (List.Subset.refl _)
    (fun _ _ _ => Or.inl) (fun _ _ => Or.inl)
  · change Tickets _ ((s.quoteTasks++new).map QuoteTask.id) _
    rw [List.map_append]
    refine h.tickets.issue (Nat.le_add_right _ _) (fun k hk => ?_) hnodup
    obtain ⟨task,hm,rfl⟩ := List.mem_map.mp hk
    exact ⟨(hnew task hm).1.id_ge,(hnew task hm).2⟩
  · intro task hm
    change task∈s.quoteTasks++new++s.history.answers.map Answer.task at hm
    rw [List.append_assoc,List.mem_append,List.mem_append] at hm
    rcases hm with hm|hm|hm
    · exact Or.inl (List.mem_append_left _ hm)
    · exact Or.inr ((h.issued_of_refresh (hnew task hm).1).grow (List.prefix_refl _) rfl)
    · exact Or.inl (List.mem_append_right _ hm)

theorem answered (h : Origins portfolio s) (hm : task∈s.quoteTasks) (response : Response P) :
    Origins portfolio (s.answered task response) := by
  refine h.grow (List.prefix_refl _) rfl (Nat.le_refl _) ?_ ?_ (List.subset_append_left _ _)
    (fun _ _ _ => Or.inl) ?_
  · have hset := h.tickets.settle (List.mem_map_of_mem hm)
    rw [List.filter_map] at hset
    rw [App.answered,List.map_append]
    exact hset
  · intro other ho
    left
    rw [App.answered,requests,List.map_append,List.mem_append,List.mem_append,
      List.mem_filter] at ho
    rw [requests,List.mem_append]
    rcases ho with ⟨ho,_⟩|ho|ho
    · exact Or.inl ho
    · exact Or.inr ho
    · rw [List.mem_singleton.mp ho]
      exact Or.inl hm
  · intro k data hb
    refine (mem_mainQueue_answered hb).imp id ?_
    rintro ⟨data',hdata,hblock⟩
    cases hc : task.completion with
    | refreshStocks i obj version =>
      rw [hc] at hblock
      cases hblock
    | unwindFromSearchVC =>
      rw [hc] at hblock
      cases hblock
      exact ⟨⟨task,response⟩,List.mem_append_right _ List.mem_cons_self,rfl,hc,hdata⟩

/-- A change of the store by a block or a deletion. -/
theorem logChange (h : Origins portfolio s) {c : Change P} {queue : List (Block P)}
    {realm : Realm P} (hlog : realm.log=s.realm.log++[c])
    (hc : ∀k stock,c=.add k stock → s.Arrived k stock)
    (hqueue : ∀k data,Block.unwindFromSearchVC k data∈queue →
      Block.unwindFromSearchVC k data∈s.mainQueue) :
    Origins portfolio {s with realm := realm,mainQueue := queue} := by
  refine h.grow ⟨_,hlog.symm⟩ rfl (Nat.le_refl _) h.tickets (fun _ => Or.inl)
    (List.Subset.refl _) ?_ (fun k data hb => Or.inl (hqueue k data hb))
  intro obj k stock hl
  rw [hlog] at hl
  cases getElem?_concat_cases hl with
  | inl hold => exact Or.inl hold
  | inr hnew => exact Or.inr (hc k stock hnew.2.symm)

theorem performed {block : Block P} {rest : List (Block P)} (h : Origins portfolio s)
    (hq : s.mainQueue=block::rest) (hp : Performed {s with mainQueue := rest} block t) :
    Origins portfolio t := by
  have hrest (k : ℕ) (data : RealmStock P) (hb : Block.unwindFromSearchVC k data∈rest) :
      Block.unwindFromSearchVC k data∈s.mainQueue := hq ▸ List.mem_cons_of_mem _ hb
  cases hp with
  | refreshStocks hw =>
    obtain ⟨row,_,_,hlog⟩ := Realm.write?_eq_some hw
    exact h.logChange hlog (fun _ _ hc => nomatch hc) hrest
  | unwindFromSearchVC =>
    next task data =>
    have ha : s.Arrived task data := h.arriving task data (hq ▸ List.mem_cons_self)
    have hadd := h.logChange (Realm.log_add (m := s.realm) task data)
      (fun _ _ hc => by cases hc; exact ha) hrest
    exact hadd.same rfl rfl rfl rfl (Nat.le_refl _) (fun _ _ => id)
  | reloadData | searchResults => exact h.same rfl rfl rfl rfl (Nat.le_refl _) hrest

/-- A tap numbers its request by the stock displayed, which is the one the
screen then asks for. -/
theorem didSelectRow (h : Origins portfolio s) {vc : ℕ} {v : SearchVC} {stock : Stock} :
    Origins portfolio
      ((s.selected vc v stock stock).getStockData env stock.datasetCode .unwindFromSearchVC) := by
  let url := stockDataURL s.clock stock.datasetCode
  let task : QuoteTask := ⟨s.nextTask,stock.datasetCode,url,.unwindFromSearchVC⟩
  have htap {tap : ℕ × Stock} (hm : tap∈s.history.taps++[(s.nextTask,stock)]) :
      tap∈s.history.taps ∨ tap=(s.nextTask,stock) := by simpa using hm
  refine ⟨Nat.succ_pos _,h.tickets.issue_if rfl,?_,?_,?_,h.added,h.arriving⟩
  · intro tap hm
    cases htap hm with
    | inl hm =>
      have hlt := h.taps_lt tap hm
      exact ⟨hlt.1,Nat.lt_succ_of_lt hlt.2⟩
    | inr heq =>
      subst heq
      exact ⟨h.pos,Nat.lt_succ_self _⟩
  · change ((s.history.taps++[(s.nextTask,stock)]).map Prod.fst).Nodup
    rw [List.map_append]
    refine h.taps_nodup.append (List.nodup_singleton _) (fun k hk hk' => ?_)
    obtain ⟨tap,hm,rfl⟩ := List.mem_map.mp hk
    have hlt := h.taps_lt tap hm
    have he : tap.1=s.nextTask := by simpa using hk'
    omega
  · intro other ho
    have hcase : other∈s.requests ∨ other=task := by
      cases List.mem_append.mp ho with
      | inl ho => exact (Tickets.mem_of_mem_issued ho).imp (List.mem_append_left _) id
      | inr ho => exact Or.inl (List.mem_append_right _ ho)
    cases hcase with
    | inl hold => exact (h.issued other hold).tapped (h.request_lt hold) rfl rfl
    | inr heq =>
      subst heq
      refine ⟨⟨s.clock,rfl⟩,?_,fun _ => ?_⟩
      · intro i obj version hc
        cases hc
      · exact ⟨stock,List.mem_append_right _ List.mem_cons_self,rfl⟩

theorem step {e : Event P} (h : Origins portfolio s) (hsearch : s.Searching)
    (hs : s.step env e=some t) : Origins portfolio t := by
  cases step_cases hs with
  | other hview =>
    have hsame := hview.sameStore
    refine h.same hsame.realm hsame.quoteTasks (by rw [hsame.history]) (by rw [hsame.history])
      (Nat.le_of_eq hsame.nextTask.symm) (fun k data hb => ?_)
    rw [hsame.mainQueue] at hb
    exact hb
  | refreshStocks hnew hnodup => exact h.refreshStocks hnew hnodup
  | quoteReply hm => exact h.answered hm _
  | searchReply hm =>
    refine h.same rfl rfl rfl rfl (Nat.le_refl _) (fun k data hb => ?_)
    cases mem_mainQueue_searchAnswered hb with
    | inl hb => exact hb
    | inr hnew =>
      obtain ⟨stocks,hblock⟩ := hnew
      cases hblock
  | mainQueue hq hp => exact h.performed hq hp
  | deleteRow _ hd =>
    obtain ⟨row,_,_,hlog⟩ := Realm.delete?_eq_some hd
    refine h.logChange hlog (fun _ _ hc => nomatch hc) (fun k data hb => ?_)
    simpa using hb
  | openSearchVC => exact h.same rfl rfl rfl rfl (Nat.le_refl _) (fun _ _ => id)
  | textDidChange hv =>
    rw [App.textDidChange,hv]
    exact h.same rfl rfl rfl rfl (Nat.le_succ _) (fun _ _ => id)
  | didSelectRow hv hshown hdata =>
    rw [(hsearch.screens _ _ hv).loaded,hdata] at hshown
    cases hshown
    exact h.didSelectRow

theorem launch (portfolio : List (RealmStock P)) (users : List RealmUser)
    (firebase : List (String × Json P)) (clock : DateFields) :
    Origins portfolio (App.launch portfolio users firebase clock) := by
  refine ⟨Nat.one_pos,Tickets.nil 1,?_,List.nodup_nil,?_,?_,?_⟩
  · intro tap hm
    cases hm
  · intro task hm
    cases hm
  · intro obj k stock hl
    have hl' : (portfolio.map (Change.add 0))[obj]?=some (.add k stock) := hl
    rw [List.getElem?_map] at hl'
    obtain ⟨stock',hstock,hadd⟩ := Option.map_eq_some_iff.mp hl'
    cases hadd
    exact Or.inl ⟨rfl,hstock⟩
  · intro k data hb
    cases hb

end Origins

end App

variable [Zero P] [One P] {env : Env P} {portfolio : List (RealmStock P)}
  {users : List RealmUser} {firebase : List (String × Json P)} {clock : DateFields}
  {es : List (Event P)} {s : App P}

theorem origins_of_run
    (h : run (App.step env) (App.launch portfolio users firebase clock) es=some s) :
    s.Searching ∧ s.Origins portfolio := by
  refine run_invariant (I := fun u => u.Searching ∧ u.Origins portfolio) h
    ⟨App.Searching.launch portfolio users firebase clock,
      App.Origins.launch portfolio users firebase clock⟩ ?_
  intro u e v ⟨hsearch,ho⟩ hs
  exact ⟨hsearch.step hs,ho.step hsearch hs⟩

end SStock
