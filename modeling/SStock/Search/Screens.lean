import SStock.Framework.Run
import SStock.Model.Steps

namespace SStock

open Framework StockManager

variable {P : Type}

/-- The lists on their way to search screen `vc`, in the order of the queue. -/
def pendingResults (vc : ℕ) (queue : List (Block P)) : List (ℕ × List Stock) :=
  queue.filterMap fun
    | .searchResults task w stocks => if w=vc then some (task,stocks) else none
    | _ => none

/-- The lists in the successful replies to the requests `typed`, in the order
of the replies. -/
def results (typed : List ℕ) (answers : List (ℕ × Response P)) : List (ℕ × List Stock) :=
  answers.filterMap fun answer =>
    if answer.1∈typed then (searchReply answer.2).result.map (answer.1,·) else none

@[simp] theorem pendingResults_append (vc : ℕ) (q q' : List (Block P)) :
    pendingResults vc (q++q')=pendingResults vc q++pendingResults vc q' :=
  List.filterMap_append

theorem pendingResults_cons (vc : ℕ) (block : Block P) (q : List (Block P)) :
    pendingResults vc (block::q)=pendingResults vc [block]++pendingResults vc q :=
  pendingResults_append vc [block] q

@[simp] theorem pendingResults_reloadData (vc : ℕ) :
    pendingResults vc [(Block.reloadData : Block P)]=[] := rfl

@[simp] theorem pendingResults_block (vc task : ℕ) (data : Option (RealmStock P))
    (completion : Completion) :
    pendingResults vc (data.map (completion.block task)).toList=[] := by
  cases data <;> cases completion <;> rfl

theorem pendingResults_searchResults (vc task w : ℕ) (stocks : List Stock) :
    pendingResults vc [(Block.searchResults task w stocks : Block P)]=
      if w=vc then [(task,stocks)] else [] := by
  by_cases h : w=vc <;> simp [pendingResults,h]

theorem results_append (typed : List ℕ) (answers : List (ℕ × Response P)) (id : ℕ)
    (response : Response P) :
    results typed (answers++[(id,response)])=results typed answers++
      if id∈typed then ((searchReply response).result.map (id,·)).toList else [] := by
  rw [results,List.filterMap_append]
  congr 1
  by_cases h : id∈typed <;> cases hr : (searchReply response).result <;> simp [h,hr]

theorem mem_results {typed : List ℕ} {answers : List (ℕ × Response P)} {d : ℕ × List Stock} :
    d∈results typed answers ↔ d.1∈typed ∧ ∃response,(d.1,response)∈answers ∧
      searchReply response=.completed d.2 := by
  simp only [results,List.mem_filterMap]
  constructor
  · rintro ⟨⟨id,response⟩,hm,hr⟩
    split_ifs at hr with ht
    obtain ⟨stocks,hs,rfl⟩ := Option.map_eq_some_iff.mp hr
    exact ⟨ht,response,hm,Handled.result_eq_some.mp hs⟩
  · intro ⟨ht,response,hm,hr⟩
    refine ⟨(d.1,response),hm,?_⟩
    simp [ht,hr,Handled.result]

/-- Results keep the order of the answers, so no request has two. -/
theorem results_sublist (typed : List ℕ) (answers : List (ℕ × Response P)) :
    ((results typed answers).map Prod.fst).Sublist (answers.map Prod.fst) := by
  apply filterMap_keys_sublist
  intro answer d hd
  split_ifs at hd
  obtain ⟨stocks,_,rfl⟩ := Option.map_eq_some_iff.mp hd
  rfl

/-- A request made after all the answers is not among them. -/
theorem results_typed_append {next : ℕ} (typed : List ℕ) {answers : List (ℕ × Response P)}
    (h : ∀id∈answers.map Prod.fst,id<next) :
    results (typed++[next]) answers=results typed answers := by
  apply List.filterMap_congr
  intro answer hm
  have hne : answer.1≠next := Nat.ne_of_lt (h _ (List.mem_map_of_mem hm))
  simp [hne]

/-- One search screen: what it shows is the last result received, and what it
received and will receive are the results of its own requests. -/
structure SearchVC.Consistent (v : SearchVC) (next : ℕ) (answers : List (ℕ × Response P))
    (pending : List (ℕ × List Stock)) : Prop where
  shown : v.tableData=lastValue [] v.received
  loaded : v.tableView=v.tableData
  sorted : v.typed.Pairwise (· < ·)
  typed_lt : ∀id∈v.typed,id<next
  arrivals : v.received++pending=results v.typed answers

namespace SearchVC.Consistent

variable {v : SearchVC} {next next' : ℕ} {answers : List (ℕ × Response P)}
  {pending : List (ℕ × List Stock)}

theorem mono (h : v.Consistent next answers pending) (hn : next≤next') :
    v.Consistent next' answers pending :=
  ⟨h.shown,h.loaded,h.sorted,fun id hid => (h.typed_lt id hid).trans_le hn,h.arrivals⟩

/-- A text typed now has the greatest number, and no answer yet. -/
theorem type (h : v.Consistent next answers pending) (hids : ∀id∈answers.map Prod.fst,id<next) :
    SearchVC.Consistent {v with typed := v.typed++[next]} (next+1) answers pending := by
  refine ⟨h.shown,h.loaded,?_,?_,?_⟩
  · refine List.pairwise_append.mpr ⟨h.sorted,by simp,?_⟩
    intro id hid id' hid'
    rw [List.mem_singleton.mp hid']
    exact h.typed_lt id hid
  · intro id hid
    cases List.mem_append.mp hid with
    | inl hid => exact Nat.lt_succ_of_lt (h.typed_lt id hid)
    | inr hid =>
      rw [List.mem_singleton.mp hid]
      exact Nat.lt_succ_self _
  · rw [results_typed_append _ hids]
    exact h.arrivals

end SearchVC.Consistent

namespace App

/-- All search screens together with the search requests in flight. -/
structure Searching (s : App P) : Prop where
  tickets : Tickets s.nextTask (s.searchTasks.map SearchTask.id)
    (s.history.searchAnswers.map Prod.fst)
  tasks : ∀task∈s.searchTasks,task.vc<s.searchVCs.length
  blocks : ∀vc,∀d∈pendingResults vc s.mainQueue,vc<s.searchVCs.length
  own : ∀task∈s.searchTasks,∀vc (v : SearchVC),s.searchVCs[vc]?=some v →
    (task.id∈v.typed ↔ task.vc=vc)
  screens : ∀vc (v : SearchVC),s.searchVCs[vc]?=some v →
    v.Consistent s.nextTask s.history.searchAnswers (pendingResults vc s.mainQueue)

namespace Searching

variable {env : Env P} {s t : App P}

/-- Steps that touch no search screen and no search request. -/
theorem frame (h : Searching s) (htasks : t.searchTasks=s.searchTasks)
    (hvcs : t.searchVCs=s.searchVCs) (hanswers : t.history.searchAnswers=s.history.searchAnswers)
    (hnext : s.nextTask≤t.nextTask)
    (hpending : ∀vc,pendingResults vc t.mainQueue=pendingResults vc s.mainQueue) :
    Searching t := by
  refine ⟨?_,?_,?_,?_,?_⟩
  · rw [htasks,hanswers]
    exact h.tickets.mono hnext
  · rw [htasks,hvcs]
    exact h.tasks
  · intro vc d hd
    rw [hpending] at hd
    rw [hvcs]
    exact h.blocks vc d hd
  · rw [htasks,hvcs]
    exact h.own
  · intro vc v hv
    rw [hvcs] at hv
    rw [hanswers,hpending]
    exact (h.screens vc v hv).mono hnext

theorem getStockData (h : Searching s) (text : String) (completion : Completion) :
    Searching (s.getStockData env text completion) :=
  h.frame rfl rfl rfl (Nat.le_succ _) (fun _ => rfl)

theorem searchAnswered (h : Searching s) {task : SearchTask} (hm : task∈s.searchTasks)
    (response : Response P) : Searching (s.searchAnswered task response) := by
  have hpending (vc : ℕ) : pendingResults vc (s.searchAnswered task response).mainQueue=
      pendingResults vc s.mainQueue++if task.vc=vc
        then ((StockManager.searchReply response).result.map (task.id,·)).toList else [] := by
    rw [App.searchAnswered,pendingResults_append]
    congr 1
    cases (StockManager.searchReply response).result with
    | none => simp [pendingResults]
    | some stocks => simp [pendingResults_searchResults]
  refine ⟨?_,?_,?_,?_,?_⟩
  · rw [App.searchAnswered,List.map_append]
    have hset := h.tickets.settle (List.mem_map_of_mem hm)
    rw [List.filter_map] at hset
    exact hset
  · exact fun other ho => h.tasks other (List.mem_of_mem_filter ho)
  · intro vc d hd
    rw [hpending,List.mem_append] at hd
    cases hd with
    | inl hd => exact h.blocks vc d hd
    | inr hd =>
      split_ifs at hd with hvc
      · exact hvc ▸ h.tasks task hm
      · cases hd
  · exact fun other ho => h.own other (List.mem_of_mem_filter ho)
  · intro vc v hv
    have hc := h.screens vc v hv
    rw [hpending]
    refine ⟨hc.shown,hc.loaded,hc.sorted,hc.typed_lt,?_⟩
    rw [App.searchAnswered,results_append,← List.append_assoc,hc.arrivals]
    simp only [h.own task hm vc v hv]

theorem performed {block : Block P} {rest : List (Block P)} (h : Searching s)
    (hq : s.mainQueue=block::rest) (hp : Performed {s with mainQueue := rest} block t) :
    Searching t := by
  cases hp with
  | refreshStocks hw => exact h.frame rfl rfl rfl (Nat.le_refl _) (fun _ => by rw [hq]; rfl)
  | unwindFromSearchVC => exact h.frame rfl rfl rfl (Nat.le_refl _) (fun _ => by rw [hq]; rfl)
  | reloadData => exact h.frame rfl rfl rfl (Nat.le_refl _) (fun _ => by rw [hq]; rfl)
  | searchResults =>
    next task vc stocks =>
    have hpending (w : ℕ) : pendingResults w s.mainQueue=
        (if vc=w then [(task,stocks)] else [])++pendingResults w rest := by
      rw [hq,pendingResults_cons,pendingResults_searchResults]
    refine ⟨h.tickets,?_,?_,?_,?_⟩
    · intro other ho
      rw [List.length_modify]
      exact h.tasks other ho
    · intro w d hd
      rw [List.length_modify]
      refine h.blocks w d ?_
      rw [hpending]
      exact List.mem_append_right _ hd
    · intro other ho w v hv
      simp only [List.getElem?_modify] at hv
      obtain ⟨u,hu,rfl⟩ := Option.map_eq_some_iff.mp hv
      have hown := h.own other ho w u hu
      split_ifs <;> exact hown
    · intro w v hv
      simp only [List.getElem?_modify] at hv
      obtain ⟨u,hu,rfl⟩ := Option.map_eq_some_iff.mp hv
      have hc := h.screens w u hu
      have ha := hc.arrivals
      rw [hpending] at ha
      split_ifs at ha ⊢ with hvc
      · refine ⟨by simp [SearchVC.showResults],rfl,hc.sorted,hc.typed_lt,?_⟩
        simpa [SearchVC.showResults] using ha
      · exact ⟨hc.shown,hc.loaded,hc.sorted,hc.typed_lt,ha⟩

theorem openSearchVC (h : Searching s) : Searching {s with searchVCs := s.searchVCs++[{}]} := by
  let blank : SearchVC := {}
  -- a screen of the new list is an old one or the blank one at the end
  have hsplit {vc : ℕ} {v : SearchVC} (hv : (s.searchVCs++[blank])[vc]?=some v) :
      s.searchVCs[vc]?=some v ∨ vc=s.searchVCs.length ∧ v=blank := by
    by_cases hlt : vc<s.searchVCs.length
    · rw [List.getElem?_append_left hlt] at hv
      exact Or.inl hv
    · have hl := (List.getElem?_eq_some_iff.mp hv).1
      rw [List.length_append,List.length_singleton] at hl
      have hvc : vc=s.searchVCs.length := by omega
      subst hvc
      rw [List.getElem?_concat_length] at hv
      exact Or.inr ⟨rfl,(Option.some.inj hv).symm⟩
  refine ⟨h.tickets,?_,?_,?_,?_⟩
  · intro task hm
    rw [List.length_append]
    exact (h.tasks task hm).trans_le (Nat.le_add_right _ _)
  · intro vc d hd
    rw [List.length_append]
    exact (h.blocks vc d hd).trans_le (Nat.le_add_right _ _)
  · intro task hm vc v hv
    cases hsplit hv with
    | inl hv => exact h.own task hm vc v hv
    | inr hex =>
      obtain ⟨rfl,rfl⟩ := hex
      have hlt := h.tasks task hm
      simp [blank]
      omega
  · intro vc v hv
    cases hsplit hv with
    | inl hv => exact h.screens vc v hv
    | inr hex =>
      obtain ⟨rfl,rfl⟩ := hex
      have hnone : pendingResults s.searchVCs.length s.mainQueue=[] := by
        rw [List.eq_nil_iff_forall_not_mem]
        exact fun d hd => Nat.lt_irrefl _ (h.blocks _ d hd)
      refine ⟨rfl,rfl,List.Pairwise.nil,by simp [blank],?_⟩
      rw [hnone]
      simp [results,blank]

/-- Typing gives the number of the new request to this screen and no other. -/
theorem textDidChange (h : Searching s) (vc : ℕ) (text : String) :
    Searching (s.textDidChange env vc text) := by
  unfold App.textDidChange
  cases hvc : s.searchVCs[vc]? with
  | none => exact h
  | some v₀ =>
    have hids : ∀id∈s.history.searchAnswers.map Prod.fst,id<s.nextTask :=
      fun id hid => h.tickets.lt id (List.mem_append_right _ hid)
    have hold {task : SearchTask} (hm : task∈s.searchTasks) : task.id≠s.nextTask :=
      Nat.ne_of_lt (h.tickets.lt _ (List.mem_append_left _ (List.mem_map_of_mem hm)))
    have hnew {w : ℕ} {u : SearchVC} (hu : s.searchVCs[w]?=some u) : s.nextTask∉u.typed :=
      fun hin => Nat.lt_irrefl _ ((h.screens w u hu).typed_lt _ hin)
    refine ⟨h.tickets.issue_if rfl,?_,?_,?_,?_⟩
    · intro task hm
      rw [List.length_modify]
      cases Tickets.mem_of_mem_issued hm with
      | inl hm => exact h.tasks task hm
      | inr heq =>
        subst heq
        exact (List.getElem?_eq_some_iff.mp hvc).1
    · intro w d hd
      rw [List.length_modify]
      exact h.blocks w d hd
    · intro task hm w v hv
      simp only [List.getElem?_modify] at hv
      obtain ⟨u,hu,rfl⟩ := Option.map_eq_some_iff.mp hv
      cases Tickets.mem_of_mem_issued hm with
      | inl hm =>
        have hown := h.own task hm w u hu
        split_ifs
        · simpa [hold hm] using hown
        · exact hown
      | inr heq =>
        subst heq
        split_ifs with hw
        · simp [hw]
        · simp [hw,hnew hu]
    · intro w v hv
      simp only [List.getElem?_modify] at hv
      obtain ⟨u,hu,rfl⟩ := Option.map_eq_some_iff.mp hv
      have hc := h.screens w u hu
      split_ifs
      · exact hc.type hids
      · exact hc.mono (Nat.le_succ _)

theorem selected {vc : ℕ} {v : SearchVC} (h : Searching s) (hv : s.searchVCs[vc]?=some v)
    (shown stock : Stock) : Searching (s.selected vc v shown stock) := by
  -- the screen changes in a field that the invariant does not look at
  have hset {w : ℕ} {u : SearchVC}
      (hu : (s.searchVCs.set vc {v with selectedStock := stock})[w]?=some u) :
      ∃u₀,s.searchVCs[w]?=some u₀ ∧ u={u₀ with selectedStock := u.selectedStock} := by
    rw [List.getElem?_set] at hu
    split_ifs at hu with hw
    · subst hw
      cases hu
      exact ⟨v,hv,rfl⟩
    · exact ⟨u,hu,rfl⟩
  refine ⟨h.tickets,?_,?_,?_,?_⟩
  · intro task hm
    simp only [App.selected,List.length_set]
    exact h.tasks task hm
  · intro w d hd
    simp only [App.selected,List.length_set]
    exact h.blocks w d hd
  · intro task hm w u hu
    obtain ⟨u₀,hu₀,he⟩ := hset hu
    rw [he]
    exact h.own task hm w u₀ hu₀
  · intro w u hu
    obtain ⟨u₀,hu₀,he⟩ := hset hu
    have hc := h.screens w u₀ hu₀
    rw [he]
    exact ⟨hc.shown,hc.loaded,hc.sorted,hc.typed_lt,hc.arrivals⟩

theorem step [Zero P] [One P] {e : Event P} (h : Searching s) (hs : s.step env e=some t) :
    Searching t := by
  cases step_cases hs with
  | other hview =>
    have hsame := hview.sameStore
    exact h.frame hsame.searchTasks hsame.searchVCs (by rw [hsame.history])
      (Nat.le_of_eq hsame.nextTask.symm) (fun _ => by rw [hsame.mainQueue])
  | refreshStocks => exact h.frame rfl rfl rfl (Nat.le_add_right _ _) (fun _ => rfl)
  | quoteReply hm =>
    exact h.frame rfl rfl rfl (Nat.le_refl _) (fun vc => by simp [answered])
  | searchReply hm => exact h.searchAnswered hm _
  | mainQueue hq hp => exact h.performed hq hp
  | deleteRow => exact h.frame rfl rfl rfl (Nat.le_refl _) (fun _ => by simp)
  | openSearchVC => exact h.openSearchVC
  | textDidChange => exact h.textDidChange _ _
  | didSelectRow hv => exact (h.selected hv _ _).getStockData _ _

theorem launch (portfolio : List (RealmStock P)) (users : List RealmUser)
    (firebase : List (String × Json P)) (clock : DateFields) :
    Searching (App.launch portfolio users firebase clock) := by
  refine ⟨Tickets.nil 1,?_,?_,?_,?_⟩
  · intro task hm
    cases hm
  · intro vc d hd
    cases hd
  · intro task hm
    cases hm
  · intro vc v hv
    cases hv

end Searching

end App

end SStock
