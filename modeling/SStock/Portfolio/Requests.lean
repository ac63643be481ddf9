import SStock.Framework.Simulation
import SStock.Portfolio.Origins

namespace SStock

open Framework StockManager

variable {P : Type}

namespace App

/-- The request of the loop of `refreshStocks` for one row, where the first row
has the number `base`. -/
def refreshRequest (clock : DateFields) (version base : ℕ) (entry : Row P × ℕ) : QuoteTask where
  id := base+entry.2
  text := entry.1.stock.datasetCode
  url := stockDataURL clock entry.1.stock.datasetCode
  completion := .refreshStocks entry.2 entry.1.obj version

def refreshRequests (env : Env P) (s : App P) : List QuoteTask :=
  (s.realm.rows.zipIdx.map (refreshRequest s.clock s.realm.log.length s.nextTask)).filter
    fun task => env.nsurlAccepts task.url

/-- The request of a tap that shows `stock`. -/
def tapRequest (env : Env P) (s : App P) (stock : Stock) : List QuoteTask :=
  if env.nsurlAccepts (stockDataURL s.clock stock.datasetCode) then
    [⟨s.nextTask,stock.datasetCode,stockDataURL s.clock stock.datasetCode,.unwindFromSearchVC⟩]
  else []

/-- The quote requests an event is meant to send: for a pull to refresh one for
each row, in row order, and for a tap one for the stock displayed; none where
the URL is rejected. -/
def quoteIssues (env : Env P) (s : App P) : Event P → List QuoteTask
  | .refreshStocks => s.refreshRequests env
  | .didSelectRow vc r =>
    match s.searchVCs[vc]?.bind fun v => v.tableView[r]? with
    | none => []
    | some shown => s.tapRequest env shown
  | _ => []

/-- The search requests an event is meant to send: one for each keystroke. -/
def searchIssues (env : Env P) (s : App P) : Event P → List SearchTask
  | .textDidChange vc text =>
    match s.searchVCs[vc]? with
    | none => []
    | some _ =>
      if env.nsurlAccepts (searchURL text) then [⟨s.nextTask,vc,searchURL text⟩] else []
  | _ => []

variable {env : Env P} {s t : App P} {e : Event P}

/-- The loop over rows numbered from `k`, when the numbers of tasks are ahead of
those of rows by `base`. -/
theorem foldl_refreshRow_eq (env : Env P) (rows : List (Row P)) {k base : ℕ} {s : App P}
    (hk : s.nextTask=base+k) :
    (rows.zipIdx k).foldl (refreshRow env) s=
      {s with
        quoteTasks := s.quoteTasks++((rows.zipIdx k).map
          (refreshRequest s.clock s.realm.log.length base)).filter
            fun task => env.nsurlAccepts task.url
        nextTask := s.nextTask+rows.length} := by
  induction rows generalizing k s with
  | nil => simp
  | cons row rows ih =>
    let u := s.refreshRow env (row,k)
    have hu : u.nextTask=base+(k+1) := by
      change s.nextTask+1=base+(k+1)
      omega
    have hlen : base+k+1+rows.length=base+k+(rows.length+1) := by omega
    rw [List.zipIdx_cons,List.foldl_cons]
    change (rows.zipIdx (k+1)).foldl (refreshRow env) u=_
    rw [ih hu]
    by_cases ha : env.nsurlAccepts (stockDataURL s.clock row.stock.datasetCode)
    · simp [u,refreshRow,getStockData,refreshRequest,ha,hlen,hk]
    · simp [u,refreshRow,getStockData,refreshRequest,ha,hlen,hk]

theorem refreshStocks_requests (env : Env P) (s : App P) :
    s.refreshStocks env=
      {s with
        quoteTasks := s.quoteTasks++s.refreshRequests env
        nextTask := s.nextTask+s.realm.rows.length}.reloadData := by
  rw [refreshStocks,foldl_refreshRow_eq env s.realm.rows (Nat.add_zero _).symm]
  rfl

/-- The requests of one refresh are numbered in row order, above all others. -/
theorem refreshRequests_ids (env : Env P) (s : App P) :
    (s.refreshRequests env).Pairwise (fun a b => a.id<b.id) ∧
      ∀task∈s.refreshRequests env,s.nextTask≤task.id ∧
        task.id<s.nextTask+s.realm.rows.length := by
  constructor
  · apply List.Pairwise.filter
    rw [List.pairwise_map]
    have hsnd : (s.realm.rows.zipIdx.map Prod.snd).Pairwise (· < ·) := by
      rw [List.zipIdx_map_snd]
      exact List.pairwise_lt_range'
    refine (List.pairwise_map.mp hsnd).imp (fun h => ?_)
    exact Nat.add_lt_add_left h _
  · intro task hm
    obtain ⟨entry,he,rfl⟩ := List.mem_map.mp (List.mem_of_mem_filter hm)
    have hlt := (List.getElem?_eq_some_iff.mp (List.mem_zipIdx_iff_getElem?.mp he)).1
    exact ⟨Nat.le_add_right _ _,Nat.add_lt_add_left hlt _⟩

/-- Sent requests, pending and answered, are those issued, whose numbers rise. -/
structure Sent (issued : List QuoteTask) (s : App P) : Prop where
  perm : s.requests.Perm issued
  rising : issued.Pairwise fun a b => a.id<b.id
  lt : ∀task∈issued,task.id<s.nextTask

/-- The same for searches, of which the answered ones are known by number. -/
structure Searched (issued : List SearchTask) (s : App P) : Prop where
  perm : (s.searchTasks.map SearchTask.id++s.history.searchAnswers.map Prod.fst).Perm
    (issued.map SearchTask.id)
  rising : issued.Pairwise fun a b => a.id<b.id
  lt : ∀task∈issued,task.id<s.nextTask

theorem quoteIssues_eq_nil (hr : e≠.refreshStocks) (hd : ∀vc r,e≠.didSelectRow vc r) :
    s.quoteIssues env e=[] := by
  cases e with
  | refreshStocks => exact absurd rfl hr
  | didSelectRow vc r => exact absurd rfl (hd vc r)
  | _ => rfl

theorem quoteTasks_tapped (env : Env P) (s : App P) (vc : ℕ) (v : SearchVC) (shown : Stock) :
    ((s.selected vc v shown shown).getStockData env shown.datasetCode
      .unwindFromSearchVC).quoteTasks=s.quoteTasks++s.tapRequest env shown := by
  unfold tapRequest getStockData selected
  by_cases ha : env.nsurlAccepts (stockDataURL s.clock shown.datasetCode) <;> simp [ha]

theorem tapRequest_pairwise (env : Env P) (s : App P) (shown : Stock) :
    (s.tapRequest env shown).Pairwise fun a b => a.id<b.id := by
  unfold tapRequest
  split_ifs <;> simp

theorem mem_tapRequest {shown : Stock} {task : QuoteTask} (h : task∈s.tapRequest env shown) :
    s.nextTask≤task.id ∧ task.id<s.nextTask+1 := by
  unfold tapRequest at h
  split_ifs at h
  · rw [List.mem_singleton.mp h]
    exact ⟨Nat.le_refl _,Nat.lt_succ_self _⟩
  · cases h

/-- A tap on a displayed row asks for the stock displayed. -/
theorem didSelectRow_sends [Zero P] [One P] {vc r : ℕ} (hsearch : s.Searching)
    (hs : s.step env (.didSelectRow vc r)=some t) :
    (s.quoteIssues env (.didSelectRow vc r)=[] ∧ t=s) ∨
      ∃v shown,s.quoteIssues env (.didSelectRow vc r)=s.tapRequest env shown ∧
        t=(s.selected vc v shown shown).getStockData env shown.datasetCode
          .unwindFromSearchVC := by
  have hs' : s.didSelectRow env vc r=some t := hs
  unfold didSelectRow at hs'
  simp only [quoteIssues]
  cases hv : s.searchVCs[vc]? with
  | none => exact Or.inl ⟨rfl,by simpa [hv] using hs'.symm⟩
  | some v =>
    simp only [hv] at hs'
    simp only [Option.bind_some]
    cases hshown : v.tableView[r]? with
    | none => exact Or.inl ⟨rfl,by simpa [hshown] using hs'.symm⟩
    | some shown =>
      have hdata : v.tableData[r]?=some shown := (hsearch.screens vc v hv).loaded ▸ hshown
      simp only [hshown,hdata,Option.map_some,Option.some.injEq] at hs'
      exact Or.inr ⟨v,shown,rfl,hs'.symm⟩

namespace Sent

variable {issued new : List QuoteTask}

theorem nodup (h : Sent issued s) : (s.requests.map QuoteTask.id).Nodup := by
  refine (h.perm.map QuoteTask.id).nodup_iff.mpr ?_
  rw [List.Nodup,List.pairwise_map]
  exact h.rising.imp Nat.ne_of_lt

theorem same (h : Sent issued s) (hperm : t.requests.Perm s.requests)
    (hnext : s.nextTask≤t.nextTask) : Sent issued t :=
  ⟨hperm.trans h.perm,h.rising,fun task hm => (h.lt task hm).trans_le hnext⟩

theorem issue (h : Sent issued s) (htasks : t.quoteTasks=s.quoteTasks++new)
    (hanswers : t.history.answers=s.history.answers)
    (hrising : new.Pairwise fun a b => a.id<b.id)
    (hnew : ∀task∈new,s.nextTask≤task.id ∧ task.id<t.nextTask) (hnext : s.nextTask≤t.nextTask) :
    Sent (issued++new) t := by
  refine ⟨?_,?_,?_⟩
  · have hswap : t.requests.Perm (s.requests++new) := by
      rw [requests,requests,htasks,hanswers,List.append_assoc,List.append_assoc]
      exact List.perm_append_comm.append_left _
    exact hswap.trans (h.perm.append_right _)
  · refine List.pairwise_append.mpr ⟨h.rising,hrising,fun a ha b hb => ?_⟩
    exact (h.lt a ha).trans_le (hnew b hb).1
  · intro task hm
    cases List.mem_append.mp hm with
    | inl hm => exact (h.lt task hm).trans_le hnext
    | inr hm => exact (hnew task hm).2

variable [Zero P] [One P]

/-- An answer moves its request from the pending ones to the answered ones. -/
theorem answered (h : Sent issued s) {task : QuoteTask} (hm : task∈s.quoteTasks)
    (response : Response P) : Sent issued (s.answered task response) := by
  refine h.same ?_ (Nat.le_refl _)
  have hn : (s.quoteTasks.map QuoteTask.id).Nodup := by
    have hall := h.nodup
    rw [requests,List.map_append] at hall
    exact (List.nodup_append'.mp hall).1
  have hmove := filter_ne_append_perm hn hm
  rw [requests,requests,App.answered]
  simp only [List.map_append,List.map_cons,List.map_nil]
  have hswap : (s.quoteTasks.filter (fun other => other.id≠task.id)++
      (s.history.answers.map Answer.task++[task])).Perm
      (s.quoteTasks.filter (fun other => other.id≠task.id)++[task]++
        s.history.answers.map Answer.task) := by
    rw [List.append_assoc]
    exact List.perm_append_comm.append_left _
  exact hswap.trans (hmove.append_right _)

/-- Any other event sends no quote request. -/
theorem stepped (h : Sent issued s) (hr : e≠.refreshStocks) (hd : ∀vc r,e≠.didSelectRow vc r)
    (hs : Stepped env s e t) : Sent issued t := by
  cases hs with
  | other hview =>
    have hsame := hview.sameStore
    refine h.same ?_ (Nat.le_of_eq hsame.nextTask.symm)
    rw [requests,requests,hsame.quoteTasks,hsame.history]
  | refreshStocks => exact absurd rfl hr
  | didSelectRow => exact absurd rfl (hd _ _)
  | quoteReply hm => exact h.answered hm _
  | searchReply | deleteRow | openSearchVC =>
    exact h.same (List.Perm.refl _) (Nat.le_refl _)
  | mainQueue _ hp => cases hp <;> exact h.same (List.Perm.refl _) (Nat.le_refl _)
  | textDidChange hv =>
    rw [App.textDidChange,hv]
    exact h.same (List.Perm.refl _) (Nat.le_succ _)

theorem step (h : Sent issued s) (hsearch : s.Searching) (hs : s.step env e=some t) :
    Sent (issued++s.quoteIssues env e) t := by
  by_cases hr : e=.refreshStocks
  · subst hr
    cases hs
    obtain ⟨hrising,hids⟩ := refreshRequests_ids env s
    rw [refreshStocks_requests]
    exact h.issue rfl rfl hrising hids (Nat.le_add_right _ _)
  · by_cases hd : ∃vc r,e=.didSelectRow vc r
    · obtain ⟨vc,r,rfl⟩ := hd
      rcases didSelectRow_sends hsearch hs with ⟨hnil,rfl⟩|⟨v,shown,hissues,rfl⟩
      · rw [hnil,List.append_nil]
        exact h
      · rw [hissues]
        exact h.issue (quoteTasks_tapped env s vc v shown) rfl (tapRequest_pairwise env s shown)
          (fun task hm => mem_tapRequest hm) (Nat.le_succ _)
    · have hd' : ∀vc r,e≠.didSelectRow vc r := fun vc r he => hd ⟨vc,r,he⟩
      rw [quoteIssues_eq_nil hr hd',List.append_nil]
      exact h.stepped hr hd' (step_cases hs)

end Sent

namespace Searched

variable {issued : List SearchTask}

theorem same (h : Searched issued s) (htasks : t.searchTasks=s.searchTasks)
    (hanswers : t.history.searchAnswers=s.history.searchAnswers) (hnext : s.nextTask≤t.nextTask) :
    Searched issued t :=
  ⟨by rw [htasks,hanswers]; exact h.perm,h.rising,fun task hm => (h.lt task hm).trans_le hnext⟩

theorem answered (h : Searched issued s) {task : SearchTask} (hm : task∈s.searchTasks)
    (response : Response P) : Searched issued (s.searchAnswered task response) := by
  refine ⟨?_,h.rising,h.lt⟩
  have hn : (s.searchTasks.map SearchTask.id).Nodup := by
    have hall : (issued.map SearchTask.id).Nodup := by
      rw [List.Nodup,List.pairwise_map]
      exact h.rising.imp Nat.ne_of_lt
    exact (List.nodup_append'.mp (h.perm.nodup_iff.mpr hall)).1
  have hmove := (filter_ne_append_perm hn hm).map SearchTask.id
  rw [App.searchAnswered]
  simp only [List.map_append,List.map_cons,List.map_nil] at hmove ⊢
  have hswap : ((s.searchTasks.filter fun other => other.id≠task.id).map SearchTask.id++
      (s.history.searchAnswers.map Prod.fst++[task.id])).Perm
      ((s.searchTasks.filter fun other => other.id≠task.id).map SearchTask.id++[task.id]++
        s.history.searchAnswers.map Prod.fst) := by
    rw [List.append_assoc]
    exact List.perm_append_comm.append_left _
  exact hswap.trans ((hmove.append_right _).trans h.perm)

theorem textDidChange (h : Searched issued s) (vc : ℕ) (text : String) :
    Searched (issued++s.searchIssues env (.textDidChange vc text))
      (s.textDidChange env vc text) := by
  cases hv : s.searchVCs[vc]? with
  | none =>
    have hsame : s.textDidChange env vc text=s := by simp [App.textDidChange,hv]
    have hnil : s.searchIssues env (.textDidChange vc text)=[] := by simp [searchIssues,hv]
    rw [hsame,hnil,List.append_nil]
    exact h
  | some v =>
    by_cases ha : env.nsurlAccepts (searchURL text)
    · let task : SearchTask := ⟨s.nextTask,vc,searchURL text⟩
      have hnew : s.searchIssues env (.textDidChange vc text)=[task] := by
        simp [searchIssues,hv,ha,task]
      have htasks : (s.textDidChange env vc text).searchTasks=s.searchTasks++[task] := by
        simp [App.textDidChange,hv,ha,task]
      have hanswers : (s.textDidChange env vc text).history=s.history := by
        simp [App.textDidChange,hv]
      have hnext : (s.textDidChange env vc text).nextTask=s.nextTask+1 := by
        simp [App.textDidChange,hv]
      rw [hnew]
      refine ⟨?_,?_,?_⟩
      · have hswap : ((s.searchTasks++[task]).map SearchTask.id++
            s.history.searchAnswers.map Prod.fst).Perm
            (s.searchTasks.map SearchTask.id++s.history.searchAnswers.map Prod.fst++
              [task.id]) := by
          rw [List.map_append,List.append_assoc,List.append_assoc]
          exact List.perm_append_comm.append_left _
        have hlast : (issued++[task]).map SearchTask.id=issued.map SearchTask.id++[task.id] :=
          List.map_append
        rw [htasks,hanswers,hlast]
        exact hswap.trans (h.perm.append_right _)
      · refine List.pairwise_append.mpr ⟨h.rising,List.pairwise_singleton _ _,?_⟩
        intro a hm b hb
        rw [List.mem_singleton.mp hb]
        exact h.lt a hm
      · intro other hm
        rw [hnext]
        cases List.mem_append.mp hm with
        | inl hm => exact Nat.lt_succ_of_lt (h.lt other hm)
        | inr hm =>
          rw [List.mem_singleton.mp hm]
          exact Nat.lt_succ_self _
    · have hnil : s.searchIssues env (.textDidChange vc text)=[] := by
        simp [searchIssues,hv,ha]
      rw [hnil,List.append_nil]
      exact h.same (by simp [App.textDidChange,hv,ha]) (by simp [App.textDidChange,hv])
        (by simp [App.textDidChange,hv])

theorem step [Zero P] [One P] (h : Searched issued s) (hs : s.step env e=some t) :
    Searched (issued++s.searchIssues env e) t := by
  by_cases he : ∃vc text,e=.textDidChange vc text
  · obtain ⟨vc,text,rfl⟩ := he
    cases hs
    exact h.textDidChange vc text
  · have hnil : s.searchIssues env e=[] := by
      cases e with
      | textDidChange vc text => exact absurd ⟨vc,text,rfl⟩ he
      | _ => rfl
    rw [hnil,List.append_nil]
    cases step_cases hs with
    | other hview =>
      have hsame := hview.sameStore
      exact h.same hsame.searchTasks (by rw [hsame.history]) (Nat.le_of_eq hsame.nextTask.symm)
    | refreshStocks => exact h.same rfl rfl (Nat.le_add_right _ _)
    | quoteReply | deleteRow | openSearchVC => exact h.same rfl rfl (Nat.le_refl _)
    | searchReply hm => exact h.answered hm _
    | mainQueue _ hp => cases hp <;> exact h.same rfl rfl (Nat.le_refl _)
    | textDidChange => exact absurd ⟨_,_,rfl⟩ he
    | didSelectRow => exact h.same rfl rfl (Nat.le_succ _)

end Searched

end App

variable [Zero P] [One P] {env : Env P} {portfolio : List (RealmStock P)}
  {users : List RealmUser} {firebase : List (String × Json P)} {clock : DateFields}
  {es : List (Event P)} {s : App P}

theorem sent_of_run
    (h : run (App.step env) (App.launch portfolio users firebase clock) es=some s) :
    s.Sent (emitted (App.step env) (App.quoteIssues env)
      (App.launch portfolio users firebase clock) es) := by
  have hboth := run_emits (R := fun u issued => u.Searching ∧ u.Sent issued) (l := []) h
    ⟨App.Searching.launch portfolio users firebase clock,List.Perm.refl _,List.Pairwise.nil,
      fun _ hm => absurd hm List.not_mem_nil⟩
    (fun u e v l ⟨hsearch,hu⟩ hv => ⟨hsearch.step hv,hu.step hsearch hv⟩)
  exact hboth.2

theorem searched_of_run
    (h : run (App.step env) (App.launch portfolio users firebase clock) es=some s) :
    s.Searched (emitted (App.step env) (App.searchIssues env)
      (App.launch portfolio users firebase clock) es) :=
  run_emits (R := fun u issued => u.Searched issued) (l := []) h
    ⟨List.Perm.refl _,List.Pairwise.nil,fun _ hm => absurd hm List.not_mem_nil⟩
    (fun _ _ _ _ hu hv => hu.step hv)

/-- In every run the requests in flight and the answered ones are together the
requests issued, each once and under a number of its own: by each pull to
refresh one for every row, by each tap one for the stock displayed, and by each
keystroke a search. -/
theorem requests_conserved
    (h : run (App.step env) (App.launch portfolio users firebase clock) es=some s) :
    let quotes := emitted (App.step env) (App.quoteIssues env)
      (App.launch portfolio users firebase clock) es
    let searches := emitted (App.step env) (App.searchIssues env)
      (App.launch portfolio users firebase clock) es
    (s.quoteTasks++s.history.answers.map Answer.task).Perm quotes ∧
      quotes.Pairwise (fun a b => a.id<b.id) ∧
      (s.searchTasks.map SearchTask.id++s.history.searchAnswers.map Prod.fst).Perm
        (searches.map SearchTask.id) ∧
      searches.Pairwise (fun a b => a.id<b.id) := by
  intro quotes searches
  have hsent := sent_of_run h
  have hsearched := searched_of_run h
  exact ⟨hsent.perm,hsent.rising,hsearched.perm,hsearched.rising⟩

/-- Two rows refreshed and one request answered. -/
theorem requests_conserved_refresh :
    ∃s,run (App.step App.sampleEnv)
        (App.sampleLaunch [App.sampleStock "FB" 3,App.sampleStock "GE" 5])
        [.refreshStocks,.quoteReply 2 (App.sampleReply "GE" "2016-04-08" 4)]=some s ∧
      (s.quoteTasks++s.history.answers.map Answer.task).length=2 := by
  obtain ⟨s,hs,hlen⟩ : ∃s,run (App.step App.sampleEnv)
        (App.sampleLaunch [App.sampleStock "FB" 3,App.sampleStock "GE" 5])
        [.refreshStocks,.quoteReply 2 (App.sampleReply "GE" "2016-04-08" 4)]=some s ∧
      (emitted (App.step App.sampleEnv) (App.quoteIssues App.sampleEnv)
        (App.sampleLaunch [App.sampleStock "FB" 3,App.sampleStock "GE" 5])
        [.refreshStocks,.quoteReply 2 (App.sampleReply "GE" "2016-04-08" 4)]).length=2 :=
    ⟨_,rfl,rfl⟩
  have hperm := (requests_conserved hs).1
  exact ⟨s,hs,hperm.length_eq.trans hlen⟩

end SStock
