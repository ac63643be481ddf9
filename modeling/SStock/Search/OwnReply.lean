import SStock.Model.Records
import SStock.Portfolio.Provenance
import SStock.Portfolio.Requests
import SStock.Search.Latest

namespace SStock

open Framework StockManager

variable {P : Type}

/-- A text typed in search screen `vc`, by the number of its request. -/
structure Keystroke where
  id : ℕ
  vc : ℕ
  text : String

/-- The numbers of the texts typed in one screen. -/
def typedIn (vc : ℕ) (typed : List Keystroke) : List ℕ :=
  (typed.filter fun k => k.vc=vc).map Keystroke.id

@[simp] theorem typedIn_append (vc : ℕ) (typed typed' : List Keystroke) :
    typedIn vc (typed++typed')=typedIn vc typed++typedIn vc typed' := by
  simp [typedIn]

theorem typedIn_singleton (vc : ℕ) (k : Keystroke) :
    typedIn vc [k]=if k.vc=vc then [k.id] else [] := by
  by_cases h : k.vc=vc <;> simp [typedIn,h]

namespace App

def keystrokes (s : App P) : Event P → List Keystroke
  | .textDidChange vc text => match s.searchVCs[vc]? with
    | some _ => [⟨s.nextTask,vc,text⟩]
    | none => []
  | _ => []

/-- What was typed so far: the numbers listed by the screens, and the texts of
all requests, pending and answered. -/
structure Typed (typed : List Keystroke) (s : App P) : Prop where
  screens : ∀vc v,s.searchVCs[vc]?=some v → v.typed=typedIn vc typed
  vc_lt : ∀k∈typed,k.vc<s.searchVCs.length
  tasks : ∀task∈s.searchTasks,∃k∈typed,k.id=task.id ∧ k.vc=task.vc ∧ task.url=searchURL k.text
  answers : ∀d∈s.history.searchAnswers,∃k∈typed,k.id=d.1
  rising : typed.Pairwise fun a b => a.id<b.id
  id_lt : ∀k∈typed,k.id<s.nextTask

namespace Typed

variable {env : Env P} {typed : List Keystroke} {s t : App P}

/-- No text has been typed in a screen that does not exist. -/
theorem typedIn_length (h : Typed typed s) : typedIn s.searchVCs.length typed=[] := by
  have hnone : typed.filter (fun k => k.vc=s.searchVCs.length)=[] := by
    rw [List.filter_eq_nil_iff]
    intro k hk
    have hne : k.vc≠s.searchVCs.length := Nat.ne_of_lt (h.vc_lt k hk)
    simp [hne]
  rw [typedIn,hnone,List.map_nil]

/-- Steps that type nothing. -/
theorem frame (h : Typed typed s)
    (hscreens : ∀vc v,t.searchVCs[vc]?=some v →
      (∃w,s.searchVCs[vc]?=some w ∧ v.typed=w.typed) ∨ (vc=s.searchVCs.length ∧ v.typed=[]))
    (hlen : s.searchVCs.length≤t.searchVCs.length)
    (htasks : ∀task∈t.searchTasks,task∈s.searchTasks)
    (hanswers : ∀d∈t.history.searchAnswers,d∈s.history.searchAnswers ∨
      ∃task∈s.searchTasks,task.id=d.1)
    (hnext : s.nextTask≤t.nextTask) : Typed (typed++[]) t := by
  rw [List.append_nil]
  refine ⟨?_,?_,?_,?_,h.rising,?_⟩
  · intro vc v hv
    rcases hscreens vc v hv with ⟨w,hw,he⟩|⟨rfl,he⟩
    · rw [he]
      exact h.screens vc w hw
    · rw [he,h.typedIn_length]
  · exact fun k hk => (h.vc_lt k hk).trans_le hlen
  · exact fun task hm => h.tasks task (htasks task hm)
  · intro d hd
    rcases hanswers d hd with hd|⟨task,hm,hid⟩
    · exact h.answers d hd
    · obtain ⟨k,hk,hkid,_⟩ := h.tasks task hm
      exact ⟨k,hk,hkid.trans hid⟩
  · exact fun k hk => (h.id_lt k hk).trans_le hnext

theorem same (h : Typed typed s) (hvcs : t.searchVCs=s.searchVCs)
    (htasks : t.searchTasks=s.searchTasks)
    (hanswers : t.history.searchAnswers=s.history.searchAnswers)
    (hnext : s.nextTask≤t.nextTask) : Typed (typed++[]) t := by
  refine h.frame ?_ ?_ ?_ ?_ hnext
  · intro vc v hv
    rw [hvcs] at hv
    exact Or.inl ⟨v,hv,rfl⟩
  · rw [hvcs]
  · rw [htasks]
    exact fun _ => id
  · rw [hanswers]
    exact fun _ => Or.inl

/-- A change of one screen that leaves what was typed there alone. -/
theorem modify (h : Typed typed s) {vc : ℕ} {f : SearchVC → SearchVC}
    (hf : ∀v,(f v).typed=v.typed) {queue : List (Block P)} :
    Typed (typed++[]) {s with mainQueue := queue,searchVCs := s.searchVCs.modify vc f} := by
  refine h.frame ?_ ?_ (fun _ => id) (fun _ => Or.inl) (Nat.le_refl _)
  · intro i v hv
    have hv' : (s.searchVCs.modify vc f)[i]?=some v := hv
    rw [List.getElem?_modify] at hv'
    obtain ⟨w,hw,rfl⟩ := Option.map_eq_some_iff.mp hv'
    refine Or.inl ⟨w,hw,?_⟩
    split_ifs
    · exact hf w
    · rfl
  · rw [List.length_modify]

theorem textDidChange (h : Typed typed s) {vc : ℕ} {v : SearchVC} (text : String)
    (hv : s.searchVCs[vc]?=some v) :
    Typed (typed++[⟨s.nextTask,vc,text⟩]) (s.textDidChange env vc text) := by
  let k : Keystroke := ⟨s.nextTask,vc,text⟩
  have hmem {k' : Keystroke} (hm : k'∈typed++[k]) : k'∈typed ∨ k'=k := by simpa using hm
  have hlen : (s.textDidChange env vc text).searchVCs.length=s.searchVCs.length := by
    simp [App.textDidChange,hv]
  have hnext : (s.textDidChange env vc text).nextTask=s.nextTask+1 := by
    simp [App.textDidChange,hv]
  have hold {k' : Keystroke} (hm : k'∈typed) : k'∈typed++[k] := List.mem_append_left _ hm
  refine ⟨?_,?_,?_,?_,?_,?_⟩
  · intro i w hw
    have hw' : (s.searchVCs.modify vc fun v => {v with typed := v.typed++[s.nextTask]})[i]?=
        some w := by simpa [App.textDidChange,hv] using hw
    rw [List.getElem?_modify] at hw'
    obtain ⟨u,hu,rfl⟩ := Option.map_eq_some_iff.mp hw'
    rw [typedIn_append,typedIn_singleton]
    by_cases hi : vc=i
    · simp [hi,h.screens i u hu]
    · simp [hi,h.screens i u hu]
  · intro k' hk
    rw [hlen]
    cases hmem hk with
    | inl hk => exact h.vc_lt k' hk
    | inr he =>
      rw [he]
      exact (List.getElem?_eq_some_iff.mp hv).1
  · intro task hm
    have hcase : task∈s.searchTasks ∨ task=⟨s.nextTask,vc,searchURL text⟩ := by
      simp only [App.textDidChange,hv] at hm
      split_ifs at hm
      · simpa using hm
      · exact Or.inl hm
    cases hcase with
    | inl hm =>
      obtain ⟨k',hk,hrest⟩ := h.tasks task hm
      exact ⟨k',hold hk,hrest⟩
    | inr he =>
      subst he
      exact ⟨k,List.mem_append_right _ List.mem_cons_self,rfl,rfl,rfl⟩
  · intro d hd
    have hd' : d∈s.history.searchAnswers := by simpa [App.textDidChange,hv] using hd
    obtain ⟨k',hk,hid⟩ := h.answers d hd'
    exact ⟨k',hold hk,hid⟩
  · refine List.pairwise_append.mpr ⟨h.rising,List.pairwise_singleton _ _,?_⟩
    intro a ha b hb
    rw [List.mem_singleton.mp hb]
    exact h.id_lt a ha
  · intro k' hk
    rw [hnext]
    cases hmem hk with
    | inl hk => exact Nat.lt_succ_of_lt (h.id_lt k' hk)
    | inr he =>
      rw [he]
      exact Nat.lt_succ_self _

/-- A new screen, on which nothing was typed. -/
theorem openSearchVC (h : Typed typed s) :
    Typed (typed++[]) {s with searchVCs := s.searchVCs++[{}]} := by
  refine h.frame ?_ (by simp) (fun _ => id) (fun _ => Or.inl) (Nat.le_refl _)
  intro vc v hv
  have hv' : (s.searchVCs++[({} : SearchVC)])[vc]?=some v := hv
  by_cases hlt : vc<s.searchVCs.length
  · rw [List.getElem?_append_left hlt] at hv'
    exact Or.inl ⟨v,hv',rfl⟩
  · have hle := Nat.le_of_not_lt hlt
    rw [List.getElem?_append_right hle] at hv'
    obtain ⟨hlt',rfl⟩ := List.getElem?_eq_some_iff.mp hv'
    have hzero : vc-s.searchVCs.length=0 := Nat.lt_one_iff.mp hlt'
    refine Or.inr ⟨by omega,?_⟩
    simp

theorem selected (h : Typed typed s) {vc : ℕ} {v : SearchVC} (hv : s.searchVCs[vc]?=some v)
    (shown stock : Stock) :
    Typed (typed++[])
      ((s.selected vc v shown stock).getStockData env stock.datasetCode .unwindFromSearchVC) := by
  refine h.frame ?_ ?_ (fun _ => id) (fun _ => Or.inl) (Nat.le_succ _)
  · intro i w hw
    have hw' : (s.searchVCs.set vc {v with selectedStock := stock})[i]?=some w := hw
    rw [List.getElem?_set] at hw'
    split_ifs at hw' with hi hlt
    · subst hi
      cases hw'
      exact Or.inl ⟨v,hv,rfl⟩
    · exact Or.inl ⟨w,hw',rfl⟩
  · change _ ≤ (s.searchVCs.set vc _).length
    rw [List.length_set]

theorem step [Zero P] [One P] {e : Event P} (h : Typed typed s) (hs : s.step env e=some t) :
    Typed (typed++s.keystrokes e) t := by
  by_cases he : ∃vc text,e=.textDidChange vc text
  · obtain ⟨vc,text,rfl⟩ := he
    cases hs
    cases hv : s.searchVCs[vc]? with
    | none =>
      have hnil : s.keystrokes (.textDidChange vc text)=[] := by simp [keystrokes,hv]
      rw [hnil]
      exact h.same (by simp [App.textDidChange,hv]) (by simp [App.textDidChange,hv])
        (by simp [App.textDidChange,hv]) (by simp [App.textDidChange,hv])
    | some v =>
      have hone : s.keystrokes (.textDidChange vc text)=[⟨s.nextTask,vc,text⟩] := by
        simp [keystrokes,hv]
      rw [hone]
      exact h.textDidChange text hv
  · have hnil : s.keystrokes e=[] := by
      cases e with
      | textDidChange vc text => exact absurd ⟨vc,text,rfl⟩ he
      | _ => rfl
    rw [hnil]
    cases step_cases hs with
    | other hview =>
      have hsame := hview.sameStore
      exact h.same hsame.searchVCs hsame.searchTasks (by rw [hsame.history])
        (Nat.le_of_eq hsame.nextTask.symm)
    | refreshStocks => exact h.same rfl rfl rfl (Nat.le_add_right _ _)
    | quoteReply | deleteRow => exact h.same rfl rfl rfl (Nat.le_refl _)
    | searchReply hm =>
      next task response =>
      refine h.frame (fun vc v hv => Or.inl ⟨v,hv,rfl⟩) (Nat.le_refl _)
        (fun _ => List.mem_of_mem_filter) (fun d hd => ?_) (Nat.le_refl _)
      cases List.mem_append.mp hd with
      | inl hd => exact Or.inl hd
      | inr hd =>
        rw [List.mem_singleton.mp hd]
        exact Or.inr ⟨task,hm,rfl⟩
    | mainQueue _ hp =>
      cases hp with
      | refreshStocks | unwindFromSearchVC | reloadData => exact h.same rfl rfl rfl (Nat.le_refl _)
      | searchResults => exact h.modify (f := SearchVC.showResults _ _) (fun _ => rfl)
    | openSearchVC => exact h.openSearchVC
    | textDidChange => exact absurd ⟨_,_,rfl⟩ he
    | didSelectRow hv _ _ => exact h.selected hv _ _

end Typed

end App

variable [Zero P] [One P] {env : Env P} {portfolio : List (RealmStock P)}
  {users : List RealmUser} {firebase : List (String × Json P)} {clock : DateFields}
  {es : List (Event P)} {s : App P}

theorem typed_of_run
    (h : run (App.step env) (App.launch portfolio users firebase clock) es=some s) :
    s.Typed (emitted (App.step env) App.keystrokes
      (App.launch portfolio users firebase clock) es) :=
  run_emits (R := fun u l => App.Typed l u) (l := []) h
    ⟨by simp [App.launch,App.reloadData],by simp,by simp [App.launch,App.reloadData],
      by simp [App.launch,App.reloadData],List.Pairwise.nil,by simp⟩
    (fun _ _ _ _ hu hw => hu.step hw)

/-- In terms of the events of the run: a screen never shows the results of an
earlier text after those of a later one, and ends at those of the last text
typed on it where that search succeeded, exactly when the results shown on it
come in the order typed, or repeat the newest. -/
theorem search_shows_latest_by_events
    (h : run (App.step env) (App.launch portfolio users firebase clock) es=some s)
    {vc : ℕ} {v : SearchVC} (hv : s.searchVCs[vc]?=some v) :
    let start := App.launch portfolio users firebase clock
    (∀fs u w,fs <+: es → run (App.step env) start fs=some u → u.searchVCs[vc]?=some w →
      (∀m,IsLatest (emitted (App.step env) (App.shownOn vc) start fs) m → w.tableData=m.2) ∧
      (pendingResults vc u.mainQueue=[] → ∀tn response stocks,
        (typedIn vc (emitted (App.step env) App.keystrokes start fs)).getLast?=some tn →
        (tn,response)∈emitted (App.step env) App.searchAnswers start fs →
        searchReply response=.completed stocks → w.tableData=stocks)) ↔
    InOrder (emitted (App.step env) (App.shownOn vc) start es) := by
  have hreceived {fs : List (Event P)} {u : App P} {w : SearchVC}
      (hu : run (App.step env) (App.launch portfolio users firebase clock) fs=some u)
      (hw : u.searchVCs[vc]?=some w) : emitted (App.step env) (App.shownOn vc)
        (App.launch portfolio users firebase clock) fs=w.received := by
    rw [← receivedBy_of_run hu vc,App.receivedBy_eq hw]
  intro start
  rw [hreceived h hv]
  constructor
  · intro hall
    refine inOrder_of_newest h hv (fun fs u w hfs hu hw => ?_)
    rw [← hreceived hu hw]
    exact (hall fs u w hfs hu hw).1
  · intro hord fs u w hfs hu hw
    have hshows := shows_of_inOrder h hv hord hfs hu hw
    rw [hreceived hu hw,← (typed_of_run hu).screens vc w hw,← (history_of_run hu).2.2]
    exact ⟨hshows.newest,hshows.settled⟩

/-- Every screen is empty or lists the stocks of a delivered reply to a text
typed on that very screen; each row of the list has a cell with the name of its
stock, and a tap on it asks for the code of the same stock without a trap. -/
theorem screen_shows_own_reply
    (h : run (App.step env) (App.launch portfolio users firebase clock) es=some s)
    {vc : ℕ} {v : SearchVC} (hv : s.searchVCs[vc]?=some v) :
    (v.tableData=[] ∨ ∃k∈emitted (App.step env) App.keystrokes
        (App.launch portfolio users firebase clock) es,k.vc=vc ∧
      ∃response,Event.searchReply k.id response∈es ∧
        searchReply response=.completed v.tableData) ∧
    ∀r<v.numberOfRowsInSection,∃stock,v.tableData[r]?=some stock ∧
      v.cellForRowAtIndexPath r=some stock.name ∧
      ∃t,s.step env (.didSelectRow vc r)=some t ∧
        t.quoteTasks=s.quoteTasks++s.tapRequest env stock := by
  have hsearch := searching_of_run h
  have hscreen := hsearch.screens vc v hv
  have htyped := typed_of_run h
  constructor
  · cases hl : v.received.getLast? with
    | none =>
      left
      rw [hscreen.shown,lastValue,hl]
      rfl
    | some d =>
      right
      have hd : d∈results v.typed s.history.searchAnswers := by
        rw [← hscreen.arrivals]
        exact List.mem_append_left _ (List.mem_of_getLast? hl)
      obtain ⟨hid,response,ha,hr⟩ := mem_results.mp hd
      rw [htyped.screens vc v hv] at hid
      obtain ⟨k,hk,hkid⟩ := List.mem_map.mp hid
      obtain ⟨hk,hkvc⟩ := List.mem_filter.mp hk
      refine ⟨k,hk,of_decide_eq_true hkvc,response,?_,?_⟩
      · rw [hkid]
        exact (recorded_of_run h).searchAnswers _ ha
      · rw [hscreen.shown,lastValue,hl]
        exact hr
  · intro r hr
    obtain ⟨stock,hstock⟩ : ∃stock,v.tableData[r]?=some stock :=
      ⟨_,List.getElem?_eq_getElem hr⟩
    have hshown : v.tableView[r]?=some stock := by rw [hscreen.loaded,hstock]
    refine ⟨stock,hstock,by rw [SearchVC.cellForRowAtIndexPath,hstock]; rfl,
      (s.selected vc v stock stock).getStockData env stock.datasetCode .unwindFromSearchVC,?_,
      App.quoteTasks_tapped env s vc v stock⟩
    simp only [App.step,App.didSelectRow,hv,hshown,hstock,Option.map_some]
    rfl

/-- Two texts typed on the second of two screens, the first one answered. -/
theorem screen_shows_own_reply_sample :
    ∃s v,run (App.step App.sampleEnv) (App.sampleLaunch [])
        [.openSearchVC,.openSearchVC,.textDidChange 1 "f",.textDidChange 1 "fa",
          .searchReply 1 (App.sampleSearchReply [⟨"Facebook","FB"⟩]),.mainQueue]=some s ∧
      s.searchVCs[1]?=some v ∧ v.cellForRowAtIndexPath 0=some "Facebook" ∧
      ∃t,s.step App.sampleEnv (.didSelectRow 1 0)=some t ∧
        t.quoteTasks.map QuoteTask.text=["FB"] := by
  obtain ⟨s,v,hs,hv,hdata,htasks⟩ : ∃s v,run (App.step App.sampleEnv) (App.sampleLaunch [])
        [.openSearchVC,.openSearchVC,.textDidChange 1 "f",.textDidChange 1 "fa",
          .searchReply 1 (App.sampleSearchReply [⟨"Facebook","FB"⟩]),.mainQueue]=some s ∧
      s.searchVCs[1]?=some v ∧ v.tableData=[⟨"Facebook","FB"⟩] ∧ s.quoteTasks=[] :=
    ⟨_,_,rfl,rfl,rfl,rfl⟩
  have hr : 0<v.numberOfRowsInSection := by simp [SearchVC.numberOfRowsInSection,hdata]
  obtain ⟨stock,hstock,hcell,t,ht,hq⟩ := (screen_shows_own_reply hs hv).2 0 hr
  obtain rfl : ⟨"Facebook","FB"⟩=stock := by simpa [hdata] using hstock
  refine ⟨s,v,hs,hv,hcell,t,ht,?_⟩
  rw [hq,htasks]
  rfl

end SStock
