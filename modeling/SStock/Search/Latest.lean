import SStock.Framework.Simulation
import SStock.Search.Screens

namespace SStock

open Framework StockManager

variable {P : Type} {s t : App P}

/-- The results shown so far on search screen `vc`. -/
def App.receivedBy (vc : ℕ) (s : App P) : List (ℕ × List Stock) :=
  (s.searchVCs[vc]?.map SearchVC.received).getD []

/-- The results an event shows on search screen `vc`. -/
def App.shownOn (vc : ℕ) (s : App P) : Event P → List (ℕ × List Stock)
  | .mainQueue =>
    match s.mainQueue,s.searchVCs[vc]? with
    | .searchResults task w stocks::_,some _ => if w=vc then [(task,stocks)] else []
    | _,_ => []
  | _ => []

theorem App.receivedBy_eq {vc : ℕ} {v : SearchVC} (hv : s.searchVCs[vc]?=some v) :
    s.receivedBy vc=v.received := by
  rw [App.receivedBy,hv]
  rfl

/-- Screen `vc` is at `w` in state `s`. It shows the results of the latest text
among those whose results have arrived, and, once nothing is queued for it,
those of the last text typed if that request succeeded. -/
structure ShowsLatest (s : App P) (vc : ℕ) (w : SearchVC) : Prop where
  newest : ∀m,IsLatest w.received m → w.tableData=m.2
  settled : pendingResults vc s.mainQueue=[] → ∀tn response stocks,
    w.typed.getLast?=some tn → (tn,response)∈s.history.searchAnswers →
      searchReply response=.completed stocks → w.tableData=stocks

/-- The last text typed is newest among any results that include its own. -/
theorem ShowsLatest.of_newest {vc : ℕ} {w : SearchVC} (h : s.Searching)
    (hw : s.searchVCs[vc]?=some w) (hnew : ∀m,IsLatest w.received m → w.tableData=m.2) :
    ShowsLatest s vc w := by
  refine ⟨hnew,fun hq tn response stocks htn hm hr => ?_⟩
  have hc := h.screens vc w hw
  have harr := hc.arrivals
  rw [hq,List.append_nil] at harr
  apply hnew (tn,stocks)
  rw [harr]
  refine ⟨mem_results.mpr ⟨List.mem_of_getLast? htn,response,hm,hr⟩,fun d hd => ?_⟩
  have hin : d.1∈w.typed := (mem_results.mp hd).1
  obtain ⟨ini,hini⟩ := List.getLast?_eq_some_iff.mp htn
  have hsort := hc.sorted
  rw [hini] at hin hsort
  cases List.mem_append.mp hin with
  | inl hin => exact ((List.pairwise_append.mp hsort).2.2 d.1 hin tn List.mem_cons_self).le
  | inr hin => exact (List.mem_singleton.mp hin).le

theorem receivedBy_mainQueue (hs : s.runMainQueue=some t) (vc : ℕ) :
    t.receivedBy vc=s.receivedBy vc++s.shownOn vc .mainQueue := by
  cases App.runMainQueue_cases hs with
  | inl hnil => simp [App.shownOn,hnil.1,hnil.2]
  | inr hex =>
    obtain ⟨block,rest,hq,hp⟩ := hex
    cases hp with
    | refreshStocks | unwindFromSearchVC | reloadData =>
      have hnone : s.shownOn vc .mainQueue=[] := by simp [App.shownOn,hq]
      rw [hnone,List.append_nil]
      rfl
    | searchResults =>
      next task w stocks =>
      simp only [App.receivedBy,App.shownOn,hq,List.getElem?_modify]
      cases s.searchVCs[vc]? with
      | none => rfl
      | some v => by_cases hw : w=vc <;> simp [hw,SearchVC.showResults]

theorem received_nodup {vc : ℕ} {v : SearchVC} (h : s.Searching)
    (hv : s.searchVCs[vc]?=some v) : (v.received.map Prod.fst).Nodup := by
  have hres := (results_sublist v.typed s.history.searchAnswers).nodup h.tickets.answered_nodup
  rw [← (h.screens vc v hv).arrivals,List.map_append] at hres
  exact (List.nodup_append'.mp hres).1

variable [Zero P] [One P] {env : Env P} {portfolio : List (RealmStock P)}
  {users : List RealmUser} {firebase : List (String × Json P)} {clock : DateFields}
  {es : List (Event P)}

/-- A step adds to a screen the results it shows there. -/
theorem receivedBy_step {e : Event P} (hs : s.step env e=some t) (vc : ℕ) :
    t.receivedBy vc=s.receivedBy vc++s.shownOn vc e := by
  by_cases he : e=.mainQueue
  · subst he
    exact receivedBy_mainQueue hs vc
  have hnone : s.shownOn vc e=[] := by
    cases e with
    | mainQueue => exact absurd rfl he
    | _ => rfl
  rw [hnone,List.append_nil]
  cases App.step_cases hs with
  | other hview =>
    have hsame := hview.sameStore
    rw [App.receivedBy,hsame.searchVCs]
    rfl
  | refreshStocks | quoteReply | searchReply | deleteRow => rfl
  | mainQueue => exact absurd rfl he
  | openSearchVC =>
    simp only [App.receivedBy,List.getElem?_append]
    split_ifs with hlt
    · rfl
    · rw [List.getElem?_eq_none (Nat.le_of_not_lt hlt)]
      cases hd : [({} : SearchVC)][vc-s.searchVCs.length]? with
      | none => rfl
      | some v =>
        rw [List.mem_singleton.mp (List.mem_of_getElem? hd)]
        rfl
  | textDidChange hv =>
    next w text v =>
    simp only [App.receivedBy,App.textDidChange,hv,List.getElem?_modify]
    cases s.searchVCs[vc]? with
    | none => rfl
    | some u => by_cases hw : w=vc <;> simp [hw]
  | didSelectRow hv =>
    next w r v shown stock hr hd =>
    simp only [App.receivedBy,App.getStockData,App.selected,List.getElem?_set]
    by_cases hw : w=vc
    · subst hw
      rw [if_pos rfl,if_pos (List.getElem?_eq_some_iff.mp hv).1,hv]
      rfl
    · rw [if_neg hw]

/-- At most one more result. -/
theorem receivedBy_step_one {e : Event P} (hs : s.step env e=some t) (vc : ℕ) :
    t.receivedBy vc=s.receivedBy vc ∨ ∃d,t.receivedBy vc=s.receivedBy vc++[d] := by
  rw [receivedBy_step hs vc]
  have hone : s.shownOn vc e=[] ∨ ∃d,s.shownOn vc e=[d] := by
    unfold App.shownOn
    split
    · split
      · split_ifs
        · exact Or.inr ⟨_,rfl⟩
        · exact Or.inl rfl
      · exact Or.inl rfl
    · exact Or.inl rfl
  cases hone with
  | inl hnil =>
    rw [hnil]
    exact Or.inl (List.append_nil _)
  | inr hex =>
    obtain ⟨d,hd⟩ := hex
    exact Or.inr ⟨d,by rw [hd]⟩

/-- The results on a screen are those shown by the events of the run. -/
theorem receivedBy_of_run
    (h : run (App.step env) (App.launch portfolio users firebase clock) es=some s) (vc : ℕ) :
    s.receivedBy vc=emitted (App.step env) (App.shownOn vc)
      (App.launch portfolio users firebase clock) es := by
  refine run_emits (R := fun u l => u.receivedBy vc=l) (l := []) h rfl ?_
  intro u e v l hu hv
  rw [receivedBy_step hv vc,hu]

theorem searching_of_run
    (h : run (App.step env) (App.launch portfolio users firebase clock) es=some s) : s.Searching :=
  run_invariant h (App.Searching.launch portfolio users firebase clock)
    (fun _ _ _ hu hv => hu.step hv)

/-- Where the newest results are shown at all times, they arrived in order. -/
theorem inOrder_of_newest
    (h : run (App.step env) (App.launch portfolio users firebase clock) es=some s)
    {vc : ℕ} {v : SearchVC} (hv : s.searchVCs[vc]?=some v)
    (hall : ∀fs u w,fs <+: es →
      run (App.step env) (App.launch portfolio users firebase clock) fs=some u →
      u.searchVCs[vc]?=some w → ∀m,IsLatest w.received m → w.tableData=m.2) :
    InOrder v.received := by
  refine (neverGoesBack_iff [] (received_nodup (searching_of_run h) hv)).mp ?_
  intro pre hpre m hm
  -- the run passes through the moment when `pre` had arrived
  rw [← App.receivedBy_eq hv] at hpre
  obtain ⟨fs,u,hfs,hu,hpu⟩ := run_passes_prefix h (f := App.receivedBy vc)
    (fun _ _ _ hs => receivedBy_step_one hs vc) List.nil_prefix hpre
  cases hw : u.searchVCs[vc]? with
  | none =>
    have he : pre=[] := by rw [← hpu,App.receivedBy,hw]; rfl
    rw [he] at hm
    exact absurd hm.1 List.not_mem_nil
  | some w =>
    have he : w.received=pre := by rw [← App.receivedBy_eq hw,hpu]
    have hshown := ((searching_of_run hu).screens vc w hw).shown
    rw [← he] at hm ⊢
    rw [← hshown]
    exact hall fs u w hfs hu hw m hm

/-- Where the results arrived in order, the newest were shown all along. -/
theorem shows_of_inOrder
    (h : run (App.step env) (App.launch portfolio users firebase clock) es=some s)
    {vc : ℕ} {v : SearchVC} (hv : s.searchVCs[vc]?=some v) (hord : InOrder v.received)
    {fs : List (Event P)} {u : App P} {w : SearchVC} (hfs : fs <+: es)
    (hu : run (App.step env) (App.launch portfolio users firebase clock) fs=some u)
    (hw : u.searchVCs[vc]?=some w) : ShowsLatest u vc w := by
  have hback := (neverGoesBack_iff [] (received_nodup (searching_of_run h) hv)).mpr hord
  obtain ⟨gs,_,hrest⟩ := run_of_prefix _ hfs hu h
  have hpre := run_record_prefix hrest (f := App.receivedBy vc)
    (fun _ _ _ hs => receivedBy_step_one hs vc)
  rw [App.receivedBy_eq hv,App.receivedBy_eq hw] at hpre
  have hinv := searching_of_run hu
  refine ShowsLatest.of_newest hinv hw (fun m hm => ?_)
  rw [(hinv.screens vc w hw).shown]
  exact hback w.received hpre m hm

/-- Along a run the screen never goes back to the results of an earlier text
exactly when each result that arrives is for a text typed later than all those
before it, or equal to the newest of them. -/
theorem search_shows_latest_iff
    (h : run (App.step env) (App.launch portfolio users firebase clock) es=some s)
    {vc : ℕ} {v : SearchVC} (hv : s.searchVCs[vc]?=some v) :
    (∀fs u w,fs <+: es →
      run (App.step env) (App.launch portfolio users firebase clock) fs=some u →
      u.searchVCs[vc]?=some w → ShowsLatest u vc w) ↔ InOrder v.received := by
  constructor
  · intro hall
    exact inOrder_of_newest h hv (fun fs u w hfs hu hw => (hall fs u w hfs hu hw).newest)
  · intro hord fs u w hfs hu hw
    exact shows_of_inOrder h hv hord hfs hu hw

/-- Two texts typed, and both lists arriving in the order typed. -/
theorem search_shows_latest_in_order :
    ∃s v,run (App.step App.sampleEnv) (App.sampleLaunch [])
        [.openSearchVC,.textDidChange 0 "f",.textDidChange 0 "fb",
          .searchReply 1 (App.sampleSearchReply [⟨"Ford","F"⟩,⟨"Facebook","FB"⟩]),.mainQueue,
          .searchReply 2 (App.sampleSearchReply [⟨"Facebook","FB"⟩]),.mainQueue]=some s ∧
      s.searchVCs[0]?=some v ∧ v.received.length=2 ∧ ShowsLatest s 0 v := by
  obtain ⟨s,v,hs,hv,hr⟩ : ∃s v,run (App.step App.sampleEnv) (App.sampleLaunch [])
        [.openSearchVC,.textDidChange 0 "f",.textDidChange 0 "fb",
          .searchReply 1 (App.sampleSearchReply [⟨"Ford","F"⟩,⟨"Facebook","FB"⟩]),.mainQueue,
          .searchReply 2 (App.sampleSearchReply [⟨"Facebook","FB"⟩]),.mainQueue]=some s ∧
      s.searchVCs[0]?=some v ∧
      v.received=[(1,[⟨"Ford","F"⟩,⟨"Facebook","FB"⟩]),(2,[⟨"Facebook","FB"⟩])] :=
    ⟨_,_,rfl,rfl,rfl⟩
  have hord : InOrder v.received := by
    rw [hr]
    exact InOrder.of_pairwise (by decide)
  exact ⟨s,v,hs,hv,by rw [hr]; rfl,
    (search_shows_latest_iff hs hv).mpr hord _ s v (List.prefix_refl _) hs hv⟩

/-- The two replies in the other order leave the results for the first text on
screen, with nothing pending and the request for the second one successful. -/
theorem search_goes_back :
    ¬∀(es : List (Event ℕ)) (s : App ℕ) (vc : ℕ) (v : SearchVC),
      run (App.step App.sampleEnv) (App.sampleLaunch []) es=some s →
      s.searchVCs[vc]?=some v → ShowsLatest s vc v := by
  intro h
  have hlatest := h [.openSearchVC,.textDidChange 0 "f",.textDidChange 0 "fb",
    .searchReply 2 (App.sampleSearchReply [⟨"Facebook","FB"⟩]),.mainQueue,
    .searchReply 1 (App.sampleSearchReply [⟨"Ford","F"⟩,⟨"Facebook","FB"⟩]),.mainQueue]
    _ 0 _ rfl rfl
  have hshown := hlatest.settled rfl 2 (App.sampleSearchReply [⟨"Facebook","FB"⟩])
    [⟨"Facebook","FB"⟩] rfl (.head _) rfl
  exact absurd (congrArg List.length hshown) (by decide)

end SStock
