import SStock.Portfolio.Requests

namespace SStock

open Framework StockManager

variable {P : Type} [Zero P] [One P]

namespace App

variable {env : Env P} {s t u : App P} {reply : ℕ → Response P}

/-- The stock that the refresh started in `s` gets for row `i`, if the URL is
accepted and the reply has one. -/
def fetched (env : Env P) (s : App P) (reply : ℕ → Response P) (i : ℕ) (row : Row P) :
    Option (RealmStock P) :=
  if env.nsurlAccepts (stockDataURL s.clock row.stock.datasetCode) then
    (getStockDataReply (escapedQuery row.stock.datasetCode) (reply i)).result
  else none

/-- Row `i` after the refresh. -/
def refreshed (env : Env P) (s : App P) (reply : ℕ → Response P) (i : ℕ) (row : Row P) : Row P :=
  match s.fetched env reply i row with
  | some data => ⟨row.obj,row.stock.setQuote data.quote⟩
  | none => row

theorem refreshed_of_fetched {i : ℕ} {row : Row P} {data : RealmStock P}
    (h : s.fetched env reply i row=some data) :
    s.refreshed env reply i row=⟨row.obj,row.stock.setQuote data.quote⟩ := by
  rw [refreshed,h]

theorem refreshed_of_none {i : ℕ} {row : Row P} (h : s.fetched env reply i row=none) :
    s.refreshed env reply i row=row := by
  rw [refreshed,h]

/-- While the refresh lasts no other one is started and no row is deleted, and
the request for row `i` is answered by `reply i`. -/
def InCycle (s : App P) (reply : ℕ → Response P) : Event P → Prop
  | .refreshStocks => False
  | .deleteRow _ => False
  | .quoteReply id response => ∀i<s.realm.rows.length,id=s.nextTask+i → response=reply i
  | _ => True

/-- The state of a refresh started in `s`: requests and blocks are those of the
rows, and every row has been refreshed, is being asked for or is queued. -/
structure Cycle (env : Env P) (s : App P) (reply : ℕ → Response P) (u : App P) : Prop where
  tasks : ∀task∈u.quoteTasks,∀i obj version,task.completion=.refreshStocks i obj version →
    task.id=s.nextTask+i ∧ ∃row,s.realm.rows[i]?=some row ∧ task.text=row.stock.datasetCode ∧
      env.nsurlAccepts (stockDataURL s.clock row.stock.datasetCode)=true
  blocks : ∀task i obj version data,Block.refreshStocks task i obj version data∈u.mainQueue →
    ∃row,s.realm.rows[i]?=some row ∧ s.fetched env reply i row=some data
  rows : ∀i row,s.realm.rows[i]?=some row →
    u.realm.rows[i]?=some row ∨ u.realm.rows[i]?=some (s.refreshed env reply i row)
  progress : ∀i row,s.realm.rows[i]?=some row →
    u.realm.rows[i]?=some (s.refreshed env reply i row) ∨
      (∃task∈u.quoteTasks,task.id=s.nextTask+i ∧
        ∃obj version,task.completion=.refreshStocks i obj version) ∨
      ∃task obj version data,Block.refreshStocks task i obj version data∈u.mainQueue

namespace Cycle

/-- Steps that leave the requests and the blocks of the refresh alone, and the
rows it is for. -/
theorem frame (h : Cycle env s reply u)
    (htasks : ∀task,task.completion≠.unwindFromSearchVC →
      (task∈t.quoteTasks ↔ task∈u.quoteTasks))
    (hqueue : ∀task i obj version data,Block.refreshStocks task i obj version data∈t.mainQueue ↔
      Block.refreshStocks task i obj version data∈u.mainQueue)
    (hrows : ∀i<s.realm.rows.length,t.realm.rows[i]?=u.realm.rows[i]?) :
    Cycle env s reply t := by
  have hsame {i : ℕ} {row : Row P} (hr : s.realm.rows[i]?=some row) :
      t.realm.rows[i]?=u.realm.rows[i]? := hrows i (List.getElem?_eq_some_iff.mp hr).1
  refine ⟨?_,?_,?_,?_⟩
  · intro task hm i obj version hc
    exact h.tasks task ((htasks task (by simp [hc])).mp hm) i obj version hc
  · intro task i obj version data hb
    exact h.blocks task i obj version data ((hqueue _ _ _ _ _).mp hb)
  · intro i row hr
    rw [hsame hr]
    exact h.rows i row hr
  · intro i row hr
    rw [hsame hr]
    rcases h.progress i row hr with hdone|⟨task,hm,hid,obj,version,hc⟩|⟨task,obj,version,data,hb⟩
    · exact Or.inl hdone
    · exact Or.inr (Or.inl ⟨task,(htasks task (by simp [hc])).mpr hm,hid,obj,version,hc⟩)
    · exact Or.inr (Or.inr ⟨task,obj,version,data,(hqueue _ _ _ _ _).mpr hb⟩)

/-- The loop has asked for every row whose URL is accepted. -/
theorem refreshStocks (htasks : s.quoteTasks=[]) (hqueue : s.mainQueue=[]) :
    Cycle env s reply (s.refreshStocks env) := by
  have heq := refreshStocks_requests env s
  rw [htasks,List.nil_append] at heq
  rw [heq]
  refine ⟨?_,?_,fun i row hr => Or.inl hr,?_⟩
  · intro task hm i obj version hc
    obtain ⟨hm,ha⟩ := List.mem_filter.mp hm
    obtain ⟨entry,he,rfl⟩ := List.mem_map.mp hm
    have hrow := List.mem_zipIdx_iff_getElem?.mp he
    cases hc
    exact ⟨rfl,entry.1,hrow,rfl,ha⟩
  · intro task i obj version data hb
    have hb' : Block.refreshStocks task i obj version data∈s.mainQueue := hb
    rw [hqueue] at hb'
    cases hb'
  · intro i row hr
    by_cases ha : env.nsurlAccepts (stockDataURL s.clock row.stock.datasetCode)
    · have hentry : (row,i)∈s.realm.rows.zipIdx := List.mem_zipIdx_iff_getElem?.mpr hr
      exact Or.inr (Or.inl ⟨_,List.mem_filter.mpr ⟨List.mem_map_of_mem hentry,ha⟩,rfl,_,_,rfl⟩)
    · have hnone : s.fetched env reply i row=none := if_neg ha
      left
      rw [refreshed_of_none hnone]
      exact hr

/-- The answer to a request of the refresh has what its row is to get. -/
theorem fetched_of_answer (h : Cycle env s reply u) {task : QuoteTask} (hm : task∈u.quoteTasks)
    {i obj version : ℕ} (hc : task.completion=.refreshStocks i obj version)
    {response : Response P}
    (hreply : ∀i<s.realm.rows.length,task.id=s.nextTask+i → response=reply i) :
    task.id=s.nextTask+i ∧ ∃row,s.realm.rows[i]?=some row ∧
      s.fetched env reply i row=
        (getStockDataReply (escapedQuery task.text) response).result := by
  obtain ⟨hid,row,hr,htext,ha⟩ := h.tasks task hm i obj version hc
  have hresponse := hreply i (List.getElem?_eq_some_iff.mp hr).1 hid
  refine ⟨hid,row,hr,?_⟩
  rw [fetched,if_pos ha,htext,hresponse]

/-- An answer turns the request for its row into a block, or leaves the row as
it is if the reply has no quote. -/
theorem answered (h : Cycle env s reply u) (hn : (u.quoteTasks.map QuoteTask.id).Nodup)
    {task : QuoteTask} (hm : task∈u.quoteTasks) {response : Response P}
    (hreply : ∀i<s.realm.rows.length,task.id=s.nextTask+i → response=reply i) :
    Cycle env s reply (u.answered task response) := by
  have hkeep {other : QuoteTask} (ho : other∈u.quoteTasks) (hne : other≠task) :
      other∈(u.answered task response).quoteTasks := by
    refine List.mem_filter.mpr ⟨ho,decide_eq_true fun hid => hne ?_⟩
    exact List.inj_on_of_nodup_map hn ho hm hid
  cases hc : task.completion with
  | unwindFromSearchVC =>
    refine h.frame ?_ ?_ (fun _ _ => rfl)
    · intro other hother
      refine ⟨List.mem_of_mem_filter,fun ho => hkeep ho ?_⟩
      rintro rfl
      exact hother hc
    · intro k i obj version data
      refine ⟨fun hb => ?_,fun hb => List.mem_append_left _ hb⟩
      cases mem_mainQueue_answered hb with
      | inl hb => exact hb
      | inr hnew =>
        obtain ⟨data',_,hblock⟩ := hnew
        rw [hc] at hblock
        cases hblock
  | refreshStocks i obj version =>
    obtain ⟨hid,row,hr,hfetched⟩ := h.fetched_of_answer hm hc hreply
    refine ⟨fun other ho => h.tasks other (List.mem_of_mem_filter ho),?_,h.rows,?_⟩
    · intro k j o v data hb
      cases mem_mainQueue_answered hb with
      | inl hb => exact h.blocks k j o v data hb
      | inr hnew =>
        obtain ⟨data',hdata,hblock⟩ := hnew
        rw [hc] at hblock
        cases hblock
        exact ⟨row,hr,by rw [hfetched,hdata]; rfl⟩
    · intro j row' hr'
      by_cases hj : j=i
      · subst hj
        obtain rfl : row=row' := Option.some.inj (hr.symm.trans hr')
        cases hf : s.fetched env reply j row with
        | none =>
          left
          rw [refreshed_of_none hf]
          have hrow := h.rows j row hr
          rw [refreshed_of_none hf,or_self] at hrow
          exact hrow
        | some data =>
          refine Or.inr (Or.inr ⟨task.id,obj,version,data,List.mem_append_right _ ?_⟩)
          rw [hfetched] at hf
          rw [hf,hc]
          exact List.mem_singleton_self _
      · rcases h.progress j row' hr' with hdone|⟨other,ho,hoid,hcomp⟩|⟨k,o,v,data,hb⟩
        · exact Or.inl hdone
        · refine Or.inr (Or.inl ⟨other,hkeep ho ?_,hoid,hcomp⟩)
          rintro rfl
          omega
        · exact Or.inr (Or.inr ⟨k,o,v,data,List.mem_append_left _ hb⟩)

/-- The write of a block refreshes its row, done before or not, and no other. -/
theorem written (h : Cycle env s reply u) {k i obj version : ℕ} {data : RealmStock P}
    (hb : Block.refreshStocks k i obj version data∈u.mainQueue) {realm : Realm P}
    (hw : u.realm.write? i k data=some realm) :
    ∃row,s.realm.rows[i]?=some row ∧ ∀j,realm.rows[j]?=
      if i=j then some (s.refreshed env reply i row) else u.realm.rows[j]? := by
  obtain ⟨row,hr,hf⟩ := h.blocks k i obj version data hb
  obtain ⟨now,hnow,hrows,_⟩ := Realm.write?_eq_some hw
  have hlt := (List.getElem?_eq_some_iff.mp hnow).1
  have hwritten : (⟨now.obj,now.stock.setQuote data.quote⟩ : Row P)=
      s.refreshed env reply i row := by
    rw [refreshed_of_fetched hf]
    cases h.rows i row hr with
    | inl hold => rw [Option.some.inj (hnow.symm.trans hold)]
    | inr hnew =>
      rw [Option.some.inj (hnow.symm.trans hnew),refreshed_of_fetched hf,
        RealmStock.setQuote_setQuote]
  refine ⟨row,hr,fun j => ?_⟩
  rw [hrows,List.getElem?_set,hwritten]
  split_ifs <;> rfl

/-- A block refreshes its row; an insertion comes behind all rows. -/
theorem performed {block : Block P} {rest : List (Block P)} (h : Cycle env s reply u)
    (hq : u.mainQueue=block::rest) (hp : Performed {u with mainQueue := rest} block t) :
    Cycle env s reply t := by
  have hother (hb : ∀k i obj version data,block≠.refreshStocks k i obj version data)
      (k i obj version : ℕ) (data : RealmStock P) :
      Block.refreshStocks k i obj version data∈rest ↔
        Block.refreshStocks k i obj version data∈u.mainQueue := by
    rw [hq,List.mem_cons]
    exact ⟨Or.inr,fun hm => hm.resolve_left fun he => hb _ _ _ _ _ he.symm⟩
  cases hp with
  | refreshStocks hw =>
    next k i obj version data realm =>
    obtain ⟨row,hr,hget⟩ := h.written (hq ▸ List.mem_cons_self) hw
    refine ⟨h.tasks,fun k' j o v d hb => h.blocks k' j o v d (hq ▸ List.mem_cons_of_mem _ hb),
      ?_,?_⟩
    · intro j row' hr'
      change realm.rows[j]?=_ ∨ realm.rows[j]?=_
      rw [hget]
      split_ifs with hij
      · subst hij
        rw [Option.some.inj (hr.symm.trans hr')]
        exact Or.inr rfl
      · exact h.rows j row' hr'
    · intro j row' hr'
      change realm.rows[j]?=_ ∨ _
      rw [hget]
      split_ifs with hij
      · subst hij
        rw [Option.some.inj (hr.symm.trans hr')]
        exact Or.inl rfl
      · rcases h.progress j row' hr' with hdone|htask|⟨k',o,v,d,hb⟩
        · exact Or.inl hdone
        · exact Or.inr (Or.inl htask)
        · rw [hq] at hb
          cases List.mem_cons.mp hb with
          | inl he =>
            cases he
            exact absurd rfl hij
          | inr hb => exact Or.inr (Or.inr ⟨k',o,v,d,hb⟩)
  | unwindFromSearchVC =>
    refine h.frame (fun _ _ => Iff.rfl) (hother (by simp)) (fun i hi => ?_)
    obtain ⟨row,hr⟩ : ∃row,s.realm.rows[i]?=some row := ⟨_,List.getElem?_eq_getElem hi⟩
    have hlt : i<u.realm.rows.length := by
      cases h.rows i row hr with
      | inl hold => exact (List.getElem?_eq_some_iff.mp hold).1
      | inr hnew => exact (List.getElem?_eq_some_iff.mp hnew).1
    exact List.getElem?_append_left hlt
  | reloadData | searchResults =>
    exact h.frame (fun _ _ => Iff.rfl) (hother (by simp)) (fun _ _ => rfl)

theorem step {e : Event P} (h : Cycle env s reply u)
    (hn : (u.quoteTasks.map QuoteTask.id).Nodup) (he : s.InCycle reply e)
    (hs : u.step env e=some t) : Cycle env s reply t := by
  cases step_cases hs with
  | other hview =>
    have hsame := hview.sameStore
    exact h.frame (fun _ _ => by rw [hsame.quoteTasks]) (fun _ _ _ _ _ => by rw [hsame.mainQueue])
      (fun _ _ => by rw [hsame.realm])
  | refreshStocks | deleteRow => exact absurd he id
  | quoteReply hm => exact h.answered hn hm he
  | searchReply hm =>
    refine h.frame (fun _ _ => Iff.rfl) (fun k i obj version data => ?_) (fun _ _ => rfl)
    refine ⟨fun hb => ?_,fun hb => List.mem_append_left _ hb⟩
    cases mem_mainQueue_searchAnswered hb with
    | inl hb => exact hb
    | inr hnew =>
      obtain ⟨stocks,hblock⟩ := hnew
      cases hblock
  | mainQueue hq hp => exact h.performed hq hp
  | openSearchVC => exact h.frame (fun _ _ => Iff.rfl) (fun _ _ _ _ _ => Iff.rfl) (fun _ _ => rfl)
  | textDidChange hv =>
    rw [App.textDidChange,hv]
    exact h.frame (fun _ _ => Iff.rfl) (fun _ _ _ _ _ => Iff.rfl) (fun _ _ => rfl)
  | didSelectRow =>
    refine h.frame (fun task hc => ?_) (fun _ _ _ _ _ => Iff.rfl) (fun _ _ => rfl)
    refine ⟨fun hm => ?_,fun hm => ?_⟩
    · cases Tickets.mem_of_mem_issued hm with
      | inl hm => exact hm
      | inr heq =>
        rw [heq] at hc
        exact absurd rfl hc
    · rw [getStockData]
      split_ifs
      · exact List.mem_append_left _ hm
      · exact hm

end Cycle

end App

variable {env : Env P} {portfolio : List (RealmStock P)}
  {users : List RealmUser} {firebase : List (String × Json P)} {clock : DateFields}
  {es fs : List (Event P)} {s t : App P}

/-- A refresh from an idle state, with no second one and no deletion before it
is over, does what it is for: in whichever order replies, failures, turns, taps,
searches and shares come, once nothing is in flight or queued any more each row
has the quote of its own reply, or is as before if there was none. -/
theorem refresh_cycle
    (h : run (App.step env) (App.launch portfolio users firebase clock) es=some s)
    (htasks : s.quoteTasks=[]) (hqueue : s.mainQueue=[]) (reply : ℕ → Response P)
    (hfs : ∀f∈fs,s.InCycle reply f) (hrun : run (App.step env) s (.refreshStocks::fs)=some t)
    (ht : t.quoteTasks=[]) (hq : t.mainQueue=[]) :
    ∀i row,s.realm.rows[i]?=some row → t.realm.rows[i]?=some (s.refreshed env reply i row) := by
  have hstart : run (App.step env) (s.refreshStocks env) fs=some t := hrun
  obtain ⟨hsearch,horigins⟩ := origins_of_run h
  have hstep : s.step env .refreshStocks=some (s.refreshStocks env) := rfl
  have hcycle := run_invariant_of
    (I := fun u => App.Cycle env s reply u ∧ u.Searching ∧ u.Origins portfolio) hstart hfs
    ⟨App.Cycle.refreshStocks htasks hqueue,hsearch.step hstep,horigins.step hsearch hstep⟩
    (fun u e v he ⟨hu,husearch,huorigins⟩ hv =>
      ⟨hu.step (List.nodup_append'.mp huorigins.tickets.nodup).1 he hv,husearch.step hv,
        huorigins.step husearch hv⟩)
  intro i row hr
  rcases hcycle.1.progress i row hr with hdone|⟨task,hm,_⟩|⟨task,obj,version,data,hb⟩
  · exact hdone
  · rw [ht] at hm
    cases hm
  · rw [hq] at hb
    cases hb

/-- Two rows, the replies in the other order and the second one a failure. -/
theorem refresh_cycle_reversed :
    ∃t,run (App.step App.sampleEnv)
        (App.sampleLaunch [App.sampleStock "FB" 3,App.sampleStock "GE" 5])
        [.refreshStocks,.quoteReply 2 .error,
          .quoteReply 1 (App.sampleReply "FB" "2016-04-08" 4),.mainQueue]=some t ∧
      (t.realm.rows[0]?.map fun row => row.stock.close)=some 4 ∧
      (t.realm.rows[1]?.map fun row => row.stock.close)=some 5 := by
  let s := App.sampleLaunch [App.sampleStock "FB" 3,App.sampleStock "GE" 5]
  let reply (i : ℕ) : Response ℕ := if i=0 then App.sampleReply "FB" "2016-04-08" 4 else .error
  obtain ⟨t,hrun,ht,hq⟩ : ∃t,run (App.step App.sampleEnv) s
      [.refreshStocks,.quoteReply 2 .error,
        .quoteReply 1 (App.sampleReply "FB" "2016-04-08" 4),.mainQueue]=some t ∧
      t.quoteTasks=[] ∧ t.mainQueue=[] := ⟨_,rfl,rfl,rfl⟩
  have hfs : ∀f∈([.quoteReply 2 .error,.quoteReply 1 (App.sampleReply "FB" "2016-04-08" 4),
      .mainQueue] : List (Event ℕ)),s.InCycle reply f := by
    simp only [List.forall_mem_cons,List.not_mem_nil,false_implies,implies_true,and_true]
    refine ⟨fun i _ hi => ?_,fun i _ hi => ?_,trivial⟩
    · have hi' : 2=1+i := hi
      simp [reply,show i=1 by omega]
    · have hi' : 1=1+i := hi
      simp [reply,show i=0 by omega]
  have hs : run (App.step App.sampleEnv) s []=some s := rfl
  have hrows := refresh_cycle hs rfl rfl reply hfs hrun ht hq
  refine ⟨t,hrun,?_,?_⟩
  · rw [hrows 0 ⟨0,App.sampleStock "FB" 3⟩ rfl]
    rfl
  · rw [hrows 1 ⟨1,App.sampleStock "GE" 5⟩ rfl]
    rfl

end SStock
