import SStock.Portfolio.CrashFree

namespace SStock

open Framework StockManager

variable {P : Type}

namespace App

/-- What is left to do when the user does nothing more: a reply for each
request, which may queue a block, and a turn for each block. -/
def work (s : App P) : ℕ := 2*(s.quoteTasks.length+s.searchTasks.length)+s.mainQueue.length

/-- A well-shaped reply to a pending request, or a turn with a block to run. -/
def Productive (s : App P) : Event P → Prop
  | .quoteReply id response => response.QuoteGuarded ∧ id∈s.quoteTasks.map QuoteTask.id
  | .searchReply id response => response.SearchGuarded ∧ id∈s.searchTasks.map SearchTask.id
  | .mainQueue => s.mainQueue≠[]
  | _ => False

/-- No request in flight and no block on the main queue. -/
def Quiescent (s : App P) : Prop := s.quoteTasks=[] ∧ s.searchTasks=[] ∧ s.mainQueue=[]

variable {env : Env P} {s t : App P} {e : Event P}

theorem Productive.sound (h : s.Productive e) : e.Sound := by
  cases e with
  | quoteReply | searchReply => exact h.1
  | mainQueue => trivial
  | _ => cases h

theorem Productive.indexed (h : s.Productive e) : s.indexed e=none := by
  cases e with
  | quoteReply | searchReply | mainQueue => rfl
  | _ => cases h

theorem Productive.not_row (h : s.Productive e) : (∀r,e≠.deleteRow r) ∧ ∀r,e≠.shareRow r := by
  refine ⟨fun r he => ?_,fun r he => ?_⟩
  · subst he
    cases h
  · subst he
    cases h

/-- A state that is not quiescent has something to go on with: any pending
request may fail, and any block may run. -/
theorem quiescent_iff (s : App P) : s.Quiescent ↔ ∀e,¬s.Productive e := by
  constructor
  · intro ⟨hquote,hsearch,hqueue⟩ e he
    cases e with
    | quoteReply id response => simpa [hquote] using he.2
    | searchReply id response => simpa [hsearch] using he.2
    | mainQueue => exact he hqueue
    | _ => cases he
  · intro hall
    refine ⟨?_,?_,?_⟩
    · refine List.eq_nil_iff_forall_not_mem.mpr (fun task hm => ?_)
      refine hall (.quoteReply task.id .error) ⟨⟨by simp,?_⟩,List.mem_map_of_mem hm⟩
      rintro name rows ⟨members,_,hr,_⟩
      cases hr
    · refine List.eq_nil_iff_forall_not_mem.mpr (fun task hm => ?_)
      exact hall (.searchReply task.id .error)
        ⟨⟨by simp,by simp [Response.datasets]⟩,List.mem_map_of_mem hm⟩
    · by_contra hne
      exact hall .mainQueue hne

theorem length_filter_ne_lt {α : Type} (key : α → ℕ) {l : List α} {a : α} (h : a∈l) :
    (l.filter fun b => key b≠key a).length<l.length :=
  List.length_filter_lt_length_iff_exists.mpr ⟨a,h,by simp⟩

theorem work_answered [Zero P] [One P] {task : QuoteTask} (h : task∈s.quoteTasks) (response : Response P) :
    (s.answered task response).work<s.work := by
  have hlt := length_filter_ne_lt QuoteTask.id h
  have hle : ((getStockDataReply (escapedQuery task.text) response).result.map
      (task.completion.block task.id)).toList.length≤1 := Option.length_toList_le
  simp only [work,answered,List.length_append]
  omega

theorem work_searchAnswered {task : SearchTask} (h : task∈s.searchTasks)
    (response : Response P) : (s.searchAnswered task response).work<s.work := by
  have hlt := length_filter_ne_lt SearchTask.id h
  have hle : ((StockManager.searchReply response).result.map
      (Block.searchResults (P := P) task.id task.vc)).toList.length≤1 := Option.length_toList_le
  simp only [work,searchAnswered,List.length_append]
  omega

/-- Running a block starts no request and queues no block. -/
theorem Performed.work {block : Block P} (h : Performed s block t) : t.work=s.work := by
  cases h <;> rfl

/-- A productive event does some of the work. -/
theorem Productive.work_lt [Zero P] [One P] (h : s.Productive e) (hquote : (s.quoteTasks.map QuoteTask.id).Nodup)
    (hsearch : (s.searchTasks.map SearchTask.id).Nodup) (hs : s.step env e=some t) :
    t.work<s.work := by
  cases e with
  | quoteReply id response =>
    obtain ⟨hg,hid⟩ := h
    obtain ⟨task,hm,rfl⟩ := List.mem_map.mp hid
    have ht := quoteReply_of_mem hquote hm (getStockDataReply_ne_trapped hg _)
    cases ht.symm.trans hs
    exact work_answered hm response
  | searchReply id response =>
    obtain ⟨hg,hid⟩ := h
    obtain ⟨task,hm,rfl⟩ := List.mem_map.mp hid
    have ht := searchReply_of_mem hsearch hm (searchReply_ne_trapped hg)
    cases ht.symm.trans hs
    exact work_searchAnswered hm response
  | mainQueue =>
    cases runMainQueue_cases hs with
    | inl hnil => exact absurd hnil.1 h
    | inr hex =>
      obtain ⟨block,rest,hq,hp⟩ := hex
      rw [hp.work]
      simp only [work,hq,List.length_cons]
      omega
  | _ => cases h

end App

variable [Zero P] [One P] {env : Env P} {portfolio : List (RealmStock P)}
  {users : List RealmUser} {firebase : List (String × Json P)} {clock : DateFields}
  {es fs : List (Event P)} {s : App P}

/-- When the user pauses, replies to what is pending and turns of the main queue
come to an end in any order: none of them traps, there are at most two for each
request and one for each block, and they stop only when nothing is in flight or
queued any more. -/
theorem every_schedule_settles
    (h : run (App.step env) (App.launch portfolio users firebase clock) es=some s)
    (hc : s.Captured) (hp : Along (App.step env) App.Productive s fs) :
    ∃t,run (App.step env) s fs=some t ∧ fs.length+t.work≤ s.work ∧
      (t.Quiescent ↔ ∀e,¬t.Productive e) := by
  -- the numbers of pending requests stay distinct on the way
  let I (u : App P) : Prop := u.Captured ∧
    ∃gs,run (App.step env) (App.launch portfolio users firebase clock) gs=some u
  have hstep : ∀u e,I u → u.Productive e →
      ∃v,u.step env e=some v ∧ I v ∧ v.work<u.work := by
    intro u e ⟨hu,gs,hgs⟩ he
    have hsome : (u.step env e).isSome :=
      hu.isSome_step he.sound (fun r cell hi => by simp [he.indexed] at hi)
    obtain ⟨v,hv⟩ := Option.isSome_iff_exists.mp hsome
    obtain ⟨hsearch,horigins⟩ := origins_of_run hgs
    have hlt := he.work_lt (List.nodup_append'.mp horigins.tickets.nodup).1
      (List.nodup_append'.mp hsearch.tickets.nodup).1 hv
    have hcaptured := hu.step he.not_row.1 (fun r hr => absurd hr (he.not_row.2 r)) hv
    exact ⟨v,hv,⟨hcaptured,gs++[e],(run_snoc_eq_some _).mpr ⟨u,hgs,hv⟩⟩,hlt⟩
  have hs : I s := ⟨hc,es,h⟩
  obtain ⟨t,ht,_,hle⟩ := hp.total_within hs hstep
  exact ⟨t,ht,hle,App.quiescent_iff t⟩

/-- One row refreshed: the reply and the turn of its block. -/
theorem every_schedule_settles_refresh :
    ∃s t,run (App.step App.sampleEnv) (App.sampleLaunch [App.sampleStock "FB" 3])
        [.refreshStocks]=some s ∧ s.work=2 ∧
      run (App.step App.sampleEnv) s
        [.quoteReply 1 (quoteResponse "FB" ⟨"2016-04-08",4,4,4,4⟩),.mainQueue]=some t ∧
      t.work=0 := by
  have hlaunch : App.InRange (App.sampleLaunch [App.sampleStock "FB" 3]) :=
    App.InRange.launch _ _ _ _
  obtain ⟨s,hs,hin⟩ : ∃s,run (App.step App.sampleEnv) (App.sampleLaunch [App.sampleStock "FB" 3])
      [.refreshStocks]=some s ∧ s.InRange := hlaunch.total (by simp [Event.Sound])
  have hwork : s.work=2 := by
    cases hs
    rfl
  have hp : Along (App.step App.sampleEnv) App.Productive s
      [.quoteReply 1 (quoteResponse "FB" ⟨"2016-04-08",4,4,4,4⟩),.mainQueue] := by
    cases hs
    refine ⟨⟨(quotes_quoteResponse _ _).guarded,.head _⟩,?_⟩
    intro t ht
    cases ht
    exact ⟨List.cons_ne_nil _ _,fun _ _ => trivial⟩
  obtain ⟨t,ht,hle,_⟩ := every_schedule_settles hs hin.toCaptured hp
  refine ⟨s,t,hs,hwork,ht,?_⟩
  rw [hwork] at hle
  simpa using hle

end SStock
