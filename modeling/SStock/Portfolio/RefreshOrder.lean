import SStock.Portfolio.Origins
import SStock.Portfolio.Tracking

namespace SStock

open Framework StockManager

variable {P : Type}

/-- The quotes for an object waiting in the main queue. -/
def pendingWrites (obj : ℕ) (queue : List (Block P)) : List (ℕ × Quote P) :=
  queue.filterMap fun
    | .refreshStocks task _ o _ data => if o=obj then some (task,data.quote) else none
    | _ => none

@[simp] theorem pendingWrites_append (obj : ℕ) (queue queue' : List (Block P)) :
    pendingWrites obj (queue++queue')=pendingWrites obj queue++pendingWrites obj queue' :=
  List.filterMap_append

theorem pendingWrites_cons (obj task i o version : ℕ) (data : RealmStock P)
    (rest : List (Block P)) :
    pendingWrites obj (.refreshStocks task i o version data::rest)=
      (if o=obj then [(task,data.quote)] else [])++pendingWrites obj rest := by
  by_cases h : o=obj <;> simp [pendingWrites,h]

/-- The object of a row was added and holds what was written to it last. -/
theorem Realm.quote_of_row {m : Realm P} {row : Row P} (hr : row∈m.rows) :
    ∃k stock,m.log[row.obj]?=some (.add k stock) ∧
      row.stock.quote=lastValue stock.quote (writes row.obj m.log) := by
  obtain ⟨k,stock,hadd,hstock⟩ := m.logged.origin row hr
  exact ⟨k,stock,hadd,by rw [hstock,RealmStock.quote_setQuote]⟩

section Refreshes

variable [Zero P] [One P]

/-- The quote a successful answer to a refresh request has for an object. -/
def Answer.refresh (obj : ℕ) (answer : Answer P) : Option (ℕ × Quote P) :=
  match answer.task.completion with
  | .refreshStocks _ o _ => if o=obj
      then (getStockDataReply (escapedQuery answer.task.text) answer.response).result.map
        fun data => (answer.task.id,data.quote)
      else none
  | .unwindFromSearchVC => none

theorem Answer.refresh_eq_some {obj : ℕ} {answer : Answer P} {d : ℕ × Quote P}
    (h : answer.refresh obj=some d) :
    answer.task.id=d.1 ∧ answer.response.HasQuote d.2 ∧
      ∃i version,answer.task.completion=.refreshStocks i obj version := by
  unfold Answer.refresh at h
  split at h
  · next i o version hc =>
    split_ifs at h with ho
    obtain ⟨data,hdata,rfl⟩ := Option.map_eq_some_iff.mp h
    exact ⟨rfl,(getStockDataReply_completed (Handled.result_eq_some.mp hdata)).2.2,i,version,
      ho ▸ hc⟩
  · cases h

theorem pendingWrites_block (obj : ℕ) (task : QuoteTask) (response : Response P) :
    pendingWrites obj ((getStockDataReply (escapedQuery task.text) response).result.map
      (task.completion.block task.id)).toList=(Answer.refresh obj ⟨task,response⟩).toList := by
  unfold Answer.refresh
  cases hc : task.completion with
  | refreshStocks i o version =>
    cases (getStockDataReply (escapedQuery task.text) response).result with
    | none => by_cases ho : o=obj <;> simp [pendingWrites,ho]
    | some data => by_cases ho : o=obj <;> simp [pendingWrites,Completion.block,ho]
  | unwindFromSearchVC =>
    cases (getStockDataReply (escapedQuery task.text) response).result <;> rfl

end Refreshes

namespace App

variable [Zero P] [One P]

/-- Nothing was deleted, so every object added is stored, and every answer to a
refresh request is, or will be, written to its own object, in the order of the
answers. -/
structure Refreshed (s : App P) : Prop where
  tracking : s.Tracking
  undeleted : ∀c∈s.realm.log,∀r,c.Keeps r
  stored : ∀(obj k : ℕ) stock,s.realm.log[obj]?=some (.add k stock) → obj∈s.realm.rows.map Row.obj
  fifo : ∀obj,writes obj s.realm.log++pendingWrites obj s.mainQueue=
    s.history.answers.filterMap (Answer.refresh obj)

namespace Refreshed

variable {env : Env P} {s t : App P}

theorem same (h : Refreshed s) (ht : t.Tracking) (hrealm : t.realm=s.realm)
    (hqueue : ∀obj,pendingWrites obj t.mainQueue=pendingWrites obj s.mainQueue)
    (hanswers : t.history.answers=s.history.answers) : Refreshed t := by
  refine ⟨ht,hrealm ▸ h.undeleted,hrealm ▸ h.stored,fun obj => ?_⟩
  rw [hrealm,hqueue,hanswers]
  exact h.fifo obj

/-- Without deletions a captured row is still the row of its object. -/
theorem resolves (h : Refreshed s) {m : Realm P} (hm : m=s.realm) {obj r version : ℕ}
    (htr : m.Tracks obj r version) {row : Row P} (hr : m.rows[r]?=some row) : row.obj=obj := by
  subst hm
  have hk : s.realm.KeptSince version r :=
    fun c hc => h.undeleted c (List.mem_of_mem_drop hc) r
  have ho := htr.resolves_iff.mpr hk
  simpa [hr] using ho

theorem performed {block : Block P} {rest : List (Block P)} (h : Refreshed s) (ht : t.Tracking)
    (hq : s.mainQueue=block::rest) (hp : Performed {s with mainQueue := rest} block t) :
    Refreshed t := by
  cases hp with
  | refreshStocks hw =>
    next task i obj version data realm =>
    obtain ⟨row,hr,hrows,hlog⟩ := Realm.write?_eq_some hw
    have htr := h.tracking.blocks task i obj version data (hq ▸ List.mem_cons_self)
    have ho : row.obj=obj := h.resolves rfl htr hr
    subst ho
    refine ⟨ht,?_,?_,fun o => ?_⟩
    · intro c hc r
      have hc' := hc
      rw [hlog,List.mem_append,List.mem_singleton] at hc'
      cases hc' with
      | inl hc' => exact h.undeleted c hc' r
      | inr heq =>
        subst heq
        trivial
    · intro o k stock hadd
      have hadd' := hadd
      rw [hlog] at hadd'
      show o∈realm.rows.map Row.obj
      rw [hrows,map_obj_set hr]
      cases getElem?_concat_cases hadd' with
      | inl hold => exact h.stored o k stock hold
      | inr hnew => exact nomatch hnew.2
    · have hfifo := h.fifo o
      rw [hq,pendingWrites_cons,← List.append_assoc] at hfifo
      rw [hlog,writes_append,writes_write]
      exact hfifo
  | unwindFromSearchVC =>
    next task data =>
    refine ⟨ht,?_,?_,fun o => ?_⟩
    · intro c hc r
      cases List.mem_append.mp hc with
      | inl hc => exact h.undeleted c hc r
      | inr hc =>
        rw [List.mem_singleton.mp hc]
        trivial
    · intro o k stock hadd
      show o∈(s.realm.rows++[(⟨s.realm.log.length,data⟩ : Row P)]).map Row.obj
      rw [List.map_append,List.mem_append]
      cases getElem?_concat_cases hadd with
      | inl hold => exact Or.inl (h.stored o k stock hold)
      | inr hnew => exact Or.inr (hnew.1 ▸ List.mem_singleton_self _)
    · have hfifo := h.fifo o
      rw [hq] at hfifo
      change writes o (s.realm.log++[.add task data])++_=_
      rw [writes_append,writes_add,List.append_nil]
      exact hfifo
  | reloadData | searchResults =>
    refine h.same ht rfl (fun obj => ?_) rfl
    rw [hq]
    rfl

theorem step {e : Event P} (h : Refreshed s) (he : ∀r,e≠.deleteRow r)
    (hs : s.step env e=some t) : Refreshed t := by
  have ht := h.tracking.step hs
  cases step_cases hs with
  | other hview =>
    have hsame := hview.sameStore
    exact h.same ht hsame.realm (fun _ => by rw [hsame.mainQueue]) (by rw [hsame.history])
  | refreshStocks | openSearchVC | didSelectRow => exact h.same ht rfl (fun _ => rfl) rfl
  | quoteReply hm =>
    next task response =>
    refine ⟨ht,h.undeleted,h.stored,fun obj => ?_⟩
    have hfifo := h.fifo obj
    rw [App.answered,pendingWrites_append,← List.append_assoc,hfifo,pendingWrites_block,
      List.filterMap_append]
    cases hi : Answer.refresh obj ⟨task,response⟩ <;> simp [hi]
  | searchReply hm =>
    next task response =>
    refine h.same ht rfl (fun obj => ?_) rfl
    rw [searchAnswered,pendingWrites_append]
    cases (StockManager.searchReply response).result <;> exact List.append_nil _
  | mainQueue hq hp => exact h.performed ht hq hp
  | deleteRow => exact absurd rfl (he _)
  | textDidChange hv =>
    refine h.same ht ?_ (fun _ => ?_) ?_ <;> rw [App.textDidChange,hv]

theorem launch (portfolio : List (RealmStock P)) (users : List RealmUser)
    (firebase : List (String × Json P)) (clock : DateFields) :
    Refreshed (App.launch portfolio users firebase clock) := by
  refine ⟨Tracking.launch portfolio users firebase clock,?_,?_,?_⟩
  · intro c hc r
    obtain ⟨stock,_,rfl⟩ := List.mem_map.mp hc
    trivial
  · intro obj k stock hadd
    have hlt : obj<(portfolio.map (Change.add 0)).length :=
      (List.getElem?_eq_some_iff.mp hadd).1
    rw [List.length_map] at hlt
    show obj∈(storedRows portfolio).map Row.obj
    rw [map_obj_storedRows]
    exact List.mem_range.mpr hlt
  · intro obj
    exact congrArg (·++[]) (writes_stored obj portfolio)

end Refreshed

/-- The quotes of the successful requests for an object, the first being the
one it was inserted with. -/
def quotesFor (s : App P) (obj : ℕ) : List (ℕ × Quote P) :=
  (match s.realm.log[obj]? with
    | some (.add k stock) => [(k,stock.quote)]
    | _ => [])++s.history.answers.filterMap (Answer.refresh obj)

/-- The server never answers a later request for a code with an older date;
the initial rows count as answers to earlier requests. -/
structure DatesRise (portfolio : List (RealmStock P)) (s : App P) : Prop where
  answers : ∀a∈s.history.answers,∀b∈s.history.answers,a.task.text=b.task.text →
    a.task.id<b.task.id → ∀q r,a.response.HasQuote q → b.response.HasQuote r → q.date≤r.date
  initial : ∀stock∈portfolio,∀b∈s.history.answers,b.task.text=stock.datasetCode →
    ∀r,b.response.HasQuote r → stock.date≤r.date

section Written

variable {portfolio : List (RealmStock P)} {s : App P} {obj k : ℕ} {stock : RealmStock P}
  {d : ℕ × Quote P}

/-- A quote written to an object answers a request for the code of the object
made after its insertion. -/
theorem Refreshed.added_of_write (h : s.Refreshed) (ho : s.Origins portfolio)
    (hd : d∈writes obj s.realm.log) :
    ∃k stock,s.realm.log[obj]?=some (.add k stock) ∧ k<d.1 ∧
      ∃a∈s.history.answers,a.task.id=d.1 ∧ a.task.text=stock.datasetCode ∧
        a.response.HasQuote d.2 := by
  have hin := List.mem_append_left (pendingWrites obj s.mainQueue) hd
  rw [h.fifo] at hin
  obtain ⟨a,ha,hrefresh⟩ := List.mem_filterMap.mp hin
  obtain ⟨hid,hquote,i,version,hc⟩ := Answer.refresh_eq_some hrefresh
  have hreq : a.task∈s.requests := List.mem_append_right _ (List.mem_map_of_mem ha)
  obtain ⟨_,k,stock,hadd,hlt,htext⟩ := (ho.issued _ hreq).refresh i obj version hc
  exact ⟨k,stock,hadd,hid ▸ hlt,a,ha,hid,htext,hquote⟩

theorem Refreshed.answer_of_write (h : s.Refreshed) (ho : s.Origins portfolio)
    (hadd : s.realm.log[obj]?=some (.add k stock)) (hd : d∈writes obj s.realm.log) :
    k<d.1 ∧ ∃a∈s.history.answers,a.task.id=d.1 ∧ a.task.text=stock.datasetCode ∧
      a.response.HasQuote d.2 := by
  obtain ⟨k',stock',hadd',hrest⟩ := h.added_of_write ho hd
  rw [hadd] at hadd'
  cases hadd'
  exact hrest

theorem Refreshed.writes_nodup (h : s.Refreshed) (ho : s.Origins portfolio) (obj : ℕ) :
    ((writes obj s.realm.log).map Prod.fst).Nodup := by
  have hsub : ((s.history.answers.filterMap (Answer.refresh obj)).map Prod.fst).Sublist
      (s.history.answers.map fun a => a.task.id) :=
    filterMap_keys_sublist (fun _ _ hd => (Answer.refresh_eq_some hd).1.symm) _
  have hn := hsub.nodup ho.tickets.answered_nodup
  rw [← h.fifo obj,List.map_append] at hn
  exact (List.nodup_append'.mp hn).1

theorem Refreshed.dates_rise (h : s.Refreshed) (ho : s.Origins portfolio)
    (hserver : s.DatesRise portfolio) (hadd : s.realm.log[obj]?=some (.add k stock)) :
    ∀d∈writes obj s.realm.log,∀e∈writes obj s.realm.log,d.1<e.1 → d.2.date≤e.2.date := by
  intro d hd e he hlt
  obtain ⟨_,a,ha,hida,hta,hqa⟩ := h.answer_of_write ho hadd hd
  obtain ⟨_,b,hb,hidb,htb,hqb⟩ := h.answer_of_write ho hadd he
  exact hserver.answers a ha b hb (hta.trans htb.symm) (by rw [hida,hidb]; exact hlt) _ _ hqa hqb

/-- A tapped code that is its own encoding is the one the refreshes ask for, so
that the quote an object starts with is not newer either. -/
theorem Refreshed.start_le (h : s.Refreshed) (ho : s.Origins portfolio)
    (hserver : s.DatesRise portfolio) (hadd : s.realm.log[obj]?=some (.add k stock))
    (hplain : ∀shown,(k,shown)∈s.history.taps →
      escapedQuery shown.datasetCode=shown.datasetCode) :
    ∀d∈writes obj s.realm.log,stock.date≤d.2.date := by
  intro d hd
  obtain ⟨hlt,a,ha,hid,htext,hquote⟩ := h.answer_of_write ho hadd hd
  cases ho.added obj k stock hadd with
  | inl hex =>
    obtain ⟨_,hstock⟩ := hex
    exact hserver.initial stock (List.mem_of_getElem? hstock) a ha htext _ hquote
  | inr hex =>
    obtain ⟨b,hb,hidb,hc,hreply⟩ := hex
    obtain ⟨_,hcode,hquoteb⟩ := getStockDataReply_completed hreply
    have hreq : b.task∈s.requests := List.mem_append_right _ (List.mem_map_of_mem hb)
    obtain ⟨shown,htap,hshown⟩ := (ho.issued _ hreq).unwind hc
    rw [hidb] at htap
    have hself : escapedQuery b.task.text=b.task.text := by
      rw [hshown]
      exact hplain shown htap
    have hsame : b.task.text=a.task.text := by rw [htext,hcode,hself]
    exact hserver.answers b hb a ha hsame (by rw [hidb,hid]; exact hlt) _ _ hquoteb hquote

/-- The row of an object that was added, with what was written to it last. -/
theorem Refreshed.row_of_added (h : s.Refreshed) (hadd : s.realm.log[obj]?=some (.add k stock)) :
    ∃row∈s.realm.rows,row.obj=obj ∧
      row.stock.quote=lastValue stock.quote (writes obj s.realm.log) := by
  obtain ⟨row,hr,rfl⟩ := List.mem_map.mp (h.stored obj k stock hadd)
  obtain ⟨k',stock',hadd',hquote⟩ := Realm.quote_of_row hr
  rw [hadd] at hadd'
  cases hadd'
  exact ⟨row,hr,rfl,hquote⟩

theorem Refreshed.row_of_written (h : s.Refreshed) (ho : s.Origins portfolio)
    {pre : List (ℕ × Quote P)} (hw : writes obj s.realm.log=pre++[d]) :
    ∃row∈s.realm.rows,row.obj=obj ∧ row.stock.quote=d.2 := by
  obtain ⟨k,stock,hadd,_⟩ := h.added_of_write ho (hw ▸ List.mem_append_right pre List.mem_cons_self)
  obtain ⟨row,hr,hobj,hquote⟩ := h.row_of_added hadd
  rw [hw,lastValue_append] at hquote
  exact ⟨row,hr,hobj,hquote⟩

/-- In an idle state the answers to the refreshes of an object have been written. -/
theorem Refreshed.answers_of_idle (h : s.Refreshed) (hq : s.mainQueue=[]) (obj : ℕ) :
    s.history.answers.filterMap (Answer.refresh obj)=writes obj s.realm.log := by
  have hfifo := h.fifo obj
  rw [hq] at hfifo
  exact hfifo.symm.trans (List.append_nil _)

end Written

/-- Each row holds the quote of the latest successful request for it. -/
def HoldsLatest (s : App P) : Prop :=
  ∀row∈s.realm.rows,∀m,IsLatest (s.quotesFor row.obj) m → row.stock.quote=m.2

/-- The successful refresh of a row that was answered last has the quote of the
one that was requested last. -/
def AnsweredLatest (s : App P) : Prop :=
  ∀row∈s.realm.rows,∀m d,IsLatest (s.history.answers.filterMap (Answer.refresh row.obj)) m →
    (s.history.answers.filterMap (Answer.refresh row.obj)).getLast?=some d → d.2=m.2

/-- A reply written to a row after the one to a later request has the same date
as that. Where the encoding changes a tapped code, so that the refreshes of the
row ask for another one, no reply written is older than the first quote. -/
structure DatesKept (s : App P) : Prop where
  overtaken : ∀row∈s.realm.rows,∀pre d,pre++[d] <+: writes row.obj s.realm.log →
    ∀e∈pre,d.1<e.1 → d.2.date=e.2.date
  recoded : ∀k shown,(k,shown)∈s.history.taps →
    escapedQuery shown.datasetCode≠shown.datasetCode →
    ∀(obj : ℕ) stock,s.realm.log[obj]?=some (.add k stock) →
      ∀d∈writes obj s.realm.log,stock.date≤d.2.date

section Order

variable {portfolio : List (RealmStock P)} {s : App P}

/-- With no block waiting, a row holds the latest quote exactly when that was
answered last. -/
theorem Refreshed.holdsLatest_iff (h : s.Refreshed) (ho : s.Origins portfolio)
    (hq : s.mainQueue=[]) : s.HoldsLatest ↔ s.AnsweredLatest := by
  refine forall₂_congr fun row hr => ?_
  obtain ⟨k,stock,hadd,hquote⟩ := Realm.quote_of_row hr
  have hidle := h.answers_of_idle hq row.obj
  have hlt : ∀d∈writes row.obj s.realm.log,k<d.1 :=
    fun d hd => (h.answer_of_write ho hadd hd).1
  have hall : s.quotesFor row.obj=(k,stock.quote)::writes row.obj s.realm.log := by
    rw [quotesFor,hadd,hidle]
    rfl
  rw [hall,hidle,hquote]
  constructor
  · intro hholds m d hm hlast
    have hl := hholds m ((isLatest_cons_of_older hlt).mpr (Or.inr hm))
    rw [lastValue,hlast] at hl
    exact hl
  · intro hanswered m hm
    cases (isLatest_cons_of_older hlt).mp hm with
    | inl hnone =>
      rw [hnone.1,hnone.2]
      rfl
    | inr hin =>
      have hne := List.ne_nil_of_mem hin.1
      have hlast := List.getLast?_eq_some_getLast hne
      rw [lastValue,hlast]
      exact hanswered m _ hin hlast

/-- The dates written to an object never fall exactly when those overtaken are
not older. -/
theorem Refreshed.dates_pairwise_iff (h : s.Refreshed) (ho : s.Origins portfolio)
    (hserver : s.DatesRise portfolio) (obj : ℕ) :
    ((writes obj s.realm.log).Pairwise fun d e => d.2.date≤e.2.date) ↔
      ∀pre d,pre++[d] <+: writes obj s.realm.log → ∀e∈pre,d.1<e.1 → d.2.date=e.2.date := by
  have hrise : ∀d∈writes obj s.realm.log,∀e∈writes obj s.realm.log,d.1<e.1 →
      d.2.date≤e.2.date := by
    intro d hd
    obtain ⟨k,stock,hadd,_⟩ := h.added_of_write ho hd
    exact h.dates_rise ho hserver hadd d hd
  rw [pairwise_iff_overtaken (R := fun q r : Quote P => q.date≤r.date) (h.writes_nodup ho obj)
    hrise]
  refine forall_congr' fun pre => forall_congr' fun d => forall_congr' fun hp =>
    forall₂_congr fun e he => forall_congr' fun hlt => ?_
  have hle : d.2.date≤e.2.date := by
    apply hrise d (hp.subset (by simp)) e (hp.subset (by simp [he])) hlt
  exact ⟨fun hge => String.le_antisymm hle hge,fun heq => heq ▸ String.le_refl _⟩

/-- Under the condition no quote written is older than the one the object was
inserted with. -/
theorem DatesKept.start_le {obj k : ℕ} {stock : RealmStock P} (hk : s.DatesKept)
    (h : s.Refreshed) (ho : s.Origins portfolio) (hserver : s.DatesRise portfolio)
    (hadd : s.realm.log[obj]?=some (.add k stock)) :
    ∀d∈writes obj s.realm.log,stock.date≤d.2.date := by
  by_cases hcode : ∀shown,(k,shown)∈s.history.taps →
      escapedQuery shown.datasetCode=shown.datasetCode
  · exact h.start_le ho hserver hadd hcode
  · obtain ⟨shown,hex⟩ := not_forall.mp hcode
    obtain ⟨htap,hne⟩ := Classical.not_imp.mp hex
    exact hk.recoded k shown htap hne obj stock hadd

/-- Replies written in the order of the requests, or repeating the newest quote. -/
theorem Refreshed.overtaken_of_inOrder (h : s.Refreshed) (ho : s.Origins portfolio)
    (hserver : s.DatesRise portfolio) {obj : ℕ} (horder : InOrder (writes obj s.realm.log)) :
    ∀pre d,pre++[d] <+: writes obj s.realm.log → ∀e∈pre,d.1<e.1 → d.2.date=e.2.date := by
  intro pre d hp e he hlt
  obtain ⟨m,hm,hle,hsame⟩ := horder.overtaken hp he hlt
  have hd : d∈writes obj s.realm.log := hp.subset (by simp)
  have hin : ∀x∈pre,x∈writes obj s.realm.log := fun x hx => hp.subset (by simp [hx])
  obtain ⟨k,stock,hadd,_⟩ := h.added_of_write ho hd
  have hrise := h.dates_rise ho hserver hadd
  apply String.le_antisymm (hrise d hd e (hin e he) hlt)
  rw [hsame]
  cases hle.lt_or_eq with
  | inl hnewer => exact hrise e (hin e he) m (hin m hm) hnewer
  | inr heq =>
    have hem := List.inj_on_of_nodup_map (h.writes_nodup ho obj) (hin e he) (hin m hm) heq
    exact hem ▸ String.le_refl _

theorem Refreshed.answeredLatest_of_inOrder (h : s.Refreshed) (ho : s.Origins portfolio)
    (hq : s.mainQueue=[]) (horder : ∀obj,InOrder (writes obj s.realm.log)) :
    s.AnsweredLatest := by
  intro row _ m d hm hlast
  rw [h.answers_of_idle hq] at hm hlast
  have hback := (neverGoesBack_iff d.2 (h.writes_nodup ho row.obj)).mpr (horder row.obj)
  have hl := hback _ (List.prefix_refl _) m hm
  rw [lastValue,hlast] at hl
  exact hl

end Order

end App

variable [Zero P] [One P] {env : Env P} {portfolio : List (RealmStock P)}
  {users : List RealmUser} {firebase : List (String × Json P)} {clock : DateFields}
  {es : List (Event P)} {s : App P}

theorem refreshed_of_run
    (h : run (App.step env) (App.launch portfolio users firebase clock) es=some s)
    (hdel : ∀e∈es,∀r,e≠.deleteRow r) : s.Refreshed :=
  run_invariant_of h hdel
    (App.Refreshed.launch portfolio users firebase clock) (fun _ _ _ hok hu hv => hu.step hok hv)

/-- The log of the store was each of its later prefixes at some moment. -/
theorem run_passes_log
    (h : run (App.step env) (App.launch portfolio users firebase clock) es=some s)
    {log : List (Change P)} (hstart : portfolio.length≤log.length) (hp : log <+: s.realm.log) :
    ∃fs u,fs <+: es ∧ run (App.step env) (App.launch portfolio users firebase clock) fs=some u ∧
      u.realm.log=log := by
  have hlen : (App.launch portfolio users firebase clock).realm.log.length≤log.length := by
    show (portfolio.map (Change.add 0)).length≤log.length
    rw [List.length_map]
    exact hstart
  exact run_passes_prefix (f := fun u : App P => u.realm.log) h (fun _ _ _ => App.log_of_step)
    (List.prefix_of_prefix_length_le (App.log_prefix_of_run h) hp hlen) hp

/-- So was what had been written to an object. -/
theorem run_passes_writes
    (h : run (App.step env) (App.launch portfolio users firebase clock) es=some s)
    {obj : ℕ} {pre : List (ℕ × Quote P)} (hp : pre <+: writes obj s.realm.log) :
    ∃fs u,fs <+: es ∧ run (App.step env) (App.launch portfolio users firebase clock) fs=some u ∧
      writes obj u.realm.log=pre := by
  have hstart : writes obj (App.launch portfolio users firebase clock).realm.log=[] :=
    App.writes_stored obj portfolio
  refine run_passes_prefix (f := fun u : App P => writes obj u.realm.log) h ?_
    (hstart ▸ List.nil_prefix) hp
  intro u e v hv
  cases App.log_of_step hv with
  | inl hsame => exact Or.inl (by rw [hsame])
  | inr hone =>
    obtain ⟨c,hlog⟩ := hone
    rw [hlog,writes_append]
    cases c with
    | write row o task quote =>
      rw [writes_write]
      split_ifs
      · exact Or.inr ⟨_,rfl⟩
      · exact Or.inl (List.append_nil _)
    | add | moveLastOver => exact Or.inl (List.append_nil _)

/-- The objects inserted by taps come after the initial ones. -/
theorem length_le_of_tapped
    (h : run (App.step env) (App.launch portfolio users firebase clock) es=some s)
    {obj k : ℕ} {stock : RealmStock P} (hadd : s.realm.log[obj]?=some (.add k stock))
    (hk : 0<k) : portfolio.length≤obj := by
  by_contra hlt
  have hget := List.getElem?_eq_getElem (Nat.lt_of_not_le hlt)
  have hinit : (App.launch portfolio users firebase clock).realm.log[obj]?=
      some (.add 0 portfolio[obj]) := by
    show (portfolio.map (Change.add 0))[obj]?=_
    rw [List.getElem?_map,hget]
    rfl
  rw [getElem?_of_grown (App.log_prefix_of_run h) hinit] at hadd
  cases hadd
  exact Nat.lt_irrefl 0 hk

/-- An object inserted by a tap has a row with the quote of the insertion at first. -/
theorem row_at_insertion
    (h : run (App.step env) (App.launch portfolio users firebase clock) es=some s)
    (hdel : ∀e∈es,∀r,e≠.deleteRow r) {obj k : ℕ} {stock : RealmStock P}
    (hadd : s.realm.log[obj]?=some (.add k stock)) (hk : 0<k) :
    ∃fs u,fs <+: es ∧ run (App.step env) (App.launch portfolio users firebase clock) fs=some u ∧
      ∃row∈u.realm.rows,row.obj=obj ∧ row.stock.quote=stock.quote := by
  have hlen := length_le_of_tapped h hadd hk
  have hobj : obj<s.realm.log.length := (List.getElem?_eq_some_iff.mp hadd).1
  have hbefore : (s.realm.log.take obj).length=obj := List.length_take_of_le hobj.le
  have htake : s.realm.log.take (obj+1)=s.realm.log.take obj++[.add k stock] := by
    rw [List.take_add_one,hadd]
    rfl
  -- nothing is written to an object before it is there
  obtain ⟨_,w,_,_,hw⟩ := run_passes_log h (hlen.trans_eq hbefore.symm) (List.take_prefix _ _)
  have hnone : writes obj (s.realm.log.take obj)=[] := by
    rw [← hw]
    exact w.realm.logged.fresh obj (by rw [hw,hbefore])
  have hlater : portfolio.length≤(s.realm.log.take (obj+1)).length := by
    rw [htake,List.length_append,hbefore]
    exact Nat.le_add_right_of_le hlen
  obtain ⟨fs,u,hfs,hu,hlog⟩ := run_passes_log h hlater (List.take_prefix _ _)
  have haddu : u.realm.log[obj]?=some (.add k stock) := by
    rw [hlog,htake,List.getElem?_append_right hbefore.le,hbefore,Nat.sub_self]
    rfl
  obtain ⟨row,hr,hrow,hquote⟩ :=
    (refreshed_of_run hu (fun e he => hdel e (hfs.subset he))).row_of_added haddu
  rw [hlog,htake,writes_append,hnone] at hquote
  exact ⟨fs,u,hfs,hu,row,hr,hrow,hquote⟩

/-- The stored dates between any two moments of the run. -/
def DatesNeverFall (env : Env P) (start : App P) (es : List (Event P)) : Prop :=
  ∀fs gs u v,fs <+: gs → gs <+: es → run (App.step env) start fs=some u →
    run (App.step env) start gs=some v → ∀row∈u.realm.rows,∀row'∈v.realm.rows,
      row.obj=row'.obj → row.stock.date≤row'.stock.date

theorem datesNeverFall_of_kept
    (h : run (App.step env) (App.launch portfolio users firebase clock) es=some s)
    (hdel : ∀e∈es,∀r,e≠.deleteRow r) (hserver : s.DatesRise portfolio) (hk : s.DatesKept) :
    DatesNeverFall env (App.launch portfolio users firebase clock) es := by
  intro fs gs u v hfs hgs hu hv row hr row' hr' hobj
  have href := refreshed_of_run h hdel
  have ho := (origins_of_run h).2
  obtain ⟨_,_,huv⟩ := run_of_prefix _ hfs hu hv
  obtain ⟨_,_,hvs⟩ := run_of_prefix _ hgs hv h
  have hloguv : u.realm.log <+: v.realm.log := App.log_prefix_of_run huv
  have hlogvs : v.realm.log <+: s.realm.log := App.log_prefix_of_run hvs
  obtain ⟨k,stock,hadd,hquote⟩ := Realm.quote_of_row hr
  obtain ⟨k',stock',hadd',hquote'⟩ := Realm.quote_of_row hr'
  rw [← hobj] at hadd' hquote'
  have haddv := getElem?_of_grown hloguv hadd
  rw [haddv] at hadd'
  cases hadd'
  have hadds := getElem?_of_grown hlogvs haddv
  obtain ⟨last,hlast,hlastobj,_⟩ := href.row_of_added hadds
  have hgrown := writes_grown hlogvs row.obj
  have hpair := (href.dates_pairwise_iff ho hserver row.obj).mpr
    (hlastobj ▸ hk.overtaken last hlast)
  have hbase := hk.start_le href ho hserver hadds
  have hrel : (lastValue stock.quote (writes row.obj u.realm.log)).date≤
      (lastValue stock.quote (writes row.obj v.realm.log)).date :=
    lastValue_rel (R := fun q r : Quote P => q.date≤r.date) (fun _ => String.le_refl _)
      (hpair.sublist hgrown.sublist) (fun d hd => hbase d (hgrown.subset hd))
      (writes_grown hloguv row.obj)
  rw [← hquote,← hquote'] at hrel
  exact hrel

/-- The moment right after a quote was written, when the row holds it. -/
theorem row_when_written
    (h : run (App.step env) (App.launch portfolio users firebase clock) es=some s)
    (hdel : ∀e∈es,∀r,e≠.deleteRow r) {obj : ℕ} {pre : List (ℕ × Quote P)} {d : ℕ × Quote P}
    (hp : pre++[d] <+: writes obj s.realm.log) :
    ∃fs u,fs <+: es ∧ run (App.step env) (App.launch portfolio users firebase clock) fs=some u ∧
      writes obj u.realm.log=pre++[d] ∧ ∃row∈u.realm.rows,row.obj=obj ∧ row.stock.quote=d.2 := by
  obtain ⟨fs,u,hfs,hu,hwu⟩ := run_passes_writes h hp
  have href := refreshed_of_run hu (fun e he => hdel e (hfs.subset he))
  exact ⟨fs,u,hfs,hu,hwu,href.row_of_written (origins_of_run hu).2 hwu⟩

theorem date_le_of_written
    (hdates : DatesNeverFall env (App.launch portfolio users firebase clock) es)
    (h : run (App.step env) (App.launch portfolio users firebase clock) es=some s)
    (hdel : ∀e∈es,∀r,e≠.deleteRow r) {obj : ℕ} {pre : List (ℕ × Quote P)} {d e : ℕ × Quote P}
    (hp : pre++[d] <+: writes obj s.realm.log) (he : e∈pre) : e.2.date≤d.2.date := by
  obtain ⟨gs,v,hgs,hv,hwv,later,hrl,hobjl,hquotel⟩ := row_when_written h hdel hp
  obtain ⟨before,after,rfl⟩ := List.append_of_mem he
  have hpe : before++[e] <+: writes obj v.realm.log := by
    rw [hwv]
    exact ⟨after++[d],by simp⟩
  obtain ⟨fs,u,hfs,hu,_,earlier,hre,hobje,hquotee⟩ :=
    row_when_written hv (fun e he => hdel e (hgs.subset he)) hpe
  have hle : earlier.stock.quote.date≤later.stock.quote.date :=
    hdates fs gs u v hfs hgs hu hv earlier hre later hrl (hobje.trans hobjl.symm)
  rw [hquotee,hquotel] at hle
  exact hle

theorem date_le_of_inserted
    (hdates : DatesNeverFall env (App.launch portfolio users firebase clock) es)
    (h : run (App.step env) (App.launch portfolio users firebase clock) es=some s)
    (hdel : ∀e∈es,∀r,e≠.deleteRow r) {obj k : ℕ} {stock : RealmStock P} {d : ℕ × Quote P}
    (hadd : s.realm.log[obj]?=some (.add k stock)) (hk : 0<k)
    (hd : d∈writes obj s.realm.log) : stock.date≤d.2.date := by
  obtain ⟨pre,rest,hsplit⟩ := List.append_of_mem hd
  have hpd : pre++[d] <+: writes obj s.realm.log := ⟨rest,by rw [hsplit]; simp⟩
  obtain ⟨gs,v,hgs,hv,hwv,later,hrl,hobjl,hquotel⟩ := row_when_written h hdel hpd
  have hdelv : ∀e∈gs,∀r,e≠.deleteRow r := fun e he => hdel e (hgs.subset he)
  have hin : d∈writes obj v.realm.log := hwv ▸ List.mem_append_right pre List.mem_cons_self
  obtain ⟨k',stock',haddv,_⟩ := (refreshed_of_run hv hdelv).added_of_write (origins_of_run hv).2 hin
  obtain ⟨_,_,hvs⟩ := run_of_prefix _ hgs hv h
  rw [getElem?_of_grown (App.log_prefix_of_run hvs) haddv] at hadd
  cases hadd
  obtain ⟨fs,u,hfs,hu,first,hrf,hobjf,hquotef⟩ := row_at_insertion hv hdelv haddv hk
  have hle : first.stock.quote.date≤later.stock.quote.date :=
    hdates fs gs u v hfs hgs hu hv first hrf later hrl (hobjf.trans hobjl.symm)
  rw [hquotef,hquotel] at hle
  exact hle

theorem kept_of_datesNeverFall
    (hdates : DatesNeverFall env (App.launch portfolio users firebase clock) es)
    (h : run (App.step env) (App.launch portfolio users firebase clock) es=some s)
    (hdel : ∀e∈es,∀r,e≠.deleteRow r) (hserver : s.DatesRise portfolio) : s.DatesKept := by
  have href := refreshed_of_run h hdel
  have ho := (origins_of_run h).2
  refine ⟨?_,?_⟩
  · intro row _ pre d hp e he hlt
    have hd : d∈writes row.obj s.realm.log := hp.subset (by simp)
    obtain ⟨_,_,hadd,_⟩ := href.added_of_write ho hd
    apply String.le_antisymm
    · exact href.dates_rise ho hserver hadd d hd e (hp.subset (by simp [he])) hlt
    · exact date_le_of_written hdates h hdel hp he
  · intro k shown htap _ obj stock hadd d hd
    exact date_le_of_inserted hdates h hdel hadd (ho.taps_lt _ htap).1 hd

/-- Without deletions no stored date ever decreases, and once every reply has
been delivered each row holds the quote of the latest successful request for
it, exactly when the replies that an earlier one overtook keep to its date and
the last reply to a row is to the latest request or has the same quote. -/
theorem refreshes_never_roll_back
    (h : run (App.step env) (App.launch portfolio users firebase clock) es=some s)
    (hdel : ∀e∈es,∀r,e≠.deleteRow r) (hserver : s.DatesRise portfolio) :
    (DatesNeverFall env (App.launch portfolio users firebase clock) es ∧
      ∀fs u,fs <+: es →
        run (App.step env) (App.launch portfolio users firebase clock) fs=some u →
        u.quoteTasks=[] → u.mainQueue=[] → u.HoldsLatest) ↔
    s.DatesKept ∧
      ∀fs u,fs <+: es →
        run (App.step env) (App.launch portfolio users firebase clock) fs=some u →
        u.quoteTasks=[] → u.mainQueue=[] → u.AnsweredLatest := by
  have hholds {fs : List (Event P)} {u : App P} (hfs : fs <+: es)
      (hu : run (App.step env) (App.launch portfolio users firebase clock) fs=some u)
      (hq : u.mainQueue=[]) : u.HoldsLatest ↔ u.AnsweredLatest :=
    (refreshed_of_run hu (fun e he => hdel e (hfs.subset he))).holdsLatest_iff
      (origins_of_run hu).2 hq
  constructor
  · intro ⟨hdates,hlatest⟩
    refine ⟨kept_of_datesNeverFall hdates h hdel hserver,?_⟩
    intro fs u hfs hu htasks hq
    exact (hholds hfs hu hq).mp (hlatest fs u hfs hu htasks hq)
  · intro ⟨hkept,hlast⟩
    refine ⟨datesNeverFall_of_kept h hdel hserver hkept,?_⟩
    intro fs u hfs hu htasks hq
    exact (hholds hfs hu hq).mpr (hlast fs u hfs hu htasks hq)

section Sample

/-- Two refreshes of one row; the answers to the first and the second request. -/
private def firstReply : Response ℕ := App.sampleReply "FB" "2016-04-07" 5

private def secondReply : Response ℕ := App.sampleReply "FB" "2016-04-08" 6

private def answerTo (task : ℕ) (response : Response ℕ) : Answer ℕ :=
  ⟨⟨task,"FB",stockDataURL ⟨2016,4,8⟩ "FB",.refreshStocks 0 0 1⟩,response⟩

private theorem datesRise_sample {s : App ℕ}
    (h : ∀a∈s.history.answers,a=answerTo 1 firstReply ∨ a=answerTo 2 secondReply) :
    s.DatesRise [App.sampleStock "FB" 3] := by
  have hfirst : firstReply.HasQuote ⟨"2016-04-07",5,5,5,5⟩ := ⟨_,rfl,rfl,rfl,rfl,rfl,rfl⟩
  have hsecond : secondReply.HasQuote ⟨"2016-04-08",6,6,6,6⟩ := ⟨_,rfl,rfl,rfl,rfl,rfl,rfl⟩
  refine ⟨?_,?_⟩
  · intro a ha b hb _ hlt q r hq hr
    rcases h a ha with rfl|rfl <;> rcases h b hb with rfl|rfl
    · exact absurd hlt (Nat.lt_irrefl _)
    · rw [hq.unique hfirst,hr.unique hsecond]
      decide
    · exact absurd hlt (by decide)
    · exact absurd hlt (Nat.lt_irrefl _)
  · intro stock hstock b hb _ r hr
    rw [List.mem_singleton.mp hstock]
    cases h b hb with
    | inl heq =>
      subst heq
      rw [hr.unique hfirst]
      decide
    | inr heq =>
      subst heq
      rw [hr.unique hsecond]
      decide

end Sample

/-- Replies in the order of the requests. -/
theorem refreshes_in_order :
    ∃s row,run (App.step App.sampleEnv) (App.sampleLaunch [App.sampleStock "FB" 3])
        [.refreshStocks,.refreshStocks,.quoteReply 1 firstReply,.mainQueue,
          .quoteReply 2 secondReply,.mainQueue]=some s ∧
      s.realm.rows=[row] ∧ row.stock.quote=⟨"2016-04-08",6,6,6,6⟩ := by
  let es : List (Event ℕ) := [.refreshStocks,.refreshStocks,.quoteReply 1 firstReply,.mainQueue,
    .quoteReply 2 secondReply,.mainQueue]
  obtain ⟨s,row,hs,hrows,htasks,hq,hans,htaps,hfor,hlog⟩ : ∃s row,
      run (App.step App.sampleEnv) (App.sampleLaunch [App.sampleStock "FB" 3]) es=some s ∧
      s.realm.rows=[row] ∧ s.quoteTasks=[] ∧ s.mainQueue=[] ∧
      s.history.answers=[answerTo 1 firstReply,answerTo 2 secondReply] ∧ s.history.taps=[] ∧
      s.quotesFor row.obj=[(0,⟨"2016-04-01",3,3,3,3⟩),(1,⟨"2016-04-07",5,5,5,5⟩),
        (2,⟨"2016-04-08",6,6,6,6⟩)] ∧
      s.realm.log=[.add 0 (App.sampleStock "FB" 3),.write 0 0 1 ⟨"2016-04-07",5,5,5,5⟩,
        .write 0 0 2 ⟨"2016-04-08",6,6,6,6⟩] := ⟨_,_,rfl,rfl,rfl,rfl,rfl,rfl,rfl,rfl⟩
  have hserver : s.DatesRise [App.sampleStock "FB" 3] := by
    apply datesRise_sample
    intro a ha
    simpa [hans] using ha
  have horder : ∀obj,InOrder (writes obj s.realm.log) := by
    intro obj
    apply InOrder.of_pairwise
    rw [hlog]
    by_cases ho : 0=obj <;> simp [writes,ho]
  have hdel : ∀e∈es,∀r,e≠.deleteRow r := by simp [es]
  have href := refreshed_of_run hs hdel
  have ho := (origins_of_run hs).2
  have hkept : s.DatesKept := by
    refine ⟨fun row _ => href.overtaken_of_inOrder ho hserver (horder row.obj),?_⟩
    intro k shown htap
    rw [htaps] at htap
    cases htap
  have hlast : ∀fs u,fs <+: es → run (App.step App.sampleEnv)
      (App.sampleLaunch [App.sampleStock "FB" 3]) fs=some u → u.quoteTasks=[] →
      u.mainQueue=[] → u.AnsweredLatest := by
    intro fs u hfs hu _ hqu
    obtain ⟨_,_,hrest⟩ := run_of_prefix _ hfs hu hs
    have hgrown := writes_grown (App.log_prefix_of_run hrest)
    exact (refreshed_of_run hu (fun e he => hdel e (hfs.subset he))).answeredLatest_of_inOrder
      (origins_of_run hu).2 hqu (fun obj => (horder obj).initial (hgrown obj))
  have hlatest := ((refreshes_never_roll_back hs hdel hserver).mpr ⟨hkept,hlast⟩).2 es s
    (List.prefix_refl _) hs htasks hq row (by simp [hrows]) (2,⟨"2016-04-08",6,6,6,6⟩)
  refine ⟨s,row,hs,hrows,hlatest ?_⟩
  rw [hfor]
  exact ⟨by simp,by decide⟩

/-- The reply to the first request arrives last: the row goes back to it. -/
theorem refresh_rolls_back :
    ¬∀(es : List (Event ℕ)) (s : App ℕ),
      run (App.step App.sampleEnv) (App.sampleLaunch [App.sampleStock "FB" 3]) es=some s →
      (∀e∈es,∀r,e≠.deleteRow r) → s.DatesRise [App.sampleStock "FB" 3] →
      ∀fs u,fs <+: es →
        run (App.step App.sampleEnv) (App.sampleLaunch [App.sampleStock "FB" 3]) fs=some u →
        ∀row∈u.realm.rows,∀row'∈s.realm.rows,row.obj=row'.obj →
          row.stock.date≤row'.stock.date := by
  intro h
  let fs : List (Event ℕ) := [.refreshStocks,.refreshStocks,.quoteReply 2 secondReply,.mainQueue]
  let es : List (Event ℕ) := fs++[.quoteReply 1 firstReply,.mainQueue]
  let newer : Row ℕ := ⟨0,⟨"FB","FB","2016-04-08",6,6,6,6⟩⟩
  let older : Row ℕ := ⟨0,⟨"FB","FB","2016-04-07",5,5,5,5⟩⟩
  obtain ⟨u,hu,hnewer⟩ : ∃u,run (App.step App.sampleEnv)
      (App.sampleLaunch [App.sampleStock "FB" 3]) fs=some u ∧ newer∈u.realm.rows :=
    ⟨_,rfl,.head _⟩
  obtain ⟨s,hs,holder,hans⟩ : ∃s,run (App.step App.sampleEnv)
      (App.sampleLaunch [App.sampleStock "FB" 3]) es=some s ∧ older∈s.realm.rows ∧
      s.history.answers=[answerTo 2 secondReply,answerTo 1 firstReply] := ⟨_,rfl,.head _,rfl⟩
  have hserver : s.DatesRise [App.sampleStock "FB" 3] := by
    apply datesRise_sample
    intro a ha
    rw [hans] at ha
    exact (List.mem_pair.mp ha).symm
  have hle := h es s hs (by simp [es,fs]) hserver fs u (List.prefix_append _ _) hu
    newer hnewer older holder rfl
  exact absurd hle (by decide)

end SStock
