import SStock.Portfolio.Origins

namespace SStock

open Framework StockManager

variable {P : Type}

/-- The row a completion writes to, none where it inserts a new one. -/
def Completion.row : Completion → Option ℕ
  | .refreshStocks i _ _ => some i
  | .unwindFromSearchVC => none

/-- What the replies did to the store: for each change the request, the row
written or none for an insertion, and the quote. -/
def deliveries (log : List (Change P)) : List (ℕ × Option ℕ × Quote P) :=
  log.filterMap fun
    | .add task stock => some (task,none,stock.quote)
    | .write row _ task quote => some (task,some row,quote)
    | .moveLastOver _ _ _ => none

@[simp] theorem deliveries_append (log log' : List (Change P)) :
    deliveries (log++log')=deliveries log++deliveries log' := List.filterMap_append

@[simp] theorem deliveries_moveLastOver (row count : ℕ) (removed : Row P) :
    deliveries [.moveLastOver row count removed]=[] := rfl

/-- The change a block will make. -/
def Block.delivery : Block P → Option (ℕ × Option ℕ × Quote P)
  | .refreshStocks task i _ _ data => some (task,some i,data.quote)
  | .unwindFromSearchVC task data => some (task,none,data.quote)
  | _ => none

/-- The change a successful answer leads to. -/
def Answer.delivery [Zero P] [One P] (answer : Answer P) : Option (ℕ × Option ℕ × Quote P) :=
  (getStockDataReply (escapedQuery answer.task.text) answer.response).result.map fun data =>
    (answer.task.id,answer.task.completion.row,data.quote)

theorem Completion.delivery_block (completion : Completion) (task : ℕ) (data : RealmStock P) :
    (completion.block task data).delivery=some (task,completion.row,data.quote) := by
  cases completion <;> rfl

namespace App

variable [Zero P] [One P] {env : Env P} {portfolio : List (RealmStock P)} {s t : App P}

/-- The changes made by replies, followed by those queued, are the initial rows
and the successful answers, in the order of the answers. -/
def Delivered (portfolio : List (RealmStock P)) (s : App P) : Prop :=
  deliveries s.realm.log++s.mainQueue.filterMap Block.delivery=
    portfolio.map (fun stock => (0,none,stock.quote))++s.history.answers.filterMap Answer.delivery

namespace Delivered

theorem same (h : Delivered portfolio s) (hrealm : t.realm=s.realm)
    (hqueue : t.mainQueue.filterMap Block.delivery=s.mainQueue.filterMap Block.delivery)
    (hanswers : t.history.answers=s.history.answers) : Delivered portfolio t := by
  unfold Delivered at h ⊢
  rw [hrealm,hqueue,hanswers]
  exact h

/-- A successful answer queues its change, any other answer none. -/
theorem answered (h : Delivered portfolio s) (task : QuoteTask) (response : Response P) :
    Delivered portfolio (s.answered task response) := by
  unfold Delivered at h ⊢
  have hblock : ((getStockDataReply (escapedQuery task.text) response).result.map
      (task.completion.block task.id)).toList.filterMap Block.delivery=
      (Answer.delivery ⟨task,response⟩).toList := by
    unfold Answer.delivery
    cases (getStockDataReply (escapedQuery task.text) response).result with
    | none => rfl
    | some data => simp [Completion.delivery_block]
  rw [App.answered,List.filterMap_append,hblock,← List.append_assoc,h,List.filterMap_append,
    List.append_assoc]
  cases hd : Answer.delivery ⟨task,response⟩ <;> simp [hd]

theorem performed {block : Block P} {rest : List (Block P)} (h : Delivered portfolio s)
    (hq : s.mainQueue=block::rest) (hp : Performed {s with mainQueue := rest} block t) :
    Delivered portfolio t := by
  unfold Delivered at h ⊢
  rw [hq] at h
  cases hp with
  | refreshStocks hw =>
    obtain ⟨row,_,_,hlog⟩ := Realm.write?_eq_some hw
    rw [hlog,deliveries_append,List.append_assoc]
    exact h
  | unwindFromSearchVC =>
    next task data =>
    change deliveries (s.realm.log++[.add task data])++_=_
    rw [deliveries_append,List.append_assoc]
    exact h
  | reloadData | searchResults => exact h

theorem step {e : Event P} (h : Delivered portfolio s) (hs : s.step env e=some t) :
    Delivered portfolio t := by
  cases step_cases hs with
  | other hview =>
    have hsame := hview.sameStore
    exact h.same hsame.realm (by rw [hsame.mainQueue]) (by rw [hsame.history])
  | refreshStocks | openSearchVC | didSelectRow => exact h.same rfl rfl rfl
  | quoteReply hm => exact h.answered _ _
  | searchReply hm =>
    refine h.same rfl ?_ rfl
    rw [searchAnswered,List.filterMap_append]
    cases (StockManager.searchReply _).result <;> exact List.append_nil _
  | mainQueue hq hp => exact h.performed hq hp
  | deleteRow _ hd =>
    obtain ⟨row,_,_,hlog⟩ := Realm.delete?_eq_some hd
    have hnone : [Block.reloadData (P := P)].filterMap Block.delivery=[] := rfl
    unfold Delivered at h ⊢
    rw [hlog,deliveries_append,deliveries_moveLastOver,List.filterMap_append,hnone,
      List.append_nil,List.append_nil]
    exact h
  | textDidChange hv =>
    rw [App.textDidChange,hv]
    exact h.same rfl rfl rfl

theorem launch (portfolio : List (RealmStock P)) (users : List RealmUser)
    (firebase : List (String × Json P)) (clock : DateFields) :
    Delivered portfolio (App.launch portfolio users firebase clock) := by
  have hlog : deliveries (portfolio.map (Change.add 0))=
      portfolio.map fun stock => (0,none,stock.quote) := by
    simp [deliveries,List.filterMap_map]
  exact congrArg (·++[]) hlog

end Delivered

end App

variable [Zero P] [One P] {env : Env P} {portfolio : List (RealmStock P)}
  {users : List RealmUser} {firebase : List (String × Json P)} {clock : DateFields}
  {es : List (Event P)} {s : App P}

/-- In every run, deletions included, each successful answer changes the store
once or has one change queued: a new row for a tap, a write at the row captured
for a refresh, in the order of the answers. Nothing else inserts or writes. -/
theorem deliveries_exactly_once
    (h : run (App.step env) (App.launch portfolio users firebase clock) es=some s) :
    deliveries s.realm.log++s.mainQueue.filterMap Block.delivery=
        portfolio.map (fun stock => (0,none,stock.quote))++
          s.history.answers.filterMap Answer.delivery ∧
      ((s.history.answers.filterMap Answer.delivery).map Prod.fst).Nodup := by
  have hdelivered : s.Delivered portfolio := run_invariant h
    (App.Delivered.launch portfolio users firebase clock) (fun _ _ _ hu hv => hu.step hv)
  refine ⟨hdelivered,?_⟩
  refine (filterMap_keys_sublist ?_ _).nodup (origins_of_run h).2.tickets.answered_nodup
  intro answer d hd
  obtain ⟨data,_,rfl⟩ := Option.map_eq_some_iff.mp hd
  rfl

/-- The first of two rows deleted while both are refreshed: the reply for the
second one is still queued for row 1. -/
theorem deliveries_exactly_once_after_deletion :
    ∃s,run (App.step App.sampleEnv)
        (App.sampleLaunch [App.sampleStock "FB" 3,App.sampleStock "GE" 5])
        [.refreshStocks,.deleteRow 0,.mainQueue,
          .quoteReply 2 (App.sampleReply "GE" "2016-04-08" 4)]=some s ∧
      deliveries s.realm.log++[(2,some 1,⟨"2016-04-08",4,4,4,4⟩)]=
        [(0,none,⟨"2016-04-01",3,3,3,3⟩),(0,none,⟨"2016-04-01",5,5,5,5⟩)]++
          s.history.answers.filterMap Answer.delivery := by
  obtain ⟨s,hs,hq⟩ : ∃s,run (App.step App.sampleEnv)
        (App.sampleLaunch [App.sampleStock "FB" 3,App.sampleStock "GE" 5])
        [.refreshStocks,.deleteRow 0,.mainQueue,
          .quoteReply 2 (App.sampleReply "GE" "2016-04-08" 4)]=some s ∧
      s.mainQueue.filterMap Block.delivery=[(2,some 1,⟨"2016-04-08",4,4,4,4⟩)] :=
    ⟨_,rfl,rfl⟩
  have hlaw := (deliveries_exactly_once hs).1
  rw [hq] at hlaw
  exact ⟨s,hs,hlaw⟩

end SStock
