import SStock.Portfolio.Origins
import Mathlib.Data.List.Perm.Lattice

namespace SStock

open Framework StockManager

variable {P : Type}

def RealmStock.identity (stock : RealmStock P) : String × String := (stock.name,stock.datasetCode)

/-- The insertions in a log, each with the request that caused it. -/
def added (log : List (Change P)) : List (ℕ × String × String) :=
  log.filterMap fun
    | .add task stock => some (task,stock.identity)
    | _ => none

/-- The rows removed by the deletions in a log. -/
def removed (log : List (Change P)) : List (String × String) :=
  log.filterMap fun
    | .moveLastOver _ _ row => some row.stock.identity
    | _ => none

/-- The insertions waiting in the main queue. -/
def pendingAdds (queue : List (Block P)) : List (ℕ × String × String) :=
  queue.filterMap fun
    | .unwindFromSearchVC task data => some (task,data.identity)
    | _ => none

@[simp] theorem added_append (log log' : List (Change P)) :
    added (log++log')=added log++added log' := List.filterMap_append

@[simp] theorem removed_append (log log' : List (Change P)) :
    removed (log++log')=removed log++removed log' := List.filterMap_append

@[simp] theorem pendingAdds_append (queue queue' : List (Block P)) :
    pendingAdds (queue++queue')=pendingAdds queue++pendingAdds queue' := List.filterMap_append

section Insertions

variable [Zero P] [One P]

/-- The insertion a successful answer to a tap leads to. -/
def Answer.insertion (answer : Answer P) : Option (ℕ × String × String) :=
  match answer.task.completion with
  | .refreshStocks _ _ _ => none
  | .unwindFromSearchVC =>
    (getStockDataReply (escapedQuery answer.task.text) answer.response).result.map fun data =>
      (answer.task.id,data.identity)

theorem Answer.insertion_eq_some {answer : Answer P} {x : ℕ × String × String} :
    answer.insertion=some x ↔ answer.task.completion=.unwindFromSearchVC ∧
      ∃data,getStockDataReply (escapedQuery answer.task.text) answer.response=.completed data ∧
        x=(answer.task.id,data.identity) := by
  unfold Answer.insertion
  split
  · next hc => simp [hc]
  · next hc =>
    rw [Option.map_eq_some_iff]
    simp only [hc,true_and,Handled.result_eq_some]
    exact exists_congr (fun data => and_congr_right (fun _ => eq_comm))

/-- What a reply adds to the queue is its insertion. -/
theorem pendingAdds_block (task : QuoteTask) (response : Response P) :
    pendingAdds ((getStockDataReply (escapedQuery task.text) response).result.map
      (task.completion.block task.id)).toList=(Answer.insertion ⟨task,response⟩).toList := by
  unfold Answer.insertion
  cases hc : task.completion with
  | refreshStocks i obj version =>
    cases (getStockDataReply (escapedQuery task.text) response).result <;> rfl
  | unwindFromSearchVC =>
    cases (getStockDataReply (escapedQuery task.text) response).result <;> rfl

end Insertions

/-- Name and code of every row. -/
def Realm.identities (m : Realm P) : List (String × String) :=
  m.rows.map fun row => row.stock.identity

/-- The rows with those removed are the ones inserted. -/
def Realm.Balanced (m : Realm P) : Prop :=
  (m.identities++removed m.log).Perm ((added m.log).map Prod.snd)

namespace Realm.Balanced

variable {m m' : Realm P}

theorem add (h : m.Balanced) (task : ℕ) (stock : RealmStock P) : (m.add task stock).Balanced := by
  have hrows : (m.add task stock).identities=m.identities++[stock.identity] := List.map_append
  have hswap : (m.identities++[stock.identity]++removed m.log).Perm
      (m.identities++removed m.log++[stock.identity]) := by
    rw [List.append_assoc,List.append_assoc]
    exact List.perm_append_comm.append_left _
  unfold Realm.Balanced at h ⊢
  rw [hrows,log_add,added_append,removed_append,List.map_append]
  change (_++(removed m.log++[])).Perm (_++[stock.identity])
  rw [List.append_nil]
  exact hswap.trans (h.append_right _)

theorem delete {r : ℕ} (h : m.Balanced) (hd : m.delete? r=some m') : m'.Balanced := by
  obtain ⟨row,hr,hrows,hlog⟩ := delete?_eq_some hd
  have hperm : (row.stock.identity::m'.identities).Perm m.identities := by
    have hmove := (moveLastOver_perm hr).map (fun row => row.stock.identity)
    rw [← hrows] at hmove
    exact hmove
  have hmove : (m'.identities++(removed m.log++[row.stock.identity])).Perm
      (m.identities++removed m.log) := by
    rw [← List.append_assoc]
    exact List.perm_append_comm.trans (hperm.append_right _)
  unfold Realm.Balanced at h ⊢
  rw [hlog,added_append,removed_append]
  change (m'.identities++(removed m.log++[row.stock.identity])).Perm ((added m.log++[]).map _)
  rw [List.append_nil]
  exact hmove.trans h

/-- A refresh leaves name and code of every row alone. -/
theorem identities_write {r task : ℕ} {data : RealmStock P} (hw : m.write? r task data=some m') :
    m'.identities=m.identities := by
  obtain ⟨row,hr,hrows,_⟩ := write?_eq_some hw
  rw [identities,identities,hrows]
  apply List.ext_getElem?
  intro j
  rw [List.getElem?_map,List.getElem?_map,List.getElem?_set]
  split_ifs with hj hl
  · subst hj
    rw [hr]
    rfl
  · subst hj
    simp [List.getElem?_eq_none (Nat.le_of_not_lt hl)]
  · rfl

theorem write {r task : ℕ} {data : RealmStock P} (h : m.Balanced)
    (hw : m.write? r task data=some m') : m'.Balanced := by
  obtain ⟨row,_,_,hlog⟩ := write?_eq_some hw
  unfold Realm.Balanced at h ⊢
  rw [identities_write hw,hlog,added_append,removed_append]
  change (_++(_++[])).Perm ((_++[]).map _)
  rw [List.append_nil,List.append_nil]
  exact h

end Realm.Balanced

namespace App

variable [Zero P] [One P]

/-- The store is balanced, and what was inserted on top of the initial rows,
followed by what is queued, is what the taps' answers brought, in their order. -/
structure Ledger (portfolio : List (RealmStock P)) (s : App P) : Prop where
  balanced : s.realm.Balanced
  fifo : ∃inserted,added s.realm.log=portfolio.map (fun stock => (0,stock.identity))++inserted ∧
    inserted++pendingAdds s.mainQueue=s.history.answers.filterMap Answer.insertion

namespace Ledger

variable {env : Env P} {portfolio : List (RealmStock P)} {s t : App P}

theorem same (h : Ledger portfolio s) (hrealm : t.realm=s.realm)
    (hqueue : pendingAdds t.mainQueue=pendingAdds s.mainQueue)
    (hanswers : t.history.answers=s.history.answers) : Ledger portfolio t := by
  refine ⟨hrealm ▸ h.balanced,?_⟩
  rw [hrealm,hqueue,hanswers]
  exact h.fifo

theorem answered (h : Ledger portfolio s) (task : QuoteTask) (response : Response P) :
    Ledger portfolio (s.answered task response) := by
  obtain ⟨inserted,hadded,hfifo⟩ := h.fifo
  refine ⟨h.balanced,inserted,hadded,?_⟩
  rw [App.answered,pendingAdds_append,← List.append_assoc,hfifo,pendingAdds_block,
    List.filterMap_append]
  cases hi : Answer.insertion ⟨task,response⟩ <;> simp [hi]

theorem performed {block : Block P} {rest : List (Block P)} (h : Ledger portfolio s)
    (hq : s.mainQueue=block::rest) (hp : Performed {s with mainQueue := rest} block t) :
    Ledger portfolio t := by
  obtain ⟨inserted,hadded,hfifo⟩ := h.fifo
  cases hp with
  | refreshStocks hw =>
    obtain ⟨row,_,_,hlog⟩ := Realm.write?_eq_some hw
    refine ⟨h.balanced.write hw,inserted,?_,?_⟩
    · rw [hlog,added_append,hadded]
      exact List.append_nil _
    · refine Eq.trans ?_ hfifo
      rw [hq]
      rfl
  | unwindFromSearchVC =>
    next task data =>
    refine ⟨h.balanced.add task data,inserted++[(task,data.identity)],?_,?_⟩
    · change added (s.realm.log++[.add task data])=_
      rw [added_append,hadded,List.append_assoc]
      rfl
    · refine Eq.trans ?_ hfifo
      rw [hq,List.append_assoc]
      rfl
  | reloadData | searchResults =>
    refine h.same rfl ?_ rfl
    rw [hq]
    rfl

theorem step {e : Event P} (h : Ledger portfolio s) (hs : s.step env e=some t) :
    Ledger portfolio t := by
  cases step_cases hs with
  | other hview =>
    have hsame := hview.sameStore
    exact h.same hsame.realm (by rw [hsame.mainQueue]) (by rw [hsame.history])
  | refreshStocks | openSearchVC | didSelectRow => exact h.same rfl rfl rfl
  | quoteReply hm => exact h.answered _ _
  | searchReply hm =>
    refine h.same rfl ?_ rfl
    rw [searchAnswered,pendingAdds_append]
    cases (StockManager.searchReply _).result <;> exact List.append_nil _
  | mainQueue hq hp => exact h.performed hq hp
  | deleteRow _ hd =>
    obtain ⟨inserted,hadded,hfifo⟩ := h.fifo
    obtain ⟨row,_,_,hlog⟩ := Realm.delete?_eq_some hd
    refine ⟨h.balanced.delete hd,inserted,?_,?_⟩
    · rw [hlog,added_append,hadded]
      exact List.append_nil _
    · refine Eq.trans ?_ hfifo
      rw [pendingAdds_append]
      exact congrArg _ (List.append_nil _)
  | textDidChange hv =>
    rw [App.textDidChange,hv]
    exact h.same rfl rfl rfl

theorem launch (portfolio : List (RealmStock P)) (users : List RealmUser)
    (firebase : List (String × Json P)) (clock : DateFields) :
    Ledger portfolio (App.launch portfolio users firebase clock) := by
  have hadded : added (portfolio.map (Change.add 0))=
      portfolio.map (fun stock => (0,stock.identity)) := by
    simp [added,List.filterMap_map]
  have hremoved : removed (portfolio.map (Change.add 0))=[] := by
    simp [removed,List.filterMap_map]
  refine ⟨?_,[],?_,rfl⟩
  · have hrows : (storedRows portfolio).map (fun row => row.stock.identity)=
        portfolio.map RealmStock.identity := by
      calc (storedRows portfolio).map (fun row => row.stock.identity)
        _ = portfolio.zipIdx.map (fun entry => entry.1.identity) := List.map_map
        _ = (portfolio.zipIdx.map Prod.fst).map RealmStock.identity := by rw [List.map_map]; rfl
        _ = portfolio.map RealmStock.identity := by rw [List.zipIdx_map_fst]
    change ((storedRows portfolio).map _++removed (portfolio.map (Change.add 0))).Perm
      ((added (portfolio.map (Change.add 0))).map Prod.snd)
    rw [hadded,hremoved,hrows,List.append_nil,List.map_map]
    exact List.Perm.refl _
  · exact hadded.trans (List.append_nil _).symm

end Ledger

/-- What a tap has brought so far: nothing while its request is unanswered, has
failed or waits in the queue, then the name in the reply and the encoded code
of the stock displayed on the tapped row. -/
def creditOf (queue : List (Block P)) (answers : List (Answer P)) (tap : ℕ × Stock) :
    Option (String × String) :=
  if tap.1∈(pendingAdds queue).map Prod.fst then none
  else (answers.find? fun answer => answer.task.id=tap.1).bind fun answer =>
    (getStockDataReply (escapedQuery tap.2.datasetCode) answer.response).result.map fun data =>
      (data.name,escapedQuery tap.2.datasetCode)

def credit (s : App P) : ℕ × Stock → Option (String × String) :=
  creditOf s.mainQueue s.history.answers

namespace Origins

variable {portfolio : List (RealmStock P)} {s : App P}

/-- No request is answered twice. -/
theorem insertions_nodup (h : s.Origins portfolio) :
    ((s.history.answers.filterMap Answer.insertion).map Prod.fst).Nodup := by
  refine (filterMap_keys_sublist ?_ _).nodup h.tickets.answered_nodup
  intro answer x hx
  obtain ⟨_,data,_,rfl⟩ := Answer.insertion_eq_some.mp hx
  rfl

theorem find_answer (h : s.Origins portfolio) {answer : Answer P}
    (ha : answer∈s.history.answers) :
    (s.history.answers.find? fun other => other.task.id=answer.task.id)=some answer := by
  cases hf : s.history.answers.find? fun other => decide (other.task.id=answer.task.id) with
  | none => simpa using List.find?_eq_none.mp hf answer ha
  | some other =>
    have hid : other.task.id=answer.task.id := by simpa using List.find?_some hf
    rw [List.inj_on_of_nodup_map h.tickets.answered_nodup (List.mem_of_find?_eq_some hf) ha hid]

/-- The taps are credited with what their answers inserted. -/
theorem credit_eq_some (h : s.Origins portfolio) {k : ℕ} {x : String × String} :
    (∃shown,(k,shown)∈s.history.taps ∧ s.credit (k,shown)=some x) ↔
      (k,x)∈s.history.answers.filterMap Answer.insertion ∧
        k∉(pendingAdds s.mainQueue).map Prod.fst := by
  constructor
  · intro ⟨shown,htap,hc⟩
    unfold credit creditOf at hc
    split_ifs at hc with hp
    refine ⟨?_,hp⟩
    obtain ⟨answer,hf,hmap⟩ := Option.bind_eq_some_iff.mp hc
    obtain ⟨data,hdata,rfl⟩ := Option.map_eq_some_iff.mp hmap
    have ha := List.mem_of_find?_eq_some hf
    have hid : answer.task.id=k := by simpa using List.find?_some hf
    have hreq : answer.task∈s.requests := List.mem_append_right _ (List.mem_map_of_mem ha)
    have htext := h.text_of_tap hreq hid htap
    have hreply := Handled.result_eq_some.mp hdata
    rw [← htext] at hreply
    refine List.mem_filterMap.mpr ⟨answer,ha,Answer.insertion_eq_some.mpr ⟨?_,data,hreply,?_⟩⟩
    · cases hcomp : answer.task.completion with
      | refreshStocks i obj version =>
        subst hid
        exact absurd (List.mem_map_of_mem htap) ((h.issued _ hreq).refresh i obj version hcomp).1
      | unwindFromSearchVC => rfl
    · rw [hid,RealmStock.identity,(getStockDataReply_completed hreply).2.1,htext]
  · intro ⟨hm,hp⟩
    obtain ⟨answer,ha,hins⟩ := List.mem_filterMap.mp hm
    obtain ⟨hcomp,data,hreply,hx⟩ := Answer.insertion_eq_some.mp hins
    cases hx
    have hreq : answer.task∈s.requests := List.mem_append_right _ (List.mem_map_of_mem ha)
    obtain ⟨shown,htap,htext⟩ := (h.issued _ hreq).unwind hcomp
    refine ⟨shown,htap,?_⟩
    unfold credit creditOf
    rw [if_neg hp,h.find_answer ha,Option.bind_some,← htext,hreply]
    simp [Handled.result,RealmStock.identity,(getStockDataReply_completed hreply).2.1]

/-- What was inserted on top of the initial rows is what the taps brought. -/
theorem credits_perm (h : s.Origins portfolio) {inserted : List (ℕ × String × String)}
    (hfifo : inserted++pendingAdds s.mainQueue=
      s.history.answers.filterMap Answer.insertion) :
    (inserted.map Prod.snd).Perm (s.history.taps.filterMap s.credit) := by
  have hn := h.insertions_nodup
  rw [← hfifo,List.map_append] at hn
  obtain ⟨hins,_,hdisj⟩ := List.nodup_append'.mp hn
  let tagged : List (ℕ × String × String) :=
    s.history.taps.filterMap fun tap => (s.credit tap).map (tap.1,·)
  have htagged : (tagged.map Prod.fst).Nodup := by
    refine (filterMap_keys_sublist ?_ _).nodup h.taps_nodup
    intro tap y hy
    obtain ⟨x,_,rfl⟩ := Option.map_eq_some_iff.mp hy
    rfl
  have hmem (y : ℕ × String × String) : y∈inserted ↔ y∈tagged := by
    have htag : y∈tagged ↔ ∃shown,(y.1,shown)∈s.history.taps ∧
        s.credit (y.1,shown)=some y.2 := by
      rw [List.mem_filterMap]
      constructor
      · intro ⟨tap,ht,hc⟩
        obtain ⟨x,hx,rfl⟩ := Option.map_eq_some_iff.mp hc
        exact ⟨tap.2,ht,hx⟩
      · intro ⟨shown,ht,hc⟩
        exact ⟨(y.1,shown),ht,by rw [hc]; rfl⟩
    rw [htag,h.credit_eq_some,← hfifo,List.mem_append]
    constructor
    · intro hy
      exact ⟨Or.inl hy,fun hp => hdisj (List.mem_map_of_mem hy) hp⟩
    · intro ⟨hy,hp⟩
      exact hy.resolve_right (fun hq => hp (List.mem_map_of_mem hq))
  have hperm := (List.perm_ext_iff_of_nodup hins.of_map htagged.of_map).mpr hmem
  have hsnd : tagged.map Prod.snd=s.history.taps.filterMap s.credit := by
    rw [List.map_filterMap]
    apply List.filterMap_congr
    intro tap _
    rw [Option.map_map]
    exact Option.map_id'
  exact hsnd ▸ hperm.map Prod.snd

end Origins

end App

variable [Zero P] [One P] {env : Env P} {portfolio : List (RealmStock P)}
  {users : List RealmUser} {firebase : List (String × Json P)} {clock : DateFields}
  {es : List (Event P)} {s : App P}

theorem ledger_of_run
    (h : run (App.step env) (App.launch portfolio users firebase clock) es=some s) :
    s.Ledger portfolio :=
  run_invariant h (App.Ledger.launch portfolio users firebase clock)
    (fun _ _ _ hu hv => hu.step hv)

theorem App.Ledger.identities_perm (h : s.Ledger portfolio) (ho : s.Origins portfolio) :
    (s.realm.identities++removed s.realm.log).Perm
      (portfolio.map RealmStock.identity++s.history.taps.filterMap s.credit) := by
  obtain ⟨inserted,hadded,hfifo⟩ := h.fifo
  have hbal := h.balanced
  unfold Realm.Balanced at hbal
  rw [hadded,List.map_append,List.map_map] at hbal
  exact hbal.trans ((ho.credits_perm hfifo).append_left _)

/-- Rows and removed rows are together the initial rows and one entry for each
tap with a delivered answer. Only insertions and deletions change the rows'
names and codes. -/
theorem portfolio_conserved
    (h : run (App.step env) (App.launch portfolio users firebase clock) es=some s) :
    (s.realm.identities++removed s.realm.log).Perm
        (portfolio.map RealmStock.identity++s.history.taps.filterMap s.credit) ∧
      ∀e t,s.step env e=some t → t.realm.identities=s.realm.identities ∨
        (∃r,e=.deleteRow r) ∨
        (e=.mainQueue ∧ ∃k data rest,s.mainQueue=.unwindFromSearchVC k data::rest) := by
  refine ⟨(ledger_of_run h).identities_perm (origins_of_run h).2,?_⟩
  intro e t hs
  cases App.step_cases hs with
  | other hview => exact Or.inl (by rw [hview.sameStore.realm])
  | deleteRow => exact Or.inr (Or.inl ⟨_,rfl⟩)
  | mainQueue hq hp =>
    cases hp with
    | refreshStocks hw => exact Or.inl (Realm.Balanced.identities_write hw)
    | unwindFromSearchVC => exact Or.inr (Or.inr ⟨rfl,_,_,_,hq⟩)
    | reloadData | searchResults => exact Or.inl rfl
  | textDidChange hv =>
    rw [App.textDidChange,hv]
    exact Or.inl rfl
  | _ => exact Or.inl rfl

/-- A tap, a later list replacing the one tapped, the answer to the tap, and a
deletion of the initial row. -/
theorem portfolio_conserved_tap_and_delete :
    ∃s,run (App.step App.sampleEnv) (App.sampleLaunch [App.sampleStock "FB" 3])
        [.openSearchVC,.textDidChange 0 "g",.textDidChange 0 "gm",
          .searchReply 1 (App.sampleSearchReply [⟨"General Electric","GE"⟩]),.mainQueue,
          .didSelectRow 0 0,.searchReply 2 (App.sampleSearchReply [⟨"General Motors","GM"⟩]),
          .mainQueue,.quoteReply 3 (App.sampleReply "General Electric" "2016-04-08" 4),
          .mainQueue,.deleteRow 0,.mainQueue]=some s ∧
      s.realm.identities=[("General Electric","GE")] ∧ removed s.realm.log=[("FB","FB")] ∧
      (s.realm.identities++removed s.realm.log).Perm
        ([("FB","FB")]++s.history.taps.filterMap s.credit) := by
  obtain ⟨s,hs,hrows,hremoved⟩ : ∃s,run (App.step App.sampleEnv)
        (App.sampleLaunch [App.sampleStock "FB" 3])
        [.openSearchVC,.textDidChange 0 "g",.textDidChange 0 "gm",
          .searchReply 1 (App.sampleSearchReply [⟨"General Electric","GE"⟩]),.mainQueue,
          .didSelectRow 0 0,.searchReply 2 (App.sampleSearchReply [⟨"General Motors","GM"⟩]),
          .mainQueue,.quoteReply 3 (App.sampleReply "General Electric" "2016-04-08" 4),
          .mainQueue,.deleteRow 0,.mainQueue]=some s ∧
      s.realm.identities=[("General Electric","GE")] ∧ removed s.realm.log=[("FB","FB")] :=
    ⟨_,rfl,rfl,rfl⟩
  exact ⟨s,hs,hrows,hremoved,(portfolio_conserved hs).1⟩

end SStock
