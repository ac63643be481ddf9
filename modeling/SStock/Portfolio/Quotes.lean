import SStock.Framework.Run
import SStock.Model.Steps

namespace SStock

open Framework StockManager

variable {P : Type}

/-- Opening and closing price lie between the day's low and high. -/
structure Quote.Ordered [LE P] (q : Quote P) : Prop where
  low_le_open : q.low≤q.openPrice
  open_le_high : q.openPrice≤q.high
  low_le_close : q.low≤q.close
  close_le_high : q.close≤q.high

/-- The five assignments of the completion carried by a block. -/
def Block.quote? : Block P → Option (Quote P)
  | .refreshStocks _ _ _ _ data => some data.quote
  | .unwindFromSearchVC _ data => some data.quote
  | _ => none

theorem Completion.quote?_block (completion : Completion) (task : ℕ) (data : RealmStock P) :
    (completion.block task data).quote?=some data.quote := by
  cases completion <;> rfl

/-- What `StockStatsVC` shows for the row at `r`, cell by cell. -/
theorem App.prepareForSegue_labels (env : Env P) {s : App P} {r : ℕ} {row : Row P}
    (hr : s.realm.rows[r]?=some row) :
    ∃vc,s.prepareForSegue env r=some vc ∧
      vc.cellForRowAtIndexPath 0=some ("Open",env.describe row.stock.quote.openPrice,
        "Close",env.describe row.stock.quote.close) ∧
      vc.cellForRowAtIndexPath 1=some ("High",env.describe row.stock.quote.high,
        "Low",env.describe row.stock.quote.low) := by
  refine ⟨_,by rw [prepareForSegue,hr]; rfl,rfl,rfl⟩

variable [Zero P] [One P]

/-- The tuple of one reply delivered during the run. -/
def FromReply (es : List (Event P)) (q : Quote P) : Prop :=
  ∃id response,Event.quoteReply id response∈es ∧ response.HasQuote q

theorem FromReply.append {es : List (Event P)} {q : Quote P} (h : FromReply es q) (e : Event P) :
    FromReply (es++[e]) q := by
  obtain ⟨id,response,hm,hq⟩ := h
  exact ⟨id,response,List.mem_append_left _ hm,hq⟩

namespace App

/-- Where the quotes in the store and on their way to it come from. -/
structure Sourced (portfolio : List (RealmStock P)) (es : List (Event P)) (s : App P) : Prop where
  rows : ∀row∈s.realm.rows,FromReply es row.stock.quote ∨
    ∃stock,portfolio[row.obj]?=some stock ∧ row.stock.quote=stock.quote
  blocks : ∀block∈s.mainQueue,∀q,block.quote?=some q → FromReply es q

namespace Sourced

variable {env : Env P} {portfolio : List (RealmStock P)} {es : List (Event P)} {s t : App P}

theorem append (h : Sourced portfolio es s) (e : Event P) : Sourced portfolio (es++[e]) s :=
  ⟨fun row hr => (h.rows row hr).imp (fun hf => hf.append e) id,
    fun block hb q hq => (h.blocks block hb q hq).append e⟩

theorem same (h : Sourced portfolio es s) (hrealm : t.realm=s.realm)
    (hqueue : ∀block∈t.mainQueue,block∈s.mainQueue ∨ block.quote?=none) :
    Sourced portfolio es t := by
  refine ⟨by rw [hrealm]; exact h.rows,fun block hb q hq => ?_⟩
  cases hqueue block hb with
  | inl hm => exact h.blocks block hm q hq
  | inr hn => simp [hn] at hq

/-- The positional parse reads the tuple off one reply. -/
theorem answered (h : Sourced portfolio es s) (task : QuoteTask) (response : Response P) :
    Sourced portfolio (es++[.quoteReply task.id response]) (s.answered task response) := by
  have hold := h.append (.quoteReply task.id response)
  refine ⟨hold.rows,fun block hb q hq => ?_⟩
  cases mem_mainQueue_answered hb with
  | inl hb => exact hold.blocks block hb q hq
  | inr hnew =>
    obtain ⟨data,hdata,rfl⟩ := hnew
    have hhas := (getStockDataReply_completed hdata).2.2
    rw [Completion.quote?_block] at hq
    cases hq
    exact ⟨task.id,response,by simp,hhas⟩

/-- The refresh transaction and the insertion copy whole tuples. -/
theorem performed {block : Block P} {rest : List (Block P)} (h : Sourced portfolio es s)
    (hq : s.mainQueue=block::rest) (hp : Performed {s with mainQueue := rest} block t) :
    Sourced portfolio es t := by
  have hblock (q : Quote P) (hb : block.quote?=some q) : FromReply es q :=
    h.blocks block (hq ▸ List.mem_cons_self) q hb
  have hrest : ∀b∈rest,∀q,b.quote?=some q → FromReply es q :=
    fun b hb => h.blocks b (hq ▸ List.mem_cons_of_mem _ hb)
  cases hp with
  | refreshStocks hw =>
    obtain ⟨row,_,hrows,_⟩ := Realm.write?_eq_some hw
    refine ⟨fun row' hr => ?_,hrest⟩
    have hr' := hr
    rw [hrows] at hr'
    cases List.mem_or_eq_of_mem_set hr' with
    | inl hm => exact h.rows row' hm
    | inr heq =>
      subst heq
      exact Or.inl (hblock _ rfl)
  | unwindFromSearchVC =>
    refine ⟨fun row' hr => ?_,hrest⟩
    cases List.mem_append.mp hr with
    | inl hm => exact h.rows row' hm
    | inr hm =>
      rw [List.mem_singleton.mp hm]
      exact Or.inl (hblock _ rfl)
  | reloadData | searchResults => exact ⟨h.rows,hrest⟩

theorem step {e : Event P} (h : Sourced portfolio es s) (hs : s.step env e=some t) :
    Sourced portfolio (es++[e]) t := by
  cases step_cases hs with
  | other hview =>
    have hsame := hview.sameStore
    exact (h.append e).same hsame.realm (fun b hb => Or.inl (hsame.mainQueue ▸ hb))
  | refreshStocks | openSearchVC | didSelectRow =>
    exact (h.append _).same rfl (fun b hb => Or.inl hb)
  | textDidChange hv =>
    refine (h.append _).same ?_ (fun b hb => Or.inl ?_)
    · simp [App.textDidChange,hv]
    · simpa [App.textDidChange,hv] using hb
  | quoteReply hm => exact h.answered _ _
  | searchReply hm =>
    refine (h.append _).same rfl (fun b hb => ?_)
    refine (mem_mainQueue_searchAnswered hb).imp id ?_
    rintro ⟨stocks,rfl⟩
    rfl
  | mainQueue hq hp => exact (h.performed hq hp).append _
  | deleteRow _ hd =>
    obtain ⟨row,_,hrows,_⟩ := Realm.delete?_eq_some hd
    refine ⟨fun row' hr => ?_,fun b hb => ?_⟩
    · have hr' := hr
      rw [hrows] at hr'
      exact (h.append _).rows row' (mem_of_mem_moveLastOver hr')
    · cases List.mem_append.mp hb with
      | inl hb => exact (h.append _).blocks b hb
      | inr hb =>
        rw [List.mem_singleton.mp hb]
        intro q hq
        cases hq

theorem launch (portfolio : List (RealmStock P)) (users : List RealmUser)
    (firebase : List (String × Json P)) (clock : DateFields) :
    Sourced portfolio [] (App.launch portfolio users firebase clock) := by
  refine ⟨fun row hr => Or.inr ⟨row.stock,mem_storedRows hr,rfl⟩,?_⟩
  intro block hb
  cases hb

end Sourced

end App

variable {env : Env P} {portfolio : List (RealmStock P)} {users : List RealmUser}
  {firebase : List (String × Json P)} {clock : DateFields} {es : List (Event P)} {s : App P}

/-- Every row holds the tuple of one reply or its initial one, hence an ordered
one, and the statistics screen shows that tuple under its labels. -/
theorem quotes_never_torn [LE P]
    (h : run (App.step env) (App.launch portfolio users firebase clock) es=some s)
    (hreplies : ∀id response,Event.quoteReply id response∈es →
      ∀q,response.HasQuote q → q.Ordered)
    (hinitial : ∀stock∈portfolio,stock.quote.Ordered)
    {r : ℕ} {row : Row P} (hr : s.realm.rows[r]?=some row) :
    ∃q,row.stock.quote=q ∧
      (FromReply es q ∨ ∃stock,portfolio[row.obj]?=some stock ∧ q=stock.quote) ∧
      q.Ordered ∧
      ∃vc,s.prepareForSegue env r=some vc ∧
        vc.cellForRowAtIndexPath 0=
          some ("Open",env.describe q.openPrice,"Close",env.describe q.close) ∧
        vc.cellForRowAtIndexPath 1=
          some ("High",env.describe q.high,"Low",env.describe q.low) := by
  have hsourced : s.Sourced portfolio es :=
    run_history (I := fun fs u => App.Sourced portfolio fs u) h
      (App.Sourced.launch portfolio users firebase clock) (fun _ _ _ _ hu hv => hu.step hv)
  have hq := hsourced.rows row (List.mem_of_getElem? hr)
  refine ⟨row.stock.quote,rfl,hq,?_,App.prepareForSegue_labels env hr⟩
  cases hq with
  | inl hex =>
    obtain ⟨id,response,hm,hhas⟩ := hex
    exact hreplies id response hm _ hhas
  | inr hex =>
    obtain ⟨stock,hstock,he⟩ := hex
    rw [he]
    exact hinitial stock (List.mem_of_getElem? hstock)

/-- Two rows refreshed, the first deleted: the second one has moved and holds
its own reply's tuple. -/
theorem quotes_never_torn_after_deletion :
    ∃s : App ℕ,run (App.step App.sampleEnv)
        (App.sampleLaunch [App.sampleStock "FB" 3,App.sampleStock "GE" 5])
        [.refreshStocks,.quoteReply 2 (.json (.object [("dataset",.object
            [("name",.string "GE"),("data",.array [.array [.string "2016-04-08",
              .number 5,.number 9,.number 2,.number 4]])])])),
          .mainQueue,.deleteRow 0,.mainQueue]=some s ∧
      ∃row,s.realm.rows=[row] ∧ row.stock.quote=⟨"2016-04-08",5,9,2,4⟩ ∧
        row.stock.quote.Ordered := by
  let reply : Response ℕ := .json (.object [("dataset",.object
    [("name",.string "GE"),("data",.array [.array [.string "2016-04-08",
      .number 5,.number 9,.number 2,.number 4]])])])
  let q : Quote ℕ := ⟨"2016-04-08",5,9,2,4⟩
  have hq : reply.HasQuote q := ⟨_,rfl,rfl,rfl,rfl,rfl,rfl⟩
  obtain ⟨s,hs,row,hrows,hquote⟩ : ∃s : App ℕ,run (App.step App.sampleEnv)
        (App.sampleLaunch [App.sampleStock "FB" 3,App.sampleStock "GE" 5])
        [.refreshStocks,.quoteReply 2 reply,.mainQueue,.deleteRow 0,.mainQueue]=some s ∧
      ∃row,s.realm.rows=[row] ∧ row.stock.quote=q := ⟨_,rfl,_,rfl,rfl⟩
  have hreplies : ∀id response,Event.quoteReply id response∈
      ([.refreshStocks,.quoteReply 2 reply,.mainQueue,.deleteRow 0,.mainQueue] :
        List (Event ℕ)) → ∀q,response.HasQuote q → q.Ordered := by
    intro id response hm q' hhas
    obtain ⟨_,he⟩ : id=2 ∧ response=reply := by simpa using hm
    rw [he] at hhas
    rw [hhas.unique hq]
    exact ⟨by decide,by decide,by decide,by decide⟩
  have hinitial : ∀stock∈[App.sampleStock "FB" 3,App.sampleStock "GE" 5],
      stock.quote.Ordered := by
    intro stock hm
    cases List.mem_pair.mp hm with
    | inl heq =>
      subst heq
      exact ⟨by decide,by decide,by decide,by decide⟩
    | inr heq =>
      subst heq
      exact ⟨by decide,by decide,by decide,by decide⟩
  have hr : s.realm.rows[0]?=some row := by rw [hrows]; rfl
  obtain ⟨q',he,_,hord,_⟩ := quotes_never_torn hs hreplies hinitial hr
  exact ⟨s,hs,row,hrows,hquote,he ▸ hord⟩

end SStock
