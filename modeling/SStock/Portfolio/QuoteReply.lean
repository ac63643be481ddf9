import SStock.Model.Steps

namespace SStock

open Framework StockManager

variable {P : Type}

namespace Response

/-- The body is an object whose `dataset` is an object with the string `name`
and the rows `rows`, an array of arrays, under `data`. -/
def Table (response : Response P) (name : String) (rows : List (List (Json P))) : Prop :=
  ∃members dataset,response=.json (.object members) ∧
    members.lookup "dataset"=some (.object dataset) ∧
    dataset.lookup "name"=some (.string name) ∧
    dataset.lookup "data"=some (.array (rows.map .array))

/-- The first row begins with a string and four numbers, those of `q`. -/
def Leads (rows : List (List (Json P))) (q : Quote P) : Prop :=
  ∃rest more,rows=(.string q.date::.number q.openPrice::.number q.high::.number q.low::
    .number q.close::rest)::more

/-- The reply has the shape of a quote and says `q` of the company `name`. -/
def Quotes (response : Response P) (name : String) (q : Quote P) : Prop :=
  ∃rows,response.Table name rows ∧ Leads rows q

/-- The body is not an array, and the table of a named dataset begins with a
quote. -/
structure QuoteGuarded (response : Response P) : Prop where
  notArray : ∀items,response≠.json (.array items)
  leads : ∀name rows,response.Table name rows → ∃q,Leads rows q

theorem Table.unique {response : Response P} {name name' : String}
    {rows rows' : List (List (Json P))} (h : response.Table name rows)
    (h' : response.Table name' rows') : name=name' ∧ rows=rows' := by
  obtain ⟨members,dataset,rfl,hd,hn,hr⟩ := h
  obtain ⟨members',dataset',hm,hd',hn',hr'⟩ := h'
  cases hm
  rw [hd] at hd'
  cases hd'
  rw [hn] at hn'
  rw [hr] at hr'
  cases hn'
  refine ⟨rfl,?_⟩
  have hinj : Function.Injective (Json.array (N := P)) := fun _ _ => Json.array.inj
  exact List.map_injective_iff.mpr hinj (Json.array.inj (Option.some.inj hr'))

end Response

variable [Zero P] [One P]

/-- What the quote handler owes a reply: no trap, a call exactly for a quote and
with its values, at most one call, and no effect without one. -/
structure QuoteReplyExact (response : Response P) : Prop where
  total : ∀escapedQuery,getStockDataReply escapedQuery response≠.trapped
  exact : ∀escapedQuery data,getStockDataReply escapedQuery response=.completed data ↔
    response.Quotes data.name data.quote ∧ data.datasetCode=escapedQuery
  once : ∀(s t : App P) (id : ℕ),s.quoteReply id response=some t →
    ∃calls : List (Block P),calls.length≤1 ∧ t.mainQueue=s.mainQueue++calls
  silent : (∀name q,¬response.Quotes name q) → ∀(s : App P) (id : ℕ),
    ∃t,s.quoteReply id response=some t ∧ t.realm=s.realm ∧ t.mainQueue=s.mainQueue

namespace StockManager

/-- The part of the handler after its guards. -/
def firstQuote (rows : List (List (Json P))) : Option (Quote P) := do
  let recentData ← rows[0]?
  let date ← recentData[0]?.bind Json.asString
  let openPrice ← recentData[1]?.bind Json.asDouble
  let high ← recentData[2]?.bind Json.asDouble
  let low ← recentData[3]?.bind Json.asDouble
  let close ← recentData[4]?.bind Json.asDouble
  return ⟨date,openPrice,high,low,close⟩

variable {response : Response P} {escapedQuery name : String} {rows : List (List (Json P))}

/-- A table passes the guards; what follows is a row of forced casts. -/
theorem getStockDataReply_table (h : response.Table name rows) :
    getStockDataReply escapedQuery response=
      Handled.orTrap ((firstQuote rows).map fun q =>
        ⟨name,escapedQuery,q.date,q.openPrice,q.high,q.low,q.close⟩) := by
  obtain ⟨members,dataset,rfl,hd,hn,hr⟩ := h
  have hrows : (Json.array (rows.map Json.array)).asArrays=some rows :=
    Json.asArrays_eq_some.mpr rfl
  simp only [getStockDataReply,jsonObject,Handled.completed_bind,hd,hn,hr,hrows,Option.bind_some,
    Json.asObject,Json.asString,Handled.orReturn]
  simp only [firstQuote,Option.bind_eq_bind,Handled.orTrap_map_bind]
  rfl

/-- Any other body returns early, an array apart. -/
theorem getStockDataReply_returned (ha : ∀items,response≠.json (.array items))
    (ht : ∀name rows,¬response.Table name rows) :
    getStockDataReply escapedQuery response=.returned := by
  cases response with
  | error => rfl
  | notJson => rfl
  | json body =>
    cases body with
    | array items => exact absurd rfl (ha items)
    | null | bool | number | string => rfl
    | object members =>
      simp only [getStockDataReply,jsonObject,Handled.completed_bind]
      cases hd : (members.lookup "dataset").bind Json.asObject with
      | none => rfl
      | some dataset =>
        cases hn : (dataset.lookup "name").bind Json.asString with
        | none =>
          simp only [Handled.orReturn,Handled.completed_bind,hn]
          rfl
        | some name =>
          cases hr : (dataset.lookup "data").bind Json.asArrays with
          | none =>
            simp only [Handled.orReturn,Handled.completed_bind,hn,hr]
            rfl
          | some rows =>
            simp only [Option.bind_eq_some_iff,Json.asObject_eq_some,Json.asString_eq_some,
              Json.asArrays_eq_some,exists_eq_right] at hd hn hr
            exact absurd ⟨members,dataset,rfl,hd,hn,hr⟩ (ht name rows)

/-- Everything the quote handler can do with a reply. -/
inductive QuoteOutcome (escapedQuery : String) (response : Response P) :
    Handled (RealmStock P) → Prop
  | array {items : List (Json P)} (h : response=.json (.array items)) :
      QuoteOutcome escapedQuery response .trapped
  | unshaped (ha : ∀items,response≠.json (.array items))
      (ht : ∀name rows,¬response.Table name rows) : QuoteOutcome escapedQuery response .returned
  | quote {name : String} {rows : List (List (Json P))} {q : Quote P}
      (ht : response.Table name rows) (hq : firstQuote rows=some q) :
      QuoteOutcome escapedQuery response
        (.completed ⟨name,escapedQuery,q.date,q.openPrice,q.high,q.low,q.close⟩)
  | noQuote {name : String} {rows : List (List (Json P))} (ht : response.Table name rows)
      (hq : firstQuote rows=none) : QuoteOutcome escapedQuery response .trapped

theorem getStockDataReply_outcome (escapedQuery : String) (response : Response P) :
    QuoteOutcome escapedQuery response (getStockDataReply escapedQuery response) := by
  by_cases ht : ∃name rows,response.Table name rows
  · obtain ⟨name,rows,ht⟩ := ht
    rw [getStockDataReply_table ht]
    cases hq : firstQuote rows with
    | none => exact .noQuote ht hq
    | some q => exact .quote ht hq
  · have ht' : ∀name rows,¬response.Table name rows := fun name rows h => ht ⟨name,rows,h⟩
    by_cases ha : ∃items,response=.json (.array items)
    · obtain ⟨items,rfl⟩ := ha
      exact .array rfl
    · rw [getStockDataReply_returned (not_exists.mp ha) ht']
      exact .unshaped (not_exists.mp ha) ht'

theorem firstQuote_of_leads {q : Quote P} (h : Response.Leads rows q) :
    firstQuote rows=some q := by
  obtain ⟨rest,more,rfl⟩ := h
  rfl

/-- A guarded table gives a quote, and the casts find it. -/
theorem firstQuote_of_guarded (h : response.QuoteGuarded) (ht : response.Table name rows) :
    ∃q,Response.Leads rows q ∧ firstQuote rows=some q :=
  (h.leads name rows ht).imp fun _ hl => ⟨hl,firstQuote_of_leads hl⟩

/-- A quote reaches the completion. -/
theorem getStockDataReply_quotes {data : RealmStock P}
    (h : response.Quotes data.name data.quote) (hc : data.datasetCode=escapedQuery) :
    getStockDataReply escapedQuery response=.completed data := by
  obtain ⟨rows,ht,hl⟩ := h
  rw [getStockDataReply_table ht,firstQuote_of_leads hl,← hc]
  rfl

theorem quoteReply_calls {s t : App P} {id : ℕ} (h : s.quoteReply id response=some t) :
    ∃calls : List (Block P),calls.length≤1 ∧ t.mainQueue=s.mainQueue++calls := by
  cases App.quoteReply_cases h with
  | inl he => exact ⟨[],by simp,by rw [he,List.append_nil]⟩
  | inr hex =>
    obtain ⟨task,_,_,rfl⟩ := hex
    exact ⟨_,Option.length_toList_le,rfl⟩

/-- A handler that returns early changes neither the store nor the queue. -/
theorem quoteReply_of_returned
    (h : ∀escapedQuery,getStockDataReply escapedQuery response=.returned) (s : App P) (id : ℕ) :
    ∃t,s.quoteReply id response=some t ∧ t.realm=s.realm ∧ t.mainQueue=s.mainQueue := by
  unfold App.quoteReply
  cases s.quoteTasks.find? fun task => task.id=id with
  | none => exact ⟨s,rfl,rfl,rfl⟩
  | some task =>
    simp only [h]
    exact ⟨_,rfl,rfl,rfl⟩

end StockManager

open StockManager

/-- A reply is handled as it should be exactly when it is no array and its table,
if it has one, begins with a quote. -/
theorem quote_reply_exact_iff (response : Response P) :
    QuoteReplyExact response ↔ response.QuoteGuarded := by
  constructor
  · intro h
    refine ⟨?_,?_⟩
    · rintro items rfl
      exact h.total "" rfl
    · intro name rows ht
      cases hq : firstQuote rows with
      | none =>
        refine absurd ?_ (h.total "")
        rw [getStockDataReply_table ht,hq]
        rfl
      | some q =>
        -- Booleans pass the casts to numbers; the call itself says that none was there.
        have hdone : getStockDataReply "" response=_ := getStockDataReply_table ht
        rw [hq] at hdone
        obtain ⟨rows',ht',hl⟩ := ((h.exact "" _).mp hdone).1
        rw [(ht.unique ht').2]
        exact ⟨_,hl⟩
  · intro h
    refine ⟨?_,?_,fun _ _ _ => quoteReply_calls,?_⟩
    · intro escapedQuery
      have ho := getStockDataReply_outcome escapedQuery response
      generalize getStockDataReply escapedQuery response=result at ho
      cases ho with
      | array ha => exact absurd ha (h.notArray _)
      | unshaped | quote => simp
      | noQuote ht hq =>
        obtain ⟨q,_,hsome⟩ := firstQuote_of_guarded h ht
        cases hq.symm.trans hsome
    · intro escapedQuery data
      refine ⟨fun hdone => ?_,fun hq => getStockDataReply_quotes hq.1 hq.2⟩
      have ho := getStockDataReply_outcome escapedQuery response
      rw [hdone] at ho
      cases ho with
      | quote ht hq =>
        obtain ⟨q,hl,hsome⟩ := firstQuote_of_guarded h ht
        cases hq.symm.trans hsome
        exact ⟨⟨_,ht,hl⟩,rfl⟩
    · intro hno
      refine quoteReply_of_returned fun _ =>
        getStockDataReply_returned h.notArray fun name rows ht => ?_
      obtain ⟨q,hl⟩ := h.leads name rows ht
      exact hno name q ⟨rows,ht,hl⟩

/-- A company without a row in the requested window. -/
theorem quote_reply_traps : ¬∀response : Response ℕ,QuoteReplyExact response := by
  intro h
  exact (h (.json (.object [("dataset",.object [("name",.string "Ford"),
    ("data",.array [])])]))).total "F" (by decide)

end SStock
