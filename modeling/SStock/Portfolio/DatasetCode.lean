import SStock.Framework.Decimal
import SStock.Portfolio.Origins

namespace SStock

open Framework StockManager

variable {P : Type}

namespace StockManager

theorem mem_pad {width n : ℕ} {c : Char} (h : c∈(pad width n).toList) : c.isDigit := by
  rw [pad,String.toList_ofList] at h
  exact Decimal.isDigit_of_mem_padded h

/-- The formatted date holds digits and hyphens only. -/
theorem mem_stringFromDate {d : DateFields} {c : Char} (h : c∈(stringFromDate d).toList) :
    c.isDigit ∨ c = '-' := by
  simp only [stringFromDate,String.toList_append,List.mem_append] at h
  rcases h with (((h|h)|h)|h)|h
  · exact Or.inl (mem_pad h)
  · exact Or.inr (by simpa using h)
  · exact Or.inl (mem_pad h)
  · exact Or.inr (by simpa using h)
  · exact Or.inl (mem_pad h)

theorem notMem_stringFromDate (d : DateFields) {c : Char} (hd : c.isDigit=false) (hc : c ≠ '-') :
    c∉(stringFromDate d).toList := by
  intro h
  cases mem_stringFromDate h with
  | inl hdig => simp [hd] at hdig
  | inr hhyp => exact hc hhyp

theorem toList_url {api esc file day key : String} {dir ext start k : List Char}
    (hdir : api.toList=dir++['/']) (hfile : file.toList=ext ++ '?'::(start++['=']))
    (hkey : key.toList = '&'::k) : (api++esc++file++day++key).toList=
      (dir ++ '/'::(esc.toList++ext)) ++ '?'::((start ++ '='::day.toList) ++ '&'::k) := by
  simp only [String.toList_append,hdir,hfile,hkey,List.append_assoc,List.cons_append,
    List.nil_append]

/-- The directory, the file and the query of a quote URL. -/
theorem toList_stockDataURL (date : DateFields) (text : String) :
    (stockDataURL date text).toList=
      ("https://www.quandl.com/api/v3/datasets/WIKI".toList ++ '/'::
        ((escapedQuery text).toList++".json".toList)) ++ '?'::
      (("start_date".toList ++ '='::(stringFromDate date).toList) ++ '&'::
        ("api_key".toList ++ '='::"L9rgCQ9xtMJ2vExshXgw".toList)) :=
  toList_url (by decide) (by decide) (by decide)

theorem stockDataURL_parts (date : DateFields) (text : String) :
    Url.lastSegment (Url.path (stockDataURL date text).toList)=
        (escapedQuery text).toList++".json".toList ∧
      Url.query (stockDataURL date text).toList=
        ("start_date".toList ++ '='::(stringFromDate date).toList) ++ '&'::
          ("api_key".toList ++ '='::"L9rgCQ9xtMJ2vExshXgw".toList) := by
  rw [toList_stockDataURL]
  have hext : ∀c∈".json".toList,c ≠ '?' ∧ c ≠ '#' ∧ c ≠ '/' := by simp
  refine Url.path_and_query (by simp) ?_ ?_
  · intro c hc
    cases List.mem_append.mp hc with
    | inl hc =>
      refine ⟨?_,?_,?_⟩
      · rintro rfl
        exact notMem_escapedQuery (by decide) (by decide) (by decide) text hc
      · rintro rfl
        exact notMem_escapedQuery (by decide) (by decide) (by decide) text hc
      · rintro rfl
        exact notMem_escapedQuery (by decide) (by decide) (by decide) text hc
    | inr hc => exact hext c hc
  · simp only [List.mem_append,List.mem_cons,not_or]
    exact ⟨⟨by decide,by decide,notMem_stringFromDate date (by decide) (by decide)⟩,
      by decide,by decide,by decide,by decide⟩

/-- The file name decodes to the text asked for and `.json`. -/
theorem unescape_lastSegment (date : DateFields) (text : String) :
    Percent.unescape (Url.lastSegment (Url.path (stockDataURL date text).toList))=
      some (text++".json") := by
  rw [(stockDataURL_parts date text).1,escapedQuery,
    Percent.unescape_escape_append (by decide) text (by decide),String.ofList_toList]

/-- The query holds the start date and the key and nothing else. -/
theorem parameters_stockDataURL (date : DateFields) (text : String) :
    Url.parameters (Url.query (stockDataURL date text).toList)=
      [("start_date".toList,(stringFromDate date).toList),
        ("api_key".toList,"L9rgCQ9xtMJ2vExshXgw".toList)] := by
  have hamp : '&'∉"start_date".toList ++ '='::(stringFromDate date).toList := by
    simp only [List.mem_append,List.mem_cons,not_or]
    exact ⟨by decide,by decide,notMem_stringFromDate date (by decide) (by decide)⟩
  rw [(stockDataURL_parts date text).2,Url.parameters_append hamp,
    Url.parameter_append (by decide),Url.parameters_single (by decide),
    Url.parameter_append (by decide)]

end StockManager

/-- The request asks for the dataset `code`: file name `code.json`, and start
date and key as the only parameters. -/
structure RequestsDataset (task : QuoteTask) (code : String) : Prop where
  segment : Percent.unescape (Url.lastSegment (Url.path task.url.toList))=some (code++".json")
  parameters : (Url.parameters (Url.query task.url.toList)).map Prod.fst=
    ["start_date".toList,"api_key".toList]

/-- The code of a stock on its whole way: in the stored row, in the first
request `k` and all requests to refresh the row, and in a message sent from it. -/
structure App.KeepsCode [Zero P] [One P] (env : Env P) (s : App P) (row : Row P) (k : ℕ)
    (code : String) : Prop where
  stored : row.stock.datasetCode=code
  first : ∀task∈s.requests,task.id=k → RequestsDataset task code
  refreshes : ∀task∈s.requests,∀i version,
    task.completion=.refreshStocks i row.obj version → RequestsDataset task code
  shared : ∀alert,s.alert=some alert → s.realm.rows[alert.row]?=some row →
    ∀autoId recipient t,s.step env (.send autoId recipient)=some t →
      t.firebase=(sendStock autoId s.users s.firebase recipient code).2

/-- A request asks for the dataset of its text. -/
theorem App.Issued.requestsDataset {s : App P} {task : QuoteTask} (h : s.Issued task) :
    RequestsDataset task task.text := by
  obtain ⟨date,hurl⟩ := h.url
  refine ⟨?_,?_⟩
  · rw [hurl]
    exact unescape_lastSegment date task.text
  · rw [hurl,parameters_stockDataURL]
    rfl

variable [Zero P] [One P] {env : Env P} {portfolio : List (RealmStock P)}
  {users : List RealmUser} {firebase : List (String × Json P)} {clock : DateFields}
  {es : List (Event P)} {s : App P}

namespace App.Origins

variable {k obj : ℕ} {shown : Stock}

/-- What a tap inserted has the displayed code in its encoded form. -/
theorem code_of_tap (h : s.Origins portfolio) {stock : RealmStock P}
    (hadd : s.realm.log[obj]?=some (.add k stock)) (htap : (k,shown)∈s.history.taps) :
    stock.datasetCode=escapedQuery shown.datasetCode := by
  cases h.added obj k stock hadd with
  | inl hex =>
    obtain ⟨hk,_⟩ := hex
    have hpos := (h.taps_lt _ htap).1
    omega
  | inr hex =>
    obtain ⟨answer,ha,hid,_,hreply⟩ := hex
    rw [(getStockDataReply_completed hreply).2.1,
      h.text_of_tap (List.mem_append_right _ (List.mem_map_of_mem ha)) hid htap]

/-- So has the row of its object. -/
theorem code_of_row (h : s.Origins portfolio) {row : Row P} (hr : row∈s.realm.rows)
    {stock : RealmStock P} (hadd : s.realm.log[row.obj]?=some (.add k stock))
    (htap : (k,shown)∈s.history.taps) :
    row.stock.datasetCode=escapedQuery shown.datasetCode := by
  obtain ⟨k',stock',hadd',hstock⟩ := s.realm.logged.origin row hr
  rw [hadd] at hadd'
  cases hadd'
  rw [hstock,RealmStock.datasetCode_setQuote,h.code_of_tap hadd htap]

end App.Origins

/-- A tapped code is stored, requested again and shared as it is exactly when
the encoding for URL hosts leaves all its characters alone. -/
theorem dataset_code_round_trip_iff
    (h : run (App.step env) (App.launch portfolio users firebase clock) es=some s)
    {row : Row P} (hr : row∈s.realm.rows) {k : ℕ} {stock : RealmStock P} {shown : Stock}
    (hadd : s.realm.log[row.obj]?=some (.add k stock)) (htap : (k,shown)∈s.history.taps) :
    s.KeepsCode env row k shown.datasetCode ↔
      ∀c∈shown.datasetCode.toList,urlHostAllowed c=true := by
  have ho := (origins_of_run h).2
  have hcode := ho.code_of_row hr hadd htap
  rw [← Percent.escape_eq_self_iff]
  constructor
  · intro hk
    rw [← hk.stored,hk.stored]
    exact hcode.symm.trans hk.stored
  · intro hsame
    have hplain : escapedQuery shown.datasetCode=shown.datasetCode := hsame
    refine ⟨hcode.trans hplain,?_,?_,?_⟩
    · intro task hm hid
      rw [← ho.text_of_tap hm hid htap]
      exact (ho.issued task hm).requestsDataset
    · intro task hm i version hc
      obtain ⟨_,k',stock',hadd',_,htext⟩ := (ho.issued task hm).refresh i row.obj version hc
      rw [hadd] at hadd'
      cases hadd'
      rw [← hplain,← ho.code_of_tap hadd htap,← htext]
      exact (ho.issued task hm).requestsDataset
    · intro alert ha hrow autoId recipient t ht
      have ht' : s.send autoId recipient=some t := ht
      simp only [App.send_eq ha,hrow,Option.map_some,Option.some.injEq] at ht'
      rw [← ht',hcode,hplain]

/-- Send on the row of a tap writes one message, and that one names the tapped
code exactly when the encoding leaves all its characters alone. -/
theorem message_of_tapped_code
    (h : run (App.step env) (App.launch portfolio users firebase clock) es=some s)
    {row : Row P} (hr : row∈s.realm.rows) {k : ℕ} {stock : RealmStock P} {shown : Stock}
    (hadd : s.realm.log[row.obj]?=some (.add k stock)) (htap : (k,shown)∈s.history.taps)
    {alert : ShareAlert P} (ha : s.alert=some alert) (hrow : s.realm.rows[alert.row]?=some row)
    {name : String} (hu : s.users.head?=some ⟨name⟩) (autoId : String) {recipient : String}
    (hne : recipient≠"") :
    ∃t message,s.step env (.send autoId recipient)=some t ∧
      t.firebase=s.firebase++[(autoId,message)] ∧
      (message=chatMessage name recipient shown.datasetCode ↔
        ∀c∈shown.datasetCode.toList,urlHostAllowed c=true) := by
  have hcode := (origins_of_run h).2.code_of_row hr hadd htap
  obtain ⟨rest,hrest⟩ := List.head?_eq_some_iff.mp hu
  have hsent : (sendStock autoId s.users s.firebase recipient row.stock.datasetCode).2=
      s.firebase++[(autoId,chatMessage name recipient row.stock.datasetCode)] := by
    simp [sendStock,hrest,hne]
  let t : App P := {s with
    alert := none
    firebase := (sendStock autoId s.users s.firebase recipient row.stock.datasetCode).2}
  refine ⟨t,chatMessage name recipient row.stock.datasetCode,?_,hsent,?_⟩
  · rw [App.step,App.send_eq ha,hrow]
    rfl
  · rw [← Percent.escape_eq_self_iff,hcode]
    simp [chatMessage,escapedQuery]

/-- A stock found, tapped and added; then a refresh and an open Share alert. -/
private def tapRun (code : String) : List (Event ℕ) :=
  [.openSearchVC,.textDidChange 0 "brk",
    .searchReply 1 (App.sampleSearchReply [⟨"Berkshire",code⟩]),.mainQueue,.didSelectRow 0 0,
    .quoteReply 2 (App.sampleReply "Berkshire" "2016-04-08" 4),.mainQueue,
    .refreshStocks,.shareRow 0]

/-- A code with an underscore. -/
theorem dataset_code_round_trip_underscore :
    ∃s row,run (App.step App.sampleEnv) (App.sampleLaunch [])
        (tapRun "BRK_B")=some s ∧ row∈s.realm.rows ∧ s.requests.length=2 ∧
      s.KeepsCode App.sampleEnv row 2 "BRK_B" := by
  obtain ⟨s,row,hs,hr,hlen,stock,hadd,htap⟩ : ∃s row,
      run (App.step App.sampleEnv) (App.sampleLaunch []) (tapRun "BRK_B")=some s ∧
      row∈s.realm.rows ∧ s.requests.length=2 ∧ ∃stock,
        s.realm.log[row.obj]?=some (.add 2 stock) ∧
        (2,(⟨"Berkshire","BRK_B"⟩ : Stock))∈s.history.taps :=
    ⟨_,_,rfl,.head _,rfl,_,rfl,.head _⟩
  exact ⟨s,row,hs,hr,hlen,
    (dataset_code_round_trip_iff hs hr hadd htap).mpr (by simp [urlHostAllowed])⟩

/-- A code with a space is stored as `BRK%20B`. -/
theorem dataset_code_encoded :
    ¬∀(es : List (Event ℕ)) (s : App ℕ) (row : Row ℕ) (k : ℕ) (stock : RealmStock ℕ)
        (shown : Stock),
      run (App.step App.sampleEnv) (App.sampleLaunch []) es=some s → row∈s.realm.rows →
      s.realm.log[row.obj]?=some (.add k stock) → (k,shown)∈s.history.taps →
      s.KeepsCode App.sampleEnv row k shown.datasetCode := by
  intro h
  have hk := h (tapRun "BRK B") _ _ 2 _ ⟨"Berkshire","BRK B"⟩ rfl (.head _) rfl (.head _)
  exact absurd hk.stored (by decide)

end SStock
