import SStock.Framework.Json
import SStock.Framework.Percent
import SStock.Framework.UrlText
import Mathlib.Data.Nat.Digits.Defs

namespace SStock

open Framework

variable {P : Type}

structure Stock where
  name : String := ""
  datasetCode : String := ""
  deriving DecidableEq

/-- Prices are values of an arbitrary type `P`. -/
structure RealmStock (P : Type) where
  name : String
  datasetCode : String
  date : String
  openPrice : P
  high : P
  low : P
  close : P
  deriving DecidableEq

/-- The five fields that travel together from one server reply. -/
structure Quote (P : Type) where
  date : String
  openPrice : P
  high : P
  low : P
  close : P
  deriving DecidableEq

def RealmStock.quote (s : RealmStock P) : Quote P :=
  ⟨s.date,s.openPrice,s.high,s.low,s.close⟩

def RealmStock.setQuote (s : RealmStock P) (q : Quote P) : RealmStock P :=
  ⟨s.name,s.datasetCode,q.date,q.openPrice,q.high,q.low,q.close⟩

@[simp] theorem RealmStock.quote_setQuote (s : RealmStock P) (q : Quote P) :
    (s.setQuote q).quote=q := rfl

@[simp] theorem RealmStock.name_setQuote (s : RealmStock P) (q : Quote P) :
    (s.setQuote q).name=s.name := rfl

@[simp] theorem RealmStock.datasetCode_setQuote (s : RealmStock P) (q : Quote P) :
    (s.setQuote q).datasetCode=s.datasetCode := rfl

@[simp] theorem RealmStock.close_setQuote (s : RealmStock P) (q : Quote P) :
    (s.setQuote q).close=q.close := rfl

@[simp] theorem RealmStock.setQuote_quote (s : RealmStock P) : s.setQuote s.quote=s := rfl

@[simp] theorem RealmStock.setQuote_setQuote (s : RealmStock P) (q r : Quote P) :
    (s.setQuote q).setQuote r=s.setQuote r := rfl

/-- What a data task hands to its completion handler. -/
inductive Response (P : Type) where
  | error
  | notJson
  | json (body : Json P)

/-- Year, month and day as the date formatter prints them. -/
structure DateFields where
  year : ℕ
  month : ℕ
  day : ℕ

namespace StockManager

def apiKey : String := "&api_key=L9rgCQ9xtMJ2vExshXgw"

/-- `URLHostAllowedCharacterSet`. -/
def urlHostAllowed (c : Char) : Bool :=
  c.isAlphanum || "!$&'()*+,-.:;=[]_~".toList.contains c

def escapedQuery (text : String) : String := Percent.escape urlHostAllowed text

/-- What the escaping never writes and does not leave alone. -/
theorem notMem_escapedQuery {c : Char} (ha : urlHostAllowed c=false) (hp : c ≠ '%')
    (hx : Percent.hexValue c=none) (text : String) : c∉(escapedQuery text).toList :=
  Percent.notMem_escape ha hp hx text

def pad (width n : ℕ) : String := String.ofList ((Nat.toDigits 10 n).leftpad width '0')

/-- The format `YYYY-MM-dd`. -/
def stringFromDate (d : DateFields) : String :=
  pad 4 d.year++"-"++pad 2 d.month++"-"++pad 2 d.day

def searchURL (text : String) : String :=
  "https://www.quandl.com/api/v3/datasets.json?database_code=WIKI&query="++
    escapedQuery text++"&per_page=10&page=1"++apiKey

def stockDataURL (startDate : DateFields) (text : String) : String :=
  "https://www.quandl.com/api/v3/datasets/WIKI/"++escapedQuery text++".json?start_date="++
    stringFromDate startDate++apiKey

/-- The common head of both reply handlers. Without fragments allowed a body
that is neither an array nor an object throws and the handler returns; an array
fails the forced cast to a dictionary. -/
def jsonObject : Response P → Handled (List (String × Json P))
  | .error => .returned
  | .notJson => .returned
  | .json (.object json) => .completed json
  | .json (.array _) => .trapped
  | .json _ => .returned

def searchLoop : List Stock → List (List (String × Json P)) → Handled (List Stock)
  | data,[] => .completed data
  | data,stocks::rest => do
    let name ← Handled.orTrap ((stocks.lookup "name").bind Json.asString)
    let datasetCode ← Handled.orTrap ((stocks.lookup "dataset_code").bind Json.asString)
    searchLoop (data++[⟨name,datasetCode⟩]) rest

/-- Reply closure of `search`. -/
def searchReply (response : Response P) : Handled (List Stock) := do
  let json ← jsonObject response
  let datasets ← Handled.orReturn ((json.lookup "datasets").bind Json.asObjects)
  searchLoop [] datasets

/-- Reply closure of `getStockData`; `escapedQuery` is captured from the request. -/
def getStockDataReply [Zero P] [One P] (escapedQuery : String) (response : Response P) :
    Handled (RealmStock P) := do
  let json ← jsonObject response
  let dataset ← Handled.orReturn ((json.lookup "dataset").bind Json.asObject)
  let name ← Handled.orReturn ((dataset.lookup "name").bind Json.asString)
  let data ← Handled.orReturn ((dataset.lookup "data").bind Json.asArrays)
  let recentData ← Handled.orTrap data[0]?
  let date ← Handled.orTrap (recentData[0]?.bind Json.asString)
  let openPrice ← Handled.orTrap (recentData[1]?.bind Json.asDouble)
  let high ← Handled.orTrap (recentData[2]?.bind Json.asDouble)
  let low ← Handled.orTrap (recentData[3]?.bind Json.asDouble)
  let close ← Handled.orTrap (recentData[4]?.bind Json.asDouble)
  return {
    name := name
    datasetCode := escapedQuery
    date := date
    openPrice := openPrice
    high := high
    low := low
    close := close }

end StockManager

namespace Response

/-- The members of the `dataset` object of a quote reply. -/
def dataset : Response P → Option (List (String × Json P))
  | .json (.object members) => (members.lookup "dataset").bind Json.asObject
  | _ => none

def datasetName (response : Response P) : Option String :=
  response.dataset.bind fun d => (d.lookup "name").bind Json.asString

/-- First row of the data table of a quote reply. -/
def firstRow (response : Response P) : Option (List (Json P)) :=
  response.dataset.bind fun d => (d.lookup "data").bind fun j => j.asArrays.bind (·[0]?)

/-- The first row starts with the date and the four prices of `q`, in the
order date, open, high, low, close. -/
def HasQuote [Zero P] [One P] (response : Response P) (q : Quote P) : Prop :=
  ∃row,response.firstRow=some row ∧ row[0]?.bind Json.asString=some q.date ∧
    row[1]?.bind Json.asDouble=some q.openPrice ∧ row[2]?.bind Json.asDouble=some q.high ∧
    row[3]?.bind Json.asDouble=some q.low ∧ row[4]?.bind Json.asDouble=some q.close

theorem HasQuote.unique [Zero P] [One P] {response : Response P} {q r : Quote P}
    (hq : response.HasQuote q) (hr : response.HasQuote r) : q=r := by
  obtain ⟨row,h,h0,h1,h2,h3,h4⟩ := hq
  obtain ⟨row',h',h0',h1',h2',h3',h4'⟩ := hr
  obtain rfl : row=row' := Option.some.inj (h.symm.trans h')
  cases q
  cases r
  simp_all

end Response

namespace StockManager

variable [Zero P] [One P]

/-- What a completed quote reply delivers: name and quote of the reply, code of
the request. -/
theorem getStockDataReply_completed {escapedQuery : String} {response : Response P}
    {data : RealmStock P} (h : getStockDataReply escapedQuery response=.completed data) :
    response.datasetName=some data.name ∧ data.datasetCode=escapedQuery ∧
      response.HasQuote data.quote := by
  simp only [getStockDataReply,Handled.bind_eq_completed,Handled.orReturn_eq_completed,
    Handled.orTrap_eq_completed,Handled.pure_eq] at h
  obtain ⟨json,hjson,dataset,hdataset,name,hname,rows,hrows,row,hrow,date,h0,op,h1,hi,h2,
    lo,h3,cl,h4,hdata⟩ := h
  cases hdata
  have hd : response.dataset=some dataset := by
    unfold jsonObject at hjson
    split at hjson <;> simp_all [Response.dataset]
  refine ⟨?_,rfl,row,?_,h0,h1,h2,h3,h4⟩
  · rw [Response.datasetName,hd]
    exact hname
  · obtain ⟨j,hj,hr⟩ := Option.bind_eq_some_iff.mp hrows
    rw [Response.firstRow,hd]
    simp only [Option.bind_some,hj,hr,hrow]

end StockManager

end SStock
