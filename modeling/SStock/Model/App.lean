import SStock.Model.Realm
import SStock.Model.UserVC

namespace SStock

open Framework StockManager

variable {P : Type}

/-- What the platform supplies: whether `NSURL(string:)` accepts a text, and
the text `String(price)`. -/
structure Env (P : Type) where
  nsurlAccepts : String → Bool
  describe : P → String

/-- What the completion closure passed to `getStockData` captures. `obj` and
`version` record the object the request is for and the length of the log when
it was made; the closure itself only knows the loop index `i`. -/
inductive Completion where
  | refreshStocks (i obj version : ℕ)
  | unwindFromSearchVC
  deriving DecidableEq

structure QuoteTask where
  id : ℕ
  text : String
  url : String
  completion : Completion

structure SearchTask where
  id : ℕ
  vc : ℕ
  url : String

/-- Blocks dispatched to the main queue. -/
inductive Block (P : Type) where
  | refreshStocks (task i obj version : ℕ) (data : RealmStock P)
  | unwindFromSearchVC (task : ℕ) (data : RealmStock P)
  | reloadData
  | searchResults (task vc : ℕ) (stocks : List Stock)

def Completion.block (task : ℕ) (data : RealmStock P) : Completion → Block P
  | .refreshStocks i obj version => .refreshStocks task i obj version data
  | .unwindFromSearchVC => .unwindFromSearchVC task data

/-- A row of the portfolio table as last loaded, and when. -/
structure Cell (P : Type) where
  row : Row P
  version : ℕ

/-- The open Share alert: the captured `indexPath.row` and the cell it was
opened on. -/
structure ShareAlert (P : Type) where
  row : ℕ
  cell : Cell P

/-- `tableView` is what the table last loaded; `typed` lists the requests of
the texts typed and `received` the results shown, oldest first. -/
structure SearchVC where
  tableData : List Stock := []
  selectedStock : Stock := {}
  tableView : List Stock := []
  typed : List ℕ := []
  received : List (ℕ × List Stock) := []

structure StockStatsVC where
  stats : List (List String)
  header : String
  deriving DecidableEq

structure Answer (P : Type) where
  task : QuoteTask
  response : Response P

/-- What the user did and the server answered; read by no handler. -/
structure History (P : Type) where
  taps : List (ℕ × Stock) := []
  answers : List (Answer P) := []
  searchAnswers : List (ℕ × Response P) := []

/-- The running application: the stores, the network tasks and main-queue
blocks in flight, and the screens. -/
structure App (P : Type) where
  realm : Realm P
  users : List RealmUser
  firebase : List (String × Json P)
  quoteTasks : List QuoteTask
  searchTasks : List SearchTask
  mainQueue : List (Block P)
  nextTask : ℕ
  tableView : List (Cell P)
  alert : Option (ShareAlert P)
  statsVC : Option StockStatsVC
  searchVCs : List SearchVC
  clock : DateFields
  history : History P

namespace StockStatsVC

/-- The screen logs `stats[0]` when it is loaded, which traps on no stats. -/
def viewDidLoad (vc : StockStatsVC) : Option StockStatsVC := vc.stats[0]?.map fun _ => vc

def numberOfRowsInSection (vc : StockStatsVC) : ℕ := vc.stats.length

def titleForHeaderInSection (vc : StockStatsVC) (sectionIndex : ℕ) : String :=
  if sectionIndex=0 then vc.header else ""

/-- The four labels of the cell at `row`: left title and stat, right title and
stat. An index out of range traps. -/
def cellForRowAtIndexPath (vc : StockStatsVC) (row : ℕ) :
    Option (String × String × String × String) := do
  let labels ← vc.stats[row]?
  return (← labels[0]?,← labels[1]?,← labels[2]?,← labels[3]?)

end StockStatsVC

namespace SearchVC

def numberOfRowsInSection (vc : SearchVC) : ℕ := vc.tableData.length

/-- The label of the cell at `row`; an index out of range traps. -/
def cellForRowAtIndexPath (vc : SearchVC) (row : ℕ) : Option String :=
  vc.tableData[row]?.map Stock.name

/-- The block of the search completion: new data and a reload in one. -/
def showResults (task : ℕ) (stocks : List Stock) (vc : SearchVC) : SearchVC :=
  {vc with
    tableData := stocks
    tableView := stocks
    received := vc.received++[(task,stocks)]}

end SearchVC

namespace App

def numberOfRowsInSection (s : App P) : ℕ := s.realm.rows.length

def reloadData (s : App P) : App P :=
  {s with tableView := s.realm.rows.map fun row => ⟨row,s.realm.log.length⟩}

/-- `getStockData` up to `task.resume()`. Calls are numbered, also those that
return because the URL is rejected. -/
def getStockData (env : Env P) (s : App P) (text : String) (completion : Completion) : App P :=
  let url := stockDataURL s.clock text
  {s with
    quoteTasks := if env.nsurlAccepts url
      then s.quoteTasks++[⟨s.nextTask,text,url,completion⟩] else s.quoteTasks
    nextTask := s.nextTask+1}

/-- One pass of the loop in `refreshStocks`. -/
def refreshRow (env : Env P) (s : App P) (entry : Row P × ℕ) : App P :=
  s.getStockData env entry.1.stock.datasetCode
    (.refreshStocks entry.2 entry.1.obj s.realm.log.length)

def refreshStocks (env : Env P) (s : App P) : App P :=
  (s.realm.rows.zipIdx.foldl (refreshRow env) s).reloadData

def unwindFromSearchVC (env : Env P) (s : App P) (item : SearchVC) : App P :=
  s.getStockData env item.selectedStock.datasetCode .unwindFromSearchVC

section Replies

variable [Zero P] [One P]

/-- The completion handler of quote task `id` runs with `response`. -/
def quoteReply (s : App P) (id : ℕ) (response : Response P) : Option (App P) :=
  match s.quoteTasks.find? fun task => task.id=id with
  | none => some s
  | some task =>
    let t : App P := {s with
      quoteTasks := s.quoteTasks.filter fun task => task.id≠id
      history.answers := s.history.answers++[⟨task,response⟩]}
    match getStockDataReply (escapedQuery task.text) response with
    | .trapped => none
    | .returned => some t
    | .completed data => some {t with mainQueue := t.mainQueue++[task.completion.block id data]}

/-- The completion handler of search task `id` runs with `response`. -/
def searchReply (s : App P) (id : ℕ) (response : Response P) : Option (App P) :=
  match s.searchTasks.find? fun task => task.id=id with
  | none => some s
  | some task =>
    let t : App P := {s with
      searchTasks := s.searchTasks.filter fun task => task.id≠id
      history.searchAnswers := s.history.searchAnswers++[(id,response)]}
    match StockManager.searchReply response with
    | .trapped => none
    | .returned => some t
    | .completed stocks =>
      some {t with mainQueue := t.mainQueue++[.searchResults id task.vc stocks]}

end Replies

def perform (s : App P) : Block P → Option (App P)
  | .refreshStocks task i _ _ data =>
    (s.realm.write? i task data).map fun realm => {s with realm := realm}
  | .unwindFromSearchVC task data =>
    some {s with realm := s.realm.add task data}.reloadData
  | .reloadData => some s.reloadData
  | .searchResults task vc stocks =>
    some {s with searchVCs := s.searchVCs.modify vc (SearchVC.showResults task stocks)}

/-- The main queue runs its first block. -/
def runMainQueue (s : App P) : Option (App P) :=
  match s.mainQueue with
  | [] => some s
  | block::rest => {s with mainQueue := rest}.perform block

/-- Delete on the displayed row `r`. The reload is dispatched, not made. -/
def deleteRow (s : App P) (r : ℕ) : Option (App P) :=
  match s.tableView[r]? with
  | none => some s
  | some _ => (s.realm.delete? r).map fun realm =>
    {s with realm := realm,mainQueue := s.mainQueue++[.reloadData]}

/-- Share on the displayed row `r`; only one alert is open at a time. -/
def shareRow (s : App P) (r : ℕ) : App P :=
  match s.tableView[r]?,s.alert with
  | some cell,none => {s with alert := some ⟨r,cell⟩}
  | _,_ => s

/-- The handler of Send: the messages after it and, where `sendStock` returns
false, title and message of the alert it presents. -/
def sendAction (s : App P) (alert : ShareAlert P) (autoId recipient : String) :
    Option (List (String × Json P) × Option (String × String)) :=
  s.realm.rows[alert.row]?.map fun row =>
    let (sent,firebase) :=
      sendStock autoId s.users s.firebase recipient row.stock.datasetCode
    (firebase,if sent then none else
      some ("Error bud","You need to setup a user name first."))

/-- Send in the open alert. -/
def send (s : App P) (autoId recipient : String) : Option (App P) :=
  match s.alert with
  | none => some s
  | some alert => (s.sendAction alert autoId recipient).map fun (firebase,_) =>
    {s with alert := none,firebase := firebase}

/-- `prepareForSegue` to `StockStatsVC` with `selectedRow`. -/
def prepareForSegue (env : Env P) (s : App P) (selectedRow : ℕ) : Option StockStatsVC :=
  s.realm.rows[selectedRow]?.map fun row =>
    ⟨[["Open",env.describe row.stock.openPrice,"Close",env.describe row.stock.close],
      ["High",env.describe row.stock.high,"Low",env.describe row.stock.low]],
      row.stock.datasetCode⟩

def selectRow (env : Env P) (s : App P) (r : ℕ) : Option (App P) :=
  match s.tableView[r]? with
  | none => some s
  | some _ => (s.prepareForSegue env r).map fun vc => {s with statsVC := some vc}

/-- Back in the statistics screen. The `viewWillAppear` of the portfolio screen
is an event of its own. -/
def back (s : App P) : App P := {s with statsVC := none}

/-- The table view asks for the cell of a row it has loaded. -/
def cellForRow (s : App P) (r : ℕ) : Option (App P) :=
  match s.tableView[r]? with
  | none => some s
  | some _ => s.realm.rows[r]?.map fun row =>
    {s with tableView := s.tableView.set r ⟨row,s.realm.log.length⟩}

/-- A keystroke in search screen `vc`. -/
def textDidChange (env : Env P) (s : App P) (vc : ℕ) (text : String) : App P :=
  match s.searchVCs[vc]? with
  | none => s
  | some _ =>
    let url := searchURL text
    {s with
      searchTasks := if env.nsurlAccepts url
        then s.searchTasks++[⟨s.nextTask,vc,url⟩] else s.searchTasks
      searchVCs := s.searchVCs.modify vc fun v => {v with typed := v.typed++[s.nextTask]}
      nextTask := s.nextTask+1}

/-- A tap on row `r` of search screen `vc`, up to the end of the unwind segue. -/
def didSelectRow (env : Env P) (s : App P) (vc r : ℕ) : Option (App P) :=
  match s.searchVCs[vc]? with
  | none => some s
  | some v =>
    match v.tableView[r]? with
    | none => some s
    | some shown => v.tableData[r]?.map fun stock =>
      let item : SearchVC := {v with selectedStock := stock}
      let t : App P := {s with
        searchVCs := s.searchVCs.set vc item
        history.taps := s.history.taps++[(s.nextTask,shown)]}
      t.unwindFromSearchVC env item

/-- Save in a user screen whose text field holds `text`. -/
def onSave (s : App P) (text : String) : App P :=
  {s with users := ({UserVC.viewDidLoad s.users with textField := text}.onSave s.users).2}

end App

/-- User actions, screen appearances, replies and turns of the main queue. -/
inductive Event (P : Type) where
  | viewWillAppear
  | refreshStocks
  | quoteReply (id : ℕ) (response : Response P)
  | searchReply (id : ℕ) (response : Response P)
  | mainQueue
  | deleteRow (r : ℕ)
  | shareRow (r : ℕ)
  | send (autoId recipient : String)
  | cancelAlert
  | selectRow (r : ℕ)
  | back
  | cellForRow (r : ℕ)
  | openSearchVC
  | textDidChange (vc : ℕ) (text : String)
  | didSelectRow (vc r : ℕ)
  | onSave (text : String)
  | clock (startDate : DateFields)

namespace App

/-- One event. `none` is a trap; an event whose target does not exist is not
sent and leaves the state alone. -/
def step [Zero P] [One P] (env : Env P) (s : App P) : Event P → Option (App P)
  | .viewWillAppear => some s.reloadData
  | .refreshStocks => some (s.refreshStocks env)
  | .quoteReply id response => s.quoteReply id response
  | .searchReply id response => s.searchReply id response
  | .mainQueue => s.runMainQueue
  | .deleteRow r => s.deleteRow r
  | .shareRow r => some (s.shareRow r)
  | .send autoId recipient => s.send autoId recipient
  | .cancelAlert => some {s with alert := none}
  | .selectRow r => s.selectRow env r
  | .back => some s.back
  | .cellForRow r => s.cellForRow r
  | .openSearchVC => some {s with searchVCs := s.searchVCs++[{}]}
  | .textDidChange vc text => some (s.textDidChange env vc text)
  | .didSelectRow vc r => s.didSelectRow env vc r
  | .onSave text => some (s.onSave text)
  | .clock startDate => some {s with clock := startDate}

/-- The stored portfolio as a table; its insertions belong to earlier runs and
carry the task number 0. -/
def storedRows (portfolio : List (RealmStock P)) : List (Row P) :=
  portfolio.zipIdx.map fun entry => ⟨entry.2,entry.1⟩

theorem mem_storedRows {portfolio : List (RealmStock P)} {row : Row P}
    (h : row∈storedRows portfolio) : portfolio[row.obj]?=some row.stock := by
  obtain ⟨entry,he,rfl⟩ := List.mem_map.mp h
  exact List.mem_zipIdx_iff_getElem?.mp he

theorem map_obj_storedRows (portfolio : List (RealmStock P)) :
    (storedRows portfolio).map Row.obj=List.range portfolio.length := by
  rw [storedRows,List.map_map,List.range_eq_range']
  exact List.zipIdx_map_snd 0 portfolio

theorem writes_stored (obj : ℕ) (portfolio : List (RealmStock P)) :
    writes obj (portfolio.map (Change.add 0))=[] := by
  simp [writes,List.filterMap_map]

theorem logged_storedRows (portfolio : List (RealmStock P)) :
    Logged (storedRows portfolio) (portfolio.map (.add 0)) := by
  refine ⟨?_,?_,fun obj _ => writes_stored obj portfolio⟩
  · rw [map_obj_storedRows]
    exact List.nodup_range
  · intro row hr
    exact ⟨0,row.stock,by simp [mem_storedRows hr],by simp [writes_stored]⟩

/-- The application after `viewDidLoad` and the first `viewWillAppear` of the
portfolio screen. -/
def launch (portfolio : List (RealmStock P)) (users : List RealmUser)
    (firebase : List (String × Json P)) (clock : DateFields) : App P :=
  reloadData {
    realm := ⟨storedRows portfolio,portfolio.map (.add 0),logged_storedRows portfolio⟩
    users := users
    firebase := firebase
    quoteTasks := []
    searchTasks := []
    mainQueue := []
    nextTask := 1
    tableView := []
    alert := none
    statsVC := none
    searchVCs := []
    clock := clock
    history := {} }

section Sample

/-- An instance for concrete runs: prices are natural numbers and every URL is
accepted. -/
def sampleEnv : Env ℕ := ⟨fun _ => true,fun n => toString n⟩

def sampleStock (code : String) (price : ℕ) : RealmStock ℕ :=
  ⟨code,code,"2016-04-01",price,price,price,price⟩

def sampleReply (name date : String) (price : ℕ) : Response ℕ :=
  .json (.object [("dataset",.object [("name",.string name),("data",.array [.array
    [.string date,.number price,.number price,.number price,.number price]])])])

def sampleSearchReply (stocks : List Stock) : Response ℕ :=
  .json (.object [("datasets",.array (stocks.map fun stock =>
    .object [("name",.string stock.name),("dataset_code",.string stock.datasetCode)]))])

def sampleLaunch (portfolio : List (RealmStock ℕ)) : App ℕ :=
  launch portfolio [⟨"ann"⟩] [] ⟨2016,4,8⟩

end Sample

end App

end SStock
