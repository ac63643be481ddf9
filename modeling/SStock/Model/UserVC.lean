import SStock.Framework.Json

namespace SStock

open Framework

variable {P K : Type}

structure RealmUser where
  userName : String
  deriving DecidableEq

structure UserVC where
  title : Option String
  textField : String
  tableData : List (String × String × String)
  deriving DecidableEq

namespace UserVC

/-- State of the screen once it is loaded; `users` is `realm.objects(RealmUser)`. -/
def viewDidLoad (users : List RealmUser) : UserVC :=
  match users with
  | [] => ⟨none,"",[("","","")]⟩
  | user::_ => ⟨some user.userName,user.userName,[("","","")]⟩

/-- The Save button, on the screen and on the stored users. -/
def onSave (vc : UserVC) (users : List RealmUser) : UserVC × List RealmUser :=
  if vc.textField.isEmpty then ({vc with textField := "Enter a user name"},users)
  else match users with
    | user::rest => (vc,{user with userName := vc.textField}::rest)
    | [] => (vc,[⟨vc.textField⟩])

theorem onSave_of_empty {vc : UserVC} (h : vc.textField="") (users : List RealmUser) :
    vc.onSave users=({vc with textField := "Enter a user name"},users) := by
  unfold onSave
  exact if_pos (by rw [h]; rfl)

/-- Any other text becomes the name of the one user. -/
theorem onSave_of_ne {vc : UserVC} (h : vc.textField≠"") (users : List RealmUser) :
    vc.onSave users=(vc,⟨vc.textField⟩::users.tail) := by
  unfold onSave
  rw [if_neg (by simpa using h)]
  cases users <;> rfl

/-- The ChildAdded block. `same` is the comparison of two texts by `==`, which
in Swift identifies canonically equivalent ones. -/
def childAdded (same : String → String → Bool) (vc : UserVC) (value : Json P) : UserVC :=
  match value.asStrings with
  | none => vc
  | some newChat =>
    match newChat.lookup "recipient",newChat.lookup "sender",newChat.lookup "stock" with
    | some recipient,some sender,some stock =>
      if vc.title.any (same sender) then
        let sender := "You recommended: "++stock++" to "++recipient
        let recipient := ""
        {vc with tableData := (recipient,sender,stock)::vc.tableData}
      else if vc.title.any (same recipient) then
        let sender := sender++" recommends: "++stock
        let recipient := ""
        {vc with tableData := (sender,recipient,stock)::vc.tableData}
      else vc
    | _,_,_ => vc

def numberOfRowsInSection (vc : UserVC) : ℕ := vc.tableData.length

/-- Text and detail text of the cell at `row`; an index out of range traps. -/
def cellForRowAtIndexPath (vc : UserVC) (row : ℕ) : Option (String × String) :=
  vc.tableData[row]?.map fun entry => (entry.1,entry.2.1)

end UserVC

/-- The dictionary `sendStock` writes. -/
def chatMessage (sender recipient stock : String) : Json P :=
  .object [("sender",.string sender),("recipient",.string recipient),("stock",.string stock)]

/-- `sendStock` with the key `childByAutoId` would give; the result and the log
of children. -/
def sendStock (autoId : K) (users : List RealmUser) (log : List (K × Json P))
    (recipient stock : String) : Bool × List (K × Json P) :=
  if recipient.isEmpty then (false,log)
  else match users with
    | user::_ => (true,log++[(autoId,chatMessage user.userName recipient stock)])
    | [] => (false,log)

end SStock
