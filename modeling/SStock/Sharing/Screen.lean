import SStock.Sharing.Messages

namespace SStock

open Framework

variable {P : Type}

namespace UserVC

theorem title_viewDidLoad (users : List RealmUser) :
    (viewDidLoad users).title=users.head?.map RealmUser.userName := by cases users <;> rfl

theorem tableData_viewDidLoad (users : List RealmUser) :
    (viewDidLoad users).tableData=[("","","")] := by cases users <;> rfl

/-- Save touches the text field only. -/
theorem onSave_keeps (vc : UserVC) (users : List RealmUser) :
    (vc.onSave users).1.title=vc.title ∧ (vc.onSave users).1.tableData=vc.tableData := by
  by_cases he : vc.textField=""
  · rw [onSave_of_empty he]
    exact ⟨rfl,rfl⟩
  · rw [onSave_of_ne he]
    exact ⟨rfl,rfl⟩

end UserVC

/-- A user screen with the name it was opened under and the children it has
been given, oldest first. -/
structure Screen (P : Type) where
  vc : UserVC
  openedUnder : Option String
  delivered : List (Json P)

namespace Screen

def opened (users : List RealmUser) : Screen P :=
  ⟨UserVC.viewDidLoad users,users.head?.map RealmUser.userName,[]⟩

def edit (text : String) (sc : Screen P) : Screen P := {sc with vc.textField := text}

def onSave (sc : Screen P) (users : List RealmUser) : Screen P × List RealmUser :=
  let saved := sc.vc.onSave users
  ({sc with vc := saved.1},saved.2)

def childAdded (same : String → String → Bool) (value : Json P) (sc : Screen P) : Screen P :=
  {sc with vc := sc.vc.childAdded same value,delivered := sc.delivered++[value]}

/-- The rows of the delivered children, newest first, above the initial row. -/
structure Valid (same : String → String → Bool) (sc : Screen P) : Prop where
  title : sc.vc.title=sc.openedUnder
  tableData : sc.vc.tableData=(sc.delivered.filterMap fun value =>
    (Entry.of same sc.openedUnder value).map Entry.row).reverse++[("","","")]

variable {same : String → String → Bool}

theorem valid_opened (users : List RealmUser) : (opened users : Screen P).Valid same :=
  ⟨UserVC.title_viewDidLoad users,UserVC.tableData_viewDidLoad users⟩

namespace Valid

variable {sc : Screen P}

theorem edit (h : sc.Valid same) (text : String) : (sc.edit text).Valid same :=
  ⟨h.title,h.tableData⟩

theorem onSave (h : sc.Valid same) (users : List RealmUser) : (sc.onSave users).1.Valid same := by
  obtain ⟨htitle,hdata⟩ := UserVC.onSave_keeps sc.vc users
  exact ⟨htitle.trans h.title,hdata.trans h.tableData⟩

theorem childAdded (h : sc.Valid same) (value : Json P) : (sc.childAdded same value).Valid same := by
  refine ⟨?_,?_⟩
  · show (sc.vc.childAdded same value).title=_
    rw [UserVC.childAdded_eq]
    exact h.title
  · show (sc.vc.childAdded same value).tableData=
      ((sc.delivered++[value]).filterMap fun value =>
        (Entry.of same sc.openedUnder value).map Entry.row).reverse++[("","","")]
    rw [UserVC.childAdded_eq,h.title,h.tableData]
    cases he : Entry.of same sc.openedUnder value <;> simp [he]

end Valid

end Screen

end SStock
