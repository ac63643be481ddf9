import SStock.Model.UserVC

namespace SStock

open Framework

variable {P K : Type} (same : String → String → Bool)

/-- What a message is to the user of a screen. -/
inductive Entry where
  | recommended (recipient stock : String)
  | received (sender stock : String)
  deriving DecidableEq

namespace Entry

/-- How the screen words it. -/
def row : Entry → String × String × String
  | .recommended recipient stock =>
    ("","You recommended: "++stock++" to "++recipient,stock)
  | .received sender stock => (sender++" recommends: "++stock,"",stock)

/-- A child concerns the user `name` if it is a dictionary of texts with the
three keys and `name` is its sender, or else its recipient. -/
def of (name : Option String) (value : Json P) : Option Entry :=
  name.bind fun u => value.asStrings.bind fun chat =>
    (chat.lookup "recipient").bind fun recipient => (chat.lookup "sender").bind fun sender =>
      (chat.lookup "stock").bind fun stock =>
        if same sender u then some (.recommended recipient stock)
        else if same recipient u then some (.received sender stock)
        else none

variable {same}

@[simp] theorem of_none (value : Json P) : Entry.of same none value=none := rfl

/-- The message `sendStock` writes, as it appears to the user `u`. -/
theorem of_chatMessage (u sender recipient stock : String) :
    Entry.of same (some u) (chatMessage sender recipient stock : Json P)=
      if same sender u then some (.recommended recipient stock)
      else if same recipient u then some (.received sender stock)
      else none := rfl

/-- Different entries are worded differently. -/
theorem row_injective : Function.Injective row := by
  intro a b h
  have hfirst := congrArg (fun r => r.1.toList) h
  have hsecond := congrArg (fun r => r.2.1.toList) h
  have hstock := congrArg (fun r => r.2.2) h
  cases a with
  | recommended recipient stock =>
    cases b with
    | recommended recipient' stock' =>
      obtain rfl : stock=stock' := hstock
      simp only [row,String.toList_append,List.append_cancel_left_eq] at hsecond
      rw [String.toList_inj.mp hsecond]
    | received sender' stock' => simp [row] at hsecond
  | received sender stock =>
    cases b with
    | recommended recipient' stock' => simp [row] at hsecond
    | received sender' stock' =>
      obtain rfl : stock=stock' := hstock
      simp only [row,String.toList_append,List.append_cancel_right_eq] at hfirst
      rw [String.toList_inj.mp hfirst]

end Entry

namespace UserVC

/-- The ChildAdded block inserts the row of the entry, if there is one, at the
top, and does nothing else. -/
theorem childAdded_eq (vc : UserVC) (value : Json P) :
    vc.childAdded same value=
      {vc with tableData :=
        ((Entry.of same vc.title value).map Entry.row).toList++vc.tableData} := by
  obtain ⟨title,textField,tableData⟩ := vc
  cases hv : value.asStrings with
  | none => cases title <;> simp [childAdded,Entry.of,hv]
  | some chat =>
    cases hr : chat.lookup "recipient" with
    | none => cases title <;> simp [childAdded,Entry.of,hv,hr]
    | some recipient =>
      cases hs : chat.lookup "sender" with
      | none => cases title <;> simp [childAdded,Entry.of,hv,hr,hs]
      | some sender =>
        cases hst : chat.lookup "stock" with
        | none => cases title <;> simp [childAdded,Entry.of,hv,hr,hs,hst]
        | some stock =>
          cases title with
          | none => simp [childAdded,hv,hr,hs,hst]
          | some u =>
            -- the sender is looked at first
            by_cases hsender : same sender u
            · simp [childAdded,Entry.of,hv,hr,hs,hst,hsender,Entry.row]
            · by_cases hrecipient : same recipient u <;>
                simp [childAdded,Entry.of,hv,hr,hs,hst,hsender,hrecipient,Entry.row]

/-- The blocks of a sequence of children, in the order they are delivered. -/
def receive (vc : UserVC) (values : List (Json P)) : UserVC :=
  values.foldl (UserVC.childAdded same) vc

theorem receive_eq (vc : UserVC) (values : List (Json P)) :
    vc.receive same values={vc with tableData :=
      (values.filterMap fun value => (Entry.of same vc.title value).map Entry.row).reverse++
        vc.tableData} := by
  induction values generalizing vc with
  | nil => rfl
  | cons value values ih =>
    change (vc.childAdded same value).receive same values=_
    rw [ih,childAdded_eq]
    cases h : Entry.of same vc.title value <;> simp [h]

end UserVC

end SStock
