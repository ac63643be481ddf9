import SStock.Framework.Run
import SStock.Sharing.Screen

namespace SStock

open Framework

variable {P : Type}

namespace UserVC

/-- The ChildAdded block comes to its end, where it dispatches a reload, unless
a key is missing in a dictionary of texts. -/
def dispatchesReload (value : Json P) : Bool :=
  match value.asStrings with
  | none => true
  | some newChat =>
    (newChat.lookup "recipient").isSome && (newChat.lookup "sender").isSome &&
      (newChat.lookup "stock").isSome

/-- The cells of all rows. -/
def cells (vc : UserVC) : List (String × String) :=
  vc.tableData.map fun entry => (entry.1,entry.2.1)

theorem getElem?_cells (vc : UserVC) (r : ℕ) : vc.cells[r]?=vc.cellForRowAtIndexPath r :=
  List.getElem?_map

theorem length_cells (vc : UserVC) : vc.cells.length=vc.numberOfRowsInSection := List.length_map _

/-- What concerns the user is a dictionary of texts with all three keys. -/
theorem dispatchesReload_of_entry {same : String → String → Bool} {name : Option String}
    {value : Json P} {entry : Entry} (h : Entry.of same name value=some entry) :
    dispatchesReload value=true := by
  obtain ⟨u,_,h⟩ := Option.bind_eq_some_iff.mp h
  obtain ⟨chat,hv,h⟩ := Option.bind_eq_some_iff.mp h
  obtain ⟨recipient,hr,h⟩ := Option.bind_eq_some_iff.mp h
  obtain ⟨sender,hs,h⟩ := Option.bind_eq_some_iff.mp h
  obtain ⟨stock,hst,_⟩ := Option.bind_eq_some_iff.mp h
  rw [dispatchesReload,hv]
  show ((chat.lookup "recipient").isSome && (chat.lookup "sender").isSome &&
    (chat.lookup "stock").isSome)=true
  rw [hr,hs,hst]
  rfl

end UserVC

/-- A user screen with the cells its table last loaded and the number of reloads
dispatched and not yet made. -/
structure FeedScreen (P : Type) extends Screen P where
  tableView : List (String × String)
  reloads : ℕ

namespace FeedScreen

/-- Children that arrive, turns of the main queue, cells the table asks for
again, and what the user does with the text field. `onSave` has the users then
stored. -/
inductive Event (P : Type) where
  | childAdded (value : Json P)
  | reloadData
  | cellForRow (r : ℕ)
  | edit (text : String)
  | onSave (users : List RealmUser)

def Event.child : Event P → Option (Json P)
  | .childAdded value => some value
  | _ => none

/-- The screen as it first appears. -/
def opened (users : List RealmUser) : FeedScreen P :=
  ⟨.opened users,(UserVC.viewDidLoad users).cells,0⟩

/-- One event; `none` is a trap. -/
def step (same : String → String → Bool) (s : FeedScreen P) : Event P → Option (FeedScreen P)
  | .childAdded value => some {s with
      toScreen := s.toScreen.childAdded same value
      reloads := if UserVC.dispatchesReload value then s.reloads+1 else s.reloads}
  | .reloadData =>
    if s.reloads=0 then some s else some {s with tableView := s.vc.cells,reloads := s.reloads-1}
  | .cellForRow r =>
    match s.tableView[r]? with
    | none => some s
    | some _ => (s.vc.cellForRowAtIndexPath r).map fun cell =>
      {s with tableView := s.tableView.set r cell}
  | .edit text => some {s with toScreen := s.toScreen.edit text}
  | .onSave users => some {s with toScreen := (s.toScreen.onSave users).1}

/-- The table of the screen is behind its data by the rows inserted since the
last reload: each cell is that of a row at most so many places further down. -/
structure Lagging (s : FeedScreen P) : Prop where
  length : s.tableView.length ≤ s.vc.numberOfRowsInSection
  cells : ∀r cell,s.tableView[r]?=some cell →
    ∃k,k+s.tableView.length ≤ s.vc.numberOfRowsInSection ∧
      s.vc.cellForRowAtIndexPath (r+k)=some cell
  synced : s.reloads=0 → s.tableView.length=s.vc.numberOfRowsInSection

variable {same : String → String → Bool} {s t : FeedScreen P}

/-- A table that has just been reloaded. -/
theorem Lagging.loaded (h : s.tableView=s.vc.cells) : Lagging s := by
  have hlength : s.tableView.length=s.vc.numberOfRowsInSection := by
    rw [h,UserVC.length_cells]
  refine ⟨le_of_eq hlength,fun r cell hc => ⟨0,by omega,?_⟩,fun _ => hlength⟩
  rw [h,UserVC.getElem?_cells] at hc
  exact hc

theorem lagging_opened (users : List RealmUser) : Lagging (opened users : FeedScreen P) :=
  Lagging.loaded rfl

namespace Lagging

/-- A change that leaves rows, table and reloads alone. -/
theorem same_rows (h : Lagging s) (hd : t.vc.tableData=s.vc.tableData)
    (hv : t.tableView=s.tableView) (hr : t.reloads=s.reloads) : Lagging t := by
  have hn : t.vc.numberOfRowsInSection=s.vc.numberOfRowsInSection := by
    rw [UserVC.numberOfRowsInSection,hd]
    rfl
  have hcell (r : ℕ) : t.vc.cellForRowAtIndexPath r=s.vc.cellForRowAtIndexPath r := by
    rw [UserVC.cellForRowAtIndexPath,hd]
    rfl
  refine ⟨by rw [hv,hn]; exact h.length,?_,by rw [hv,hr,hn]; exact h.synced⟩
  intro r cell hc
  rw [hv] at hc
  obtain ⟨k,hk,hcell'⟩ := h.cells r cell hc
  exact ⟨k,by rw [hv,hn]; exact hk,by rw [hcell]; exact hcell'⟩

/-- An insertion at the top, with a reload dispatched. -/
theorem insert (h : Lagging s) {row : String × String × String}
    (hd : t.vc.tableData=row::s.vc.tableData) (hv : t.tableView=s.tableView)
    (hr : t.reloads=s.reloads+1) : Lagging t := by
  have hlength := h.length
  unfold UserVC.numberOfRowsInSection at hlength
  have hn : t.vc.numberOfRowsInSection=s.vc.tableData.length+1 := by
    rw [UserVC.numberOfRowsInSection,hd,List.length_cons]
  refine ⟨?_,fun r cell hc => ?_,fun hzero => by omega⟩
  · rw [hn,hv]
    omega
  · rw [hv] at hc
    obtain ⟨k,hk,hcell⟩ := h.cells r cell hc
    unfold UserVC.numberOfRowsInSection at hk
    refine ⟨k+1,?_,?_⟩
    · rw [hn,hv]
      omega
    · rw [← Nat.add_assoc,UserVC.cellForRowAtIndexPath,hd,List.getElem?_cons_succ]
      exact hcell

theorem childAdded (h : Lagging s) (value : Json P) :
    Lagging {s with
      toScreen := s.toScreen.childAdded same value
      reloads := if UserVC.dispatchesReload value then s.reloads+1 else s.reloads} := by
  have hdata : (s.vc.childAdded same value).tableData=
      ((Entry.of same s.vc.title value).map Entry.row).toList++s.vc.tableData := by
    rw [UserVC.childAdded_eq]
  cases he : Entry.of same s.vc.title value with
  | some entry =>
    rw [he] at hdata
    exact h.insert hdata rfl (if_pos (UserVC.dispatchesReload_of_entry he))
  | none =>
    rw [he] at hdata
    by_cases hreload : UserVC.dispatchesReload value=true
    · rw [if_pos hreload]
      -- a reload too many does no harm
      have hsame : Lagging {s with toScreen := s.toScreen.childAdded same value} :=
        h.same_rows hdata rfl rfl
      exact ⟨hsame.length,hsame.cells,fun hzero => by cases hzero⟩
    · rw [if_neg hreload]
      exact h.same_rows hdata rfl rfl

/-- A cell in the table is a row of the data, so asking for it again does not
trap. -/
theorem cellForRow (h : Lagging s) {r : ℕ} (hr : r<s.tableView.length) :
    ∃cell,s.vc.cellForRowAtIndexPath r=some cell ∧
      Lagging {s with tableView := s.tableView.set r cell} := by
  have hlength := h.length
  have hlt : r<s.vc.cells.length := by
    rw [UserVC.length_cells]
    omega
  obtain ⟨cell,hcell⟩ : ∃cell,s.vc.cells[r]?=some cell := ⟨_,List.getElem?_eq_getElem hlt⟩
  rw [UserVC.getElem?_cells] at hcell
  refine ⟨cell,hcell,?_,?_,?_⟩
  · rw [List.length_set]
    exact hlength
  · intro j other hother
    rw [List.length_set]
    rw [List.getElem?_set] at hother
    split_ifs at hother with hj
    · obtain rfl : cell=other := Option.some.inj hother
      exact ⟨0,by rw [Nat.zero_add]; exact hlength,hj ▸ hcell⟩
    · exact h.cells j other hother
  · rw [List.length_set]
    exact h.synced

theorem step (h : Lagging s) (e : Event P) : ∃t,s.step same e=some t ∧ Lagging t := by
  cases e with
  | childAdded value => exact ⟨_,rfl,h.childAdded value⟩
  | reloadData =>
    rw [FeedScreen.step]
    split_ifs
    · exact ⟨s,rfl,h⟩
    · exact ⟨_,rfl,Lagging.loaded rfl⟩
  | cellForRow r =>
    rw [FeedScreen.step]
    cases hc : s.tableView[r]? with
    | none => exact ⟨s,rfl,h⟩
    | some cell =>
      obtain ⟨now,hnow,hlagging⟩ := h.cellForRow (List.getElem?_eq_some_iff.mp hc).1
      exact ⟨_,by rw [hnow]; rfl,hlagging⟩
  | edit text => exact ⟨_,rfl,h.same_rows rfl rfl rfl⟩
  | onSave users =>
    exact ⟨_,rfl,h.same_rows (UserVC.onSave_keeps s.vc users).2 rfl rfl⟩

/-- A table with no reload left shows every row. -/
theorem shows (h : Lagging s) (hr : s.reloads=0) (r : ℕ) :
    s.tableView[r]?=s.vc.cellForRowAtIndexPath r := by
  have hlength := h.synced hr
  cases hc : s.tableView[r]? with
  | none =>
    have hge := List.getElem?_eq_none_iff.mp hc
    rw [← UserVC.getElem?_cells,eq_comm,List.getElem?_eq_none_iff,UserVC.length_cells]
    omega
  | some cell =>
    obtain ⟨k,hk,hcell⟩ := h.cells r cell hc
    obtain rfl : k=0 := by omega
    exact hcell.symm

end Lagging

/-- The screen shows what it was given, which are the children so far, under the
name it was opened under. -/
structure Fed (same : String → String → Bool) (users : List RealmUser) (es : List (Event P))
    (s : FeedScreen P) : Prop where
  valid : s.toScreen.Valid same
  openedUnder : s.openedUnder=users.head?.map RealmUser.userName
  delivered : s.delivered=es.filterMap Event.child

namespace Fed

variable {users : List RealmUser} {es : List (Event P)} {e : Event P}

/-- Steps that are given no child. -/
theorem kept (h : Fed same users es s) (he : e.child=none) (hvalid : t.toScreen.Valid same)
    (hopened : t.openedUnder=s.openedUnder) (hdelivered : t.delivered=s.delivered) :
    Fed same users (es++[e]) t := by
  refine ⟨hvalid,hopened.trans h.openedUnder,?_⟩
  have hchild : [e].filterMap Event.child=[] := by simp [he]
  rw [hdelivered,h.delivered,List.filterMap_append,hchild,List.append_nil]

theorem step (h : Fed same users es s) (hs : s.step same e=some t) :
    Fed same users (es++[e]) t := by
  cases e with
  | childAdded value =>
    cases hs
    refine ⟨h.valid.childAdded value,h.openedUnder,?_⟩
    show s.delivered++[value]=_
    rw [h.delivered,List.filterMap_append]
    rfl
  | reloadData =>
    rw [FeedScreen.step] at hs
    split_ifs at hs
    · cases hs
      exact h.kept rfl h.valid rfl rfl
    · cases hs
      exact h.kept rfl h.valid rfl rfl
  | cellForRow r =>
    rw [FeedScreen.step] at hs
    split at hs
    · cases hs
      exact h.kept rfl h.valid rfl rfl
    · obtain ⟨cell,_,rfl⟩ := Option.map_eq_some_iff.mp hs
      exact h.kept rfl h.valid rfl rfl
  | edit text =>
    cases hs
    exact h.kept rfl (h.valid.edit text) rfl rfl
  | onSave users =>
    cases hs
    exact h.kept rfl (h.valid.onSave users) rfl rfl

/-- The rows, by the events alone. -/
theorem tableData (h : Fed same users es s) : s.vc.tableData=
    ((es.filterMap Event.child).filterMap fun value =>
      (Entry.of same (users.head?.map RealmUser.userName) value).map Entry.row).reverse++
        [("","","")] := by
  rw [h.valid.tableData,h.delivered,h.openedUnder]

end Fed

/-- Whatever happens to a user screen, it does not trap. -/
theorem run_opened (same : String → String → Bool) (users : List RealmUser)
    (es : List (Event P)) :
    ∃t,run (FeedScreen.step same) (opened users) es=some t ∧ Lagging t ∧ Fed same users es t := by
  induction es using List.reverseRecOn with
  | nil => exact ⟨_,rfl,lagging_opened users,Screen.valid_opened users,rfl,rfl⟩
  | append_singleton es e ih =>
    obtain ⟨u,hu,hlagging,hfed⟩ := ih
    obtain ⟨t,ht,hlagging'⟩ := hlagging.step e
    exact ⟨t,(run_snoc_eq_some _).mpr ⟨u,hu,ht⟩,hlagging',hfed.step ht⟩

/-- A cell on the screen is the initial one or words a child that was given. -/
theorem origin_of_cell {users : List RealmUser} {es : List (Event P)}
    (h : run (FeedScreen.step same) (opened users) es=some s) {r : ℕ} {cell : String × String}
    (hc : s.tableView[r]?=some cell) :
    cell=("","") ∨ ∃value entry,.childAdded value∈es ∧
      Entry.of same (users.head?.map RealmUser.userName) value=some entry ∧
      cell=(entry.row.1,entry.row.2.1) := by
  obtain ⟨t,ht,hlagging,hfed⟩ := run_opened same users es
  obtain rfl : t=s := Option.some.inj (ht.symm.trans h)
  obtain ⟨k,_,hcell⟩ := hlagging.cells r cell hc
  obtain ⟨row,hrow,rfl⟩ := Option.map_eq_some_iff.mp hcell
  have hm := List.mem_of_getElem? hrow
  rw [hfed.tableData] at hm
  cases List.mem_append.mp hm with
  | inl hm =>
    obtain ⟨value,hvalue,hentry⟩ := List.mem_filterMap.mp (List.mem_reverse.mp hm)
    obtain ⟨entry,he,rfl⟩ := Option.map_eq_some_iff.mp hentry
    obtain ⟨event,hevent,hchild⟩ := List.mem_filterMap.mp hvalue
    cases event with
    | childAdded v =>
      cases hchild
      exact Or.inr ⟨value,entry,hevent,he,rfl⟩
    | _ => cases hchild
  | inr hm =>
    left
    rw [List.mem_singleton.mp hm]

/-- The pending reloads, run one after the other. -/
theorem run_reloads (same : String → String → Bool) {n : ℕ} (h : Lagging s) (hn : s.reloads=n) :
    ∃t,run (FeedScreen.step same) s (List.replicate n (.reloadData : Event P))=some t ∧
      t.vc=s.vc ∧ t.reloads=0 ∧ Lagging t := by
  induction n generalizing s with
  | zero => exact ⟨s,rfl,rfl,hn,h⟩
  | succ n ih =>
    let u : FeedScreen P := {s with tableView := s.vc.cells,reloads := s.reloads-1}
    have hu : s.step same (.reloadData : Event P)=some u := by
      rw [FeedScreen.step,if_neg (by omega)]
    have hun : u.reloads=n := by
      show s.reloads-1=n
      omega
    obtain ⟨t,ht,hvc,hzero,hlagging⟩ := ih (s := u) (Lagging.loaded rfl) hun
    exact ⟨t,by rw [List.replicate_succ,run_cons,hu]; exact ht,hvc,hzero,hlagging⟩

end FeedScreen

/-- Whatever children arrive and whichever cells the table asks for between
reloads, a user screen does not trap. Its rows are those of the children given
so far that concern the name it was opened under, newest first; the table may be
behind them, by no more than the rows it does not have yet, and not any more
once the reloads dispatched so far have run. -/
theorem feed_screen_lags (same : String → String → Bool) (users : List RealmUser)
    (es : List (FeedScreen.Event P)) :
    ∃t,run (FeedScreen.step same) (FeedScreen.opened users) es=some t ∧
      t.vc.tableData=((es.filterMap FeedScreen.Event.child).filterMap fun value =>
        (Entry.of same (users.head?.map RealmUser.userName) value).map Entry.row).reverse++
          [("","","")] ∧
      (∀r cell,t.tableView[r]?=some cell →
        ∃k,k+t.tableView.length ≤ t.vc.numberOfRowsInSection ∧
          t.vc.cellForRowAtIndexPath (r+k)=some cell) ∧
      (t.reloads=0 → ∀r,t.tableView[r]?=t.vc.cellForRowAtIndexPath r) ∧
      ∃u,run (FeedScreen.step same) t
          (List.replicate t.reloads (.reloadData : FeedScreen.Event P))=some u ∧ u.vc=t.vc ∧
        ∀r,u.tableView[r]?=u.vc.cellForRowAtIndexPath r := by
  obtain ⟨t,ht,hlagging,hfed⟩ := FeedScreen.run_opened same users es
  obtain ⟨u,hu,hvc,hzero,hulagging⟩ := FeedScreen.run_reloads same hlagging rfl
  exact ⟨t,ht,hfed.tableData,hlagging.cells,hlagging.shows,u,hu,hvc,hulagging.shows hzero⟩

end SStock
