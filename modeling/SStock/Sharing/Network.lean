import SStock.Framework.MoveLastOver
import SStock.Framework.Simulation
import SStock.Sharing.Screen
import Mathlib.Logic.Function.Basic

namespace SStock

open Framework

variable {ι K P : Type}

structure Client (P : Type) where
  users : List RealmUser := []
  screens : List (Screen P) := []

namespace Client

def viewDidLoad (c : Client P) : Client P := {c with screens := c.screens++[.opened c.users]}

def edit (screen : ℕ) (text : String) (c : Client P) : Client P :=
  {c with screens := c.screens.modify screen (Screen.edit text)}

def onSave (screen : ℕ) (c : Client P) : Client P :=
  match c.screens[screen]? with
  | none => c
  | some sc =>
    let saved := sc.onSave c.users
    ⟨saved.2,c.screens.set screen saved.1⟩

def childAdded (same : String → String → Bool) (screen : ℕ) (value : Json P) (c : Client P) :
    Client P :=
  {c with screens := c.screens.modify screen (Screen.childAdded same value)}

/-- The names the screens were opened under. -/
def names (c : Client P) : List (Option String) := c.screens.map Screen.openedUnder

/-- The children given to one screen. -/
def deliveredTo (c : Client P) (screen : ℕ) : List (Json P) :=
  (c.screens[screen]?.map Screen.delivered).getD []

/-- A change of one screen, but for the children it has been given. -/
theorem names_modify (c : Client P) (screen : ℕ) {f : Screen P → Screen P}
    (hf : ∀sc,(f sc).openedUnder=sc.openedUnder) :
    ({c with screens := c.screens.modify screen f} : Client P).names=c.names := by
  apply List.ext_getElem?
  intro k
  simp only [names,List.getElem?_map,List.getElem?_modify]
  by_cases hk : screen=k <;> simp [hk,hf,Function.comp_def]

theorem deliveredTo_modify (c : Client P) (screen : ℕ) {f : Screen P → Screen P}
    (hf : ∀sc,(f sc).delivered=sc.delivered) (k : ℕ) :
    ({c with screens := c.screens.modify screen f} : Client P).deliveredTo k=c.deliveredTo k := by
  simp only [deliveredTo,List.getElem?_modify]
  by_cases hk : screen=k <;> simp [hk,hf,Function.comp_def]

theorem names_onSave (c : Client P) (screen : ℕ) : (c.onSave screen).names=c.names := by
  unfold Client.onSave
  cases hsc : c.screens[screen]? with
  | none => rfl
  | some sc => exact map_set_of_eq hsc rfl

theorem deliveredTo_onSave (c : Client P) (screen k : ℕ) :
    (c.onSave screen).deliveredTo k=c.deliveredTo k := by
  have hmap : (c.onSave screen).screens.map Screen.delivered=c.screens.map Screen.delivered := by
    unfold Client.onSave
    cases hsc : c.screens[screen]? with
    | none => rfl
    | some sc => exact map_set_of_eq hsc rfl
  have hk := congrArg (fun l : List (List (Json P)) => l[k]?) hmap
  simp only [List.getElem?_map] at hk
  rw [deliveredTo,deliveredTo,hk]

theorem deliveredTo_viewDidLoad (c : Client P) (k : ℕ) :
    c.viewDidLoad.deliveredTo k=c.deliveredTo k := by
  simp only [deliveredTo,viewDidLoad,List.getElem?_append]
  split_ifs with hlt
  · rfl
  · rw [List.getElem?_eq_none (Nat.le_of_not_lt hlt)]
    cases hd : [(Screen.opened c.users : Screen P)][k-c.screens.length]? with
    | none => rfl
    | some sc =>
      rw [List.mem_singleton.mp (List.mem_of_getElem? hd)]
      rfl

theorem deliveredTo_childAdded (same : String → String → Bool) (c : Client P) (screen : ℕ)
    (value : Json P) (k : ℕ) : (c.childAdded same screen value).deliveredTo k=
      c.deliveredTo k++if screen=k ∧ k<c.screens.length then [value] else [] := by
  simp only [deliveredTo,childAdded,List.getElem?_modify]
  cases hk : c.screens[k]? with
  | none =>
    have hlen := List.getElem?_eq_none_iff.mp hk
    simp [Nat.not_lt_of_le hlen]
  | some sc =>
    have hlt : k<c.screens.length := (List.getElem?_eq_some_iff.mp hk).1
    by_cases hs : screen=k <;> simp [hs,hlt,Screen.childAdded]

/-- At most one stored user, whose name is not empty. -/
structure Valid (same : String → String → Bool) (c : Client P) : Prop where
  users : c.users=[] ∨ ∃name,c.users=[⟨name⟩] ∧ name≠""
  screens : ∀sc∈c.screens,sc.Valid same

namespace Valid

variable {same : String → String → Bool} {c : Client P}

theorem viewDidLoad (h : Valid same c) : Valid same c.viewDidLoad := by
  refine ⟨h.users,fun sc hsc => ?_⟩
  cases List.mem_append.mp hsc with
  | inl hsc => exact h.screens sc hsc
  | inr hsc =>
    rw [List.mem_singleton.mp hsc]
    exact Screen.valid_opened c.users

/-- A change of one screen that keeps it valid. -/
theorem modify (h : Valid same c) (screen : ℕ) {f : Screen P → Screen P}
    (hf : ∀sc,sc.Valid same → (f sc).Valid same) :
    Valid same {c with screens := c.screens.modify screen f} := by
  refine ⟨h.users,fun sc hsc => ?_⟩
  obtain ⟨j,hj⟩ := List.mem_iff_getElem?.mp hsc
  simp only [List.getElem?_modify] at hj
  obtain ⟨old,hold,rfl⟩ := Option.map_eq_some_iff.mp hj
  have hvalid := h.screens old (List.mem_of_getElem? hold)
  split_ifs
  · exact hf old hvalid
  · exact hvalid

theorem edit (h : Valid same c) (screen : ℕ) (text : String) : Valid same (c.edit screen text) :=
  h.modify screen (fun _ hsc => hsc.edit text)

theorem childAdded (h : Valid same c) (screen : ℕ) (value : Json P) :
    Valid same (c.childAdded same screen value) :=
  h.modify screen (fun _ hsc => hsc.childAdded value)

/-- Saving creates the one user or renames it; a refused text changes neither
the store nor what the screen shows. -/
theorem onSave (h : Valid same c) (screen : ℕ) : Valid same (c.onSave screen) := by
  unfold Client.onSave
  cases hsc : c.screens[screen]? with
  | none => exact h
  | some sc =>
    have hvalid := h.screens sc (List.mem_of_getElem? hsc)
    refine ⟨?_,fun sc' hsc' => ?_⟩
    · show (sc.vc.onSave c.users).2=[] ∨ ∃name,(sc.vc.onSave c.users).2=[⟨name⟩] ∧ name≠""
      by_cases he : sc.vc.textField=""
      · rw [UserVC.onSave_of_empty he]
        exact h.users
      · rw [UserVC.onSave_of_ne he]
        right
        cases h.users with
        | inl hu =>
          rw [hu]
          exact ⟨sc.vc.textField,rfl,he⟩
        | inr hex =>
          obtain ⟨name,hu,_⟩ := hex
          rw [hu]
          exact ⟨sc.vc.textField,rfl,he⟩
    · cases List.mem_or_eq_of_mem_set hsc' with
      | inl hsc' => exact h.screens sc' hsc'
      | inr heq => exact heq ▸ hvalid.onSave c.users

end Valid

end Client

/-- The clients and the children of the shared database, in order of writing. -/
structure Network (ι K P : Type) where
  clients : ι → Client P
  log : List (K × Json P)

namespace Network

/-- What clients do, what others write to the database, and deliveries of the
child at a place of the log to a screen. -/
inductive Event (ι K P : Type) where
  | viewDidLoad (i : ι)
  | edit (i : ι) (screen : ℕ) (text : String)
  | onSave (i : ι) (screen : ℕ)
  | sendStock (i : ι) (autoId : K) (recipient stock : String)
  | foreign (key : K) (value : Json P)
  | childAdded (i : ι) (screen place : ℕ)

variable [DecidableEq ι]

def update (s : Network ι K P) (i : ι) (f : Client P → Client P) : Network ι K P :=
  {s with clients := Function.update s.clients i (f (s.clients i))}

def step (same : String → String → Bool) (s : Network ι K P) : Event ι K P → Network ι K P
  | .viewDidLoad i => s.update i Client.viewDidLoad
  | .edit i screen text => s.update i (Client.edit screen text)
  | .onSave i screen => s.update i (Client.onSave screen)
  | .sendStock i autoId recipient stock =>
    {s with log := (SStock.sendStock autoId (s.clients i).users s.log recipient stock).2}
  | .foreign key value => {s with log := s.log++[(key,value)]}
  | .childAdded i screen place =>
    match s.log[place]? with
    | none => s
    | some child => s.update i (Client.childAdded same screen child.2)

/-- Clients without stored users, over a log that may have foreign children. -/
def start (log : List (K × Json P)) : Network ι K P := ⟨fun _ => {},log⟩

theorem valid_step {same : String → String → Bool} {s : Network ι K P}
    (h : ∀i,(s.clients i).Valid same) (e : Event ι K P) :
    ∀i,((s.step same e).clients i).Valid same := by
  have hupdate (j : ι) {f : Client P → Client P} (hf : ∀c : Client P,c.Valid same →
      (f c).Valid same) : ∀i,((s.update j f).clients i).Valid same := by
    intro i
    by_cases hi : i=j
    · subst hi
      simp only [update,Function.update_self]
      exact hf _ (h i)
    · simp only [update,Function.update_of_ne hi]
      exact h i
  cases e with
  | viewDidLoad j => exact hupdate j (fun _ hc => hc.viewDidLoad)
  | edit j screen text => exact hupdate j (fun _ hc => hc.edit screen text)
  | onSave j screen => exact hupdate j (fun _ hc => hc.onSave screen)
  | sendStock j autoId recipient stock => exact h
  | foreign key value => exact h
  | childAdded j screen place =>
    cases hchild : s.log[place]? with
    | none => simpa [step,hchild] using h
    | some child =>
      have he : s.step same (.childAdded j screen place)=
          s.update j (Client.childAdded same screen child.2) := by simp [step,hchild]
      rw [he]
      exact hupdate j (fun _ hc => hc.childAdded screen child.2)

theorem valid_run (same : String → String → Bool) (log : List (K × Json P))
    (es : List (Event ι K P)) :
    ∀i,((es.foldl (step same) (start log)).clients i).Valid same := by
  refine List.foldlRecOn es (step same) (motive := fun s => ∀i,(s.clients i).Valid same) ?_
    (fun s hs e _ => valid_step hs e)
  intro i
  exact ⟨Or.inl rfl,fun sc hsc => nomatch hsc⟩

/-- Sharing a stock from a client with a stored user, to a recipient who has a
name, appends the message. -/
theorem step_sendStock (same : String → String → Bool) {s : Network ι K P} {i : ι} {name : String}
    (hu : (s.clients i).users=[⟨name⟩]) (autoId : K) {recipient : String} (hr : recipient≠"")
    (stock : String) :
    sendStock autoId (s.clients i).users s.log recipient stock=
        (true,s.log++[(autoId,chatMessage name recipient stock)]) ∧
      s.step same (.sendStock i autoId recipient stock)=
        {s with log := s.log++[(autoId,chatMessage name recipient stock)]} := by
  have hsend : sendStock autoId (s.clients i).users s.log recipient stock=
      (true,s.log++[(autoId,chatMessage name recipient stock)]) := by
    simp [sendStock,hu,hr]
  exact ⟨hsend,by simp only [step,hsend]⟩

theorem step_sendStock_refused (same : String → String → Bool) {s : Network ι K P} {i : ι}
    (autoId : K) {recipient : String} (h : (s.clients i).users=[] ∨ recipient="") (stock : String) :
    sendStock autoId (s.clients i).users s.log recipient stock=(false,s.log) ∧
      s.step same (.sendStock i autoId recipient stock)=s := by
  have hsend : sendStock autoId (s.clients i).users s.log recipient stock=(false,s.log) := by
    cases h with
    | inl hu => simp [sendStock,hu]
    | inr hr => simp [sendStock,hr]
  exact ⟨hsend,by simp only [step,hsend]⟩

/-- After any interleaving of what the clients do, each has at most one stored
user, a stock is shared exactly by a client with a user and to a recipient with
a name, and every user screen shows the messages it was given that concern the
name it was opened under. -/
theorem sharing_end_to_end (same : String → String → Bool) (log : List (K × Json P))
    (es : List (Event ι K P)) (i : ι) :
    let s := es.foldl (step same) (start log)
    ((s.clients i).users=[] ∨ ∃name,(s.clients i).users=[⟨name⟩] ∧ name≠"") ∧
    (∀(autoId : K) (recipient stock : String),
      (∀name,(s.clients i).users=[⟨name⟩] → recipient≠"" →
        sendStock autoId (s.clients i).users s.log recipient stock=
            (true,s.log++[(autoId,.object [("sender",.string name),
              ("recipient",.string recipient),("stock",.string stock)])]) ∧
          s.step same (.sendStock i autoId recipient stock)=
            {s with log := s.log++[(autoId,.object [("sender",.string name),
              ("recipient",.string recipient),("stock",.string stock)])]}) ∧
      ((s.clients i).users=[] ∨ recipient="" →
        sendStock autoId (s.clients i).users s.log recipient stock=(false,s.log) ∧
          s.step same (.sendStock i autoId recipient stock)=s)) ∧
    ∀sc∈(s.clients i).screens,sc.vc.tableData=(sc.delivered.filterMap fun value =>
      (Entry.of same sc.openedUnder value).map Entry.row).reverse++[("","","")] := by
  intro s
  have hvalid := valid_run same log es i
  refine ⟨hvalid.users,fun autoId recipient stock => ⟨?_,?_⟩,
    fun sc hsc => (hvalid.screens sc hsc).tableData⟩
  · intro name hu hr
    exact step_sendStock same hu autoId hr stock
  · intro h
    exact step_sendStock_refused same autoId h stock

/-- The name under which an event opens a screen of client `i`. -/
def openings (i : ι) (s : Network ι K P) : Event ι K P → List (Option String)
  | .viewDidLoad j => if j=i then [(s.clients i).users.head?.map RealmUser.userName] else []
  | _ => []

/-- The child an event gives to screen `k` of client `i`. -/
def deliveries (i : ι) (k : ℕ) (s : Network ι K P) : Event ι K P → List (Json P)
  | .childAdded j screen place =>
    if j=i ∧ screen=k ∧ k<(s.clients i).screens.length then (s.log[place]?.map Prod.snd).toList
    else []
  | _ => []

/-- What an event does to the client `i`. -/
theorem clients_step (same : String → String → Bool) (s : Network ι K P) (e : Event ι K P) (i : ι) :
    ((s.step same e).clients i).names=(s.clients i).names++s.openings i e ∧
      ∀k,((s.step same e).clients i).deliveredTo k=
        (s.clients i).deliveredTo k++s.deliveries i k e := by
  have hother {j : ι} (f : Client P → Client P) (hj : j≠i) :
      (s.update j f).clients i=s.clients i := Function.update_of_ne hj.symm _ _
  have hself (f : Client P → Client P) : (s.update i f).clients i=f (s.clients i) :=
    Function.update_self _ _ _
  cases e with
  | viewDidLoad j =>
    by_cases hj : j=i
    · subst hj
      simp only [step,openings,deliveries,hself,if_true,List.append_nil]
      exact ⟨List.map_append,fun k => Client.deliveredTo_viewDidLoad _ k⟩
    · simp [step,openings,deliveries,hj,hother _ hj]
  | edit j screen text =>
    by_cases hj : j=i
    · subst hj
      simp only [step,openings,deliveries,hself,List.append_nil]
      exact ⟨Client.names_modify _ screen (f := Screen.edit text) (fun _ => rfl),
        fun k => Client.deliveredTo_modify _ screen (f := Screen.edit text) (fun _ => rfl) k⟩
    · simp [step,openings,deliveries,hother _ hj]
  | onSave j screen =>
    by_cases hj : j=i
    · subst hj
      simp only [step,openings,deliveries,hself,List.append_nil]
      exact ⟨Client.names_onSave _ screen,fun k => Client.deliveredTo_onSave _ screen k⟩
    · simp [step,openings,deliveries,hother _ hj]
  | sendStock | foreign => simp [step,openings,deliveries]
  | childAdded j screen place =>
    simp only [step,openings,deliveries,List.append_nil]
    cases hchild : s.log[place]? with
    | none => simp
    | some child =>
      by_cases hj : j=i
      · subst hj
        simp only [hself,true_and]
        exact ⟨Client.names_modify _ screen (fun _ => rfl),
          fun k => Client.deliveredTo_childAdded same _ screen child.2 k⟩
      · simp [hj,hother _ hj]

/-- The screens of a client are the ones the events opened, and each has been
given what the events delivered to it. -/
theorem clients_of_run (same : String → String → Bool) (log : List (K × Json P))
    (es : List (Event ι K P)) (i : ι) :
    let s := es.foldl (step same) (start log)
    (s.clients i).names=emitted (fun s e => some (step same s e)) (openings i) (start log) es ∧
      ∀k,(s.clients i).deliveredTo k=
        emitted (fun s e => some (step same s e)) (deliveries i k) (start log) es := by
  have hrun := run_of_total (step same) (start log : Network ι K P) es
  refine ⟨?_,fun k => ?_⟩
  · refine run_emits (R := fun u l => (u.clients i).names=l) (l := []) hrun rfl ?_
    intro u e v l hu hv
    cases hv
    rw [(clients_step same u e i).1,hu]
  · refine run_emits (R := fun u l => (u.clients i).deliveredTo k=l) (l := []) hrun rfl ?_
    intro u e v l hu hv
    cases hv
    rw [(clients_step same u e i).2 k,hu]

/-- In terms of the events: the table of a screen has the messages among the
children delivered to it that concern the name it was opened under. -/
theorem sharing_by_events (same : String → String → Bool) (log : List (K × Json P))
    (es : List (Event ι K P)) (i : ι) (k : ℕ) {sc : Screen P}
    (hk : ((es.foldl (step same) (start log)).clients i).screens[k]?=some sc) :
    ∃name,(emitted (fun s e => some (step same s e)) (openings i) (start log) es)[k]?=some name ∧
      sc.vc.tableData=((emitted (fun s e => some (step same s e)) (deliveries i k)
        (start log) es).filterMap fun value => (Entry.of same name value).map Entry.row).reverse++
          [("","","")] := by
  obtain ⟨hnames,hdelivered⟩ := clients_of_run same log es i
  have htable := ((valid_run same log es i).screens sc (List.mem_of_getElem? hk)).tableData
  refine ⟨sc.openedUnder,?_,?_⟩
  · rw [← hnames,Client.names,List.getElem?_map,hk]
    rfl
  · rw [← hdelivered k,Client.deliveredTo,hk]
    exact htable

example :
    let s : Network Bool ℕ ℕ := [.viewDidLoad true,.edit true 0 "ann",.onSave true 0,
      .viewDidLoad false,.edit false 0 "bob",.onSave false 0,.viewDidLoad false,
      .sendStock true 5 "bob" "GE",.childAdded false 1 0].foldl (step (·==·)) (start [])
    (s.clients false).screens.map (fun sc => sc.vc.tableData)=
      [[("","","")],[("ann recommends: GE","","GE"),("","","")]] := by decide

end Network

end SStock
