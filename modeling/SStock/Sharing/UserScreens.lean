import SStock.Framework.Simulation
import SStock.Model.App
import SStock.Sharing.Network
import SStock.Sharing.UserRecord

namespace SStock

open Framework

variable {P : Type}

/-- What Save stores depends on the text field only. -/
theorem UserVC.users_onSave_congr {v w : UserVC} (h : v.textField=w.textField)
    (users : List RealmUser) : (v.onSave users).2=(w.onSave users).2 := by
  by_cases he : w.textField=""
  · rw [onSave_of_empty (h.trans he),onSave_of_empty he]
  · rw [onSave_of_ne he,onSave_of_ne (h ▸ he),h]

namespace UserStore

variable {s : UserStore} {i : ℕ} {screen : UserScreen}

theorem run_afterFrom (users : List RealmUser) (es : List UserEvent) :
    run (fun (s : UserStore) e => some (s.step e)) {users := users} es=
      some (afterFrom users es) :=
  run_of_total step {users := users} es

/-- The Save of the application that an event on the user screens amounts to. -/
def saves (s : UserStore) : UserEvent → List (Event P)
  | .onSave i => match s.presented? i with
    | none => []
    | some screen => [.onSave screen.vc.textField]
  | _ => []

/-- The Saves along the events `es`, each with the text then in its field. -/
def savesOf (users : List RealmUser) (es : List UserEvent) : List (Event P) :=
  emitted (fun s e => some (s.step e)) saves {users := users} es

theorem savesOf_snoc (users : List RealmUser) (es : List UserEvent) (e : UserEvent) :
    (savesOf users (es++[e]) : List (Event P))=savesOf users es++(afterFrom users es).saves e :=
  emitted_snoc (run_afterFrom users es)

theorem users_saved [Zero P] [One P] (env : Env P) (a : App P) (s : UserStore) (e : UserEvent) :
    run (App.step env) {a with users := s.users} (s.saves e)=
      some {a with users := (s.step e).users} := by
  cases e with
  | viewDidLoad => rfl
  | edit i text | onCancel i =>
    cases hp : s.presented? i <;> simp [saves,step,hp]
  | onSave i =>
    rw [saves,step]
    cases s.presented? i with
    | none => rfl
    | some screen =>
      have hsaved : (({a with users := s.users} : App P).onSave screen.vc.textField).users=
          (screen.vc.onSave s.users).2 := by
        let vc : UserVC := {UserVC.viewDidLoad s.users with textField := screen.vc.textField}
        have htext : vc.textField=screen.vc.textField := rfl
        exact UserVC.users_onSave_congr htext s.users
      exact congrArg (fun users => some {a with users := users}) hsaved

/-- An event as it reaches the client of a network, if it is sent. -/
def sent (s : UserStore) : UserEvent → List (Client P → Client P)
  | .viewDidLoad => [Client.viewDidLoad]
  | .edit i text => (s.presented? i).toList.map fun _ => Client.edit i text
  | .onSave i => (s.presented? i).toList.map fun _ => Client.onSave i
  | .onCancel _ => []

/-- The client has the same users and the same screens, dismissed ones included. -/
structure Mirrors (s : UserStore) (c : Client P) : Prop where
  users : c.users=s.users
  screens : c.screens.map Screen.vc=s.screens.map UserScreen.vc

namespace Mirrors

variable {c : Client P}

theorem lookup (h : Mirrors s c) (hp : s.presented? i=some screen) :
    s.screens[i]?=some screen ∧ ∃sc,c.screens[i]?=some sc ∧ sc.vc=screen.vc := by
  have hi : s.screens[i]?=some screen := Option.eq_some_of_filter_eq_some hp
  have hvc := congrArg (fun vcs : List UserVC => vcs[i]?) h.screens
  simp only [List.getElem?_map,hi,Option.map_some] at hvc
  exact ⟨hi,Option.map_eq_some_iff.mp hvc⟩

/-- The screens when the one at `i` changes on both sides. -/
theorem set (h : Mirrors s c) {sc : Screen P} {screen : UserScreen} (hvc : sc.vc=screen.vc)
    (i : ℕ) : (c.screens.set i sc).map Screen.vc=(s.screens.set i screen).map UserScreen.vc := by
  rw [List.map_set,List.map_set,h.screens,hvc]

theorem step (h : Mirrors s c) (e : UserEvent) :
    Mirrors (s.step e) ((s.sent e).foldl (fun c f => f c) c) := by
  cases e with
  | viewDidLoad =>
    refine ⟨h.users,?_⟩
    show (c.screens++[Screen.opened c.users]).map Screen.vc=
      (s.screens++[({vc := UserVC.viewDidLoad s.users} : UserScreen)]).map UserScreen.vc
    rw [List.map_append,List.map_append,h.screens,h.users]
    rfl
  | edit i text =>
    rw [UserStore.step,sent]
    cases hp : s.presented? i with
    | none => exact h
    | some screen =>
      obtain ⟨_,sc,hsc,hvc⟩ := h.lookup hp
      refine ⟨h.users,?_⟩
      show (c.screens.modify i (Screen.edit text)).map Screen.vc=_
      rw [List.modify_eq_set_getElem?,hsc]
      exact h.set (congrArg (fun vc : UserVC => {vc with textField := text}) hvc) i
  | onSave i =>
    rw [UserStore.step,sent]
    cases hp : s.presented? i with
    | none => exact h
    | some screen =>
      obtain ⟨_,sc,hsc,hvc⟩ := h.lookup hp
      have hsaved : sc.vc.onSave c.users=screen.vc.onSave s.users := by rw [hvc,h.users]
      have hclient : c.onSave i=⟨(sc.vc.onSave c.users).2,
          c.screens.set i {sc with vc := (sc.vc.onSave c.users).1}⟩ := by
        rw [Client.onSave,hsc]
        rfl
      show Mirrors (s.onSave i screen) (c.onSave i)
      rw [hclient,hsaved]
      refine ⟨rfl,h.set ?_ i⟩
      show (screen.vc.onSave s.users).1=(screen.afterSave (screen.vc.onSave s.users).1).vc
      rw [UserScreen.afterSave]
      split_ifs with hsame
      · exact hsame
      · rfl
  | onCancel i =>
    rw [UserStore.step,sent]
    cases hp : s.presented? i with
    | none => exact h
    | some screen =>
      obtain ⟨hi,_⟩ := h.lookup hp
      have hdismiss : (s.screens.set i screen.dismiss).map UserScreen.vc=
          s.screens.map UserScreen.vc := map_set_of_eq hi rfl
      exact ⟨h.users,h.screens.trans hdismiss.symm⟩

end Mirrors

/-- Any events on the user screens are to a client of the network those of them
that are sent: it has the same users and the same screens. -/
theorem mirrored_afterFrom (users : List RealmUser) (es : List UserEvent) :
    Mirrors (afterFrom users es) ((emitted (fun s e => some (s.step e)) sent
      {users := users} es).foldl (fun c f => f c) ({users := users} : Client P)) := by
  have halong : Along (fun (s : UserStore) e => some (s.step e)) (fun _ _ => True)
      {users := users} es := Along.of_forall (fun _ _ => trivial)
  refine run_simulates (R := Mirrors) halong (run_afterFrom users es) ⟨rfl,rfl⟩ ?_
  intro u e v c _ hu hv
  cases hv
  exact hu.step e

end UserStore

/-- Opening, editing, Save and Cancel on any number of user screens, in any
order, are to the application the Saves among them, each with the text that its
field then has, typed, loaded or put there by a refused Save. -/
theorem user_screens_refine_saves [Zero P] [One P] (env : Env P) (a : App P)
    (es : List UserEvent) :
    run (App.step env) a (UserStore.savesOf a.users es)=
      some {a with users := (UserStore.afterFrom a.users es).users} := by
  induction es using List.reverseRecOn with
  | nil => rfl
  | append_singleton es e ih =>
    rw [UserStore.savesOf_snoc,UserStore.afterFrom_snoc]
    exact (run_append_eq_some _).mpr ⟨_,ih,UserStore.users_saved env a _ e⟩

end SStock
