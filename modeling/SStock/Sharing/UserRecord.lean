import SStock.Model.UserVC
import Mathlib.Data.List.Induction

namespace SStock

/-- Who put the text of a field there: `viewDidLoad`, the user, or a Save that
rejected an empty text. -/
inductive TextOrigin where
  | loaded
  | user
  | rejected
  deriving DecidableEq

structure UserScreen where
  vc : UserVC
  origin : TextOrigin := .loaded
  presented : Bool := true

/-- The stored users and the user screens opened so far. `entered` lists the
texts that were in a field as the user had entered them when Save was tapped,
`stored` those that Save wrote; no handler reads either. -/
structure UserStore where
  users : List RealmUser := []
  screens : List UserScreen := []
  entered : List String := []
  stored : List String := []

inductive UserEvent where
  | viewDidLoad
  | edit (screen : ℕ) (text : String)
  | onSave (screen : ℕ)
  | onCancel (screen : ℕ)

namespace UserScreen

def edit (text : String) (screen : UserScreen) : UserScreen :=
  {screen with vc.textField := text,origin := .user}

def dismiss (screen : UserScreen) : UserScreen := {screen with presented := false}

/-- The text in the field if the user entered it. -/
def enteredText (screen : UserScreen) : List String :=
  if screen.origin=.user then [screen.vc.textField] else []

/-- The screen after `onSave` has made `saved` of it. It only changes where the
text is rejected; otherwise it is dismissed. -/
def afterSave (screen : UserScreen) (saved : UserVC) : UserScreen :=
  if saved=screen.vc then screen.dismiss else {screen with vc := saved,origin := .rejected}

/-- What the field holds by its origin, where `stored` has been written. -/
def Valid (stored : List String) (screen : UserScreen) : Prop :=
  match screen.origin with
  | .loaded => screen.vc.textField="" ∨ screen.vc.textField∈stored
  | .user => True
  | .rejected => screen.vc.textField="Enter a user name"

theorem Valid.append {stored : List String} {screen : UserScreen} (h : screen.Valid stored)
    (name : String) : screen.Valid (stored++[name]) := by
  unfold Valid at h ⊢
  cases ho : screen.origin with
  | loaded =>
    rw [ho] at h
    exact h.imp_right (List.mem_append_left _)
  | user => trivial
  | rejected =>
    rw [ho] at h
    exact h

theorem Valid.dismiss {stored : List String} {screen : UserScreen} (h : screen.Valid stored) :
    screen.dismiss.Valid stored := h

end UserScreen

namespace UserStore

/-- The screen `i` if it has not been dismissed. -/
def presented? (s : UserStore) (i : ℕ) : Option UserScreen :=
  s.screens[i]?.filter UserScreen.presented

def onSave (s : UserStore) (i : ℕ) (screen : UserScreen) : UserStore :=
  let saved := screen.vc.onSave s.users
  {
    users := saved.2
    screens := s.screens.set i (screen.afterSave saved.1)
    entered := s.entered++screen.enteredText
    stored := if saved.1=screen.vc then
      s.stored++(saved.2.head?.map RealmUser.userName).toList else s.stored}

/-- An event on a screen that is not presented is not sent. -/
def step (s : UserStore) : UserEvent → UserStore
  | .viewDidLoad => {s with screens := s.screens++[{vc := UserVC.viewDidLoad s.users}]}
  | .edit i text =>
    match s.presented? i with
    | none => s
    | some screen => {s with screens := s.screens.set i (screen.edit text)}
  | .onSave i =>
    match s.presented? i with
    | none => s
    | some screen => s.onSave i screen
  | .onCancel i =>
    match s.presented? i with
    | none => s
    | some screen => {s with screens := s.screens.set i screen.dismiss}

/-- The state after the events `es`, where `users` are stored at first. -/
def afterFrom (users : List RealmUser) (es : List UserEvent) : UserStore :=
  es.foldl step {users := users}

/-- The same from an empty store. -/
def after (es : List UserEvent) : UserStore := afterFrom [] es

theorem afterFrom_snoc (users : List RealmUser) (es : List UserEvent) (e : UserEvent) :
    afterFrom users (es++[e])=(afterFrom users es).step e :=
  List.foldl_append

theorem after_snoc (es : List UserEvent) (e : UserEvent) :
    after (es++[e])=(after es).step e := afterFrom_snoc [] es e

/-- Cancel, opening and a Save of nothing the user entered: on an empty field,
or while the field holds what a rejected Save put there. -/
def Quiet (s : UserStore) : UserEvent → Prop
  | .viewDidLoad => True
  | .onCancel _ => True
  | .onSave i => ∀screen,s.presented? i=some screen →
      screen.vc.textField="" ∨ screen.origin=.rejected
  | .edit _ _ => False

/-- Save is not tapped while the field holds what a rejected Save put there. -/
def Edited (s : UserStore) : UserEvent → Prop
  | .onSave i => ∀screen,s.presented? i=some screen → screen.origin≠.rejected
  | _ => True

/-- At most one user, whose name is not empty and was entered. -/
def Recorded (s : UserStore) : Prop :=
  s.users=[] ∨ ∃name,s.users=[⟨name⟩] ∧ name≠"" ∧ name∈s.entered

variable {s t : UserStore} {e : UserEvent} {i : ℕ} {screen : UserScreen}

theorem mem_of_presented (h : s.presented? i=some screen) : screen∈s.screens :=
  List.mem_of_getElem? (Option.eq_some_of_filter_eq_some h)

theorem onSave_rejects (h : screen.vc.textField="") : s.onSave i screen=
    {s with
      screens := s.screens.set i
        {screen with vc.textField := "Enter a user name",origin := .rejected}
      entered := s.entered++screen.enteredText} := by
  have hne : ({screen.vc with textField := "Enter a user name"} : UserVC)≠screen.vc := by
    intro he
    have htext : "Enter a user name"=screen.vc.textField := congrArg UserVC.textField he
    rw [h] at htext
    exact absurd htext (by decide)
  simp only [onSave,UserScreen.afterSave,UserVC.onSave_of_empty h,if_neg hne]

theorem onSave_stores (h : screen.vc.textField≠"") : s.onSave i screen=
    {s with
      users := ⟨screen.vc.textField⟩::s.users.tail
      screens := s.screens.set i screen.dismiss
      entered := s.entered++screen.enteredText
      stored := s.stored++[screen.vc.textField]} := by
  simp only [onSave,UserScreen.afterSave,UserVC.onSave_of_ne h,if_pos]
  rfl

theorem step_onSave (h : s.presented? i=some screen) :
    s.step (.onSave i)=s.onSave i screen := by
  simp only [step,h]

/-- Everything an event can do. -/
inductive Stepped (s : UserStore) : UserEvent → UserStore → Prop
  | notSent {e : UserEvent} : Stepped s e s
  | viewDidLoad : Stepped s .viewDidLoad
      {s with screens := s.screens++[{vc := UserVC.viewDidLoad s.users}]}
  | edit {i : ℕ} {text : String} {screen : UserScreen} (hs : s.presented? i=some screen) :
      Stepped s (.edit i text) {s with screens := s.screens.set i (screen.edit text)}
  | rejected {i : ℕ} {screen : UserScreen} (hs : s.presented? i=some screen)
      (he : screen.vc.textField="") :
      Stepped s (.onSave i) {s with
        screens := s.screens.set i
          {screen with vc.textField := "Enter a user name",origin := .rejected}
        entered := s.entered++screen.enteredText}
  | stored {i : ℕ} {screen : UserScreen} (hs : s.presented? i=some screen)
      (he : screen.vc.textField≠"") :
      Stepped s (.onSave i) {
        users := ⟨screen.vc.textField⟩::s.users.tail
        screens := s.screens.set i screen.dismiss
        entered := s.entered++screen.enteredText
        stored := s.stored++[screen.vc.textField]}
  | onCancel {i : ℕ} {screen : UserScreen} (hs : s.presented? i=some screen) :
      Stepped s (.onCancel i) {s with screens := s.screens.set i screen.dismiss}

theorem step_cases (s : UserStore) (e : UserEvent) : Stepped s e (s.step e) := by
  cases e with
  | viewDidLoad => exact .viewDidLoad
  | edit i text =>
    rw [step]
    cases hs : s.presented? i with
    | none => exact .notSent
    | some screen => exact .edit hs
  | onSave i =>
    rw [step]
    cases hs : s.presented? i with
    | none => exact .notSent
    | some screen =>
      by_cases he : screen.vc.textField=""
      · simpa only [onSave_rejects he] using .rejected hs he
      · simpa only [onSave_stores he] using .stored hs he
  | onCancel i =>
    rw [step]
    cases hs : s.presented? i with
    | none => exact .notSent
    | some screen => exact .onCancel hs

/-- The store holds the last text written, and fields hold what their origin
says. -/
structure Valid (s : UserStore) : Prop where
  users : s.users=(s.stored.getLast?.map RealmUser.mk).toList
  nonempty : ∀name∈s.stored,name≠""
  fields : ∀screen∈s.screens,screen.Valid s.stored

/-- Screens stay valid when one is replaced by a valid one. -/
theorem forall_mem_set {stored : List String} (h : ∀screen∈s.screens,screen.Valid stored)
    (hnew : screen.Valid stored) : ∀other∈s.screens.set i screen,other.Valid stored := by
  intro other ho
  cases List.mem_or_eq_of_mem_set ho with
  | inl ho => exact h other ho
  | inr heq => exact heq ▸ hnew

theorem Valid.stepped (h : Valid s) (hs : Stepped s e t) : Valid t := by
  cases hs with
  | notSent => exact h
  | viewDidLoad =>
    refine ⟨h.users,h.nonempty,fun other ho => ?_⟩
    cases List.mem_append.mp ho with
    | inl ho => exact h.fields other ho
    | inr ho =>
      rw [List.mem_singleton.mp ho]
      change (UserVC.viewDidLoad s.users).textField="" ∨ _
      rw [h.users]
      cases hl : s.stored.getLast? with
      | none => exact Or.inl rfl
      | some name => exact Or.inr (List.mem_of_getLast? hl)
  | edit => exact ⟨h.users,h.nonempty,forall_mem_set h.fields trivial⟩
  | rejected => exact ⟨h.users,h.nonempty,forall_mem_set h.fields rfl⟩
  | stored hs he =>
    have hf := h.fields _ (mem_of_presented hs)
    refine ⟨?_,?_,forall_mem_set (fun other ho => (h.fields other ho).append _) (hf.append _)⟩
    · rw [h.users]
      cases s.stored.getLast? <;> simp
    · intro name hn
      cases List.mem_append.mp hn with
      | inl hn => exact h.nonempty name hn
      | inr hn => exact List.mem_singleton.mp hn ▸ he
  | onCancel hs =>
    have hf := h.fields _ (mem_of_presented hs)
    exact ⟨h.users,h.nonempty,forall_mem_set h.fields hf.dismiss⟩

theorem valid_after (es : List UserEvent) : Valid (after es) := by
  induction es using List.reverseRecOn with
  | nil => exact ⟨rfl,fun _ hn => absurd hn List.not_mem_nil,fun _ hs => absurd hs List.not_mem_nil⟩
  | append_singleton es e ih =>
    rw [after_snoc]
    exact ih.stepped (step_cases _ e)

/-- Everything written was entered by the user. -/
def Honest (s : UserStore) : Prop := ∀name∈s.stored,name∈s.entered

theorem Honest.stepped (h : Honest s) (hv : Valid s) (he : s.Edited e) (hs : Stepped s e t) :
    Honest t := by
  cases hs with
  | notSent | viewDidLoad | edit | onCancel => exact h
  | rejected => exact fun name hn => List.mem_append_left _ (h name hn)
  | @stored i screen hs hne =>
    intro name hn
    cases List.mem_append.mp hn with
    | inl hn => exact List.mem_append_left _ (h name hn)
    | inr hn =>
      rw [List.mem_singleton.mp hn]
      have hf := hv.fields screen (mem_of_presented hs)
      unfold UserScreen.Valid at hf
      cases ho : screen.origin with
      | loaded =>
        -- The text was loaded from the store, so an earlier Save wrote it.
        rw [ho] at hf
        exact List.mem_append_left _ (h _ (hf.resolve_left hne))
      | user =>
        have htext : screen.enteredText=[screen.vc.textField] := if_pos ho
        exact List.mem_append_right _ (htext ▸ List.mem_singleton_self _)
      | rejected => exact absurd ho (he screen hs)

/-- A store is recorded when all that was written was entered. -/
theorem Valid.recorded (hv : Valid s) (h : Honest s) : s.Recorded := by
  rw [Recorded,hv.users]
  cases hl : s.stored.getLast? with
  | none => exact Or.inl rfl
  | some name =>
    have hm := List.mem_of_getLast? hl
    exact Or.inr ⟨name,rfl,hv.nonempty name hm,h name hm⟩

/-- A quiet event writes nothing, if the field was edited since a rejected Save. -/
theorem Stepped.quiet (hs : Stepped s e t) (hq : s.Quiet e) (he : s.Edited e) :
    t.users=s.users ∧ t.stored=s.stored := by
  cases hs with
  | notSent | viewDidLoad | edit | rejected | onCancel => exact ⟨rfl,rfl⟩
  | stored hs hne =>
    cases hq _ hs with
    | inl hempty => exact absurd hempty hne
    | inr horigin => exact absurd horigin (he _ hs)

/-- The prompt of a rejected Save is not empty, so the next Save stores it. -/
theorem stored_of_rejected (hv : Valid s) (hs : s.presented? i=some screen)
    (ho : screen.origin=.rejected) :
    (s.step (.onSave i)).stored=s.stored++["Enter a user name"] := by
  have hf := hv.fields screen (mem_of_presented hs)
  rw [UserScreen.Valid,ho] at hf
  have he : screen.vc.textField≠"" := by
    rw [hf]
    decide
  rw [step_onSave hs,onSave_stores he,hf]

end UserStore

/-- The law of the user record along the events `es`. -/
structure UserRecordKept (es : List UserEvent) : Prop where
  recorded : ∀fs,fs <+: es → (UserStore.after fs).Recorded
  quiet : ∀fs e,fs++[e] <+: es → (UserStore.after fs).Quiet e →
    (UserStore.after (fs++[e])).users=(UserStore.after fs).users ∧
      (UserStore.after (fs++[e])).stored=(UserStore.after fs).stored

open UserStore

/-- The law holds exactly when Save is never tapped while the field holds what
a rejected Save put there. -/
theorem user_record_kept_iff (es : List UserEvent) :
    UserRecordKept es ↔ ∀fs e,fs++[e] <+: es → (after fs).Edited e := by
  constructor
  · intro h fs e hp
    cases e with
    | viewDidLoad | edit | onCancel => trivial
    | onSave i =>
      intro screen hs ho
      have hquiet : (after fs).Quiet (.onSave i) := by
        intro other hother
        cases hs.symm.trans hother
        exact Or.inr ho
      have hsame := (h.quiet fs _ hp hquiet).2
      rw [after_snoc,stored_of_rejected (valid_after fs) hs ho] at hsame
      simp at hsame
  · intro h
    have honest : ∀fs,fs <+: es → Honest (after fs) := by
      intro fs hp
      induction fs using List.reverseRecOn with
      | nil => exact fun _ hn => absurd hn List.not_mem_nil
      | append_singleton fs e ih =>
        rw [after_snoc]
        exact (ih ((List.prefix_append _ _).trans hp)).stepped (valid_after fs) (h fs e hp)
          (step_cases _ e)
    refine ⟨fun fs hp => (valid_after fs).recorded (honest fs hp),fun fs e hp hq => ?_⟩
    rw [after_snoc]
    exact (step_cases _ e).quiet hq (h fs e hp)

/-- Two taps on Save after the user emptied the field. -/
theorem user_record_prompt_stored : ¬∀es,UserRecordKept es := by
  intro h
  let fs : List UserEvent := [.viewDidLoad,.edit 0 "",.onSave 0]
  have hquiet : (after fs).Quiet (.onSave 0) := by
    intro screen hs
    cases hs
    exact Or.inr rfl
  have hsame := (h (fs++[.onSave 0])).quiet fs (.onSave 0) (List.prefix_refl _) hquiet
  exact absurd hsame.1 (by decide)

end SStock
