import SStock.Sharing.Devices
import SStock.Sharing.Network

namespace SStock

open Framework

variable {ι P : Type}

/-- What the application on a device asks of the sharing. -/
inductive Call where
  | save (text : String)
  | sendStock (autoId recipient stock : String)

namespace Call

def saved : Call → Option String
  | .save text => some text
  | .sendStock _ _ _ => none

/-- The stored users after a call. -/
def after (users : List RealmUser) : Call → List RealmUser
  | .save text => ({UserVC.viewDidLoad users with textField := text}.onSave users).2
  | .sendStock _ _ _ => users

/-- What a call writes to the database. -/
def writes (users : List RealmUser) : Call → List (String × Json P)
  | .save _ => []
  | .sendStock autoId recipient stock => (SStock.sendStock autoId users [] recipient stock).2

def afterAll (users : List RealmUser) (cs : List Call) : List RealmUser := cs.foldl after users

def written (users : List RealmUser) : List Call → List (String × Json P)
  | [] => []
  | c::cs => c.writes users++written (c.after users) cs

theorem sendStock_append {K : Type} (autoId : K) (users : List RealmUser) (log : List (K × Json P))
    (recipient stock : String) : (SStock.sendStock autoId users log recipient stock).2=
      log++(SStock.sendStock autoId users [] recipient stock).2 := by
  unfold SStock.sendStock
  split_ifs
  · exact (List.append_nil _).symm
  · cases users with
    | nil => exact (List.append_nil _).symm
    | cons user rest => rfl

theorem writes_cases (users : List RealmUser) (c : Call) :
    (c.writes users : List (String × Json P))=[] ∨
      ∃child : String × Json P,c.writes users=[child] ∧ c.after users=users ∧ c.saved=none := by
  cases c with
  | save text => exact Or.inl rfl
  | sendStock autoId recipient stock =>
    by_cases hr : recipient.isEmpty
    · exact Or.inl (by simp [writes,SStock.sendStock,hr])
    · cases users with
      | nil => exact Or.inl (by simp [writes,SStock.sendStock])
      | cons user rest =>
        refine Or.inr ⟨(autoId,chatMessage user.userName recipient stock),?_,rfl,rfl⟩
        simp [writes,SStock.sendStock,hr]

theorem afterAll_append (users : List RealmUser) (cs ds : List Call) :
    afterAll users (cs++ds)=afterAll (afterAll users cs) ds := List.foldl_append

theorem written_append (users : List RealmUser) (cs ds : List Call) :
    (written users (cs++ds) : List (String × Json P))=
      written users cs++written (afterAll users cs) ds := by
  induction cs generalizing users with
  | nil => rfl
  | cons c cs ih =>
    show c.writes users++written (c.after users) (cs++ds)=_
    rw [ih,← List.append_assoc]
    rfl

/-- The first child written is written by one of the calls, after others that
write nothing. -/
theorem written_eq_cons {users : List RealmUser} {cs : List Call} {child : String × Json P}
    {rest : List (String × Json P)} (h : written users cs=child::rest) :
    ∃first last,cs=first++last ∧ written users first=[child] ∧
      written (afterAll users first) last=rest := by
  induction cs generalizing users with
  | nil => cases h
  | cons c cs ih =>
    rw [written] at h
    rcases writes_cases (P := P) users c with hnil|⟨child',hone,_⟩
    · rw [hnil,List.nil_append] at h
      obtain ⟨first,last,rfl,hfirst,hlast⟩ := ih h
      refine ⟨c::first,last,rfl,?_,hlast⟩
      rw [written,hnil,hfirst,List.nil_append]
    · rw [hone] at h
      obtain ⟨rfl,hrest⟩ := List.cons.inj h
      exact ⟨[c],cs,rfl,by rw [written,hone]; rfl,hrest⟩

/-- The calls but for those that write a child. -/
def refusedOrSaves (P : Type) (users : List RealmUser) : List Call → List Call
  | [] => []
  | c::cs => if (c.writes users : List (String × Json P)).isEmpty then
      c::refusedOrSaves P (c.after users) cs else refusedOrSaves P (c.after users) cs

theorem refusedOrSaves_cons_nil {users : List RealmUser} {c : Call}
    (h : (c.writes users : List (String × Json P))=[]) (cs : List Call) :
    refusedOrSaves P users (c::cs)=c::refusedOrSaves P (c.after users) cs := by
  rw [refusedOrSaves,h]
  rfl

theorem refusedOrSaves_cons_one {users : List RealmUser} {c : Call} {child : String × Json P}
    (h : c.writes users=[child]) (cs : List Call) :
    refusedOrSaves P users (c::cs)=refusedOrSaves P (c.after users) cs := by
  rw [refusedOrSaves,h]
  rfl

/-- `kept` are the calls without `n` that send a stock. -/
structure Omits (n : ℕ) (calls kept : List Call) : Prop where
  sublist : kept.Sublist calls
  saves : kept.filterMap saved=calls.filterMap saved
  length : kept.length+n=calls.length

theorem Omits.refl (cs : List Call) : Omits 0 cs cs := ⟨List.Sublist.refl _,rfl,rfl⟩

theorem Omits.trans {m n : ℕ} {cs ds es : List Call} (h : Omits m cs ds) (h' : Omits n ds es) :
    Omits (m+n) cs es := by
  have hlength := h.length
  have hlength' := h'.length
  exact ⟨h'.sublist.trans h.sublist,h'.saves.trans h.saves,by omega⟩

theorem Omits.append {m n : ℕ} {cs ds ks ls : List Call} (h : Omits m cs ks) (h' : Omits n ds ls) :
    Omits (m+n) (cs++ds) (ks++ls) := by
  refine ⟨h.sublist.append h'.sublist,?_,?_⟩
  · rw [List.filterMap_append,List.filterMap_append,h.saves,h'.saves]
  · have hlength := h.length
    have hlength' := h'.length
    rw [List.length_append,List.length_append]
    omega

theorem omits_refusedOrSaves (users : List RealmUser) (cs : List Call) :
    Omits (written users cs : List (String × Json P)).length cs (refusedOrSaves P users cs) := by
  induction cs generalizing users with
  | nil => exact Omits.refl []
  | cons c cs ih =>
    have hrest := ih (c.after users)
    rw [written]
    rcases writes_cases (P := P) users c with hnil|⟨child,hone,_,hsaved⟩
    · rw [refusedOrSaves_cons_nil hnil,hnil,List.nil_append]
      have hboth := (Omits.refl [c]).append hrest
      rw [Nat.zero_add] at hboth
      exact hboth
    · rw [refusedOrSaves_cons_one hone,hone]
      refine ⟨hrest.sublist.cons c,?_,?_⟩
      · rw [hrest.saves,List.filterMap_cons_none hsaved]
      · have hlength := hrest.length
        simp only [List.length_append,List.length_cons,List.length_nil]
        omega

theorem afterAll_refusedOrSaves (users : List RealmUser) (cs : List Call) :
    afterAll users (refusedOrSaves P users cs)=afterAll users cs := by
  induction cs generalizing users with
  | nil => rfl
  | cons c cs ih =>
    have hrest := ih (c.after users)
    rcases writes_cases (P := P) users c with hnil|⟨child,hone,hafter,_⟩
    · rw [refusedOrSaves_cons_nil hnil]
      exact hrest
    · rw [refusedOrSaves_cons_one hone,hafter]
      rw [hafter] at hrest
      show _=afterAll (c.after users) cs
      rw [hafter,hrest]

theorem written_refusedOrSaves (users : List RealmUser) (cs : List Call) :
    (written users (refusedOrSaves P users cs) : List (String × Json P))=[] := by
  induction cs generalizing users with
  | nil => rfl
  | cons c cs ih =>
    have hrest := ih (c.after users)
    rcases writes_cases (P := P) users c with hnil|⟨child,hone,hafter,_⟩
    · rw [refusedOrSaves_cons_nil hnil,written,hnil,hrest,List.nil_append]
    · rw [refusedOrSaves_cons_one hone,hafter]
      rw [hafter] at hrest
      exact hrest

/-- Calls that write nothing need not be put off. -/
theorem eagerly (users : List RealmUser) (cs : List Call) :
    ∃now later,cs=now++later ∧ (written users now : List (String × Json P))=[] ∧
      (written (afterAll users now) later : List (String × Json P))=written users cs ∧
      ((written users cs : List (String × Json P))=[] → later=[]) := by
  by_cases hnil : (written users cs : List (String × Json P))=[]
  · exact ⟨cs,[],(List.append_nil _).symm,hnil,hnil.symm,fun _ => rfl⟩
  · exact ⟨[],cs,rfl,rfl,rfl,fun h => absurd h hnil⟩

end Call

namespace App

/-- The calls a step makes; whether they are refused is not up to it. -/
def calls (s : App P) : Event P → List Call
  | .onSave text => [.save text]
  | .send autoId recipient => match s.alert with
    | none => []
    | some alert => match s.realm.rows[alert.row]? with
      | none => []
      | some row => [.sendStock autoId recipient row.stock.datasetCode]
  | _ => []

/-- The calls say all that a step does to the users and the database. -/
theorem calls_of_step [Zero P] [One P] {env : Env P} {s t : App P} {e : Event P}
    (h : s.step env e=some t) : Call.afterAll s.users (s.calls e)=t.users ∧
      Call.written s.users (s.calls e)=s.messages e := by
  cases e with
  | onSave text =>
    cases h
    exact ⟨rfl,rfl⟩
  | send autoId recipient =>
    rw [step] at h
    cases ha : s.alert with
    | none =>
      obtain rfl : t=s := by simpa [send,ha] using h.symm
      simp [calls,messages,ha,Call.afterAll,Call.written]
    | some alert =>
      rw [send_eq ha] at h
      obtain ⟨row,hr,rfl⟩ := Option.map_eq_some_iff.mp h
      have hcall : s.calls (.send autoId recipient)=
          [.sendStock autoId recipient row.stock.datasetCode] := by
        simp only [calls,ha,hr]
      rw [hcall]
      refine ⟨rfl,?_⟩
      have hwritten := sendStock_eq_messages ha hr [] autoId recipient
      show (sendStock autoId s.users [] recipient row.stock.datasetCode).2++[]=_
      rw [List.append_nil,hwritten,List.nil_append]
  | _ => exact ⟨((users_firebase_of_step h).1 (by simp)).symm,rfl⟩

end App

/-- Save as one event of the application is opening a screen, an edit and Save
on a client. -/
theorem Client.users_save (c : Client P) (text : String) :
    (((c.viewDidLoad).edit c.screens.length text).onSave c.screens.length).users=
      (Call.save text).after c.users := by
  have hopen : ((c.viewDidLoad).edit c.screens.length text).screens[c.screens.length]?=
      some ((Screen.opened c.users).edit text) := by
    simp [Client.viewDidLoad,Client.edit]
  rw [Client.onSave,hopen]
  rfl

namespace Network

def Event.foreignChild : Event ι String P → Option (String × Json P)
  | .foreign key value => some (key,value)
  | _ => none

/-- How the network answers a call. -/
def answer (n : Network ι String P) (i : ι) : Call → List (Event ι String P)
  | .save text => let k := (n.clients i).screens.length
    [.viewDidLoad i,.edit i k text,.onSave i k]
  | .sendStock autoId recipient stock => [.sendStock i autoId recipient stock]

variable [DecidableEq ι] (same : String → String → Bool)

/-- The call that an event answers, if it is one of client `i`. -/
def Event.call (i : ι) : Event ι String P → Option Call
  | .edit j _ text => if j=i then some (.save text) else none
  | .sendStock j autoId recipient stock =>
    if j=i then some (.sendStock autoId recipient stock) else none
  | _ => none

def answerAll (n : Network ι String P) (i : ι) : List Call → List (Event ι String P)
  | [] => []
  | c::cs => n.answer i c++((n.answer i c).foldl (step same) n).answerAll i cs

/-- What answering does: to the log, to the users of the client, and to no
other client. -/
structure Answered (n : Network ι String P) (i : ι) (cs : List Call) (m : Network ι String P) :
    Prop where
  log : m.log=n.log++Call.written (n.clients i).users cs
  users : (m.clients i).users=Call.afterAll (n.clients i).users cs
  others : ∀j,j≠i → m.clients j=n.clients j

theorem answered_answer (n : Network ι String P) (i : ι) (c : Call) :
    Answered n i [c] ((n.answer i c).foldl (step same) n) := by
  cases c with
  | save text =>
    let k := (n.clients i).screens.length
    show Answered n i _
      (((n.update i Client.viewDidLoad).update i (Client.edit k text)).update i (Client.onSave k))
    refine ⟨(List.append_nil _).symm,?_,fun j hj => ?_⟩
    · simp only [update,Function.update_self]
      exact Client.users_save (n.clients i) text
    · simp only [update,Function.update_of_ne hj]
  | sendStock autoId recipient stock =>
    refine ⟨?_,rfl,fun j _ => rfl⟩
    show (sendStock autoId (n.clients i).users n.log recipient stock).2=_
    rw [Call.sendStock_append]
    exact congrArg (n.log++·) (List.append_nil _).symm

theorem answered_answerAll (n : Network ι String P) (i : ι) (cs : List Call) :
    Answered n i cs ((n.answerAll same i cs).foldl (step same) n) := by
  induction cs generalizing n with
  | nil => exact ⟨(List.append_nil _).symm,rfl,fun _ _ => rfl⟩
  | cons c cs ih =>
    have hc := answered_answer same n i c
    have hcs := ih ((n.answer i c).foldl (step same) n)
    rw [answerAll,List.foldl_append]
    refine ⟨?_,?_,fun j hj => (hcs.others j hj).trans (hc.others j hj)⟩
    · rw [hcs.log,hc.log,hc.users,List.append_assoc]
      exact congrArg (n.log++·) (Call.written_append _ [c] cs).symm
    · rw [hcs.users,hc.users]
      exact (Call.afterAll_append _ [c] cs).symm

theorem calls_answerAll (n : Network ι String P) (i j : ι) (cs : List Call) :
    (n.answerAll same i cs).filterMap (Event.call j)=if i=j then cs else [] := by
  induction cs generalizing n with
  | nil => exact (ite_self []).symm
  | cons c cs ih =>
    have hc : (n.answer i c).filterMap (Event.call j)=if i=j then [c] else [] := by
      cases c with
      | save text => by_cases hj : i=j <;> simp [answer,Event.call,List.filterMap_cons,hj]
      | sendStock autoId recipient stock => by_cases hj : i=j <;> simp [answer,Event.call,hj]
    rw [answerAll,List.filterMap_append,hc,ih]
    split_ifs <;> rfl

theorem foreign_answerAll (n : Network ι String P) (i : ι) (cs : List Call) :
    (n.answerAll same i cs).filterMap Event.foreignChild=[] := by
  induction cs generalizing n with
  | nil => rfl
  | cons c cs ih =>
    have hc : (n.answer i c).filterMap Event.foreignChild=[] := by cases c <;> rfl
    rw [answerAll,List.filterMap_append,hc,ih,List.append_nil]

end Network

/-- The devices, and the network that has answered their calls but for the last
ones of each device with a queue: those write what is queued. -/
structure Lags (s : Fleet ι P) (n : Network ι String P) (deferred : ι → List Call) : Prop where
  log : n.log=s.log
  users : ∀i,Call.afterAll (n.clients i).users (deferred i)=(s.parts i).users
  pending : ∀i,Call.written (n.clients i).users (deferred i)=s.pending i
  eager : ∀i,s.pending i=[] → deferred i=[]

namespace Lags

variable [DecidableEq ι] (same : String → String → Bool) {s : Fleet ι P} {n : Network ι String P}
  {deferred : ι → List Call} {i : ι}

/-- One device changes, and the network answers its calls `now`. -/
theorem answer (h : Lags s n deferred) {now later : List Call} {t : App P}
    {pending log : List (String × Json P)}
    (hlog : log=s.log++Call.written (n.clients i).users now)
    (husers : Call.afterAll (n.clients i).users (now++later)=t.users)
    (hpending : Call.written (Call.afterAll (n.clients i).users now) later=pending)
    (heager : pending=[] → later=[]) :
    Lags ⟨Function.update s.parts i t,Function.update s.pending i pending,log⟩
      ((n.answerAll same i now).foldl (Network.step same) n) (Function.update deferred i later) := by
  have hn := Network.answered_answerAll same n i now
  refine ⟨?_,fun j => ?_,fun j => ?_,fun j => ?_⟩
  · rw [hn.log,h.log]
    exact hlog.symm
  · by_cases hj : j=i
    · subst hj
      simp only [Function.update_self]
      rw [hn.users,← Call.afterAll_append]
      exact husers
    · simp only [Function.update_of_ne hj]
      rw [hn.others j hj]
      exact h.users j
  · by_cases hj : j=i
    · subst hj
      simp only [Function.update_self]
      rw [hn.users]
      exact hpending
    · simp only [Function.update_of_ne hj]
      rw [hn.others j hj]
      exact h.pending j
  · by_cases hj : j=i
    · subst hj
      simp only [Function.update_self]
      exact heager
    · simp only [Function.update_of_ne hj]
      exact h.eager j

/-- When the device ends, only the calls whose children are lost are left out. -/
theorem ended (h : Lags s n deferred) :
    Lags ⟨Function.update s.parts i (s.parts i).relaunch,Function.update s.pending i [],s.log⟩
      ((n.answerAll same i (Call.refusedOrSaves P (n.clients i).users (deferred i))).foldl
        (Network.step same) n) (Function.update deferred i []) := by
  refine h.answer same ?_ ?_ rfl (fun _ => rfl)
  · rw [Call.written_refusedOrSaves,List.append_nil]
  · rw [List.append_nil,Call.afterAll_refusedOrSaves,h.users i]
    rfl

/-- When a child is taken, the calls up to the one that wrote it are answered. -/
theorem taken (h : Lags s n deferred) {child : String × Json P} {rest : List (String × Json P)}
    (hp : s.pending i=child::rest) :
    ∃now later,deferred i=now++later ∧
      Lags ⟨s.parts,Function.update s.pending i rest,s.log++[child]⟩
        ((n.answerAll same i now).foldl (Network.step same) n)
        (Function.update deferred i later) := by
  let users := (n.clients i).users
  obtain ⟨first,last,hdeferred,hfirst,hlast⟩ :=
    Call.written_eq_cons ((h.pending i).trans hp)
  obtain ⟨now,later,hsplit,hnow,hlater,heager⟩ :=
    Call.eagerly (P := P) (Call.afterAll users first) last
  have hall : deferred i=first++now++later := by rw [hdeferred,hsplit,List.append_assoc]
  refine ⟨first++now,later,hall,?_⟩
  have hlog : s.log++[child]=s.log++Call.written users (first++now) := by
    rw [Call.written_append,hfirst,hnow,List.append_nil]
  have husers : Call.afterAll users (first++now++later)=(s.parts i).users := by
    rw [← hall]
    exact h.users i
  have hpending : Call.written (Call.afterAll users (first++now)) later=rest := by
    rw [Call.afterAll_append,hlater]
    exact hlast
  have hlags := h.answer same hlog husers hpending (fun hnil => heager (hlast.trans hnil))
  rwa [Function.update_eq_self] at hlags

theorem outside (h : Lags s n deferred) (child : String × Json P) :
    Lags ⟨s.parts,s.pending,s.log++[child]⟩ (n.step same (.foreign child.1 child.2)) deferred := by
  refine ⟨?_,h.users,h.pending,h.eager⟩
  show n.log++[child]=s.log++[child]
  rw [h.log]

variable [Zero P] [One P] {env : Env P} {e : SStock.Event P} {t : App P}

/-- The calls of a step join those put off, or are answered if there are none. -/
theorem step (h : Lags s n deferred) (ht : (s.parts i).step env e=some t) :
    ∃now later,deferred i++(s.parts i).calls e=now++later ∧
      Lags ⟨Function.update s.parts i t,
          Function.update s.pending i (s.pending i++(s.parts i).messages e),s.log⟩
        ((n.answerAll same i now).foldl (Network.step same) n)
        (Function.update deferred i later) := by
  obtain ⟨husers,hwritten⟩ := App.calls_of_step ht
  let users := (n.clients i).users
  let all := deferred i++(s.parts i).calls e
  have hall : Call.written users all=s.pending i++(s.parts i).messages e := by
    rw [Call.written_append,h.pending i,h.users i,hwritten]
  obtain ⟨now,later,hsplit,hnow,hlater,heager⟩ := Call.eagerly (P := P) users all
  refine ⟨now,later,hsplit,h.answer same ?_ ?_ (hlater.trans hall) (fun hnil => ?_)⟩
  · rw [hnow,List.append_nil]
  · rw [← hsplit,Call.afterAll_append,h.users i]
    exact husers
  · exact heager (hall.trans hnil)

end Lags

section Refinement

variable [DecidableEq ι] [Zero P] [One P] {env : Env P} {devices : ι → Device P}
  {database : List (String × Json P)} {es : List (Fleet.Event ι P)} {s : Fleet ι P}

/-- The calls made on device `i`. -/
def Fleet.calls (env : Env P) (devices : ι → Device P) (i : ι) (es : List (Fleet.Event ι P)) :
    List Call :=
  emitted (living (App.step env) App.relaunch) (lived (App.step env) App.calls)
    (devices i).launch (Fleet.life i es)

theorem Fleet.calls_snoc (h : run (Fleet.step env) (Fleet.start devices database) es=some s)
    (e : Fleet.Event ι P) (i : ι) : Fleet.calls env devices i (es++[e])=
      Fleet.calls env devices i es++SharedLog.writes (lived (App.step env) App.calls) i s e := by
  obtain ⟨t,ht⟩ := Fleet.run_start env devices database (es++[e])
  have hall (gs : List (Fleet.Event ι P)) {u : Fleet ι P}
      (hu : run (Fleet.step env) (Fleet.start devices database) gs=some u) :
      Fleet.calls env devices i gs=emitted (Fleet.step env)
        (SharedLog.writes (lived (App.step env) App.calls) i) (Fleet.start devices database) gs :=
    (SharedLog.emitted_writes hu i).symm
  rw [hall _ ht,hall _ h,emitted_snoc h]

/-- The run `fs` of the network has the foreign children of `es` and answers the
calls made on each device in order. Those in `deferred` it has put off, and it
leaves out as many stocks sent as messages were lost. -/
structure Answers (env : Env P) (devices : ι → Device P) (database : List (String × Json P))
    (es : List (Fleet.Event ι P)) (fs : List (Network.Event ι String P))
    (deferred : ι → List Call) : Prop where
  calls : ∀i,Call.Omits (Fleet.lost env devices database i es).length
    (Fleet.calls env devices i es) (fs.filterMap (Network.Event.call i)++deferred i)
  foreign : fs.filterMap Network.Event.foreignChild=es.filterMap SharedLog.Event.entry

namespace Answers

variable {fs : List (Network.Event ι String P)} {deferred : ι → List Call}
  (same : String → String → Bool) {n : Network ι String P}

/-- An event makes the calls `new` on device `i`, and the network answers `now`. -/
theorem answer (h : Answers env devices database es fs deferred)
    (hs : run (Fleet.step env) (Fleet.start devices database) es=some s) {e : Fleet.Event ι P}
    {i : ι} {now later new : List Call} {lost : ℕ} (hentry : e.entry=none)
    (hothers : ∀j,j≠i → e.own j=none)
    (hnew : SharedLog.writes (lived (App.step env) App.calls) i s e=new)
    (hlost : (SharedLog.losses (survives (App.step env)) i s e).length=lost)
    (homits : Call.Omits lost (deferred i++new) (now++later)) :
    Answers env devices database (es++[e]) (fs++n.answerAll same i now)
      (Function.update deferred i later) := by
  refine ⟨fun j => ?_,?_⟩
  · rw [Fleet.calls_snoc hs,Fleet.lost,emitted_snoc hs,List.filterMap_append,
      Network.calls_answerAll,List.length_append]
    by_cases hj : i=j
    · subst hj
      rw [if_pos rfl,Function.update_self,hnew,hlost]
      have hmade := (h.calls i).append (Call.Omits.refl new)
      have hrest := (Call.Omits.refl (fs.filterMap (Network.Event.call i))).append homits
      rw [Nat.add_zero,List.append_assoc] at hmade
      rw [Nat.zero_add,← List.append_assoc _ now later] at hrest
      exact hmade.trans hrest
    · rw [if_neg hj,Function.update_of_ne (Ne.symm hj),List.append_nil,
        SharedLog.writes_of_none (hothers j (Ne.symm hj)),
        SharedLog.losses_of_none (hothers j (Ne.symm hj)),List.append_nil]
      exact h.calls j
  · have hnone : [e].filterMap SharedLog.Event.entry=[] := List.filterMap_cons_none hentry
    rw [List.filterMap_append,Network.foreign_answerAll,h.foreign,List.filterMap_append,hnone]

theorem outside (h : Answers env devices database es fs deferred)
    (hs : run (Fleet.step env) (Fleet.start devices database) es=some s)
    (child : String × Json P) : Answers env devices database (es++[.outside child])
      (fs++[.foreign child.1 child.2]) deferred := by
  refine ⟨fun i => ?_,?_⟩
  · rw [Fleet.calls_snoc hs,Fleet.lost,emitted_snoc hs,SharedLog.writes_of_none rfl,
      SharedLog.losses_of_none rfl,List.append_nil,List.append_nil,List.filterMap_append]
    show Call.Omits _ _ (fs.filterMap _++[]++deferred i)
    rw [List.append_nil]
    exact h.calls i
  · rw [List.filterMap_append,h.foreign,List.filterMap_append]
    rfl

/-- Whatever the devices do next, the network goes on. -/
theorem step (h : Answers env devices database es fs deferred) (hlags : Lags s n deferred)
    (hs : run (Fleet.step env) (Fleet.start devices database) es=some s) {e : Fleet.Event ι P}
    {t : Fleet ι P} (ht : Fleet.step env s e=some t) : ∃gs deferred',
      Answers env devices database (es++[e]) (fs++gs) deferred' ∧
        Lags t (gs.foldl (Network.step same) n) deferred' := by
  cases e with
  | outside child =>
    cases ht
    exact ⟨_,_,h.outside hs child,hlags.outside same child⟩
  | taken i =>
    rcases SharedLog.next_taken ht with ⟨_,rfl⟩|⟨child,rest,hp,rfl⟩
    · have homits : Call.Omits 0 (deferred i++[]) ([]++deferred i) := by
        rw [List.append_nil]
        exact Call.Omits.refl _
      refine ⟨n.answerAll same i [],_,h.answer same hs rfl (fun _ _ => rfl)
        (SharedLog.writes_of_none rfl) (congrArg List.length (SharedLog.losses_of_none rfl))
        homits,?_⟩
      rw [Function.update_eq_self]
      exact hlags
    · obtain ⟨now,later,hsplit,hnext⟩ := hlags.taken same hp
      refine ⟨_,_,h.answer same hs rfl (fun _ _ => rfl) (SharedLog.writes_of_none rfl)
        (congrArg List.length (SharedLog.losses_of_none rfl)) ?_,hnext⟩
      rw [← hsplit,List.append_nil]
      exact Call.Omits.refl _
  | part i e =>
    have hothers (j : ι) (hj : j≠i) : (SharedLog.Event.part i e : Fleet.Event ι P).own j=none :=
      SharedLog.own_of_ne (Ne.symm hj) e
    have hwrites := SharedLog.writes_self (lived (App.step env) App.calls) i s e
    have hlosses := SharedLog.losses_self (survives (App.step env)) i s e
    by_cases hlive : ∃f u,e=some f ∧ (s.parts i).step env f=some u
    · obtain ⟨f,u,rfl,hu⟩ := hlive
      obtain rfl := Option.some.inj ((Fleet.step_part hu).symm.trans ht)
      obtain ⟨now,later,hsplit,hnext⟩ := hlags.step same hu
      have hsurvives : survives (App.step env) (s.parts i) (some f)=true := by
        rw [survives,hu]
        rfl
      rw [lived_of_step hu] at hwrites
      rw [hsurvives,if_pos rfl] at hlosses
      refine ⟨_,_,h.answer same hs rfl hothers hwrites (congrArg List.length hlosses) ?_,hnext⟩
      rw [← hsplit]
      exact Call.Omits.refl _
    · have htrap (f : SStock.Event P) (hf : e=some f) : (s.parts i).step env f=none := by
        cases hu : (s.parts i).step env f with
        | none => rfl
        | some u => exact absurd ⟨f,u,hf,hu⟩ hlive
      obtain rfl := Option.some.inj ((Fleet.step_ended htrap).symm.trans ht)
      have hsurvives : survives (App.step env) (s.parts i) e=false := by
        cases e with
        | none => rfl
        | some f => rw [survives,htrap f rfl]; rfl
      rw [lived_of_trap htrap] at hwrites
      rw [hsurvives,if_neg Bool.false_ne_true,← hlags.pending i] at hlosses
      refine ⟨_,_,h.answer same hs rfl hothers hwrites (congrArg List.length hlosses) ?_,
        hlags.ended same⟩
      rw [List.append_nil,List.append_nil]
      exact Call.omits_refusedOrSaves _ _

end Answers

end Refinement

/-- The applications on the devices, with all their screens, replies, kills and
traps and with messages that the server takes late or never, refine the network
of clients. There is a run of it with the same foreign children that leaves the
same database. It answers the calls of each device in order, leaving out as many
stocks sent as messages were lost and putting off the last ones. These write the
messages queued, in order, and lead to the stored users; where no message is
queued none is put off, and the users are the same. -/
theorem fleet_refines_network [DecidableEq ι] [Zero P] [One P] (env : Env P)
    (same : String → String → Bool) (devices : ι → Device P) (database : List (String × Json P))
    (es : List (Fleet.Event ι P)) :
    ∃s,run (Fleet.step env) (Fleet.start devices database) es=some s ∧
      ∃(fs : List (Network.Event ι String P)) (deferred : ι → List Call),
        Answers env devices database es fs deferred ∧
        let n := fs.foldl (Network.step same) ⟨fun i => {users := (devices i).users},database⟩
        n.log=s.log ∧ ∀i,Call.afterAll (n.clients i).users (deferred i)=(s.parts i).users ∧
          Call.written (n.clients i).users (deferred i)=s.pending i ∧
          (s.pending i=[] → deferred i=[] ∧ (n.clients i).users=(s.parts i).users) := by
  obtain ⟨s,hs⟩ := Fleet.run_start env devices database es
  let first : Network ι String P := ⟨fun i => {users := (devices i).users},database⟩
  have hmatched := run_history (I := fun gs u =>
      run (Fleet.step env) (Fleet.start devices database) gs=some u ∧
      ∃fs deferred,Answers env devices database gs fs deferred ∧
        Lags u (List.foldl (Network.step same) first fs) deferred) hs ?_ ?_
  · obtain ⟨_,fs,deferred,hanswers,hlags⟩ := hmatched
    refine ⟨s,hs,fs,deferred,hanswers,hlags.log,fun i => ⟨hlags.users i,hlags.pending i,?_⟩⟩
    intro hnil
    have hnone := hlags.eager i hnil
    have husers := hlags.users i
    rw [hnone] at husers
    exact ⟨hnone,husers⟩
  · refine ⟨rfl,[],fun _ => [],⟨fun _ => Call.Omits.refl [],rfl⟩,rfl,fun _ => rfl,fun _ => rfl,
      fun _ _ => rfl⟩
  · rintro gs e u v ⟨hu,fs,deferred,hanswers,hlags⟩ hv
    obtain ⟨new,deferred',hanswers',hlags'⟩ := hanswers.step same hlags hu hv
    rw [← List.foldl_append] at hlags'
    exact ⟨(run_snoc_eq_some _).mpr ⟨u,hu,hv⟩,fs++new,deferred',hanswers',hlags'⟩

end SStock
