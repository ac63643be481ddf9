import SStock.Portfolio.Sessions

namespace SStock

open Framework

variable {P : Type}

/-- The name that a Save stores. -/
def Event.saved : Event P → Option String
  | .onSave text => if text.isEmpty then none else some text
  | _ => none

/-- The user's name after `es`: the last one saved, or else that of before. -/
def savedName (users : List RealmUser) (es : List (Event P)) : Option String :=
  (es.filterMap Event.saved).getLast?.or (users.head?.map RealmUser.userName)

theorem savedName_snoc (users : List RealmUser) (es : List (Event P)) (e : Event P) :
    savedName users (es++[e])=e.saved.or (savedName users es) := by
  unfold savedName
  rw [List.filterMap_append]
  cases he : e.saved with
  | none => simp [he]
  | some name => simp [he]

section SendStock

variable {K : Type} {users : List RealmUser} {recipient name : String}

theorem sendStock_refused (h : recipient="" ∨ users.head?.map RealmUser.userName=none)
    (autoId : K) (log : List (K × Json P)) (stock : String) :
    sendStock autoId users log recipient stock=(false,log) := by
  unfold sendStock
  cases h with
  | inl hempty => exact if_pos (by rw [hempty]; rfl)
  | inr hnone =>
    cases users with
    | nil => exact ite_self _
    | cons user rest => cases hnone

theorem sendStock_signed (hr : recipient≠"") (hn : users.head?.map RealmUser.userName=some name)
    (autoId : K) (log : List (K × Json P)) (stock : String) :
    sendStock autoId users log recipient stock=
      (true,log++[(autoId,chatMessage name recipient stock)]) := by
  unfold sendStock
  rw [if_neg (by simpa using hr)]
  cases users with
  | nil => cases hn
  | cons user rest => rw [← Option.some.inj hn]

end SendStock

namespace App

/-- The children a step writes to the database. -/
def messages (s : App P) : Event P → List (String × Json P)
  | .send autoId recipient => match s.alert with
    | none => []
    | some alert => match s.realm.rows[alert.row]?,s.users with
      | some row,user::_ => if recipient.isEmpty then [] else
          [(autoId,chatMessage user.userName recipient row.stock.datasetCode)]
      | _,_ => []
  | _ => []

variable {env : Env P} {s t : App P}

theorem name_onSave (s : App P) (text : String) :
    (s.onSave text).users.head?.map RealmUser.userName=
      (Event.onSave text : Event P).saved.or (s.users.head?.map RealmUser.userName) := by
  rw [onSave,Event.saved]
  by_cases ht : text=""
  · rw [UserVC.onSave_of_empty ht,if_pos (by rw [ht]; rfl)]
    rfl
  · rw [UserVC.onSave_of_ne ht,if_neg (by simpa using ht)]
    rfl

/-- What `sendStock` appends for a row are the messages of the step. -/
theorem sendStock_eq_messages {alert : ShareAlert P} {row : Row P} (ha : s.alert=some alert)
    (hr : s.realm.rows[alert.row]?=some row) (log : List (String × Json P))
    (autoId recipient : String) :
    (sendStock autoId s.users log recipient row.stock.datasetCode).2=
      log++s.messages (.send autoId recipient) := by
  simp only [messages,ha,hr,sendStock]
  split_ifs with he
  · cases s.users <;> simp
  · cases s.users <;> simp

/-- A message is written by a Send that has a row, a user and a recipient. -/
theorem mem_messages {e : Event P} {child : String × Json P} (h : child∈s.messages e) :
    ∃autoId recipient name,e=.send autoId recipient ∧ recipient≠"" ∧
      s.users.head?.map RealmUser.userName=some name ∧
      ∃row∈s.realm.rows,child=(autoId,chatMessage name recipient row.stock.datasetCode) := by
  cases e with
  | send autoId recipient =>
    rw [messages] at h
    split at h
    · cases h
    · next alert _ =>
      split at h
      · next row user rest hr hu =>
        split_ifs at h with he
        · cases h
        · refine ⟨autoId,recipient,user.userName,rfl,fun hempty => he (by rw [hempty]; rfl),
            by rw [hu]; rfl,row,List.mem_of_getElem? hr,List.mem_singleton.mp h⟩
      · cases h
  | _ => cases h

variable [Zero P] [One P] {e : Event P}

/-- Only Save touches the users and only Send the messages. -/
theorem users_firebase_of_step (h : s.step env e=some t) :
    ((∀text,e≠.onSave text) → t.users=s.users) ∧
      ((∀autoId recipient,e≠.send autoId recipient) → t.firebase=s.firebase) := by
  rcases sameDevice_of_step h with
    hsame|⟨r,rfl⟩|⟨autoId,recipient,rfl⟩|rfl|⟨r,rfl⟩|rfl|⟨text,rfl⟩|⟨clock,rfl⟩
  · exact ⟨fun _ => hsame.users,fun _ => hsame.firebase⟩
  · cases h
    cases shareRow_cases s r with
    | inl he =>
      rw [he]
      exact ⟨fun _ => rfl,fun _ => rfl⟩
    | inr hex =>
      obtain ⟨cell,_,he⟩ := hex
      rw [he]
      exact ⟨fun _ => rfl,fun _ => rfl⟩
  · refine ⟨fun _ => ?_,fun hn => absurd rfl (hn autoId recipient)⟩
    cases send_cases h with
    | inl he => rw [he]
    | inr hex =>
      obtain ⟨alert,row,_,_,rfl⟩ := hex
      rfl
  · cases h
    exact ⟨fun _ => rfl,fun _ => rfl⟩
  · cases selectRow_cases h with
    | inl he =>
      rw [he]
      exact ⟨fun _ => rfl,fun _ => rfl⟩
    | inr hex =>
      obtain ⟨vc,_,rfl⟩ := hex
      exact ⟨fun _ => rfl,fun _ => rfl⟩
  · cases h
    exact ⟨fun _ => rfl,fun _ => rfl⟩
  · cases h
    exact ⟨fun hn => absurd rfl (hn text),fun _ => rfl⟩
  · cases h
    exact ⟨fun _ => rfl,fun _ => rfl⟩

/-- A step adds its messages to the database and does nothing else to it. -/
theorem firebase_of_step (h : s.step env e=some t) : t.firebase=s.firebase++s.messages e := by
  cases e with
  | send autoId recipient =>
    rw [step] at h
    cases ha : s.alert with
    | none =>
      obtain rfl : t=s := by simpa [send,ha] using h.symm
      simp [messages,ha]
    | some alert =>
      rw [send_eq ha] at h
      obtain ⟨row,hr,rfl⟩ := Option.map_eq_some_iff.mp h
      exact sendStock_eq_messages ha hr s.firebase autoId recipient
  | _ => exact ((users_firebase_of_step h).2 (by simp)).trans (List.append_nil _).symm

theorem name_of_step (h : s.step env e=some t) :
    t.users.head?.map RealmUser.userName=
      e.saved.or (s.users.head?.map RealmUser.userName) := by
  cases e with
  | onSave text =>
    cases h
    exact name_onSave s text
  | _ =>
    rw [(users_firebase_of_step h).1 (by simp)]
    rfl

end App

variable [Zero P] [One P] {env : Env P} {portfolio : List (RealmStock P)}
  {users : List RealmUser} {firebase : List (String × Json P)} {clock : DateFields}
  {es : List (Option (Event P))} {s : App P}

/-- A kill forgets no name, and a Save does not trap. -/
theorem name_of_life
    (h : run (living (App.step env) App.relaunch) (App.launch portfolio users firebase clock) es=
      some s) :
    s.users.head?.map RealmUser.userName=savedName users es.reduceOption := by
  refine run_history
    (I := fun fs u => u.users.head?.map RealmUser.userName=savedName users fs.reduceOption) h rfl ?_
  intro fs e u v hu hv
  rw [List.reduceOption_append]
  cases living_cases hv with
  | inl hr =>
    obtain ⟨rfl,htrap⟩ := hr
    show u.users.head?.map RealmUser.userName=_
    rw [hu]
    cases e with
    | none => simp
    | some f =>
      have hf : f.saved=none := by
        cases f with
        | onSave text => cases htrap _ rfl
        | _ => rfl
      rw [List.reduceOption_singleton]
      show _=savedName users (fs.reduceOption++[f])
      rw [savedName_snoc,hf,Option.none_or]
  | inr hex =>
    obtain ⟨f,rfl,hf⟩ := hex
    rw [App.name_of_step hf,hu]
    show _=savedName users (fs.reduceOption++[f])
    rw [savedName_snoc]

/-- However often the app was killed before, Send either writes one message,
signed with the name last saved, or presents the alert on the missing name. It
does the latter if no name was ever saved, and also on an empty recipient. -/
theorem send_signs_last_name
    (h : run (living (App.step env) App.relaunch) (App.launch portfolio users firebase clock) es=
      some s)
    {alert : ShareAlert P} (ha : s.alert=some alert) {row : Row P}
    (hr : s.realm.rows[alert.row]?=some row) (autoId recipient : String) :
    ∃t,s.step env (.send autoId recipient)=some t ∧ t.alert=none ∧
      (recipient="" ∨ savedName users es.reduceOption=none →
        t.firebase=s.firebase ∧ s.sendAction alert autoId recipient=
          some (t.firebase,some ("Error bud","You need to setup a user name first."))) ∧
      ∀name,recipient≠"" → savedName users es.reduceOption=some name →
        t.firebase=s.firebase++[(autoId,chatMessage name recipient row.stock.datasetCode)] ∧
          s.sendAction alert autoId recipient=some (t.firebase,none) := by
  have hlast := name_of_life h
  refine ⟨{s with
    alert := none
    firebase := (sendStock autoId s.users s.firebase recipient row.stock.datasetCode).2},
    ?_,rfl,?_,?_⟩
  · rw [App.step,App.send_eq ha,hr,Option.map_some]
  · intro hrefused
    rw [← hlast] at hrefused
    rw [App.sendAction,hr,Option.map_some,sendStock_refused hrefused]
    exact ⟨rfl,rfl⟩
  · intro name hne hname
    rw [← hlast] at hname
    rw [App.sendAction,hr,Option.map_some,sendStock_signed hne hname]
    exact ⟨rfl,rfl⟩

/-- The name is still there after a kill, and a Save of nothing keeps it. -/
theorem send_signs_last_name_after_kill :
    let env := App.sampleEnv
    let es : List (Option (Event ℕ)) :=
      [some (.onSave "eve"),none,some (.onSave ""),some (.shareRow 0)]
    ∃s t,run (living (App.step env) App.relaunch) (App.sampleLaunch [App.sampleStock "FB" 3]) es=
        some s ∧ s.step env (.send "k" "bob")=some t ∧
      t.firebase=[("k",chatMessage "eve" "bob" "FB")] := by
  intro env es
  obtain ⟨s,alert,row,hs,ha,hr,hf,hcode⟩ : ∃s alert row,
      run (living (App.step env) App.relaunch) (App.sampleLaunch [App.sampleStock "FB" 3]) es=
        some s ∧ s.alert=some alert ∧ s.realm.rows[alert.row]?=some row ∧ s.firebase=[] ∧
      row.stock.datasetCode="FB" := ⟨_,_,_,rfl,rfl,rfl,rfl,rfl⟩
  obtain ⟨t,ht,_,_,hsent⟩ := send_signs_last_name hs ha hr "k" "bob"
  obtain ⟨hlog,_⟩ := hsent "eve" (by decide) rfl
  refine ⟨s,t,hs,ht,?_⟩
  rw [hlog,hf,hcode,List.nil_append]

end SStock
