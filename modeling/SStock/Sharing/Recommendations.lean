import SStock.Sharing.Devices
import SStock.Sharing.FeedScreen

namespace SStock

open Framework

variable {ι P : Type}

namespace Fleet

variable [DecidableEq ι] [Zero P] [One P] {env : Env P} {devices : ι → Device P}
  {database : List (String × Json P)} {es : List (Event ι P)} {s : Fleet ι P}

/-- Send on one of the devices wrote this message: under the name last saved
there, for a recipient, and about a stock held there. -/
def Sent (devices : ι → Device P) (es : List (Event ι P)) (autoId sender recipient code : String) :
    Prop :=
  ∃i fs stock,fs++[.part i (some (.send autoId recipient))] <+: es ∧ recipient≠"" ∧
    savedName (devices i).users (life i fs).reduceOption=some sender ∧
    Held (devices i).portfolio (life i fs).reduceOption stock ∧ stock.datasetCode=code

theorem sent_of_firebase (h : run (step env) (start devices database) es=some s) {i : ι}
    {child : String × Json P} (hm : child∈(s.parts i).firebase) :
    ∃autoId sender recipient code,Sent devices es autoId sender recipient code ∧
      child=(autoId,chatMessage sender recipient code) := by
  rw [firebase_of_life (run_life h i)] at hm
  obtain ⟨gs,e,u,hp,hu,hemit⟩ := mem_emitted hm
  obtain ⟨fs,hfs,hown⟩ := SharedLog.prefix_of_own hp
  have hlife : life i fs=gs := hown
  rw [← hlife] at hu
  obtain ⟨f,rfl,_,hmessage⟩ := mem_lived hemit
  obtain ⟨autoId,recipient,name,rfl,hne,hname,row,hrow,rfl⟩ := App.mem_messages hmessage
  exact ⟨autoId,name,recipient,_,⟨i,fs,row.stock,hfs,hne,
    (name_of_life hu).symm.trans hname,held_of_life hu hrow,rfl⟩,rfl⟩

theorem origin_of_child (h : run (step env) (start devices database) es=some s)
    {child : String × Json P} (hm : child∈s.log) :
    (child∈database ∨ .outside child∈es) ∨ ∃autoId sender recipient code,
      Sent devices es autoId sender recipient code ∧
        child=(autoId,chatMessage sender recipient code) := by
  rcases SharedLog.mem_log h hm with hold|hout|⟨i,hwritten⟩
  · exact Or.inl (Or.inl hold)
  · exact Or.inl (Or.inr hout)
  · right
    refine sent_of_firebase h (i := i) ?_
    rw [firebase_of_life (run_life h i)]
    exact hwritten

end Fleet

section Origin

variable [DecidableEq ι] [Zero P] [One P] {env : Env P} {devices : ι → Device P}
  {database : List (String × Json P)} {es : List (Fleet.Event ι P)} {s : Fleet ι P}

/-- What a user screen shows, at any time and on any device, is its initial
empty cell, or words a child that some other program wrote, or words a message
that Send wrote on one of the devices. The screen may be given children of the
database and writes that a device has only queued, in any order. -/
theorem recommendations_have_origin (same : String → String → Bool) {users : List RealmUser}
    (h : run (Fleet.step env) (Fleet.start devices database) es=some s)
    {fs : List (FeedScreen.Event P)}
    (hfs : ∀value,.childAdded value∈fs →
      ∃key,(key,value)∈s.log ∨ ∃i,(key,value)∈(s.parts i).firebase)
    {u : FeedScreen P} (hu : run (FeedScreen.step same) (FeedScreen.opened users) fs=some u)
    {r : ℕ} {cell : String × String} (hc : u.tableView[r]?=some cell) :
    cell=("","") ∨
      (∃child entry,(child∈database ∨ .outside child∈es) ∧
        Entry.of same (users.head?.map RealmUser.userName) child.2=some entry ∧
        cell=(entry.row.1,entry.row.2.1)) ∨
      ∃autoId sender recipient code viewer,Fleet.Sent devices es autoId sender recipient code ∧
        users.head?.map RealmUser.userName=some viewer ∧
        (same sender viewer=true ∧ cell=("","You recommended: "++code++" to "++recipient) ∨
          same sender viewer=false ∧ same recipient viewer=true ∧
            cell=(sender++" recommends: "++code,"")) := by
  rcases FeedScreen.origin_of_cell hu hc with hinitial|⟨value,entry,hvalue,hentry,rfl⟩
  · exact Or.inl hinitial
  right
  obtain ⟨key,hm⟩ := hfs value hvalue
  have horigin : ((key,value)∈database ∨ .outside (key,value)∈es) ∨
      ∃autoId sender recipient code,Fleet.Sent devices es autoId sender recipient code ∧
        (key,value)=(autoId,chatMessage sender recipient code) := by
    rcases hm with hlog|⟨i,hwritten⟩
    · exact Fleet.origin_of_child h hlog
    · exact Or.inr (Fleet.sent_of_firebase h hwritten)
  rcases horigin with hother|⟨autoId,sender,recipient,code,hsent,heq⟩
  · exact Or.inl ⟨(key,value),entry,hother,hentry,rfl⟩
  · right
    obtain rfl : value=chatMessage sender recipient code := congrArg Prod.snd heq
    obtain ⟨viewer,hviewer,_⟩ := Option.bind_eq_some_iff.mp hentry
    rw [hviewer,Entry.of_chatMessage] at hentry
    refine ⟨autoId,sender,recipient,code,viewer,hsent,hviewer,?_⟩
    split_ifs at hentry with hsender hrecipient
    · cases hentry
      exact Or.inl ⟨hsender,rfl⟩
    · cases hentry
      exact Or.inr ⟨by simpa using hsender,hrecipient,rfl⟩

/-- A stock shared by one of two devices, as the other one shows it. -/
theorem recommendations_have_origin_shared :
    let es : List (Fleet.Event Bool ℕ) :=
      [.part true (some (.shareRow 0)),.part false none,.part true (some (.send "k" "bob")),
        .taken true]
    ∃u : FeedScreen ℕ,run (FeedScreen.step (·==·)) (FeedScreen.opened [⟨"bob"⟩])
        [.childAdded (chatMessage "ann" "bob" "FB" : Json ℕ),.reloadData]=some u ∧
      u.tableView[0]?=some ("ann recommends: FB","") ∧
      ∃autoId sender recipient code,Fleet.Sent sampleDevices es autoId sender recipient code ∧
        sender++" recommends: "++code="ann recommends: FB" := by
  intro es
  obtain ⟨s,hs,hlog⟩ : ∃s,run (Fleet.step App.sampleEnv) (Fleet.start sampleDevices []) es=some s ∧
      s.log=[("k",chatMessage "ann" "bob" "FB")] := ⟨_,rfl,rfl⟩
  obtain ⟨u,hu,hc⟩ : ∃u : FeedScreen ℕ,run (FeedScreen.step (·==·)) (FeedScreen.opened [⟨"bob"⟩])
        [.childAdded (chatMessage "ann" "bob" "FB" : Json ℕ),.reloadData]=some u ∧
      u.tableView[0]?=some ("ann recommends: FB","") := ⟨_,rfl,rfl⟩
  have hfs : ∀value,.childAdded value∈[.childAdded (chatMessage "ann" "bob" "FB" : Json ℕ),
      FeedScreen.Event.reloadData] →
      ∃key,(key,value)∈s.log ∨ ∃i,(key,value)∈(s.parts i).firebase := by
    intro value hm
    obtain rfl : value=chatMessage "ann" "bob" "FB" := by simpa using hm
    exact ⟨"k",Or.inl (by rw [hlog]; exact List.mem_singleton_self _)⟩
  refine ⟨u,hu,hc,?_⟩
  rcases recommendations_have_origin (·==·) hs hfs hu hc with
    hempty|⟨child,entry,hother,_⟩|⟨autoId,sender,recipient,code,viewer,hsent,_,hwords⟩
  · exact absurd hempty (by decide)
  · simp [es] at hother
  · refine ⟨autoId,sender,recipient,code,hsent,?_⟩
    rcases hwords with ⟨_,hcell⟩|⟨_,_,hcell⟩
    · have hfirst : "ann recommends: FB"="" := congrArg Prod.fst hcell
      exact absurd hfirst (by decide)
    · exact (congrArg Prod.fst hcell).symm

end Origin

end SStock
