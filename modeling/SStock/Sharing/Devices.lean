import SStock.Framework.SharedLog
import SStock.Sharing.SendAlert

namespace SStock

open Framework

variable {ι P : Type}

/-- What a device has stored when the app is first started on it. -/
structure Device (P : Type) where
  portfolio : List (RealmStock P)
  users : List RealmUser
  clock : DateFields

def Device.launch (d : Device P) : App P := App.launch d.portfolio d.users [] d.clock

/-- The devices, the writes that each has queued for the server, and the children
of the shared database, in the order in which the server took them. `setValue`
only queues its write in the memory of the process. No handler of the portfolio
screen reads the database, so that `firebase` of a device only holds the writes
it has asked for. -/
abbrev Fleet (ι P : Type) := SharedLog ι (App P) (String × Json P)

namespace Fleet

/-- An event on a device, `none` a kill, the arrival of its oldest queued write
at the server, or a child that someone else writes. -/
abbrev Event (ι P : Type) := SharedLog.Event ι (Option (SStock.Event P)) (String × Json P)

def start (devices : ι → Device P) (database : List (String × Json P)) : Fleet ι P :=
  ⟨fun i => (devices i).launch,fun _ => [],database⟩

variable [DecidableEq ι] [Zero P] [One P]

/-- A kill or a trap loses the writes queued on its device. -/
def step (env : Env P) : Fleet ι P → Event ι P → Option (Fleet ι P) :=
  SharedLog.next (survives (App.step env)) (living (App.step env) App.relaunch)
    (lived (App.step env) App.messages)

/-- The writes of device `i` that were queued when it was killed or trapped. -/
def lost (env : Env P) (devices : ι → Device P) (database : List (String × Json P)) (i : ι)
    (es : List (Event ι P)) : List (String × Json P) :=
  emitted (step env) (SharedLog.losses (survives (App.step env)) i) (start devices database) es

/-- What happened on device `i`. -/
def life (i : ι) (es : List (Event ι P)) : List (Option (SStock.Event P)) :=
  es.filterMap (SharedLog.Event.own i)

variable {env : Env P} {devices : ι → Device P} {database : List (String × Json P)}
  {es : List (Event ι P)} {s : Fleet ι P}

theorem run_life (h : run (step env) (start devices database) es=some s) (i : ι) :
    run (living (App.step env) App.relaunch) (devices i).launch (life i es)=some (s.parts i) :=
  SharedLog.run_part h i

theorem run_start (env : Env P) (devices : ι → Device P) (database : List (String × Json P))
    (es : List (Event ι P)) : ∃s,run (step env) (start devices database) es=some s := by
  refine SharedLog.run_total (fun s e => ?_) _ es
  cases e with
  | none => exact ⟨_,rfl⟩
  | some f => exact ⟨_,rfl⟩

/-- A step of a device queues its messages. -/
theorem step_part {i : ι} {e : SStock.Event P} {t : App P} (ht : (s.parts i).step env e=some t) :
    step env s (.part i (some e))=some ⟨Function.update s.parts i t,
      Function.update s.pending i (s.pending i++(s.parts i).messages e),s.log⟩ := by
  have hkept : survives (App.step env) (s.parts i) (some e)=true := by
    rw [survives,ht]
    rfl
  rw [step,SharedLog.next,lived_of_step ht,hkept,living,ht]
  rfl

/-- A kill or a trap loses what was queued. -/
theorem step_ended {i : ι} {e : Option (SStock.Event P)}
    (he : ∀f,e=some f → (s.parts i).step env f=none) :
    step env s (.part i e)=some ⟨Function.update s.parts i (s.parts i).relaunch,
      Function.update s.pending i [],s.log⟩ := by
  rw [step,SharedLog.next,lived_of_trap he]
  cases e with
  | none => rfl
  | some f =>
    rw [survives,living,he f rfl]
    rfl

end Fleet

section Messages

variable [Zero P] [One P] {env : Env P} {s : App P}

/-- `firebase` of a device lists all that it has written, whatever was killed or
trapped in between. -/
theorem firebase_of_life {d : Device P} {es : List (Option (Event P))}
    (h : run (living (App.step env) App.relaunch) d.launch es=some s) :
    s.firebase=emitted (living (App.step env) App.relaunch)
      (lived (App.step env) App.messages) d.launch es := by
  refine run_emits (l := []) (R := fun u l => u.firebase=l) h rfl ?_
  intro u e v l hu hv
  cases living_cases hv with
  | inl hr =>
    obtain ⟨rfl,htrap⟩ := hr
    rw [lived_of_trap htrap,List.append_nil]
    exact hu
  | inr hex =>
    obtain ⟨f,rfl,hf⟩ := hex
    rw [lived_of_step hf,App.firebase_of_step hf,hu]

end Messages

/-- At any time the shared database is an interleaving of what the server has
taken from each device with what others have written. What it has taken from a
device are messages of that device, in the order written and none twice; all
others but those still queued were queued when the device was killed or trapped. -/
theorem database_interleaves_devices [DecidableEq ι] [Zero P] [One P] (env : Env P)
    (devices : ι → Device P) (database : List (String × Json P)) (es : List (Fleet.Event ι P)) :
    ∃s,run (Fleet.step env) (Fleet.start devices database) es=some s ∧
      ∃l : List (Option ι × String × Json P),s.log=database++l.map Prod.snd ∧
        l.filterMap (SharedLog.writtenBy none)=es.filterMap SharedLog.Event.entry ∧
        ∀i,SharedLog.Settled (s.parts i).firebase (l.filterMap (SharedLog.writtenBy (some i)))
          (Fleet.lost env devices database i es) (s.pending i) := by
  obtain ⟨s,hs⟩ := Fleet.run_start env devices database es
  obtain ⟨l,hlog,hout,hparts⟩ := SharedLog.run_interleaves hs
  refine ⟨s,hs,l,hlog,hout,fun i => ?_⟩
  rw [firebase_of_life (Fleet.run_life hs i)]
  exact hparts i

/-- Two devices, one with a stock. -/
def sampleDevices (i : Bool) : Device ℕ :=
  if i then ⟨[App.sampleStock "FB" 3],[⟨"ann"⟩],⟨2016,4,8⟩⟩ else ⟨[],[⟨"bob"⟩],⟨2016,4,8⟩⟩

/-- A Send made offline is lost with the process. -/
example : (run (Fleet.step App.sampleEnv) (Fleet.start sampleDevices [])
    [.part true (some (.shareRow 0)),.part true (some (.send "k" "bob")),.part true none,
      .taken true]).map (fun s => s.log)=some [] := rfl

end SStock
