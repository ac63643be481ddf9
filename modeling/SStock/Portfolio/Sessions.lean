import SStock.Framework.Restart
import SStock.Model.Records
import SStock.Portfolio.Provenance
import Mathlib.Data.List.ReduceOption

namespace SStock

open Framework StockManager

variable {P : Type}

/-- A stock that enters or leaves the portfolio, by name and code. -/
inductive Movement where
  | inserted (stock : String × String)
  | removed (stock : String × String)
  deriving DecidableEq

def Movement.insertion : Movement → Option (String × String)
  | .inserted stock => some stock
  | .removed _ => none

def Movement.removal : Movement → Option (String × String)
  | .inserted _ => none
  | .removed stock => some stock

namespace App

/-- The process started again: the two tables are as stored, everything in flight
is lost, and `firebase` still lists the writes asked for so far. A handler that
traps has committed nothing. -/
def relaunch (s : App P) : App P :=
  launch (s.realm.rows.map Row.stock) s.users s.firebase s.clock

/-- What an event moves: the block of a tap inserts, a deletion removes the row
at its index. -/
def movements (s : App P) : Event P → List Movement
  | .mainQueue => match s.mainQueue with
    | .unwindFromSearchVC _ data::_ => [.inserted data.identity]
    | _ => []
  | .deleteRow r => match s.tableView[r]?,s.realm.rows[r]? with
    | some _,some row => [.removed row.stock.identity]
    | _,_ => []
  | _ => []

/-- The deletions in the log are those of the events. -/
theorem removed_of_step [Zero P] [One P] {env : Env P} {s t : App P} {e : Event P}
    (hs : s.step env e=some t) :
    removed t.realm.log=removed s.realm.log++(s.movements e).filterMap Movement.removal := by
  cases e with
  | mainQueue =>
    cases runMainQueue_cases hs with
    | inl hnil => simp [movements,hnil.1,hnil.2]
    | inr hex =>
      obtain ⟨block,rest,hq,hp⟩ := hex
      rw [movements,hq]
      cases hp with
      | refreshStocks hw =>
        obtain ⟨row,_,_,hlog⟩ := Realm.write?_eq_some hw
        rw [hlog,removed_append]
        rfl
      | unwindFromSearchVC =>
        next task data =>
        show removed (s.realm.log++[.add task data])=_
        rw [removed_append]
        rfl
      | reloadData | searchResults => exact (List.append_nil _).symm
  | deleteRow r =>
    rw [movements]
    cases hc : s.tableView[r]? with
    | none =>
      have he : s=t := by simpa [App.step,App.deleteRow,hc] using hs
      simp [he]
    | some cell =>
      simp only [App.step,App.deleteRow,hc] at hs
      obtain ⟨realm,hd,rfl⟩ := Option.map_eq_some_iff.mp hs
      obtain ⟨row,hr,_,hlog⟩ := Realm.delete?_eq_some hd
      rw [hr,hlog,removed_append]
      rfl
  | _ =>
    rw [realm_of_step hs (by simp) (by simp)]
    exact (List.append_nil _).symm

/-- The portfolio with what was removed is what it was with what was inserted. -/
def Conserved (initial : List (String × String)) (s : App P) (moved : List Movement) : Prop :=
  (s.realm.identities++moved.filterMap Movement.removal).Perm
    (initial++moved.filterMap Movement.insertion)

theorem identities_launch (portfolio : List (RealmStock P)) (users : List RealmUser)
    (firebase : List (String × Json P)) (clock : DateFields) :
    (launch portfolio users firebase clock).realm.identities=
      portfolio.map RealmStock.identity := by
  change (storedRows portfolio).map (fun row => row.stock.identity)=_
  have hfst := congrArg (List.map RealmStock.identity) (List.zipIdx_map_fst 0 portfolio)
  rw [List.map_map] at hfst
  rw [storedRows,List.map_map]
  exact hfst

theorem inserted_of_mem_lived [Zero P] [One P] {env : Env P} {s : App P} {e : Option (Event P)}
    {x : String × String} (h : Movement.inserted x∈lived (App.step env) movements s e) :
    ∃k data rest,s.mainQueue=.unwindFromSearchVC k data::rest ∧ data.identity=x := by
  obtain ⟨f,_,_,hm⟩ := mem_lived h
  cases f with
  | mainQueue =>
    rw [movements] at hm
    split at hm
    · next k data rest hq =>
      cases List.mem_singleton.mp hm
      exact ⟨k,data,rest,hq,rfl⟩
    · cases hm
  | deleteRow r =>
    rw [movements] at hm
    split at hm <;> simp at hm
  | _ => cases hm

namespace Conserved

variable {env : Env P} {initial : List (String × String)} {s t : App P} {moved : List Movement}

theorem same (h : Conserved initial s moved) (hr : t.realm.identities=s.realm.identities) :
    Conserved initial t (moved++[]) := by
  rw [List.append_nil,Conserved,hr]
  exact h

theorem relaunch (h : Conserved initial s moved) : Conserved initial s.relaunch (moved++[]) :=
  h.same (by rw [App.relaunch,identities_launch,List.map_map]; rfl)

theorem insert (h : Conserved initial s moved) {realm : Realm P} {stock : RealmStock P}
    (hr : realm.identities=s.realm.identities++[stock.identity]) (ht : t.realm=realm) :
    Conserved initial t (moved++[.inserted stock.identity]) := by
  unfold Conserved at h ⊢
  rw [ht,hr,List.filterMap_append,List.filterMap_append]
  change (_++(_++[])).Perm (_++(_++[stock.identity]))
  have hswap : (s.realm.identities++[stock.identity]++moved.filterMap Movement.removal).Perm
      (s.realm.identities++moved.filterMap Movement.removal++[stock.identity]) := by
    rw [List.append_assoc,List.append_assoc]
    exact List.perm_append_comm.append_left _
  rw [List.append_nil,← List.append_assoc initial]
  exact hswap.trans (h.append_right _)

theorem remove (h : Conserved initial s moved) {row : Row P}
    (hr : (row.stock.identity::t.realm.identities).Perm s.realm.identities) :
    Conserved initial t (moved++[.removed row.stock.identity]) := by
  unfold Conserved at h ⊢
  rw [List.filterMap_append,List.filterMap_append]
  change (_++(_++[row.stock.identity])).Perm (_++(_++[]))
  rw [List.append_nil,← List.append_assoc]
  exact List.perm_append_comm.trans ((hr.append_right _).trans h)

theorem step [Zero P] [One P] {e : Event P} (h : Conserved initial s moved)
    (hs : s.step env e=some t) : Conserved initial t (moved++s.movements e) := by
  cases e with
  | mainQueue =>
    cases runMainQueue_cases hs with
    | inl hnil =>
      rw [movements,hnil.1]
      exact h.same (by rw [hnil.2])
    | inr hex =>
      obtain ⟨block,rest,hq,hp⟩ := hex
      rw [movements,hq]
      cases hp with
      | refreshStocks hw => exact h.same (Realm.Balanced.identities_write hw)
      | unwindFromSearchVC =>
        next task data =>
        have hadd : (s.realm.add task data).identities=s.realm.identities++[data.identity] :=
          List.map_append
        exact h.insert hadd rfl
      | reloadData | searchResults => exact h.same rfl
  | deleteRow r =>
    rw [movements]
    cases hc : s.tableView[r]? with
    | none =>
      have he : s=t := by simpa [App.step,App.deleteRow,hc] using hs
      exact h.same (by rw [he])
    | some cell =>
      simp only [App.step,App.deleteRow,hc] at hs
      obtain ⟨realm,hd,rfl⟩ := Option.map_eq_some_iff.mp hs
      obtain ⟨row,hr,hrows,_⟩ := Realm.delete?_eq_some hd
      have hmove := (moveLastOver_perm hr).map (fun row => row.stock.identity)
      rw [← hrows] at hmove
      rw [hr]
      exact h.remove hmove
  | _ => exact h.same (congrArg Realm.identities (realm_of_step hs (by simp) (by simp)))

end Conserved

end App

/-- In terms of the events of the run: the rows and those deleted are the initial
ones and what the taps brought, each tap by the answer to its own request. -/
theorem portfolio_conserved_by_events [Zero P] [One P] {env : Env P}
    {portfolio : List (RealmStock P)} {users : List RealmUser}
    {firebase : List (String × Json P)} {clock : DateFields} {es : List (Event P)} {s : App P}
    (h : run (App.step env) (App.launch portfolio users firebase clock) es=some s) :
    let start := App.launch portfolio users firebase clock
    let moved := emitted (App.step env) App.movements start es
    (s.realm.identities++moved.filterMap Movement.removal).Perm
      (portfolio.map RealmStock.identity++
        (emitted (App.step env) App.taps start es).filterMap
          (App.creditOf s.mainQueue (emitted (App.step env) App.answers start es))) := by
  obtain ⟨htaps,hanswers,_⟩ := history_of_run h
  have hinitial : removed (App.launch portfolio users firebase clock).realm.log=[] := by
    show removed (portfolio.map (Change.add 0))=[]
    simp [removed,List.filterMap_map]
  have hremoved : removed s.realm.log=(emitted (App.step env) App.movements
      (App.launch portfolio users firebase clock) es).filterMap Movement.removal := by
    refine run_emits (R := fun u l => removed u.realm.log=l.filterMap Movement.removal) (l := [])
      h hinitial ?_
    intro u e v l hu hv
    rw [App.removed_of_step hv,hu,List.filterMap_append]
  have hperm := (ledger_of_run h).identities_perm (origins_of_run h).2
  rw [App.credit,hremoved,htaps,hanswers] at hperm
  exact hperm

/-- A stock that is there since before, with its name and code, or was found;
its quote is the one it had or that of a reply. -/
def Held [Zero P] [One P] (portfolio : List (RealmStock P)) (es : List (Event P))
    (stock : RealmStock P) : Prop :=
  (∃initial∈portfolio,stock.identity=initial.identity ∧
      (stock.quote=initial.quote ∨ FromReply es stock.quote)) ∨
    (Found es stock ∧ FromReply es stock.quote)

section Lives

variable [Zero P] [One P]

/-- What was held of a portfolio that was itself held. -/
theorem Held.trans {portfolio stored : List (RealmStock P)} {es fs : List (Event P)}
    {stock : RealmStock P} (h : Held stored fs stock)
    (hstored : ∀stock∈stored,Held portfolio es stock) (hsub : fs ⊆ es) :
    Held portfolio es stock := by
  have hreply {q : Quote P} (hq : FromReply fs q) : FromReply es q := by
    obtain ⟨id,response,hm,hhas⟩ := hq
    exact ⟨id,response,hsub hm,hhas⟩
  rcases h with ⟨initial,hm,hid,hq⟩|⟨hfound,hq⟩
  · rcases hstored initial hm with ⟨first,hfirst,hid',hq'⟩|⟨hfound,hq'⟩
    · refine Or.inl ⟨first,hfirst,hid.trans hid',?_⟩
      rcases hq with hq|hq
      · rw [hq]
        exact hq'
      · exact Or.inr (hreply hq)
    · obtain ⟨hname,hcode⟩ := Prod.mk.inj hid
      obtain ⟨shown,id,response,ho,hr,hn,hc⟩ := hfound
      refine Or.inr ⟨⟨shown,id,response,ho,hr,hname ▸ hn,hcode.trans hc⟩,?_⟩
      rcases hq with hq|hq
      · rw [hq]
        exact hq'
      · exact hreply hq
  · exact Or.inr ⟨hfound.mono hsub,hreply hq⟩

/-- The state of a process in a life is that of a run from a launch. -/
theorem session_of_run {env : Env P} {portfolio : List (RealmStock P)} {users : List RealmUser}
    {firebase : List (String × Json P)} {clock : DateFields} {es : List (Option (Event P))}
    {s : App P} {I : List (RealmStock P) → Prop}
    (h : run (living (App.step env) App.relaunch)
      (App.launch portfolio users firebase clock) es=some s) (hi : I portfolio)
    (hrestart : ∀stored users firebase clock fs (w : App P),I stored →
      run (App.step env) (App.launch stored users firebase clock) fs=some w →
        fs.map some <:+: es → I (w.realm.rows.map Row.stock)) :
    ∃stored users firebase clock fs,I stored ∧
      run (App.step env) (App.launch stored users firebase clock) fs=some s ∧
        fs.map some <:+ es := by
  obtain ⟨u,fs,⟨stored,users',firebase',clock',hu,rfl⟩,hrun,hfs⟩ := session_of_life
    (I := fun u => ∃stored users firebase clock,I stored ∧
      u=App.launch stored users firebase clock) h
    ⟨portfolio,users,firebase,clock,hi,rfl⟩ (by
      rintro u fs w ⟨stored,users',firebase',clock',hu,rfl⟩ hrun hfs
      exact ⟨_,_,_,_,hrestart stored users' firebase' clock' fs w hu hrun hfs,rfl⟩)
  exact ⟨stored,users',firebase',clock',fs,hu,hrun,hfs⟩

/-- Every stock stored is held, in every process of a life. -/
theorem held_of_life {env : Env P} {portfolio : List (RealmStock P)} {users : List RealmUser}
    {firebase : List (String × Json P)} {clock : DateFields} {es : List (Option (Event P))}
    {s : App P}
    (h : run (living (App.step env) App.relaunch)
      (App.launch portfolio users firebase clock) es=some s) {row : Row P}
    (hr : row∈s.realm.rows) : Held portfolio es.reduceOption row.stock := by
  have hsub {fs : List (Event P)} (hfs : fs.map some <:+: es) : fs ⊆ es.reduceOption := by
    intro f hf
    exact List.reduceOption_mem_iff.mpr (hfs.subset (List.mem_map_of_mem hf))
  obtain ⟨stored,_,_,_,fs,hstored,hrun,hfs⟩ := session_of_run
    (I := fun stored => ∀stock∈stored,Held portfolio es.reduceOption stock) h
    (fun stock hm => Or.inl ⟨stock,hm,rfl,Or.inl rfl⟩)
    (fun stored _ _ _ fs w hstored hrun hfs stock hm => by
      obtain ⟨row,hr,rfl⟩ := List.mem_map.mp hm
      have hheld : Held stored fs row.stock := holdings_of_run hrun hr
      exact hheld.trans hstored (hsub hfs))
  have hheld : Held stored fs row.stock := holdings_of_run hrun hr
  exact hheld.trans hstored (hsub hfs.isInfix)

variable (env : Env P) (portfolio : List (RealmStock P)) (users : List RealmUser)
  (firebase : List (String × Json P)) (clock : DateFields) (es : List (Option (Event P)))

/-- Whatever the user does, however often the process is killed and whichever
steps trap, the portfolio is the initial one with what was inserted and without
what was removed; a stock is only inserted when a search offered its code and a
reply gave its name, without a kill in between. -/
theorem lives_conserve_portfolio :
    ∃s,run (living (App.step env) App.relaunch) (App.launch portfolio users firebase clock) es=
        some s ∧
      let moved := emitted (living (App.step env) App.relaunch)
        (lived (App.step env) App.movements) (App.launch portfolio users firebase clock) es
      (s.realm.identities++moved.filterMap Movement.removal).Perm
          (portfolio.map RealmStock.identity++moved.filterMap Movement.insertion) ∧
        ∀x,Movement.inserted x∈moved → ∃fs stock,fs.map some <:+: es ∧ Found fs stock ∧
          stock.identity=x := by
  obtain ⟨s,hs⟩ : ∃s,run (living (App.step env) App.relaunch)
      (App.launch portfolio users firebase clock) es=some s := run_living _ es
  refine ⟨s,hs,?_,?_⟩
  · have hstart : App.Conserved (portfolio.map RealmStock.identity)
        (App.launch portfolio users firebase clock) [] := by
      rw [App.Conserved,App.identities_launch]
      exact List.Perm.refl _
    refine run_emits (R := App.Conserved (portfolio.map RealmStock.identity)) hs hstart ?_
    intro u e v l hu hv
    cases living_cases hv with
    | inl hr =>
      obtain ⟨rfl,htrap⟩ := hr
      rw [lived_of_trap htrap]
      exact hu.relaunch
    | inr hex =>
      obtain ⟨f,rfl,hf⟩ := hex
      rw [lived_of_step hf]
      exact hu.step hf
  · intro x hx
    obtain ⟨gs,e,u,hp,hu,hmem⟩ := mem_emitted hx
    obtain ⟨stored,_,_,_,fs,_,hrun,hfs⟩ :=
      session_of_run (I := fun _ => True) hu trivial (fun _ _ _ _ _ _ _ _ _ => trivial)
    have hsession : fs.map some <:+: es :=
      hfs.isInfix.trans (((List.prefix_append _ _).trans hp).isInfix)
    obtain ⟨k,data,rest,hq,rfl⟩ : ∃k data rest,
        u.mainQueue=.unwindFromSearchVC k data::rest ∧ data.identity=x :=
      App.inserted_of_mem_lived hmem
    have harrived := (origins_of_run hrun).2.arriving k data (hq ▸ List.mem_cons_self)
    exact ⟨fs,data,hsession,harrived.found (origins_of_run hrun).2 (recorded_of_run hrun),rfl⟩

/-- However often the process is killed and whichever steps trap, every stock in
the portfolio was there at first, or was found by a search and a reply. -/
theorem lives_keep_provenance :
    ∃s,run (living (App.step env) App.relaunch) (App.launch portfolio users firebase clock) es=
        some s ∧ ∀row∈s.realm.rows,Held portfolio es.reduceOption row.stock := by
  obtain ⟨s,hs⟩ : ∃s,run (living (App.step env) App.relaunch)
      (App.launch portfolio users firebase clock) es=some s := run_living _ es
  exact ⟨s,hs,fun row hr => held_of_life hs hr⟩

end Lives

end SStock
