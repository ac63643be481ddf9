import SStock.Portfolio.Display
import SStock.Portfolio.Tracking

namespace SStock

open Framework

variable {P : Type} [Zero P] [One P] {env : Env P}

namespace App

variable {s : App P}

/-- The cells after requests for the rows `rs`, in any order and any number of
times: those requested hold the row of now, the others what they held. -/
theorem run_cellForRow (hl : s.tableView.length=s.realm.rows.length) (rs : List ℕ) :
    ∃table,run (App.step env) s (rs.map .cellForRow)=some {s with tableView := table} ∧
      ∀i,table[i]?=if i∈rs then s.reloadData.tableView[i]? else s.tableView[i]? := by
  induction rs generalizing s with
  | nil => exact ⟨s.tableView,rfl,fun i => by simp⟩
  | cons r rs ih =>
    have hfresh (i : ℕ) : s.reloadData.tableView[i]?=
        s.realm.rows[i]?.map fun row => ⟨row,s.realm.log.length⟩ := List.getElem?_map
    cases hc : s.tableView[r]? with
    | none =>
      -- no such row: the request is not made
      have hstep : s.step env (.cellForRow r)=some s := by simp [App.step,App.cellForRow,hc]
      obtain ⟨table,hrun,htable⟩ := ih hl
      refine ⟨table,by rw [List.map_cons,run_cons,hstep,Option.bind_some,hrun],fun i => ?_⟩
      have hr : s.realm.rows[r]?=none := by
        rw [List.getElem?_eq_none_iff] at hc ⊢
        exact hl ▸ hc
      rw [htable]
      by_cases hi : i=r
      · subst hi
        simp [hfresh,hr,hc]
      · simp [hi]
    | some cell =>
      have hlt := (List.getElem?_eq_some_iff.mp hc).1
      obtain ⟨row,hr⟩ : ∃row,s.realm.rows[r]?=some row :=
        ⟨_,List.getElem?_eq_getElem (hl ▸ hlt)⟩
      let u : App P := {s with tableView := s.tableView.set r ⟨row,s.realm.log.length⟩}
      have hstep : s.step env (.cellForRow r)=some u := by
        simp [App.step,App.cellForRow,hc,hr,u]
      have hu : u.tableView.length=u.realm.rows.length := by
        rw [List.length_set]
        exact hl
      obtain ⟨table,hrun,htable⟩ := ih hu
      refine ⟨table,by rw [List.map_cons,run_cons,hstep,Option.bind_some,hrun],fun i => ?_⟩
      rw [htable]
      change (if i∈rs then s.reloadData.tableView[i]? else u.tableView[i]?)=_
      by_cases hi : i=r
      · subst hi
        have hset : u.tableView[i]?=s.reloadData.tableView[i]? := by
          rw [hfresh,hr,List.getElem?_set_self hlt,Option.map_some]
        simp [hset]
      · have hset : u.tableView[i]?=s.tableView[i]? := List.getElem?_set_ne (Ne.symm hi)
        simp [hset,hi]

end App

variable {portfolio : List (RealmStock P)} {users : List RealmUser}
  {firebase : List (String × Json P)} {clock : DateFields} {es : List (Event P)} {s : App P}

/-- With no reload queued the table may ask for its cells one by one, in any
order and repeatedly: nothing traps, each row asked for is as stored now and no
other changes, and once every row has been asked for it is a reload. -/
theorem cells_one_by_one
    (h : run (App.step env) (App.launch portfolio users firebase clock) es=some s)
    (hq : Block.reloadData∉s.mainQueue) (rs : List ℕ) :
    ∃table,run (App.step env) s (rs.map .cellForRow)=some {s with tableView := table} ∧
      (∀i,table[i]?=if i∈rs then s.reloadData.tableView[i]? else s.tableView[i]?) ∧
      ((∀i<s.numberOfRowsInSection,i∈rs) → {s with tableView := table}=s.reloadData) := by
  have hl : s.tableView.length=s.realm.rows.length := by
    cases (displays_of_run h).rows with
    | inl hb => exact absurd hb hq
    | inr hobjs => simpa using congrArg List.length hobjs
  obtain ⟨table,hrun,htable⟩ := App.run_cellForRow hl rs
  refine ⟨table,hrun,htable,fun hall => ?_⟩
  have hreload : table=s.reloadData.tableView := by
    apply List.ext_getElem?
    intro i
    rw [htable]
    by_cases hi : i<s.numberOfRowsInSection
    · rw [if_pos (hall i hi)]
    · -- beyond the last row both tables end
      have hi' : s.realm.rows.length ≤ i := Nat.le_of_not_lt hi
      have hnone : s.tableView[i]?=none := List.getElem?_eq_none (hl ▸ hi')
      have hnone' : s.reloadData.tableView[i]?=none :=
        List.getElem?_eq_none (by simpa [App.reloadData] using hi')
      rw [hnone,hnone',ite_self]
  rw [hreload]
  rfl

/-- Both rows asked for, the second one twice, after a refresh that loaded no
cell again. -/
theorem cells_one_by_one_after_refresh :
    ∃s t,run (App.step App.sampleEnv)
        (App.sampleLaunch [App.sampleStock "FB" 3,App.sampleStock "GE" 5])
        [.refreshStocks,.quoteReply 1 (App.sampleReply "FB" "2016-04-08" 4),.mainQueue]=some s ∧
      s.displayed=[("FB",3),("GE",5)] ∧
      run (App.step App.sampleEnv) s [.cellForRow 1,.cellForRow 0,.cellForRow 1]=some t ∧
      t=s.reloadData := by
  obtain ⟨s,hs,hq,hd,hn⟩ : ∃s,run (App.step App.sampleEnv)
        (App.sampleLaunch [App.sampleStock "FB" 3,App.sampleStock "GE" 5])
        [.refreshStocks,.quoteReply 1 (App.sampleReply "FB" "2016-04-08" 4),.mainQueue]=some s ∧
      s.mainQueue=[] ∧ s.displayed=[("FB",3),("GE",5)] ∧ s.numberOfRowsInSection=2 :=
    ⟨_,rfl,rfl,rfl,rfl⟩
  have hreload : Block.reloadData∉s.mainQueue := by simp [hq]
  obtain ⟨table,hrun,_,hall⟩ := cells_one_by_one hs hreload [1,0,1]
  refine ⟨s,_,hs,hd,hrun,hall ?_⟩
  intro i hi
  rw [hn] at hi
  simp only [List.mem_cons,List.not_mem_nil,or_false]
  omega

end SStock
