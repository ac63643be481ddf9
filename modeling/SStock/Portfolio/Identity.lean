import SStock.Portfolio.Objects
import SStock.Portfolio.Tracking

namespace SStock

open Framework

variable {P : Type} [Zero P] [One P] {env : Env P} {portfolio : List (RealmStock P)}
  {users : List RealmUser} {firebase : List (String × Json P)} {clock : DateFields}
  {es : List (Event P)} {s : App P}

instance (r : ℕ) (c : Change P) : Decidable (c.Keeps r) := by
  cases c <;> unfold Change.Keeps <;> infer_instance

instance (m : Realm P) (version r : ℕ) : Decidable (m.KeptSince version r) :=
  inferInstanceAs (Decidable (∀c∈m.log.drop version,c.Keeps r))

theorem tracking_of_run
    (h : run (App.step env) (App.launch portfolio users firebase clock) es=some s) :
    s.Tracking :=
  run_invariant h (App.Tracking.launch portfolio users firebase clock)
    (fun _ _ _ hu hv => hu.step hv)

/-- The step from `s` to `t` brings `quote` to the object `obj` if it is still
stored, and writes to no other object. -/
structure DeliversTo (obj : ℕ) (quote : Quote P) (s t : App P) : Prop where
  contents : t.realm.contents=s.realm.contents.refresh obj quote
  target : ∀row o task q,Change.write row o task q∈t.realm.log.drop s.realm.log.length → o=obj

/-- The block of a reply at the head of the queue delivers to the tracked object
exactly where its row was kept. -/
theorem Realm.Tracks.delivers_iff {task i obj version : ℕ} {data : RealmStock P}
    {rest : List (Block P)} (htr : s.realm.Tracks obj i version)
    (hq : s.mainQueue=.refreshStocks task i obj version data::rest) :
    (∃t,s.step env .mainQueue=some t ∧ DeliversTo obj data.quote s t) ↔
      s.realm.KeptSince version i := by
  have hstep : s.step env .mainQueue=(s.realm.write? i task data).map fun realm =>
      {s with mainQueue := rest,realm := realm} := by
    simp [App.step,App.runMainQueue,hq,App.perform]
  rw [hstep]
  constructor
  · rintro ⟨t,ht,hd⟩
    obtain ⟨realm,hw,rfl⟩ := Option.map_eq_some_iff.mp ht
    obtain ⟨row,hr,_,hlog⟩ := Realm.write?_eq_some hw
    have ho : row.obj=obj := by
      apply hd.target i row.obj task data.quote
      simp [hlog]
    exact htr.resolves_iff.mp (by simp [hr,ho])
  · intro hk
    obtain ⟨row,hr,ho⟩ := Option.map_eq_some_iff.mp (htr.resolves_iff.mpr hk)
    subst ho
    cases hw : s.realm.write? i task data with
    | none => simp [Realm.write?_eq_none.mp hw] at hr
    | some realm =>
      obtain ⟨row',hr',_,hlog⟩ := Realm.write?_eq_some hw
      obtain rfl : row=row' := Option.some.inj (hr.symm.trans hr')
      refine ⟨_,rfl,Realm.contents_write hw hr,?_⟩
      intro row' o task' q hm
      simp only [hlog,List.drop_left,List.mem_singleton] at hm
      cases hm
      rfl

/-- A refresh reply reaches the object it was requested for, and only that one,
exactly when since the request no deletion was of the captured row or made
while that row was the last one. -/
theorem refresh_reply_delivers_iff
    (h : run (App.step env) (App.launch portfolio users firebase clock) es=some s)
    {task i obj version : ℕ} {data : RealmStock P} {rest : List (Block P)}
    (hq : s.mainQueue=.refreshStocks task i obj version data::rest) :
    (∃t,s.step env .mainQueue=some t ∧ DeliversTo obj data.quote s t) ↔
      s.realm.KeptSince version i := by
  have htr := (tracking_of_run h).blocks task i obj version data (by simp [hq])
  exact htr.delivers_iff hq

/-- Other deletions do no harm: with the second of three rows gone the reply
for the first one still reaches its object. -/
theorem refresh_reply_delivers_after_deletion :
    ∃s t,run (App.step App.sampleEnv)
        (App.sampleLaunch [App.sampleStock "FB" 3,App.sampleStock "GE" 5,App.sampleStock "GM" 7])
        [.refreshStocks,.deleteRow 1,.mainQueue,
          .quoteReply 1 (App.sampleReply "FB" "2016-04-08" 4)]=some s ∧
      s.step App.sampleEnv .mainQueue=some t ∧
      DeliversTo 0 ⟨"2016-04-08",4,4,4,4⟩ s t := by
  obtain ⟨s,hs,hq,hk⟩ : ∃s,run (App.step App.sampleEnv)
        (App.sampleLaunch [App.sampleStock "FB" 3,App.sampleStock "GE" 5,App.sampleStock "GM" 7])
        [.refreshStocks,.deleteRow 1,.mainQueue,
          .quoteReply 1 (App.sampleReply "FB" "2016-04-08" 4)]=some s ∧
      s.mainQueue=[.refreshStocks 1 0 0 3 ⟨"FB","FB","2016-04-08",4,4,4,4⟩] ∧
      s.realm.KeptSince 3 0 := ⟨_,rfl,rfl,by decide⟩
  obtain ⟨t,ht,hd⟩ := (refresh_reply_delivers_iff hs hq).mpr hk
  exact ⟨s,t,hs,ht,hd⟩

/-- With the first of two rows deleted meanwhile, its reply is written to the
second one, whose object then shows the quote of another stock. -/
theorem refresh_reply_reaches_other_row :
    ¬∀(es : List (Event ℕ)) (s : App ℕ) (task i obj version : ℕ) (data : RealmStock ℕ)
        (rest : List (Block ℕ)),
      run (App.step App.sampleEnv)
        (App.sampleLaunch [App.sampleStock "FB" 3,App.sampleStock "GE" 5]) es=some s →
      s.mainQueue=.refreshStocks task i obj version data::rest →
      ∃t,s.step App.sampleEnv .mainQueue=some t ∧ DeliversTo obj data.quote s t := by
  intro h
  obtain ⟨t,ht,hd⟩ := h [.refreshStocks,.deleteRow 0,.mainQueue,
    .quoteReply 1 (App.sampleReply "FB" "2016-04-08" 4)] _ 1 0 0 2 _ _ rfl rfl
  cases ht
  have ho := hd.target 0 1 1 ⟨"2016-04-08",4,4,4,4⟩ (.head _)
  exact absurd ho (by decide)

/-- The lookup is the only thing that can fail in these events. -/
theorem isSome_step_iff {e : Event P} {r : ℕ} {cell : Cell P} (he : s.indexed e=some (r,cell)) :
    (s.step env e).isSome ↔ (s.realm.objAt r).isSome := by
  cases e with
  | deleteRow r' =>
    obtain ⟨cell',hc,heq⟩ := Option.map_eq_some_iff.mp he
    cases heq
    rw [Realm.objAt,Option.isSome_map,App.step,App.deleteRow,hc]
    simp [Option.isSome_iff_ne_none,Realm.delete?_eq_none]
  | selectRow r' =>
    obtain ⟨cell',hc,heq⟩ := Option.map_eq_some_iff.mp he
    cases heq
    simp [Realm.objAt,App.step,App.selectRow,hc,App.prepareForSegue]
  | cellForRow r' =>
    obtain ⟨cell',hc,heq⟩ := Option.map_eq_some_iff.mp he
    cases heq
    simp [Realm.objAt,App.step,App.cellForRow,hc]
  | send autoId recipient =>
    obtain ⟨alert,ha,heq⟩ := Option.map_eq_some_iff.mp he
    cases heq
    simp [Realm.objAt,App.step,App.send_eq ha]
  | _ => cases he

/-- Delete, Send, the selection and the request for a cell find the object of
the displayed row, with the index in range, exactly when since that row was
loaded no deletion was of its index or made while it was the last one. -/
theorem row_action_resolves_iff
    (h : run (App.step env) (App.launch portfolio users firebase clock) es=some s)
    {e : Event P} {r : ℕ} {cell : Cell P} (he : s.indexed e=some (r,cell)) :
    ((s.step env e).isSome ∧ s.realm.objAt r=some cell.row.obj) ↔
      s.realm.KeptSince cell.version r := by
  have htr := (tracking_of_run h).indexed he
  constructor
  · intro ⟨_,ho⟩
    exact htr.resolves_iff.mp ho
  · intro hk
    have ho := htr.resolves_iff.mpr hk
    exact ⟨(isSome_step_iff he).mpr (Option.isSome_iff_exists.mpr ⟨_,ho⟩),ho⟩

/-- Between the deletion of the second of three rows and its reload the first
one can still be sent. -/
theorem row_action_resolves_before_reload :
    ∃s t,run (App.step App.sampleEnv)
        (App.sampleLaunch [App.sampleStock "FB" 3,App.sampleStock "GE" 5,App.sampleStock "GM" 7])
        [.deleteRow 1,.shareRow 0]=some s ∧
      s.step App.sampleEnv (.send "-K1" "bob")=some t ∧ s.realm.objAt 0=some 0 := by
  obtain ⟨s,hs,he,hk⟩ : ∃s,run (App.step App.sampleEnv)
        (App.sampleLaunch [App.sampleStock "FB" 3,App.sampleStock "GE" 5,App.sampleStock "GM" 7])
        [.deleteRow 1,.shareRow 0]=some s ∧
      s.indexed (.send "-K1" "bob")=some (0,⟨⟨0,App.sampleStock "FB" 3⟩,3⟩) ∧
      s.realm.KeptSince 3 0 := ⟨_,rfl,rfl,by decide⟩
  obtain ⟨ht,ho⟩ := (row_action_resolves_iff hs he).mpr hk
  obtain ⟨t,ht⟩ := Option.isSome_iff_exists.mp ht
  exact ⟨s,t,hs,ht,ho⟩

/-- After the first of two rows is deleted and before the queued reload, a
Delete on the second displayed row traps. -/
theorem row_action_misses_before_reload :
    ¬∀(es : List (Event ℕ)) (s : App ℕ) (e : Event ℕ) (r : ℕ) (cell : Cell ℕ),
      run (App.step App.sampleEnv)
        (App.sampleLaunch [App.sampleStock "FB" 3,App.sampleStock "GE" 5]) es=some s →
      s.indexed e=some (r,cell) →
      (s.step App.sampleEnv e).isSome ∧ s.realm.objAt r=some cell.row.obj := by
  intro h
  have hd := h [.deleteRow 0] _ (.deleteRow 1) 1 ⟨⟨1,App.sampleStock "GE" 5⟩,2⟩ rfl rfl
  exact absurd hd.1 (by decide)

end SStock
