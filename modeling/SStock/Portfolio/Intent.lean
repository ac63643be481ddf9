import SStock.Portfolio.CrashFree

namespace SStock

open Framework StockManager

variable {P : Type}

/-- What can happen to a portfolio that has objects and no row numbers. -/
inductive Intent (P : Type) where
  | insert (obj : ℕ) (stock : RealmStock P)
  | erase (obj : ℕ)
  | refresh (obj : ℕ) (quote : Quote P)

def Intent.apply (c : Contents P) : Intent P → Contents P
  | .insert obj stock => c.insert obj stock
  | .erase obj => c.erase obj
  | .refresh obj quote => c.refresh obj quote

namespace App

/-- What an event is for: a deletion erases the object shown in its cell, a
refresh block is for the object of its request, and the block of a tap inserts
a new object. -/
def intents (s : App P) : Event P → List (Intent P)
  | .mainQueue => match s.mainQueue with
    | .refreshStocks _ _ obj _ data::_ => [.refresh obj data.quote]
    | .unwindFromSearchVC _ data::_ => [.insert s.realm.log.length data]
    | _ => []
  | .deleteRow r => match s.tableView[r]? with
    | some cell => [.erase cell.row.obj]
    | none => []
  | _ => []

/-- The row an event looks up has been kept since the index was captured. -/
structure Kept (s : App P) (e : Event P) : Prop where
  sound : e.Sound
  cell : ∀r cell,s.indexed e=some (r,cell) → s.realm.KeptSince cell.version r
  block : e=.mainQueue → ∀task i obj version data rest,
    s.mainQueue=.refreshStocks task i obj version data::rest → s.realm.KeptSince version i

variable {env : Env P} {s t : App P} {e : Event P}

theorem contents_launch (portfolio : List (RealmStock P)) (users : List RealmUser)
    (firebase : List (String × Json P)) (clock : DateFields) :
    (launch portfolio users firebase clock).realm.contents=fun obj => portfolio[obj]? := by
  funext obj
  apply Option.ext
  intro stock
  rw [Realm.contents_eq_some]
  change (⟨obj,stock⟩ : Row P)∈storedRows portfolio ↔ _
  constructor
  · exact mem_storedRows
  · intro h
    exact List.mem_map.mpr ⟨(stock,obj),List.mem_zipIdx_iff_getElem?.mpr h,rfl⟩

/-- The row that was kept is still that of the object tracked. -/
theorem row_of_kept {m : Realm P} {obj r version : ℕ} (h : m.Tracks obj r version)
    (hk : m.KeptSince version r) : ∃row,m.rows[r]?=some row ∧ row.obj=obj :=
  Option.map_eq_some_iff.mp (h.resolves_iff.mpr hk)

section Steps

variable [Zero P] [One P]

theorem Kept.isSome_step (hk : s.Kept e) (ht : s.Tracking) (hsearch : s.Searching) :
    (s.step env e).isSome := by
  refine isSome_step_of hk.sound ?_ ?_ ?_
  · intro r cell hi
    obtain ⟨row,hr,_⟩ := row_of_kept (ht.indexed hi) (hk.cell r cell hi)
    exact (List.getElem?_eq_some_iff.mp hr).1
  · intro he task i obj version data rest hq
    have htr := ht.blocks task i obj version data (hq ▸ List.mem_cons_self)
    obtain ⟨row,hr,_⟩ := row_of_kept htr (hk.block he task i obj version data rest hq)
    exact (List.getElem?_eq_some_iff.mp hr).1
  · intro v hv
    obtain ⟨vc,hvc⟩ := List.mem_iff_getElem?.mp hv
    exact Nat.le_of_eq (congrArg List.length (hsearch.screens vc v hvc).loaded)

/-- Where the rows have been kept, a step does to the objects what it is for. -/
theorem Kept.contents (hk : s.Kept e) (ht : s.Tracking) (hs : s.step env e=some t) :
    t.realm.contents=(s.intents e).foldl Intent.apply s.realm.contents := by
  cases e with
  | mainQueue =>
    cases runMainQueue_cases hs with
    | inl hnil => rw [hnil.2,intents,hnil.1,List.foldl_nil]
    | inr hex =>
      obtain ⟨block,rest,hq,hp⟩ := hex
      rw [intents,hq]
      cases hp with
      | refreshStocks hw =>
        next task i obj version data realm =>
        have htr := ht.blocks task i obj version data (hq ▸ List.mem_cons_self)
        obtain ⟨row,hr,rfl⟩ := row_of_kept htr (hk.block rfl task i obj version data rest hq)
        exact Realm.contents_write hw hr
      | unwindFromSearchVC => exact Realm.contents_add _ _
      | reloadData | searchResults => rfl
  | deleteRow r =>
    rw [intents]
    cases hc : s.tableView[r]? with
    | none =>
      have he : s=t := by simpa [App.step,App.deleteRow,hc] using hs
      rw [he,List.foldl_nil]
    | some cell =>
      have hi : s.indexed (.deleteRow r)=some (r,cell) := by rw [App.indexed,hc,Option.map_some]
      obtain ⟨row,hr,ho⟩ := row_of_kept (ht.indexed hi) (hk.cell r cell hi)
      simp only [App.step,App.deleteRow,hc] at hs
      obtain ⟨realm,hd,rfl⟩ := Option.map_eq_some_iff.mp hs
      rw [List.foldl_cons,List.foldl_nil,Intent.apply,← ho]
      exact Realm.contents_delete hd hr
  | _ => exact congrArg Realm.contents (realm_of_step hs (by simp) (by simp))

end Steps

end App

variable [Zero P] [One P] {env : Env P} {portfolio : List (RealmStock P)}
  {users : List RealmUser} {firebase : List (String × Json P)} {clock : DateFields}
  {es : List (Event P)}

/-- The rows refine the portfolio of objects. In every run in which each index
is used only while its row has been kept, no step traps, and the objects are in
the end what the insertions, deletions and refreshes make of them in order:
no quote reaches another object, and no deletion removes another one. -/
theorem rows_refine_portfolio
    (h : Along (App.step env) App.Kept (App.launch portfolio users firebase clock) es) :
    ∃s,run (App.step env) (App.launch portfolio users firebase clock) es=some s ∧
      s.realm.contents=(emitted (App.step env) App.intents
        (App.launch portfolio users firebase clock) es).foldl Intent.apply
          fun obj => portfolio[obj]? := by
  have htracking := App.Tracking.launch portfolio users firebase clock
  obtain ⟨s,hs,_⟩ := h.total (I := fun u => u.Tracking ∧ u.Searching)
    ⟨htracking,App.Searching.launch portfolio users firebase clock⟩ (fun u e hu hk => by
      have hsome : (u.step env e).isSome := hk.isSome_step hu.1 hu.2
      obtain ⟨v,hv⟩ := Option.isSome_iff_exists.mp hsome
      exact ⟨v,hv,hu.1.step hv,hu.2.step hv⟩)
  have hsim := run_simulates (R := fun u c => u.Tracking ∧ u.realm.contents=c) h hs
    ⟨htracking,App.contents_launch portfolio users firebase clock⟩
    (fun u e v b hk ⟨hu,hb⟩ hv => by
      subst hb
      exact ⟨hu.step hv,hk.contents hu hv⟩)
  exact ⟨s,hs,hsim.2⟩

/-- The second of three rows deleted while the first is refreshed. -/
theorem rows_refine_portfolio_deletion :
    ∃s,run (App.step App.sampleEnv)
        (App.sampleLaunch [App.sampleStock "FB" 3,App.sampleStock "GE" 5,App.sampleStock "GM" 7])
        [.refreshStocks,.deleteRow 1,.mainQueue,
          .quoteReply 1 (quoteResponse "FB" ⟨"2016-04-08",4,4,4,4⟩),.mainQueue]=some s ∧
      s.realm.contents=[Intent.erase 1,.refresh 0 ⟨"2016-04-08",4,4,4,4⟩].foldl Intent.apply
        fun obj => [App.sampleStock "FB" 3,App.sampleStock "GE" 5,App.sampleStock "GM" 7][obj]? := by
  apply rows_refine_portfolio
  refine ⟨⟨trivial,by simp [App.indexed],by simp⟩,?_⟩
  intro t ht
  cases ht
  refine ⟨⟨trivial,?_,by simp⟩,?_⟩
  · intro r cell hi
    cases hi
    decide
  intro t ht
  cases ht
  refine ⟨⟨trivial,by simp [App.indexed],?_⟩,?_⟩
  · intro _ task i obj version data rest hq
    cases hq
  intro t ht
  cases ht
  refine ⟨⟨(quotes_quoteResponse _ _).guarded,by simp [App.indexed],by simp⟩,?_⟩
  intro t ht
  cases ht
  refine ⟨⟨trivial,by simp [App.indexed],?_⟩,fun _ _ => trivial⟩
  intro _ task i obj version data rest hq
  cases hq
  decide

end SStock
