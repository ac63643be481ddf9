import SStock.Portfolio.CrashFree

namespace SStock

open Framework StockManager

variable {P : Type}

/-- The row of the portfolio table an event is about. -/
def Event.tableRow : Event P → Option ℕ
  | .deleteRow r => some r
  | .shareRow r => some r
  | .selectRow r => some r
  | .cellForRow r => some r
  | _ => none

/-- A block that captures a row index. -/
def Block.isRefresh : Block P → Bool
  | .refreshStocks _ _ _ _ _ => true
  | _ => false

namespace App

/-- The two rules that keep a run with deletions in range: rows are left alone
while a reload is queued, and none is deleted while an alert, a request or a
block has captured a row index. -/
structure Orderly (s : App P) (e : Event P) : Prop where
  sound : e.Sound
  rows : Block.reloadData∈s.mainQueue → e.tableRow=none
  deletion : ∀r,e=.deleteRow r → s.alert=none ∧
    (∀task∈s.quoteTasks,task.completion=.unwindFromSearchVC) ∧
    ∀block∈s.mainQueue,block.isRefresh=false

/-- What was captured is in range, and so is the table unless a reload of it is
queued. -/
structure Loaded (s : App P) : Prop extends Captured s where
  table : Block.reloadData∈s.mainQueue ∨ s.tableView.length≤ s.realm.rows.length

theorem queueInRange_of_noRefresh {queue : List (Block P)}
    (h : ∀block∈queue,block.isRefresh=false) (n : ℕ) : QueueInRange n queue := by
  induction queue generalizing n with
  | nil => trivial
  | cons block rest ih =>
    obtain ⟨hb,hrest⟩ := List.forall_mem_cons.mp h
    cases block with
    | refreshStocks => simp [Block.isRefresh] at hb
    | unwindFromSearchVC => exact ih hrest (n+1)
    | reloadData | searchResults => exact ih hrest n

variable {env : Env P} {s t : App P} {e : Event P}

namespace Loaded

/-- An event about a row finds the table loaded. -/
theorem table_of_row (h : Loaded s) (ho : s.Orderly e) {r : ℕ} (hr : e.tableRow=some r) :
    s.tableView.length≤ s.realm.rows.length := by
  cases h.table with
  | inl hb => simp [ho.rows hb] at hr
  | inr hle => exact hle

theorem indexed_lt (h : Loaded s) (ho : s.Orderly e) {r : ℕ} {cell : Cell P}
    (he : s.indexed e=some (r,cell)) : r<s.realm.rows.length := by
  cases e with
  | deleteRow r' | selectRow r' | cellForRow r' =>
    obtain ⟨cell',hc,heq⟩ := Option.map_eq_some_iff.mp he
    cases heq
    exact (List.getElem?_eq_some_iff.mp hc).1.trans_le (h.table_of_row ho rfl)
  | send autoId recipient =>
    obtain ⟨alert,ha,heq⟩ := Option.map_eq_some_iff.mp he
    cases heq
    exact h.alert alert ha
  | _ => cases he

/-- A deletion by the rules leaves nothing captured behind. -/
theorem deleteRow {r : ℕ} {realm : Realm P} (h : Loaded s) (ho : s.Orderly (.deleteRow r)) :
    Loaded {s with realm := realm,mainQueue := s.mainQueue++[.reloadData]} := by
  obtain ⟨halert,htasks,hqueue⟩ := ho.deletion r rfl
  refine ⟨⟨?_,?_,?_,h.screens⟩,Or.inl (by simp)⟩
  · intro alert ha
    simp [halert] at ha
  · refine queueInRange_of_noRefresh (fun block hb => ?_) _
    cases List.mem_append.mp hb with
    | inl hb => exact hqueue block hb
    | inr hb =>
      rw [List.mem_singleton.mp hb]
      rfl
  · intro task hm i obj version hc
    rw [htasks task hm] at hc
    cases hc

variable [Zero P] [One P]

/-- A queued reload stays queued, or the table is loaded. -/
theorem reload_step (hs : s.step env e=some t) (hb : Block.reloadData∈s.mainQueue) :
    Block.reloadData∈t.mainQueue ∨ t.tableView.length=t.realm.rows.length := by
  cases step_cases hs with
  | other hview =>
    rw [hview.sameStore.mainQueue]
    exact Or.inl hb
  | refreshStocks => exact Or.inl hb
  | quoteReply | searchReply | deleteRow => exact Or.inl (List.mem_append_left _ hb)
  | openSearchVC | didSelectRow => exact Or.inl hb
  | textDidChange hv =>
    rw [App.textDidChange,hv]
    exact Or.inl hb
  | mainQueue hq hp =>
    cases hp with
    | refreshStocks => exact Or.inl (by simpa [hq] using hb)
    | searchResults => exact Or.inl (by simpa [hq] using hb)
    | unwindFromSearchVC | reloadData => exact Or.inr (by simp [App.reloadData])

theorem step (h : Loaded s) (ho : s.Orderly e) (hs : s.step env e=some t) : Loaded t := by
  by_cases hd : ∃r,e=.deleteRow r
  · obtain ⟨r,rfl⟩ := hd
    cases deleteRow_cases hs with
    | inl heq => exact heq ▸ h
    | inr hex =>
      obtain ⟨cell,realm,_,_,rfl⟩ := hex
      exact h.deleteRow ho
  · have hd' : ∀r,e≠.deleteRow r := fun r he => hd ⟨r,he⟩
    have hshare : ∀r,e=.shareRow r → s.tableView.length≤ s.realm.rows.length := by
      intro r he
      subst he
      exact h.table_of_row ho rfl
    refine ⟨h.toCaptured.step hd' hshare hs,?_⟩
    have hlen := rows_length_le (step_cases hs) hd'
    cases h.table with
    | inl hb =>
      cases reload_step hs hb with
      | inl hb => exact Or.inl hb
      | inr heq => exact Or.inr (Nat.le_of_eq heq)
    | inr hle =>
      right
      cases InRange.table_step hs with
      | inl heq => omega
      | inr heq => exact Nat.le_of_eq heq

end Loaded

end App

variable [Zero P] [One P] {env : Env P} {portfolio : List (RealmStock P)}
  {users : List RealmUser} {firebase : List (String × Json P)} {clock : DateFields}
  {es : List (Event P)}

/-- A run by the two rules, with well-shaped replies, never traps, deletions
included. -/
theorem orderly_runs_never_trap
    (h : Along (App.step env) App.Orderly (App.launch portfolio users firebase clock) es) :
    ∃s,run (App.step env) (App.launch portfolio users firebase clock) es=some s := by
  have hlaunch : App.Loaded (App.launch portfolio users firebase clock) :=
    let hin := App.InRange.launch portfolio users firebase clock
    ⟨hin.toCaptured,Or.inr hin.table⟩
  obtain ⟨s,hs,_⟩ := h.total hlaunch (fun u e hu ho => by
    have hsome : (u.step env e).isSome :=
      hu.toCaptured.isSome_step ho.sound (fun _ _ hi => hu.indexed_lt ho hi)
    obtain ⟨v,hv⟩ := Option.isSome_iff_exists.mp hsome
    exact ⟨v,hv,hu.step ho hv⟩)
  exact ⟨s,hs⟩

/-- The first of two rows deleted, its reload, the remaining cell, and a refresh. -/
theorem orderly_runs_never_trap_with_deletion :
    ∃s,run (App.step App.sampleEnv)
        (App.sampleLaunch [App.sampleStock "FB" 3,App.sampleStock "GE" 5])
        [.deleteRow 0,.mainQueue,.cellForRow 0,.refreshStocks]=some s := by
  apply orderly_runs_never_trap
  refine ⟨⟨trivial,fun hb => absurd hb List.not_mem_nil,?_⟩,?_⟩
  · intro r _
    exact ⟨rfl,fun task hm => absurd hm List.not_mem_nil,
      fun block hb => absurd hb List.not_mem_nil⟩
  intro t ht
  cases ht
  refine ⟨⟨trivial,fun _ => rfl,by simp⟩,?_⟩
  intro t ht
  cases ht
  refine ⟨⟨trivial,fun hb => absurd hb List.not_mem_nil,by simp⟩,?_⟩
  intro t ht
  cases ht
  exact ⟨⟨trivial,fun _ => rfl,by simp⟩,fun _ _ => trivial⟩

end SStock
