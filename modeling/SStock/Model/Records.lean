import SStock.Framework.Simulation
import SStock.Model.Steps

namespace SStock

namespace App

open Framework StockManager

variable {P : Type}

/-- The tap an event makes: the stock displayed on the row, by the number of the
request it is followed by. -/
def taps (s : App P) : Event P → List (ℕ × Stock)
  | .didSelectRow vc r =>
    match s.searchVCs[vc]?.bind fun v => v.tableView[r]? with
    | none => []
    | some shown => [(s.nextTask,shown)]
  | _ => []

/-- The pending quote request an event answers. -/
def answers (s : App P) : Event P → List (Answer P)
  | .quoteReply id response =>
    match s.quoteTasks.find? fun task => task.id=id with
    | none => []
    | some task => [⟨task,response⟩]
  | _ => []

/-- The pending search an event answers, by its number. -/
def searchAnswers (s : App P) : Event P → List (ℕ × Response P)
  | .searchReply id response =>
    match s.searchTasks.find? fun task => task.id=id with
    | none => []
    | some _ => [(id,response)]
  | _ => []

variable {env : Env P} {s t : App P} {e : Event P}

theorem history_searchReply {id : ℕ} {response : Response P}
    (hs : s.searchReply id response=some t) :
    t.history={s.history with
      searchAnswers := s.history.searchAnswers++s.searchAnswers (.searchReply id response)} := by
  unfold searchReply at hs
  cases hf : s.searchTasks.find? fun task => decide (task.id=id) with
  | none =>
    have hnone : s.searchAnswers (.searchReply id response)=[] := by simp [searchAnswers,hf]
    simp only [hf,Option.some.injEq] at hs
    rw [hnone,List.append_nil,hs]
  | some task =>
    have hone : s.searchAnswers (.searchReply id response)=[(id,response)] := by
      simp [searchAnswers,hf]
    simp only [hf] at hs
    rw [hone]
    split at hs
    · cases hs
    · cases hs
      rfl
    · cases hs
      rfl

theorem history_didSelectRow {vc r : ℕ} (hs : s.didSelectRow env vc r=some t) :
    t.history={s.history with taps := s.history.taps++s.taps (.didSelectRow vc r)} := by
  unfold didSelectRow at hs
  cases hv : s.searchVCs[vc]? with
  | none =>
    have hnone : s.taps (.didSelectRow vc r)=[] := by simp [taps,hv]
    simp only [hv,Option.some.injEq] at hs
    rw [hnone,List.append_nil,hs]
  | some v =>
    simp only [hv] at hs
    cases hshown : v.tableView[r]? with
    | none =>
      have hnone : s.taps (.didSelectRow vc r)=[] := by simp [taps,hv,hshown]
      simp only [hshown,Option.some.injEq] at hs
      rw [hnone,List.append_nil,hs]
    | some shown =>
      have hone : s.taps (.didSelectRow vc r)=[(s.nextTask,shown)] := by simp [taps,hv,hshown]
      simp only [hshown] at hs
      obtain ⟨stock,_,rfl⟩ := Option.map_eq_some_iff.mp hs
      rw [hone]
      rfl

section Steps

variable [Zero P] [One P]

/-- Replies and taps apart, no event adds to the history. -/
theorem history_of_other (hs : s.step env e=some t)
    (hquote : ∀id response,e≠.quoteReply id response)
    (hsearch : ∀id response,e≠.searchReply id response) (htap : ∀vc r,e≠.didSelectRow vc r) :
    t.history=s.history := by
  cases step_cases hs with
  | other hview => exact hview.sameStore.history
  | quoteReply => exact absurd rfl (hquote _ _)
  | searchReply => exact absurd rfl (hsearch _ _)
  | didSelectRow => exact absurd rfl (htap _ _)
  | mainQueue _ hp => cases hp <;> rfl
  | textDidChange hv => rw [App.textDidChange,hv]
  | refreshStocks | deleteRow | openSearchVC => rfl

theorem history_quoteReply {id : ℕ} {response : Response P}
    (hs : s.quoteReply id response=some t) :
    t.history={s.history with answers := s.history.answers++s.answers (.quoteReply id response)} := by
  unfold quoteReply at hs
  cases hf : s.quoteTasks.find? fun task => decide (task.id=id) with
  | none =>
    have hnone : s.answers (.quoteReply id response)=[] := by simp [answers,hf]
    simp only [hf,Option.some.injEq] at hs
    rw [hnone,List.append_nil,hs]
  | some task =>
    have hone : s.answers (.quoteReply id response)=[⟨task,response⟩] := by simp [answers,hf]
    simp only [hf] at hs
    rw [hone]
    split at hs
    · cases hs
    · cases hs
      rfl
    · cases hs
      rfl

/-- The history grows by what the event did. -/
theorem history_of_step (hs : s.step env e=some t) :
    t.history=⟨s.history.taps++s.taps e,s.history.answers++s.answers e,
      s.history.searchAnswers++s.searchAnswers e⟩ := by
  cases e with
  | quoteReply id response =>
    rw [history_quoteReply hs]
    simp [taps,searchAnswers]
  | searchReply id response =>
    rw [history_searchReply hs]
    simp [taps,answers]
  | didSelectRow vc r =>
    rw [history_didSelectRow hs]
    simp [answers,searchAnswers]
  | _ =>
    rw [history_of_other hs (by simp) (by simp) (by simp)]
    simp [taps,answers,searchAnswers]

end Steps

end App

open Framework

variable {P : Type} [Zero P] [One P] {env : Env P} {portfolio : List (RealmStock P)}
  {users : List RealmUser} {firebase : List (String × Json P)} {clock : DateFields}
  {es : List (Event P)} {s : App P}

/-- The history is what the events of the run did, each read off the state it
was executed in. -/
theorem history_of_run
    (h : run (App.step env) (App.launch portfolio users firebase clock) es=some s) :
    let start := App.launch portfolio users firebase clock
    s.history.taps=emitted (App.step env) App.taps start es ∧
      s.history.answers=emitted (App.step env) App.answers start es ∧
      s.history.searchAnswers=emitted (App.step env) App.searchAnswers start es := by
  refine ⟨?_,?_,?_⟩
  · refine run_emits (R := fun u l => u.history.taps=l) (l := []) h rfl ?_
    intro u e v l hu hv
    rw [App.history_of_step hv,hu]
  · refine run_emits (R := fun u l => u.history.answers=l) (l := []) h rfl ?_
    intro u e v l hu hv
    rw [App.history_of_step hv,hu]
  · refine run_emits (R := fun u l => u.history.searchAnswers=l) (l := []) h rfl ?_
    intro u e v l hu hv
    rw [App.history_of_step hv,hu]

end SStock
