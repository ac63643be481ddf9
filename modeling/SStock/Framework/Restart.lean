import SStock.Framework.Simulation

namespace Framework

variable {σ ε : Type*} (step : σ → ε → Option σ) (restart : σ → σ)

/-- The life of a process that is started again when it is killed, `none`, or
when a step traps. `restart` makes the new process from what the old one had
stored. -/
def living (s : σ) : Option ε → Option σ
  | none => some (restart s)
  | some e => some ((step s e).getD (restart s))

/-- The process makes the step without being started again. -/
def survives (s : σ) : Option ε → Bool
  | none => false
  | some e => (step s e).isSome

/-- What the steps of a life emit; one that traps emits nothing. -/
def lived {α : Type*} (emit : σ → ε → List α) (s : σ) : Option ε → List α
  | none => []
  | some e => if (step s e).isSome then emit s e else []

variable {step restart} {s t : σ} {es : List (Option ε)}

theorem lived_of_step {α : Type*} {emit : σ → ε → List α} {e : ε} (h : step s e=some t) :
    lived step emit s (some e)=emit s e := by
  rw [lived,h]
  rfl

theorem lived_of_trap {α : Type*} {emit : σ → ε → List α} {e : Option ε}
    (h : ∀f,e=some f → step s f=none) : lived step emit s e=[] := by
  cases e with
  | none => rfl
  | some f =>
    rw [lived,h f rfl]
    rfl

/-- What a life emits is emitted by a step that does not trap. -/
theorem mem_lived {α : Type*} {emit : σ → ε → List α} {e : Option ε} {a : α}
    (h : a∈lived step emit s e) : ∃f,e=some f ∧ (step s f).isSome ∧ a∈emit s f := by
  cases e with
  | none => cases h
  | some f =>
    rw [lived] at h
    split_ifs at h with hsome
    · exact ⟨f,rfl,hsome,h⟩
    · cases h

/-- The process is started again or makes its step. -/
theorem living_cases {e : Option ε} (h : living step restart s e=some t) :
    (t=restart s ∧ ∀f,e=some f → step s f=none) ∨ ∃f,e=some f ∧ step s f=some t := by
  cases e with
  | none => exact Or.inl ⟨(Option.some.inj h).symm,fun f hf => by cases hf⟩
  | some f =>
    have ht : (step s f).getD (restart s)=t := Option.some.inj h
    cases hf : step s f with
    | none =>
      rw [hf] at ht
      exact Or.inl ⟨ht.symm,fun g hg => by cases hg; exact hf⟩
    | some u =>
      rw [hf] at ht
      exact Or.inr ⟨f,rfl,by rw [hf,← ht,Option.getD_some]⟩

/-- A life goes on through every trap. -/
theorem run_living (s : σ) (es : List (Option ε)) :
    ∃t,run (living step restart) s es=some t := by
  induction es generalizing s with
  | nil => exact ⟨s,rfl⟩
  | cons e es ih =>
    cases e with
    | none => exact ih (restart s)
    | some f => exact ih ((step s f).getD (restart s))

/-- The state reached belongs to one process, whose events are the last ones of
the life; `I` holds of what the processes are started with. -/
theorem session_of_life {I : σ → Prop} (h : run (living step restart) s es=some t) (hs : I s)
    (hrestart : ∀u fs w,I u → run step u fs=some w → fs.map some <:+: es → I (restart w)) :
    ∃u fs,I u ∧ run step u fs=some t ∧ fs.map some <:+ es := by
  induction es using List.reverseRecOn generalizing t with
  | nil =>
    have he : s=t := by simpa using h
    exact ⟨s,[],hs,by rw [he,run_nil],List.suffix_refl _⟩
  | append_singleton es e ih =>
    obtain ⟨w,hw,ht⟩ := (run_snoc_eq_some _).mp h
    obtain ⟨u,fs,hu,hrun,hfs⟩ := ih hw (fun u fs w hu hrun hfs =>
      hrestart u fs w hu hrun (hfs.trans (List.prefix_append _ _).isInfix))
    cases living_cases ht with
    | inl hr =>
      obtain ⟨rfl,_⟩ := hr
      have hi := hrestart u fs w hu hrun (hfs.isInfix.trans (List.prefix_append _ _).isInfix)
      exact ⟨restart w,[],hi,rfl,List.nil_suffix⟩
    | inr hex =>
      obtain ⟨f,rfl,hf⟩ := hex
      refine ⟨u,fs++[f],hu,(run_snoc_eq_some _).mpr ⟨w,hrun,hf⟩,?_⟩
      obtain ⟨gs,rfl⟩ := hfs
      exact ⟨gs,by rw [List.map_append,List.map_singleton,List.append_assoc]⟩

end Framework
