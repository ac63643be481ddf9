import SStock.Framework.Run

namespace Framework

variable {σ ε τ α : Type*} (step : σ → ε → Option σ)

/-- Every event of a run meets `ok` in the state it is executed in. -/
def Along (ok : σ → ε → Prop) : σ → List ε → Prop
  | _,[] => True
  | s,e::es => ok s e ∧ ∀t,step s e=some t → Along ok t es

/-- What the events of a run emit, each in the state it is executed in. -/
def emitted (emit : σ → ε → List α) : σ → List ε → List α
  | _,[] => []
  | s,e::es => emit s e++((step s e).map fun t => emitted emit t es).getD []

variable {step} {s t : σ} {es : List ε}

theorem emitted_cons {emit : σ → ε → List α} {e : ε} (h : step s e=some t) :
    emitted step emit s (e::es)=emit s e++emitted step emit t es := by
  rw [emitted,h]
  rfl

theorem emitted_snoc {emit : σ → ε → List α} {e : ε} (h : run step s es=some t) :
    emitted step emit s (es++[e])=emitted step emit s es++emit t e := by
  induction es generalizing s with
  | nil =>
    obtain rfl : s=t := Option.some.inj h
    rw [List.nil_append,emitted,emitted]
    cases step s e with
    | none => exact List.append_nil _
    | some u => exact List.append_nil _
  | cons f es ih =>
    obtain ⟨u,hu,ht⟩ := Option.bind_eq_some_iff.mp h
    rw [List.cons_append,emitted_cons hu,emitted_cons hu,ih ht,List.append_assoc]

theorem emitted_map {β : Type*} {emit : σ → ε → List α} (f : α → β) :
    emitted step (fun u e => (emit u e).map f) s es=(emitted step emit s es).map f := by
  induction es generalizing s with
  | nil => rfl
  | cons e es ih =>
    rw [emitted,emitted,List.map_append]
    cases step s e with
    | none => rfl
    | some t => simp only [Option.map_some,Option.getD_some,ih]

/-- What was emitted was emitted by one of the events, in the state before it. -/
theorem mem_emitted {emit : σ → ε → List α} {a : α} (h : a∈emitted step emit s es) :
    ∃fs e u,fs++[e] <+: es ∧ run step s fs=some u ∧ a∈emit u e := by
  induction es generalizing s with
  | nil => cases h
  | cons e es ih =>
    cases List.mem_append.mp h with
    | inl he => exact ⟨[],e,s,⟨es,rfl⟩,rfl,he⟩
    | inr hrest =>
      cases hs : step s e with
      | none => simp [hs] at hrest
      | some t =>
        rw [hs] at hrest
        obtain ⟨fs,f,u,⟨gs,hp⟩,hu,ha⟩ := ih hrest
        exact ⟨e::fs,f,u,⟨gs,by rw [← hp]; rfl⟩,by rw [run_cons,hs]; exact hu,ha⟩

/-- Progress and preservation: a run whose events are all enabled ends. -/
theorem Along.total {ok : σ → ε → Prop} {I : σ → Prop} (h : Along step ok s es) (hs : I s)
    (hstep : ∀u e,I u → ok u e → ∃v,step u e=some v ∧ I v) : ∃t,run step s es=some t ∧ I t := by
  induction es generalizing s with
  | nil => exact ⟨s,rfl,hs⟩
  | cons e es ih =>
    obtain ⟨u,hu,hi⟩ := hstep s e hs h.1
    obtain ⟨t,ht,hit⟩ := ih (h.2 u hu) hi
    exact ⟨t,by rw [run_cons,hu,Option.bind_some,ht],hit⟩

/-- A condition on the events alone. -/
theorem Along.of_forall {ok : ε → Prop} (h : ∀e∈es,ok e) : Along step (fun _ e => ok e) s es := by
  induction es generalizing s with
  | nil => trivial
  | cons e es ih =>
    obtain ⟨he,hes⟩ := List.forall_mem_cons.mp h
    exact ⟨he,fun _ _ => ih hes⟩

/-- A run whose events are enabled and each use up some of a finite supply ends
and is no longer than the supply lasts. -/
theorem Along.total_within {ok : σ → ε → Prop} {I : σ → Prop} {work : σ → ℕ}
    (h : Along step ok s es) (hs : I s)
    (hstep : ∀u e,I u → ok u e → ∃v,step u e=some v ∧ I v ∧ work v<work u) :
    ∃t,run step s es=some t ∧ I t ∧ es.length+work t≤work s := by
  induction es generalizing s with
  | nil => exact ⟨s,rfl,hs,by simp⟩
  | cons e es ih =>
    obtain ⟨u,hu,hi,hlt⟩ := hstep s e hs h.1
    obtain ⟨t,ht,hit,hle⟩ := ih (h.2 u hu) hi
    refine ⟨t,by rw [run_cons,hu,Option.bind_some,ht],hit,?_⟩
    rw [List.length_cons]
    omega

/-- A relation between the state and what was emitted on the way to it. -/
theorem run_emits {emit : σ → ε → List α} {R : σ → List α → Prop} {l : List α}
    (h : run step s es=some t) (hs : R s l)
    (hstep : ∀u e v l,R u l → step u e=some v → R v (l++emit u e)) :
    R t (l++emitted step emit s es) := by
  induction es generalizing s l with
  | nil =>
    have he : s=t := by simpa using h
    rw [emitted,List.append_nil]
    exact he ▸ hs
  | cons e es ih =>
    obtain ⟨u,hu,ht⟩ := Option.bind_eq_some_iff.mp h
    rw [emitted_cons hu,← List.append_assoc]
    exact ih ht (hstep s e u l hs hu)

/-- Forward simulation: where each step is matched by what it emits, a run is
matched by all that its events emit, in order. -/
theorem run_simulates {emit : σ → ε → List α} {act : τ → α → τ} {R : σ → τ → Prop}
    {ok : σ → ε → Prop} {a : τ} (ha : Along step ok s es) (h : run step s es=some t) (hs : R s a)
    (hstep : ∀u e v b,ok u e → R u b → step u e=some v → R v ((emit u e).foldl act b)) :
    R t ((emitted step emit s es).foldl act a) := by
  induction es generalizing s a with
  | nil =>
    have he : s=t := by simpa using h
    exact he ▸ hs
  | cons e es ih =>
    obtain ⟨u,hu,ht⟩ := Option.bind_eq_some_iff.mp h
    rw [emitted_cons hu,List.foldl_append]
    exact ih (ha.2 u hu) ht (hstep s e u a ha.1 hs hu)

end Framework
