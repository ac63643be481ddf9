import Mathlib.Data.List.Induction

namespace Framework

variable {σ ε : Type*} (step : σ → ε → Option σ)

/-- Execution of an event list by a step function; `none` is a trap and ends
the run for good. -/
def run : σ → List ε → Option σ
  | s,[] => some s
  | s,e::es => (step s e).bind fun t => run t es

@[simp] theorem run_nil (s : σ) : run step s []=some s := rfl

@[simp] theorem run_cons (s : σ) (e : ε) (es : List ε) :
    run step s (e::es)=(step s e).bind fun t => run step t es := rfl

theorem run_append (s : σ) (es fs : List ε) :
    run step s (es++fs)=(run step s es).bind fun t => run step t fs := by
  induction es generalizing s with
  | nil => rfl
  | cons e es ih =>
    simp only [List.cons_append,run_cons,Option.bind_assoc]
    exact congrArg _ (funext ih)

theorem run_append_eq_some {s u : σ} {es fs : List ε} :
    run step s (es++fs)=some u ↔ ∃t,run step s es=some t ∧ run step t fs=some u := by
  rw [run_append,Option.bind_eq_some_iff]

theorem run_snoc_eq_some {s u : σ} {es : List ε} {e : ε} :
    run step s (es++[e])=some u ↔ ∃t,run step s es=some t ∧ step t e=some u := by
  simp [run_append_eq_some]

/-- Where no step traps a run is a fold. -/
theorem run_of_total (act : σ → ε → σ) (s : σ) (es : List ε) :
    run (fun s e => some (act s e)) s es=some (es.foldl act s) := by
  induction es generalizing s with
  | nil => rfl
  | cons e es ih => exact ih (act s e)

/-- The rest of a run from a state it passes through. -/
theorem run_of_prefix {s t u : σ} {fs es : List ε} (hp : fs <+: es) (hu : run step s fs=some u)
    (ht : run step s es=some t) : ∃gs,es=fs++gs ∧ run step u gs=some t := by
  obtain ⟨gs,rfl⟩ := hp
  obtain ⟨u',hu',hrest⟩ := (run_append_eq_some step).mp ht
  exact ⟨gs,rfl,Option.some.inj (hu'.symm.trans hu) ▸ hrest⟩

variable {step}

/-- An invariant that may also mention the events executed so far. -/
theorem run_history {s t : σ} {es : List ε} {I : List ε → σ → Prop}
    (h : run step s es=some t) (hstart : I [] s)
    (hstep : ∀fs e u v,I fs u → step u e=some v → I (fs++[e]) v) : I es t := by
  induction es using List.reverseRecOn generalizing t with
  | nil =>
    have he : s=t := by simpa using h
    exact he ▸ hstart
  | append_singleton es e ih =>
    obtain ⟨u,hu,hv⟩ := (run_snoc_eq_some step).mp h
    exact hstep es e u t (ih hu) hv

/-- Step lemma to run lemma, for runs whose events all satisfy `ok`. -/
theorem run_invariant_of {s t : σ} {es : List ε} {I : σ → Prop} {ok : ε → Prop}
    (h : run step s es=some t) (hok : ∀e∈es,ok e) (hstart : I s)
    (hstep : ∀u e v,ok e → I u → step u e=some v → I v) : I t := by
  induction es generalizing s with
  | nil =>
    have he : s=t := by simpa using h
    exact he ▸ hstart
  | cons e es ih =>
    obtain ⟨u,hu,ht⟩ := Option.bind_eq_some_iff.mp h
    exact ih ht (fun f hf => hok f (List.mem_cons_of_mem _ hf))
      (hstep s e u (hok e List.mem_cons_self) hstart hu)

theorem run_invariant {s t : σ} {es : List ε} {I : σ → Prop}
    (h : run step s es=some t) (hstart : I s)
    (hstep : ∀u e v,I u → step u e=some v → I v) : I t :=
  run_invariant_of h (fun _ _ => trivial : ∀e∈es,True) hstart (fun u e v _ => hstep u e v)

/-- A relation that every step respects relates the two ends of a run. -/
theorem run_relates {s t : σ} {es : List ε} {R : σ → σ → Prop}
    (h : run step s es=some t) (hrefl : ∀u,R u u) (htrans : ∀u v w,R u v → R v w → R u w)
    (hstep : ∀u e v,step u e=some v → R u v) : R s t :=
  run_invariant (I := R s) h (hrefl s) (fun u e v hu hv => htrans s u v hu (hstep u e v hv))

section Growing

variable {β : Type*}

/-- Where every step leaves a record alone or appends one entry, the record
passes through each of its later prefixes on the way. -/
theorem run_passes_prefix {s t : σ} {es : List ε} {f : σ → List β}
    (h : run step s es=some t)
    (hstep : ∀u e v,step u e=some v → f v=f u ∨ ∃b,f v=f u++[b])
    {pre : List β} (hs : f s <+: pre) (hp : pre <+: f t) :
    ∃fs u,fs <+: es ∧ run step s fs=some u ∧ f u=pre := by
  induction es using List.reverseRecOn generalizing t with
  | nil =>
    have he : s=t := by simpa using h
    subst he
    exact ⟨[],s,List.nil_prefix,rfl,hs.eq_of_length_le hp.length_le⟩
  | append_singleton es e ih =>
    obtain ⟨u,hu,hv⟩ := (run_snoc_eq_some step).mp h
    have earlier (hq : pre <+: f u) :
        ∃fs w,fs <+: es++[e] ∧ run step s fs=some w ∧ f w=pre := by
      obtain ⟨fs,w,hfs,hw,hf⟩ := ih hu hq
      exact ⟨fs,w,hfs.trans (List.prefix_append _ _),hw,hf⟩
    cases hstep u e t hv with
    | inl hk => exact earlier (hk ▸ hp)
    | inr hex =>
      obtain ⟨b,hb⟩ := hex
      rw [hb] at hp
      cases List.prefix_concat_iff.mp hp with
      | inl hf => exact ⟨es++[e],t,List.prefix_refl _,h,by rw [hb,hf]⟩
      | inr hf => exact earlier hf

/-- Conversely every intermediate record is a prefix of the final one. -/
theorem run_record_prefix {s t : σ} {es : List ε} {f : σ → List β}
    (h : run step s es=some t)
    (hstep : ∀u e v,step u e=some v → f v=f u ∨ ∃b,f v=f u++[b]) : f s <+: f t := by
  refine run_relates (R := fun u v => f u <+: f v) h (fun _ => List.prefix_refl _)
    (fun _ _ _ => List.IsPrefix.trans) ?_
  intro u e v hv
  cases hstep u e v hv with
  | inl hk => exact hk ▸ List.prefix_refl (f u)
  | inr hex =>
    obtain ⟨b,hb⟩ := hex
    exact ⟨[b],hb.symm⟩

end Growing

end Framework
