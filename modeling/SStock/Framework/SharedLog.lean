import SStock.Framework.Restart
import Mathlib.Logic.Function.Basic

namespace Framework

variable {ι σ ε α : Type*}

/-- Processes that run side by side and write to one log. What a process writes
is pending until it is taken into the log, and lost if the process ends first. -/
structure SharedLog (ι σ α : Type*) where
  parts : ι → σ
  pending : ι → List α
  log : List α

namespace SharedLog

/-- A step of one process, the taking of its oldest pending entry, or an entry
from outside. -/
inductive Event (ι ε α : Type*) where
  | part (i : ι) (e : ε)
  | taken (i : ι)
  | outside (a : α)

def Event.entry : Event ι ε α → Option α
  | .outside a => some a
  | _ => none

section Step

variable [DecidableEq ι]

def Event.own (i : ι) : Event ι ε α → Option ε
  | .part j e => if j=i then some e else none
  | _ => none

theorem own_self (i : ι) (e : ε) : (Event.part i e : Event ι ε α).own i=some e := if_pos rfl

theorem own_of_ne {i j : ι} (h : j≠i) (e : ε) : (Event.part j e : Event ι ε α).own i=none :=
  if_neg h

theorem own_eq_some {i : ι} {e : Event ι ε α} {f : ε} (h : e.own i=some f) : e=.part i f := by
  cases e with
  | part j g =>
    obtain ⟨rfl,hf⟩ := Option.ite_none_right_eq_some.mp h
    rw [Option.some.inj hf]
  | taken | outside => cases h

/-- A first part of a process's own events ends at one of the events of all. -/
theorem prefix_of_own {i : ι} {es : List (Event ι ε α)} {gs : List ε} {f : ε}
    (h : gs++[f] <+: es.filterMap (Event.own i)) :
    ∃fs,fs++[.part i f] <+: es ∧ fs.filterMap (Event.own i)=gs := by
  induction es generalizing gs with
  | nil => simp at h
  | cons e es ih =>
    cases he : e.own i with
    | none =>
      rw [List.filterMap_cons_none he] at h
      obtain ⟨fs,hfs,hown⟩ := ih h
      exact ⟨e::fs,List.prefix_cons_inj e |>.mpr hfs,by rw [List.filterMap_cons_none he,hown]⟩
    | some g =>
      rw [List.filterMap_cons_some he] at h
      cases gs with
      | nil =>
        obtain ⟨rfl,_⟩ := List.cons_prefix_cons.mp h
        rw [own_eq_some he]
        exact ⟨[],⟨es,rfl⟩,rfl⟩
      | cons g' gs =>
        obtain ⟨rfl,hrest⟩ := List.cons_prefix_cons.mp h
        obtain ⟨fs,hfs,hown⟩ := ih hrest
        exact ⟨e::fs,List.prefix_cons_inj e |>.mpr hfs,by rw [List.filterMap_cons_some he,hown]⟩

/-- The entry if it was written by `w`, where `none` is the outside. -/
def writtenBy (w : Option ι) (m : Option ι × α) : Option α := if m.1=w then some m.2 else none

theorem writtenBy_self (w : Option ι) (a : α) : writtenBy w (w,a)=some a := if_pos rfl

theorem writtenBy_of_ne {v w : Option ι} (h : v≠w) (a : α) : writtenBy w (v,a)=none := if_neg h

variable (keeps : σ → ε → Bool) (step : σ → ε → Option σ) (emit : σ → ε → List α)

/-- `keeps` says which steps of a process keep what it has pending. -/
def next (p : SharedLog ι σ α) : Event ι ε α → Option (SharedLog ι σ α)
  | .part i e => (step (p.parts i) e).map fun t =>
    let kept := if keeps (p.parts i) e then p.pending i else []
    ⟨Function.update p.parts i t,
      Function.update p.pending i (kept++emit (p.parts i) e),p.log⟩
  | .taken i => match p.pending i with
    | [] => some p
    | a::rest => some ⟨p.parts,Function.update p.pending i rest,p.log++[a]⟩
  | .outside a => some ⟨p.parts,p.pending,p.log++[a]⟩

/-- What `emit` gives for the steps of process `i`. -/
def writes {β : Type*} (emit : σ → ε → List β) (i : ι) (p : SharedLog ι σ α) (e : Event ι ε α) :
    List β :=
  match e.own i with
  | none => []
  | some f => emit (p.parts i) f

/-- What process `i` loses: all it has pending, in a step that does not keep it. -/
def losses (i : ι) (p : SharedLog ι σ α) (e : Event ι ε α) : List α :=
  match e.own i with
  | none => []
  | some f => if keeps (p.parts i) f then [] else p.pending i

variable {keeps step emit} {p q : SharedLog ι σ α} {e : Event ι ε α} {es : List (Event ι ε α)}

theorem writes_of_none {β : Type*} {emit : σ → ε → List β} {i : ι} (h : e.own i=none) :
    writes emit i p e=[] := by
  rw [writes,h]

theorem writes_self {β : Type*} (emit : σ → ε → List β) (i : ι) (p : SharedLog ι σ α) (f : ε) :
    writes emit i p (.part i f)=emit (p.parts i) f := by
  rw [writes,own_self]

theorem losses_of_none {i : ι} (h : e.own i=none) : losses keeps i p e=[] := by
  rw [losses,h]

theorem losses_self (keeps : σ → ε → Bool) (i : ι) (p : SharedLog ι σ α) (f : ε) :
    losses keeps i p (.part i f)=if keeps (p.parts i) f then [] else p.pending i := by
  rw [losses,own_self]

theorem next_taken {i : ι} (h : next keeps step emit p (.taken i)=some q) :
    (p.pending i=[] ∧ q=p) ∨ ∃a rest,p.pending i=a::rest ∧
      q=⟨p.parts,Function.update p.pending i rest,p.log++[a]⟩ := by
  rw [next] at h
  split at h
  · next hp => exact Or.inl ⟨hp,(Option.some.inj h).symm⟩
  · next a rest hp => exact Or.inr ⟨a,rest,hp,(Option.some.inj h).symm⟩

theorem parts_of_taken {i : ι} (h : next keeps step emit p (.taken i)=some q) :
    q.parts=p.parts := by
  rcases next_taken h with ⟨_,rfl⟩|⟨a,rest,_,rfl⟩
  · rfl
  · rfl

/-- A step is the step of at most one process. -/
theorem next_part (h : next keeps step emit p e=some q) (i : ι) :
    (e.own i=none ∧ q.parts i=p.parts i) ∨
      ∃f,e.own i=some f ∧ step (p.parts i) f=some (q.parts i) := by
  cases e with
  | outside a =>
    cases h
    exact Or.inl ⟨rfl,rfl⟩
  | taken j => exact Or.inl ⟨rfl,by rw [parts_of_taken h]⟩
  | part j f =>
    obtain ⟨t,ht,rfl⟩ := Option.map_eq_some_iff.mp h
    by_cases hj : j=i
    · subst hj
      have hself : Function.update p.parts j t j=t := Function.update_self _ _ _
      exact Or.inr ⟨f,own_self j f,ht.trans (congrArg some hself.symm)⟩
    · exact Or.inl ⟨own_of_ne hj f,Function.update_of_ne (Ne.symm hj) _ _⟩

/-- Each process runs through its own events, as if it were alone. -/
theorem run_part (h : run (next keeps step emit) p es=some q) (i : ι) :
    run step (p.parts i) (es.filterMap (Event.own i))=some (q.parts i) := by
  induction es generalizing p with
  | nil =>
    obtain rfl : p=q := Option.some.inj h
    rfl
  | cons e es ih =>
    obtain ⟨u,hu,hq⟩ := Option.bind_eq_some_iff.mp h
    cases next_part hu i with
    | inl hother =>
      rw [List.filterMap_cons_none hother.1,← hother.2]
      exact ih hq
    | inr hown =>
      obtain ⟨f,hf,hstep⟩ := hown
      rw [List.filterMap_cons_some hf,run_cons,hstep]
      exact ih hq

theorem run_total (hstep : ∀s e,∃t,step s e=some t) (p : SharedLog ι σ α)
    (es : List (Event ι ε α)) : ∃q,run (next keeps step emit) p es=some q := by
  have hnext (p : SharedLog ι σ α) (e : Event ι ε α) : ∃q,next keeps step emit p e=some q := by
    cases e with
    | outside a => exact ⟨_,rfl⟩
    | taken i =>
      rw [next]
      split
      · exact ⟨_,rfl⟩
      · exact ⟨_,rfl⟩
    | part i f =>
      obtain ⟨t,ht⟩ := hstep (p.parts i) f
      exact ⟨_,by rw [next,ht]; rfl⟩
  induction es generalizing p with
  | nil => exact ⟨p,rfl⟩
  | cons e es ih =>
    obtain ⟨u,hu⟩ := hnext p e
    obtain ⟨q,hq⟩ := ih u
    exact ⟨q,by rw [run_cons,hu]; exact hq⟩

/-- Entries stay in the log. -/
theorem log_prefix (h : run (next keeps step emit) p es=some q) : p.log <+: q.log := by
  refine run_relates (R := fun u v => u.log <+: v.log) h (fun _ => List.prefix_refl _)
    (fun _ _ _ => List.IsPrefix.trans) ?_
  intro u e v hv
  cases e with
  | outside a =>
    cases hv
    exact List.prefix_append _ _
  | taken i =>
    rcases next_taken hv with ⟨_,rfl⟩|⟨a,rest,_,rfl⟩
    · exact List.prefix_refl _
    · exact List.prefix_append _ _
  | part i f =>
    obtain ⟨t,_,rfl⟩ := Option.map_eq_some_iff.mp hv
    exact List.prefix_refl _

/-- What a process has written, in order, is what was taken, with its losses in
between, followed by what is pending. -/
def Settled (written taken lost pending : List α) : Prop :=
  ∃settled,written=settled++pending ∧ taken.Sublist settled ∧ (taken++lost).Perm settled

namespace Settled

variable {written taken lost pending : List α}

theorem write (h : Settled written taken lost pending) (new : List α) :
    Settled (written++new) taken lost (pending++new) := by
  obtain ⟨settled,rfl,hsub,hperm⟩ := h
  exact ⟨settled,List.append_assoc _ _ _,hsub,hperm⟩

theorem lose (h : Settled written taken lost pending) :
    Settled written taken (lost++pending) [] := by
  obtain ⟨settled,rfl,hsub,hperm⟩ := h
  refine ⟨settled++pending,(List.append_nil _).symm,hsub.trans (List.sublist_append_left _ _),?_⟩
  rw [← List.append_assoc]
  exact hperm.append_right pending

theorem take {a : α} (h : Settled written taken lost (a::pending)) :
    Settled written (taken++[a]) lost pending := by
  obtain ⟨settled,rfl,hsub,hperm⟩ := h
  refine ⟨settled++[a],by simp,hsub.append (List.Sublist.refl _),?_⟩
  have hswap : (taken++[a]++lost).Perm (taken++lost++[a]) := by
    rw [List.append_assoc,List.append_assoc]
    exact List.perm_append_comm.append_left _
  exact hswap.trans (hperm.append_right [a])

end Settled

/-- One step settles what it loses and what it takes into the log. -/
theorem next_settles (h : next keeps step emit p e=some q) :
    ∃l : List (Option ι × α),q.log=p.log++l.map Prod.snd ∧
      l.filterMap (writtenBy none)=[e].filterMap Event.entry ∧
      ∀i written taken lost,Settled written taken lost (p.pending i) →
        Settled (written++writes emit i p e) (taken++l.filterMap (writtenBy (some i)))
          (lost++losses keeps i p e) (q.pending i) := by
  cases e with
  | outside a =>
    cases h
    refine ⟨[(none,a)],rfl,List.filterMap_cons_some (writtenBy_self none a),?_⟩
    intro i written taken lost hi
    rw [writes_of_none rfl,losses_of_none rfl,List.filterMap_cons_none
      (writtenBy_of_ne (Option.some_ne_none i).symm a)]
    simpa using hi
  | taken j =>
    rcases next_taken h with ⟨_,rfl⟩|⟨a,rest,hp,rfl⟩
    · refine ⟨[],(List.append_nil _).symm,rfl,fun i written taken lost hi => ?_⟩
      rw [writes_of_none rfl,losses_of_none rfl]
      simpa using hi
    · refine ⟨[(some j,a)],rfl,List.filterMap_cons_none
        (writtenBy_of_ne (Option.some_ne_none j) a),fun i written taken lost hi => ?_⟩
      rw [writes_of_none rfl,losses_of_none rfl,List.append_nil,List.append_nil]
      by_cases hj : j=i
      · subst hj
        rw [List.filterMap_cons_some (writtenBy_self (some j) a)]
        rw [hp] at hi
        simpa using hi.take
      · rw [List.filterMap_cons_none (writtenBy_of_ne (fun he => hj (Option.some.inj he)) a)]
        simpa [Function.update_of_ne (Ne.symm hj)] using hi
  | part j f =>
    obtain ⟨t,_,rfl⟩ := Option.map_eq_some_iff.mp h
    refine ⟨[],(List.append_nil _).symm,rfl,fun i written taken lost hi => ?_⟩
    by_cases hj : j=i
    · subst hj
      rw [writes_self,losses_self keeps]
      simp only [List.filterMap_nil,List.append_nil,Function.update_self]
      cases keeps (p.parts j) f with
      | true => simpa using hi.write (emit (p.parts j) f)
      | false => simpa using hi.lose.write (emit (p.parts j) f)
    · rw [writes_of_none (own_of_ne hj f),losses_of_none (own_of_ne hj f)]
      simpa [Function.update_of_ne (Ne.symm hj)] using hi

/-- What the process writes in the run of all it writes in its own. -/
theorem emitted_writes {β : Type*} {emits : σ → ε → List β}
    (h : run (next keeps step emit) p es=some q) (i : ι) :
    emitted (next keeps step emit) (writes emits i) p es=
      emitted step emits (p.parts i) (es.filterMap (Event.own i)) := by
  induction es generalizing p with
  | nil => rfl
  | cons e es ih =>
    obtain ⟨u,hu,hq⟩ := Option.bind_eq_some_iff.mp h
    rw [emitted_cons hu,ih hq]
    cases next_part hu i with
    | inl hother =>
      rw [writes_of_none hother.1,List.filterMap_cons_none hother.1,hother.2,List.nil_append]
    | inr hown =>
      obtain ⟨f,hf,hstep⟩ := hown
      rw [List.filterMap_cons_some hf,emitted_cons hstep,writes,hf]

/-- The log is an interleaving of what came from outside and of what was taken
from each process, which with its losses and what is still pending is all that
the process has written. -/
theorem run_interleaves (h : run (next keeps step emit) p es=some q) :
    ∃l : List (Option ι × α),q.log=p.log++l.map Prod.snd ∧
      l.filterMap (writtenBy none)=es.filterMap Event.entry ∧
      ∀i,Settled (p.pending i++emitted step emit (p.parts i) (es.filterMap (Event.own i)))
        (l.filterMap (writtenBy (some i))) (emitted (next keeps step emit) (losses keeps i) p es)
        (q.pending i) := by
  suffices hall : ∃l : List (Option ι × α),q.log=p.log++l.map Prod.snd ∧
      l.filterMap (writtenBy none)=es.filterMap Event.entry ∧
      ∀i,Settled (p.pending i++emitted (next keeps step emit) (writes emit i) p es)
        (l.filterMap (writtenBy (some i))) (emitted (next keeps step emit) (losses keeps i) p es)
        (q.pending i) by
    obtain ⟨l,hlog,hout,hparts⟩ := hall
    exact ⟨l,hlog,hout,fun i => emitted_writes h i ▸ hparts i⟩
  induction es using List.reverseRecOn generalizing q with
  | nil =>
    obtain rfl : p=q := Option.some.inj h
    exact ⟨[],(List.append_nil _).symm,rfl,
      fun i => ⟨[],by simp [emitted],List.Sublist.refl _,List.Perm.refl _⟩⟩
  | append_singleton es e ih =>
    obtain ⟨u,hu,hq⟩ := (run_snoc_eq_some _).mp h
    obtain ⟨l,hlog,hout,hparts⟩ := ih hu
    obtain ⟨l',hlog',hout',hparts'⟩ := next_settles hq
    refine ⟨l++l',?_,?_,fun i => ?_⟩
    · rw [hlog',hlog,List.map_append,List.append_assoc]
    · rw [List.filterMap_append,List.filterMap_append,hout,hout']
    · rw [emitted_snoc hu,emitted_snoc hu,List.filterMap_append,← List.append_assoc]
      exact hparts' i _ _ _ (hparts i)

/-- An entry was there at first, came from outside, or was written by a process. -/
theorem mem_log {a : α} (h : run (next keeps step emit) p es=some q) (ha : a∈q.log) :
    a∈p.log ∨ .outside a∈es ∨
      ∃i,a∈p.pending i++emitted step emit (p.parts i) (es.filterMap (Event.own i)) := by
  obtain ⟨l,hlog,hout,hparts⟩ := run_interleaves h
  rw [hlog] at ha
  cases List.mem_append.mp ha with
  | inl hp => exact Or.inl hp
  | inr hl =>
    obtain ⟨⟨w,b⟩,hm,rfl⟩ := List.mem_map.mp hl
    have hw : b∈l.filterMap (writtenBy w) := List.mem_filterMap.mpr ⟨_,hm,writtenBy_self w b⟩
    cases w with
    | none =>
      rw [hout] at hw
      obtain ⟨e,he,hentry⟩ := List.mem_filterMap.mp hw
      cases e with
      | outside c =>
        obtain rfl : c=b := Option.some.inj hentry
        exact Or.inr (Or.inl he)
      | part | taken => cases hentry
    | some i =>
      obtain ⟨settled,hwritten,hsub,_⟩ := hparts i
      refine Or.inr (Or.inr ⟨i,?_⟩)
      rw [hwritten]
      exact List.mem_append_left _ (hsub.subset hw)

end Step

end SharedLog

end Framework
