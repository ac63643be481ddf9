import Mathlib.Data.List.Induction
import Mathlib.Data.List.Nodup
import Mathlib.Order.Nat

namespace Framework

variable {V : Type*}

/-- `d` carries the greatest ticket of the deliveries `h`. -/
def IsLatest (h : List (ℕ × V)) (d : ℕ × V) : Prop := d∈h ∧ ∀e∈h,e.1≤d.1

/-- What a register that every delivery overwrites holds after `h`. -/
def lastValue (base : V) (h : List (ℕ × V)) : V := (h.getLast?.map Prod.snd).getD base

@[simp] theorem lastValue_nil (base : V) : lastValue base ([] : List (ℕ × V))=base := rfl

@[simp] theorem lastValue_append (base : V) (h : List (ℕ × V)) (d : ℕ × V) :
    lastValue base (h++[d])=d.2 := by simp [lastValue]

theorem lastValue_append_append (base : V) (h h' : List (ℕ × V)) :
    lastValue base (h++h')=lastValue (lastValue base h) h' := by
  cases h'.eq_nil_or_concat' with
  | inl hnil => simp [hnil]
  | inr hcons =>
    obtain ⟨ys,d,rfl⟩ := hcons
    rw [← List.append_assoc,lastValue_append,lastValue_append]

/-- Every delivery is newer than all the earlier ones, or repeats the value of
the newest of them. -/
def InOrder (h : List (ℕ × V)) : Prop :=
  ∀pre d,pre++[d] <+: h → ∀m,IsLatest pre m → m.1<d.1 ∨ d.2=m.2

/-- After any of the deliveries the register holds the value of the newest
one so far. -/
def NeverGoesBack (base : V) (h : List (ℕ × V)) : Prop :=
  ∀pre,pre <+: h → ∀m,IsLatest pre m → lastValue base pre=m.2

theorem exists_isLatest {h : List (ℕ × V)} (hne : h≠[]) : ∃m,IsLatest h m := by
  induction h with
  | nil => exact absurd rfl hne
  | cons d ds ih =>
    by_cases hd : ds=[]
    · subst hd
      exact ⟨d,by simp [IsLatest]⟩
    · obtain ⟨m,hm,hmax⟩ := ih hd
      by_cases hle : m.1≤d.1
      · refine ⟨d,List.mem_cons_self,fun e he => ?_⟩
        cases List.mem_cons.mp he with
        | inl heq =>
          subst heq
          exact Nat.le_refl _
        | inr he => exact (hmax e he).trans hle
      · refine ⟨m,List.mem_cons_of_mem _ hm,fun e he => ?_⟩
        cases List.mem_cons.mp he with
        | inl heq =>
          subst heq
          omega
        | inr he => exact hmax e he

/-- Tickets are never delivered twice, so the newest delivery is unique. -/
theorem IsLatest.unique {h : List (ℕ × V)} (hn : (h.map Prod.fst).Nodup) {m m' : ℕ × V}
    (hm : IsLatest h m) (hm' : IsLatest h m') : m=m' :=
  List.inj_on_of_nodup_map hn hm.1 hm'.1 (Nat.le_antisymm (hm'.2 m hm.1) (hm.2 m' hm'.1))

/-- A delivery older than all others is the newest one only where there are none. -/
theorem isLatest_cons_of_older {h : List (ℕ × V)} {d m : ℕ × V} (hd : ∀e∈h,d.1<e.1) :
    IsLatest (d::h) m ↔ (h=[] ∧ m=d) ∨ IsLatest h m := by
  constructor
  · intro ⟨hm,hmax⟩
    cases List.mem_cons.mp hm with
    | inl heq =>
      subst heq
      have hnil : h=[] := by
        apply List.eq_nil_iff_forall_not_mem.mpr
        intro e he
        exact absurd (hmax e (List.mem_cons_of_mem _ he)) (Nat.not_le_of_lt (hd e he))
      exact Or.inl ⟨hnil,rfl⟩
    | inr hin => exact Or.inr ⟨hin,fun e he => hmax e (List.mem_cons_of_mem _ he)⟩
  · intro hcase
    rcases hcase with ⟨rfl,rfl⟩|⟨hin,hmax⟩
    · simp [IsLatest]
    · refine ⟨List.mem_cons_of_mem _ hin,fun e he => ?_⟩
      cases List.mem_cons.mp he with
      | inl heq => exact heq ▸ (hd m hin).le
      | inr he => exact hmax e he

theorem isLatest_append_of_newer {h : List (ℕ × V)} {d : ℕ × V}
    (hd : ∀e∈h,e.1<d.1) : IsLatest (h++[d]) d := by
  refine ⟨by simp,fun e he => ?_⟩
  cases List.mem_append.mp he with
  | inl he => exact (hd e he).le
  | inr he => rw [List.mem_singleton.mp he]

theorem isLatest_append_of_older {h : List (ℕ × V)} {d m : ℕ × V} (hm : IsLatest h m)
    (hd : d.1≤ m.1) : IsLatest (h++[d]) m := by
  refine ⟨List.mem_append_left _ hm.1,fun e he => ?_⟩
  cases List.mem_append.mp he with
  | inl he => exact hm.2 e he
  | inr he =>
    rw [List.mem_singleton.mp he]
    exact hd

/-- The register never goes back exactly when the deliveries come in order. -/
theorem neverGoesBack_iff (base : V) {h : List (ℕ × V)} (hn : (h.map Prod.fst).Nodup) :
    NeverGoesBack base h ↔ InOrder h := by
  constructor
  · intro hback pre d hp m hm
    by_contra hc
    obtain ⟨hlt,hval⟩ := not_or.mp hc
    have hl := isLatest_append_of_older hm (Nat.le_of_not_lt hlt)
    have hv := hback _ hp m hl
    rw [lastValue_append] at hv
    exact hval hv
  · intro hord pre hp m hm
    rcases pre.eq_nil_or_concat' with rfl|⟨ys,d,rfl⟩
    · exact absurd hm.1 List.not_mem_nil
    rw [lastValue_append]
    by_cases hy : ys=[]
    · subst hy
      rw [List.mem_singleton.mp hm.1]
    · obtain ⟨m',hm'⟩ := exists_isLatest hy
      have hn' : ((ys++[d]).map Prod.fst).Nodup := hn.sublist (hp.sublist.map _)
      cases hord ys d hp m' hm' with
      | inl hlt =>
        have hd := isLatest_append_of_newer (d := d) (fun e he => (hm'.2 e he).trans_lt hlt)
        rw [hd.unique hn' hm]
      | inr heq =>
        by_cases hle : d.1≤ m'.1
        · rw [(isLatest_append_of_older hm' hle).unique hn' hm] at heq
          exact heq
        · have hd := isLatest_append_of_newer (d := d)
            (fun e he => (hm'.2 e he).trans_lt (Nat.lt_of_not_le hle))
          rw [hd.unique hn' hm]

theorem InOrder.initial {h pre : List (ℕ × V)} (ho : InOrder h) (hp : pre <+: h) :
    InOrder pre :=
  fun q d hq => ho q d (hq.trans hp)

/-- In particular deliveries with rising tickets come in order. -/
theorem InOrder.of_pairwise {h : List (ℕ × V)} (hp : h.Pairwise fun d e => d.1<e.1) :
    InOrder h := by
  intro pre d hd m hm
  have hpre := hp.sublist hd.sublist
  exact Or.inl ((List.pairwise_append.mp hpre).2.2 m hm.1 d List.mem_cons_self)

/-- A delivery that an earlier one has overtaken repeats the newest by then. -/
theorem InOrder.overtaken {h pre : List (ℕ × V)} {d e : ℕ × V} (ho : InOrder h)
    (hp : pre++[d] <+: h) (he : e∈pre) (hlt : d.1<e.1) : ∃m∈pre,e.1≤ m.1 ∧ d.2=m.2 := by
  obtain ⟨m,hm⟩ := exists_isLatest (List.ne_nil_of_mem he)
  have hle := hm.2 e he
  cases ho pre d hp m hm with
  | inl hnewer => omega
  | inr hsame => exact ⟨m,hm.1,hle,hsame⟩

/-- Where values follow each other by their tickets, they do so in the order of
the deliveries exactly when each one overtaken follows those that overtook it. -/
theorem pairwise_iff_overtaken {R : V → V → Prop} {h : List (ℕ × V)}
    (hn : (h.map Prod.fst).Nodup) (hrise : ∀d∈h,∀e∈h,d.1<e.1 → R d.2 e.2) :
    (h.Pairwise fun d e => R d.2 e.2) ↔
      ∀pre d,pre++[d] <+: h → ∀e∈pre,d.1<e.1 → R e.2 d.2 := by
  constructor
  · intro hpair pre d hp e he _
    exact (List.pairwise_append.mp (hpair.sublist hp.sublist)).2.2 e he d List.mem_cons_self
  · intro hover
    induction h using List.reverseRecOn with
    | nil => exact List.Pairwise.nil
    | append_singleton h d ih =>
      have hinit : h <+: h++[d] := List.prefix_append h [d]
      have hpair := ih (hn.sublist (hinit.sublist.map _))
        (fun a ha b hb => hrise a (hinit.subset ha) b (hinit.subset hb))
        (fun pre b hp => hover pre b (hp.trans hinit))
      refine List.pairwise_append.mpr ⟨hpair,List.pairwise_singleton _ _,?_⟩
      intro e he d' hd'
      rw [List.mem_singleton.mp hd']
      rcases Nat.lt_trichotomy e.1 d.1 with hlt|heq|hgt
      · exact hrise e (hinit.subset he) d (by simp) hlt
      · rw [List.map_append] at hn
        have hmem : e.1∈[d].map Prod.fst := by simp [heq]
        exact absurd hmem ((List.nodup_append'.mp hn).2.2 (List.mem_map_of_mem he))
      · exact hover h d (List.prefix_refl _) e he hgt

/-- Where each value delivered is related to all after it, and the first one held
to all of them, the values of the register are related along the way. -/
theorem lastValue_rel {R : V → V → Prop} (hrefl : ∀v,R v v) {base : V} {h pre : List (ℕ × V)}
    (hpair : h.Pairwise fun d e => R d.2 e.2) (hbase : ∀d∈h,R base d.2) (hp : pre <+: h) :
    R (lastValue base pre) (lastValue base h) := by
  obtain ⟨rest,rfl⟩ := hp
  rcases rest.eq_nil_or_concat' with rfl|⟨ys,d,rfl⟩
  · rw [List.append_nil]
    exact hrefl _
  rw [← List.append_assoc,lastValue_append]
  rcases pre.eq_nil_or_concat' with rfl|⟨zs,e,rfl⟩
  · rw [lastValue_nil]
    exact hbase d (by simp)
  · rw [lastValue_append]
    exact (List.pairwise_append.mp hpair).2.2 e (by simp) d (by simp)

/-- Selecting entries and keeping their tickets. -/
theorem filterMap_keys_sublist {α β κ : Type*} {f : α → Option β} {key : α → κ} {key' : β → κ}
    (hkey : ∀a b,f a=some b → key' b=key a) (l : List α) :
    ((l.filterMap f).map key').Sublist (l.map key) := by
  induction l with
  | nil => exact List.Sublist.refl _
  | cons a l ih =>
    cases ha : f a with
    | none =>
      rw [List.filterMap_cons_none ha,List.map_cons]
      exact ih.cons _
    | some b =>
      rw [List.filterMap_cons_some ha,List.map_cons,List.map_cons,hkey a b ha]
      exact ih.cons_cons _

/-- An entry taken out of a list by its key and put at the end. -/
theorem filter_ne_append_perm {α : Type*} {key : α → ℕ} {l : List α} {a : α}
    (hn : (l.map key).Nodup) (ha : a∈l) : ((l.filter fun b => key b≠key a)++[a]).Perm l := by
  have hout : (l.filter fun b => !decide (key b≠key a))=[a] := by
    obtain ⟨before,after,rfl⟩ := List.append_of_mem ha
    rw [List.map_append,List.map_cons,List.nodup_middle,List.nodup_cons,← List.map_append] at hn
    have hne : ∀b∈before++after,key b≠key a := by
      intro b hb he
      exact hn.1 (he ▸ List.mem_map_of_mem hb)
    rw [List.filter_append,List.filter_cons_of_pos (by simp),List.filter_eq_nil_iff.mpr,
      List.filter_eq_nil_iff.mpr]
    · rfl
    · intro b hb
      simp [hne b (List.mem_append_right _ hb)]
    · intro b hb
      simp [hne b (List.mem_append_left _ hb)]
  rw [← hout]
  exact List.filter_append_perm _ _

/-- An entry stays where it is while the list grows. -/
theorem getElem?_of_grown {α : Type*} {l l' : List α} (h : l <+: l') {j : ℕ} {a : α}
    (hj : l[j]?=some a) : l'[j]?=some a := by
  obtain ⟨more,rfl⟩ := h
  rw [List.getElem?_append_left (List.getElem?_eq_some_iff.mp hj).1]
  exact hj

theorem getElem?_concat_cases {α : Type*} {l : List α} {a b : α} {j : ℕ}
    (h : (l++[a])[j]?=some b) : l[j]?=some b ∨ (j=l.length ∧ b=a) := by
  by_cases hlt : j<l.length
  · rw [List.getElem?_append_left hlt] at h
    exact Or.inl h
  · rw [List.getElem?_append_right (Nat.le_of_not_lt hlt)] at h
    have hlen : j-l.length<[a].length := (List.getElem?_eq_some_iff.mp h).1
    rw [List.length_singleton] at hlen
    exact Or.inr ⟨by omega,List.mem_singleton.mp (List.mem_of_getElem? h)⟩

/-- Numbered requests: every number below `next` is given out at most once, and
an answered request is not pending any more. -/
structure Tickets (next : ℕ) (pending answered : List ℕ) : Prop where
  lt : ∀k∈pending++answered,k<next
  nodup : (pending++answered).Nodup

namespace Tickets

variable {next next' k : ℕ} {pending new answered : List ℕ}

theorem nil (next : ℕ) : Tickets next [] [] := ⟨by simp,by simp⟩

theorem mono (h : Tickets next pending answered) (hle : next≤next') :
    Tickets next' pending answered :=
  ⟨fun k hk => (h.lt k hk).trans_le hle,h.nodup⟩

/-- New requests take numbers that have not been given out. -/
theorem issue (h : Tickets next pending answered) (hle : next≤next')
    (hnew : ∀k∈new,next≤k ∧ k<next') (hn : new.Nodup) :
    Tickets next' (pending++new) answered := by
  have hp : (pending++new++answered).Perm (new++(pending++answered)) := by
    rw [← List.append_assoc]
    exact List.perm_append_comm.append_right answered
  refine ⟨fun k hk => ?_,hp.nodup_iff.mpr (hn.append h.nodup ?_)⟩
  · cases List.mem_append.mp (hp.mem_iff.mp hk) with
    | inl hk => exact (hnew k hk).2
    | inr hk => exact (h.lt k hk).trans_le hle
  · intro k hk hk'
    have hge := (hnew k hk).1
    have hlt := h.lt k hk'
    omega

theorem settle (h : Tickets next pending answered) (hk : k∈pending) :
    Tickets next (pending.filter (· ≠ k)) (answered++[k]) := by
  obtain ⟨hpn,han,hdisj⟩ := List.nodup_append'.mp h.nodup
  have hka : k∉answered := fun ha => hdisj hk ha
  refine ⟨fun j hj => ?_,?_⟩
  · rw [List.mem_append,List.mem_append,List.mem_singleton,List.mem_filter] at hj
    apply h.lt j
    rw [List.mem_append]
    obtain hj|hj|hj := hj
    · exact Or.inl hj.1
    · exact Or.inr hj
    · exact Or.inl (hj ▸ hk)
  · refine (hpn.filter _).append (han.append (List.nodup_singleton k) ?_) ?_
    · intro j hj hj'
      exact hka (List.mem_singleton.mp hj' ▸ hj)
    · intro j hj hj'
      obtain ⟨hjp,hne⟩ := List.mem_filter.mp hj
      cases List.mem_append.mp hj' with
      | inl ha => exact hdisj hjp ha
      | inr he => simp [List.mem_singleton.mp he] at hne

/-- A request that may be refused uses its number up all the same. -/
theorem issue_if {α : Type*} {key : α → ℕ} {tasks : List α} {task : α} {c : Prop} [Decidable c]
    (h : Tickets next (tasks.map key) answered) (hk : key task=next) :
    Tickets (next+1) ((if c then tasks++[task] else tasks).map key) answered := by
  split_ifs
  · rw [List.map_append]
    exact h.issue (Nat.le_succ _) (by simp [hk]) (List.nodup_singleton _)
  · exact h.mono (Nat.le_succ _)

theorem mem_of_mem_issued {α : Type*} {tasks : List α} {task other : α} {c : Prop} [Decidable c]
    (h : other∈if c then tasks++[task] else tasks) : other∈tasks ∨ other=task := by
  split_ifs at h
  · simpa using h
  · exact Or.inl h

theorem answered_nodup (h : Tickets next pending answered) : answered.Nodup :=
  (List.nodup_append'.mp h.nodup).2.1

end Tickets

end Framework
