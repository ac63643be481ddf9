import Mathlib.Data.List.Perm.Basic
import Mathlib.Data.List.Nodup

namespace Framework

open scoped List

variable {α β : Type*}

/-- Deletion in an unordered table: the last entry takes the vacated position. -/
def moveLastOver (xs : List α) (p : ℕ) : List α :=
  match xs.getLast? with
  | none => xs
  | some x => (xs.set p x).dropLast

/-- Replacing an entry by one with the same key leaves the keys alone. -/
theorem map_set_of_eq {f : α → β} {xs : List α} {p : ℕ} {x y : α}
    (hp : xs[p]?=some x) (hf : f y=f x) : (xs.set p y).map f=xs.map f := by
  obtain ⟨hlt,rfl⟩ := List.getElem?_eq_some_iff.mp hp
  have hlen : p<(xs.map f).length := by simpa using hlt
  have hmap : f xs[p]=(xs.map f)[p] := by simp
  rw [List.map_set,hf,hmap,List.set_getElem_self]

theorem getElem?_moveLastOver (xs : List α) (p j : ℕ) :
    (moveLastOver xs p)[j]?=
      if j+1<xs.length then (if j=p then xs[xs.length-1]? else xs[j]?) else none := by
  unfold moveLastOver
  cases h : xs.getLast? with
  | none =>
    have he : xs=[] := List.getLast?_eq_none_iff.mp h
    simp [he]
  | some x =>
    have hx : xs[xs.length-1]?=some x := by rw [← List.getLast?_eq_getElem?]; exact h
    rw [List.getElem?_dropLast,List.length_set]
    by_cases hj : j+1<xs.length
    · rw [if_pos (by omega),if_pos hj,List.getElem?_set]
      by_cases hp : j=p
      · subst hp
        simp [hx,show j<xs.length by omega]
      · simp [hp,Ne.symm hp]
    · rw [if_neg (by omega),if_neg hj]

theorem map_moveLastOver (f : α → β) (xs : List α) (p : ℕ) :
    (moveLastOver xs p).map f=moveLastOver (xs.map f) p := by
  apply List.ext_getElem?
  intro j
  rw [List.getElem?_map,getElem?_moveLastOver,getElem?_moveLastOver,List.length_map]
  split_ifs <;> simp

/-- Only the deleted entry goes; the others merely change places. -/
theorem moveLastOver_perm {xs : List α} {p : ℕ} {x : α} (h : xs[p]?=some x) :
    (x::moveLastOver xs p).Perm xs := by
  obtain ⟨hp,rfl⟩ := List.getElem?_eq_some_iff.mp h
  rcases xs.eq_nil_or_concat' with rfl|⟨ys,y,rfl⟩
  · simp at hp
  have hm : moveLastOver (ys++[y]) p=((ys++[y]).set p y).dropLast := by
    simp [moveLastOver]
  rw [hm]
  by_cases hl : p<ys.length
  · rw [List.set_append_left _ _ hl,List.dropLast_concat,List.getElem_append_left hl]
    calc ys[p]::ys.set p y
      _ ~ ys[p]::y::ys.eraseIdx p := (List.set_perm_cons_eraseIdx hl y).cons _
      _ ~ y::ys[p]::ys.eraseIdx p := List.Perm.swap _ _ _
      _ ~ y::ys := (List.getElem_cons_eraseIdx_perm hl).cons _
      _ ~ ys++[y] := (List.perm_append_singleton y ys).symm
  · have he : p=ys.length := by simp at hp; omega
    subst he
    simpa using (List.perm_append_singleton y ys).symm

theorem mem_of_mem_moveLastOver {xs : List α} {p : ℕ} {x : α} (h : x∈moveLastOver xs p) :
    x∈xs := by
  unfold moveLastOver at h
  cases hl : xs.getLast? with
  | none => simpa [hl] using h
  | some y =>
    rw [hl] at h
    cases List.mem_or_eq_of_mem_set (List.dropLast_subset _ h) with
    | inl hx => exact hx
    | inr heq =>
      subst heq
      exact List.mem_of_getLast? hl

theorem nodup_moveLastOver {xs : List α} {p : ℕ} (hn : xs.Nodup) (hp : p<xs.length) :
    (moveLastOver xs p).Nodup := by
  have h := (moveLastOver_perm (List.getElem?_eq_getElem hp)).nodup_iff.mpr hn
  exact (List.nodup_cons.mp h).2

/-- The entry `o`, once found at position `r`, is still there exactly while
`kept` holds. Entries only ever move towards the front, so an entry that has
left its position never comes back to it. -/
structure Tracked (xs : List α) (o : α) (r : ℕ) (kept : Prop) : Prop where
  found : kept → xs[r]?=some o
  lost : ¬kept → ∀j,xs[j]?=some o → j<r

namespace Tracked

variable {xs : List α} {o : α} {r : ℕ} {kept : Prop}

theorem resolves_iff (h : Tracked xs o r kept) : xs[r]?=some o ↔ kept := by
  constructor
  · intro hr
    by_contra hk
    exact Nat.lt_irrefl r (h.lost hk r hr)
  · exact h.found

theorem start (hr : xs[r]?=some o) (hk : kept) : Tracked xs o r kept :=
  ⟨fun _ => hr,fun hn => absurd hk hn⟩

theorem congr {kept' : Prop} (h : Tracked xs o r kept) (hk : kept ↔ kept') :
    Tracked xs o r kept' :=
  ⟨fun k => h.found (hk.mpr k),fun k => h.lost (fun k' => k (hk.mp k'))⟩

/-- Appending a different entry moves nothing. -/
theorem append {a : α} (h : Tracked xs o r kept) (ha : a≠o) :
    Tracked (xs++[a]) o r kept := by
  refine ⟨fun hk => ?_,fun hk j hj => h.lost hk j ?_⟩
  · obtain ⟨hr,_⟩ := List.getElem?_eq_some_iff.mp (h.found hk)
    rw [List.getElem?_append_left hr]
    exact h.found hk
  · cases Nat.lt_or_ge j xs.length with
    | inl hl => rwa [List.getElem?_append_left hl] at hj
    | inr hl =>
      rw [List.getElem?_append_right hl] at hj
      have hm := List.mem_of_getElem? hj
      exact absurd (List.mem_singleton.mp hm).symm ha

/-- Deleting at `p` disturbs position `r` if it is `p` or the last position. -/
theorem delete {p : ℕ} (h : Tracked xs o r kept) (hn : xs.Nodup) :
    Tracked (moveLastOver xs p) o r (kept ∧ p≠r ∧ xs.length≠r+1) := by
  refine ⟨fun ⟨hk,hpr,hlen⟩ => ?_,fun hk j hj => ?_⟩
  · have hr := h.found hk
    obtain ⟨hlt,_⟩ := List.getElem?_eq_some_iff.mp hr
    rw [getElem?_moveLastOver,if_pos (by omega),if_neg (Ne.symm hpr)]
    exact hr
  · have hlt : j+1<xs.length := by
      by_contra hge
      rw [getElem?_moveLastOver,if_neg hge] at hj
      simp at hj
    -- the position the entry had before the deletion
    have hbefore : ∃k,xs[k]?=some o ∧ j≤k ∧ k≠p := by
      rw [getElem?_moveLastOver,if_pos hlt] at hj
      by_cases he : j=p
      · rw [if_pos he] at hj
        exact ⟨xs.length-1,hj,by omega,by omega⟩
      · rw [if_neg he] at hj
        exact ⟨j,hj,Nat.le_refl j,he⟩
    obtain ⟨k,hk',hjk,hkp⟩ := hbefore
    by_cases hkept : kept
    · have hr := h.found hkept
      obtain ⟨hrl,_⟩ := List.getElem?_eq_some_iff.mp hr
      have hkr : k=r := ((List.getElem?_inj hrl hn).mp (hr.trans hk'.symm)).symm
      have hlast : xs.length=r+1 := by
        by_contra hl
        exact hk ⟨hkept,fun hpr => hkp (hkr.trans hpr.symm),hl⟩
      omega
    · exact Nat.lt_of_le_of_lt hjk (h.lost hkept k hk')

end Tracked

end Framework
