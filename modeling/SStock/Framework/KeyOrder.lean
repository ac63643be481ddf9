import SStock.Framework.Deliveries
import Mathlib.Data.List.Sort

namespace Framework

variable {K V W : Type}

/-- The values that are kept, under their keys. -/
def keepValues (f : V → Option W) (l : List (K × V)) : List (K × W) :=
  l.filterMap fun m => (f m.2).map (Prod.mk m.1)

theorem keepValues_values (f : V → Option W) (l : List (K × V)) :
    (keepValues f l).map Prod.snd=l.filterMap fun m => f m.2 := by
  rw [keepValues,List.map_filterMap]
  congr 1
  funext m
  cases f m.2 <;> rfl

theorem keepValues_keys_sublist (f : V → Option W) (l : List (K × V)) :
    ((keepValues f l).map Prod.fst).Sublist (l.map Prod.fst) := by
  apply filterMap_keys_sublist
  intro m kept h
  obtain ⟨w,_,rfl⟩ := Option.map_eq_some_iff.mp h
  rfl

/-- Arrangements of distinct values are told apart by the values alone. -/
theorem eq_of_perm_of_values {l l' : List (K × V)} (hl : l.Perm l') (hv : (l'.map Prod.snd).Nodup)
    (h : l.map Prod.snd=l'.map Prod.snd) : l=l' := by
  refine List.ext_getElem hl.length_eq fun j hj hj' => ?_
  have hsnd : l[j].2=l'[j].2 := by
    have hget := congrArg (fun values => values[j]?) h
    simpa [hj,hj'] using hget
  have hmem : l[j]∈l' := hl.mem_iff.mp (List.getElem_mem hj)
  exact List.inj_on_of_nodup_map hv hmem (List.getElem_mem hj') hsnd

section Order

variable [LinearOrder K]

def KeyLe (a b : K × V) : Prop := a.1 ≤ b.1

instance : DecidableRel (KeyLe : K × V → K × V → Prop) :=
  fun a b => inferInstanceAs (Decidable (a.1 ≤ b.1))

instance : Std.Total (KeyLe : K × V → K × V → Prop) := ⟨fun a b => le_total a.1 b.1⟩

instance : IsTrans (K × V) KeyLe := ⟨fun _ _ _ hab hbc => le_trans hab hbc⟩

/-- Keyed values, smallest key first. -/
def inKeyOrder (l : List (K × V)) : List (K × V) := l.insertionSort KeyLe

theorem inKeyOrder_perm (l : List (K × V)) : (inKeyOrder l).Perm l :=
  List.perm_insertionSort KeyLe l

theorem inKeyOrder_pairwise (l : List (K × V)) : (inKeyOrder l).Pairwise KeyLe :=
  List.pairwise_insertionSort KeyLe l

theorem inKeyOrder_eq_self {l : List (K × V)} (h : l.Pairwise KeyLe) : inKeyOrder l=l :=
  h.insertionSort_eq

/-- With distinct keys there is one ordered arrangement. -/
theorem eq_inKeyOrder_of_perm {l l' : List (K × V)} (hl : l.Perm l') (hk : (l'.map Prod.fst).Nodup)
    (ho : l.Pairwise KeyLe) : l=inKeyOrder l' := by
  have hperm : l.Perm (inKeyOrder l') := hl.trans (inKeyOrder_perm l').symm
  refine List.Perm.eq_of_pairwise ?_ ho (inKeyOrder_pairwise l') hperm
  intro a b ha hb hab hba
  exact List.inj_on_of_nodup_map hk (hl.mem_iff.mp ha) ((inKeyOrder_perm l').mem_iff.mp hb)
    (le_antisymm hab hba)

theorem inKeyOrder_eq_of_perm {l l' : List (K × V)} (hl : l.Perm l')
    (hk : (l'.map Prod.fst).Nodup) : inKeyOrder l=inKeyOrder l' :=
  eq_inKeyOrder_of_perm ((inKeyOrder_perm l).trans hl) hk (inKeyOrder_pairwise l)

/-- Keeping values and arranging by key commute. -/
theorem keepValues_inKeyOrder (f : V → Option W) {l : List (K × V)}
    (hk : (l.map Prod.fst).Nodup) : keepValues f (inKeyOrder l)=inKeyOrder (keepValues f l) := by
  apply eq_inKeyOrder_of_perm
  · exact (inKeyOrder_perm l).filterMap _
  · exact hk.sublist (keepValues_keys_sublist f l)
  · refine (inKeyOrder_pairwise l).filterMap _ ?_
    intro a b hab a' ha' b' hb'
    obtain ⟨w,_,rfl⟩ := Option.map_eq_some_iff.mp ha'
    obtain ⟨w',_,rfl⟩ := Option.map_eq_some_iff.mp hb'
    exact hab

end Order

end Framework
