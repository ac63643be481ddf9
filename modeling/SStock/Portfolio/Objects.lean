import SStock.Model.Realm
import Mathlib.Logic.Function.Basic

namespace SStock

open Framework

variable {P : Type}

/-- The portfolio for its user: what each object holds, with no positions. -/
abbrev Contents (P : Type) := ℕ → Option (RealmStock P)

namespace Contents

def insert (c : Contents P) (obj : ℕ) (stock : RealmStock P) : Contents P :=
  Function.update c obj (some stock)

def erase (c : Contents P) (obj : ℕ) : Contents P := Function.update c obj none

/-- A quote for `obj` reaches it if it exists and nothing otherwise. -/
def refresh (c : Contents P) (obj : ℕ) (quote : Quote P) : Contents P :=
  Function.update c obj ((c obj).map fun stock => stock.setQuote quote)

end Contents

namespace Realm

variable {m m' : Realm P}

/-- The object at a row of `realmTableData`, `none` when the index is out of
range. -/
def objAt (m : Realm P) (r : ℕ) : Option ℕ := m.rows[r]?.map Row.obj

def contents (m : Realm P) : Contents P := fun obj =>
  (m.rows.find? fun row => row.obj=obj).map Row.stock

theorem contents_eq_some {obj : ℕ} {stock : RealmStock P} :
    m.contents obj=some stock ↔ (⟨obj,stock⟩ : Row P)∈m.rows := by
  constructor
  · intro h
    obtain ⟨row,hf,rfl⟩ := Option.map_eq_some_iff.mp h
    have ho : row.obj=obj := by simpa using List.find?_some hf
    subst ho
    exact List.mem_of_find?_eq_some hf
  · intro h
    cases hf : m.rows.find? fun row => decide (row.obj=obj) with
    | none => simpa using List.find?_eq_none.mp hf _ h
    | some row =>
      have ho : row.obj=obj := by simpa using List.find?_some hf
      have he : row=⟨obj,stock⟩ := List.inj_on_of_nodup_map m.logged.nodup
        (List.mem_of_find?_eq_some hf) h ho
      simp [contents,hf,he]

theorem contents_of_getElem? {r : ℕ} {row : Row P} (h : m.rows[r]?=some row) :
    m.contents row.obj=some row.stock :=
  contents_eq_some.mpr (List.mem_of_getElem? h)

theorem contents_add (task : ℕ) (stock : RealmStock P) :
    (m.add task stock).contents=m.contents.insert m.log.length stock := by
  funext obj
  apply Option.ext
  intro st
  rw [contents_eq_some,rows_add,List.mem_append,← contents_eq_some,Contents.insert]
  by_cases ho : obj=m.log.length
  · subst ho
    have hnone : m.contents m.log.length=none := by
      rw [Option.eq_none_iff_forall_ne_some]
      intro st' hs
      exact Nat.lt_irrefl _ (m.logged.obj_lt (contents_eq_some.mp hs))
    simp [hnone,eq_comm]
  · simp [ho]

/-- Deleting a row erases its object, wherever the last row goes. -/
theorem contents_delete {r : ℕ} {row : Row P} (hd : m.delete? r=some m')
    (hr : m.rows[r]?=some row) : m'.contents=m.contents.erase row.obj := by
  obtain ⟨row',hr',hrows,_⟩ := delete?_eq_some hd
  obtain rfl : row=row' := Option.some.inj (hr.symm.trans hr')
  have hperm := moveLastOver_perm hr
  have hnd := (hperm.map Row.obj).nodup_iff.mpr m.logged.nodup
  have hout : row.obj∉(moveLastOver m.rows r).map Row.obj := (List.nodup_cons.mp hnd).1
  funext obj
  apply Option.ext
  intro st
  rw [contents_eq_some,hrows,Contents.erase]
  by_cases ho : obj=row.obj
  · subst ho
    simp only [Function.update_self,reduceCtorEq,iff_false]
    intro hm
    exact hout (List.mem_map.mpr ⟨_,hm,rfl⟩)
  · have hne : (⟨obj,st⟩ : Row P)≠row := fun he => ho (congrArg Row.obj he)
    rw [Function.update_of_ne ho,contents_eq_some,← hperm.mem_iff,List.mem_cons]
    simp [hne]

/-- Writing through a row index refreshes the object that is there now. -/
theorem contents_write {r task : ℕ} {data : RealmStock P} {row : Row P}
    (hw : m.write? r task data=some m') (hr : m.rows[r]?=some row) :
    m'.contents=m.contents.refresh row.obj data.quote := by
  obtain ⟨row',hr',hrows,_⟩ := write?_eq_some hw
  obtain rfl : row=row' := Option.some.inj (hr.symm.trans hr')
  have hself := contents_of_getElem? hr
  have hlt := (List.getElem?_eq_some_iff.mp hr).1
  have hset : m'.rows[r]?=some ⟨row.obj,row.stock.setQuote data.quote⟩ := by
    rw [hrows,List.getElem?_set_self hlt]
  funext obj
  rw [Contents.refresh]
  by_cases ho : obj=row.obj
  · subst ho
    rw [Function.update_self,hself]
    exact contents_of_getElem? hset
  · rw [Function.update_of_ne ho]
    apply Option.ext
    intro st
    rw [contents_eq_some,contents_eq_some,List.mem_iff_getElem?,List.mem_iff_getElem?]
    apply exists_congr
    intro j
    rw [hrows,List.getElem?_set]
    split_ifs with hj
    · subst hj
      have hne : row≠⟨obj,st⟩ := fun he => ho (congrArg Row.obj he).symm
      simp [hr,hne,Ne.symm ho]
    · rfl

end Realm

end SStock
