import SStock.Framework.Deliveries
import SStock.Framework.MoveLastOver
import SStock.Model.StockManager

namespace SStock

open Framework

variable {P : Type}

/-- A stored object. Its identity `obj` is the place of its insertion in the
transaction log; no handler reads it. -/
structure Row (P : Type) where
  obj : ℕ
  stock : RealmStock P
  deriving DecidableEq

/-- Transaction log of the store. `task` is the data task whose reply caused
the change, `count` the number of rows before a deletion. -/
inductive Change (P : Type) where
  | add (task : ℕ) (stock : RealmStock P)
  | moveLastOver (row count : ℕ) (removed : Row P)
  | write (row obj task : ℕ) (quote : Quote P)

/-- The quotes written to an object, each with the task that brought it. -/
def writes (obj : ℕ) (log : List (Change P)) : List (ℕ × Quote P) :=
  log.filterMap fun
    | .write _ o task quote => if o=obj then some (task,quote) else none
    | _ => none

@[simp] theorem writes_append (obj : ℕ) (log log' : List (Change P)) :
    writes obj (log++log')=writes obj log++writes obj log' := List.filterMap_append

theorem writes_grown {log log' : List (Change P)} (h : log <+: log') (obj : ℕ) :
    writes obj log <+: writes obj log' := h.filterMap _

@[simp] theorem writes_add (obj task : ℕ) (stock : RealmStock P) :
    writes obj [.add task stock]=[] := rfl

@[simp] theorem writes_moveLastOver (obj row count : ℕ) (removed : Row P) :
    writes obj [.moveLastOver row count removed]=[] := rfl

theorem writes_write (obj row o task : ℕ) (quote : Quote P) :
    writes obj [.write row o task quote]=if o=obj then [(task,quote)] else [] := by
  by_cases h : o=obj <;> simp [writes,h]

/-- A write replaces the stock of a row, never its identity. -/
theorem map_obj_set {rows : List (Row P)} {r : ℕ} {row : Row P} (hr : rows[r]?=some row)
    (stock : RealmStock P) : (rows.set r ⟨row.obj,stock⟩).map Row.obj=rows.map Row.obj :=
  map_set_of_eq hr rfl

/-- The rows are what the log says: every row was added once and holds the
quote written to it last. -/
structure Logged (rows : List (Row P)) (log : List (Change P)) : Prop where
  nodup : (rows.map Row.obj).Nodup
  origin : ∀row∈rows,∃task stock,log[row.obj]?=some (.add task stock) ∧
    row.stock=stock.setQuote (lastValue stock.quote (writes row.obj log))
  fresh : ∀obj,log.length≤obj → writes obj log=[]

/-- The table of `RealmStock` objects in row order. -/
structure Realm (P : Type) where
  rows : List (Row P)
  log : List (Change P)
  logged : Logged rows log

namespace Logged

variable {rows : List (Row P)} {log : List (Change P)}

theorem obj_lt (h : Logged rows log) {row : Row P} (hr : row∈rows) : row.obj<log.length := by
  obtain ⟨task,stock,hl,_⟩ := h.origin row hr
  exact (List.getElem?_eq_some_iff.mp hl).1

theorem add (h : Logged rows log) (task : ℕ) (stock : RealmStock P) :
    Logged (rows++[⟨log.length,stock⟩]) (log++[.add task stock]) := by
  refine ⟨?_,?_,?_⟩
  · rw [List.map_append]
    refine List.Nodup.append h.nodup (by simp) ?_
    intro o ho hn
    obtain ⟨row,hr,rfl⟩ := List.mem_map.mp ho
    have he : row.obj=log.length := by simpa using hn
    exact Nat.lt_irrefl _ (he ▸ h.obj_lt hr)
  · intro row hr
    cases List.mem_append.mp hr with
    | inl hr =>
      obtain ⟨task',stock',hl,hs⟩ := h.origin row hr
      exact ⟨task',stock',getElem?_of_grown (List.prefix_append _ _) hl,by simpa using hs⟩
    | inr hr =>
      rw [List.mem_singleton.mp hr]
      exact ⟨task,stock,by simp,by simp [h.fresh]⟩
  · intro obj ho
    rw [List.length_append] at ho
    simp [h.fresh obj (by omega)]

theorem delete (h : Logged rows log) {r : ℕ} {row : Row P} (hr : rows[r]?=some row) :
    Logged (Framework.moveLastOver rows r) (log++[.moveLastOver r rows.length row]) := by
  have hlt := (List.getElem?_eq_some_iff.mp hr).1
  refine ⟨?_,?_,?_⟩
  · rw [map_moveLastOver]
    exact nodup_moveLastOver h.nodup (by simpa using hlt)
  · intro row' hr'
    obtain ⟨task,stock,hl,hs⟩ := h.origin row' (mem_of_mem_moveLastOver hr')
    exact ⟨task,stock,getElem?_of_grown (List.prefix_append _ _) hl,by simpa using hs⟩
  · intro obj ho
    rw [List.length_append] at ho
    simp [h.fresh obj (by omega)]

theorem write (h : Logged rows log) {r : ℕ} {row : Row P} (hr : rows[r]?=some row) (task : ℕ)
    (quote : Quote P) :
    Logged (rows.set r ⟨row.obj,row.stock.setQuote quote⟩)
      (log++[.write r row.obj task quote]) := by
  obtain ⟨hlt,hget⟩ := List.getElem?_eq_some_iff.mp hr
  refine ⟨map_obj_set hr _ ▸ h.nodup,?_,?_⟩
  · intro row' hr'
    obtain ⟨j,hj,hrow'⟩ := List.mem_iff_getElem.mp hr'
    rw [List.getElem_set] at hrow'
    by_cases he : r=j
    · rw [if_pos he] at hrow'
      obtain ⟨task',stock,hl,hs⟩ := h.origin row (List.mem_of_getElem? hr)
      refine ⟨task',stock,?_,?_⟩
      · rw [← hrow']
        exact getElem?_of_grown (List.prefix_append _ _) hl
      · simp [← hrow',writes_write,hs]
    · rw [if_neg he] at hrow'
      rw [List.length_set] at hj
      have hm : row'∈rows := hrow' ▸ List.getElem_mem hj
      have hne : row.obj≠row'.obj := by
        intro ho
        apply he
        have hi : (rows.map Row.obj)[r]?=(rows.map Row.obj)[j]? := by
          simp [hr,List.getElem?_eq_getElem hj,hrow',ho]
        exact (List.getElem?_inj (by simpa using hlt) h.nodup).mp hi
      obtain ⟨task',stock,hl,hs⟩ := h.origin row' hm
      exact ⟨task',stock,getElem?_of_grown (List.prefix_append _ _) hl,
        by simp [writes_write,hne,hs]⟩
  · intro obj ho
    rw [List.length_append] at ho
    have hlt := h.obj_lt (List.mem_of_getElem? hr)
    have hne : row.obj≠obj := by
      simp at ho
      omega
    simp [writes_write,hne,h.fresh obj (by omega)]

end Logged

namespace Realm

/-- `realm.add` appends a row. -/
def add (m : Realm P) (task : ℕ) (stock : RealmStock P) : Realm P :=
  ⟨m.rows++[⟨m.log.length,stock⟩],m.log++[.add task stock],m.logged.add task stock⟩

/-- `realm.delete` of the object at row `r`; an index out of range raises. -/
def delete? (m : Realm P) (r : ℕ) : Option (Realm P) :=
  match h : m.rows[r]? with
  | none => none
  | some row => some
      ⟨moveLastOver m.rows r,m.log++[.moveLastOver r m.rows.length row],m.logged.delete h⟩

/-- The five assignments to `realmTableData[r]` in one write transaction. -/
def write? (m : Realm P) (r task : ℕ) (data : RealmStock P) : Option (Realm P) :=
  match h : m.rows[r]? with
  | none => none
  | some row => some
      ⟨m.rows.set r ⟨row.obj,row.stock.setQuote data.quote⟩,
        m.log++[.write r row.obj task data.quote],m.logged.write h task data.quote⟩

variable {m m' : Realm P}

@[simp] theorem rows_add (task : ℕ) (stock : RealmStock P) :
    (m.add task stock).rows=m.rows++[⟨m.log.length,stock⟩] := rfl

@[simp] theorem log_add (task : ℕ) (stock : RealmStock P) :
    (m.add task stock).log=m.log++[.add task stock] := rfl

theorem delete?_eq_some {r : ℕ} (h : m.delete? r=some m') :
    ∃row,m.rows[r]?=some row ∧ m'.rows=moveLastOver m.rows r ∧
      m'.log=m.log++[.moveLastOver r m.rows.length row] := by
  unfold delete? at h
  split at h
  · simp at h
  · next row hr =>
    cases h
    exact ⟨row,hr,rfl,rfl⟩

theorem delete?_eq_none {r : ℕ} : m.delete? r=none ↔ m.rows[r]?=none := by
  unfold delete?
  split <;> simp_all

theorem write?_eq_some {r task : ℕ} {data : RealmStock P} (h : m.write? r task data=some m') :
    ∃row,m.rows[r]?=some row ∧
      m'.rows=m.rows.set r ⟨row.obj,row.stock.setQuote data.quote⟩ ∧
      m'.log=m.log++[.write r row.obj task data.quote] := by
  unfold write? at h
  split at h
  · simp at h
  · next row hr =>
    cases h
    exact ⟨row,hr,rfl,rfl⟩

theorem write?_eq_none {r task : ℕ} {data : RealmStock P} :
    m.write? r task data=none ↔ m.rows[r]?=none := by
  unfold write?
  split <;> simp_all

end Realm

end SStock
