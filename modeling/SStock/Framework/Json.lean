import Mathlib.Algebra.Notation.Defs
import Mathlib.Data.Set.List
import Mathlib.Tactic.Common

namespace Framework

/-- A JSON value whose numbers are taken from `N`. An object is the list of its
members; a key is looked up at its first occurrence. -/
inductive Json (N : Type) where
  | null
  | bool (b : Bool)
  | number (x : N)
  | string (s : String)
  | array (items : List (Json N))
  | object (members : List (String × Json N))

namespace Json

variable {N : Type}

def asString : Json N → Option String
  | .string s => some s
  | _ => none

def asArray : Json N → Option (List (Json N))
  | .array items => some items
  | _ => none

def asObject : Json N → Option (List (String × Json N))
  | .object members => some members
  | _ => none

/-- Cast to a floating-point number. A boolean is a number object too and is
read as one or zero. -/
def asDouble [Zero N] [One N] : Json N → Option N
  | .number x => some x
  | .bool b => some (if b then 1 else 0)
  | _ => none

/-- A cast of a container to one with typed elements needs every element. -/
def asArrays (j : Json N) : Option (List (List (Json N))) :=
  j.asArray.bind fun items => items.mapM asArray

def asObjects (j : Json N) : Option (List (List (String × Json N))) :=
  j.asArray.bind fun items => items.mapM asObject

def asStrings (j : Json N) : Option (List (String × String)) :=
  j.asObject.bind fun members => members.mapM fun m => m.2.asString.map (m.1,·)

@[simp] theorem asString_eq_some {j : Json N} {s : String} :
    j.asString=some s ↔ j=.string s := by cases j <;> simp [asString]

@[simp] theorem asArray_eq_some {j : Json N} {items : List (Json N)} :
    j.asArray=some items ↔ j=.array items := by cases j <;> simp [asArray]

@[simp] theorem asObject_eq_some {j : Json N} {members : List (String × Json N)} :
    j.asObject=some members ↔ j=.object members := by cases j <;> simp [asObject]

/-- Casting every element of a list, by a cast that undoes a constructor. -/
theorem mapM_eq_some_iff {α β : Type} {cast : α → Option β} {make : β → α}
    (h : ∀a b,cast a=some b ↔ a=make b) {items : List α} {values : List β} :
    items.mapM cast=some values ↔ items=values.map make := by
  induction items generalizing values with
  | nil => cases values <;> simp
  | cons a items ih =>
    cases values with
    | nil => simp [List.mapM_cons,Option.bind_eq_some_iff]
    | cons b values => simp [List.mapM_cons,Option.bind_eq_some_iff,h,ih]

/-- A list of objects is given by the list of their members. -/
theorem exists_map_object {items : List (Json N)} :
    (∃rows : List (List (String × Json N)),items=rows.map .object) ↔
      ∀j∈items,∃members,j=.object members := by
  have hrange := Set.ext_iff.mp (Set.range_list_map (Json.object (N := N))) items
  simpa [eq_comm] using hrange

theorem asArrays_eq_some {j : Json N} {rows : List (List (Json N))} :
    j.asArrays=some rows ↔ j=.array (rows.map .array) := by
  simp [asArrays,Option.bind_eq_some_iff,mapM_eq_some_iff (fun _ _ => asArray_eq_some)]

theorem asObjects_eq_some {j : Json N} {items : List (List (String × Json N))} :
    j.asObjects=some items ↔ j=.array (items.map .object) := by
  simp [asObjects,Option.bind_eq_some_iff,mapM_eq_some_iff (fun _ _ => asObject_eq_some)]

end Json

/-- How a reply handler ends: it traps, returns early, or calls its completion. -/
inductive Handled (α : Type) where
  | trapped
  | returned
  | completed (a : α)
  deriving DecidableEq

namespace Handled

variable {α β : Type}

def bind : Handled α → (α → Handled β) → Handled β
  | trapped,_ => trapped
  | returned,_ => returned
  | completed a,f => f a

instance : Monad Handled where
  pure := completed
  bind := bind

/-- A `guard let`: without a value the handler returns. -/
def orReturn : Option α → Handled α
  | none => returned
  | some a => completed a

/-- A forced cast or subscript: without a value the handler traps. -/
def orTrap : Option α → Handled α
  | none => trapped
  | some a => completed a

/-- The value handed to the completion, if it is called. -/
def result : Handled α → Option α
  | completed a => some a
  | _ => none

@[simp] theorem result_eq_some {x : Handled α} {a : α} : x.result=some a ↔ x=completed a := by
  cases x <;> simp [result]

@[simp] theorem pure_eq (a : α) : (pure a : Handled α)=completed a := rfl

@[simp] theorem completed_bind (a : α) (f : α → Handled β) : (completed a >>= f)=f a := rfl

@[simp] theorem returned_bind (f : α → Handled β) : (returned >>= f)=returned := rfl

@[simp] theorem bind_eq_completed {x : Handled α} {f : α → Handled β} {b : β} :
    x >>= f=completed b ↔ ∃a,x=completed a ∧ f a=completed b := by
  change bind x f=_ ↔ _
  cases x <;> simp [bind]

@[simp] theorem orReturn_eq_completed {x : Option α} {a : α} :
    orReturn x=completed a ↔ x=some a := by cases x <;> simp [orReturn]

@[simp] theorem orTrap_eq_completed {x : Option α} {a : α} :
    orTrap x=completed a ↔ x=some a := by cases x <;> simp [orTrap]

/-- Forced casts in a row are one forced cast. -/
theorem orTrap_map_bind {γ : Type} (x : Option α) (f : α → Option β) (g : β → γ) :
    orTrap ((x.bind f).map g)=orTrap x >>= fun a => orTrap ((f a).map g) := by
  cases x <;> rfl

end Handled

end Framework
