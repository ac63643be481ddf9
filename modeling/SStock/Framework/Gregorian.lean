import Mathlib.Data.Nat.Basic
import Mathlib.Data.Prod.Lex
import Mathlib.Order.Monotone.Basic
import Mathlib.Tactic.Common

namespace Framework.Gregorian

def isLeap (year : ℕ) : Bool := 4 ∣ year ∧ (¬100 ∣ year ∨ 400 ∣ year)

def daysInMonth (year : ℕ) : ℕ → ℕ
  | 2 => if isLeap year then 29 else 28
  | 4 | 6 | 9 | 11 => 30
  | _ => 31

/-- Days of the year before the first of a month. -/
def daysBefore (year : ℕ) : ℕ → ℕ
  | 0 => 0
  | 1 => 0
  | month+2 => daysBefore year (month+1)+daysInMonth year (month+1)

def yearLength (year : ℕ) : ℕ := if isLeap year then 366 else 365

/-- Days before the first of January, counted from year 1. -/
def yearStart (year : ℕ) : ℕ :=
  365*(year-1)+(year-1)/4-(year-1)/100+(year-1)/400

/-- A day of the Gregorian calendar from the first of January of year 1 on. -/
structure Date where
  year : ℕ
  month : ℕ
  day : ℕ
  year_pos : 1≤year
  month_pos : 1 ≤ month
  month_le : month≤12
  day_pos : 1≤day
  day_le : day≤daysInMonth year month
  deriving DecidableEq

theorem yearStart_succ {year : ℕ} (h : 1≤year) :
    yearStart (year+1)=yearStart year+yearLength year := by
  obtain ⟨n,rfl⟩ := Nat.exists_eq_add_of_le' h
  have hcentury : 100 ∣ n+1 → 4 ∣ n+1 := Nat.dvd_trans (by decide)
  have hfour : 400 ∣ n+1 → 100 ∣ n+1 := Nat.dvd_trans (by decide)
  have hle : n/100≤n/4 := Nat.div_le_div_left (by decide) (by decide)
  simp only [yearStart,yearLength,isLeap,decide_eq_true_eq,Nat.add_sub_cancel,Nat.succ_div]
  generalize n/4=a,n/100=b,n/400=c at hle ⊢
  by_cases h4 : 4 ∣ n+1
  · by_cases h100 : 100 ∣ n+1
    · by_cases h400 : 400 ∣ n+1
      · simp only [h4,h100,h400,not_true,or_true,and_true,if_true]
        omega
      · simp only [h4,h100,h400,not_true,or_false,and_false,if_true,if_false]
        omega
    · have h400 : ¬400 ∣ n+1 := mt hfour h100
      simp only [h4,h100,h400,not_false_eq_true,true_or,and_true,if_true,if_false]
      omega
  · have h100 : ¬100 ∣ n+1 := mt hcentury h4
    have h400 : ¬400 ∣ n+1 := mt hfour h100
    simp only [h4,h100,h400,false_and,if_false]
    omega

theorem daysBefore_succ (year : ℕ) {month : ℕ} (h : 1 ≤ month) :
    daysBefore year (month+1)=daysBefore year month+daysInMonth year month := by
  obtain ⟨m,rfl⟩ := Nat.exists_eq_add_of_le' h
  rfl

theorem daysBefore_year (year : ℕ) : daysBefore year 13=yearLength year := by
  simp only [daysBefore,daysInMonth,yearLength]
  split_ifs <;> rfl

theorem daysInMonth_bounds (year month : ℕ) :
    28≤daysInMonth year month ∧ daysInMonth year month≤31 := by
  unfold daysInMonth
  split
  · split_ifs <;> decide
  all_goals decide

theorem daysBefore_mono (year : ℕ) : Monotone (daysBefore year) := by
  refine monotone_nat_of_le_succ fun month => ?_
  cases month with
  | zero => exact Nat.le_refl _
  | succ month => exact Nat.le_add_right _ _

theorem yearStart_mono : Monotone yearStart := by
  refine monotone_nat_of_le_succ fun year => ?_
  cases year with
  | zero => decide
  | succ year =>
    rw [yearStart_succ (Nat.le_add_left 1 year)]
    exact Nat.le_add_right _ _

namespace Date

/-- The number of the day; the first of January of year 1 is day 1, a Monday. -/
def dayNumber (d : Date) : ℕ := yearStart d.year+daysBefore d.year d.month+d.day

/-- Days since Sunday. -/
def weekday (d : Date) : ℕ := d.dayNumber%7

example : weekday ⟨2016,1,1,by decide,by decide,by decide,by decide,by decide⟩=5 := by decide

/-- The day before. -/
def prev (d : Date) : Option Date :=
  if hd : 1<d.day then
    some {d with
      day := d.day-1
      day_pos := Nat.le_sub_one_of_lt hd
      day_le := (Nat.sub_le _ _).trans d.day_le}
  else if hm : 1<d.month then
    some {
      year := d.year
      month := d.month-1
      day := daysInMonth d.year (d.month-1)
      year_pos := d.year_pos
      month_pos := Nat.le_sub_one_of_lt hm
      month_le := (Nat.sub_le _ _).trans d.month_le
      day_pos := (daysInMonth_bounds _ _).1.trans' (by decide)
      day_le := Nat.le_refl _}
  else if hy : 1<d.year then
    some {
      year := d.year-1
      month := 12
      day := 31
      year_pos := Nat.le_sub_one_of_lt hy
      month_pos := by decide
      month_le := by decide
      day_pos := by decide
      day_le := Nat.le_refl 31}
  else none

/-- Subtraction of days; `none` before year 1. -/
def minusDays (d : Date) : ℕ → Option Date
  | 0 => some d
  | n+1 => (d.minusDays n).bind prev

/-- Year, month and day, in this order of weight. -/
def key (d : Date) : ℕ ×ₗ ℕ ×ₗ ℕ := toLex (d.year,toLex (d.month,d.day))

theorem key_injective : Function.Injective key := by
  intro d e h
  have hy : d.year=e.year ∧ d.month=e.month ∧ d.day=e.day := by simpa [key] using h
  cases d
  cases e
  simp_all

theorem dayNumber_le_month (d : Date) :
    d.dayNumber≤yearStart d.year+daysBefore d.year (d.month+1) := by
  have hle := d.day_le
  rw [dayNumber,daysBefore_succ d.year d.month_pos]
  omega

theorem dayNumber_bounds (d : Date) :
    yearStart d.year<d.dayNumber ∧ d.dayNumber≤yearStart (d.year+1) := by
  have hpos := d.day_pos
  have hmonth := d.dayNumber_le_month
  have hlast : daysBefore d.year (d.month+1)≤yearLength d.year :=
    daysBefore_year d.year ▸ daysBefore_mono d.year (Nat.succ_le_succ d.month_le)
  rw [yearStart_succ d.year_pos]
  rw [dayNumber] at hmonth ⊢
  omega

/-- The year of a day is known from its number. -/
theorem year_of_bounds {d : Date} {year : ℕ} (h : yearStart year<d.dayNumber)
    (h' : d.dayNumber≤yearStart (year+1)) : d.year=year := by
  have hd := d.dayNumber_bounds
  apply Nat.le_antisymm
  · by_contra hlt
    have hmono : yearStart (year+1)≤yearStart d.year := yearStart_mono (Nat.lt_of_not_le hlt)
    omega
  · by_contra hlt
    have hmono : yearStart (d.year+1)≤yearStart year := yearStart_mono (Nat.lt_of_not_le hlt)
    omega

/-- A day with an earlier day before it, and that day's number. -/
theorem prev_of_lt {d : Date} (h : 1<d.dayNumber) :
    ∃e,d.prev=some e ∧ e.dayNumber+1=d.dayNumber := by
  have hpos := d.day_pos
  unfold prev
  split_ifs with hd hm hy
  · refine ⟨_,rfl,?_⟩
    simp only [dayNumber]
    omega
  · refine ⟨_,rfl,?_⟩
    have hb := daysBefore_succ d.year (Nat.le_sub_one_of_lt hm)
    rw [Nat.sub_add_cancel d.month_pos] at hb
    simp only [dayNumber]
    omega
  · refine ⟨_,rfl,?_⟩
    have hs := yearStart_succ (Nat.le_sub_one_of_lt hy)
    have hl := daysBefore_year (d.year-1)
    rw [Nat.sub_add_cancel d.year_pos] at hs
    rw [daysBefore_succ _ (by decide)] at hl
    have hone : d.month=1 := Nat.le_antisymm (Nat.le_of_not_lt hm) d.month_pos
    have hdec : daysInMonth (d.year-1) 12=31 := rfl
    have hzero : daysBefore d.year 1=0 := rfl
    simp only [dayNumber,hone]
    omega
  · exfalso
    have hone : d.month=1 := Nat.le_antisymm (Nat.le_of_not_lt hm) d.month_pos
    have hyear : d.year=1 := Nat.le_antisymm (Nat.le_of_not_lt hy) d.year_pos
    have hzero : yearStart 1+daysBefore 1 1=0 := rfl
    rw [dayNumber,hone,hyear] at h
    omega

/-- Subtraction of days is subtraction of day numbers. -/
theorem minusDays_of_lt {d : Date} {n : ℕ} (h : n<d.dayNumber) :
    ∃e,d.minusDays n=some e ∧ e.dayNumber+n=d.dayNumber := by
  induction n with
  | zero => exact ⟨d,rfl,rfl⟩
  | succ n ih =>
    obtain ⟨e,he,hn⟩ := ih (Nat.lt_of_succ_lt h)
    obtain ⟨f,hf,hp⟩ := prev_of_lt (d := e) (by omega)
    refine ⟨f,?_,by omega⟩
    rw [minusDays,he]
    exact hf

/-- Days in calendar order are numbered in this order. -/
theorem dayNumber_lt_of_key_lt {d e : Date} (h : d.key<e.key) : d.dayNumber<e.dayNumber := by
  have hd := d.dayNumber_bounds
  have he := e.dayNumber_bounds
  rw [key,key,Prod.Lex.toLex_lt_toLex] at h
  cases h with
  | inl hy =>
    have hmono : yearStart (d.year+1)≤yearStart e.year := yearStart_mono hy
    omega
  | inr h =>
    have hy : d.year=e.year := h.1
    have hlast := d.dayNumber_le_month
    have hpos := e.day_pos
    have hrest := h.2
    rw [Prod.Lex.toLex_lt_toLex] at hrest
    cases hrest with
    | inl hm =>
      have hmono : daysBefore d.year (d.month+1)≤daysBefore d.year e.month :=
        daysBefore_mono d.year hm
      have hnum : e.dayNumber=yearStart d.year+daysBefore d.year e.month+e.day := by
        rw [hy]
        rfl
      omega
    | inr h =>
      have hm : d.month=e.month := h.1
      have hday : d.day<e.day := h.2
      rw [dayNumber,dayNumber,hy,hm]
      omega

instance : LinearOrder Date := LinearOrder.lift' key key_injective

theorem dayNumber_strictMono : StrictMono dayNumber := fun _ _ => dayNumber_lt_of_key_lt

theorem dayNumber_lt_iff {d e : Date} : d.dayNumber<e.dayNumber ↔ d<e :=
  dayNumber_strictMono.lt_iff_lt

theorem year_mono : Monotone year := fun _ _ h => Prod.Lex.monotone_fst _ _ h

/-- Two days less than four weeks apart in different years are in December and
in the January that follows. -/
theorem across_newYear {d e : Date} {n : ℕ} (hn : n<28) (h : e.dayNumber+n=d.dayNumber)
    (hy : e.year<d.year) : e.year+1=d.year ∧ e.month=12 ∧ d.month=1 := by
  have hd := d.dayNumber_bounds
  have he := e.dayNumber_bounds
  have hnext : e.year+1=d.year := by
    by_contra hne
    have hmono : yearStart (e.year+1+1)≤yearStart d.year := yearStart_mono (by omega)
    have hlen : 365≤yearLength (e.year+1) := by
      unfold yearLength
      split_ifs <;> decide
    rw [yearStart_succ (Nat.le_add_left 1 e.year)] at hmono
    omega
  refine ⟨hnext,?_,?_⟩
  · by_contra hne
    have hmle := e.month_le
    have hmonth := e.dayNumber_le_month
    have hmono : daysBefore e.year (e.month+1)≤daysBefore e.year 12 :=
      daysBefore_mono e.year (by omega)
    have hlast := daysBefore_succ e.year (show 1≤12 by decide)
    have hlen := daysInMonth_bounds e.year 12
    have hyear := yearStart_succ e.year_pos
    rw [daysBefore_year] at hlast
    rw [hnext] at he hyear
    omega
  · by_contra hne
    have hpos := d.month_pos
    have hday := d.day_pos
    have hmono : daysBefore d.year 2≤daysBefore d.year d.month :=
      daysBefore_mono d.year (by omega)
    have hjan : daysBefore d.year 2=31 := rfl
    have hnum : d.dayNumber=yearStart d.year+daysBefore d.year d.month+d.day := rfl
    rw [hnext] at he
    omega

end Date

end Framework.Gregorian
