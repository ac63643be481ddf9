import SStock.Framework.WeekYear
import SStock.Portfolio.DatasetCode
import Mathlib.Data.Set.Basic

namespace SStock

open Framework Gregorian

/-- Year, month and day, in this order of weight. -/
def DateFields.key (d : DateFields) : ℕ ×ₗ ℕ ×ₗ ℕ := toLex (d.year,toLex (d.month,d.day))

/-- The year, month and day of a day in the calendar. -/
def calendarFields (d : Date) : DateFields := ⟨d.year,d.month,d.day⟩

namespace StockManager

variable (r : WeekRule)

/-- What the formatter prints for a day: the letter `Y` is the year its week is
counted to. -/
def dateFields (d : Date) : DateFields := ⟨r.weekYear d,d.month,d.day⟩

def getCurrentDate (now : Date) : String := stringFromDate (dateFields r now)

/-- `none` is the trap of the forced unwrapping of the day four days ago. -/
def getStartDate (now : Date) : Option String :=
  (now.minusDays 4).map fun yesterday => stringFromDate (dateFields r yesterday)

end StockManager

open StockManager

/-- The start dates that the days in `D` lead to: the calendar date four days
before, in a text that grows with the day, and never a date after the one that
the text of the day itself says. -/
structure StartDatesExact (r : WeekRule) (D : Set Date) : Prop where
  exact : ∀d∈D,∃e,d.minusDays 4=some e ∧
    getStartDate r d=some (stringFromDate (calendarFields e))
  increasing : ∀d∈D,∀d'∈D,d<d' → ∀a b,getStartDate r d=some a → getStartDate r d'=some b → a<b
  notLater : ∀d∈D,∀start current,getStartDate r d=some (stringFromDate start) →
    getCurrentDate r d=stringFromDate current → start.key≤current.key

/-- The week of the day four days ago is counted to its calendar year, and that
of the day itself not to the year before. -/
def AwayFromNewYear (r : WeekRule) (d : Date) : Prop :=
  ∀e,d.minusDays 4=some e → r.InOwnYear e ∧ r.weekStart d.year≤d.dayNumber

namespace StockManager

theorem toList_stringFromDate (d : DateFields) : (stringFromDate d).toList=
    Decimal.padded 4 d.year ++ '-'::(Decimal.padded 2 d.month ++ '-'::Decimal.padded 2 d.day) := by
  simp only [stringFromDate,pad,String.toList_append,String.toList_ofList,List.append_assoc]
  rfl

theorem notMem_padded (width n : ℕ) : '-'∉Decimal.padded width n := by
  intro h
  exact absurd (Decimal.isDigit_of_mem_padded h) (by decide)

/-- The fields can be read back from the text. -/
theorem splitOn_stringFromDate (d : DateFields) : (stringFromDate d).toList.splitOn '-'=
    [Decimal.padded 4 d.year,Decimal.padded 2 d.month,Decimal.padded 2 d.day] := by
  rw [toList_stringFromDate,List.splitOn_append_cons_self_of_not_mem (notMem_padded 4 d.year),
    List.splitOn_append_cons_self_of_not_mem (notMem_padded 2 d.month),
    List.splitOn_eq_singleton (notMem_padded 2 d.day)]

theorem stringFromDate_injective : Function.Injective stringFromDate := by
  intro a b h
  have hsplit := splitOn_stringFromDate a
  rw [h,splitOn_stringFromDate b] at hsplit
  injection hsplit with hyear hrest
  injection hrest with hmonth hrest
  injection hrest with hday
  have hy : b.year=a.year := Decimal.padded_injective 4 hyear
  have hm : b.month=a.month := Decimal.padded_injective 2 hmonth
  have hd : b.day=a.day := Decimal.padded_injective 2 hday
  cases a
  cases b
  simp_all

/-- Texts of four-digit years are ordered like the dates. -/
theorem stringFromDate_lt {a b : DateFields} (h : a.key<b.key) (ha : a.month<100)
    (hb : b.year<10000) (hb' : b.month<100) (hb'' : b.day<100) :
    stringFromDate a<stringFromDate b := by
  change (stringFromDate a).toList<(stringFromDate b).toList
  rw [toList_stringFromDate,toList_stringFromDate]
  rw [DateFields.key,DateFields.key,Prod.Lex.toLex_lt_toLex] at h
  cases h with
  | inl hy =>
    have hy' : a.year<b.year := hy
    refine Decimal.append_lt_append ?_ (Decimal.padded_lt_padded (by decide) hy' hb)
    rw [Decimal.length_padded (by decide) (hy'.trans hb),Decimal.length_padded (by decide) hb]
  | inr h =>
    have hy : a.year=b.year := h.1
    have hrest := h.2
    rw [Prod.Lex.toLex_lt_toLex] at hrest
    rw [hy]
    refine List.append_left_lt (List.cons_lt_cons_iff.mpr (Or.inr ⟨rfl,?_⟩))
    cases hrest with
    | inl hm =>
      have hm' : a.month<b.month := hm
      refine Decimal.append_lt_append ?_ (Decimal.padded_lt_padded (by decide) hm' hb')
      rw [Decimal.length_padded (by decide) ha,Decimal.length_padded (by decide) hb']
    | inr h =>
      have hm : a.month=b.month := h.1
      rw [hm]
      exact List.append_left_lt (List.cons_lt_cons_iff.mpr
        (Or.inr ⟨rfl,Decimal.padded_lt_padded (by decide) h.2 hb''⟩))

variable {r : WeekRule} {d e : Date}

theorem getStartDate_eq (h : d.minusDays 4=some e) :
    getStartDate r d=some (stringFromDate (dateFields r e)) := by
  rw [getStartDate,h]
  rfl

theorem dateFields_of_inOwnYear (h : r.InOwnYear e) : dateFields r e=calendarFields e := by
  rw [dateFields,WeekRule.weekYear_eq_year.mpr h]
  rfl

/-- The printed start date is the calendar date exactly when the week of that
day is counted to its year. -/
theorem getStartDate_exact_iff (h : d.minusDays 4=some e) :
    getStartDate r d=some (stringFromDate (calendarFields e)) ↔ r.InOwnYear e := by
  rw [getStartDate_eq h]
  constructor
  · intro hs
    have hfields := stringFromDate_injective (Option.some.inj hs)
    exact WeekRule.weekYear_eq_year.mp (congrArg DateFields.year hfields)
  · intro ho
    rw [dateFields_of_inOwnYear ho]

/-- Calendar dates of four-digit years are printed in their order. -/
theorem stringFromDate_calendarFields (h : d<e) (he : e.year≤9999) :
    stringFromDate (calendarFields d)<stringFromDate (calendarFields e) := by
  have hd := d.month_le
  have hm := e.month_le
  have hday := e.day_le
  have hb := daysInMonth_bounds e.year e.month
  refine stringFromDate_lt h ?_ ?_ ?_ ?_ <;> simp only [calendarFields] <;> omega

theorem notLater_of_inOwnYear (h : e.dayNumber+4=d.dayNumber) (he : r.InOwnYear e)
    (hd : r.weekStart d.year≤d.dayNumber) : (dateFields r e).key≤(dateFields r d).key := by
  have hlt : e.key<d.key := Date.dayNumber_lt_iff.mp (by omega)
  have hyear := WeekRule.year_le_weekYear hd
  rw [dateFields_of_inOwnYear he]
  exact hlt.le.trans (Prod.Lex.toLex_mono ⟨hyear,le_rfl⟩)

/-- A day before the first week of its year is printed before the end of the
year before. -/
theorem weekStart_le_of_notLater (h : e.dayNumber+4=d.dayNumber) (he : r.InOwnYear e)
    (hle : (dateFields r e).key≤(dateFields r d).key) : r.weekStart d.year≤d.dayNumber := by
  -- Otherwise both texts say the old year, the start date December and the day January.
  by_contra hlt
  have hbefore := WeekRule.weekYear_lt_year (not_le.mp hlt)
  have hed : e<d := Date.dayNumber_lt_iff.mp (by omega)
  have hne : e.year≠d.year := by
    intro hsame
    have hstart := he.1
    rw [hsame] at hstart
    omega
  obtain ⟨hnext,hdec,hjan⟩ := Date.across_newYear (by decide) h
    (lt_of_le_of_ne (Date.year_mono hed.le) hne)
  rw [dateFields_of_inOwnYear he,DateFields.key,DateFields.key,Prod.Lex.toLex_le_toLex] at hle
  cases hle with
  | inl hy =>
    have hy' : e.year<r.weekYear d := hy
    omega
  | inr hrest =>
    have hm := Prod.Lex.monotone_fst _ _ hrest.2
    have hm' : e.month≤d.month := hm
    omega

/-- From the eleventh of January to the twenty-ninth of December the start date
is right in every locale. -/
theorem awayFromNewYear_of_midyear (hjan : yearStart d.year+11≤d.dayNumber)
    (hdec : d.dayNumber+2≤yearStart (d.year+1)) : AwayFromNewYear r d := by
  intro e he
  obtain ⟨f,hf,hnum⟩ := Date.minusDays_of_lt (d := d) (n := 4) (by omega)
  cases he.symm.trans hf
  have hyear : e.year=d.year := Date.year_of_bounds (by omega) (by omega)
  have hown : r.InOwnYear e := WeekRule.inOwnYear_of_midyear
    (by rw [hyear]; omega) (by rw [hyear]; omega)
  have hstart := hown.1
  rw [hyear] at hstart
  exact ⟨hown,by omega⟩

end StockManager

/-- The start dates are right exactly on days away from New Year, by the week
rule of the locale. -/
theorem start_dates_exact_iff (r : WeekRule) {D : Set Date}
    (hD : ∀d∈D,d.year≤9999 ∧ 4<d.dayNumber) :
    StartDatesExact r D ↔ ∀d∈D,AwayFromNewYear r d := by
  constructor
  · intro h d hd e he
    obtain ⟨e',he',hexact⟩ := h.exact d hd
    cases he.symm.trans he'
    have hown := (getStartDate_exact_iff he).mp hexact
    obtain ⟨f,hf,hnum⟩ := Date.minusDays_of_lt (hD d hd).2
    cases he.symm.trans hf
    exact ⟨hown,weekStart_le_of_notLater hnum hown
      (h.notLater d hd _ _ (getStartDate_eq he) rfl)⟩
  · intro h
    refine ⟨?_,?_,?_⟩
    · intro d hd
      obtain ⟨e,he,_⟩ := Date.minusDays_of_lt (hD d hd).2
      exact ⟨e,he,(getStartDate_exact_iff he).mpr (h d hd e he).1⟩
    · intro d hd d' hd' hlt a b ha hb
      obtain ⟨e,he,hnum⟩ := Date.minusDays_of_lt (hD d hd).2
      obtain ⟨e',he',hnum'⟩ := Date.minusDays_of_lt (hD d' hd').2
      rw [getStartDate_eq he,dateFields_of_inOwnYear (h d hd e he).1] at ha
      rw [getStartDate_eq he',dateFields_of_inOwnYear (h d' hd' e' he').1] at hb
      cases ha
      cases hb
      have hday := Date.dayNumber_lt_iff.mpr hlt
      have hle : e'≤d' := (Date.dayNumber_lt_iff.mp (by omega)).le
      exact stringFromDate_calendarFields (Date.dayNumber_lt_iff.mp (by omega))
        ((Date.year_mono hle).trans (hD d' hd').1)
    · intro d hd start current hs hc
      obtain ⟨e,he,hnum⟩ := Date.minusDays_of_lt (hD d hd).2
      rw [getStartDate_eq he] at hs
      rw [← stringFromDate_injective (Option.some.inj hs),← stringFromDate_injective hc]
      exact notLater_of_inOwnYear hnum (h d hd e he).1 (h d hd e he).2

/-- Weeks that begin on Sunday and are counted from the first of January. -/
private def sundayRule : WeekRule :=
  ⟨1,1,by decide,by decide,by decide,by decide⟩

/-- A day in April. -/
theorem start_dates_exact_april :
    let today : Date := ⟨2016,4,8,by decide,by decide,by decide,by decide,by decide⟩
    StartDatesExact sundayRule {today} ∧ getStartDate sundayRule today=some "2016-04-04" := by
  intro today
  refine ⟨(start_dates_exact_iff sundayRule ?_).mpr ?_,by decide⟩
  · rintro d rfl
    exact ⟨by decide,by decide⟩
  · rintro d rfl e he
    cases he
    exact ⟨⟨by decide,by decide⟩,by decide⟩

/-- On the second of January 2016 the start date is printed as `2016-12-29`. -/
theorem start_date_in_next_year :
    ¬∀(r : WeekRule) (D : Set Date),(∀d∈D,d.year≤9999 ∧ 4<d.dayNumber) →
      StartDatesExact r D := by
  intro h
  let today : Date := ⟨2016,1,2,by decide,by decide,by decide,by decide,by decide⟩
  have hD : ∀d∈({today} : Set Date),d.year≤9999 ∧ 4<d.dayNumber := by
    rintro d rfl
    exact ⟨by decide,by decide⟩
  obtain ⟨e,he,hexact⟩ := (h sundayRule {today} hD).exact today rfl
  cases he
  have hprinted : getStartDate sundayRule today=some "2016-12-29" := by decide
  rw [hprinted] at hexact
  exact absurd hexact (by decide)

end SStock
