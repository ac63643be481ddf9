import Mathlib.Algebra.Ring.Nat
import Mathlib.Data.List.Basic
import Mathlib.Tactic.Common

namespace Framework.Decimal

/-- The decimal digits of `n`, with leading zeros up to `width`. -/
def padded (width n : ℕ) : List Char := (Nat.toDigits 10 n).leftpad width '0'

/-- The number that a text of digits stands for. -/
def value (cs : List Char) : ℕ := Nat.ofDigitChars 10 cs 0

theorem value_cons (c : Char) (cs : List Char) :
    value (c::cs)=10^cs.length*(c.toNat-48)+value cs := by
  rw [value,Nat.ofDigitChars_cons,Nat.ofDigitChars_eq_ofDigitChars_zero]
  simp [value]

theorem isDigit_of_mem_padded {width n : ℕ} {c : Char} (h : c∈padded width n) : c.isDigit := by
  rw [padded,List.leftpad,List.mem_append] at h
  cases h with
  | inl h =>
    rw [List.eq_of_mem_replicate h]
    decide
  | inr h => exact Nat.isDigit_of_mem_toDigits (by decide) (by decide) h

theorem value_padded (width n : ℕ) : value (padded width n)=n := by
  rw [value,padded,List.leftpad,Nat.ofDigitChars_append,Nat.ofDigitChars_replicate_zero,
    Nat.mul_zero,Nat.ofDigitChars_ten_toDigits]

theorem padded_injective (width : ℕ) : Function.Injective (padded width) :=
  fun m n h => by rw [← value_padded width m,h,value_padded]

theorem length_padded {width n : ℕ} (hw : 0<width) (h : n<10^width) :
    (padded width n).length=width := by
  have hlen := (Nat.length_toDigits_le_iff (by decide) hw).mpr h
  rw [padded,List.length_leftpad]
  omega

theorem digit_bounds {c : Char} (h : c.isDigit) : 48≤c.toNat ∧ c.toNat≤57 :=
  Char.isDigit_iff_toNat.mp h

theorem value_lt {cs : List Char} (h : ∀c∈cs,c.isDigit) : value cs<10^cs.length := by
  induction cs with
  | nil => decide
  | cons c cs ih =>
    have hc := digit_bounds (h c List.mem_cons_self)
    have hcs := ih fun d hd => h d (List.mem_cons_of_mem _ hd)
    rw [value_cons,List.length_cons,Nat.pow_succ]
    have hstep : 10^cs.length*(c.toNat-48)≤10^cs.length*9 := Nat.mul_le_mul_left _ (by omega)
    omega

/-- Texts of digits of one length are ordered like their numbers. -/
theorem lt_of_value_lt {cs ds : List Char} (hc : ∀c∈cs,c.isDigit) (hd : ∀d∈ds,d.isDigit)
    (hl : cs.length=ds.length) (h : value cs<value ds) : cs<ds := by
  induction cs generalizing ds with
  | nil =>
    have he : ds=[] := List.length_eq_zero_iff.mp hl.symm
    subst he
    exact absurd h (Nat.lt_irrefl _)
  | cons c cs ih =>
    cases ds with
    | nil => cases hl
    | cons d ds =>
      have hlen : cs.length=ds.length := Nat.succ.inj hl
      rw [value_cons,value_cons,hlen] at h
      have hcd := digit_bounds (hc c List.mem_cons_self)
      have hdd := digit_bounds (hd d List.mem_cons_self)
      have hbound := value_lt fun e he => hd e (List.mem_cons_of_mem _ he)
      rw [List.cons_lt_cons_iff]
      -- A greater first digit outweighs all that follows it.
      rcases Nat.lt_trichotomy c.toNat d.toNat with hlt|heq|hgt
      · exact Or.inl hlt
      · rw [heq] at h
        refine Or.inr ⟨Char.toNat_inj.mp heq,ih (fun e he => hc e (List.mem_cons_of_mem _ he))
          (fun e he => hd e (List.mem_cons_of_mem _ he)) hlen (by omega)⟩
      · have hle : 10^ds.length*(d.toNat-48+1)≤10^ds.length*(c.toNat-48) :=
          Nat.mul_le_mul_left _ (by omega)
        rw [Nat.mul_succ] at hle
        omega

theorem padded_lt_padded {width m n : ℕ} (hw : 0<width) (h : m<n) (hn : n<10^width) :
    padded width m<padded width n := by
  refine lt_of_value_lt (fun _ => isDigit_of_mem_padded) (fun _ => isDigit_of_mem_padded) ?_ ?_
  · rw [length_padded hw (Nat.lt_trans h hn),length_padded hw hn]
  · rwa [value_padded,value_padded]

/-- Texts are ordered by their first parts, if these are of one length. -/
theorem append_lt_append {a b c d : List Char} (hl : a.length=b.length) (h : a<b) :
    a++c<b++d := by
  induction a generalizing b with
  | nil =>
    have he : b=[] := List.length_eq_zero_iff.mp hl.symm
    subst he
    exact absurd h (List.not_lt_nil [])
  | cons x a ih =>
    cases b with
    | nil => cases hl
    | cons y b =>
      rw [List.cons_append,List.cons_append,List.cons_lt_cons_iff]
      rw [List.cons_lt_cons_iff] at h
      exact h.imp_right fun hxy => ⟨hxy.1,ih (Nat.succ.inj hl) hxy.2⟩

end Framework.Decimal
