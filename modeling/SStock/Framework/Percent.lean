import Mathlib.Data.List.Basic
import Mathlib.Tactic.Common

namespace Framework.Percent

def hexDigit (n : ℕ) : Char := if n<10 then Char.ofNat (48+n) else Char.ofNat (55+n)

def hexValue (c : Char) : Option ℕ :=
  if '0'≤c ∧ c ≤ '9' then some (c.toNat-48)
  else if 'A'≤c ∧ c ≤ 'F' then some (c.toNat-55)
  else if 'a'≤c ∧ c ≤ 'f' then some (c.toNat-87)
  else none

def escapeByte (b : UInt8) : List Char :=
  ['%',hexDigit (b.toNat/16),hexDigit (b.toNat%16)]

/-- Decoding of `%XX` triples; any other character stands for its UTF-8 bytes,
and a `%` without two hexadecimal digits is an error. -/
def unescapeBytes : List Char → Option (List UInt8)
  | [] => some []
  | c::cs =>
    if c ≠ '%' then (unescapeBytes cs).map (String.utf8EncodeChar c++·)
    else match cs with
      | a::b::ds =>
        (hexValue a).bind fun x => (hexValue b).bind fun y =>
          (unescapeBytes ds).map (UInt8.ofNat (16*x+y)::·)
      | _ => none

def unescape (cs : List Char) : Option String :=
  (unescapeBytes cs).bind fun bytes =>
    bytes.toByteArray.utf8Decode?.map fun ds => String.ofList ds.toList

theorem hexValue_hexDigit {n : ℕ} (h : n<16) : hexValue (hexDigit n)=some n := by
  have key : ∀k : Fin 16,hexValue (hexDigit k)=some k.val := by decide
  exact key ⟨n,h⟩

theorem unescapeBytes_plain {c : Char} (hc : c ≠ '%') (cs : List Char) :
    unescapeBytes (c::cs)=(unescapeBytes cs).map (String.utf8EncodeChar c++·) := by
  rw [unescapeBytes.eq_def]
  exact if_pos hc

theorem unescapeBytes_escapeByte (b : UInt8) (cs : List Char) :
    unescapeBytes (escapeByte b++cs)=(unescapeBytes cs).map (b::·) := by
  have hb : b.toNat<256 := b.toNat_lt
  have hback : UInt8.ofNat (16*(b.toNat/16)+b.toNat%16)=b := by
    rw [Nat.div_add_mod,UInt8.ofNat_toNat]
  simp only [escapeByte,List.cons_append,List.nil_append]
  rw [unescapeBytes,if_neg (by simp)]
  simp only [hexValue_hexDigit (show b.toNat/16<16 by omega),
    hexValue_hexDigit (show b.toNat%16<16 by omega),Option.bind_some,hback]

theorem mem_escapeByte {b : UInt8} {d : Char} (h : d∈escapeByte b) :
    d = '%' ∨ ∃n<16,d=hexDigit n := by
  have hlt : b.toNat<256 := b.toNat_lt
  simp only [escapeByte,List.mem_cons,List.not_mem_nil,or_false] at h
  rcases h with h|h|h
  · exact Or.inl h
  · exact Or.inr ⟨_,by omega,h⟩
  · exact Or.inr ⟨_,by omega,h⟩

theorem notMem_escapeByte {d : Char} (hp : d ≠ '%') (hx : hexValue d=none) (b : UInt8) :
    d∉escapeByte b := by
  intro h
  cases mem_escapeByte h with
  | inl hd => exact hp hd
  | inr hd =>
    obtain ⟨n,hn,rfl⟩ := hd
    simp [hexValue_hexDigit hn] at hx

theorem unescapeBytes_escapeBytes (bs : List UInt8) (cs : List Char) :
    unescapeBytes (bs.flatMap escapeByte++cs)=(unescapeBytes cs).map (bs++·) := by
  induction bs with
  | nil => simp
  | cons b bs ih =>
    rw [List.flatMap_cons,List.append_assoc,unescapeBytes_escapeByte,ih,Option.map_map]
    rfl

section Allowed

variable (allowed : Char → Bool)

def escapeChar (c : Char) : List Char :=
  if allowed c then [c] else (String.utf8EncodeChar c).flatMap escapeByte

/-- Percent encoding of every UTF-8 byte of a character outside `allowed`. -/
def escape (s : String) : String := String.ofList (s.toList.flatMap (escapeChar allowed))

@[simp] theorem toList_escape (s : String) :
    (escape allowed s).toList=s.toList.flatMap (escapeChar allowed) := by
  simp [escape]

variable {allowed}

theorem unescapeBytes_escapeChar (hp : allowed '%'=false) (c : Char) (cs : List Char) :
    unescapeBytes (escapeChar allowed c++cs)=
      (unescapeBytes cs).map (String.utf8EncodeChar c++·) := by
  unfold escapeChar
  split_ifs with ha
  · have hc : c ≠ '%' := by
      rintro rfl
      simp [hp] at ha
    exact unescapeBytes_plain hc cs
  · exact unescapeBytes_escapeBytes _ cs

theorem unescapeBytes_escape (hp : allowed '%'=false) (cs ds : List Char) :
    unescapeBytes (cs.flatMap (escapeChar allowed)++ds)=
      (unescapeBytes ds).map (cs.flatMap String.utf8EncodeChar++·) := by
  induction cs with
  | nil => simp
  | cons c cs ih =>
    rw [List.flatMap_cons,List.append_assoc,unescapeBytes_escapeChar hp,ih,Option.map_map]
    simp [Function.comp_def,List.flatMap_cons,List.append_assoc]

theorem unescapeBytes_of_plain {cs : List Char} (h : '%'∉cs) :
    unescapeBytes cs=some (cs.flatMap String.utf8EncodeChar) := by
  induction cs with
  | nil => rfl
  | cons c cs ih =>
    obtain ⟨hc,hcs⟩ := not_or.mp (mt List.mem_cons.mpr h)
    rw [unescapeBytes_plain (Ne.symm hc),ih hcs]
    rfl

/-- Decoding an encoded text followed by a plain ending gives both back. -/
theorem unescape_escape_append (hp : allowed '%'=false) (s : String) {ending : List Char}
    (he : '%'∉ending) :
    unescape ((escape allowed s).toList++ending)=some (s++String.ofList ending) := by
  have hbytes : (s.toList.flatMap String.utf8EncodeChar++
      ending.flatMap String.utf8EncodeChar).toByteArray=(s.toList++ending).utf8Encode := by
    rw [List.utf8Encode,List.flatMap_append]
  rw [unescape,toList_escape,unescapeBytes_escape hp,unescapeBytes_of_plain he]
  simp only [Option.map_some,Option.bind_some,hbytes,List.utf8Decode?_utf8Encode]
  rw [String.ofList_append,String.ofList_toList]

/-- A text without `%` stands for itself. -/
theorem unescape_plain {cs : List Char} (h : '%'∉cs) : unescape cs=some (String.ofList cs) := by
  rw [unescape,unescapeBytes_of_plain h]
  simp only [Option.bind_some,← List.utf8Encode.eq_1,List.utf8Decode?_utf8Encode,Option.map_some]

theorem unescape_escape (hp : allowed '%'=false) (s : String) :
    unescape (escape allowed s).toList=some s := by
  have h := unescape_escape_append hp s (List.not_mem_nil (a := '%'))
  rwa [List.append_nil,String.ofList_nil,String.append_empty] at h

variable (allowed) in
theorem length_escapeChar (c : Char) : 1≤(escapeChar allowed c).length ∧
    (allowed c=false → 1<(escapeChar allowed c).length) := by
  have hu : 0<(String.utf8EncodeChar c).length := by
    rw [String.length_utf8EncodeChar]
    exact c.utf8Size_pos
  have hlen : ((String.utf8EncodeChar c).flatMap escapeByte).length=
      3*(String.utf8EncodeChar c).length := by
    simp [List.length_flatMap,escapeByte,Nat.mul_comm]
  unfold escapeChar
  split_ifs with ha
  · simp [ha]
  · rw [hlen]
    omega

/-- A text is its own encoding exactly when all of it is allowed. -/
theorem escape_eq_self_iff (s : String) :
    escape allowed s=s ↔ ∀c∈s.toList,allowed c=true := by
  rw [← String.toList_inj,toList_escape]
  induction s.toList with
  | nil => simp
  | cons c cs ih =>
    rw [List.flatMap_cons,List.forall_mem_cons]
    have grow : cs.length≤(cs.flatMap (escapeChar allowed)).length := by
      clear ih
      induction cs with
      | nil => simp
      | cons d ds ih =>
        have hd := (length_escapeChar allowed d).1
        rw [List.flatMap_cons,List.length_append,List.length_cons]
        omega
    constructor
    · intro h
      have hlen := congrArg List.length h
      rw [List.length_append,List.length_cons] at hlen
      have hc := length_escapeChar allowed c
      have ha : allowed c=true := by
        by_contra hn
        have := hc.2 (Bool.eq_false_iff.mpr hn)
        omega
      have he : escapeChar allowed c=[c] := by simp [escapeChar,ha]
      rw [he,List.singleton_append,List.cons_inj_right] at h
      exact ⟨ha,ih.mp h⟩
    · intro ⟨ha,hcs⟩
      rw [ih.mpr hcs]
      simp [escapeChar,ha]

theorem mem_escape {s : String} {d : Char} (h : d∈(escape allowed s).toList) :
    allowed d=true ∨ d = '%' ∨ ∃n<16,d=hexDigit n := by
  rw [toList_escape] at h
  obtain ⟨c,_,hd⟩ := List.mem_flatMap.mp h
  unfold escapeChar at hd
  split_ifs at hd with ha
  · rw [List.mem_singleton.mp hd]
    exact Or.inl ha
  · obtain ⟨b,_,hb⟩ := List.mem_flatMap.mp hd
    exact Or.inr (mem_escapeByte hb)

/-- A character that is neither allowed nor written by the encoding is absent
from every encoded text. -/
theorem notMem_escape {d : Char} (ha : allowed d=false) (hp : d ≠ '%') (hx : hexValue d=none)
    (s : String) : d∉(escape allowed s).toList := by
  intro h
  rcases mem_escape h with hd|hd|⟨n,hn,rfl⟩
  · simp [ha] at hd
  · exact hp hd
  · simp [hexValue_hexDigit hn] at hx

/-- An allowed character that the encoding itself never writes is in the encoded
text exactly when it is in the text. -/
theorem mem_escape_iff {d : Char} (ha : allowed d=true) (hp : d ≠ '%')
    (hx : hexValue d=none) (s : String) : d∈(escape allowed s).toList ↔ d∈s.toList := by
  rw [toList_escape,List.mem_flatMap]
  constructor
  · intro ⟨c,hc,hd⟩
    unfold escapeChar at hd
    split_ifs at hd with hc'
    · rw [List.mem_singleton.mp hd]
      exact hc
    · obtain ⟨b,_,hb⟩ := List.mem_flatMap.mp hd
      exact absurd hb (notMem_escapeByte hp hx b)
  · intro hd
    exact ⟨d,hd,by simp [escapeChar,ha]⟩

end Allowed

end Framework.Percent
