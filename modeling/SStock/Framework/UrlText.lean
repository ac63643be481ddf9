import SStock.Framework.Percent
import Mathlib.Data.List.TakeWhile
import Mathlib.Tactic.Common

namespace Framework.Url

/-- The part of a URL before its query and fragment. -/
def path (url : List Char) : List Char := url.takeWhile fun c => c ≠ '?' ∧ c ≠ '#'

/-- The part between the first `?` and the fragment. -/
def query (url : List Char) : List Char :=
  match url.dropWhile fun c => c ≠ '?' ∧ c ≠ '#' with
  | '?'::rest => rest.takeWhile (· ≠ '#')
  | _ => []

def lastSegment (path : List Char) : List Char := (path.reverse.takeWhile (· ≠ '/')).reverse

/-- A query parameter: name and value around the first `=`. -/
def parameter (piece : List Char) : List Char × List Char :=
  (piece.takeWhile (· ≠ '='),(piece.dropWhile (· ≠ '=')).drop 1)

def parameters (query : List Char) : List (List Char × List Char) :=
  (query.splitOn '&').map parameter

section

variable {p q : List Char}

theorem path_append (hp : ∀c∈p,c ≠ '?' ∧ c ≠ '#') : path (p ++ '?'::q)=p := by
  rw [path,List.takeWhile_append_of_pos (by simpa using hp)]
  simp

theorem query_append (hp : ∀c∈p,c ≠ '?' ∧ c ≠ '#') (hq : '#'∉q) : query (p ++ '?'::q)=q := by
  have hd : (p ++ '?'::q).dropWhile (fun c => decide (c ≠ '?' ∧ c ≠ '#')) = '?'::q := by
    rw [List.dropWhile_append_of_pos (by simpa using hp)]
    simp
  rw [query,hd]
  exact List.takeWhile_eq_self_iff.mpr (fun c hc => by
    have hne : c ≠ '#' := fun he => hq (he ▸ hc)
    simpa using hne)

theorem lastSegment_append (hq : '/'∉q) : lastSegment (p ++ '/'::q)=q := by
  have hrev : ∀c∈q.reverse,decide (c ≠ '/')=true := by
    intro c hc
    have hne : c ≠ '/' := fun he => hq (he ▸ List.mem_reverse.mp hc)
    simpa using hne
  rw [lastSegment,List.reverse_append,List.reverse_cons,List.append_assoc,
    List.takeWhile_append_of_pos hrev]
  simp

/-- A directory and a file name before the query. -/
theorem path_and_query {dir file : List Char} (hd : ∀c∈dir,c ≠ '?' ∧ c ≠ '#')
    (hf : ∀c∈file,c ≠ '?' ∧ c ≠ '#' ∧ c ≠ '/') (hq : '#'∉q) :
    lastSegment (path ((dir ++ '/'::file) ++ '?'::q))=file ∧
      query ((dir ++ '/'::file) ++ '?'::q)=q := by
  have hp : ∀c∈dir ++ '/'::file,c ≠ '?' ∧ c ≠ '#' := by
    intro c hc
    cases List.mem_append.mp hc with
    | inl hc => exact hd c hc
    | inr hc =>
      cases List.mem_cons.mp hc with
      | inl heq =>
        subst heq
        decide
      | inr hc => exact ⟨(hf c hc).1,(hf c hc).2.1⟩
  refine ⟨?_,query_append hp hq⟩
  rw [path_append hp]
  exact lastSegment_append (fun hc => (hf _ hc).2.2 rfl)

theorem parameter_append (hp : '='∉p) : parameter (p ++ '='::q)=(p,q) := by
  have hne : ∀c∈p,decide (c ≠ '=')=true := by
    intro c hc
    have h : c ≠ '=' := fun he => hp (he ▸ hc)
    simpa using h
  rw [parameter,List.takeWhile_append_of_pos hne,List.dropWhile_append_of_pos hne]
  simp

theorem parameters_single (hp : '&'∉p) : parameters p=[parameter p] := by
  rw [parameters,List.splitOn_eq_singleton hp,List.map_singleton]

theorem parameters_append (hp : '&'∉p) :
    parameters (p ++ '&'::q)=parameter p::parameters q := by
  rw [parameters,List.splitOn_append_cons_of_beq _ _ (beq_self_eq_true _),
    List.splitOn_eq_singleton hp]
  rfl

/-- Joined queries hold the parameters of both, wherever they split. -/
theorem parameters_join (p q : List Char) :
    parameters (p ++ '&'::q)=parameters p++parameters q := by
  rw [parameters,List.splitOn_append_cons_self,List.map_append]
  rfl

theorem length_parameters_pos (p : List Char) : 0<(parameters p).length := by
  rw [parameters,List.length_map]
  exact List.length_pos_iff.mpr (List.splitOn_ne_nil _ _)

/-- A text makes a single parameter exactly when it holds no separator. -/
theorem length_parameters_eq_one : (parameters p).length=1 ↔ '&'∉p := by
  constructor
  · intro h hm
    obtain ⟨a,b,rfl⟩ := List.append_of_mem hm
    have ha := length_parameters_pos a
    have hb := length_parameters_pos b
    rw [parameters_join,List.length_append] at h
    omega
  · intro h
    rw [parameters_single h,List.length_singleton]

end

/-- The parameters of a query with both parts percent-decoded; a part that does
not decode is `none`. -/
def decodedParameters (query : List Char) : List (Option String × Option String) :=
  (parameters query).map fun p => (Percent.unescape p.1,Percent.unescape p.2)

/-- A piece `name=value` of a query. -/
def piece (name : String) (value : List Char) : List Char := name.toList ++ '='::value

theorem decodedParameters_join (p q : List Char) :
    decodedParameters (p ++ '&'::q)=decodedParameters p++decodedParameters q := by
  rw [decodedParameters,parameters_join,List.map_append]
  rfl

theorem length_decodedParameters (q : List Char) :
    (decodedParameters q).length=(parameters q).length := List.length_map _

theorem decodedParameters_piece {name : String} {value : List Char} (hn : '&'∉name.toList)
    (he : '='∉name.toList) (hp : '%'∉name.toList) (hv : '&'∉value) :
    decodedParameters (piece name value)=[(some name,Percent.unescape value)] := by
  have hamp : '&'∉piece name value := by
    simp only [piece,List.mem_append,List.mem_cons,not_or]
    exact ⟨hn,by decide,hv⟩
  rw [decodedParameters,parameters_single hamp,piece,parameter_append he,
    List.map_singleton,Percent.unescape_plain hp,String.ofList_toList]

/-- A piece in which nothing but its own `=` has a meaning. -/
theorem decodedParameters_plain {name value : String}
    (h : ∀c∈['&','=','%'],c∉name.toList ∧ c∉value.toList) :
    decodedParameters (piece name value.toList)=[(some name,some value)] := by
  have hamp := h '&' (by simp)
  have heq := h '=' (by simp)
  have hpercent := h '%' (by simp)
  rw [decodedParameters_piece hamp.1 heq.1 hpercent.1 hamp.2,
    Percent.unescape_plain hpercent.2,String.ofList_toList]

end Framework.Url
