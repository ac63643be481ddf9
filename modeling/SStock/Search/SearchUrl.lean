import SStock.Model.StockManager

namespace SStock

open Framework Url

namespace StockManager

/-- What a search for `text` asks the server. -/
def searchParameters (text : String) : List (String × String) :=
  [("database_code","WIKI"),("query",text),("per_page","10"),("page","1"),
    ("api_key","L9rgCQ9xtMJ2vExshXgw")]

theorem toList_concat {api esc count key : String} {a c k : List Char} (hapi : api.toList=a)
    (hcount : count.toList=c) (hkey : key.toList=k) :
    (api++esc++count++key).toList=a++(esc.toList++(c++k)) := by
  simp only [String.toList_append,hapi,hcount,hkey,List.append_assoc]

theorem toList_searchURL (text : String) : (searchURL text).toList=
    "https://www.quandl.com/api/v3/datasets.json".toList ++ '?'::
      (piece "database_code" "WIKI".toList ++ '&'::
        (piece "query" (escapedQuery text).toList ++ '&'::
          (piece "per_page" "10".toList ++ '&'::(piece "page" "1".toList ++ '&'::
            piece "api_key" "L9rgCQ9xtMJ2vExshXgw".toList)))) := by
  have hapi : "https://www.quandl.com/api/v3/datasets.json?database_code=WIKI&query=".toList=
      "https://www.quandl.com/api/v3/datasets.json".toList ++ '?'::
        (piece "database_code" "WIKI".toList ++ '&'::piece "query" []) := by simp [piece]
  have hcount : "&per_page=10&page=1".toList=
      '&'::(piece "per_page" "10".toList ++ '&'::piece "page" "1".toList) := by simp [piece]
  have hkey : apiKey.toList = '&'::piece "api_key" "L9rgCQ9xtMJ2vExshXgw".toList := by
    simp [apiKey,piece]
  refine (toList_concat hapi hcount hkey : (searchURL text).toList=_).trans ?_
  simp only [piece,List.append_assoc,List.cons_append,List.nil_append]

/-- The piece of the typed text stands between four fixed ones. -/
theorem query_searchURL (text : String) : Url.query (searchURL text).toList=
    piece "database_code" "WIKI".toList ++ '&'::
      (piece "query" (escapedQuery text).toList ++ '&'::
        (piece "per_page" "10".toList ++ '&'::(piece "page" "1".toList ++ '&'::
          piece "api_key" "L9rgCQ9xtMJ2vExshXgw".toList))) := by
  rw [toList_searchURL]
  refine query_append (by simp) ?_
  have hesc : '#'∉(escapedQuery text).toList :=
    notMem_escapedQuery (by decide) (by decide) (by decide) text
  simp [piece,hesc]

/-- The parameters a server reads from a search URL. -/
theorem decodedParameters_searchURL (text : String) :
    decodedParameters (Url.query (searchURL text).toList)=
      (some "database_code",some "WIKI")::
        (decodedParameters (piece "query" (escapedQuery text).toList)++
          [(some "per_page",some "10"),(some "page",some "1"),
            (some "api_key",some "L9rgCQ9xtMJ2vExshXgw")]) := by
  have hcode : decodedParameters (piece "database_code" "WIKI".toList)=
      [(some "database_code",some "WIKI")] := decodedParameters_plain (by simp)
  have hcount : decodedParameters (piece "per_page" "10".toList)=
      [(some "per_page",some "10")] := decodedParameters_plain (by simp)
  have hpage : decodedParameters (piece "page" "1".toList)=[(some "page",some "1")] :=
    decodedParameters_plain (by simp)
  have hkey : decodedParameters (piece "api_key" "L9rgCQ9xtMJ2vExshXgw".toList)=
      [(some "api_key",some "L9rgCQ9xtMJ2vExshXgw")] := decodedParameters_plain (by simp)
  rw [query_searchURL,decodedParameters_join,decodedParameters_join,decodedParameters_join,
    decodedParameters_join,hcode,hcount,hpage,hkey]
  simp only [List.cons_append,List.nil_append]

theorem mem_escapedQuery_iff (text : String) : '&'∈(escapedQuery text).toList ↔ '&'∈text.toList :=
  Percent.mem_escape_iff (by decide) (by decide) (by decide) text

/-- A typed `&` is an allowed character of a host name, is not encoded and adds
a parameter. -/
theorem more_parameters {text : String} (h : '&'∈text.toList) :
    (searchParameters text).length<
      (decodedParameters (Url.query (searchURL text).toList)).length := by
  have hpiece : '&'∈piece "query" (escapedQuery text).toList :=
    List.mem_append_right _ (List.mem_cons_of_mem _ ((mem_escapedQuery_iff text).mpr h))
  have hone : (parameters (piece "query" (escapedQuery text).toList)).length≠1 :=
    fun h1 => length_parameters_eq_one.mp h1 hpiece
  have hpos := length_parameters_pos (piece "query" (escapedQuery text).toList)
  rw [decodedParameters_searchURL]
  simp only [searchParameters,List.length_cons,List.length_append,List.length_nil,
    length_decodedParameters]
  omega

end StockManager

open StockManager

/-- The server reads back what was asked exactly when no `&` was typed. -/
theorem search_url_round_trip_iff (text : String) :
    decodedParameters (Url.query (searchURL text).toList)=
        (searchParameters text).map (fun p => (some p.1,some p.2)) ↔
      '&'∉text.toList := by
  constructor
  · intro h hm
    have hmore := more_parameters hm
    rw [h,List.length_map] at hmore
    exact lt_irrefl _ hmore
  · intro h
    rw [← mem_escapedQuery_iff] at h
    rw [decodedParameters_searchURL,
      decodedParameters_piece (by decide) (by decide) (by decide) h,escapedQuery,
      Percent.unescape_escape (by decide)]
    rfl

/-- Of `AT&T` the server searches `AT` and is given a parameter `T`. -/
theorem search_url_splits_ampersand :
    ¬∀text : String,decodedParameters (Url.query (searchURL text).toList)=
      (searchParameters text).map fun p => (some p.1,some p.2) := by
  intro h
  have hmore := more_parameters (show '&'∈"AT&T".toList by decide)
  rw [h,List.length_map] at hmore
  exact lt_irrefl _ hmore

end SStock
