import SStock.Model.Steps

namespace SStock

open Framework StockManager

variable {P : Type}

/-- The stock an element of the reply describes: an object with a string under
`name` and one under `dataset_code`. -/
def Stock.described : Json P → Option Stock
  | .object members =>
    match members.lookup "name",members.lookup "dataset_code" with
    | some (.string name),some (.string code) => some ⟨name,code⟩
    | _,_ => none
  | _ => none

namespace Response

/-- The elements under `datasets` of a search reply that is an object. -/
def datasets : Response P → Option (List (Json P))
  | .json (.object members) =>
    match members.lookup "datasets" with
    | some (.array elements) => some elements
    | _ => none
  | _ => none

/-- The body is not an array, and a list of objects under `datasets` describes
a stock in each of them. -/
structure SearchGuarded (response : Response P) : Prop where
  notArray : ∀items,response≠.json (.array items)
  described : ∀elements,response.datasets=some elements →
    (∀element∈elements,∃members,element=.object members) →
    ∀element∈elements,∃stock,Stock.described element=some stock

end Response

/-- What the search handler owes a reply: no trap, the stocks of a well-shaped
reply, nothing but the well-formed elements of any other, and at most one call. -/
structure SearchReplyExact (response : Response P) : Prop where
  total : searchReply response≠.trapped
  wellShaped : ∀elements stocks,response.datasets=some elements →
    elements.map Stock.described=stocks.map some → searchReply response=.completed stocks
  malformed : ∀stocks,searchReply response=.completed stocks →
    ∃elements,response.datasets=some elements ∧ stocks=elements.filterMap Stock.described
  once : ∀(s t : App P) (id : ℕ),s.searchReply id response=some t →
    ∃calls : List (Block P),calls.length≤1 ∧ t.mainQueue=s.mainQueue++calls

namespace StockManager

variable {response : Response P}

theorem described_eq_some {members : List (String × Json P)} {stock : Stock} :
    Stock.described (.object members)=some stock ↔
      members.lookup "name"=some (.string stock.name) ∧
        members.lookup "dataset_code"=some (.string stock.datasetCode) := by
  rw [Stock.described]
  split
  · next name code hn hc =>
    cases stock
    simp [hn,hc]
  · next hnot =>
    constructor
    · intro h
      cases h
    · intro h
      exact absurd h.2 (hnot _ _ h.1)

/-- A described element adds its stock to the list. -/
theorem searchLoop_described {members : List (String × Json P)} {stock : Stock}
    (h : Stock.described (.object members)=some stock) (data : List Stock)
    (rest : List (List (String × Json P))) :
    searchLoop data (members::rest)=searchLoop (data++[stock]) rest := by
  obtain ⟨hn,hc⟩ := described_eq_some.mp h
  rw [searchLoop,hn,hc]
  rfl

/-- Any other element traps one of the two forced casts. -/
theorem searchLoop_undescribed {members : List (String × Json P)}
    (h : Stock.described (.object members)=none) (data : List Stock)
    (rest : List (List (String × Json P))) : searchLoop data (members::rest)=.trapped := by
  rw [searchLoop]
  cases hn : (members.lookup "name").bind Json.asString with
  | none => rfl
  | some name =>
    cases hc : (members.lookup "dataset_code").bind Json.asString with
    | none => rfl
    | some code =>
      have hs : Stock.described (.object members)=some ⟨name,code⟩ :=
        described_eq_some.mpr ⟨by simpa [Option.bind_eq_some_iff] using hn,
          by simpa [Option.bind_eq_some_iff] using hc⟩
      rw [h] at hs
      cases hs

/-- The loop ends with the stocks of all elements, or an element describes none
and it traps. -/
theorem searchLoop_cases (data : List Stock) (rows : List (List (String × Json P))) :
    (∃stocks,(rows.map Json.object).map Stock.described=stocks.map some ∧
        searchLoop data rows=.completed (data++stocks)) ∨
      ((∃members∈rows,Stock.described (.object members)=none) ∧
        searchLoop data rows=.trapped) := by
  induction rows generalizing data with
  | nil => exact Or.inl ⟨[],rfl,by rw [searchLoop,List.append_nil]⟩
  | cons members rows ih =>
    cases hm : Stock.described (.object members) with
    | none => exact Or.inr ⟨⟨members,.head _,hm⟩,searchLoop_undescribed hm data rows⟩
    | some stock =>
      rw [searchLoop_described hm]
      cases ih (data++[stock]) with
      | inl hex =>
        obtain ⟨stocks,hmap,hloop⟩ := hex
        refine Or.inl ⟨stock::stocks,?_,by rw [hloop,List.append_assoc,List.singleton_append]⟩
        rw [List.map_cons,List.map_cons,hm,hmap,List.map_cons]
      | inr hex =>
        obtain ⟨⟨other,ho,hnone⟩,hloop⟩ := hex
        exact Or.inr ⟨⟨other,.tail _ ho,hnone⟩,hloop⟩

/-- A list of objects under `datasets` reaches the loop. -/
theorem searchReply_objects {rows : List (List (String × Json P))}
    (h : response.datasets=some (rows.map .object)) :
    searchReply response=searchLoop [] rows := by
  unfold Response.datasets at h
  split at h
  · next members =>
    split at h
    · next elements hl =>
      cases h
      have hrows : (Json.array (rows.map Json.object)).asObjects=some rows :=
        Json.asObjects_eq_some.mpr rfl
      simp only [searchReply,jsonObject,Handled.completed_bind,hl,Option.bind_some,hrows,
        Handled.orReturn]
    · cases h
  · cases h

/-- Any other body returns early, an array apart. -/
theorem searchReply_returned (ha : ∀items,response≠.json (.array items))
    (hd : ∀rows : List (List (String × Json P)),response.datasets≠some (rows.map .object)) :
    searchReply response=.returned := by
  cases response with
  | error => rfl
  | notJson => rfl
  | json body =>
    cases body with
    | array items => exact absurd rfl (ha items)
    | null | bool | number | string => rfl
    | object members =>
      cases hl : (members.lookup "datasets").bind Json.asObjects with
      | none =>
        simp only [searchReply,jsonObject,Handled.completed_bind,hl,Handled.orReturn,
          Handled.returned_bind]
      | some rows =>
        obtain ⟨j,hj,hrows⟩ := Option.bind_eq_some_iff.mp hl
        rw [Json.asObjects_eq_some.mp hrows] at hj
        exact absurd (by simp only [Response.datasets,hj]) (hd rows)

/-- Everything the search handler can do with a reply. -/
inductive SearchOutcome (response : Response P) : Handled (List Stock) → Prop
  | array {items : List (Json P)} (h : response=.json (.array items)) :
      SearchOutcome response .trapped
  | unshaped (ha : ∀items,response≠.json (.array items))
      (hd : ∀rows : List (List (String × Json P)),response.datasets≠some (rows.map .object)) :
      SearchOutcome response .returned
  | stocks {rows : List (List (String × Json P))} {stocks : List Stock}
      (hd : response.datasets=some (rows.map .object))
      (hs : (rows.map Json.object).map Stock.described=stocks.map some) :
      SearchOutcome response (.completed stocks)
  | undescribed {rows : List (List (String × Json P))} {members : List (String × Json P)}
      (hd : response.datasets=some (rows.map .object)) (hm : members∈rows)
      (hn : Stock.described (.object members)=none) : SearchOutcome response .trapped

theorem searchReply_outcome (response : Response P) :
    SearchOutcome response (searchReply response) := by
  by_cases hd : ∃rows : List (List (String × Json P)),response.datasets=some (rows.map .object)
  · obtain ⟨rows,hrows⟩ := hd
    rw [searchReply_objects hrows]
    cases searchLoop_cases [] rows with
    | inl hex =>
      obtain ⟨stocks,hs,hloop⟩ := hex
      rw [hloop,List.nil_append]
      exact .stocks hrows hs
    | inr hex =>
      obtain ⟨⟨members,hm,hn⟩,hloop⟩ := hex
      rw [hloop]
      exact .undescribed hrows hm hn
  · by_cases ha : ∃items,response=.json (.array items)
    · obtain ⟨items,rfl⟩ := ha
      exact .array rfl
    · rw [searchReply_returned (not_exists.mp ha) (not_exists.mp hd)]
      exact .unshaped (not_exists.mp ha) (not_exists.mp hd)

theorem exists_object_of_described {element : Json P} {stock : Stock}
    (h : Stock.described element=some stock) : ∃members,element=.object members := by
  cases element with
  | object members => exact ⟨members,rfl⟩
  | null | bool | number | string | array => cases h

theorem filterMap_described {elements : List (Json P)} {stocks : List Stock}
    (h : elements.map Stock.described=stocks.map some) :
    elements.filterMap Stock.described=stocks := by
  have hid := congrArg (List.filterMap id) h
  rwa [List.filterMap_map,List.filterMap_map,Function.id_comp,Function.id_comp,
    List.filterMap_some] at hid

theorem forall_described {elements : List (Json P)} {stocks : List Stock}
    (h : elements.map Stock.described=stocks.map some) :
    ∀element∈elements,∃stock,Stock.described element=some stock := by
  intro element he
  have hin : Stock.described element∈elements.map Stock.described := List.mem_map_of_mem he
  rw [h] at hin
  obtain ⟨stock,_,hstock⟩ := List.mem_map.mp hin
  exact ⟨stock,hstock.symm⟩

/-- The stocks of a well-shaped reply, all and in order. -/
theorem searchReply_wellShaped {elements : List (Json P)} {stocks : List Stock}
    (hd : response.datasets=some elements)
    (hs : elements.map Stock.described=stocks.map some) :
    searchReply response=.completed stocks := by
  have hall := forall_described hs
  have ho := searchReply_outcome response
  generalize searchReply response=result at ho
  cases ho with
  | array h =>
    subst h
    cases hd
  | unshaped _ hno =>
    obtain ⟨rows,rfl⟩ := Json.exists_map_object.mpr fun element he =>
      (hall element he).elim fun _ => exists_object_of_described
    exact absurd hd (hno rows)
  | stocks hd' hs' =>
    cases hd.symm.trans hd'
    have heq := (filterMap_described hs).symm.trans (filterMap_described hs')
    rw [heq]
  | undescribed hd' hm hn =>
    cases hd.symm.trans hd'
    obtain ⟨stock,hstock⟩ := hall _ (List.mem_map_of_mem hm)
    rw [hn] at hstock
    cases hstock

/-- A completed reply carries the stocks of its well-formed elements in order. -/
theorem searchReply_completed {stocks : List Stock} (h : searchReply response=.completed stocks) :
    ∃elements,response.datasets=some elements ∧
      stocks=elements.filterMap Stock.described := by
  have ho := searchReply_outcome response
  rw [h] at ho
  cases ho with
  | stocks hd hs => exact ⟨_,hd,(filterMap_described hs).symm⟩

theorem searchReply_calls {s t : App P} {id : ℕ} (h : s.searchReply id response=some t) :
    ∃calls : List (Block P),calls.length≤1 ∧ t.mainQueue=s.mainQueue++calls := by
  cases App.searchReply_cases h with
  | inl he => exact ⟨[],by simp,by rw [he,List.append_nil]⟩
  | inr hex =>
    obtain ⟨task,_,_,rfl⟩ := hex
    exact ⟨_,Option.length_toList_le,rfl⟩

end StockManager

open StockManager

/-- A reply is handled as it should be exactly when it is no array and all its
datasets are described. -/
theorem search_reply_exact_iff (response : Response P) :
    SearchReplyExact response ↔ response.SearchGuarded := by
  have ho := searchReply_outcome response
  constructor
  · intro h
    have htotal := h.total
    refine ⟨?_,?_⟩
    · rintro items rfl
      exact htotal rfl
    · intro elements hd hobj
      obtain ⟨rows,rfl⟩ := Json.exists_map_object.mpr hobj
      generalize searchReply response=result at ho htotal
      cases ho with
      | array | undescribed => exact absurd rfl htotal
      | unshaped _ hno => exact absurd hd (hno rows)
      | stocks hd' hs =>
        rw [Option.some.inj (hd.symm.trans hd')]
        exact forall_described hs
  · intro h
    refine ⟨?_,fun _ _ => searchReply_wellShaped,fun _ => searchReply_completed,
      fun _ _ _ => searchReply_calls⟩
    generalize searchReply response=result at ho
    cases ho with
    | array ha => exact absurd ha (h.notArray _)
    | unshaped | stocks => simp
    | undescribed hd hm hn =>
      obtain ⟨stock,hstock⟩ := h.described _ hd (Json.exists_map_object.mp ⟨_,rfl⟩) _
        (List.mem_map_of_mem hm)
      rw [hn] at hstock
      cases hstock

/-- One element without a `dataset_code` between two good ones. -/
theorem search_reply_traps : ¬∀response : Response ℕ,SearchReplyExact response := by
  intro h
  exact (h (.json (.object [("datasets",.array [
    .object [("name",.string "Ford"),("dataset_code",.string "F")],
    .object [("name",.string "Facebook")],
    .object [("name",.string "GE"),("dataset_code",.string "GE")]])]))).total (by decide)

end SStock
