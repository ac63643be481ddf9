import SStock.Portfolio.DatasetCode
import SStock.Portfolio.StartDate
import SStock.Search.OwnReply
import SStock.Search.SearchUrl

namespace SStock

open Framework StockManager

variable {P : Type}

namespace StockManager

/-- A quote URL determines the code asked for and the start date. -/
theorem stockDataURL_inj {d e : DateFields} {text text' : String} :
    stockDataURL d text=stockDataURL e text' ↔ d=e ∧ text=text' := by
  refine ⟨fun h => ?_,fun ⟨hd,ht⟩ => by rw [hd,ht]⟩
  have hfile := unescape_lastSegment d text
  have hquery := parameters_stockDataURL d text
  rw [h,unescape_lastSegment] at hfile
  rw [h,parameters_stockDataURL] at hquery
  have hdate : (stringFromDate e).toList=(stringFromDate d).toList := by
    simpa using hquery
  have htext : text'++".json"=text++".json" := Option.some.inj hfile
  exact ⟨(stringFromDate_injective (String.toList_inj.mp hdate)).symm,
    (String.append_left_inj ".json").mp htext.symm⟩

theorem escapedQuery_injective : Function.Injective escapedQuery := by
  intro text text' h
  have hu : Percent.unescape (escapedQuery text).toList=some text :=
    Percent.unescape_escape (by decide) text
  have hu' : Percent.unescape (escapedQuery text').toList=some text' :=
    Percent.unescape_escape (by decide) text'
  rw [h,hu'] at hu
  exact (Option.some.inj hu).symm

theorem concat_inj {api esc esc' count key : String}
    (h : api++esc++count++key=api++esc'++count++key) : esc=esc' := by simpa using h

theorem searchURL_injective : Function.Injective searchURL :=
  fun _ _ h => escapedQuery_injective (concat_inj h)

/-- The two kinds of requests go to different paths. -/
theorem searchURL_ne_stockDataURL (text : String) (d : DateFields) (text' : String) :
    searchURL text≠stockDataURL d text' := by
  intro h
  have hchars : (searchURL text).toList.take 39=(stockDataURL d text').toList.take 39 := by rw [h]
  rw [toList_searchURL,toList_stockDataURL,List.append_assoc,
    List.take_append_of_le_length (by decide),List.take_append_of_le_length (by decide)] at hchars
  exact absurd hchars (by decide)

end StockManager

namespace App

/-- The quote requests of an event, each with the start date it is made for. -/
def datedIssues (env : Env P) (s : App P) (e : Event P) : List (QuoteTask × DateFields) :=
  (s.quoteIssues env e).map fun task => (task,s.clock)

theorem url_of_mem_datedIssues {env : Env P} {s : App P} {e : Event P}
    {entry : QuoteTask × DateFields} (h : entry∈s.datedIssues env e) :
    entry.1.url=stockDataURL entry.2 entry.1.text := by
  obtain ⟨task,hm,rfl⟩ := List.mem_map.mp h
  cases e with
  | refreshStocks =>
    obtain ⟨row,_,rfl⟩ := List.mem_map.mp (List.mem_of_mem_filter hm)
    rfl
  | didSelectRow vc r =>
    have hm' : task∈s.quoteIssues env (.didSelectRow vc r) := hm
    rw [quoteIssues] at hm'
    split at hm'
    · cases hm'
    · rw [tapRequest] at hm'
      split_ifs at hm'
      · rw [List.mem_singleton.mp hm']
      · cases hm'
  | _ => cases hm

end App

variable [Zero P] [One P] {env : Env P} {portfolio : List (RealmStock P)}
  {users : List RealmUser} {firebase : List (String × Json P)} {clock : DateFields}
  {es : List (Event P)} {s : App P}

/-- In every run the requests are told apart by their URLs: two quote requests
have the same URL exactly if they ask for the same code from the same start
date, a search has the URL of its text alone, and none that of a quote request. -/
theorem urls_identify_requests
    (h : run (App.step env) (App.launch portfolio users firebase clock) es=some s) :
    let sent := emitted (App.step env) (App.datedIssues env)
      (App.launch portfolio users firebase clock) es
    (∀task∈s.requests,∃d,(task,d)∈sent) ∧
      (∀a∈sent,∀b∈sent,a.1.url=b.1.url ↔ a.1.text=b.1.text ∧ a.2=b.2) ∧
      ∀search∈s.searchTasks,∃k∈emitted (App.step env) App.keystrokes
          (App.launch portfolio users firebase clock) es,k.id=search.id ∧
        (∀text,searchURL text=search.url ↔ text=k.text) ∧ ∀a∈sent,a.1.url≠search.url := by
  intro sent
  have hurl {a : QuoteTask × DateFields} (ha : a∈sent) :
      a.1.url=stockDataURL a.2 a.1.text := by
    obtain ⟨_,e,u,_,_,hm⟩ := mem_emitted ha
    exact App.url_of_mem_datedIssues hm
  refine ⟨?_,?_,?_⟩
  · intro task hm
    have hissued := (sent_of_run h).perm.mem_iff.mp hm
    have hfst : sent.map Prod.fst=emitted (App.step env) (App.quoteIssues env)
        (App.launch portfolio users firebase clock) es := by
      rw [← emitted_map]
      simp only [App.datedIssues,List.map_map,Function.comp_def,List.map_id']
    rw [← hfst] at hissued
    obtain ⟨a,ha,rfl⟩ := List.mem_map.mp hissued
    exact ⟨a.2,ha⟩
  · intro a ha b hb
    rw [hurl ha,hurl hb,stockDataURL_inj,and_comm]
  · intro search hm
    obtain ⟨k,hk,hid,_,htext⟩ := (typed_of_run h).tasks search hm
    refine ⟨k,hk,hid,?_,?_⟩
    · intro text
      rw [htext]
      exact searchURL_injective.eq_iff
    · intro a ha
      rw [htext,hurl ha]
      exact (searchURL_ne_stockDataURL k.text a.2 a.1.text).symm

/-- Two rows of one code, refreshed again on the next day. -/
theorem urls_identify_requests_next_day :
    ∃s,run (App.step App.sampleEnv)
        (App.sampleLaunch [App.sampleStock "FB" 3,App.sampleStock "FB" 5])
        [.refreshStocks,.clock ⟨2016,4,9⟩,.refreshStocks]=some s ∧
      ∃a∈s.requests,∃b∈s.requests,∃c∈s.requests,(a.id=1 ∧ b.id=2 ∧ c.id=3) ∧
        a.url=b.url ∧ a.url≠c.url := by
  obtain ⟨s,hs,a,ha,b,hb,c,hc,hreq,hids,hab,hac⟩ : ∃s,run (App.step App.sampleEnv)
        (App.sampleLaunch [App.sampleStock "FB" 3,App.sampleStock "FB" 5])
        [.refreshStocks,.clock ⟨2016,4,9⟩,.refreshStocks]=some s ∧
      let sent := emitted (App.step App.sampleEnv) (App.datedIssues App.sampleEnv)
        (App.sampleLaunch [App.sampleStock "FB" 3,App.sampleStock "FB" 5])
        [.refreshStocks,.clock ⟨2016,4,9⟩,.refreshStocks]
      ∃a∈sent,∃b∈sent,∃c∈sent,(a.1∈s.requests ∧ b.1∈s.requests ∧ c.1∈s.requests) ∧
        (a.1.id=1 ∧ b.1.id=2 ∧ c.1.id=3) ∧ (a.1.text=b.1.text ∧ a.2=b.2) ∧ a.2.day≠c.2.day :=
    ⟨_,rfl,_,.head _,_,.tail _ (.head _),_,.tail _ (.tail _ (.head _)),
      ⟨.head _,.tail _ (.head _),.tail _ (.tail _ (.head _))⟩,⟨rfl,rfl,rfl⟩,⟨rfl,rfl⟩,by decide⟩
  have hurls := (urls_identify_requests hs).2.1
  refine ⟨s,hs,a.1,hreq.1,b.1,hreq.2.1,c.1,hreq.2.2,hids,(hurls a ha b hb).mpr hab,?_⟩
  intro he
  exact hac (congrArg DateFields.day ((hurls a ha c hc).mp he).2)

end SStock
