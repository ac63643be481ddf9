import SStock.Sharing.Messages
import SStock.Framework.KeyOrder

namespace SStock

open Framework

variable {K P : Type}

namespace UserVC

/-- The screen opened under the name `u`, after the blocks of `messages`. -/
def feed (same : String → String → Bool) (u : String) (messages : List (K × Json P)) : UserVC :=
  (viewDidLoad [⟨u⟩]).receive same (messages.map Prod.snd)

end UserVC

/-- The messages that concern the user `u`, as the screen words them. -/
def relevant (same : String → String → Bool) (u : String) (messages : List (K × Json P)) :
    List (K × Entry) :=
  keepValues (Entry.of same (some u)) messages

/-- The rows of messages that arrive in this order, above the initial row. -/
def feedRows (m : List (K × Entry)) : List (String × String × String) :=
  (m.reverse.map fun entry => entry.2.row)++[("","","")]

theorem feedRows_inj {m m' : List (K × Entry)} :
    feedRows m=feedRows m' ↔ m.map Prod.snd=m'.map Prod.snd := by
  rw [feedRows,feedRows,List.append_cancel_right_eq,List.map_reverse,List.map_reverse,
    List.reverse_inj]
  have hmap (l : List (K × Entry)) :
      l.map (fun entry => entry.2.row)=(l.map Prod.snd).map Entry.row := by
    rw [List.map_map]
    rfl
  rw [hmap m,hmap m']
  exact Entry.row_injective.list_map.eq_iff

section Feed

variable {same : String → String → Bool} {u : String}

theorem feed_tableData (messages : List (K × Json P)) :
    (UserVC.feed same u messages).tableData=feedRows (relevant same u messages) := by
  have hwords := congrArg (List.map Entry.row) (keepValues_values (Entry.of same (some u)) messages)
  rw [List.map_map,List.map_filterMap] at hwords
  rw [UserVC.feed,UserVC.receive_eq,List.filterMap_map,feedRows,List.map_reverse]
  exact congrArg (fun rows => rows.reverse++[("","","")]) hwords.symm

variable [LinearOrder K]

/-- The `k`-th message for `u` to arrive is worded as the `k`-th of them by key. -/
def ArrivesInKeyOrder (same : String → String → Bool) (u : String) (l : List (K × Json P)) : Prop :=
  (relevant same u l).map Prod.snd=(inKeyOrder (relevant same u l)).map Prod.snd

instance (l : List (K × Json P)) : Decidable (ArrivesInKeyOrder same u l) :=
  inferInstanceAs (Decidable (_=_))

/-- A screen opened after the messages were written is given them in key order. -/
theorem arrivesInKeyOrder_of_pairwise {l : List (K × Json P)}
    (h : (relevant same u l).Pairwise KeyLe) : ArrivesInKeyOrder same u l := by
  rw [ArrivesInKeyOrder,inKeyOrder_eq_self h]

/-- Where no two of the messages for `u` are worded alike, they have to arrive
by ascending key. -/
theorem arrivesInKeyOrder_iff_pairwise {l : List (K × Json P)}
    (hw : ((relevant same u l).map Prod.snd).Nodup) :
    ArrivesInKeyOrder same u l ↔ (relevant same u l).Pairwise KeyLe := by
  constructor
  · intro h
    have hperm := (inKeyOrder_perm (relevant same u l)).symm
    have hwords := (hperm.map Prod.snd).nodup hw
    rw [eq_of_perm_of_values hperm hwords h]
    exact inKeyOrder_pairwise _
  · exact arrivesInKeyOrder_of_pairwise

/-- The rows of the messages for `u`, greatest key first, above the initial row. -/
def intendedFeed (same : String → String → Bool) (u : String) (messages : List (K × Json P)) :
    List (String × String × String) :=
  ((inKeyOrder messages).reverse.filterMap fun m =>
    (Entry.of same (some u) m.2).map Entry.row)++[("","","")]

theorem intendedFeed_eq {l : List (K × Json P)} (hk : (l.map Prod.fst).Nodup) :
    intendedFeed same u l=feedRows (inKeyOrder (relevant same u l)) := by
  have hwords := congrArg (List.map Entry.row)
    (keepValues_values (Entry.of same (some u)) (inKeyOrder l))
  rw [List.map_map,List.map_filterMap,keepValues_inKeyOrder _ hk] at hwords
  rw [intendedFeed,List.filterMap_reverse,feedRows,List.map_reverse]
  exact congrArg (fun rows => rows.reverse++[("","","")]) hwords.symm

theorem intendedFeed_eq_of_perm (same : String → String → Bool) (u : String)
    {l l' : List (K × Json P)} (hl : l.Perm l') (hk : (l'.map Prod.fst).Nodup) :
    intendedFeed same u l=intendedFeed same u l' := by
  rw [intendedFeed,intendedFeed,inKeyOrder_eq_of_perm hl hk]

theorem feed_eq_intendedFeed_iff {l : List (K × Json P)} (hk : (l.map Prod.fst).Nodup) :
    (UserVC.feed same u l).tableData=intendedFeed same u l ↔ ArrivesInKeyOrder same u l := by
  rw [feed_tableData,intendedFeed_eq hk]
  exact feedRows_inj

/-- Two screens that are given the same messages show the same list, the
greatest key first, exactly if each is given its own by ascending key, up to
messages that are worded alike. -/
theorem feed_order_iff (same : String → String → Bool) (u : String) {l₁ l₂ : List (K × Json P)}
    (hl : l₁.Perm l₂) (hk : (l₁.map Prod.fst).Nodup) :
    ((UserVC.feed same u l₁).tableData=(UserVC.feed same u l₂).tableData ∧
        (UserVC.feed same u l₁).tableData=intendedFeed same u l₁) ↔
      ArrivesInKeyOrder same u l₁ ∧ ArrivesInKeyOrder same u l₂ := by
  have hk₂ : (l₂.map Prod.fst).Nodup := (hl.map Prod.fst).nodup hk
  have hintended := intendedFeed_eq_of_perm same u hl hk₂
  rw [← feed_eq_intendedFeed_iff hk,← feed_eq_intendedFeed_iff hk₂,← hintended]
  constructor
  · rintro ⟨hagree,h₁⟩
    exact ⟨h₁,hagree.symm.trans h₁⟩
  · rintro ⟨h₁,h₂⟩
    exact ⟨h₁.trans h₂.symm,h₁⟩

/-- A child that is no message may arrive at any time. -/
theorem feed_order_ascending :
    let l₁ : List (ℕ × Json ℕ) := [(2,chatMessage "bob" "ann" "GE"),(1,.string "x"),
      (3,chatMessage "ann" "bob" "FB")]
    let l₂ : List (ℕ × Json ℕ) := [(1,.string "x"),(2,chatMessage "bob" "ann" "GE"),
      (3,chatMessage "ann" "bob" "FB")]
    (UserVC.feed (·==·) "ann" l₁).tableData=(UserVC.feed (·==·) "ann" l₂).tableData ∧
      (UserVC.feed (·==·) "ann" l₁).tableData=intendedFeed (·==·) "ann" l₁ :=
  (feed_order_iff (·==·) "ann" (List.Perm.swap _ _ _) (by decide)).mpr ⟨by decide,by decide⟩

/-- A message with a smaller key that arrives late is put on top. -/
theorem feed_order_late_key :
    let l₁ : List (ℕ × Json ℕ) := [(2,chatMessage "bob" "ann" "GE"),
      (1,chatMessage "bob" "ann" "FB")]
    let l₂ : List (ℕ × Json ℕ) := [(1,chatMessage "bob" "ann" "FB"),
      (2,chatMessage "bob" "ann" "GE")]
    l₁.Perm l₂ ∧ (l₁.map Prod.fst).Nodup ∧
      (UserVC.feed (·==·) "ann" l₁).tableData≠(UserVC.feed (·==·) "ann" l₂).tableData ∧
      (UserVC.feed (·==·) "ann" l₁).tableData≠intendedFeed (·==·) "ann" l₁ :=
  ⟨List.Perm.swap _ _ _,by decide,by decide,by decide⟩

end Feed

end SStock
