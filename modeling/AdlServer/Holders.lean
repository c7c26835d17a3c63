import Mathlib.Data.List.Nodup

/-! Things that a number of holders have between them, each of them with one holder. -/
namespace AdlServer.Holders
variable {α β : Type} {held : β → List α} {hs : List β} {i : Nat} {h h' : β} {xs ys : List α}

/-- One holder takes `xs` and gives `ys`, and the others keep theirs. -/
theorem exchange (hi : hs[i]? = some h) (hx : (xs++held h).Perm (ys++held h')) :
    (xs++hs.flatMap held).Perm (ys++(hs.set i h').flatMap held) := by
  induction hs generalizing i with
  | nil => cases hi
  | cons k hs ih =>
    cases i with
    | zero =>
      obtain rfl := Option.some.inj hi
      rw [List.set_cons_zero,List.flatMap_cons,List.flatMap_cons]
      rw [← List.append_assoc,← List.append_assoc]
      exact hx.append_right _
    | succ i =>
      rw [List.set_cons_succ,List.flatMap_cons,List.flatMap_cons]
      have hrest := (ih hi).append_left (held k)
      exact ((List.perm_append_comm_assoc _ _ _).trans hrest).trans
        (List.perm_append_comm_assoc _ _ _)

theorem same_holder {x : α} {j : Nat} (hn : (hs.flatMap held).Nodup) (hi : hs[i]? = some h)
    (hj : hs[j]? = some h') (hx : x∈held h) (hx' : x∈held h') : i = j := by
  have hpair := (List.nodup_flatMap.mp hn).2
  obtain ⟨hi',rfl⟩ := List.getElem?_eq_some_iff.mp hi
  obtain ⟨hj',rfl⟩ := List.getElem?_eq_some_iff.mp hj
  rcases Nat.lt_trichotomy i j with hlt | heq | hgt
  · exact absurd hx' (List.pairwise_iff_getElem.mp hpair i j hi' hj' hlt hx)
  · exact heq
  · exact absurd hx (List.pairwise_iff_getElem.mp hpair j i hj' hi' hgt hx')

end AdlServer.Holders
