import Mathlib.Order.Lattice
import Mathlib.Data.List.Basic

/-! `std::min_element`: the search, and the place that it must find. -/
namespace AdlServer.Cpp
variable {α : Type} [LinearOrder α]

def minElementFrom (smallest : α) (best here : Nat) : List α → Nat
  | [] => best
  | x::xs =>
    if x < smallest then minElementFrom x here (here+1) xs
    else minElementFrom smallest best (here+1) xs

def minElement : List α → Option Nat
  | [] => none
  | x::xs => some (minElementFrom x 0 1 xs)

/-- The element at `i` is `x`; none is less, and those before it are greater. -/
structure FirstLeast (xs : List α) (i : Nat) (x : α) : Prop where
  here : xs[i]? = some x
  least : ∀ y∈xs, x ≤ y
  first : ∀ y∈xs.take i, x < y

namespace FirstLeast
variable {xs ys : List α} {i j : Nat} {x y : α}

theorem lt_length (h : FirstLeast xs i x) : i < xs.length := by
  by_contra hi
  cases (List.getElem?_eq_none (Nat.le_of_not_lt hi)).symm.trans h.here

theorem mem_take (h : FirstLeast xs i x) (hij : i < j) : x∈xs.take j := by
  refine List.mem_of_getElem? (i := i) ?_
  rw [List.getElem?_take_of_lt hij]
  exact h.here

theorem unique (h : FirstLeast xs i x) (h' : FirstLeast xs j y) : i = j := by
  by_contra hne
  cases Nat.lt_or_gt_of_ne hne with
  | inl hlt =>
    have hyx := h'.first x (h.mem_take hlt)
    exact absurd (h.least y (List.mem_of_getElem? h'.here)) (not_le_of_gt hyx)
  | inr hlt =>
    have hxy := h.first y (h'.mem_take hlt)
    exact absurd (h'.least x (List.mem_of_getElem? h.here)) (not_le_of_gt hxy)

theorem append_keep (h : FirstLeast xs i x) (hy : ¬ y < x) : FirstLeast (xs++[y]) i x := by
  refine ⟨?_,?_,?_⟩
  · rw [List.getElem?_append_left h.lt_length]
    exact h.here
  · intro z hz
    cases List.mem_append.mp hz with
    | inl hz => exact h.least z hz
    | inr hz =>
      rw [List.mem_singleton.mp hz]
      exact le_of_not_gt hy
  · rw [List.take_append_of_le_length (Nat.le_of_lt h.lt_length)]
    exact h.first

theorem append_take (h : FirstLeast xs i x) (hy : y < x) :
    FirstLeast (xs++[y]) xs.length y := by
  have hless : ∀ z∈xs, y < z := fun z hz => lt_of_lt_of_le hy (h.least z hz)
  refine ⟨List.getElem?_concat_length,?_,?_⟩
  · intro z hz
    cases List.mem_append.mp hz with
    | inl hz => exact le_of_lt (hless z hz)
    | inr hz => exact le_of_eq (List.mem_singleton.mp hz).symm
  · rw [List.take_left]
    exact hless

end FirstLeast

theorem minElementFrom_spec {before : List α} {smallest : α} {best : Nat} (xs : List α)
    (h : FirstLeast before best smallest) :
    ∃ x, FirstLeast (before++xs) (minElementFrom smallest best before.length xs) x := by
  induction xs generalizing before smallest best with
  | nil => exact ⟨smallest,by simpa [minElementFrom] using h⟩
  | cons x xs ih =>
    have hsplit : before++x::xs = (before++[x])++xs := by simp
    have hlen : before.length+1 = (before++[x]).length := by simp
    rw [minElementFrom,hsplit,hlen]
    split_ifs with hx
    · exact ih (h.append_take hx)
    · exact ih (h.append_keep hx)

theorem minElement_spec {xs : List α} {i : Nat} (h : minElement xs = some i) :
    ∃ x, FirstLeast xs i x := by
  cases xs with
  | nil => cases h
  | cons x xs =>
    have hone : FirstLeast [x] 0 x := ⟨rfl,by simp,by simp⟩
    rw [← Option.some.inj h]
    exact minElementFrom_spec xs hone

end AdlServer.Cpp
