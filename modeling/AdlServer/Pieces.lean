import Mathlib.Tactic.Common

/-! A length that is handed over in pieces: each call is asked for all that is left, and
takes some of it. -/
namespace AdlServer.Pieces
variable {take : Nat → Nat → Nat} {len : Nat}

/-- What is left of `len` before the `j`-th call; asked for `n`, that call takes `take j n`. -/
def left (take : Nat → Nat → Nat) (len : Nat) : Nat → Nat
  | 0 => len
  | j+1 => left take len j-take j (left take len j)

def piece (take : Nat → Nat → Nat) (len j : Nat) : Nat := take j (left take len j)

def handed (take : Nat → Nat → Nat) (len j : Nat) : Nat := len-left take len j

theorem left_succ (j : Nat) : left take len (j+1) = left take len j-piece take len j := rfl

theorem left_le (j : Nat) : left take len j ≤ len := by
  induction j with
  | zero => exact Nat.le_refl len
  | succ j ih => exact Nat.le_trans (Nat.sub_le _ _) ih

theorem handed_zero : handed take len 0 = 0 := Nat.sub_self len

theorem handed_add_left (j : Nat) : handed take len j+left take len j = len :=
  Nat.sub_add_cancel (left_le j)

theorem handed_succ (htake : ∀ j n, take j n ≤ n) (j : Nat) :
    handed take len (j+1) = handed take len j+piece take len j := by
  have hpiece : piece take len j ≤ left take len j := htake j _
  have hle : left take len j ≤ len := left_le j
  rw [handed,handed,left_succ]
  omega

theorem exists_end_from (d : Nat) {k : Nat} (hd : left take len k ≤ d)
    (hk : ∀ j, j < k → left take len j ≠ 0 ∧ piece take len j ≠ 0) :
    ∃ m, (∀ j, j < m → left take len j ≠ 0 ∧ piece take len j ≠ 0) ∧
      (left take len m = 0 ∨ piece take len m = 0) := by
  induction d generalizing k with
  | zero => exact ⟨k,hk,.inl (Nat.le_zero.mp hd)⟩
  | succ d ih =>
    by_cases hend : left take len k = 0 ∨ piece take len k = 0
    · exact ⟨k,hk,hend⟩
    · have hmore := not_or.mp hend
      refine ih (k := k+1) (by rw [left_succ]; omega) fun j hj => ?_
      by_cases hlast : j = k
      · rw [hlast]
        exact hmore
      · exact hk j (by omega)

theorem exists_end (take : Nat → Nat → Nat) (len : Nat) :
    ∃ m, (∀ j, j < m → left take len j ≠ 0 ∧ piece take len j ≠ 0) ∧
      (left take len m = 0 ∨ piece take len m = 0) :=
  exists_end_from len (left_le 0) fun j hj => absurd hj (Nat.not_lt_zero j)

end AdlServer.Pieces
