import Mathlib.Algebra.Group.Nat.Defs
import Mathlib.Data.List.Basic

/-! Numbers written with a fixed number of digits, and lines of several of them with
separators between: the lexicographic order of the texts is the order of the numbers. -/
namespace AdlServer.FixedWidth
variable {β : Type}

/-- The last `w` digits of `n` in base `b`. -/
def padded (b : Nat) (digit : Nat → β) : Nat → Nat → List β
  | 0,_ => []
  | w+1,n => padded b digit w (n/b)++[digit (n%b)]

def line (b : Nat) (digit : Nat → β) : List (Nat×List β) → List Nat → List β
  | (w,sep)::ws,x::xs => padded b digit w x++(sep++line b digit ws xs)
  | _,_ => []

/-- Each number has a place, and is not too wide for it. -/
def Fits (b : Nat) (ws : List (Nat×List β)) (xs : List Nat) : Prop :=
  List.Forall₂ (fun w x => x < b^w.1) ws xs

variable {b : Nat} {digit : Nat → β} {w n m : Nat} {ws : List (Nat×List β)} {xs ys : List Nat}

@[simp] theorem padded_length (b : Nat) (digit : Nat → β) (w n : Nat) :
    (padded b digit w n).length = w := by
  induction w generalizing n with
  | zero => rfl
  | succ w ih => rw [padded,List.length_append,ih,List.length_singleton]

theorem line_append (hx : Fits b ws xs) (vs : List (Nat×List β)) (ys : List Nat) :
    line b digit (ws++vs) (xs++ys) = line b digit ws xs++line b digit vs ys := by
  induction hx with
  | nil => rfl
  | cons _ _ ih =>
    rw [List.cons_append,List.cons_append,line,line,ih]
    simp only [List.append_assoc]

theorem Fits.append {vs : List (Nat×List β)} (hx : Fits b ws xs) (hy : Fits b vs ys) :
    Fits b (ws++vs) (xs++ys) := by
  induction hx with
  | nil => exact hy
  | cons h _ ih => exact .cons h ih

variable [LT β]

def Rising (b : Nat) (digit : Nat → β) : Prop := ∀ d e, d < e → e < b → digit d < digit e

theorem append_lt {s t : List β} (h : s < t) (hlen : s.length = t.length) (u v : List β) :
    s++u < t++v := by
  induction s generalizing t with
  | nil =>
    rw [List.eq_nil_of_length_eq_zero hlen.symm] at h
    exact absurd h (List.not_lt_nil _)
  | cons x s ih =>
    cases t with
    | nil => exact absurd h (List.not_lt_nil _)
    | cons y t =>
      rw [List.cons_append,List.cons_append]
      rw [List.cons_lt_cons_iff] at h ⊢
      cases h with
      | inl h => exact .inl h
      | inr h => exact .inr ⟨h.1,ih h.2 (Nat.succ.inj hlen)⟩

theorem padded_lt (hd : Rising b digit) (h : n < m) (hm : m < b^w) :
    padded b digit w n < padded b digit w m := by
  induction w generalizing n m with
  | zero =>
    rw [Nat.pow_zero] at hm
    omega
  | succ w ih =>
    have hpos : 0 < b := Nat.pos_of_ne_zero fun h0 => by simp [h0] at hm
    have hdiv : m/b < b^w := Nat.div_lt_of_lt_mul (by rwa [Nat.pow_succ,Nat.mul_comm] at hm)
    rw [padded,padded]
    cases Nat.lt_or_eq_of_le (Nat.div_le_div_right (c := b) (Nat.le_of_lt h)) with
    | inl hlt => exact append_lt (ih hlt hdiv) (by simp) _ _
    | inr heq =>
      have hmod : n%b < m%b := by
        have hn := Nat.div_add_mod n b
        have hm := Nat.div_add_mod m b
        rw [heq] at hn
        omega
      rw [heq]
      refine List.append_left_lt (List.cons_lt_cons_iff.mpr (.inl ?_))
      exact hd _ _ hmod (Nat.mod_lt _ hpos)

theorem line_lt (hd : Rising b digit) (hx : Fits b ws xs) (hy : Fits b ws ys) (h : xs < ys) :
    line b digit ws xs < line b digit ws ys := by
  induction hx generalizing ys with
  | nil =>
    cases hy with
    | nil => exact absurd h (List.not_lt_nil _)
  | @cons w x ws xs _ _ ih =>
    cases hy with
    | @cons _ y _ ys hyw hys =>
      rw [line,line]
      rw [List.cons_lt_cons_iff] at h
      cases h with
      | inl h => exact append_lt (padded_lt hd h hyw) (by simp) _ _
      | inr h =>
        rw [h.1]
        exact List.append_left_lt (List.append_left_lt (ih hys h.2))

variable [Std.Asymm ((·<·) : β → β → Prop)]

theorem lt_or_lt (h : xs ≠ ys) : xs < ys ∨ ys < xs := by
  by_cases hlt : xs < ys
  · exact .inl hlt
  · exact .inr ((List.le_iff_lt_or_eq.mp (List.not_lt.mp hlt)).resolve_right h.symm)

theorem line_lt_iff (hd : Rising b digit) (hx : Fits b ws xs) (hy : Fits b ws ys) :
    line b digit ws xs < line b digit ws ys ↔ xs < ys := by
  refine ⟨fun h => ?_,line_lt hd hx hy⟩
  by_cases heq : xs = ys
  · rw [heq] at h
    exact absurd h (List.lt_asymm h)
  · exact (lt_or_lt heq).resolve_right fun hlt => List.lt_asymm h (line_lt hd hy hx hlt)

end AdlServer.FixedWidth
