import Mathlib.Data.List.Chain

/-! A cache of one entry: what was computed for the last new key is given out again as long
as the key stays. -/
namespace AdlServer.LastKey
variable {α κ β : Type} [DecidableEq κ]

structure Cache (κ β : Type) where
  key : κ
  value : β

/-- The cache behind a question, where the question's own value has been computed if its key
is a new one. -/
def ask (key : α → κ) (f : α → β) (c : Cache κ β) (x : α) : Cache κ β :=
  if key x ≠ c.key then ⟨key x,f x⟩ else c

def answers (key : α → κ) (f : α → β) (c : Cache κ β) : List α → List β
  | [] => []
  | x::xs => (ask key f c x).value::answers key f (ask key f c x) xs

section
variable (key : α → κ) (f : α → β)

theorem ask_key (c : Cache κ β) (x : α) : (ask key f c x).key = key x := by
  rw [ask]
  by_cases hx : key x = c.key
  · rw [if_neg (not_not.mpr hx),hx]
  · rw [if_pos hx]

theorem ask_value_iff (c : Cache κ β) (x : α) :
    (ask key f c x).value = f x ↔ (key x = c.key → c.value = f x) := by
  rw [ask]
  by_cases hx : key x = c.key
  · rw [if_neg (not_not.mpr hx)]
    exact ⟨fun h _ => h,fun h => h hx⟩
  · rw [if_pos hx]
    exact ⟨fun _ h => absurd h hx,fun _ => rfl⟩

end

variable {key : α → κ} {f : α → β} {c : Cache κ β}

/-- Behind an element that was answered rightly, every answer is right exactly if no two
neighbours of one key differ in their values. -/
theorem answers_behind {x : α} (hkey : c.key = key x) (hvalue : c.value = f x) (xs : List α) :
    answers key f c xs = xs.map f ↔
      (x::xs).IsChain fun x y => key x = key y → f x = f y := by
  induction xs generalizing c x with
  | nil => exact ⟨fun _ => .singleton x,fun _ => rfl⟩
  | cons y ys ih =>
    have hone := ask_value_iff key f c y
    rw [hkey,hvalue] at hone
    rw [answers,List.map_cons,List.cons_eq_cons,List.isChain_cons_cons,hone]
    constructor
    · intro h
      obtain ⟨hy,hys⟩ := h
      exact ⟨fun he => hy he.symm,(ih (ask_key key f c y) (hone.mpr hy)).mp hys⟩
    · intro h
      obtain ⟨hy,hys⟩ := h
      have hright : key y = key x → f x = f y := fun he => hy he.symm
      exact ⟨hright,(ih (ask_key key f c y) (hone.mpr hright)).mpr hys⟩

theorem answers_eq_map_iff (c : Cache κ β) (xs : List α) :
    answers key f c xs = xs.map f ↔
      (∀ x∈xs.head?, key x = c.key → c.value = f x) ∧
      xs.IsChain fun x y => key x = key y → f x = f y := by
  cases xs with
  | nil => simp [answers]
  | cons x xs =>
    have hone := ask_value_iff key f c x
    rw [answers,List.map_cons,List.cons_eq_cons,hone,List.head?_cons]
    constructor
    · intro h
      obtain ⟨hx,hxs⟩ := h
      refine ⟨fun y hy => ?_,(answers_behind (ask_key key f c x) (hone.mpr hx) xs).mp hxs⟩
      rwa [← Option.some.inj hy]
    · intro h
      obtain ⟨hx,hxs⟩ := h
      exact ⟨hx x rfl,(answers_behind (ask_key key f c x) (hone.mpr (hx x rfl)) xs).mpr hxs⟩

end AdlServer.LastKey
