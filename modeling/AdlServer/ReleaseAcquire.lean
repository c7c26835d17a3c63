import Mathlib.Order.Lattice

/-! Memory that threads share under release and acquire: each location keeps all that was ever
written to it, each thread has seen some of it, and a message carries what its writer let go with
it. -/
namespace AdlServer.ReleaseAcquire
variable {ι ν : Type}

abbrev View (ι : Type) := ι → Nat

/-- A write: what it wrote, and what whoever acquires it has seen then. -/
structure Message (ι ν : Type) where
  value : ν
  view : View ι

abbrev History (ι ν : Type) := ι → Nat → Option (Message ι ν)

/-- What a thread has seen, what its writes let go without being releases, and what a fence would
let it see. -/
structure ThreadView (ι : Type) where
  cur : View ι
  rel : View ι
  acq : View ι

/-- How an access is ordered: not at all, by its own order, or by a fence beside it. -/
inductive Order where
  | relaxed | ordered | fenced
  deriving DecidableEq

section
variable [DecidableEq ι]

def seen (x : ι) (t : Nat) : View ι := fun y => if y = x then t else 0

/-- Nothing older than what the thread has seen can be read. -/
def Readable (h : History ι ν) (v : ThreadView ι) (x : ι) (t : Nat) (m : Message ι ν) : Prop :=
  h x t = some m ∧ v.cur x ≤ t

def Writable (h : History ι ν) (v : ThreadView ι) (x : ι) (t : Nat) : Prop :=
  h x t = none ∧ v.cur x < t

def History.post (h : History ι ν) (x : ι) (t : Nat) (m : Message ι ν) : History ι ν :=
  fun y u => if y = x ∧ u = t then some m else h y u

namespace ThreadView
variable (v : ThreadView ι) (x : ι) (t : Nat)

def acquireFence : ThreadView ι := { v with cur := v.cur ⊔ v.acq }

def releaseFence : ThreadView ι := { v with rel := v.cur }

def read (acquire : Bool) (m : Message ι ν) : ThreadView ι :=
  { v with
    cur := v.cur ⊔ seen x t ⊔ (if acquire then m.view else fun _ => 0)
    acq := v.acq ⊔ seen x t ⊔ m.view }

def write : ThreadView ι := { v with cur := v.cur ⊔ seen x t, acq := v.acq ⊔ seen x t }

def message (release : Bool) (value : ν) : Message ι ν where
  value := value
  view := (if release then v.cur else v.rel) ⊔ seen x t

def join (w : View ι) : ThreadView ι := { v with cur := v.cur ⊔ w, acq := v.acq ⊔ w }

def load (o : Order) (m : Message ι ν) : ThreadView ι :=
  match o with
  | .relaxed => v.read x t false m
  | .ordered => v.read x t true m
  | .fenced => (v.read x t false m).acquireFence

def beforeStore (o : Order) : ThreadView ι := if o = .fenced then v.releaseFence else v

def stored (o : Order) (value : ν) : Message ι ν :=
  (v.beforeStore o).message x t (o = .ordered) value

def store (o : Order) : ThreadView ι := (v.beforeStore o).write x t

end ThreadView

variable {h : History ι ν} {x y : ι} {t u : Nat} {m : Message ι ν} {o : Order}

@[simp] theorem seen_self (x : ι) (t : Nat) : seen x t x = t := if_pos rfl

theorem seen_other (hne : y ≠ x) (t : Nat) : seen x t y = 0 := if_neg hne

theorem post_self (h : History ι ν) (x : ι) (t : Nat) (m : Message ι ν) :
    h.post x t m x t = some m := if_pos ⟨rfl,rfl⟩

theorem post_other (hne : ¬ (y = x ∧ u = t)) : h.post x t m y u = h y u := if_neg hne

theorem post_cases {m' : Message ι ν} (hp : h.post x t m y u = some m') :
    (y = x ∧ u = t ∧ m' = m) ∨ h y u = some m' := by
  by_cases hyu : y = x ∧ u = t
  · rw [History.post,if_pos hyu] at hp
    exact .inl ⟨hyu.1,hyu.2,(Option.some.inj hp).symm⟩
  · rw [post_other hyu] at hp
    exact .inr hp

/-! Nothing that has been seen is forgotten. -/

theorem load_cur (o : Order) (v : ThreadView ι) (x : ι) (t : Nat) (m : Message ι ν) :
    v.cur ≤ (v.load x t o m).cur := by
  cases o with
  | relaxed => exact le_sup_left.trans le_sup_left
  | ordered => exact le_sup_left.trans le_sup_left
  | fenced => exact (le_sup_left.trans le_sup_left).trans le_sup_left

theorem store_cur (o : Order) (v : ThreadView ι) (x : ι) (t : Nat) :
    v.cur ≤ (v.store x t o).cur := by
  rw [ThreadView.store,ThreadView.beforeStore]
  split_ifs <;> exact le_sup_left

theorem store_self (o : Order) (v : ThreadView ι) (x : ι) (t : Nat) :
    t ≤ (v.store x t o).cur x := by
  have hs : seen x t ≤ (v.store x t o).cur := by
    rw [ThreadView.store,ThreadView.beforeStore]
    split_ifs <;> exact le_sup_right
  have ht := hs x
  rwa [seen_self] at ht

/-! Message passing: what the writer had seen the reader sees, if both ends are ordered. -/

theorem stored_view (ho : o ≠ .relaxed) (v : ThreadView ι) (x : ι) (t : Nat) (a : ν) :
    v.cur ≤ (v.stored x t o a).view := by
  cases o with
  | relaxed => exact absurd rfl ho
  | ordered => exact le_sup_left
  | fenced => exact le_sup_left

theorem load_view (ho : o ≠ .relaxed) (v : ThreadView ι) (x : ι) (t : Nat) (m : Message ι ν) :
    m.view ≤ (v.load x t o m).cur := by
  cases o with
  | relaxed => exact absurd rfl ho
  | ordered => exact le_sup_right
  | fenced => exact le_sup_right.trans le_sup_right

theorem load_relaxed (hne : y ≠ x) (v : ThreadView ι) (t : Nat) (m : Message ι ν) :
    (v.load x t .relaxed m).cur y = v.cur y := by
  simp [ThreadView.load,ThreadView.read,seen_other hne]

theorem stored_relaxed (hne : y ≠ x) (v : ThreadView ι) (t : Nat) (a : ν) :
    (v.stored x t .relaxed a).view y = v.rel y := by
  simp [ThreadView.stored,ThreadView.message,ThreadView.beforeStore,seen_other hne]

end

theorem join_cur (v : ThreadView ι) (w : View ι) : v.cur ≤ (v.join w).cur := le_sup_left

theorem join_view (v : ThreadView ι) (w : View ι) : w ≤ (v.join w).cur := le_sup_right

end AdlServer.ReleaseAcquire
