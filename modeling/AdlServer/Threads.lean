import Mathlib.Logic.Relation
import Mathlib.Data.List.Basic

/-! Threads as the list of the points they have reached, going on one at a time and in
any order, and the condition variables on which some of them sleep. -/
namespace AdlServer.Threads
variable {σ π : Type}

theorem invariant_of_run {step : σ → σ → Prop} {I : σ → Prop}
    (hstep : ∀ s t, I s → step s t → I t) {s t : σ} (hrun : Relation.ReflTransGen step s t)
    (h : I s) : I t := by
  induction hrun with
  | refl => exact h
  | tail _ hst ih => exact hstep _ _ ih hst

inductive Move (p q : π) : List π → List π → Prop where
  | mk (before after : List π) : Move p q (before++p::after) (before++q::after)

variable {p q : π} {ts us : List π}

theorem Move.mem (h : Move p q ts us) : p∈ts := by
  cases h with
  | mk before after => simp

theorem Move.mem_right (h : Move p q ts us) : q∈us := by
  cases h with
  | mk before after => simp

theorem Move.countP (h : Move p q ts us) (f : π → Bool) :
    us.countP f+(f p).toNat = ts.countP f+(f q).toNat := by
  cases h with
  | mk before after =>
    simp only [List.countP_append,List.countP_cons]
    cases f p <;> cases f q <;> simp only [Bool.toNat_true,Bool.toNat_false,if_true,Bool.false_eq_true,if_false] <;>
      omega

theorem Move.countP_same (h : Move p q ts us) {f : π → Bool} (hf : f p = f q) :
    us.countP f = ts.countP f := by
  have hc := h.countP f
  rw [hf] at hc
  omega

theorem Move.countP_left (h : Move p q ts us) {f : π → Bool} (hp : f p = true)
    (hq : f q = false) : us.countP f+1 = ts.countP f := by
  have hc := h.countP f
  rwa [hp,hq] at hc

theorem Move.countP_entered (h : Move p q ts us) {f : π → Bool} (hp : f p = false)
    (hq : f q = true) : us.countP f = ts.countP f+1 := by
  have hc := h.countP f
  rwa [hp,hq] at hc

/-! Condition variables. -/

/-- `notify_one`: some sleeper goes on to `wake` of its point, if there is one. -/
inductive NotifyOne (asleep : π → Bool) (wake : π → π) : List π → List π → Prop where
  | one {p : π} {ts us : List π} (h : asleep p = true) (hm : Move p (wake p) ts us) :
    NotifyOne asleep wake ts us
  | nobody {ts : List π} (h : ts.countP asleep = 0) : NotifyOne asleep wake ts ts

def notifyAll (asleep : π → Bool) (wake : π → π) (ts : List π) : List π :=
  ts.map fun p => if asleep p then wake p else p

variable {asleep : π → Bool} {wake : π → π}

theorem NotifyOne.countP_eq (h : NotifyOne asleep wake ts us) {f : π → Bool}
    (hf : ∀ p, asleep p = true → f (wake p) = f p) : us.countP f = ts.countP f := by
  cases h with
  | nobody _ => rfl
  | one hp hm => exact hm.countP_same (hf _ hp).symm

theorem notifyAll_countP_eq {f : π → Bool} (hf : ∀ p, asleep p = true → f (wake p) = f p)
    (ts : List π) : (notifyAll asleep wake ts).countP f = ts.countP f := by
  rw [notifyAll]
  rw [List.countP_map]
  refine List.countP_congr fun p _ => ?_
  cases hp : asleep p with
  | false => simp [hp]
  | true => simp [hp,hf p hp]

/-! Resources that threads wait for: how many there are, how many threads sleep for one,
and how many have been awakened and not run yet. -/

structure Tally where
  available : Nat
  asleep : Nat
  woken : Nat

namespace Tally

inductive Step : Tally → Tally → Prop where
  | addWakes {t u : Tally} (ha : u.available = t.available+1) (hs : u.asleep+1 = t.asleep)
    (hw : u.woken = t.woken+1) : Step t u
  | addUnseen {t u : Tally} (ha : u.available = t.available+1) (h0 : t.asleep = 0)
    (hs : u.asleep = t.asleep) (hw : u.woken = t.woken) : Step t u
  | take {t u : Tally} (ha : u.available+1 = t.available) (hs : u.asleep = t.asleep)
    (hw : u.woken ≤ t.woken ∧ t.woken ≤ u.woken+1) : Step t u
  | sleep {t u : Tally} (h0 : t.available = 0) (ha : u.available = t.available)
    (hs : u.asleep = t.asleep+1) (hw : u.woken ≤ t.woken) : Step t u
  | wake {t u : Tally} (ha : u.available = t.available) (hs : u.asleep+1 = t.asleep)
    (hw : u.woken = t.woken+1) : Step t u

/-- While a thread sleeps, every resource has somebody awakened to take it. -/
def NoneLost (t : Tally) : Prop := t.asleep = 0 ∨ t.available ≤ t.woken

/-- A newcomer may take what an awakened thread was called for, and still no wake-up
is lost. -/
theorem Step.noneLost {t u : Tally} (h : Step t u) (ht : t.NoneLost) : u.NoneLost := by
  rw [NoneLost] at ht ⊢
  cases h with
  | addWakes ha hs hw => omega
  | addUnseen ha h0 hs hw => omega
  | take ha hs hw => omega
  | sleep h0 ha hs hw => omega
  | wake ha hs hw => omega

end Tally

/-- How the threads that sleep for a resource are told from those awakened for it. -/
structure Sleeping (asleep woken : π → Bool) (wake : π → π) : Prop where
  wakes : ∀ p, asleep p = true → asleep (wake p) = false ∧ woken (wake p) = true
  apart : ∀ p, asleep p = true → woken p = false

variable {woken : π → Bool}

theorem NotifyOne.tally (h : NotifyOne asleep wake ts us) (hs : Sleeping asleep woken wake) :
    (us.countP asleep+1 = ts.countP asleep ∧ us.countP woken = ts.countP woken+1) ∨
    (ts.countP asleep = 0 ∧ us = ts) := by
  cases h with
  | nobody h0 => exact .inr ⟨h0,rfl⟩
  | @one p _ _ hp hm =>
    obtain ⟨hoff,hon⟩ := hs.wakes p hp
    exact .inl ⟨hm.countP_left hp hoff,hm.countP_entered (hs.apart p hp) hon⟩

end AdlServer.Threads
