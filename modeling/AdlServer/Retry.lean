import AdlServer.Program
import Mathlib.Data.List.Basic

/-! A call that is made again and again with the same arguments, until one of its answers
ends the loop. -/
namespace AdlServer.Retry
open Program
variable {ε A C R : Type}

/-- The calls made are kept; `leaves` says which answers end the loop, and with what. -/
def callTurn (answers : Nat → A) (leaves : A → Option R) (call : C) (made : List C) :
    Prog ε (Turn (List C) (List C×R)) :=
  match leaves (answers made.length) with
  | none => pure (.again (made++[call]))
  | some r => pure (.leave (made++[call],r))

def calls (answers : Nat → A) (leaves : A → Option R) (call : C) : Prog ε (List C×R) :=
  Prog.loop (callTurn answers leaves call) []

/-- The answer behind `n` interruptions, which is none itself. -/
structure Interrupted (interruption : A → Prop) (answers : Nat → A) (n : Nat) (a : A) :
    Prop where
  before : ∀ k, k < n → interruption (answers k)
  answer : answers n = a
  last : ¬ interruption a

variable {answers : Nat → A} {leaves : A → Option R} {call : C} {n : Nat} {r : R}

theorem callTurn_again {made : List C} (h : leaves (answers made.length) = none) :
    (callTurn answers leaves call made : Prog ε _).Returns (.again (made++[call])) := by
  rw [callTurn,h]
  exact Prog.returns_self _

theorem ends_calls (h : ∀ k, k < n → leaves (answers k) = none) (o : Except ε (List C×R)) :
    (calls answers leaves call).Ends o ↔
      (Prog.loop (callTurn answers leaves call) (List.replicate n call)).Ends o := by
  refine Prog.ends_loop_turns (fun k => List.replicate k call) (fun k hk => ?_) o
  have hk : leaves (answers (List.replicate k call).length) = none := by
    rw [List.length_replicate]
    exact h k hk
  rw [List.replicate_succ']
  exact callTurn_again hk

theorem calls_returns (h : ∀ k, k < n → leaves (answers k) = none)
    (hr : leaves (answers n) = some r) :
    (calls answers leaves call : Prog ε _).Returns (List.replicate (n+1) call,r) := by
  refine (ends_calls h _).mpr (Prog.returns_loop_leave ?_)
  rw [callTurn,List.length_replicate,hr,← List.replicate_succ']
  exact Prog.returns_self _

theorem calls_endless (h : ∀ k, leaves (answers k) = none) :
    ¬ (calls answers leaves call : Prog ε _).Halts :=
  Prog.loop_endless (fun _ => True) (fun made _ => ⟨_,callTurn_again (h made.length),trivial⟩) []
    trivial

theorem Interrupted.returns {interruption : A → Prop} {a : A}
    (h : Interrupted interruption answers n a)
    (hagain : ∀ a, interruption a → leaves a = none) (hr : leaves a = some r) :
    (calls answers leaves call : Prog ε _).Returns (List.replicate (n+1) call,r) :=
  calls_returns (fun k hk => hagain _ (h.before k hk)) (by rw [h.answer,hr])

end AdlServer.Retry
