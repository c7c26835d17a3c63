import Mathlib.Data.List.Basic

/-! Queues over an arbitrary type: what goes in comes out once and in order. -/
namespace AdlServer.Fifo
variable {α : Type}

inductive Op (α : Type) where
  | enqueue (xs : List α)
  | dequeue (n : Nat)
  | drain
  | clear

def Op.input : Op α → List α
  | .enqueue xs => xs
  | _ => []

/-- What an operation takes out, and the queue it leaves; `clear` throws away. -/
def step (q : List α) : Op α → List α×List α
  | .enqueue xs => ([],q++xs)
  | .dequeue n => (q.take n,q.drop n)
  | .drain => (q,[])
  | .clear => ([],[])

def run (q : List α) : List (Op α) → List α×List α
  | [] => ([],q)
  | op::ops => ((step q op).1++(run (step q op).2 ops).1,(run (step q op).2 ops).2)

def inputs (ops : List (Op α)) : List α := ops.flatMap Op.input

def Lossless (ops : List (Op α)) : Prop := ∀ op∈ops, op ≠ .clear

theorem run_append (q : List α) (ops ops' : List (Op α)) :
    run q (ops++ops') =
      ((run q ops).1++(run (run q ops).2 ops').1,(run (run q ops).2 ops').2) := by
  induction ops generalizing q with
  | nil => rfl
  | cons op ops ih => simp [run,ih,List.append_assoc]

theorem step_conserves (q : List α) {op : Op α} (h : op ≠ .clear) :
    (step q op).1++(step q op).2 = q++op.input := by
  cases op with
  | enqueue xs => rfl
  | dequeue n => simp [step,Op.input]
  | drain => rfl
  | clear => exact absurd rfl h

/-- Taken and kept are what was there and what came in, in order. -/
theorem run_conserves (q : List α) {ops : List (Op α)} (h : Lossless ops) :
    (run q ops).1++(run q ops).2 = q++inputs ops := by
  induction ops generalizing q with
  | nil => simp [run,inputs]
  | cons op ops ih =>
    have hop := step_conserves q (h op List.mem_cons_self)
    have hi := ih (step q op).2 fun o ho => h o (List.mem_cons_of_mem op ho)
    calc
      (run q (op::ops)).1++(run q (op::ops)).2 =
          (step q op).1++((run (step q op).2 ops).1++(run (step q op).2 ops).2) :=
        List.append_assoc _ _ _
      _ = ((step q op).1++(step q op).2)++inputs ops := by rw [hi,List.append_assoc]
      _ = q++(op.input++inputs ops) := by rw [hop,List.append_assoc]

end AdlServer.Fifo
