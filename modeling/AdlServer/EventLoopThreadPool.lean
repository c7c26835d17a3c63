import AdlServer.EventLoop
import AdlServer.MinElement
import AdlServer.Runs
import Mathlib.Order.Nat

/-! `EventLoopThreadPool::getNextLoop` and `TcpServer::newConnection`: the main loop assigns
connections to sub-loops, by what these have already taken into their `connectSet_`. -/
namespace AdlServer.Net
open Threads Runs Cpp

inductive ConnFunctor where
  | addConnect (conn : Nat) | connectEstablished (conn : Nat) | other
  deriving DecidableEq, Repr

def ConnFunctor.adds : ConnFunctor → Bool
  | .addConnect _ => true
  | _ => false

/-- What the functors that have run have put into `connectSet_`. -/
def connectSet (l : EventLoop ConnFunctor) : List Nat :=
  l.executed.foldl (fun set f => match f with
    | .addConnect conn => set.insert conn
    | _ => set) []

def connectSize (l : EventLoop ConnFunctor) : Nat := (connectSet l).length

inductive AcceptAt where
  | outside | chosen (loop : Nat) | added (loop : Nat)
  deriving DecidableEq, Repr

/-- `accepted` connections have been handed over completely. -/
structure EventLoopThreadPool where
  loops : List (EventLoop ConnFunctor)
  main : AcceptAt := .outside
  accepted : Nat := 0

namespace EventLoopThreadPool

def sizes (s : EventLoopThreadPool) : List Nat := s.loops.map connectSize

def getNextLoop (s : EventLoopThreadPool) : Option Nat := minElement s.sizes

inductive Action where
  | getNextLoop | addConnect | connectEstablished | subLoop
  deriving DecidableEq, Repr

/-- The main loop or a sub-loop takes its next step; nobody else adds connections, and none
is closed. -/
inductive Step : EventLoopThreadPool → Action → EventLoopThreadPool → Prop where
  | getNextLoop {s : EventLoopThreadPool} {i : Nat} (hm : s.main = .outside)
    (h : s.getNextLoop = some i) : Step s .getNextLoop { s with main := .chosen i }
  | addConnect {s : EventLoopThreadPool} {i : Nat} {l : EventLoop ConnFunctor} {cs : List Caller}
    (hm : s.main = .chosen i) (hl : s.loops[i]? = some l) (h : Move .outside .pushed l.callers cs) :
    Step s .addConnect
      { s with loops := s.loops.set i { l.push (.addConnect s.accepted) with callers := cs }
               main := .added i }
  | connectEstablished {s : EventLoopThreadPool} {i : Nat} {l : EventLoop ConnFunctor}
    {cs : List Caller} (hm : s.main = .added i) (hl : s.loops[i]? = some l)
    (h : Move .outside .pushed l.callers cs) :
    Step s .connectEstablished
      { s with loops := s.loops.set i { l.push (.connectEstablished s.accepted) with callers := cs }
               main := .outside
               accepted := s.accepted+1 }
  | subLoop {s : EventLoopThreadPool} {i : Nat} {l u : EventLoop ConnFunctor}
    (hl : s.loops[i]? = some l) (h : l.Step u)
    (hadds : u.pushed.countP ConnFunctor.adds = l.pushed.countP ConnFunctor.adds) :
    Step s .subLoop { s with loops := s.loops.set i u }

def create (n : Nat) : EventLoopThreadPool where
  loops := List.replicate n (EventLoop.create ConnFunctor 1)

variable {s t : EventLoopThreadPool} {a : Action} {as : List (EventLoopThreadPool×Action)}

theorem loops_length (h : Step s a t) : t.loops.length = s.loops.length := by
  cases h <;> simp

end EventLoopThreadPool
end AdlServer.Net
