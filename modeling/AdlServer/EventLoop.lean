import AdlServer.Threads
import Mathlib.Algebra.Group.Nat.Defs

/-! The pending functors of an `EventLoop`, between its own thread in `loop()` and any
others, and the eventfd that wakes it. In the loop's thread `runInLoop` runs its functor
at once, as part of the code that calls it; in another it is `queueInLoop`. Nobody calls
`quit()`. -/
namespace AdlServer.Net
open Threads
variable {F : Type}

/-- A thread other than the loop's: between its push and its wakeup, or in no call. -/
inductive Caller where
  | outside | pushed
  deriving DecidableEq, Repr

/-- What `poll` reports: the loop's own channel, or one of the user's. -/
inductive Active where
  | wakeup | channel
  deriving DecidableEq, Repr

/-- Where the loop's thread is. Of the active channels the first is being handled; of the
functors that have been swapped out, those that have not begun are left. -/
inductive LoopAt (F : Type) where
  | poll
  | handling (activeChannels : List Active)
  | calling
  | functors (running : Bool) (rest : List F)

/-- `waking`: the loop's thread is itself between a push and its wakeup. -/
structure EventLoop (F : Type) where
  point : LoopAt F := .poll
  callingPendingFunctors : Bool := false
  waking : Bool := false
  wakeupFd : Nat := 0
  pendingFunctors : List F := []
  callers : List Caller
  pushed : List F := []
  executed : List F := []

/-- A write to an eventfd adds to its counter, or fails where that would overflow. -/
def eventfdWrite (counter one : Nat) : Nat :=
  if counter+one ≤ 2^64-2 then counter+one else counter

namespace LoopAt

inductive InUserCode : LoopAt F → Prop where
  | handler (rest : List Active) : InUserCode (.handling (.channel::rest))
  | functor (rest : List F) : InUserCode (.functors true rest)

def rest : LoopAt F → List F
  | .functors _ fs => fs
  | _ => []

def swapsNext : LoopAt F → Bool
  | .handling _ | .calling => true
  | _ => false

/-- Between the two assignments to `callingPendingFunctors_`. -/
def calls : LoopAt F → Bool
  | .calling | .functors _ _ => true
  | _ => false

end LoopAt

namespace EventLoop

/-- `!isInLoopThread() || callingPendingFunctors_`. -/
def needsWakeup (s : EventLoop F) (isInLoopThread : Bool) : Bool :=
  !isInLoopThread || s.callingPendingFunctors

def push (s : EventLoop F) (f : F) : EventLoop F :=
  { s with pendingFunctors := s.pendingFunctors++[f], pushed := s.pushed++[f] }

def wakeup (s : EventLoop F) : EventLoop F := { s with wakeupFd := eventfdWrite s.wakeupFd 1 }

inductive Step : EventLoop F → EventLoop F → Prop where
  | otherPush {s : EventLoop F} {cs : List Caller} (f : F)
    (h : Move .outside (if s.needsWakeup false then .pushed else .outside) s.callers cs) :
    Step s { s.push f with callers := cs }
  | otherWakeup {s : EventLoop F} {cs : List Caller} (h : Move .pushed .outside s.callers cs) :
    Step s { s.wakeup with callers := cs }
  | ownPush {s : EventLoop F} (f : F) (hu : s.point.InUserCode) (hw : s.waking = false) :
    Step s { s.push f with waking := s.needsWakeup true }
  | ownWakeup {s : EventLoop F} (hw : s.waking = true) : Step s { s.wakeup with waking := false }
  | poll {s : EventLoop F} (activeChannels : List Active) (hp : s.point = .poll) :
    Step s { s with point := .handling activeChannels }
  | handleRead {s : EventLoop F} {rest : List Active} (hp : s.point = .handling (.wakeup::rest)) :
    Step s { s with point := .handling rest, wakeupFd := 0 }
  | handled {s : EventLoop F} {rest : List Active} (hp : s.point = .handling (.channel::rest))
    (hw : s.waking = false) : Step s { s with point := .handling rest }
  | call {s : EventLoop F} (hp : s.point = .handling []) :
    Step s { s with point := .calling, callingPendingFunctors := true }
  | swap {s : EventLoop F} (hp : s.point = .calling) :
    Step s { s with point := .functors false s.pendingFunctors, pendingFunctors := [] }
  | begin {s : EventLoop F} {f : F} {rest : List F} (hp : s.point = .functors false (f::rest)) :
    Step s { s with point := .functors true rest, executed := s.executed++[f] }
  | finish {s : EventLoop F} {rest : List F} (hp : s.point = .functors true rest)
    (hw : s.waking = false) : Step s { s with point := .functors false rest }
  | again {s : EventLoop F} (hp : s.point = .functors false []) :
    Step s { s with point := .poll, callingPendingFunctors := false }

def create (F : Type) (n : Nat) : EventLoop F where
  callers := List.replicate n .outside

/-- Who sees to it that what is pending gets run. -/
inductive Awake (s : EventLoop F) : Prop where
  | counter (h : 0 < s.wakeupFd)
  | other (h : .pushed∈s.callers)
  | own (h : s.waking = true)
  | swap (h : s.point.swapsNext = true)

structure Inv (s : EventLoop F) : Prop where
  fifo : s.executed++s.point.rest++s.pendingFunctors = s.pushed
  calling : s.callingPendingFunctors = s.point.calls
  waking : s.waking = true → ∃ rest, s.point = .functors true rest
  awake : s.pendingFunctors ≠ [] → s.Awake

variable {s t : EventLoop F}

theorem eventfdWrite_pos (n : Nat) : 0 < eventfdWrite n 1 := by
  rw [eventfdWrite]
  split_ifs <;> omega

theorem Inv.poll (h : Inv s) (hp : s.point = .poll) (hne : s.pendingFunctors ≠ []) :
    0 < s.wakeupFd ∨ .pushed∈s.callers := by
  cases h.awake hne with
  | counter hc => exact .inl hc
  | other ho => exact .inr ho
  | own hw =>
    obtain ⟨rest,hrest⟩ := h.waking hw
    rw [hp] at hrest
    cases hrest
  | swap hs =>
    rw [hp] at hs
    cases hs

theorem otherPush_inv {cs : List Caller} {f : F} (hs : Inv s)
    (h : Move .outside (if s.needsWakeup false then .pushed else .outside) s.callers cs) :
    Inv { s.push f with callers := cs } := by
  refine ⟨?_,hs.calling,hs.waking,fun _ => .other ?_⟩
  · simp only [push]
    rw [← hs.fifo,List.append_assoc _ s.pendingFunctors]
  · simpa [needsWakeup] using h.mem_right

theorem ownPush_inv {f : F} (hs : Inv s) (hu : s.point.InUserCode) :
    Inv { s.push f with waking := s.needsWakeup true } := by
  have hcall := hs.calling
  have hfifo : s.executed++s.point.rest++(s.pendingFunctors++[f]) = s.pushed++[f] := by
    rw [← hs.fifo,List.append_assoc _ s.pendingFunctors]
  generalize hp : s.point = p at hu
  cases hu with
  | handler rest =>
    -- in a handler no wakeup follows: the swap of this turn takes the functor
    refine ⟨hfifo,hcall,fun hw => ?_,fun _ => .swap ?_⟩
    · rw [hp] at hcall
      simp [needsWakeup,hcall,LoopAt.calls] at hw
    · exact congrArg LoopAt.swapsNext hp
  | functor rest =>
    -- in a functor this turn's swap is over
    refine ⟨hfifo,hcall,fun _ => ⟨rest,hp⟩,fun _ => .own ?_⟩
    rw [hp] at hcall
    simp [needsWakeup,hcall,LoopAt.calls]

theorem Inv.turn (hs : Inv s) {p : LoopAt F} {executed : List F} {calling : Bool} {fd : Nat}
    (hfifo : executed++p.rest = s.executed++s.point.rest) (hcall : calling = p.calls)
    (hw : s.waking = false)
    (ha : p.swapsNext = true ∨ s.point.swapsNext = false ∧ fd = s.wakeupFd) :
    Inv { s with point := p, executed := executed, callingPendingFunctors := calling,
                 wakeupFd := fd } := by
  refine ⟨?_,hcall,fun hw' => ?_,fun hne => ?_⟩
  · dsimp only
    rw [hfifo]
    exact hs.fifo
  · exact absurd (hw'.symm.trans hw) (by decide)
  · cases ha with
    | inl hp => exact .swap hp
    | inr hp =>
      obtain ⟨hp,hfd⟩ := hp
      cases hs.awake hne with
      | counter hc => exact .counter (hfd ▸ hc)
      | other ho => exact .other ho
      | own ho => exact absurd (ho.symm.trans hw) (by decide)
      | swap ho => exact absurd (ho.symm.trans hp) (by decide)

theorem step_inv (h : Step s t) (hs : Inv s) : Inv t := by
  have idle (hne : ∀ rest, s.point ≠ .functors true rest) : s.waking = false := by
    cases hw : s.waking with
    | false => rfl
    | true =>
      obtain ⟨rest,hr⟩ := hs.waking hw
      exact absurd hr (hne rest)
  cases h with
  | otherPush f hm => exact otherPush_inv hs hm
  | otherWakeup hm =>
    exact ⟨hs.fifo,hs.calling,hs.waking,fun _ => .counter (eventfdWrite_pos _)⟩
  | ownPush f hu hw => exact ownPush_inv hs hu
  | ownWakeup hw =>
    exact ⟨hs.fifo,hs.calling,(fun h => by cases h),fun _ => .counter (eventfdWrite_pos _)⟩
  | poll active hp =>
    exact hs.turn (by rw [hp]; rfl) (by rw [hs.calling,hp]; rfl) (idle (by simp [hp])) (.inl rfl)
  | handleRead hp =>
    exact hs.turn (by rw [hp]; rfl) (by rw [hs.calling,hp]; rfl) (idle (by simp [hp])) (.inl rfl)
  | handled hp hw =>
    exact hs.turn (by rw [hp]; rfl) (by rw [hs.calling,hp]; rfl) hw (.inl rfl)
  | call hp =>
    exact hs.turn (by rw [hp]; rfl) rfl (idle (by simp [hp])) (.inl rfl)
  | swap hp =>
    have hfifo := hs.fifo
    have hcall := hs.calling
    rw [hp] at hfifo hcall
    refine ⟨?_,hcall,fun hw => ?_,fun hne => absurd rfl hne⟩
    · simpa [LoopAt.rest] using hfifo
    · exact absurd (hw.symm.trans (idle (by simp [hp]))) (by decide)
  | begin hp =>
    refine hs.turn ?_ (by rw [hs.calling,hp]; rfl) (idle (by simp [hp])) (.inr ⟨by rw [hp]; rfl,rfl⟩)
    rw [hp]
    simp [LoopAt.rest]
  | finish hp hw =>
    exact hs.turn (by rw [hp]; rfl) (by rw [hs.calling,hp]; rfl) hw (.inr ⟨by rw [hp]; rfl,rfl⟩)
  | again hp =>
    exact hs.turn (by rw [hp]; rfl) rfl (idle (by simp [hp])) (.inr ⟨by rw [hp]; rfl,rfl⟩)

theorem create_inv (F : Type) (n : Nat) : Inv (create F n) :=
  ⟨rfl,rfl,(fun h => by cases h),fun hne => absurd rfl hne⟩

/-- Whatever the threads do and in which order: what has been executed is the first part
of what was pushed, all the rest still waits in its order, and a loop about to poll with
something pending will be woken, by its counter or by a thread on the way to it. -/
theorem pending_functors (n : Nat) (h : Relation.ReflTransGen Step (create F n) s) :
    s.executed <+: s.pushed ∧ s.executed++s.point.rest++s.pendingFunctors = s.pushed ∧
    (s.point = .poll → s.pendingFunctors ≠ [] → 0 < s.wakeupFd ∨ .pushed∈s.callers) := by
  have hs := invariant_of_run (fun _ _ hi hst => step_inv hst hi) h (create_inv F n)
  refine ⟨⟨s.point.rest++s.pendingFunctors,?_⟩,hs.fifo,hs.poll⟩
  rw [← hs.fifo,List.append_assoc]

def oneTurn : EventLoop Nat where
  wakeupFd := 1
  pendingFunctors := [8]
  callers := [.outside]
  pushed := [7,8]
  executed := [7]

theorem oneTurn_reached : Relation.ReflTransGen Step (create Nat 1) oneTurn :=
  .head (.otherPush 7 (.mk [] [])) <| .head (.otherWakeup (.mk [] [])) <|
  .head (.poll [.wakeup] rfl) <| .head (.handleRead rfl) <| .head (.call rfl) <|
  .head (.swap rfl) <| .head (.begin rfl) <| .head (.ownPush 8 (.functor []) rfl) <|
  .head (.ownWakeup rfl) <| .head (.finish rfl rfl) <| .head (.again rfl) .refl

theorem pending_functors_oneTurn :
    oneTurn.executed <+: oneTurn.pushed ∧
    oneTurn.executed++oneTurn.point.rest++oneTurn.pendingFunctors = oneTurn.pushed ∧
    (oneTurn.point = .poll → oneTurn.pendingFunctors ≠ [] →
      0 < oneTurn.wakeupFd ∨ .pushed∈oneTurn.callers) :=
  pending_functors 1 oneTurn_reached

end EventLoop
end AdlServer.Net
