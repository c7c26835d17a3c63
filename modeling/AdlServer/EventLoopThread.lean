import AdlServer.EventLoop
import AdlServer.Runs

/-! `EventLoopThread`: its thread makes the `EventLoop`, publishes it and calls `loop()`; its
owner calls `quit()`, in the destructor at the latest. -/
namespace AdlServer.Net
open Threads Runs
variable {F : Type}

/-- Where `threadFunc` is. A loop that is `published` has not begun `loop()`, one that is
`testing` is at `while (!quit_)`. -/
inductive ThreadAt where
  | starting | published | testing | iterating | left | finished
  deriving DecidableEq, Repr

/-- Where the owner is: `waking` between the two halves of `quit()`, `destroying` behind the
destructor's test of `loop_`, `terminated` where that leaves a thread that is not joined. -/
inductive OwnerAt where
  | constructing | outside
  | waking (inDestructor : Bool)
  | destroying | joining | destroyed | terminated
  deriving DecidableEq, Repr

structure EventLoopThread (F : Type) where
  loop : EventLoop F
  loopSet : Bool := false
  quit : Bool := false
  thread : ThreadAt := .starting
  owner : OwnerAt := .constructing
  iterations : Nat := 0
  asked : Option Nat := none

namespace EventLoopThread

inductive Action where
  | publish | clear | iterate | inside | again | leave | reset | quitInside
  | call | construct | quit | destroy | destructorQuit | wakeup | join
  deriving DecidableEq, Repr

/-- `quit_ = true`. -/
def storeQuit (s : EventLoopThread F) : EventLoopThread F :=
  { s with quit := true, asked := s.asked.or (some s.iterations) }

/-- Either thread, or one that calls into the loop, takes its next step. -/
inductive Step : EventLoopThread F → Action → EventLoopThread F → Prop where
  | publish {s : EventLoopThread F} (ht : s.thread = .starting) :
    Step s .publish { s with thread := .published, loopSet := true, quit := false }
  | clear {s : EventLoopThread F} (ht : s.thread = .published) :
    Step s .clear { s with thread := .testing, quit := false }
  | iterate {s : EventLoopThread F} (ht : s.thread = .testing) (hq : s.quit = false) :
    Step s .iterate { s with thread := .iterating, iterations := s.iterations+1 }
  | inside {s : EventLoopThread F} {u : EventLoop F} (ht : s.thread = .iterating)
    (h : s.loop.Step u) (hu : u.point ≠ .poll) : Step s .inside { s with loop := u }
  | again {s : EventLoopThread F} {u : EventLoop F} (ht : s.thread = .iterating)
    (h : s.loop.Step u) (hs : s.loop.point ≠ .poll) (hu : u.point = .poll) :
    Step s .again { s with loop := u, thread := .testing }
  | leave {s : EventLoopThread F} (ht : s.thread = .testing) (hq : s.quit = true) :
    Step s .leave { s with thread := .left }
  | reset {s : EventLoopThread F} (ht : s.thread = .left) :
    Step s .reset { s with thread := .finished, loopSet := false }
  -- code that the loop runs; it writes no wakeup
  | quitInside {s : EventLoopThread F} (ht : s.thread = .iterating)
    (hu : s.loop.point.InUserCode) : Step s .quitInside s.storeQuit
  -- a push or a wakeup from another thread
  | call {s : EventLoopThread F} {u : EventLoop F} (ht : s.thread ≠ .starting)
    (h : s.loop.Step u) (hs : s.loop.point = .poll) (hu : u.point = .poll) :
    Step s .call { s with loop := u }
  | construct {s : EventLoopThread F} (ho : s.owner = .constructing) (hl : s.loopSet = true) :
    Step s .construct { s with owner := .outside }
  | quit {s : EventLoopThread F} (ho : s.owner = .outside) :
    Step s .quit { s.storeQuit with owner := .waking false }
  | destroy {s : EventLoopThread F} (ho : s.owner = .outside) :
    Step s .destroy { s with owner := if s.loopSet then .destroying else .terminated }
  | destructorQuit {s : EventLoopThread F} (ho : s.owner = .destroying) (hl : s.loopSet = true) :
    Step s .destructorQuit { s.storeQuit with owner := .waking true }
  | wakeup {s : EventLoopThread F} {inDestructor : Bool} (ho : s.owner = .waking inDestructor) :
    Step s .wakeup
      { s with loop := s.loop.wakeup, owner := if inDestructor then .joining else .outside }
  | join {s : EventLoopThread F} (ho : s.owner = .joining) (ht : s.thread = .finished) :
    Step s .join { s with owner := .destroyed }

def create (F : Type) (n : Nat) : EventLoopThread F where
  loop := EventLoop.create F n

/-- Once asked to quit the loop stays so and begins no iteration; if one is under way in
`poll`, its wakeup has been written or is about to be. -/
def QuitKept (s : EventLoopThread F) : Prop :=
  ∀ n, s.asked = some n → s.quit = true ∧ s.iterations = n ∧
    (s.thread = .iterating → s.loop.point = .poll →
      (∃ inDestructor, s.owner = .waking inDestructor) ∨ 0 < s.loop.wakeupFd)

structure Inv (s : EventLoopThread F) : Prop where
  starting : s.thread = .starting →
    s.asked = none ∧ s.loopSet = false ∧ s.owner = .constructing
  quit : s.quit = true → s.asked ≠ none

variable {s t : EventLoopThread F} {a : Action} {as : List (EventLoopThread F×Action)}

theorem wakeupFd_kept {l u : EventLoop F} (h : l.Step u) (hl : l.point = .poll)
    (hu : u.point = .poll) (hpos : 0 < l.wakeupFd) : 0 < u.wakeupFd := by
  cases h with
  | otherPush f hm => exact hpos
  | otherWakeup hm => exact EventLoop.eventfdWrite_pos _
  | ownPush f hc hw => exact hpos
  | ownWakeup hw => exact EventLoop.eventfdWrite_pos _
  | poll active hp => cases hu
  | handleRead hp => cases hu
  | handled hp hw => cases hu
  | call hp => cases hu
  | swap hp => cases hu
  | begin hp => cases hu
  | finish hp hw => cases hu
  | again hp => cases hl.symm.trans hp

theorem not_poll_of_inUserCode {p : LoopAt F} (h : p.InUserCode) : p ≠ .poll := by
  cases h with
  | handler rest => simp
  | functor rest => simp

theorem storeQuit_asked (s : EventLoopThread F) : s.storeQuit.asked ≠ none := by
  rw [storeQuit]
  cases s.asked <;> simp

theorem step_inv (h : Step s a t) (hs : Inv s) : Inv t := by
  have begun (ho : s.owner ≠ .constructing) : s.thread ≠ .starting :=
    fun ht => ho (hs.starting ht).2.2
  have loaded (hl : s.loopSet = true) : s.thread ≠ .starting :=
    fun ht => by cases hl.symm.trans (hs.starting ht).2.1
  cases h with
  | publish ht => exact ⟨(fun h => by cases h),fun h => by cases h⟩
  | clear ht => exact ⟨(fun h => by cases h),fun h => by cases h⟩
  | iterate ht hq => exact ⟨(fun h => by cases h),hs.quit⟩
  | inside ht h hu => exact ⟨hs.starting,hs.quit⟩
  | again ht h hp hu => exact ⟨(fun h => by cases h),hs.quit⟩
  | leave ht hq => exact ⟨(fun h => by cases h),hs.quit⟩
  | reset ht => exact ⟨(fun h => by cases h),hs.quit⟩
  | quitInside ht hu => exact ⟨(fun h => by cases ht.symm.trans h),fun _ => storeQuit_asked s⟩
  | call ht h hp hu => exact ⟨hs.starting,hs.quit⟩
  | construct ho hl => exact ⟨fun h => absurd h (loaded hl),hs.quit⟩
  | quit ho => exact ⟨fun h => absurd h (begun (by simp [ho])),fun _ => storeQuit_asked s⟩
  | destroy ho => exact ⟨fun h => absurd h (begun (by simp [ho])),hs.quit⟩
  | destructorQuit ho hl => exact ⟨fun h => absurd h (loaded hl),fun _ => storeQuit_asked s⟩
  | wakeup ho => exact ⟨fun h => absurd h (begun (by simp [ho])),hs.quit⟩
  | join ho ht => exact ⟨fun h => absurd h (begun (by simp [ho])),hs.quit⟩

theorem create_inv (F : Type) (n : Nat) : Inv (create F n) :=
  ⟨fun _ => ⟨rfl,rfl,rfl⟩,fun h => by cases h⟩

theorem QuitKept.same (hk : s.QuitKept) (ha : t.asked = s.asked) (hq : t.quit = s.quit)
    (hi : t.iterations = s.iterations)
    (hw : ∀ n, s.asked = some n → t.thread = .iterating → t.loop.point = .poll →
      (∃ inDestructor, t.owner = .waking inDestructor) ∨ 0 < t.loop.wakeupFd) : t.QuitKept := by
  intro n hn
  rw [ha] at hn
  obtain ⟨hquit,hiter,_⟩ := hk n hn
  exact ⟨hq.trans hquit,hi.trans hiter,hw n hn⟩

theorem storeQuit_kept (hs : s.QuitKept) (o : OwnerAt)
    (hp : s.loop.point = .poll → ∃ b, o = .waking b) :
    QuitKept { s.storeQuit with owner := o } := by
  intro n hn
  refine ⟨rfl,?_,fun _ hpoll => .inl (hp hpoll)⟩
  cases ha : s.asked with
  | none => simpa [storeQuit,ha] using hn
  | some m =>
    have hm : m = n := by simpa [storeQuit,ha] using hn
    exact (hs m ha).2.1.trans hm

theorem step_kept (h : Step s a t) (hs : Inv s) (hk : s.QuitKept) :
    t.QuitKept ↔ ¬ (a = .clear ∧ s.quit = true) := by
  have woken {o : OwnerAt} (ho : s.owner = o) (hne : ∀ b, o ≠ .waking b) {n : Nat}
      (hn : s.asked = some n) (hi : s.thread = .iterating) (hp : s.loop.point = .poll) :
      0 < s.loop.wakeupFd := by
    cases (hk n hn).2.2 hi hp with
    | inl hw =>
      obtain ⟨b,hb⟩ := hw
      exact absurd (ho.symm.trans hb) (hne b)
    | inr hpos => exact hpos
  cases h with
  | publish ht =>
    refine iff_of_true (fun n hn => ?_) (by simp)
    cases (hs.starting ht).1.symm.trans hn
  | clear ht =>
    constructor
    · intro ht hclear
      obtain ⟨n,hn⟩ := Option.ne_none_iff_exists'.mp (hs.quit hclear.2)
      cases (ht n hn).1
    · intro hclear n hn
      exact absurd ⟨rfl,(hk n hn).1⟩ hclear
  | iterate ht hq =>
    -- a loop that finds `quit_` false has not been asked
    refine iff_of_true (fun n hn => ?_) (by simp)
    cases hq.symm.trans (hk n hn).1
  | inside ht h hu =>
    exact iff_of_true (hk.same rfl rfl rfl fun _ _ _ hp => absurd hp hu) (by simp)
  | again | leave | reset =>
    exact iff_of_true (hk.same rfl rfl rfl fun _ _ hi _ => by cases hi) (by simp)
  | quitInside ht hu =>
    exact iff_of_true (storeQuit_kept hk s.owner fun hp => absurd hp (not_poll_of_inUserCode hu))
      (by simp)
  | call ht h hp hu =>
    refine iff_of_true (hk.same rfl rfl rfl fun n hn hi _ => ?_) (by simp)
    exact ((hk n hn).2.2 hi hp).imp_right (wakeupFd_kept h hp hu)
  | construct ho | destroy ho | join ho =>
    refine iff_of_true (hk.same rfl rfl rfl fun n hn hi hp => ?_) (by simp)
    exact .inr (woken ho (by simp) hn hi hp)
  | quit ho => exact iff_of_true (storeQuit_kept hk _ fun _ => ⟨false,rfl⟩) (by simp)
  | destructorQuit ho hl => exact iff_of_true (storeQuit_kept hk _ fun _ => ⟨true,rfl⟩) (by simp)
  | wakeup ho =>
    refine iff_of_true (hk.same rfl rfl rfl fun _ _ _ _ => .inr ?_) (by simp)
    exact EventLoop.eventfdWrite_pos _

/-- In every run the loop keeps every request to quit and begins no further iteration,
exactly if `loop()` never clears a request that has been made. -/
theorem quit_kept_iff (n : Nat) (h : Run Step (create F n) as t) :
    (∀ x∈visited as t, x.QuitKept) ↔ ∀ p∈as, ¬ (p.2 = .clear ∧ p.1.quit = true) := by
  have hiff := h.good_iff (fun _ _ _ hi hst => step_inv hst hi)
    (fun _ _ _ hi hk hst => step_kept hst hi hk) (create_inv F n) fun _ hn => by cases hn
  exact hiff

def quitLost : EventLoopThread Nat where
  loop := { callers := [], wakeupFd := 1 }
  loopSet := true
  thread := .iterating
  owner := .joining
  iterations := 1
  asked := some 0

theorem quitLost_reached : ∃ as, Run Step (create Nat 0) as quitLost :=
  ⟨_,.cons (.publish rfl) <| .cons (.construct rfl rfl) <| .cons (.destroy rfl) <|
    .cons (.destructorQuit rfl rfl) <| .cons (.wakeup rfl) <| .cons (.clear rfl) <|
    .cons (.iterate rfl rfl) <| .nil _⟩

theorem quit_lost : ¬ ∀ (as : List (EventLoopThread Nat×Action)) (t : EventLoopThread Nat),
    Run Step (create Nat 0) as t → ∀ x∈visited as t, x.QuitKept := by
  intro hall
  obtain ⟨as,h⟩ := quitLost_reached
  have hlast : quitLost∈visited as quitLost := by simp [visited]
  cases (hall as quitLost h quitLost hlast 0 rfl).1

theorem quit_kept_iff_quitLost : ∃ as, Run Step (create Nat 0) as quitLost ∧
    ((∀ x∈visited as quitLost, x.QuitKept) ↔
      ∀ p∈as, ¬ (p.2 = .clear ∧ p.1.quit = true)) := by
  obtain ⟨as,h⟩ := quitLost_reached
  exact ⟨as,h,quit_kept_iff 0 h⟩

end EventLoopThread
end AdlServer.Net
