import AdlServer.Retry
import AdlServer.Runs
import AdlServer.TcpConnection

/-! `co_epoll` of `coro/co_epoll` over `coro/epoll_wrap`: the loop of `run`, one round after
the other. -/
namespace AdlServer.Coro
open Program Memory Cpp Retry Runs
open Net (Events EPOLLIN EPOLLOUT sizeT sizeT_of_range sizeT_nat)

structure EpollEvent where
  events : Events := 0
  ptr : UInt64 := 0
  deriving DecidableEq

/-- What `epoll_wait` answers: the events it has stored, or a failure. -/
inductive WaitAnswer where
  | ready (events : List EpollEvent)
  | fail (e : Errno)

namespace WaitAnswer

def count : WaitAnswer → Int
  | ready events => events.length
  | fail _ => -1

def errno : WaitAnswer → Option Errno
  | ready _ => none
  | fail e => some e

end WaitAnswer

namespace EpollWrapper

/-- `while (count == -1 && errno == EINTR)`. -/
def loopLeaves (a : WaitAnswer) : Option WaitAnswer :=
  if a.count = -1 ∧ a.errno = some .EINTR then none else some a

/-- `epoll_wrapper::loop`; a `system_error` carries its `errno`. -/
def loop (answers : Nat → WaitAnswer) (maxevents : Int) : Prog Errno (List EpollEvent) := do
  let (_,a) ← calls answers loopLeaves maxevents
  match a with
  | .ready events => pure events
  | .fail e => Prog.throw e

end EpollWrapper

def maxSize : Nat := (2^63-1)/12

/-- `cnt` is a local variable of `run` that is not initialised; `resumed` are the coroutines
that have been resumed. -/
structure CoEpoll where
  epoll_events : List EpollEvent := List.replicate 16 {}
  stopped : Bool := false
  cnt : Int
  resumed : List UInt64 := []

def EpollEvent.handle (raises : Nat → Bool) (ee : EpollEvent) (resumed : List UInt64) :
    List UInt64 :=
  let received := if ee.events&&&EPOLLIN ≠ 0 then resumed++[ee.ptr] else resumed
  if ee.events&&&EPOLLIN ≠ 0 ∧ raises resumed.length then received
  else if ee.events&&&EPOLLOUT ≠ 0 then received++[ee.ptr]
  else received

namespace CoEpoll

def slots (s : CoEpoll) : Nat := s.epoll_events.length

def wait (answers : Nat → WaitAnswer) (s : CoEpoll) : Prog Fault CoEpoll := do
  match ← Prog.attempt (EpollWrapper.loop answers (wrapInt s.slots)) with
  | .ok events =>
    pure { s with
      epoll_events := events++s.epoll_events.drop events.length
      cnt := events.length }
  | .error _ => pure s

def dispatchTurn (raises : Nat → Bool) (s : CoEpoll) (p : Int×List UInt64) :
    Prog Fault (Turn (Int×List UInt64) (List UInt64)) :=
  if p.1 = s.cnt then pure (.leave p.2)
  else match s.epoll_events[p.1.toNat]? with
    | some ee => pure (.again (p.1+1,ee.handle raises p.2))
    | none => Prog.throw .overrun

def dispatch (raises : Nat → Bool) (s : CoEpoll) : Prog Fault CoEpoll := do
  let resumed ← Prog.loop (dispatchTurn raises s) (0,s.resumed)
  pure { s with resumed := resumed }

def resized (s : CoEpoll) (n : Nat) : CoEpoll :=
  { s with epoll_events := s.epoll_events.take n++List.replicate (n-s.slots) {} }

def resize (s : CoEpoll) (n : Nat) : Prog Fault CoEpoll :=
  if maxSize < n then Prog.throw .lengthError else pure (s.resized n)

def grow (s : CoEpoll) : Prog Fault CoEpoll :=
  if s.slots ≤ sizeT s.cnt then s.resize (sizeT (wrapInt (s.cnt*2))) else pure s

def shrink (s : CoEpoll) : Prog Fault CoEpoll :=
  if sizeT s.cnt ≤ s.slots/5 then s.resize (sizeT (s.cnt.tdiv 2)) else pure s

/-- The body of `while (!stopped)`. -/
def round (answers : Nat → WaitAnswer) (raises : Nat → Bool) (s : CoEpoll) :
    Prog Fault CoEpoll := do
  let s ← s.wait answers
  let s ← s.dispatch raises
  let s ← s.grow
  s.shrink

end CoEpoll

/-- What one round meets: a wait that is interrupted so many times and then answered, which
resumed coroutines raise an exception, and whether `stop` is called before the next wait. -/
structure Round where
  interruptions : Nat
  answer : WaitAnswer
  raises : Nat → Bool
  stop : Bool

def Round.answers (a : Round) (k : Nat) : WaitAnswer :=
  if k < a.interruptions then .fail .EINTR else a.answer

/-- The kernel stores at most as many events as it is offered slots, and refuses none. -/
inductive Answered (slots : Nat) : WaitAnswer → Prop where
  | ready {events : List EpollEvent} (h : 0 < slots) (hle : events.length ≤ slots) :
    Answered slots (.ready events)
  | fail {e : Errno} (h : slots = 0) (he : e ≠ .EINTR) : Answered slots (.fail e)

namespace CoEpoll

def start (cnt : Int) : CoEpoll := { cnt := cnt }

inductive Step : CoEpoll → Round → CoEpoll → Prop where
  | round {s t : CoEpoll} {a : Round} (hs : s.stopped = false) (ha : Answered s.slots a.answer)
    (h : (s.round a.answers a.raises).Returns t) : Step s a { t with stopped := a.stop }

/-- At a wait there is a slot, and behind it no index below `cnt` is outside the array. -/
def Usable (s : CoEpoll) : Prop :=
  s.stopped = false → 1 ≤ s.slots ∧ ∀ (a : Round) (t : CoEpoll), Answered s.slots a.answer →
    (s.wait a.answers).Returns t → ∀ i : Nat, (i:Int) < t.cnt → i < t.slots

/-- The round halves its count to nothing, and there will be another. -/
def Vanishes (s : CoEpoll) (a : Round) : Prop :=
  a.stop = false ∧ ∃ events, a.answer = .ready events ∧
    (events.length = 0 ∨ events.length = 1 ∧ 5 ≤ s.slots)

variable {s t : CoEpoll} {a : Round} {events : List EpollEvent} {e : Errno} {n : Nat}

/-! The wait. -/

theorem answered (h : a.answer ≠ .fail .EINTR) :
    Interrupted (fun a => a = .fail .EINTR) a.answers a.interruptions a.answer where
  before _ hk := if_pos hk
  answer := if_neg (Nat.lt_irrefl _)
  last := h

theorem calls_answered (h : a.answer ≠ .fail .EINTR) (maxevents : Int) :
    (calls a.answers EpollWrapper.loopLeaves maxevents : Prog Errno _).Returns
      (List.replicate (a.interruptions+1) maxevents,a.answer) := by
  refine (answered h).returns ?_ ?_
  · rintro _ rfl
    rfl
  · refine if_neg fun hagain => ?_
    cases ha : a.answer with
    | ready events =>
      rw [ha] at hagain
      cases hagain.2
    | fail e =>
      rw [ha] at hagain
      rw [ha,Option.some.inj hagain.2] at h
      exact h rfl

theorem wait_ready (ha : a.answer = .ready events) (s : CoEpoll) :
    (s.wait a.answers).Returns { s with
      epoll_events := events++s.epoll_events.drop events.length
      cnt := events.length } := by
  have hcalls := calls_answered (a := a) (by rw [ha]; simp) (wrapInt s.slots)
  rw [ha] at hcalls
  have hloop : (EpollWrapper.loop a.answers (wrapInt s.slots)).Returns events :=
    hcalls.bind (Prog.returns_self events)
  exact ((Prog.returns_attempt _ _).mpr hloop).bind (Prog.returns_self _)

theorem wait_fail (ha : a.answer = .fail e) (he : e ≠ .EINTR) (s : CoEpoll) :
    (s.wait a.answers).Returns s := by
  have hcalls := calls_answered (a := a)
    (by rw [ha]; exact fun h => he (WaitAnswer.fail.inj h)) (wrapInt s.slots)
  rw [ha] at hcalls
  have hloop : (EpollWrapper.loop a.answers (wrapInt s.slots)).Ends (.error e) :=
    (hcalls.ends_bind _ _).mpr ((Prog.ends_throw e _).mpr rfl)
  exact ((Prog.returns_attempt _ _).mpr hloop).bind (Prog.returns_self _)

/-! The dispatch. -/

theorem dispatch_rest (raises : Nat → Bool) (hcnt : s.cnt ≤ s.slots) {i : Int} (h0 : 0 ≤ i)
    (hi : i+n = s.cnt) (resumed : List UInt64) :
    ∃ r, (Prog.loop (dispatchTurn raises s) (i,resumed)).Returns r := by
  induction n generalizing i resumed with
  | zero =>
    have hend : i = s.cnt := by omega
    refine ⟨resumed,Prog.returns_loop_leave ?_⟩
    rw [dispatchTurn,if_pos hend]
    exact Prog.returns_self _
  | succ n ih =>
    have hmore : i ≠ s.cnt := by omega
    have hinside : i.toNat < s.epoll_events.length := by
      rw [slots] at hcnt
      omega
    obtain ⟨r,hr⟩ := ih (i := i+1) (by omega) (by omega)
      ((s.epoll_events[i.toNat]).handle raises resumed)
    refine ⟨r,(Prog.ends_loop_again _ ?_ _).mpr hr⟩
    rw [dispatchTurn,if_neg hmore,List.getElem?_eq_getElem hinside]
    exact Prog.returns_self _

theorem dispatch_returns (raises : Nat → Bool) (h0 : 0 ≤ s.cnt) (hcnt : s.cnt ≤ s.slots) :
    ∃ resumed, (s.dispatch raises).Returns { s with resumed := resumed } := by
  obtain ⟨r,hr⟩ := dispatch_rest (n := s.cnt.toNat) raises hcnt (Int.le_refl 0) (by omega)
    s.resumed
  exact ⟨r,hr.bind (Prog.returns_self _)⟩

theorem dispatch_overruns (raises : Nat → Bool) (h : s.slots = 0) (hcnt : s.cnt ≠ 0) :
    (s.dispatch raises).Ends (.error .overrun) := by
  have hnil : s.epoll_events = [] := List.eq_nil_of_length_eq_zero h
  refine Prog.throws_bind (Prog.throws_loop ?_) _
  rw [dispatchTurn,if_neg (Ne.symm hcnt),hnil]
  exact (Prog.ends_throw _ _).mpr rfl

/-! The size of the array. -/

theorem resized_slots (s : CoEpoll) (n : Nat) : (s.resized n).slots = n := by
  rw [slots,resized,List.length_append,List.length_take,List.length_replicate,slots]
  omega

theorem resize_returns (s : CoEpoll) (h : n ≤ maxSize) : (s.resize n).Returns (s.resized n) := by
  rw [resize,if_neg (Nat.not_lt.mpr h)]
  exact Prog.returns_self _

def nextSlots (slots n : Nat) : Nat :=
  if n = slots then 2*n else if n ≤ slots/5 then n/2 else slots

theorem nextSlots_pos_iff {slots : Nat} (h : 1 ≤ slots) :
    1 ≤ nextSlots slots n ↔ ¬ (n = 0 ∨ n = 1 ∧ 5 ≤ slots) := by
  rw [nextSlots]
  split_ifs <;> omega

theorem small_maxSize {n : Nat} (h : n < 2^32) : n ≤ maxSize := by
  have hmax : maxSize = 768614336404564650 := rfl
  omega

theorem sizeT_count (hcnt : s.cnt = n) (h : n < 2^31) : sizeT s.cnt = n := by
  rw [hcnt]
  exact sizeT_nat (by omega)

theorem grow_full (hcnt : s.cnt = n) (hfull : n = s.slots) (h : n < 2^30) :
    s.grow.Returns (s.resized (2*n)) := by
  have hcount := sizeT_count hcnt (by omega)
  have hdouble : sizeT (wrapInt (s.cnt*2)) = 2*n := by
    rw [hcnt,wrapInt_of_range (by omega) (by omega),sizeT_of_range (by omega) (by omega)]
    omega
  rw [grow,hcount,if_pos (Nat.le_of_eq hfull.symm),hdouble]
  exact resize_returns s (small_maxSize (by omega))

theorem grow_throws (hcnt : s.cnt = n) (hfull : n = s.slots) (h : 2^30 ≤ n) (h' : n < 2^31) :
    s.grow.Ends (.error .lengthError) := by
  have hcount := sizeT_count hcnt h'
  have hmax : maxSize = 768614336404564650 := rfl
  have hdouble : maxSize < sizeT (wrapInt (s.cnt*2)) := by
    rw [hcnt,wrapInt_of_overflow (by omega) (by omega),sizeT]
    omega
  rw [grow,hcount,if_pos (Nat.le_of_eq hfull.symm),resize,if_pos hdouble]
  exact (Prog.ends_throw _ _).mpr rfl

theorem grow_none (hcnt : s.cnt = n) (h : n < s.slots) (h' : n < 2^31) : s.grow.Returns s := by
  have hcount := sizeT_count hcnt h'
  rw [grow,hcount,if_neg (Nat.not_le.mpr h)]
  exact Prog.returns_self _

theorem shrink_returns (hcnt : s.cnt = n) (h : n < 2^31) :
    s.shrink.Returns (if n ≤ s.slots/5 then s.resized (n/2) else s) := by
  have hcount := sizeT_count hcnt h
  have hhalf : sizeT (s.cnt.tdiv 2) = n/2 := by
    rw [hcnt,Int.tdiv_eq_ediv_of_nonneg (by omega),sizeT_of_range (by omega) (by omega)]
    omega
  rw [shrink,hcount,hhalf]
  split_ifs
  · exact resize_returns s (small_maxSize (by omega))
  · exact Prog.returns_self _

theorem grow_shrink (hcnt : s.cnt = n) (h1 : 1 ≤ s.slots) (hn : n ≤ s.slots)
    (h : s.slots < 2^31) :
    (∃ t, (s.grow >>= shrink).Returns t ∧ t.slots = nextSlots s.slots n ∧ t.slots < 2^31) ∨
      n = s.slots ∧ 2^30 ≤ n ∧ (s.grow >>= shrink).Ends (.error .lengthError) := by
  by_cases hfull : n = s.slots
  · by_cases hsmall : n < 2^30
    · have hshrink := shrink_returns (s := s.resized (2*n)) hcnt (by omega)
      rw [resized_slots,if_neg (by omega)] at hshrink
      refine .inl ⟨_,(grow_full hcnt hfull hsmall).bind hshrink,?_,?_⟩
      · rw [resized_slots,nextSlots,if_pos hfull]
      · rw [resized_slots]
        omega
    · exact .inr ⟨hfull,Nat.not_lt.mp hsmall,
        Prog.throws_bind (grow_throws hcnt hfull (by omega) (by omega)) _⟩
  · have hshrink := shrink_returns hcnt (by omega)
    refine .inl ⟨_,(grow_none hcnt (by omega) (by omega)).bind hshrink,?_,?_⟩
    · rw [nextSlots,if_neg hfull]
      split_ifs
      · exact resized_slots _ _
      · rfl
    · split_ifs
      · rw [resized_slots]
        omega
      · exact h

/-! The rounds. -/

theorem round_ends {s' : CoEpoll} (hwait : (s.wait a.answers).Returns s') (h0 : 0 ≤ s'.cnt)
    (hcnt : s'.cnt ≤ s'.slots) : ∃ u : CoEpoll, u.slots = s'.slots ∧ u.cnt = s'.cnt ∧
      ∀ o, (s.round a.answers a.raises).Ends o ↔ (u.grow >>= shrink).Ends o := by
  obtain ⟨resumed,hresumed⟩ := dispatch_returns a.raises h0 hcnt
  refine ⟨{ s' with resumed := resumed },rfl,rfl,fun o => ?_⟩
  rw [round,hwait.ends_bind,hresumed.ends_bind]

theorem round_ready (ha : a.answer = .ready events) (h1 : 1 ≤ s.slots)
    (hle : events.length ≤ s.slots) (h : s.slots < 2^31) :
    (∃ t, (s.round a.answers a.raises).Returns t ∧ t.slots = nextSlots s.slots events.length ∧
        t.slots < 2^31) ∨
      events.length = s.slots ∧ 2^30 ≤ events.length ∧
        (s.round a.answers a.raises).Ends (.error .lengthError) := by
  have hslots : (events++s.epoll_events.drop events.length).length = s.slots := by
    rw [List.length_append,List.length_drop,slots]
    rw [slots] at hle
    omega
  obtain ⟨u,hu,hcnt,hround⟩ := round_ends (wait_ready ha s) (Int.natCast_nonneg _)
    (by dsimp only [slots]; rw [hslots]; exact Int.ofNat_le.mpr hle)
  have hu' : u.slots = s.slots := hu.trans hslots
  have hnext := grow_shrink hcnt (by omega) (by omega) (by omega)
  rw [hu',← hround] at hnext
  cases hnext with
  | inl hnext =>
    obtain ⟨t,ht,hrest⟩ := hnext
    exact .inl ⟨t,(hround _).mpr ht,hrest⟩
  | inr hnext => exact .inr hnext

theorem round_overruns (ha : a.answer = .fail e) (he : e ≠ .EINTR) (h : s.slots = 0)
    (hcnt : s.cnt ≠ 0) : (s.round a.answers a.raises).Ends (.error .overrun) := by
  rw [round,(wait_fail ha he s).ends_bind]
  exact Prog.throws_bind (dispatch_overruns a.raises h hcnt) _

theorem round_empty (ha : a.answer = .fail e) (he : e ≠ .EINTR) (h : s.slots = 0)
    (ht : (s.round a.answers a.raises).Returns t) : s.cnt = 0 ∧ t.slots = 0 := by
  by_cases hcnt : s.cnt = 0
  · obtain ⟨u,hu,hucnt,hround⟩ := round_ends (wait_fail ha he s) (by omega) (by omega)
    have hzero : u.cnt = (0:Nat) := by rw [hucnt,hcnt]; rfl
    have hgrow := grow_full hzero (by omega) (by decide)
    have hshrink := shrink_returns (s := u.resized (2*0)) hzero (by decide)
    rw [if_pos (Nat.zero_le _)] at hshrink
    have hends : (u.grow >>= shrink).Returns t := (hround _).mp ht
    rw [hends.unique (hgrow.bind hshrink),resized_slots]
    exact ⟨hcnt,rfl⟩
  · cases Prog.Ends.unique ht (round_overruns ha he h hcnt)

theorem step_slots (h : Step s a t) (hs : s.slots < 2^31) : t.stopped = a.stop ∧
    t.slots < 2^31 ∧ (s.slots = 0 ∧ t.slots = 0 ∨ 1 ≤ s.slots ∧ ∃ events,
      a.answer = .ready events ∧ events.length ≤ s.slots ∧
        t.slots = nextSlots s.slots events.length) := by
  cases h with
  | round _ ha hround =>
    cases hanswer : a.answer with
    | ready events =>
      rw [hanswer] at ha
      cases ha with
      | ready h1 hle =>
        cases round_ready hanswer h1 hle hs with
        | inl hnext =>
          obtain ⟨u,hu,hslots,hsmall⟩ := hnext
          rw [hround.unique hu]
          exact ⟨rfl,hsmall,.inr ⟨h1,events,rfl,hle,hslots⟩⟩
        | inr hthrows => cases Prog.Ends.unique hround hthrows.2.2
    | fail e =>
      rw [hanswer] at ha
      cases ha with
      | fail h0 he =>
        obtain ⟨_,ht⟩ := round_empty hanswer he h0 hround
        exact ⟨rfl,Nat.lt_of_le_of_lt (Nat.le_of_eq ht) (by decide),.inl ⟨h0,ht⟩⟩

theorem usable_iff_slot : Usable s ↔ (s.stopped = false → 1 ≤ s.slots) := by
  refine ⟨fun h hs => (h hs).1,fun h hs => ⟨h hs,fun a t ha ht i hi => ?_⟩⟩
  have h1 := h hs
  cases hanswer : a.answer with
  | fail e =>
    rw [hanswer] at ha
    cases ha with
    | fail h0 _ => omega
  | ready events =>
    rw [ht.unique (wait_ready hanswer s)] at hi ⊢
    dsimp only [slots] at hi ⊢
    rw [List.length_append]
    omega

theorem step_usable_iff (hs : s.slots < 2^31) (hgood : Usable s) (h : Step s a t) :
    Usable t ↔ ¬ Vanishes s a := by
  have hslot : 1 ≤ s.slots := by
    cases h with
    | round hrun _ _ => exact (hgood hrun).1
  obtain ⟨hstop,_,hcases⟩ := step_slots h hs
  obtain ⟨_,events,ha,_,ht⟩ := hcases.resolve_left (by omega)
  rw [usable_iff_slot,hstop,ht,nextSlots_pos_iff hslot,Vanishes,not_and]
  refine forall_congr' fun _ => not_congr ⟨fun hvanish => ⟨events,ha,hvanish⟩,?_⟩
  rintro ⟨events',ha',hvanish⟩
  rwa [WaitAnswer.ready.inj (ha.symm.trans ha')]

/-- Along a run the array stays usable exactly if no round vanishes: each wait gives at least
two events, or one while there are fewer than five slots, or is the last. -/
theorem usable_iff {cnt : Int} {as : List (CoEpoll×Round)} (h : Run Step (start cnt) as s) :
    (∀ x∈visited as s, Usable x) ↔ ∀ p∈as, ¬ Vanishes p.1 p.2 := by
  have hstart : (start cnt).slots = 16 := rfl
  refine h.good_iff (I := fun s => s.slots < 2^31) (fun _ _ _ hs h => (step_slots h hs).2.1)
    (fun _ _ _ hs hgood h => step_usable_iff hs hgood h) ?_ ?_
  · rw [hstart]
    decide
  · refine usable_iff_slot.mpr fun _ => ?_
    rw [hstart]
    decide

def roundOf (n : Nat) : Round where
  interruptions := 0
  answer := .ready (List.replicate n {})
  raises _ := false
  stop := false

theorem roundOf_step (hs : s.stopped = false) (h1 : 1 ≤ s.slots) (hn : n ≤ s.slots)
    (h : s.slots < 2^30) : ∃ t, Step s (roundOf n) t ∧ t.slots = nextSlots s.slots n := by
  have hle : (List.replicate n ({} : EpollEvent)).length ≤ s.slots := by
    rw [List.length_replicate]
    exact hn
  cases round_ready (a := roundOf n) rfl h1 hle (by omega) with
  | inl hnext =>
    obtain ⟨t,ht,hslots,_⟩ := hnext
    rw [List.length_replicate] at hslots
    exact ⟨_,.round hs (.ready h1 hle) ht,hslots⟩
  | inr hthrows => omega

theorem usable_iff_quiet : ∃ as s, as.length = 2 ∧ Run Step (start 0) as s ∧
    ((∀ x∈visited as s, Usable x) ↔ ∀ p∈as, ¬ Vanishes p.1 p.2) := by
  obtain ⟨t,ht,hslots⟩ :=
    roundOf_step (s := start 0) (n := 2) rfl (by decide) (by decide) (by decide)
  have hone : t.slots = 1 := hslots
  obtain ⟨u,hu,_⟩ := roundOf_step (s := t) (n := 1) (step_slots ht (by decide)).1 (by omega)
    (by omega) (by omega)
  have hrun : Run Step (start 0) _ u := .cons ht (.cons hu (.nil u))
  exact ⟨_,u,rfl,hrun,usable_iff hrun⟩

theorem slots_vanish : ¬ ∀ (cnt : Int) (as : List (CoEpoll×Round)) (s : CoEpoll),
    Run Step (start cnt) as s → ∀ x∈visited as s, Usable x := by
  intro hall
  obtain ⟨t,ht,hslots⟩ :=
    roundOf_step (s := start 0) (n := 1) rfl (by decide) (by decide) (by decide)
  have hstop := (step_slots ht (by decide)).1
  have hgood := hall 0 _ t (.cons ht (.nil t)) t (by simp [visited])
  have hone := (hgood hstop).1
  rw [hslots] at hone
  exact absurd hone (by decide)

end CoEpoll

end AdlServer.Coro
