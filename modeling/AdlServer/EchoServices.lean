import AdlServer.EchoService
import AdlServer.EpollWrap
import Mathlib.Data.List.Nodup

/-! `co_epoll::run` with the coroutines that it resumes: any number of calls of
`tcp_echo_service`, each on a socket of its own that does not block. -/
namespace AdlServer.Coro
open Program Memory Cpp Runs
open Net (CtlOp Events EPOLLIN EPOLLOUT EPOLLHUP EPOLLRDHUP EPOLLET ReadAnswer WriteAnswer)

/-- What the kernel answers to a coroutine that is resumed: to the call it waits for, and to
the calls of `epoll_ctl` before its next wait. -/
structure Io where
  received : ReadAnswer
  sent : WriteAnswer
  refusals : CtlOp → Option Errno := fun _ => none

def Io.Honest (io : Io) : Prop := ∀ op, io.refusals op ≠ some EEXIST

namespace Point

/-- The events of `await_suspend`. -/
def asks : Point → Events
  | .RecvData => EPOLLIN|||EPOLLERR|||EPOLLONESHOT|||EPOLLRDHUP|||EPOLLET
  | .SendData => EPOLLOUT|||EPOLLERR|||EPOLLONESHOT|||EPOLLRDHUP|||EPOLLET
  | .returned => 0

/-- The event that `run` resumes for. -/
def awaits : Point → Events
  | .RecvData => EPOLLIN
  | .SendData => EPOLLOUT
  | .returned => 0

end Point

/-- `await_resume` of the call that is waited for, and the body from there to the next. -/
def EchoService.resume (io : Io) (s : EchoService) : EchoService :=
  match s.point with
  | .RecvData =>
    match io.received with
    | .bytes block =>
      let block := block.take s.buf.size
      s.resumeRecv (store s.storage s.buf.data block) block.length
    | .fail _ => s.resumeRecv s.storage (-1)
  | .SendData =>
    match io.sent with
    | .accept n => s.resumeSend (min n s.buf.size:Nat) none
    | .fail e => s.resumeSend (-1) (some e)
  | .returned => s

/-- `final_suspend` does not suspend, so the frame goes with the return; an exception leaves
it at its final suspension. -/
inductive Frame where
  | suspended (code : EchoService)
  | destroyed
  | thrown

structure Coroutine where
  fd : Int
  address : UInt64
  frame : Frame

namespace Coroutine

def await_suspend (epfd_ : Int) (table : Registrations) (refusals : CtlOp → Option Errno)
    (c : Coroutine) (code : EchoService) : Prog CtlError Registrations :=
  EpollWrapper.try_add epfd_ refusals table c.fd ⟨code.point.asks,c.address⟩

/-- `co.resume()`, and whether it raises an exception. Of a frame that is not suspended nothing
can be said. -/
def resume (epfd_ : Int) (table : Registrations) (io : Io) (c : Coroutine) :
    Prog Fault (Coroutine×Registrations×Bool) :=
  match c.frame with
  | .suspended code =>
    let code := code.resume io
    if code.point = .returned then pure ({ c with frame := .destroyed },table,false)
    else do
      match ← Prog.attempt (c.await_suspend epfd_ table io.refusals code) with
      | .ok table => pure ({ c with frame := .suspended code },table,false)
      | .error _ => pure ({ c with frame := .thrown },table,true)
  | _ => Prog.throw .overrun

end Coroutine

inductive Phase where
  | wait
  | dispatch (i : Nat)
  deriving DecidableEq

structure EchoServices where
  poller : CoEpoll
  epfd_ : Int
  table : Registrations := fun _ => none
  coroutines : List Coroutine := []
  phase : Phase := .wait

namespace EchoServices

def tcp_echo_service (fd : Int) (address : UInt64) (refusals : CtlOp → Option Errno)
    (s : EchoServices) : Prog CtlError EchoServices := do
  let c : Coroutine := ⟨fd,address,.suspended {}⟩
  let table ← c.await_suspend s.epfd_ s.table refusals {}
  pure { s with table := table, coroutines := s.coroutines++[c] }

def resume (io : Io) (ptr : UInt64) (s : EchoServices) : Prog Fault (EchoServices×Bool) :=
  match s.coroutines.findIdx? (·.address = ptr) with
  | none => Prog.throw .overrun
  | some i =>
    match s.coroutines[i]? with
    | none => Prog.throw .overrun
    | some c => do
      let (c,table,raised) ← c.resume s.epfd_ s.table io
      pure ({ s with
        poller := { s.poller with resumed := s.poller.resumed++[ptr] }
        table := table
        coroutines := s.coroutines.set i c },raised)

/-- The branches for `EPOLLIN` and `EPOLLOUT`; an exception ends the turn. -/
def handle (received sent : Io) (ee : EpollEvent) (s : EchoServices) : Prog Fault EchoServices := do
  let (s,raised) ← if ee.events&&&EPOLLIN ≠ 0 then s.resume received ee.ptr else pure (s,false)
  if raised then pure s
  else if ee.events&&&EPOLLOUT ≠ 0 then do
    let (s,_) ← s.resume sent ee.ptr
    pure s
  else pure s

def disarm (table : Registrations) (fds : List Int) : Registrations := fun fd =>
  if fd∈fds then (table fd).map fun r => { r with armed := false } else table fd

/-- A wait with its interruptions, one turn over its events, and what is behind the loop. -/
inductive Input where
  | wait (interruptions : Nat) (fds : List Int) (answer : WaitAnswer)
  | turn (received sent : Io)
  | resize (stop : Bool)

def answers (interruptions : Nat) (answer : WaitAnswer) (k : Nat) : WaitAnswer :=
  if k < interruptions then .fail .EINTR else answer

def step (s : EchoServices) : Input → Prog Fault EchoServices
  | .wait interruptions fds answer =>
    if s.phase = .wait ∧ s.poller.stopped = false then do
      let poller ← s.poller.wait (answers interruptions answer)
      pure { s with poller := poller, table := disarm s.table fds, phase := .dispatch 0 }
    else pure s
  | .turn received sent =>
    match s.phase with
    | .wait => pure s
    | .dispatch i =>
      if (i:Int) = s.poller.cnt then pure s
      else match s.poller.epoll_events[i]? with
        | some ee => do
          let s ← s.handle received sent ee
          pure { s with phase := .dispatch (i+1) }
        | none => Prog.throw .overrun
  | .resize stop =>
    match s.phase with
    | .wait => pure s
    | .dispatch i =>
      if (i:Int) = s.poller.cnt then do
        let poller ← s.poller.grow
        let poller ← poller.shrink
        pure { s with poller := { poller with stopped := stop }, phase := .wait }
      else pure s

/-- The kernel reports what is armed, with no more than was asked for, an error or the end of
the connection. -/
structure Reports (table : Registrations) (fd : Int) (e : EpollEvent) : Prop where
  armed : ∃ r, table fd = some r ∧ r.armed = true ∧ e.ptr = r.event.ptr ∧
    e.events&&&~~~(r.event.events|||EPOLLERR|||EPOLLHUP) = 0
  some : e.events ≠ 0

inductive Reported (table : Registrations) (fds : List Int) : WaitAnswer → Prop where
  | ready {events : List EpollEvent} (hfds : fds.Nodup)
    (h : List.Forall₂ (Reports table) fds events) : Reported table fds (.ready events)
  | fail {e : Errno} (hfds : fds = []) : Reported table fds (.fail e)

def Lawful (s : EchoServices) : Input → Prop
  | .wait _ fds answer => Answered s.poller.slots answer ∧ Reported s.table fds answer
  | .turn received sent => received.Honest ∧ sent.Honest
  | .resize _ => True

def Step (s : EchoServices) (a : Input) (t : EchoServices) : Prop :=
  s.Lawful a ∧ (s.step a).Returns t

/-- The services are called one after the other before `run`, on descriptors and with frames
that are not in use. -/
inductive Started (cnt epfd_ : Int) : EchoServices → Prop where
  | none : Started cnt epfd_ { poller := CoEpoll.start cnt, epfd_ := epfd_ }
  | call {s t : EchoServices} {fd : Int} {address : UInt64} {refusals : CtlOp → Option Errno}
    (h : Started cnt epfd_ s) (hfd : fd ≠ epfd_)
    (hnew : ∀ c∈s.coroutines, c.fd ≠ fd ∧ c.address ≠ address)
    (hop : ∀ op, refusals op ≠ some EEXIST)
    (ht : (s.tcp_echo_service fd address refusals).Returns t) : Started cnt epfd_ t

end EchoServices

variable {s t : EchoServices} {a : EchoServices.Input} {e : EpollEvent} {c d : Coroutine}
  {code : EchoService} {io received sent : Io} {table : Registrations} {epfd_ : Int}

/-! What is asked for and what is reported. -/

theorem unasked {e m k : Events} (h : e&&&~~~m = 0) (hk : m&&&k = 0) : e&&&k = 0 := by
  ext i hi
  have hm := congrArg (fun x => x.getLsbD i) h
  have hmk := congrArg (fun x => x.getLsbD i) hk
  simp only [BitVec.getLsbD_and,BitVec.getLsbD_not,hi,decide_true,Bool.true_and] at hm hmk
  rw [BitVec.getElem_and]
  rw [← BitVec.getLsbD_eq_getElem,← BitVec.getLsbD_eq_getElem]
  revert hm hmk
  cases e.getLsbD i <;> cases m.getLsbD i <;> cases k.getLsbD i <;> simp

theorem Point.asked {p : Point} (hp : p ≠ .returned) {e : Events}
    (h : e&&&~~~(p.asks|||EPOLLERR|||EPOLLHUP) = 0) :
    (e&&&EPOLLIN ≠ 0 → p = .RecvData) ∧ (e&&&EPOLLOUT ≠ 0 → p = .SendData) := by
  cases p with
  | RecvData => exact ⟨fun _ => rfl,fun hout => absurd (unasked h (by decide)) hout⟩
  | SendData => exact ⟨fun hin => absurd (unasked h (by decide)) hin,fun _ => rfl⟩
  | returned => exact absurd rfl hp

/-! One resumption. -/

namespace Coroutine

inductive Went (table : Registrations) (io : Io) (c : Coroutine) (code : EchoService) :
    Coroutine×Registrations×Bool → Prop where
  | destroyed (hp : code.point = .returned) :
    Went table io c code ({ c with frame := .destroyed },table,false)
  | waits (hp : code.point ≠ .returned)
    (hr : io.refusals (EpollWrapper.deciding table c.fd) = none) :
    Went table io c code ({ c with frame := .suspended code },
      Function.update table c.fd (some { event := ⟨code.point.asks,c.address⟩ }),false)
  | thrown (hp : code.point ≠ .returned)
    (hr : io.refusals (EpollWrapper.deciding table c.fd) ≠ none) :
    Went table io c code ({ c with frame := .thrown },table,true)

theorem resume_went (table : Registrations) (hf : c.frame = .suspended code) (hfd : c.fd ≠ epfd_)
    (hop : io.Honest) :
    ∃ r, (c.resume epfd_ table io).Returns r ∧ c.Went table io (code.resume io) r := by
  have hadds := EpollWrapper.try_add_ends table ⟨(code.resume io).point.asks,c.address⟩ hfd hop
  rw [resume,hf]
  dsimp only
  by_cases hp : (code.resume io).point = .returned
  · rw [if_pos hp]
    exact ⟨_,Prog.returns_self _,.destroyed hp⟩
  · rw [if_neg hp]
    rw [EpollWrapper.added] at hadds
    cases hr : io.refusals (EpollWrapper.deciding table c.fd) with
    | none =>
      rw [hr] at hadds
      exact ⟨_,((Prog.returns_attempt _ _).mpr hadds).bind (Prog.returns_self _),.waits hp hr⟩
    | some e =>
      rw [hr] at hadds
      exact ⟨_,((Prog.returns_attempt _ _).mpr hadds).bind (Prog.returns_self _),
        .thrown hp (by simp [hr])⟩

def Suspended (c : Coroutine) : Prop := ∃ code, c.frame = .suspended code

def Watched (table : Registrations) (c : Coroutine) : Prop :=
  ∃ r, table c.fd = some r ∧ r.armed = true

structure Ready (table : Registrations) (e : EpollEvent) (c : Coroutine) (code : EchoService) :
    Prop where
  address : e.ptr = c.address
  frame : c.frame = .suspended code
  idle : ¬ c.Watched table
  asked : (e.events&&&EPOLLIN ≠ 0 → code.point = .RecvData) ∧
    (e.events&&&EPOLLOUT ≠ 0 → code.point = .SendData)
  point : code.point ≠ .returned

theorem Ready.single (he : c.Ready table e code) :
    code.point = .RecvData ∧ e.events&&&EPOLLOUT = 0 ∧
        e.events&&&EPOLLIN = e.events&&&code.point.awaits ∨
      code.point = .SendData ∧ e.events&&&EPOLLIN = 0 ∧
        e.events&&&EPOLLOUT = e.events&&&code.point.awaits := by
  obtain ⟨hin,hout⟩ := he.asked
  cases hp : code.point with
  | returned => exact absurd hp he.point
  | RecvData =>
    refine .inl ⟨rfl,?_,rfl⟩
    by_contra h
    cases hp.symm.trans (hout h)
  | SendData =>
    refine .inr ⟨rfl,?_,rfl⟩
    by_contra h
    cases hp.symm.trans (hin h)

/-- What is registered is what the coroutine waits for, and nothing is watched for one that
waits no longer. -/
inductive Settled (table : Registrations) (c : Coroutine) : Prop where
  | suspended {code : EchoService} {armed : Bool} (hf : c.frame = .suspended code)
    (hp : code.point ≠ .returned)
    (hr : table c.fd = some ⟨⟨code.point.asks,c.address⟩,armed⟩)
  | finished {r : Registration} (hf : ∀ code, c.frame ≠ .suspended code) (hr : table c.fd = some r)
    (hptr : r.event.ptr = c.address) (harmed : r.armed = false)

end Coroutine

def Point.chosen (received sent : Io) : Point → Io
  | .RecvData => received
  | _ => sent

namespace EchoServices

inductive Handled (s : EchoServices) (received sent : Io) (e : EpollEvent) (c : Coroutine)
    (code : EchoService) : EchoServices → Prop where
  | missed (h : e.events&&&code.point.awaits = 0) : Handled s received sent e c code s
  | resumed {i : Nat} {d : Coroutine} {table : Registrations} {raised : Bool}
    (h : e.events&&&code.point.awaits ≠ 0) (hi : s.coroutines[i]? = some c)
    (hw : c.Went s.table (code.point.chosen received sent)
      (code.resume (code.point.chosen received sent)) (d,table,raised)) :
    Handled s received sent e c code { s with
      poller := { s.poller with resumed := s.poller.resumed++[e.ptr] }
      table := table
      coroutines := s.coroutines.set i d }

theorem find_coroutine (hn : (s.coroutines.map Coroutine.address).Nodup) (hc : c∈s.coroutines) :
    ∃ i, s.coroutines.findIdx? (·.address = c.address) = some i ∧ s.coroutines[i]? = some c := by
  obtain ⟨i,hi⟩ := List.getElem?_of_mem hc
  obtain ⟨hlt,hget⟩ := List.getElem?_eq_some_iff.mp hi
  refine ⟨i,List.findIdx?_eq_some_iff_getElem.mpr ⟨hlt,by simp [hget],fun j hj => ?_⟩,hi⟩
  intro hsame
  have hj' : j < s.coroutines.length := by omega
  have heq : (s.coroutines.map Coroutine.address)[j]? = (s.coroutines.map Coroutine.address)[i]? := by
    rw [List.getElem?_map,List.getElem?_map,hi,List.getElem?_eq_getElem hj']
    simpa using hsame
  have hij := (List.getElem?_inj (by rwa [List.length_map]) hn).mp heq
  omega

theorem resume_found (hn : (s.coroutines.map Coroutine.address).Nodup) (hc : c∈s.coroutines)
    (hf : c.frame = .suspended code) (hfd : c.fd ≠ s.epfd_) (hop : io.Honest) :
    ∃ i d table raised, s.coroutines[i]? = some c ∧
      c.Went s.table io (code.resume io) (d,table,raised) ∧
      (s.resume io c.address).Returns ({ s with
        poller := { s.poller with resumed := s.poller.resumed++[c.address] }
        table := table
        coroutines := s.coroutines.set i d },raised) := by
  obtain ⟨i,hfind,hi⟩ := find_coroutine hn hc
  obtain ⟨⟨d,table,raised⟩,hd,hw⟩ := Coroutine.resume_went s.table hf hfd hop
  refine ⟨i,d,table,raised,hi,hw,?_⟩
  rw [resume,hfind]
  dsimp only
  rw [hi]
  exact hd.bind (Prog.returns_self _)

/-- A turn never resumes anything but a suspended coroutine, for what it waits for. -/
theorem handle_handled (hn : (s.coroutines.map Coroutine.address).Nodup) (hc : c∈s.coroutines)
    (hfd : c.fd ≠ s.epfd_) (he : c.Ready s.table e code) (hreceived : received.Honest)
    (hsent : sent.Honest) :
    ∃ t, (s.handle received sent e).Returns t ∧ Handled s received sent e c code t := by
  have hresume {io : Io} (hop : io.Honest) (hio : code.point.chosen received sent = io)
      (hmet : e.events&&&code.point.awaits ≠ 0) : ∃ t raised,
        (s.resume io e.ptr).Returns (t,raised) ∧ Handled s received sent e c code t := by
    obtain ⟨i,d,table,raised,hi,hw,ht⟩ := resume_found hn hc he.frame hfd hop
    rw [← he.address] at ht
    exact ⟨_,raised,ht,.resumed hmet hi (by rw [hio]; exact hw)⟩
  rw [handle]
  obtain ⟨hp,hout,hin⟩ | ⟨hp,hin,hout⟩ := he.single
  · by_cases hmet : e.events&&&code.point.awaits = 0
    · refine ⟨s,?_,.missed hmet⟩
      rw [if_neg (not_not.mpr (hin.trans hmet))]
      refine (Prog.returns_self (s,false)).bind ?_
      simp only [Bool.false_eq_true,if_false,hout,ne_eq,not_true]
      exact Prog.returns_self s
    · obtain ⟨t,raised,ht,hhandled⟩ := hresume hreceived (by rw [hp]; rfl) hmet
      refine ⟨t,?_,hhandled⟩
      rw [if_pos (by rw [hin]; exact hmet)]
      refine ht.bind ?_
      simp only [hout,ne_eq,not_true,if_false,ite_self]
      exact Prog.returns_self t
  · rw [if_neg (not_not.mpr hin)]
    by_cases hmet : e.events&&&code.point.awaits = 0
    · refine ⟨s,(Prog.returns_self (s,false)).bind ?_,.missed hmet⟩
      simp only [Bool.false_eq_true,if_false,hout.trans hmet,ne_eq,not_true]
      exact Prog.returns_self s
    · obtain ⟨t,raised,ht,hhandled⟩ := hresume hsent (by rw [hp]; rfl) hmet
      refine ⟨t,(Prog.returns_self (s,false)).bind ?_,hhandled⟩
      dsimp only
      rw [if_neg Bool.false_ne_true,if_pos (by rw [hout]; exact hmet)]
      exact ht.bind (Prog.returns_self t)

end EchoServices

/-! What every step keeps. -/

theorem mem_set {α β : Type} {f : α → β} {l : List α} {i : Nat} {x y z : α}
    (hn : (l.map f).Nodup) (hi : l[i]? = some x) (hz : z∈l.set i y) :
    z = y ∨ z∈l ∧ f z ≠ f x := by
  obtain ⟨j,hj⟩ := List.getElem?_of_mem hz
  by_cases hij : i = j
  · subst hij
    rw [List.getElem?_set_self (List.getElem?_eq_some_iff.mp hi).1] at hj
    exact .inl (Option.some.inj hj).symm
  · rw [List.getElem?_set_ne hij] at hj
    refine .inr ⟨List.mem_of_getElem? hj,fun hsame => hij ?_⟩
    have hlt := (List.getElem?_eq_some_iff.mp hi).1
    have heq : (l.map f)[i]? = (l.map f)[j]? := by
      rw [List.getElem?_map,List.getElem?_map,hi,hj,Option.map_some,Option.map_some,hsame]
    exact (List.getElem?_inj (by rwa [List.length_map]) hn).mp heq

namespace Coroutine

theorem watched_congr {table' : Registrations} (h : table' c.fd = table c.fd) :
    c.Watched table' ↔ c.Watched table := by
  rw [Watched,Watched,h]

theorem Settled.congr {table' : Registrations} (hs : c.Settled table)
    (h : table' c.fd = table c.fd) : c.Settled table' := by
  cases hs with
  | suspended hf hp hr => exact .suspended hf hp (h.trans hr)
  | finished hf hr hptr harmed => exact .finished hf (h.trans hr) hptr harmed

theorem Settled.known (hs : c.Settled table) :
    ∃ r, table c.fd = some r ∧ r.event.ptr = c.address := by
  cases hs with
  | suspended _ _ hr => exact ⟨_,hr,rfl⟩
  | finished _ hr hptr _ => exact ⟨_,hr,hptr⟩

structure Passes (table : Registrations) (c d : Coroutine) (table' : Registrations) : Prop where
  fd : d.fd = c.fd
  address : d.address = c.address
  apart : ∀ fd, fd ≠ c.fd → table' fd = table fd
  settled : d.Settled table'

theorem Went.passes {table' : Registrations} {raised : Bool}
    (hw : c.Went table io code (d,table',raised)) (hs : c.Settled table) (hi : ¬ c.Watched table) :
    Passes table c d table' := by
  obtain ⟨r,hr,hptr⟩ := hs.known
  have harmed : r.armed = false := Bool.eq_false_iff.mpr fun h => hi ⟨r,hr,h⟩
  cases hw with
  | destroyed _ => exact ⟨rfl,rfl,fun _ _ => rfl,.finished (by simp) hr hptr harmed⟩
  | thrown _ _ => exact ⟨rfl,rfl,fun _ _ => rfl,.finished (by simp) hr hptr harmed⟩
  | waits hp _ =>
    exact ⟨rfl,rfl,fun fd hfd => Function.update_of_ne hfd _ _,
      .suspended rfl hp (Function.update_self _ _ _)⟩

end Coroutine

namespace EchoServices

def pending (s : EchoServices) : List EpollEvent :=
  match s.phase with
  | .wait => []
  | .dispatch i => (s.poller.epoll_events.take s.poller.cnt.toNat).drop i

structure Sound (s : EchoServices) : Prop where
  fds : (s.coroutines.map Coroutine.fd).Nodup
  addresses : (s.coroutines.map Coroutine.address).Nodup
  own : ∀ c∈s.coroutines, c.fd ≠ s.epfd_
  settled : ∀ c∈s.coroutines, c.Settled s.table
  known : ∀ fd r, s.table fd = some r → ∃ c∈s.coroutines, c.fd = fd

structure Inv (s : EchoServices) : Prop where
  sound : s.Sound
  pending : ∀ e∈s.pending, ∃ c∈s.coroutines, ∃ code, c.Ready s.table e code
  once : (s.pending.map EpollEvent.ptr).Nodup
  index : ∀ i, s.phase = .dispatch i → (i:Int) ≤ s.poller.cnt
  room : ∀ i, s.phase = .dispatch i → 1 ≤ s.poller.slots → s.poller.cnt ≤ s.poller.slots
  counted : s.poller.slots = 0 → 0 ≤ s.poller.cnt

structure Aside (s : EchoServices) (c : Coroutine) (t : EchoServices) : Prop where
  sound : t.Sound
  others : ∀ d, d.address ≠ c.address → (d∈t.coroutines ↔ d∈s.coroutines) ∧
    (d∈s.coroutines → t.table d.fd = s.table d.fd)
  poller : t.poller = { s.poller with resumed := t.poller.resumed }
  phase : t.phase = s.phase

theorem Sound.unique (hs : s.Sound) (hc : c∈s.coroutines) (hd : d∈s.coroutines)
    (h : c.address = d.address) : c = d :=
  List.inj_on_of_nodup_map hs.addresses hc hd h

theorem Sound.moved (hs : s.Sound) (poller : CoEpoll) (phase : Phase) :
    Sound { s with poller := poller, phase := phase } :=
  ⟨hs.fds,hs.addresses,hs.own,hs.settled,hs.known⟩

theorem Handled.aside (ht : Handled s received sent e c code t) (hs : s.Sound)
    (hc : c∈s.coroutines) (hi : ¬ c.Watched s.table) : s.Aside c t := by
  cases ht with
  | missed _ => exact ⟨hs,fun _ _ => ⟨Iff.rfl,fun _ => rfl⟩,rfl,rfl⟩
  | @resumed i d table raised _ hget hw =>
    have hp := hw.passes (hs.settled c hc) hi
    have hset {β : Type} {f : Coroutine → β} (hf : f d = f c) :
        (s.coroutines.set i d).map f = s.coroutines.map f := by
      obtain ⟨hlt,rfl⟩ := List.getElem?_eq_some_iff.mp hget
      rw [List.map_set,hf,← List.getElem_map (l := s.coroutines) f (h := by simpa using hlt)]
      exact List.set_getElem_self _
    have hmem {x : Coroutine} (hx : x∈s.coroutines) (hne : x ≠ c) : x∈s.coroutines.set i d := by
      obtain ⟨j,hj⟩ := List.getElem?_of_mem hx
      have hij : i ≠ j := fun h => hne (by rw [h,hj] at hget; exact Option.some.inj hget)
      exact List.mem_of_getElem? (i := j) (by rw [List.getElem?_set_ne hij]; exact hj)
    have hd : d∈s.coroutines.set i d :=
      List.mem_set (List.getElem?_eq_some_iff.mp hget).1 d
    refine ⟨⟨?_,?_,?_,?_,?_⟩,fun x hne => ⟨⟨fun hx => ?_,fun hx => hmem hx fun h => hne (by rw [h])⟩,
      fun hx => ?_⟩,rfl,rfl⟩
    · rw [hset hp.fd]
      exact hs.fds
    · rw [hset hp.address]
      exact hs.addresses
    · intro x hx
      cases mem_set hs.fds hget hx with
      | inl hx => rw [hx,hp.fd]; exact hs.own c hc
      | inr hx => exact hs.own x hx.1
    · intro x hx
      cases mem_set hs.fds hget hx with
      | inl hx => rw [hx]; exact hp.settled
      | inr hx => exact (hs.settled x hx.1).congr (hp.apart _ hx.2)
    · intro fd r hr
      by_cases hfd : fd = c.fd
      · exact ⟨d,hd,hp.fd.trans hfd.symm⟩
      · obtain ⟨x,hx,rfl⟩ := hs.known fd r ((hp.apart fd hfd).symm.trans hr)
        exact ⟨x,hmem hx fun h => hfd (by rw [h]),rfl⟩
    · cases mem_set hs.addresses hget hx with
      | inl hx => exact absurd (by rw [hx,hp.address]) hne
      | inr hx => exact hx.1
    · exact hp.apart _ fun h => hne (by rw [List.inj_on_of_nodup_map hs.fds hx hc h])

theorem mem_of_forall₂ {α β : Type} {R : α → β → Prop} {l : List α} {l' : List β} {y : β}
    (h : List.Forall₂ R l l') (hy : y∈l') : ∃ x∈l, R x y := by
  induction h with
  | nil => cases hy
  | @cons x z l l' hxz _ ih =>
    cases List.mem_cons.mp hy with
    | inl hy => exact ⟨x,List.mem_cons_self,by rw [hy]; exact hxz⟩
    | inr hy =>
      obtain ⟨w,hw,hwy⟩ := ih hy
      exact ⟨w,List.mem_cons_of_mem x hw,hwy⟩

variable {fd : Int} {fds : List Int} {events : List EpollEvent} {i : Nat}

theorem Sound.reported (hs : s.Sound) (h : Reports s.table fd e) : ∃ c∈s.coroutines, ∃ code,
    c.fd = fd ∧ e.ptr = c.address ∧ c.frame = .suspended code ∧ code.point ≠ .returned ∧
      (e.events&&&EPOLLIN ≠ 0 → code.point = .RecvData) ∧
      (e.events&&&EPOLLOUT ≠ 0 → code.point = .SendData) := by
  obtain ⟨r,hr,harmed,hptr,hasked⟩ := h.armed
  obtain ⟨c,hc,rfl⟩ := hs.known fd r hr
  cases hs.settled c hc with
  | @suspended code armed hf hp hr' =>
    rw [hr'] at hr
    obtain rfl := Option.some.inj hr
    exact ⟨c,hc,code,rfl,hptr,hf,hp,Point.asked hp hasked⟩
  | finished _ hr' _ hidle =>
    rw [hr'] at hr
    rw [← Option.some.inj hr,hidle] at harmed
    cases harmed

theorem Sound.once (hs : s.Sound) (h : List.Forall₂ (Reports s.table) fds events)
    (hfds : fds.Nodup) : (events.map EpollEvent.ptr).Nodup := by
  induction h with
  | nil => exact List.nodup_nil
  | @cons fd e fds events he hrest ih =>
    rw [List.nodup_cons] at hfds
    rw [List.map_cons,List.nodup_cons]
    refine ⟨fun hmem => ?_,ih hfds.2⟩
    obtain ⟨e',he',hsame⟩ := List.mem_map.mp hmem
    obtain ⟨fd',hfd',hreports⟩ := mem_of_forall₂ hrest he'
    obtain ⟨c,hc,_,rfl,hptr,_⟩ := hs.reported he
    obtain ⟨d,hd,_,rfl,hptr',_⟩ := hs.reported hreports
    have hcd := hs.unique hc hd (hptr.symm.trans (hsame.symm.trans hptr'))
    exact hfds.1 (by rwa [hcd])

theorem disarm_mem (h : fd∈fds) : ¬ ∃ r, disarm table fds fd = some r ∧ r.armed = true := by
  rintro ⟨r,hr,harmed⟩
  rw [disarm,if_pos h] at hr
  obtain ⟨r',_,rfl⟩ := Option.map_eq_some_iff.mp hr
  cases harmed

theorem disarm_other (h : fd∉fds) : disarm table fds fd = table fd := if_neg h

theorem Sound.disarm (hs : s.Sound) (fds : List Int) :
    Sound { s with table := disarm s.table fds } := by
  refine ⟨hs.fds,hs.addresses,hs.own,fun c hc => ?_,fun fd r hr => ?_⟩
  · by_cases hfd : c.fd∈fds
    · have htable : EchoServices.disarm s.table fds c.fd =
          (s.table c.fd).map fun r => { r with armed := false } := if_pos hfd
      cases hs.settled c hc with
      | suspended hf hp hr => exact .suspended hf hp (htable.trans (by rw [hr]; rfl))
      | @finished r hf hr hptr _ =>
        exact .finished (r := { r with armed := false }) hf (htable.trans (by rw [hr]; rfl)) hptr rfl
    · exact (hs.settled c hc).congr (disarm_other hfd)
  · by_cases hfd : fd∈fds
    · change EchoServices.disarm s.table fds fd = some r at hr
      rw [EchoServices.disarm,if_pos hfd] at hr
      obtain ⟨r',hr',_⟩ := Option.map_eq_some_iff.mp hr
      exact hs.known fd r' hr'
    · exact hs.known fd r ((disarm_other hfd).symm.trans hr)

theorem wait_ready (interruptions : Nat) (events : List EpollEvent) (p : CoEpoll) :
    (p.wait (answers interruptions (.ready events))).Returns { p with
      epoll_events := events++p.epoll_events.drop events.length
      cnt := events.length } :=
  CoEpoll.wait_ready (a := ⟨interruptions,.ready events,fun _ => false,false⟩) rfl p

theorem wait_fail {e : Errno} (he : e ≠ .EINTR) (interruptions : Nat) (p : CoEpoll) :
    (p.wait (answers interruptions (.fail e))).Returns p :=
  CoEpoll.wait_fail (a := ⟨interruptions,.fail e,fun _ => false,false⟩) rfl he p

def waited (s : EchoServices) (fds : List Int) (poller : CoEpoll) : EchoServices :=
  { s with poller := poller, table := disarm s.table fds, phase := .dispatch 0 }

structure Waits (s : EchoServices) (fds : List Int) (poller : CoEpoll) : Prop where
  distinct : fds.Nodup
  pending : List.Forall₂ (Reports s.table) fds (s.waited fds poller).pending
  counted : 0 ≤ poller.cnt
  room : 1 ≤ poller.slots → poller.cnt ≤ poller.slots

theorem wait_waits {interruptions : Nat} {answer : WaitAnswer} {p : CoEpoll} (hs : s.Inv)
    (hlaw : s.Lawful (.wait interruptions fds answer))
    (hp : (s.poller.wait (answers interruptions answer)).Returns p) : s.Waits fds p := by
  obtain ⟨ha,hr⟩ := hlaw
  cases ha with
  | @ready events _ hle =>
    cases hr with
    | ready hfds h =>
      obtain rfl := hp.unique (wait_ready interruptions events s.poller)
      refine ⟨hfds,by simpa [pending,waited] using h,Int.natCast_nonneg _,fun _ => ?_⟩
      rw [CoEpoll.slots] at hle ⊢
      rw [List.length_append]
      dsimp only
      omega
  | @fail e h0 he =>
    cases hr with
    | fail hfds =>
      obtain rfl := hp.unique (wait_fail he interruptions s.poller)
      have hnil : s.poller.epoll_events = [] := List.eq_nil_of_length_eq_zero h0
      refine ⟨by simp [hfds],by simp [pending,waited,hnil,hfds],hs.counted h0,fun _ => ?_⟩
      omega

theorem Waits.inv {p : CoEpoll} (hp : s.Waits fds p) (hs : s.Inv) : (s.waited fds p).Inv where
  sound := (hs.sound.disarm fds).moved _ _
  pending := by
    intro e he
    obtain ⟨fd,hfd,hreports⟩ := mem_of_forall₂ hp.pending he
    obtain ⟨c,hc,code,rfl,hptr,hf,hpoint,hasked⟩ := hs.sound.reported hreports
    exact ⟨c,hc,code,hptr,hf,disarm_mem hfd,hasked,hpoint⟩
  once := hs.sound.once hp.pending hp.distinct
  index := by
    rintro i hi
    cases hi
    exact hp.counted
  room := fun _ _ => hp.room
  counted := fun _ => hp.counted

theorem pending_cons (hphase : s.phase = .dispatch i) (hi : (i:Int) < s.poller.cnt)
    (he : s.poller.epoll_events[i]? = some e) :
    s.pending = e::pending { s with phase := .dispatch (i+1) } := by
  obtain ⟨hlt,hget⟩ := List.getElem?_eq_some_iff.mp he
  have hlen : i < (s.poller.epoll_events.take s.poller.cnt.toNat).length := by
    rw [List.length_take]
    omega
  rw [pending,hphase]
  dsimp only [pending]
  rw [List.drop_eq_getElem_cons hlen,List.getElem_take,hget]

theorem pending_end (hphase : s.phase = .dispatch i) (hi : (i:Int) = s.poller.cnt) :
    s.pending = [] := by
  rw [pending,hphase]
  exact List.drop_eq_nil_of_le (by rw [List.length_take]; omega)

theorem turn_inv (hs : s.Inv) (hphase : s.phase = .dispatch i) (hi : (i:Int) < s.poller.cnt)
    (he : s.poller.epoll_events[i]? = some e) (hc : c∈s.coroutines)
    (hready : c.Ready s.table e code) (ht : Handled s received sent e c code t) :
    Inv { t with phase := .dispatch (i+1) } := by
  have haside := ht.aside hs.sound hc hready.idle
  have hcons := pending_cons hphase hi he
  have hrest : pending { t with phase := .dispatch (i+1) } =
      pending { s with phase := .dispatch (i+1) } := by
    dsimp only [pending]
    rw [haside.poller]
  have honce := hs.once
  rw [hcons,List.map_cons,List.nodup_cons] at honce
  refine ⟨haside.sound.moved _ _,?_,?_,?_,?_,?_⟩
  · rw [hrest]
    intro e' he'
    obtain ⟨d,hd,code',hready'⟩ := hs.pending e' (by rw [hcons]; exact List.mem_cons_of_mem e he')
    have hne : d.address ≠ c.address := by
      intro hsame
      refine honce.1 (List.mem_map.mpr ⟨e',he',?_⟩)
      rw [hready'.address,hready.address,hsame]
    obtain ⟨hmem,htable⟩ := haside.others d hne
    refine ⟨d,hmem.mpr hd,code',hready'.address,hready'.frame,?_,hready'.asked,hready'.point⟩
    exact fun hw => hready'.idle ((Coroutine.watched_congr (htable hd)).mp hw)
  · rw [hrest]
    exact honce.2
  · rintro j hj
    cases hj
    dsimp only
    rw [haside.poller]
    dsimp only
    omega
  · rintro j hj
    dsimp only
    rw [haside.poller]
    exact hs.room i hphase
  · dsimp only
    rw [haside.poller]
    exact hs.counted

theorem resize_cnt {p q : CoEpoll} {n : Nat} (h : (p.resize n).Returns q) : q.cnt = p.cnt := by
  rw [CoEpoll.resize] at h
  split_ifs at h
  · exact absurd h (Prog.not_returns_throw _ _)
  · rw [(Prog.returns_pure _ _).mp h]
    rfl

theorem grow_shrink_cnt {p q r : CoEpoll} (hq : p.grow.Returns q) (hr : q.shrink.Returns r) :
    r.cnt = p.cnt := by
  have hgrow : q.cnt = p.cnt := by
    rw [CoEpoll.grow] at hq
    split_ifs at hq
    · exact resize_cnt hq
    · rw [(Prog.returns_pure _ _).mp hq]
  rw [CoEpoll.shrink] at hr
  split_ifs at hr
  · rw [resize_cnt hr,hgrow]
  · rw [(Prog.returns_pure _ _).mp hr,hgrow]

theorem resize_inv {p : CoEpoll} (hs : s.Inv) (hcnt : 0 ≤ p.cnt) (stop : Bool) :
    Inv { s with poller := { p with stopped := stop }, phase := .wait } where
  sound := hs.sound.moved _ _
  pending := by simp [pending]
  once := List.nodup_nil
  index := by simp
  room := by simp
  counted := fun _ => hcnt

inductive Goes (s : EchoServices) : Input → EchoServices → Prop where
  | stays {a : Input} (h : ∀ received sent, a = .turn received sent → s.pending = []) : Goes s a s
  | wait {interruptions : Nat} {fds : List Int} {answer : WaitAnswer} {p : CoEpoll}
    (hphase : s.phase = .wait) (hrun : s.poller.stopped = false) (hp : s.Waits fds p)
    (hw : (s.poller.wait (answers interruptions answer)).Returns p) :
    Goes s (.wait interruptions fds answer) (s.waited fds p)
  | turn {received sent : Io} {i : Nat} {e : EpollEvent} {c : Coroutine} {code : EchoService}
    {t : EchoServices} (hphase : s.phase = .dispatch i) (hi : (i:Int) < s.poller.cnt)
    (he : s.poller.epoll_events[i]? = some e) (hc : c∈s.coroutines)
    (hready : c.Ready s.table e code) (ht : Handled s received sent e c code t) :
    Goes s (.turn received sent) { t with phase := .dispatch (i+1) }
  | resize {i : Nat} {stop : Bool} {p q : CoEpoll} (hphase : s.phase = .dispatch i)
    (hi : (i:Int) = s.poller.cnt) (hp : s.poller.grow.Returns p) (hq : p.shrink.Returns q) :
    Goes s (.resize stop) { s with poller := { q with stopped := stop }, phase := .wait }

theorem Inv.turn_ready (hs : s.Inv) (hphase : s.phase = .dispatch i) (hi : (i:Int) ≠ s.poller.cnt)
    (he : s.poller.epoll_events[i]? = some e) : (i:Int) < s.poller.cnt ∧
      ∃ c∈s.coroutines, ∃ code, c.Ready s.table e code := by
  have hindex := hs.index i hphase
  have hlt : (i:Int) < s.poller.cnt := by omega
  refine ⟨hlt,hs.pending e ?_⟩
  rw [pending_cons hphase hlt he]
  exact List.mem_cons_self

theorem step_goes (hs : s.Inv) (h : Step s a t) : s.Goes a t := by
  obtain ⟨hlaw,ht⟩ := h
  have stays (hst : (pure s : Prog Fault EchoServices).Returns t)
      (hnone : ∀ received sent, a = .turn received sent → s.pending = []) : s.Goes a t := by
    rw [(Prog.returns_pure _ _).mp hst]
    exact .stays hnone
  cases a with
  | wait interruptions fds answer =>
    rw [step] at ht
    split_ifs at ht with hphase
    · obtain ⟨p,hp,ht⟩ := (Prog.returns_bind _ _ _).mp ht
      rw [(Prog.returns_pure _ _).mp ht]
      exact .wait hphase.1 hphase.2 (wait_waits hs hlaw hp) hp
    · exact stays ht (by simp)
  | turn received sent =>
    rw [step] at ht
    split at ht
    · rename_i hphase
      exact stays ht fun _ _ _ => by rw [pending,hphase]
    · rename_i i hphase
      split_ifs at ht with hi
      · exact stays ht fun _ _ _ => pending_end hphase hi
      · split at ht
        · rename_i e he
          obtain ⟨u,hu,ht⟩ := (Prog.returns_bind _ _ _).mp ht
          obtain ⟨hlt,c,hc,code,hready⟩ := hs.turn_ready hphase hi he
          obtain ⟨v,hv,hhandled⟩ := handle_handled hs.sound.addresses hc (hs.sound.own c hc) hready
            hlaw.1 hlaw.2
          obtain rfl := hu.unique hv
          rw [(Prog.returns_pure _ _).mp ht]
          exact .turn hphase hlt he hc hready hhandled
        · exact absurd ht (Prog.not_returns_throw _ _)
  | resize stop =>
    rw [step] at ht
    split at ht
    · exact stays ht (by simp)
    · rename_i i hphase
      split_ifs at ht with hi
      · obtain ⟨p,hp,ht⟩ := (Prog.returns_bind _ _ _).mp ht
        obtain ⟨q,hq,ht⟩ := (Prog.returns_bind _ _ _).mp ht
        rw [(Prog.returns_pure _ _).mp ht]
        exact .resize hphase hi hp hq
      · exact stays ht (by simp)

theorem Step.inv (h : Step s a t) (hs : s.Inv) : t.Inv := by
  cases step_goes hs h with
  | stays _ => exact hs
  | wait _ _ hp _ => exact hp.inv hs
  | turn hphase hi he hc hready ht => exact turn_inv hs hphase hi he hc hready ht
  | @resize i stop p q hphase hi hp hq =>
    have hcnt := grow_shrink_cnt hp hq
    exact resize_inv hs (by omega) stop

theorem Inv.returns (hs : s.Inv) (hlaw : s.Lawful a) (h1 : 1 ≤ s.poller.slots)
    (hsmall : s.poller.slots < 2^30) : ∃ t, (s.step a).Returns t := by
  have stays : ∃ t, (pure s : Prog Fault EchoServices).Returns t := ⟨s,Prog.returns_self s⟩
  cases a with
  | wait interruptions fds answer =>
    rw [step]
    split_ifs
    · obtain ⟨ha,_⟩ := hlaw
      cases ha with
      | ready _ _ => exact ⟨_,(wait_ready interruptions _ s.poller).bind (Prog.returns_self _)⟩
      | fail h0 _ => omega
    · exact stays
  | turn received sent =>
    rw [step]
    split
    · exact stays
    · rename_i i hphase
      split_ifs with hi
      · exact stays
      · have hindex := hs.index i hphase
        have hroom := hs.room i hphase h1
        have hlt : i < s.poller.epoll_events.length := by
          rw [CoEpoll.slots] at hroom
          omega
        have he := List.getElem?_eq_getElem hlt
        obtain ⟨_,c,hc,code,hready⟩ := hs.turn_ready hphase hi he
        obtain ⟨t,ht,_⟩ := handle_handled hs.sound.addresses hc (hs.sound.own c hc) hready
          hlaw.1 hlaw.2
        rw [he]
        exact ⟨_,ht.bind (Prog.returns_self _)⟩
  | resize stop =>
    rw [step]
    split
    · exact stays
    · rename_i i hphase
      split_ifs with hi
      · have hroom := hs.room i hphase h1
        cases CoEpoll.grow_shrink (n := i) hi.symm h1 (by omega) (by omega) with
        | inl h =>
          obtain ⟨p,hp,_⟩ := h
          obtain ⟨q,hq,hp⟩ := (Prog.returns_bind _ _ _).mp hp
          exact ⟨_,hq.bind (hp.bind (Prog.returns_self _))⟩
        | inr h => omega
      · exact stays

/-! Runs from the first wait on. -/

structure Begun (cnt : Int) (s : EchoServices) : Prop where
  sound : s.Sound
  phase : s.phase = .wait
  poller : s.poller = CoEpoll.start cnt
  watched : ∀ c∈s.coroutines, c.Watched s.table

theorem Begun.call {cnt : Int} {address : UInt64} {refusals : CtlOp → Option Errno}
    (hs : s.Begun cnt) (hfd : fd ≠ s.epfd_)
    (hnew : ∀ c∈s.coroutines, c.fd ≠ fd ∧ c.address ≠ address)
    (hop : ∀ op, refusals op ≠ some EEXIST)
    (ht : (s.tcp_echo_service fd address refusals).Returns t) : t.Begun cnt ∧ t.epfd_ = s.epfd_ := by
  obtain ⟨table,htable,ht⟩ := (Prog.returns_bind _ _ _).mp ht
  rw [(Prog.returns_pure _ _).mp ht]
  have hadds := EpollWrapper.try_add_ends s.table ⟨Point.asks .RecvData,address⟩ hfd hop
  have hended := Prog.Ends.unique htable hadds
  rw [EpollWrapper.added] at hended
  split at hended
  · obtain rfl := Except.ok.inj hended
    have hold {c : Coroutine} (hc : c∈s.coroutines) :
        Function.update s.table fd (some { event := ⟨Point.asks .RecvData,address⟩ }) c.fd =
          s.table c.fd := Function.update_of_ne (hnew c hc).1 _ _
    refine ⟨⟨⟨?_,?_,?_,?_,?_⟩,hs.phase,hs.poller,?_⟩,rfl⟩
    · rw [List.map_append,List.nodup_append]
      refine ⟨hs.sound.fds,by simp,?_⟩
      simpa using fun c hc => (hnew c hc).1
    · rw [List.map_append,List.nodup_append]
      refine ⟨hs.sound.addresses,by simp,?_⟩
      simpa using fun c hc => (hnew c hc).2
    · simpa [or_imp,forall_and] using ⟨hs.sound.own,hfd⟩
    · intro c hc
      cases List.mem_append.mp hc with
      | inl hc => exact (hs.sound.settled c hc).congr (hold hc)
      | inr hc =>
        rw [List.mem_singleton.mp hc]
        exact .suspended rfl (by simp) (Function.update_self _ _ _)
    · intro x r hr
      by_cases hx : x = fd
      · exact ⟨_,List.mem_append_right _ (List.mem_singleton_self _),hx.symm⟩
      · obtain ⟨c,hc,hcx⟩ := hs.sound.known x r ((Function.update_of_ne hx _ _).symm.trans hr)
        exact ⟨c,List.mem_append_left _ hc,hcx⟩
    · intro c hc
      cases List.mem_append.mp hc with
      | inl hc => exact (Coroutine.watched_congr (hold hc)).mpr (hs.watched c hc)
      | inr hc =>
        rw [List.mem_singleton.mp hc]
        exact ⟨_,Function.update_self _ _ _,rfl⟩
  · cases hended

theorem Started.begun {cnt epfd_ : Int} (h : Started cnt epfd_ s) :
    s.Begun cnt ∧ s.epfd_ = epfd_ := by
  induction h with
  | none =>
    exact ⟨⟨⟨List.nodup_nil,List.nodup_nil,by simp,by simp,by simp⟩,rfl,rfl,by simp⟩,rfl⟩
  | call _ hfd hnew hop ht ih =>
    obtain ⟨hbegun,rfl⟩ := ih
    exact hbegun.call hfd hnew hop ht

theorem Begun.inv {cnt : Int} (hs : s.Begun cnt) : s.Inv where
  sound := hs.sound
  pending := by simp [pending,hs.phase]
  once := by simp [pending,hs.phase]
  index := by simp [hs.phase]
  room := by simp [hs.phase]
  counted := by simp [hs.poller,CoEpoll.start,CoEpoll.slots]

theorem run_inv {as : List (EchoServices×Input)} (h : Run Step s as t) (hs : s.Inv) : t.Inv := by
  induction h with
  | nil => exact hs
  | cons hstep _ ih => exact ih (hstep.inv hs)

/-! The poller alone goes through rounds of `CoEpoll`. -/

def turns (p : CoEpoll) (i : Nat) (resumed : List UInt64) : Prog Fault (List UInt64) :=
  Prog.loop (CoEpoll.dispatchTurn (fun _ => false) p) ((i:Int),resumed)

inductive Tracks (p : CoEpoll) (s : EchoServices) : Prop where
  | wait (hphase : s.phase = .wait) (hp : s.poller = p)
  | dispatch {interruptions : Nat} {answer : WaitAnswer} {q : CoEpoll} {i : Nat}
    (hphase : s.phase = .dispatch i) (hrun : p.stopped = false) (ha : Answered p.slots answer)
    (hq : (p.wait (answers interruptions answer)).Returns q)
    (hs : s.poller = { q with resumed := s.poller.resumed })
    (hturns : ∀ o, (turns q 0 q.resumed).Ends o ↔ (turns q i s.poller.resumed).Ends o)

theorem Handled.resumed_eq (ht : Handled s received sent e c code t)
    (hready : c.Ready s.table e code) :
    t.poller.resumed = e.handle (fun _ => false) s.poller.resumed := by
  have htaken : e.handle (fun _ => false) s.poller.resumed =
      if e.events&&&code.point.awaits ≠ 0 then s.poller.resumed++[e.ptr]
      else s.poller.resumed := by
    rw [EpollEvent.handle]
    simp only [Bool.false_eq_true,and_false,if_false]
    obtain ⟨_,hout,hin⟩ | ⟨_,hin,hout⟩ := hready.single
    · rw [if_neg (not_not.mpr hout),hin]
    · rw [if_neg (not_not.mpr hin),hout]
  rw [htaken]
  cases ht with
  | missed h => rw [if_neg (not_not.mpr h)]
  | resumed h _ _ => rw [if_pos h]

theorem turns_again {p : CoEpoll} {resumed : List UInt64} (hi : (i:Int) ≠ p.cnt)
    (he : p.epoll_events[i]? = some e) (o : Except Fault (List UInt64)) :
    (turns p i resumed).Ends o ↔ (turns p (i+1) (e.handle (fun _ => false) resumed)).Ends o := by
  refine Prog.ends_loop_again _ ?_ o
  rw [CoEpoll.dispatchTurn,if_neg hi,Int.toNat_natCast,he]
  exact Prog.returns_self _

theorem turns_end {p : CoEpoll} {resumed : List UInt64} (hi : (i:Int) = p.cnt) :
    (turns p i resumed).Returns resumed := by
  refine Prog.returns_loop_leave ?_
  rw [CoEpoll.dispatchTurn,if_pos hi]
  exact Prog.returns_self _

theorem step_tracks {p : CoEpoll} (hs : s.Inv) (hp : Tracks p s) (h : Step s a t) :
    Tracks p t ∨ ∃ r q, CoEpoll.Step p r q ∧ Tracks q t := by
  have hlaw := h.1
  cases step_goes hs h with
  | stays _ => exact .inl hp
  | @wait interruptions fds answer q hphase hrun hwaits hq =>
    cases hp with
    | dispatch hphase' => cases hphase.symm.trans hphase'
    | wait _ hp =>
      rw [hp] at hrun hq
      refine .inl (.dispatch rfl hrun ?_ hq rfl fun _ => Iff.rfl)
      rw [← hp]
      exact hlaw.1
  | @turn received sent i e c code u hphase hi he hc hready hu =>
    cases hp with
    | wait hphase' => cases hphase.symm.trans hphase'
    | @dispatch interruptions answer q j hphase' hrun ha hq hpoller hturns =>
      cases hphase.symm.trans hphase'
      have haside := hu.aside hs.sound hc hready.idle
      have hcnt : s.poller.cnt = q.cnt := by rw [hpoller]
      have hevents : s.poller.epoll_events = q.epoll_events := by rw [hpoller]
      rw [hcnt] at hi
      rw [hevents] at he
      refine .inl (.dispatch rfl hrun ha hq ?_ fun o => ?_)
      · dsimp only
        rw [haside.poller]
        dsimp only
        rw [hpoller]
      · rw [hturns,turns_again (Int.ne_of_lt hi) he,hu.resumed_eq hready]
  | @resize i stop g k hphase hi hg hk =>
    cases hp with
    | wait hphase' => cases hphase.symm.trans hphase'
    | @dispatch interruptions answer q j hphase' hrun ha hq hpoller hturns =>
      cases hphase.symm.trans hphase'
      have hcnt : s.poller.cnt = q.cnt := by rw [hpoller]
      have hdispatch : (q.dispatch fun _ => false).Returns s.poller := by
        have hall := (hturns _).mpr (turns_end (hi.trans hcnt))
        rw [hpoller]
        exact Prog.Returns.bind hall (Prog.returns_self _)
      refine .inr ⟨⟨interruptions,answer,fun _ => false,stop⟩,_,.round hrun ha ?_,.wait rfl rfl⟩
      exact hq.bind (hdispatch.bind (hg.bind hk))

/-- Between its waits the poller with its coroutines does what the poller does alone. -/
theorem run_tracks {as : List (EchoServices×Input)} {p : CoEpoll} (h : Run Step s as t)
    (hs : s.Inv) (hp : Tracks p s) : ∃ rs q, Run CoEpoll.Step p rs q ∧ Tracks q t := by
  induction h generalizing p with
  | nil => exact ⟨[],p,.nil p,hp⟩
  | cons hstep _ ih =>
    cases step_tracks hs hp hstep with
    | inl hp => exact ih (hstep.inv hs) hp
    | inr hround =>
      obtain ⟨r,q,hround,hq⟩ := hround
      obtain ⟨rs,u,hrun,hu⟩ := ih (hstep.inv hs) hq
      exact ⟨_,u,.cons hround hrun,hu⟩

/-- At a wait it has gone through rounds of `CoEpoll` only. -/
theorem rounds_refine {cnt epfd_ : Int} {s₀ : EchoServices} {as : List (EchoServices×Input)}
    (hstart : Started cnt epfd_ s₀) (h : Run Step s₀ as s) (hphase : s.phase = .wait) :
    ∃ rs, Run CoEpoll.Step (CoEpoll.start cnt) rs s.poller := by
  have hbegun := hstart.begun.1
  obtain ⟨rs,q,hrun,hq⟩ := run_tracks h hbegun.inv (.wait hbegun.phase hbegun.poller)
  cases hq with
  | wait _ hq =>
    rw [hq]
    exact ⟨rs,hrun⟩
  | dispatch hphase' => cases hphase.symm.trans hphase'

def oneService : EchoServices where
  poller := CoEpoll.start 0
  epfd_ := 3
  table := Function.update (fun _ => none) 5 (some { event := ⟨Point.asks .RecvData,100⟩ })
  coroutines := [⟨5,100,.suspended {}⟩]

def noIo : Io where
  received := .bytes []
  sent := .accept 0

theorem noIo_honest : noIo.Honest := by simp [Io.Honest,noIo]

theorem oneService_started : Started 0 3 oneService :=
  @Started.call 0 3 _ _ 5 100 noIo.refusals .none (by decide) (by simp) noIo_honest ⟨3,rfl⟩

end EchoServices
end AdlServer.Coro
