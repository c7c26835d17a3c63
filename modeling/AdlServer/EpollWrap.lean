import AdlServer.CoEpoll
import Mathlib.Logic.Function.Basic

/-! `epoll_ctl` as `coro/epoll_wrap` calls it, with what the kernel keeps for each
descriptor. -/
namespace AdlServer.Coro
open Program Cpp
open Net (CtlOp Events)

def EPOLLERR : Events := 0x008
def EPOLLONESHOT : Events := 0x40000000

def EEXIST : Errno := .other 17
def ENOENT : Errno := .other 2

/-- What is asked for a descriptor. A report of it disarms a registration with
`EPOLLONESHOT`. -/
structure Registration where
  event : EpollEvent
  armed : Bool := true
  deriving DecidableEq

abbrev Registrations := Int → Option Registration

def epollCtl (table : Registrations) (op : CtlOp) (fd : Int) (ee : EpollEvent)
    (refusal : Option Errno) : Except Errno Registrations :=
  match op,(table fd).isSome with
  | .ADD,true => .error EEXIST
  | .MOD,false => .error ENOENT
  | .DEL,false => .error ENOENT
  | _,_ => match refusal with
    | some e => .error e
    | none => .ok (Function.update table fd (if op = .DEL then none else some { event := ee }))

/-- The exceptions of `ctl`. -/
inductive CtlError where
  | invalid_argument
  | system_error (e : Errno)
  deriving DecidableEq

namespace EpollWrapper

def ctlTurn (refusals : CtlOp → Option Errno) (table : Registrations) (fd : Int)
    (ep_evt : EpollEvent) (add_retry : Bool) (ctl_opt : CtlOp) :
    Prog CtlError (Turn CtlOp Registrations) :=
  match epollCtl table ctl_opt fd ep_evt (refusals ctl_opt) with
  | .ok table => pure (.leave table)
  | .error e =>
    if e ≠ EEXIST ∨ add_retry = false then Prog.throw (.system_error e)
    else pure (.again .MOD)

def ctl (epfd_ : Int) (refusals : CtlOp → Option Errno) (table : Registrations) (fd : Int)
    (ctl_opt : CtlOp) (ep_evt : EpollEvent) (add_retry : Bool) : Prog CtlError Registrations :=
  if fd = epfd_ then Prog.throw .invalid_argument
  else Prog.loop (ctlTurn refusals table fd ep_evt add_retry) ctl_opt

def try_add (epfd_ : Int) (refusals : CtlOp → Option Errno) (table : Registrations) (fd : Int)
    (ep_evt : EpollEvent) : Prog CtlError Registrations :=
  ctl epfd_ refusals table fd .ADD ep_evt true

variable {epfd_ fd : Int} {refusals : CtlOp → Option Errno} {table : Registrations}
  {ep_evt : EpollEvent}

/-- The call that decides: a descriptor that is known already is modified. -/
def deciding (table : Registrations) (fd : Int) : CtlOp :=
  if (table fd).isSome then .MOD else .ADD

def added (refusals : CtlOp → Option Errno) (table : Registrations) (fd : Int)
    (ep_evt : EpollEvent) : Except CtlError Registrations :=
  match refusals (deciding table fd) with
  | none => .ok (Function.update table fd (some { event := ep_evt }))
  | some e => .error (.system_error e)

theorem epollCtl_deciding (refusal : Option Errno) :
    epollCtl table (deciding table fd) fd ep_evt refusal =
      match refusal with
      | none => .ok (Function.update table fd (some { event := ep_evt }))
      | some e => .error e := by
  rw [deciding]
  cases hknown : (table fd).isSome with
  | false => cases refusal <;> simp [epollCtl,hknown]
  | true => cases refusal <;> simp [epollCtl,hknown]

theorem ctl_decides (table : Registrations) (fd : Int) (ep_evt : EpollEvent) (add_retry : Bool)
    (hop : ∀ op, refusals op ≠ some EEXIST) :
    (Prog.loop (ctlTurn refusals table fd ep_evt add_retry) (deciding table fd)).Ends
      (added refusals table fd ep_evt) := by
  rw [added]
  cases hr : refusals (deciding table fd) with
  | none =>
    refine Prog.returns_loop_leave ?_
    rw [ctlTurn,hr,epollCtl_deciding]
    exact Prog.returns_self _
  | some e =>
    have he : e ≠ EEXIST := fun h => hop _ (by rw [hr,h])
    refine Prog.throws_loop ?_
    rw [ctlTurn,hr,epollCtl_deciding]
    dsimp only
    rw [if_pos (.inl he)]
    exact (Prog.ends_throw _ _).mpr rfl

theorem try_add_ends (table : Registrations) (ep_evt : EpollEvent) (hfd : fd ≠ epfd_)
    (hop : ∀ op, refusals op ≠ some EEXIST) :
    (try_add epfd_ refusals table fd ep_evt).Ends (added refusals table fd ep_evt) := by
  have hdecides := ctl_decides table fd ep_evt true hop
  rw [try_add,ctl,if_neg hfd]
  cases hknown : (table fd).isSome with
  | false => rwa [deciding,hknown,if_neg Bool.false_ne_true] at hdecides
  | true =>
    rw [deciding,hknown,if_pos rfl] at hdecides
    have hexists : epollCtl table .ADD fd ep_evt (refusals .ADD) = .error EEXIST := by
      simp [epollCtl,hknown]
    refine (Prog.ends_loop_again _ ?_ _).mpr hdecides
    rw [ctlTurn,hexists]
    exact Prog.returns_self _

end EpollWrapper
end AdlServer.Coro
