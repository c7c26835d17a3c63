import AdlServer.Retry
import AdlServer.TcpConnection

/-! The wrappers of `log/fileUtil` around system calls, which are meant to make a call again
when it has been interrupted. Most of them hold its result in a `size_t`. -/
namespace AdlServer.Log
open Program Cpp Retry
open Net (sizeT)
open Net.Conn (FileAnswer)

inductive IoCall where
  | read (fd buf : Int) (len : UInt64)
  | write (fd buf : Int) (len : UInt64)
  | pread (fd buf : Int) (len : UInt64) (offset : Int64)
  | fwrite_unlocked (fp buf : Int) (len : UInt64)
  | open' (path : String) (oflag mode : UInt32)
  deriving DecidableEq

/-- What a call gives, and its `errno` if it sets one. -/
def result : FileAnswer → Int
  | .count n => n
  | .fail _ => -1

def errno : FileAnswer → Option Errno
  | .count _ => none
  | .fail e => some e

/-- The body of `xread`: both ways through it lead round the loop. -/
def xreadLeaves (nr : Nat) (errno : Option Errno) : Option Nat :=
  if nr < 0 then
    if errno = some .EINTR then none else none
  else none

/-- The body of the others: `continue` if `nr < 0` and `errno` is among `again`. -/
def leavesUnless (again : List Errno) (nr : Nat) (errno : Option Errno) : Option Nat :=
  if nr < 0 ∧ ∃ e∈again, errno = some e then none else some nr

section
variable {ε : Type}

def xread (answers : Nat → FileAnswer) (fd buf : Int) (len : UInt64) :
    Prog ε (List IoCall×Nat) :=
  calls answers (fun a => xreadLeaves (sizeT (result a)) (errno a)) (.read fd buf len)

def xwrite (answers : Nat → FileAnswer) (fd buf : Int) (len : UInt64) :
    Prog ε (List IoCall×Nat) :=
  calls answers (fun a => leavesUnless [.EINTR] (sizeT (result a)) (errno a)) (.write fd buf len)

/-- `fwrite_unlocked` itself gives a `size_t`. -/
def xfwrite_unlocked (answers : Nat → Nat×Option Errno) (fp buf : Int) (len : UInt64) :
    Prog ε (List IoCall×Nat) :=
  calls answers (fun a => leavesUnless [.EINTR] a.1 a.2) (.fwrite_unlocked fp buf len)

def xpread (answers : Nat → FileAnswer) (fd buf : Int) (len : UInt64) (offset : Int64) :
    Prog ε (List IoCall×Nat) :=
  calls answers (fun a => leavesUnless [.EAGAIN,.EINTR] (sizeT (result a)) (errno a))
    (.pread fd buf len offset)

end

def O_WRONLY : UInt32 := 1
def O_RDWR : UInt32 := 2
def O_CREAT : UInt32 := 0o100

def couldNotOpen (path : String) (oflag : UInt32) : String :=
  if oflag&&&O_RDWR = O_RDWR then
    "could not open '"++path++"' for reading and writing\n"
  else if oflag&&&O_WRONLY = O_WRONLY then "could not open '"++path++"' for writing\n"
  else "could not open '"++path++"' for reading\n"

/-- `xopen` has its result in an `int`. -/
def xopenLeaves (path : String) (oflag : UInt32) (a : FileAnswer) : Option (Int×Option String) :=
  if 0 ≤ result a then some (result a,none)
  else if errno a = some .EINTR then none
  else some (result a,some (couldNotOpen path oflag))

def xopen {ε : Type} (answers : Nat → FileAnswer) (path : String) (oflag mode : UInt32) :
    Prog ε (List IoCall×Int×Option String) :=
  calls answers (xopenLeaves path oflag)
    (.open' path oflag (if oflag&&&O_CREAT ≠ 0 then mode else 0))

variable {ε : Type} {answers : Nat → FileAnswer} {n : Nat} {r : FileAnswer}

/-- A `size_t` is never negative, so that any result is the last. -/
theorem leavesUnless_eq (again : List Errno) (nr : Nat) (errno : Option Errno) :
    leavesUnless again nr errno = some nr :=
  if_neg fun h => Nat.not_lt_zero nr h.1

theorem xreadLeaves_eq (nr : Nat) (errno : Option Errno) : xreadLeaves nr errno = none :=
  if_neg (Nat.not_lt_zero nr)

theorem xread_endless (answers : Nat → FileAnswer) (fd buf : Int) (len : UInt64) :
    ¬ (xread answers fd buf len : Prog ε _).Halts :=
  calls_endless fun _ => xreadLeaves_eq _ _

theorem leavesUnless_once {A C : Type} (answers : Nat → A) (again : List Errno) (nr : A → Nat)
    (errno : A → Option Errno) (call : C) :
    (calls answers (fun a => leavesUnless again (nr a) (errno a)) call : Prog ε _).Returns
      ([call],nr (answers 0)) :=
  calls_returns (fun _ hk => absurd hk (Nat.not_lt_zero _)) (leavesUnless_eq _ _ _)

def EINTR_failure (a : FileAnswer) : Prop := a = .fail .EINTR

theorem xopen_retries (h : Interrupted EINTR_failure answers n r) (path : String)
    (oflag mode : UInt32) : ∃ complaint,
      (xopen answers path oflag mode : Prog ε _).Returns
        (List.replicate (n+1) (.open' path oflag (if oflag&&&O_CREAT ≠ 0 then mode else 0)),
          result r,complaint) := by
  have hagain : ∀ a, EINTR_failure a → xopenLeaves path oflag a = none := by
    rintro a rfl
    rfl
  cases r with
  | count m => exact ⟨none,h.returns hagain (if_pos (Int.natCast_nonneg m))⟩
  | fail e =>
    have he : errno (.fail e) ≠ some .EINTR := fun he => h.last (by
      rw [EINTR_failure,Option.some.inj he])
    have hneg : ¬ 0 ≤ result (.fail e) := by
      rw [result]
      decide
    exact ⟨some (couldNotOpen path oflag),h.returns hagain (by
      rw [xopenLeaves,if_neg hneg,if_neg he])⟩

inductive Wrapper where
  | xread | xwrite | xpread
  deriving DecidableEq, Repr

structure IoArgs where
  fd : Int
  buf : Int
  len : UInt64
  offset : Int64

namespace Wrapper

def call (args : IoArgs) : Wrapper → IoCall
  | xread => .read args.fd args.buf args.len
  | xwrite => .write args.fd args.buf args.len
  | xpread => .pread args.fd args.buf args.len args.offset

def run (answers : Nat → FileAnswer) (args : IoArgs) : Wrapper → Prog Empty (List IoCall×Nat)
  | xread => Log.xread answers args.fd args.buf args.len
  | xwrite => Log.xwrite answers args.fd args.buf args.len
  | xpread => Log.xpread answers args.fd args.buf args.len args.offset

/-- Behind `n` interruptions the same call has been made `n+1` times, and the last result is
given back. -/
def Retries (answers : Nat → FileAnswer) (args : IoArgs) (n : Nat) (r : FileAnswer)
    (f : Wrapper) : Prop :=
  (f.run answers args).Returns (List.replicate (n+1) (f.call args),sizeT (result r))

variable {args : IoArgs} {f : Wrapper}

theorem run_once (hf : f ≠ xread) :
    (f.run answers args).Returns ([f.call args],sizeT (result (answers 0))) := by
  cases f with
  | xread => exact absurd rfl hf
  | xwrite => exact leavesUnless_once answers [.EINTR] (fun a => sizeT (result a)) errno _
  | xpread => exact leavesUnless_once answers [.EAGAIN,.EINTR] (fun a => sizeT (result a)) errno _

end Wrapper

open Wrapper

/-- An interrupted call is never made again: `xwrite` and `xpread` retry as they should
exactly if there is nothing to retry, and `xread` does not return. -/
theorem retries_iff {args : IoArgs} {f : Wrapper} (h : Interrupted EINTR_failure answers n r) :
    f.Retries answers args n r ↔ f ≠ .xread ∧ n = 0 := by
  constructor
  · intro hr
    have hf : f ≠ .xread := by
      rintro rfl
      exact xread_endless answers args.fd args.buf args.len hr.halts
    have hcalls := congrArg (fun p => p.1.length) (hr.unique (run_once hf))
    rw [List.length_replicate] at hcalls
    exact ⟨hf,Nat.succ.inj hcalls⟩
  · rintro ⟨hf,rfl⟩
    rw [Retries,← h.answer]
    exact run_once hf

theorem retries_iff_atOnce :
    (Wrapper.xpread.Retries (fun _ => .count 4) ⟨3,0,8,100⟩ 0 (.count 4) ↔
      Wrapper.xpread ≠ .xread ∧ 0 = 0) :=
  retries_iff ⟨fun _ hk => absurd hk (Nat.not_lt_zero _),rfl,fun h => by cases h⟩

def onceInterrupted (k : Nat) : FileAnswer := if k = 0 then .fail .EINTR else .count 4

theorem onceInterrupted_answer :
    Interrupted EINTR_failure onceInterrupted 1 (.count 4) where
  before k hk := by
    rw [Nat.lt_one_iff.mp hk]
    rfl
  answer := rfl
  last h := by cases h

theorem interruption_returned : ¬ ∀ (f : Wrapper) (answers : Nat → FileAnswer) (args : IoArgs)
    (n : Nat) (r : FileAnswer), Interrupted EINTR_failure answers n r →
    f.Retries answers args n r := by
  intro hall
  have hr := hall .xwrite onceInterrupted ⟨1,0,8,0⟩ 1 (.count 4) onceInterrupted_answer
  have hcalls := congrArg (fun p => p.1.length) (hr.unique (run_once (by decide)))
  cases hcalls

end AdlServer.Log
