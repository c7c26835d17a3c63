import AdlServer.AsyncLogging
import AdlServer.Runs
import AdlServer.TcpConnection
import Mathlib.Data.List.Chain

/-! `log/logFile` over `fileApp` of `log/fileUtil`: records go to a file, and from time to
time a new file takes its place. A call of `time` reads a clock that never goes back. -/
namespace AdlServer.Log
open Program Memory Runs
open Net (sizeT)

/-- How many bytes a file takes at its n-th `fwrite_unlocked` of so many. -/
abbrev Fwrite : Type := Nat → Nat → Nat

/-- `fileApp`, with the time in the file's name and what has been written through it. -/
structure FileApp where
  opened : Int
  contents : Bytes := []
  writtenBytes : Int64 := 0
  writes : Nat := 0

namespace FileApp

def write (fwrite : Fwrite) (f : FileApp) (p : Mem) (len : Nat) : FileApp×Nat :=
  let n := fwrite f.writes len
  ({ f with contents := f.contents++slice p 0 n, writes := f.writes+1 },n)

structure Rest where
  file : FileApp
  p : Mem
  len : Nat
  total : Nat

def appendTurn (fwrite : Fwrite) (s : Rest) : Prog LogFault (Turn Rest (FileApp×Int)) :=
  if s.len = 0 then pure (.leave (s.file,wrapInt s.total))
  else
    let (file,written) := s.file.write fwrite s.p s.len
    if written = 0 then pure (.leave (file,-1))
    else pure (.again {
      file := { file with writtenBytes := file.writtenBytes+Int64.ofNat written }
      p := shift s.p written
      len := sizeT (s.len-written)
      total := sizeT (s.total+written) })

def append (fwrite : Fwrite) (f : FileApp) (logLine : Mem) (len : Nat) :
    Prog LogFault (FileApp×Int) :=
  Prog.loop (appendTurn fwrite) ⟨f,logLine,len,0⟩

end FileApp

def kRollPerSeconds : Int := 60*60*24

def period (now : Int) : Int := now.tdiv kRollPerSeconds*kRollPerSeconds

/-- `closed` keeps the files that have been given up, in the order of their opening. -/
structure LogFile where
  rollSize : Int64
  flushInterval : Int
  checkEveryN : Int
  count : Int := 0
  startOfPeriod : Int := 0
  lastRoll : Int := 0
  lastFlush : Int := 0
  file : Option FileApp := none
  closed : List FileApp := []

namespace LogFile

def rollfile (s : LogFile) (now : Int) : LogFile×Bool :=
  let start := period now
  if now ≤ s.lastRoll then (s,false)
  else
    ({ s with
      lastRoll := now
      lastFlush := now
      startOfPeriod := start
      closed := s.closed++s.file.toList
      file := some { opened := now } },true)

def create (rollSize : Int64) (flushInterval checkEveryN now : Int) : LogFile :=
  (rollfile ⟨rollSize,flushInterval,checkEveryN,0,0,0,0,none,[]⟩ now).1

def theFile (s : LogFile) : Prog LogFault FileApp :=
  match s.file with
  | some f => pure f
  | none => Prog.throw .null

/-- What `append_unlocked` does behind the write. The clock is read for `now` and then, if at
all, for `now'`. -/
def maintain (s : LogFile) (file : FileApp) (now now' : Int) : LogFile :=
  let s := { s with file := some file }
  if s.rollSize < file.writtenBytes then (s.rollfile now).1
  else
    let s := { s with count := s.count+1 }
    if s.checkEveryN ≤ s.count then
      let s := { s with count := 0 }
      let thisPeriod := period now
      if thisPeriod ≠ s.startOfPeriod then (s.rollfile now').1
      else if s.flushInterval < now-s.lastFlush then { s with lastFlush := now }
      else s
    else s

def append_unlocked (fwrite : Fwrite) (s : LogFile) (logline : Mem) (len now now' : Int) :
    Prog LogFault LogFile := do
  let file ← s.theFile
  let (file,_) ← file.append fwrite logline (sizeT len)
  pure (s.maintain file now now')

/-- The length is handed on as an `int`. -/
def append (fwrite : Fwrite) (s : LogFile) (logline : Mem) (len : UInt64) (now now' : Int) :
    Prog LogFault LogFile :=
  s.append_unlocked fwrite logline (wrapInt len.toNat) now now'

end LogFile

def full : Fwrite := fun _ n => n

theorem FileApp.append_full (f : FileApp) (logLine : Mem) (len : Nat) :
    ∃ r, (f.append full logLine len).Returns r ∧
      r.1.contents = f.contents++slice logLine 0 len ∧ r.1.opened = f.opened := by
  have hleave (s : Rest) (h : s.len = 0) :
      Prog.Returns (Prog.loop (appendTurn full) s) (s.file,wrapInt s.total) := by
    refine Prog.returns_loop_leave ?_
    rw [appendTurn,if_pos h]
    exact Prog.returns_self _
  by_cases h0 : len = 0
  · refine ⟨_,hleave ⟨f,logLine,len,0⟩ h0,?_,rfl⟩
    simp [h0]
  · have hturn : (appendTurn full ⟨f,logLine,len,0⟩).Returns (.again {
        file := { f with
          contents := f.contents++slice logLine 0 len
          writes := f.writes+1
          writtenBytes := f.writtenBytes+Int64.ofNat len }
        p := shift logLine len
        len := sizeT (len-len)
        total := sizeT (0+len) }) := by
      rw [appendTurn,if_neg h0]
      dsimp only [write,full]
      rw [if_neg h0]
      exact Prog.returns_self _
    have hnone : sizeT ((len:Int)-len) = 0 := by
      rw [Int.sub_self]
      rfl
    exact ⟨_,(Prog.ends_loop_again _ hturn _).mpr (hleave _ hnone),rfl,rfl⟩

namespace LogFile
variable {s t : LogFile} {f g : FileApp} {now now' at' : Int}

/-- The record has gone to a file that stays; what the counter is. -/
structure Kept (s t : LogFile) (f : FileApp) (now : Int) : Prop where
  closed : t.closed = s.closed
  file : t.file = some f
  lastRoll : t.lastRoll = s.lastRoll
  startOfPeriod : t.startOfPeriod = s.startOfPeriod
  checkEveryN : t.checkEveryN = s.checkEveryN
  counted : t.count = s.count+1 ∧ t.count < s.checkEveryN ∨
    t.count = 0 ∧ period now = s.startOfPeriod ∨ t.count = s.count ∧ now ≤ s.lastRoll

structure Rolled (s t : LogFile) (f : FileApp) (opened : Int) : Prop where
  closed : t.closed = s.closed++[f]
  file : t.file = some { opened := opened }
  lastRoll : t.lastRoll = opened
  later : s.lastRoll < opened
  startOfPeriod : t.startOfPeriod = period opened
  checkEveryN : t.checkEveryN = s.checkEveryN
  count : t.count = s.count ∨ t.count = 0

theorem rollfile_refused (h : now ≤ s.lastRoll) : s.rollfile now = (s,false) := if_pos h

theorem rollfile_rolled (hf : s.file = some f) (h : s.lastRoll < now) :
    Rolled s (s.rollfile now).1 f now := by
  rw [rollfile,if_neg (Int.not_le.mpr h),hf]
  exact ⟨rfl,rfl,rfl,h,rfl,rfl,.inl rfl⟩

def written (logline : Mem) (len : UInt64) : Bytes := slice logline 0 (sizeT (wrapInt len.toNat))

/-- Behind the write the file stays or gives way to a new one. A roll that a new day asks for
is not refused. -/
theorem maintain_cases (hperiod : s.startOfPeriod = period s.lastRoll) (hnow : s.lastRoll ≤ now)
    (hnow' : now ≤ now') (g : FileApp) :
    Kept s (s.maintain g now now') g now ∨
      ∃ opened, (opened = now ∨ opened = now') ∧ Rolled s (s.maintain g now now') g opened := by
  rw [maintain]
  dsimp only
  by_cases hsize : s.rollSize < g.writtenBytes
  · rw [if_pos hsize]
    by_cases hlate : s.lastRoll < now
    · have hroll := rollfile_rolled (s := { s with file := some g }) rfl hlate
      exact .inr ⟨now,.inl rfl,{ hroll with }⟩
    · have hrefused := rollfile_refused (s := { s with file := some g }) (Int.not_lt.mp hlate)
      rw [hrefused]
      exact .inl ⟨rfl,rfl,rfl,rfl,rfl,.inr (.inr ⟨rfl,Int.not_lt.mp hlate⟩)⟩
  · rw [if_neg hsize]
    by_cases hcount : s.checkEveryN ≤ s.count+1
    · rw [if_pos hcount]
      by_cases hday : period now = s.startOfPeriod
      · rw [if_neg (not_not.mpr hday)]
        by_cases hflush : s.flushInterval < now-s.lastFlush
        · rw [if_pos hflush]
          exact .inl ⟨rfl,rfl,rfl,rfl,rfl,.inr (.inl ⟨rfl,hday⟩)⟩
        · rw [if_neg hflush]
          exact .inl ⟨rfl,rfl,rfl,rfl,rfl,.inr (.inl ⟨rfl,hday⟩)⟩
      · have hne : s.lastRoll ≠ now := fun he => hday (by rw [hperiod,he])
        have hlate : s.lastRoll < now' := by omega
        have hroll := rollfile_rolled (s := { s with file := some g, count := 0 }) rfl hlate
        rw [if_pos hday]
        exact .inr ⟨now',.inr rfl,{ hroll with count := .inr (hroll.count.elim id id) }⟩
    · rw [if_neg hcount]
      exact .inl ⟨rfl,rfl,rfl,rfl,rfl,.inl ⟨rfl,Int.not_le.mp hcount⟩⟩

theorem append_ok (hf : s.file = some f) (logline : Mem) (len : UInt64) (now now' : Int) :
    ∃ g, (s.append full logline len now now').Returns (s.maintain g now now') ∧
      g.contents = f.contents++written logline len ∧ g.opened = f.opened := by
  obtain ⟨r,hr,hcontents,hopened⟩ := f.append_full logline (sizeT (wrapInt len.toNat))
  refine ⟨r.1,?_,hcontents,hopened⟩
  rw [append,append_unlocked,theFile,hf]
  exact hr.bind (Prog.returns_self _)

end LogFile

/-- A `logFile` among its callers, with the time and the records appended so far. -/
structure Rolling where
  log : LogFile
  clock : Int
  records : List Bytes := []

namespace Rolling
open LogFile

inductive Action where
  | pass
  | append (logline : Mem) (len : UInt64)

/-- Time passes, or a record is appended; a call begins at the time reached. -/
inductive Step : Rolling → Action → Rolling → Prop where
  | pass {s : Rolling} {now : Int} (h : s.clock ≤ now) : Step s .pass { s with clock := now }
  | append {s : Rolling} {t : LogFile} {logline : Mem} {len : UInt64} {now now' : Int}
    (hnow : s.clock ≤ now) (hnow' : now ≤ now')
    (h : (s.log.append full logline len now now').Returns t) :
    Step s (.append logline len)
      { log := t, clock := now', records := s.records++[slice logline 0 len.toNat] }

def start (rollSize : Int64) (flushInterval checkEveryN now : Int) : Rolling where
  log := create rollSize flushInterval checkEveryN now
  clock := now

def files (s : Rolling) : List FileApp := s.log.closed++s.log.file.toList

def Action.Fits : Action → Prop
  | pass => True
  | append _ len => len.toNat < 2^31 ∨ 2^64-2^31 ≤ len.toNat

def day (t : Int) : Int := t/kRollPerSeconds

def writesTo (n : Nat) (p : Rolling×Action) : Bool :=
  match p.2 with
  | .pass => false
  | .append _ _ => p.1.log.closed.length == n

structure Inv (s : Rolling) : Prop where
  file : ∃ f, s.log.file = some f ∧ f.opened = s.log.lastRoll
  startOfPeriod : s.log.startOfPeriod = period s.log.lastRoll
  count : 0 ≤ s.log.count ∧ s.log.count < s.log.checkEveryN
  clock : 0 < s.log.lastRoll ∧ s.log.lastRoll ≤ s.clock
  rolls : (s.files.map FileApp.opened).IsChain (·<·)

variable {s t : Rolling} {a : Action} {as : List (Rolling×Action)} {logline : Mem} {len : UInt64}

theorem append_cases (h : Step s (.append logline len) t) (hs : Inv s) :
    ∃ f g now, s.log.file = some f ∧ g.contents = f.contents++written logline len ∧
      g.opened = f.opened ∧ s.clock ≤ now ∧ now ≤ t.clock ∧
      t.records = s.records++[slice logline 0 len.toNat] ∧
      (Kept s.log t.log g now ∨
        ∃ opened, (now ≤ opened ∧ opened ≤ t.clock) ∧ Rolled s.log t.log g opened) := by
  obtain ⟨f,hf,_⟩ := hs.file
  cases h with
  | @append _ _ _ now now' hnow hnow' h =>
    obtain ⟨g,hg,hcontents,hopened⟩ := append_ok hf logline len now now'
    have hlog := h.unique hg
    subst hlog
    refine ⟨f,g,now,hf,hcontents,hopened,hnow,hnow',rfl,?_⟩
    cases maintain_cases hs.startOfPeriod (Int.le_trans hs.clock.2 hnow) hnow' g with
    | inl hkept => exact .inl hkept
    | inr hrolled =>
      obtain ⟨opened,hwhen,hrolled⟩ := hrolled
      refine .inr ⟨opened,?_,hrolled⟩
      cases hwhen with
      | inl he => exact ⟨Int.le_of_eq he.symm,by rw [he]; exact hnow'⟩
      | inr he => exact ⟨by rw [he]; exact hnow',Int.le_of_eq he⟩

theorem step_inv (h : Step s a t) (hs : Inv s) : Inv t := by
  obtain ⟨f,hf,hopened⟩ := hs.file
  have hchain := hs.rolls
  rw [files,hf] at hchain
  cases a with
  | pass =>
    cases h with
    | pass h => exact { hs with clock := ⟨hs.clock.1,Int.le_trans hs.clock.2 h⟩ }
  | append logline len =>
    obtain ⟨f',g,now,hf',_,hg,hnow,hnow',_,hcases⟩ := append_cases h hs
    obtain rfl : f = f' := Option.some.inj (hf.symm.trans hf')
    have hclock := hs.clock
    have hcount := hs.count
    cases hcases with
    | inl hkept =>
      refine ⟨⟨g,hkept.file,?_⟩,?_,?_,?_,?_⟩
      · rw [hg,hopened,hkept.lastRoll]
      · rw [hkept.startOfPeriod,hkept.lastRoll,hs.startOfPeriod]
      · have hc := hkept.counted
        rw [hkept.checkEveryN]
        omega
      · rw [hkept.lastRoll]
        omega
      · rw [files,hkept.closed,hkept.file]
        simpa [hg] using hchain
    | inr hrolled =>
      obtain ⟨opened,hwhen,hrolled⟩ := hrolled
      have hlater := hrolled.later
      refine ⟨⟨_,hrolled.file,hrolled.lastRoll.symm⟩,?_,?_,?_,?_⟩
      · rw [hrolled.startOfPeriod,hrolled.lastRoll]
      · have hc := hrolled.count
        rw [hrolled.checkEveryN]
        omega
      · rw [hrolled.lastRoll]
        omega
      · have hnext : g.opened < opened := by
          rw [hg,hopened]
          exact hlater
        have hfiles : (s.log.closed.map FileApp.opened++[g.opened]).IsChain (·<·) := by
          simpa [hg] using hchain
        have hall := List.isChain_append_cons_cons.mpr ⟨hfiles,hnext,.singleton opened⟩
        simpa [files,hrolled.closed,hrolled.file] using hall

variable {rollSize : Int64} {flushInterval checkEveryN now : Int}

theorem start_log (rollSize : Int64) (flushInterval checkEveryN : Int) (hnow : 0 < now) :
    (start rollSize flushInterval checkEveryN now).log =
      ⟨rollSize,flushInterval,checkEveryN,0,period now,now,now,some { opened := now },[]⟩ := by
  rw [start,create,rollfile,if_neg (Int.not_le.mpr hnow)]
  rfl

theorem start_inv (hN : 1 ≤ checkEveryN) (hnow : 0 < now) :
    Inv (start rollSize flushInterval checkEveryN now) := by
  have hlog := start_log rollSize flushInterval checkEveryN hnow
  refine ⟨⟨{ opened := now },?_,?_⟩,?_,?_,?_,?_⟩
  · rw [hlog]
  · rw [hlog]
  · rw [hlog]
  · rw [hlog]
    exact ⟨Int.le_refl 0,Int.lt_of_lt_of_le Int.zero_lt_one hN⟩
  · rw [hlog]
    exact ⟨hnow,Int.le_refl now⟩
  · rw [files,hlog]
    exact .singleton now

theorem run_inv (h : Run Step s as t) (hs : Inv s) : Inv t := by
  induction h with
  | nil => exact hs
  | cons h _ ih => exact ih (step_inv h hs)

/-! What the files hold. -/

/-- The records of each file: `groups` of those that are closed, `last` of the present one. -/
def Whole (s : Rolling) : Prop :=
  ∃ (groups : List (List Bytes)) (last : List Bytes), groups.flatten++last = s.records ∧
    s.log.closed.map FileApp.contents = groups.map List.flatten ∧
    s.log.file.map FileApp.contents = some last.flatten

def contents (s : Rolling) : Bytes := s.files.flatMap FileApp.contents

theorem contents_of (hf : s.log.file = some f) :
    s.contents = s.log.closed.flatMap FileApp.contents++f.contents := by
  simp [contents,files,hf]

theorem append_contents (h : Step s (.append logline len) t) (hs : Inv s) :
    t.contents = s.contents++written logline len := by
  obtain ⟨f,g,now,hf,hg,_,_,_,_,hcases⟩ := append_cases h hs
  rw [contents_of hf]
  cases hcases with
  | inl hkept => rw [contents_of hkept.file,hkept.closed,hg,List.append_assoc]
  | inr hrolled =>
    obtain ⟨opened,_,hrolled⟩ := hrolled
    rw [contents_of hrolled.file,hrolled.closed]
    simp [hg]

theorem append_whole (h : Step s (.append logline len) t) (hs : Inv s) (hw : Whole s)
    (hwritten : written logline len = slice logline 0 len.toNat) : Whole t := by
  obtain ⟨groups,last,hrecords,hclosed,hfile⟩ := hw
  obtain ⟨f,g,now,hf,hg,_,_,_,ht,hcases⟩ := append_cases h hs
  rw [hf,Option.map_some,Option.some.injEq] at hfile
  have hnew : g.contents = (last++[slice logline 0 len.toNat]).flatten := by
    rw [hg,hfile,hwritten]
    simp
  cases hcases with
  | inl hkept =>
    refine ⟨groups,last++[slice logline 0 len.toNat],?_,?_,?_⟩
    · rw [ht,← hrecords,List.append_assoc]
    · rw [hkept.closed,hclosed]
    · rw [hkept.file,← hnew]
      rfl
  | inr hrolled =>
    obtain ⟨opened,_,hrolled⟩ := hrolled
    refine ⟨groups++[last++[slice logline 0 len.toNat]],[],?_,?_,?_⟩
    · rw [ht,← hrecords]
      simp
    · rw [hrolled.closed,List.map_append,List.map_append,hclosed]
      simp [hnew]
    · rw [hrolled.file]
      rfl

theorem written_eq_iff (logline : Mem) (len : UInt64) :
    written logline len = slice logline 0 len.toNat ↔ (Action.append logline len).Fits := by
  have hlen := len.toNat_lt
  have hconverted : sizeT (wrapInt len.toNat) = len.toNat ↔
      len.toNat < 2^31 ∨ 2^64-2^31 ≤ len.toNat := by
    rw [wrapInt,Int.bmod_def,sizeT]
    split_ifs <;> omega
  rw [Action.Fits,← hconverted]
  constructor
  · intro he
    have hl := congrArg List.length he
    rw [written,length_slice,length_slice] at hl
    omega
  · intro he
    rw [written,he]

/-! How long a file is written to. -/

theorem day_mono {x y : Int} (h : x ≤ y) : day x ≤ day y := by
  rw [day,day,kRollPerSeconds]
  omega

theorem day_of_period {x y : Int} (hx : 0 ≤ x) (hy : 0 ≤ y) (h : period x = period y) :
    day x = day y := by
  rw [period,period,Int.tdiv_eq_ediv_of_nonneg hx,Int.tdiv_eq_ediv_of_nonneg hy,
    kRollPerSeconds] at h
  rw [day,day,kRollPerSeconds]
  omega

theorem closed_grows (h : Step s a t) (hs : Inv s) :
    s.log.closed.length ≤ t.log.closed.length := by
  cases a with
  | pass =>
    cases h with
    | pass _ => exact Nat.le_refl _
  | append logline len =>
    obtain ⟨_,_,_,_,_,_,_,_,_,hcases⟩ := append_cases h hs
    cases hcases with
    | inl hkept => rw [hkept.closed]
    | inr hrolled =>
      obtain ⟨_,_,hrolled⟩ := hrolled
      rw [hrolled.closed,List.length_append]
      exact Nat.le_add_right _ _

theorem run_closed (h : Run Step s as t) (hs : Inv s) {n : Nat} (hn : n < s.log.closed.length) :
    as.countP (writesTo n) = 0 := by
  induction h with
  | nil => rfl
  | @cons s u t a as h _ ih =>
    have hgrows := closed_grows h hs
    have hnot : ¬ writesTo n (s,a) = true := by
      cases a with
      | pass => exact Bool.false_ne_true
      | append _ _ =>
        change ¬ (s.log.closed.length == n) = true
        rw [beq_iff_eq]
        omega
    rw [List.countP_cons_of_neg hnot]
    exact ih (step_inv h hs) (by omega)

/-- Where the clock is in a later day than the file, each call counts up, or the file is
closed: the size asks for a roll, or the counter for the day. -/
theorem late_append (h : Step s (.append logline len) t) (hs : Inv s)
    (hlate : day s.log.lastRoll < day s.clock) :
    (t.log.closed = s.log.closed ∧ t.log.lastRoll = s.log.lastRoll ∧
      t.log.checkEveryN = s.log.checkEveryN ∧ t.log.count = s.log.count+1) ∨
    s.log.closed.length < t.log.closed.length := by
  obtain ⟨_,_,now,_,_,_,hnow,_,_,hcases⟩ := append_cases h hs
  have hday := day_mono hnow
  cases hcases with
  | inl hkept =>
    have hclock := hs.clock
    have hone : t.log.count = s.log.count+1 := by
      cases hkept.counted with
      | inl hc => exact hc.1
      | inr hc =>
        cases hc with
        | inl hc =>
          have hsame := day_of_period (by omega) (by omega) (hc.2.trans hs.startOfPeriod)
          omega
        | inr hc =>
          have hback := day_mono hc.2
          omega
    exact .inl ⟨hkept.closed,hkept.lastRoll,hkept.checkEveryN,hone⟩
  | inr hrolled =>
    obtain ⟨_,_,hrolled⟩ := hrolled
    rw [hrolled.closed,List.length_append]
    exact .inr (Nat.lt_succ_self _)

theorem clock_mono (h : Step s a t) (hs : Inv s) : s.clock ≤ t.clock := by
  cases a with
  | pass =>
    cases h with
    | pass h => exact h
  | append logline len =>
    obtain ⟨_,_,now,_,_,_,hnow,hnow',_⟩ := append_cases h hs
    exact Int.le_trans hnow hnow'

theorem late_writes (h : Run Step s as t) (hs : Inv s)
    (hlate : day s.log.lastRoll < day s.clock) :
    (as.countP (writesTo s.log.closed.length):Int)+s.log.count ≤ s.log.checkEveryN := by
  induction h with
  | nil s =>
    have hcount := hs.count
    rw [List.countP_nil]
    omega
  | @cons s u t a as h hrun ih =>
    have hu := step_inv h hs
    have hclock := day_mono (clock_mono h hs)
    cases a with
    | pass =>
      cases h with
      | pass _ => exact ih hu (Int.lt_of_lt_of_le hlate hclock)
    | append logline len =>
      have hwrites : writesTo s.log.closed.length (s,.append logline len) = true :=
        beq_self_eq_true _
      rw [List.countP_cons_of_pos hwrites]
      cases late_append h hs hlate with
      | inl hkept =>
        obtain ⟨hclosed,hlast,hN,hcount⟩ := hkept
        have hrest := ih hu (by rw [hlast]; exact Int.lt_of_lt_of_le hlate hclock)
        rw [hclosed,hN,hcount] at hrest
        omega
      | inr hclosed =>
        have hcount := hs.count
        rw [run_closed hrun hu hclosed]
        omega

/-- What is asked of a `logFile`: its files hold the records in their order, none in two
files; each roll is later than the one before; and of a file that is out of date at most
`checkEveryN` more records become part. -/
structure RollsRight (s : Rolling) : Prop where
  concatenated : s.contents = s.records.flatten
  whole : Whole s
  rolls : (s.files.map FileApp.opened).IsChain (·<·)
  inTime : ∀ f, s.log.file = some f → f.opened = s.log.lastRoll ∧
    (day f.opened < day s.clock → ∀ as t, Run Step s as t →
      (as.countP (writesTo s.log.closed.length):Int) ≤ s.log.checkEveryN)

theorem rollsRight_of (hs : Inv s) (hcontents : s.contents = s.records.flatten) (hw : Whole s) :
    RollsRight s := by
  refine ⟨hcontents,hw,hs.rolls,fun f hf => ?_⟩
  obtain ⟨f',hf',hopened⟩ := hs.file
  obtain rfl : f = f' := Option.some.inj (hf.symm.trans hf')
  refine ⟨hopened,fun hlate as t h => ?_⟩
  have hcount := hs.count
  have hwrites := late_writes h hs (by rwa [← hopened])
  omega

theorem step_rollsRight_iff (hs : Inv s) (hright : RollsRight s) (h : Step s a t) :
    RollsRight t ↔ a.Fits := by
  have ht := step_inv h hs
  cases a with
  | pass =>
    cases h with
    | pass _ =>
      exact ⟨fun _ => trivial,fun _ => rollsRight_of ht hright.concatenated hright.whole⟩
  | append logline len =>
    obtain ⟨_,_,_,_,_,_,_,_,hrecords,_⟩ := append_cases h hs
    have hflat : t.records.flatten = s.records.flatten++slice logline 0 len.toNat := by
      rw [hrecords]
      simp
    have hcontents := append_contents h hs
    rw [← written_eq_iff]
    constructor
    · intro hr
      have he := hr.concatenated
      rw [hcontents,hflat,hright.concatenated] at he
      exact List.append_cancel_left he
    · intro hwritten
      refine rollsRight_of ht ?_ (append_whole h hs hright.whole hwritten)
      rw [hcontents,hflat,hright.concatenated,hwritten]

theorem start_rollsRight (hN : 1 ≤ checkEveryN) (hnow : 0 < now) :
    RollsRight (start rollSize flushInterval checkEveryN now) := by
  have hlog := start_log rollSize flushInterval checkEveryN hnow
  refine rollsRight_of (start_inv hN hnow) ?_ ⟨[],[],rfl,?_,?_⟩
  · rw [contents,files,hlog]
    rfl
  · rw [hlog]
    rfl
  · rw [hlog]
    rfl

/-- Whatever the sizes, the intervals and the clock, a log rolls right in every state of a run
exactly if no record is too long for an `int`. -/
theorem rolls_right_iff (hN : 1 ≤ checkEveryN) (hnow : 0 < now)
    (h : Run Step (start rollSize flushInterval checkEveryN now) as s) :
    (∀ x∈visited as s, RollsRight x) ↔ ∀ p∈as, p.2.Fits := by
  have hstep : ∀ s a t, Inv s → RollsRight s → Step s a t → (RollsRight t ↔ ¬ ¬ a.Fits) :=
    fun _ _ _ hs hright h => (step_rollsRight_iff hs hright h).trans not_not.symm
  have hall := h.good_iff (fun _ _ _ hs h => step_inv h hs) hstep (start_inv hN hnow)
    (start_rollsRight hN hnow)
  rw [hall]
  exact forall₂_congr fun _ _ => not_not

theorem append_step (hs : Inv s) (logline : Mem) (len : UInt64) :
    ∃ t, Step s (.append logline len) t := by
  obtain ⟨f,hf,_⟩ := hs.file
  obtain ⟨_,hg,_⟩ := append_ok hf logline len s.clock s.clock
  exact ⟨_,.append (Int.le_refl _) (Int.le_refl _) hg⟩

def nextDay : List (Rolling×Action) :=
  [(start 1000 3 1 5,.pass),
    ({ start 1000 3 1 5 with clock := 90000 },.append (fun _ => 65) 2)]

theorem rolls_right_iff_nextDay : ∃ s, Run Step (start 1000 3 1 5) nextDay s ∧
    ((∀ x∈visited nextDay s, RollsRight x) ↔ ∀ p∈nextDay, p.2.Fits) := by
  have hpass : Step (start 1000 3 1 5) .pass { start 1000 3 1 5 with clock := 90000 } :=
    .pass (by decide)
  obtain ⟨t,ht⟩ := append_step (step_inv hpass (start_inv (by decide) (by decide)))
    (fun _ => 65) 2
  have hrun : Run Step (start 1000 3 1 5) nextDay t := .cons hpass (.cons ht (.nil t))
  exact ⟨t,hrun,rolls_right_iff (by decide) (by decide) hrun⟩

theorem record_lost : ¬ ∀ (rollSize : Int64) (flushInterval checkEveryN now : Int)
    (as : List (Rolling×Action)) (s : Rolling), 1 ≤ checkEveryN → 0 < now →
    Run Step (start rollSize flushInterval checkEveryN now) as s →
    ∀ x∈visited as s, RollsRight x := by
  intro hall
  have hs : Inv (start 1000 3 1024 5) := start_inv (by decide) (by decide)
  obtain ⟨t,ht⟩ := append_step hs (fun _ => 65) 4294967296
  have hright := hall 1000 3 1024 5 _ t (by decide) (by decide) (.cons ht (.nil t)) t
    (by simp [visited])
  have hfits := (step_rollsRight_iff hs (start_rollsRight (by decide) (by decide)) ht).mp hright
  exact absurd hfits (by simp [Action.Fits])

end Rolling

end AdlServer.Log
