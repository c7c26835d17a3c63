import AdlServer.LogFile
import AdlServer.LogShutdown

/-! The log as it runs: `threadFunc` hands `logFile::append` to every `Logger`, whose records
go straight to the file, beside the buffers that the back end writes of what
`asyncLogging::append` was given. -/
namespace AdlServer.Log
open Memory Runs

/-- What the log is told: a record of a `Logger`, or a message. -/
inductive Entry where
  | record (r : Bytes)
  | message (m : Bytes)
  deriving DecidableEq

namespace Entry

def text : Entry → Bytes
  | record r => r
  | message m => m

def recorded : Entry → Option Bytes
  | record r => some r
  | message _ => none

def messaged : Entry → Option Bytes
  | record _ => none
  | message m => some m

end Entry

/-- `exited`: `threadFunc` has returned, and its `logFile` is no more. `records` and `messages`
keep all that the log has been told. -/
structure Logs where
  front : AsyncLogging := {}
  back : Rolling
  exited : Bool := false
  records : List Bytes := []
  messages : List Bytes := []

namespace Logs

inductive Action where
  | pass | record | append | stop | turn | collect | write | recycle | exit
  deriving DecidableEq

/-- Any thread takes its next step. A `logFile` is under its own mutex, and is called with a
record, as long as it is there, or with a buffer. -/
inductive Step : Logs → Action → Logs → Prop where
  | pass {s : Logs} {r : Rolling} (h : Rolling.Step s.back .pass r) :
    Step s .pass { s with back := r }
  | record {s : Logs} {r : Rolling} {line : Mem} {len : UInt64} (hthere : s.exited = false)
    (hlen : len.toNat < 2^31) (h : Rolling.Step s.back (.append line len) r) :
    Step s .record { s with back := r, records := s.records++[slice line 0 len.toNat] }
  | append {s : Logs} {f : AsyncLogging} {m : Bytes} (hlen : m.length+1 ≤ newBuffer.avail)
    (h : s.front.append m = .ok f) :
    Step s .append { s with front := f, messages := s.messages++[m] }
  | stop {s : Logs} : Step s .stop { s with front := { s.front with running := false } }
  | turn {s : Logs} (hp : s.front.point = .head) (hr : s.front.running = true) :
    Step s .turn { s with front := { s.front with point := .locking } }
  | collect {s : Logs} (hp : s.front.point = .locking) :
    Step s .collect { s with front := s.front.collect }
  | write {s : Logs} {f : AsyncLogging} {r : Rolling} {p : BufferPtr} {todo : List BufferPtr}
    {line : Mem} {len : UInt64} (hp : s.front.point = .writing (p::todo))
    (hf : s.front.write p todo = .ok f) (hline : slice line 0 len.toNat = ptrBytes p)
    (h : Rolling.Step s.back (.append line len) r) : Step s .write { s with front := f, back := r }
  | recycle {s : Logs} {f : AsyncLogging} (hp : s.front.point = .writing [])
    (h : s.front.recycle = .ok f) : Step s .recycle { s with front := f }
  | exit {s : Logs} (hp : s.front.point = .head) (hr : s.front.running = false) :
    Step s .exit { s with exited := true }

/-- `start` has returned: the back end is about to enter its loop, over a `logFile` that looks
at the clock every 1024 calls. -/
def start (rollSize : Int64) (flushInterval now : Int) : Logs where
  back := Rolling.start rollSize flushInterval 1024 now

/-- No round has had so many buffers that some are dropped. -/
def Keeping (s : Logs) : Prop := ∀ r∈s.front.rounds, r.length < 25

/-- The entries of each file, in the order in which the files were opened, and the messages
that wait in buffers. An overload costs messages, but never the order of the others. -/
structure Holds (s : Logs) (files : List (List Entry)) (waiting : List Bytes) : Prop where
  contents : s.back.files.map FileApp.contents = files.map (List.flatMap Entry.text)
  records : files.flatten.filterMap Entry.recorded = s.records
  messages : (files.flatten.filterMap Entry.messaged++waiting).Sublist s.messages
  buffered : waiting.flatten = vecBytes s.front.awaiting++(vecBytes s.front.transBufVec++
    ptrBytes s.front.cur)
  complete : s.Keeping → files.flatten.filterMap Entry.messaged++waiting = s.messages

/-! What the bytes are made of. -/

/-- `units` are the calls of `logFile::append`; the others are the messages of each buffer. -/
structure Ledger where
  units : List (List Entry) := []
  todo : List (List Bytes) := []
  trans : List (List Bytes) := []
  cur : List Bytes := []

def Ledger.filed (l : Ledger) : List Bytes := l.units.flatten.filterMap Entry.messaged

def Ledger.taken (l : Ledger) : List Bytes := l.filed++l.todo.flatten

structure Ledger.Tells (l : Ledger) (s : Logs) : Prop where
  units : s.back.records = l.units.map (List.flatMap Entry.text)
  records : l.units.flatten.filterMap Entry.recorded = s.records
  todo : s.front.awaiting.map ptrBytes = l.todo.map List.flatten
  trans : s.front.transBufVec.map ptrBytes = l.trans.map List.flatten
  cur : ptrBytes s.front.cur = l.cur.flatten
  messages : (l.taken++(l.trans.flatten++l.cur)).Sublist s.messages
  complete : s.Keeping → l.taken++(l.trans.flatten++l.cur) = s.messages

structure Inv (s : Logs) : Prop where
  front : AsyncLogging.Inv s.front
  back : Rolling.Inv s.back
  whole : Rolling.Whole s.back

variable {s t : Logs} {a : Action} {l : Ledger}

/-! Messages in one unit. -/

theorem flatMap_messages (ms : List Bytes) : (ms.map Entry.message).flatMap Entry.text = ms.flatten := by
  induction ms with
  | nil => rfl
  | cons m ms ih =>
    rw [List.map_cons,List.flatMap_cons,List.flatten_cons,ih]
    rfl

theorem messaged_messages (ms : List Bytes) : (ms.map Entry.message).filterMap Entry.messaged = ms := by
  rw [List.filterMap_map]
  exact List.filterMap_some

theorem recorded_messages (ms : List Bytes) : (ms.map Entry.message).filterMap Entry.recorded = [] := by
  rw [List.filterMap_map]
  exact List.filterMap_eq_nil_iff.mpr fun _ _ => rfl

theorem filterMap_unit {f : Entry → Option Bytes} (us : List (List Entry)) (u : List Entry) :
    (us++[u]).flatten.filterMap f = us.flatten.filterMap f++u.filterMap f := by
  rw [List.flatten_append,List.filterMap_append,List.flatten_singleton]

/-! A call of `logFile::append`. -/

theorem appended {r : Rolling} {back : Rolling} {line : Mem} {len : UInt64}
    (h : Rolling.Step back (.append line len) r) (hb : Rolling.Inv back)
    (hw : Rolling.Whole back) (hlen : len.toNat < 2^31) :
    Rolling.Inv r ∧ Rolling.Whole r ∧ r.records = back.records++[slice line 0 len.toNat] := by
  have hfits := (Rolling.written_eq_iff line len).mpr (.inl hlen)
  obtain ⟨_,_,_,_,_,_,_,_,hrecords,_⟩ := Rolling.append_cases h hb
  exact ⟨Rolling.step_inv h hb,Rolling.append_whole h hb hw hfits,hrecords⟩

theorem passed {r : Rolling} {back : Rolling} (h : Rolling.Step back .pass r)
    (hb : Rolling.Inv back) (hw : Rolling.Whole back) :
    Rolling.Inv r ∧ Rolling.Whole r ∧ r.records = back.records := by
  have hr := Rolling.step_inv h hb
  cases h with
  | pass h => exact ⟨hr,hw,rfl⟩

theorem buffer_short {p : BufferPtr} {line : Mem} {len : UInt64}
    (h : slice line 0 len.toNat = ptrBytes p) : len.toNat < 2^31 := by
  have hlen := congrArg List.length h
  rw [length_slice] at hlen
  have hlarge : (ptrBytes p).length < kLargeBuffer := by
    cases p with
    | none => decide
    | some b => exact b.fits
  rw [kLargeBuffer] at hlarge
  omega

theorem step_inv (h : Step s a t) (hs : Inv s) : Inv t := by
  cases h with
  | pass h =>
    obtain ⟨hb,hw,_⟩ := passed h hs.back hs.whole
    exact ⟨hs.front,hb,hw⟩
  | record _ hlen h =>
    obtain ⟨hb,hw,_⟩ := appended h hs.back hs.whole hlen
    exact ⟨hs.front,hb,hw⟩
  | append hlen h => exact { hs with front := AsyncLogging.step_inv (.append hlen h) hs.front }
  | stop => exact { hs with front := AsyncLogging.step_inv .stop hs.front }
  | turn hp hr => exact { hs with front := AsyncLogging.step_inv (.turn hp hr) hs.front }
  | collect hp => exact { hs with front := AsyncLogging.step_inv (.collect hp) hs.front }
  | write hp hf hline h =>
    obtain ⟨hb,hw,_⟩ := appended h hs.back hs.whole (buffer_short hline)
    exact ⟨AsyncLogging.step_inv (.write hp hf) hs.front,hb,hw⟩
  | recycle hp h => exact { hs with front := AsyncLogging.step_inv (.recycle hp h) hs.front }
  | exit hp hr => exact { hs with }

theorem start_inv {rollSize : Int64} {flushInterval now : Int} (hnow : 0 < now) :
    Inv (start rollSize flushInterval now) :=
  ⟨AsyncLogging.create_inv,Rolling.start_inv (by decide) hnow,
    (Rolling.start_rollsRight (by decide) hnow).whole⟩

/-! The ledger is kept up to date. -/

theorem awaiting_outside (hs : AsyncLogging.Inv s.front)
    (hp : s.front.point = .head ∨ s.front.point = .locking) : s.front.awaiting = [] := by
  have hnone : s.front.awaiting = s.front.needToWriteBufVec := by
    rw [AsyncLogging.awaiting]
    cases hp with
    | inl hp => rw [hp]
    | inr hp => rw [hp]
  rw [hnone]
  cases hs.writer with
  | outside _ _ _ hv => exact hv
  | spare _ hw _ _ _ => simp [hw] at hp
  | bare _ hw _ _ _ => simp [hw] at hp

theorem kept_flatten {α : Type} (v : List (List α)) : (kept v).flatten.Sublist v.flatten := by
  rw [kept]
  split_ifs
  · have hflat := congrArg List.flatten (List.take_append_drop 2 v)
    rw [List.flatten_append] at hflat
    rw [← hflat]
    exact List.sublist_append_left _ _
  · exact List.Sublist.refl _

namespace Ledger.Tells

theorem append {f : AsyncLogging} {m : Bytes} (hl : l.Tells s) (hs : Inv s)
    (hlen : m.length+1 ≤ newBuffer.avail) (h : s.front.append m = .ok f) :
    ∃ l' : Ledger, l'.Tells { s with front := f, messages := s.messages++[m] } ∧
      l.taken<+:l'.taken := by
  obtain ⟨_,b,d,hb,hcases⟩ := AsyncLogging.append_cases (w := s.front.appended) hs.front h
  have hfit : AsyncLogging.fitting m = m := if_pos ((AsyncLogging.fits_iff m).mp hlen)
  have hcur := hl.cur
  rw [hb] at hcur
  cases hcases with
  | inl hin =>
    obtain ⟨hd,rfl⟩ := hin
    refine ⟨{ l with cur := l.cur++[m] },
      ⟨hl.units,hl.records,hl.todo,hl.trans,?_,?_,fun hk => ?_⟩,List.prefix_rfl⟩
    · rw [List.flatten_append,List.flatten_singleton,← hcur,← hfit]
      exact hd
    · have hsub := hl.messages.append_right [m]
      rwa [List.append_assoc,List.append_assoc] at hsub
    · rw [← hl.complete hk]
      simp [taken,filed]
  | inr hin =>
    obtain ⟨hd,rfl⟩ := hin
    refine ⟨{ l with trans := l.trans++[l.cur], cur := [m] },
      ⟨hl.units,hl.records,hl.todo,?_,?_,?_,fun hk => ?_⟩,List.prefix_rfl⟩
    · rw [List.map_append,List.map_append,hl.trans,List.map_singleton,List.map_singleton,hcur]
    · rw [List.flatten_singleton,← hfit]
      exact hd
    · have hsub := hl.messages.append_right [m]
      simpa [taken,filed] using hsub
    · rw [← hl.complete hk]
      simp [taken,filed]

theorem collect (hl : l.Tells s) (hs : Inv s) (hp : s.front.point = .locking) :
    ∃ l' : Ledger, l'.Tells { s with front := s.front.collect } ∧ l.taken<+:l'.taken ∧
      l'.trans = [] ∧ l'.cur = [] := by
  have houtside : AsyncLogging.Clean s.front.newBuf1 ∧ s.front.needToWriteBufVec = [] := by
    cases hs.front.writer with
    | outside _ h1 _ hv => exact ⟨h1,hv⟩
    | spare _ hw _ _ _ => cases hp.symm.trans hw
    | bare _ hw _ _ _ => cases hp.symm.trans hw
  obtain ⟨⟨b,hb,hclean⟩,hv⟩ := houtside
  have htodo : l.todo = [] := by
    have ht := hl.todo
    rw [awaiting_outside hs.front (.inr hp)] at ht
    exact List.map_eq_nil_iff.mp ht.symm
  have hfiled : l.taken = l.filed := by simp [taken,htodo]
  have hall : (s.front.transBufVec++[s.front.cur]).map ptrBytes =
      (l.trans++[l.cur]).map List.flatten := by
    simp [hl.trans,hl.cur]
  have hsub := hl.messages
  rw [hfiled] at hsub
  refine ⟨{ l with todo := kept (l.trans++[l.cur]), trans := [], cur := [] },
    ⟨hl.units,hl.records,?_,?_,?_,?_,fun hk => ?_⟩,?_,rfl,rfl⟩
  · change (kept (s.front.transBufVec++[s.front.cur])).map ptrBytes = _
    rw [← AsyncLogging.kept_map,hall,AsyncLogging.kept_map]
  · change s.front.needToWriteBufVec.map ptrBytes = _
    rw [hv]
    rfl
  · change ptrBytes s.front.newBuf1 = _
    rw [hb]
    exact hclean
  · have hflat := (List.Sublist.refl l.filed).append (kept_flatten (l.trans++[l.cur]))
    rw [List.flatten_append,List.flatten_singleton] at hflat
    simpa [taken,filed] using hflat.trans hsub
  · have hlength := congrArg List.length hall
    rw [List.length_map,List.length_map] at hlength
    have hround := hk ((s.front.transBufVec++[s.front.cur]).map ptrBytes)
      (by simp [AsyncLogging.collect])
    have hbefore : s.Keeping := fun r hr => hk r (by simp [AsyncLogging.collect,hr])
    rw [List.length_map,hlength] at hround
    rw [← hl.complete hbefore,hfiled,kept,if_neg (Nat.not_le.mpr hround)]
    simp [taken,filed]
  · rw [hfiled]
    exact List.prefix_append _ _

theorem write {f : AsyncLogging} {r : Rolling} {p : BufferPtr} {todo : List BufferPtr}
    (hl : l.Tells s) (hp : s.front.point = .writing (p::todo))
    (hf : s.front.write p todo = .ok f) (hr : r.records = s.back.records++[ptrBytes p]) :
    ∃ l' : Ledger, l'.Tells { s with front := f, back := r } ∧ l.taken<+:l'.taken := by
  have htodo := hl.todo
  simp only [AsyncLogging.awaiting,hp,List.map_cons] at htodo
  obtain ⟨ms,mss,hcons,hms,hmss⟩ := List.map_eq_cons_iff.mp htodo.symm
  have hfront : f.point = .writing todo ∧ f.transBufVec = s.front.transBufVec ∧
      f.cur = s.front.cur ∧ f.rounds = s.front.rounds := by
    cases p with
    | none => cases hf
    | some b =>
      cases Except.ok.inj hf
      exact ⟨rfl,rfl,rfl,rfl⟩
  obtain ⟨hpoint,htrans,hcur,hrounds⟩ := hfront
  have htaken : ({ l with units := l.units++[ms.map .message], todo := mss } : Ledger).taken =
      l.taken := by
    rw [taken,filed,filterMap_unit,messaged_messages,taken,hcons,List.flatten_cons,
      List.append_assoc]
    rfl
  refine ⟨{ l with units := l.units++[ms.map .message], todo := mss },
    ⟨?_,?_,?_,?_,?_,?_,fun hk => ?_⟩,htaken ▸ List.prefix_rfl⟩
  · rw [hr,List.map_append,List.map_singleton,flatMap_messages,hms,hl.units]
  · rw [filterMap_unit,recorded_messages,List.append_nil]
    exact hl.records
  · simp only [AsyncLogging.awaiting,hpoint]
    exact hmss.symm
  · rw [htrans]
    exact hl.trans
  · rw [hcur]
    exact hl.cur
  · rw [htaken]
    exact hl.messages
  · rw [htaken]
    exact hl.complete fun r hr => hk r (by rw [hrounds]; exact hr)

end Ledger.Tells

theorem recycle_rounds {f g : AsyncLogging} (h : f.recycle = .ok g) : g.rounds = f.rounds := by
  rw [AsyncLogging.recycle] at h
  dsimp only at h
  generalize (if 2 < f.needToWriteBufVec.length then _ else _) = v at h
  cases h1 : AsyncLogging.refill f.newBuf1 v with
  | error e =>
    rw [h1] at h
    cases h
  | ok r =>
    rw [h1] at h
    dsimp only [bind,Except.bind] at h
    cases h2 : AsyncLogging.refill f.newBuf2 r.2 with
    | error e =>
      rw [h2] at h
      cases h
    | ok q =>
      rw [h2] at h
      rw [← Except.ok.inj h]

theorem step_tells (h : Step s a t) (hs : Inv s) (hl : l.Tells s) :
    ∃ l' : Ledger, l'.Tells t ∧ l.taken<+:l'.taken := by
  cases h with
  | pass h =>
    obtain ⟨_,_,hr⟩ := passed h hs.back hs.whole
    exact ⟨l,{ hl with units := hr.trans hl.units },List.prefix_rfl⟩
  | @record _ line len _ hlen h =>
    obtain ⟨_,_,hr⟩ := appended h hs.back hs.whole hlen
    have htaken : ({ l with units := l.units++[[.record (slice line 0 len.toNat)]] } : Ledger).taken =
        l.taken := by
      rw [Ledger.taken,Ledger.filed,filterMap_unit]
      simp [Ledger.taken,Ledger.filed,Entry.messaged]
    refine ⟨{ l with units := l.units++[[.record (slice line 0 len.toNat)]] },
      { hl with units := ?_, records := ?_, messages := ?_, complete := ?_ },
      htaken ▸ List.prefix_rfl⟩
    · rw [hr,hl.units]
      simp [Entry.text]
    · rw [filterMap_unit,hl.records]
      rfl
    · rw [htaken]
      exact hl.messages
    · rw [htaken]
      exact hl.complete
  | append hlen h => exact hl.append hs hlen h
  | stop => exact ⟨l,{ hl with },List.prefix_rfl⟩
  | exit hp hr => exact ⟨l,{ hl with },List.prefix_rfl⟩
  | turn hp hr =>
    refine ⟨l,{ hl with todo := ?_ },List.prefix_rfl⟩
    rw [← hl.todo]
    simp [AsyncLogging.awaiting,hp]
  | collect hp =>
    obtain ⟨l',hl',htaken,_⟩ := hl.collect hs hp
    exact ⟨l',hl',htaken⟩
  | write hp hf hline h =>
    obtain ⟨_,_,hr⟩ := appended h hs.back hs.whole (buffer_short hline)
    rw [hline] at hr
    exact hl.write hp hf hr
  | recycle hp h =>
    obtain ⟨hpoint,htrans,hcur⟩ := AsyncLogging.recycle_frame h
    have ht := step_inv (.recycle hp h) hs
    refine ⟨l,{ hl with todo := ?_, trans := ?_, cur := ?_, complete := fun hk => ?_ },
      List.prefix_rfl⟩
    · rw [← hl.todo,awaiting_outside ht.front (.inl hpoint),AsyncLogging.awaiting,hp]
    · dsimp only
      rw [htrans]
      exact hl.trans
    · dsimp only
      rw [hcur]
      exact hl.cur
    · exact hl.complete fun r hr => hk r (by rw [recycle_rounds h]; exact hr)

theorem run_tells {as : List (Logs×Action)} (h : Run Step s as t) (hs : Inv s)
    (hl : l.Tells s) : Inv t ∧ ∃ l' : Ledger, l'.Tells t ∧ l.taken<+:l'.taken := by
  induction h generalizing l with
  | nil s => exact ⟨hs,l,hl,List.prefix_rfl⟩
  | cons h _ ih =>
    obtain ⟨l₁,hl₁,htaken⟩ := step_tells h hs hl
    obtain ⟨hi,l₂,hl₂,hmore⟩ := ih (step_inv h hs) hl₁
    exact ⟨hi,l₂,hl₂,htaken.trans hmore⟩

theorem start_tells (rollSize : Int64) (flushInterval now : Int) :
    ({} : Ledger).Tells (start rollSize flushInterval now) :=
  ⟨rfl,rfl,rfl,rfl,rfl,List.Sublist.refl _,fun _ => rfl⟩

theorem regroup {α β : Type} (f : α → β) (gs : List (List β)) {us : List α}
    (h : us.map f = gs.flatten) :
    ∃ ps : List (List α), ps.flatten = us ∧ ps.map (List.map f) = gs := by
  induction gs generalizing us with
  | nil => exact ⟨[],(List.map_eq_nil_iff.mp h).symm,rfl⟩
  | cons g gs ih =>
    obtain ⟨us₁,us₂,hus,hg,hgs⟩ := List.map_eq_append_iff.mp h
    obtain ⟨ps,hps,hmap⟩ := ih hgs
    exact ⟨us₁::ps,by rw [List.flatten_cons,hps,hus],by rw [List.map_cons,hg,hmap]⟩

theorem text_flatten (p : List (List Entry)) :
    (p.map (List.flatMap Entry.text)).flatten = p.flatten.flatMap Entry.text := by
  induction p with
  | nil => rfl
  | cons u p ih => rw [List.map_cons,List.flatten_cons,List.flatten_cons,List.flatMap_append,ih]

theorem Ledger.Tells.holds (hl : l.Tells s) (hs : Inv s) :
    ∃ files, Holds s files (l.todo.flatten++(l.trans.flatten++l.cur)) ∧
      files.flatten.filterMap Entry.messaged = l.filed := by
  obtain ⟨groups,last,hrecords,hclosed,hfile⟩ := hs.whole
  obtain ⟨f,hf,_⟩ := hs.back.file
  rw [hf,Option.map_some,Option.some.injEq] at hfile
  have hunits : l.units.map (List.flatMap Entry.text) = (groups++[last]).flatten := by
    rw [← hl.units,← hrecords,List.flatten_append,List.flatten_singleton]
  obtain ⟨ps,hps,hmap⟩ := regroup (List.flatMap Entry.text) (groups++[last]) hunits
  have hall : (ps.map List.flatten).flatten = l.units.flatten := by
    rw [← List.flatten_flatten,hps]
  refine ⟨ps.map List.flatten,⟨?_,?_,?_,?_,fun hk => ?_⟩,?_⟩
  · have htext : (ps.map List.flatten).map (List.flatMap Entry.text) =
        (ps.map (List.map (List.flatMap Entry.text))).map List.flatten := by
      rw [List.map_map,List.map_map]
      exact List.map_congr_left fun p _ => (text_flatten p).symm
    rw [htext,hmap,Rolling.files,hf,List.map_append,hclosed,List.map_append]
    simp [hfile]
  · rw [hall]
    exact hl.records
  · have hsub := hl.messages
    rw [Ledger.taken,List.append_assoc] at hsub
    rwa [hall]
  · rw [List.flatten_append,List.flatten_append,List.flatten_flatten,List.flatten_flatten,
      ← hl.todo,← hl.trans,← hl.cur]
    rfl
  · have hfull := hl.complete hk
    rw [Ledger.taken,List.append_assoc] at hfull
    rwa [hall]
  · rw [hall]
    rfl

/-- Whatever the threads do, as long as there is a `logFile` for their records: each file holds
whole records and whole messages, every record lies in a file in its order, and the messages lie
in the files and then in the buffers in theirs, all of them unless a round was overloaded. -/
theorem logs_keep_entries {rollSize : Int64} {flushInterval now : Int} {as : List (Logs×Action)}
    (hnow : 0 < now) (h : Run Step (start rollSize flushInterval now) as s) :
    ∃ files waiting, Holds s files waiting := by
  obtain ⟨hs,l,hl,_⟩ := run_tells h (start_inv hnow) (start_tells rollSize flushInterval now)
  obtain ⟨files,hfiles,_⟩ := hl.holds hs
  exact ⟨files,_,hfiles⟩

theorem logs_keep_entries_both : ∃ as s, Run Step (start 1000 3 5) as s ∧ s.records = [[65]] ∧
    s.messages = [[66]] ∧ ∃ files waiting, Holds s files waiting := by
  have hs : Inv (start 1000 3 5) := start_inv (by decide)
  obtain ⟨r,hr⟩ := Rolling.append_step hs.back (fun _ => 65) 1
  have hrecord : Step (start 1000 3 5) .record
      { start 1000 3 5 with back := r, records := [[65]] } := .record rfl (by decide) hr
  have hrun := Run.cons hrecord (.cons (@Step.append _ _ [66] (by decide) rfl) (.nil _))
  exact ⟨_,_,hrun,rfl,rfl,logs_keep_entries (by decide) hrun⟩

/-- What has been told before a round takes its turn is in the files when that round is over,
whatever the other threads tell meanwhile. -/
theorem round_delivers {rollSize : Int64} {flushInterval now : Int}
    {as bs : List (Logs×Action)} {u : Logs} (hnow : 0 < now)
    (h : Run Step (start rollSize flushInterval now) as s) (hc : Step s .collect u)
    (hk : u.Keeping) (hround : Run Step u bs t)
    (hover : t.front.point = .head ∨ t.front.point = .locking) :
    ∃ files waiting, Holds t files waiting ∧
      s.messages<+:files.flatten.filterMap Entry.messaged := by
  obtain ⟨hs,l,hl,_⟩ := run_tells h (start_inv hnow) (start_tells rollSize flushInterval now)
  have hu := step_inv hc hs
  cases hc with
  | collect hp =>
    obtain ⟨l₁,hl₁,_,htrans,hcur⟩ := hl.collect hs hp
    have htaken : l₁.taken = s.messages := by
      rw [← hl₁.complete hk,htrans,hcur]
      simp
    obtain ⟨ht,l₂,hl₂,hmore⟩ := run_tells hround hu hl₁
    have htodo : l₂.todo = [] := by
      have hnone := hl₂.todo
      rw [awaiting_outside ht.front hover] at hnone
      exact List.map_eq_nil_iff.mp hnone.symm
    obtain ⟨files,hfiles,hfiled⟩ := hl₂.holds ht
    refine ⟨files,_,hfiles,?_⟩
    rwa [hfiled,← htaken,← List.append_nil l₂.filed,← List.flatten_nil,← htodo]

theorem letter_fits : [(66:UInt8)].length < kLargeBuffer := by decide

def collecting : Logs :=
  { start 1000 3 5 with
    front := { cur := some ⟨[66],letter_fits⟩, appended := [66], point := .locking }
    messages := [[66]] }

theorem collecting_reached : ∃ as, Run Step (start 1000 3 5) as collecting :=
  ⟨_,.cons (@Step.append _ _ [66] (by decide) rfl) (.cons (.turn rfl rfl) (.nil _))⟩

theorem round_delivers_collecting : ∃ as u bs t, Run Step (start 1000 3 5) as collecting ∧
    Step collecting .collect u ∧ Run Step u bs t ∧ t.front.point = .head ∧
    ∃ files waiting, Holds t files waiting ∧
      [[66]]<+:files.flatten.filterMap Entry.messaged := by
  obtain ⟨as,hreached⟩ := collecting_reached
  have hcollect : Step collecting .collect { collecting with front := collecting.front.collect } :=
    .collect rfl
  have hk : Keeping { collecting with front := collecting.front.collect } := by
    intro r hr
    rw [List.mem_singleton.mp hr]
    decide
  have hs : Inv (start 1000 3 5) := start_inv (by decide)
  obtain ⟨r,hr⟩ := Rolling.append_step hs.back (ofBytes [66] fun _ => 0) 1
  have hwrite := @Step.write { collecting with front := collecting.front.collect } _ r _ _ _ _
    rfl rfl (slice_ofBytes [66] _) hr
  have hround := Run.cons hwrite (.cons (.recycle rfl rfl) (.nil _))
  exact ⟨as,_,_,_,hreached,hcollect,hround,rfl,
    round_delivers (by decide) hreached hcollect hk hround (.inl rfl)⟩

end Logs
end AdlServer.Log
