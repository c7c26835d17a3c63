import AdlServer.Memory
import AdlServer.Threads

/-! `log/asyncLogging` over `log/adlBuffer`: threads that append and the thread that
writes. What is done under the mutex is one step; the vector the writer works on is its
own. A moved-from pointer is null. -/
namespace AdlServer.Log
open Memory Threads

/-- How a thread can break off: `DIE`, a null pointer, `back()` of an empty vector, or an
`assert` of the buffer. -/
inductive LogFault where
  | notRunning | overflow | null | emptyBack | assertion
  deriving DecidableEq, Repr

/-- `adlBuffer<SIZE>`, as its first `len_` bytes; a NUL stands behind them. -/
structure AdlBuffer (SIZE : Nat) where
  data : Bytes
  fits : data.length < SIZE

namespace AdlBuffer
variable {SIZE : Nat}

def avail (b : AdlBuffer SIZE) : Nat := SIZE-1-b.data.length

def append (b : AdlBuffer SIZE) (s : Bytes) : Except LogFault (AdlBuffer SIZE) :=
  if s = [] then .ok b
  else if h : s.length ≤ b.avail then
    .ok ⟨b.data++s,by
      have := b.fits
      unfold avail at h
      rw [List.length_append]
      omega⟩
  else .error .assertion

def reset (b : AdlBuffer SIZE) : AdlBuffer SIZE := ⟨[],Nat.zero_lt_of_lt b.fits⟩

theorem append_ok (b : AdlBuffer SIZE) {s : Bytes} (h : s.length ≤ b.avail) :
    ∃ d, b.append s = .ok d ∧ d.data = b.data++s := by
  rw [append]
  by_cases hs : s = []
  · exact ⟨b,if_pos hs,by rw [hs,List.append_nil]⟩
  · rw [if_neg hs,dif_pos h]
    exact ⟨_,rfl,rfl⟩

end AdlBuffer

def kLargeBuffer : Nat := 4000*1000

abbrev Buffer : Type := AdlBuffer kLargeBuffer

def newBuffer : Buffer := ⟨[],by decide⟩

abbrev BufferPtr : Type := Option Buffer

def deref : BufferPtr → Except LogFault Buffer
  | some b => .ok b
  | none => .error .null

def ptrBytes (p : BufferPtr) : Bytes := (p.map AdlBuffer.data).getD []

def vecBytes (v : List BufferPtr) : Bytes := v.flatMap ptrBytes

/-- Where the writer is; `todo` is what its loop over the vector has not reached. -/
inductive WriterAt where
  | head | locking
  | writing (todo : List BufferPtr)

/-- `rounds` keeps what the buffers of each round held, `appended` all messages. -/
structure AsyncLogging where
  running : Bool := true
  cur : BufferPtr := some newBuffer
  prv : BufferPtr := some newBuffer
  transBufVec : List BufferPtr := []
  point : WriterAt := .head
  newBuf1 : BufferPtr := some newBuffer
  newBuf2 : BufferPtr := some newBuffer
  needToWriteBufVec : List BufferPtr := []
  file : Bytes := []
  rounds : List (List Bytes) := []
  appended : Bytes := []

/-- What a round writes of what it has collected. -/
def kept {α : Type} (v : List α) : List α := if 25 ≤ v.length then v.take 2 else v

namespace AsyncLogging

def append (s : AsyncLogging) (str : Bytes) : Except LogFault AsyncLogging :=
  if !s.running then .error .notRunning
  else if kLargeBuffer ≤ str.length then .error .overflow
  else do
    let cur ← deref s.cur
    if str.length+1 ≤ cur.avail then
      let cur ← cur.append str
      pure { s with cur := some cur, appended := s.appended++str }
    else
      let fresh := s.prv.getD newBuffer
      let fresh ← (if str.length+1 ≤ fresh.avail then fresh.append str else pure fresh)
      pure { s with
        transBufVec := s.transBufVec++[s.cur]
        cur := some fresh
        prv := none
        appended := s.appended++str }

/-- The writer's turn under the mutex, and its test for an overload. -/
def collect (s : AsyncLogging) : AsyncLogging :=
  let collected := s.transBufVec++[s.cur]
  { s with
    cur := s.newBuf1
    newBuf1 := none
    prv := if s.prv.isNone then s.newBuf2 else s.prv
    newBuf2 := if s.prv.isNone then none else s.newBuf2
    transBufVec := s.needToWriteBufVec
    needToWriteBufVec := kept collected
    point := .writing (kept collected)
    rounds := s.rounds++[collected.map ptrBytes] }

def write (s : AsyncLogging) (p : BufferPtr) (todo : List BufferPtr) :
    Except LogFault AsyncLogging := do
  let b ← deref p
  pure { s with file := s.file++b.data, point := .writing todo }

/-- `if (!newBuf) { newBuf = move(v.back()); v.pop_back(); newBuf->reset(); }` -/
def refill (newBuf : BufferPtr) (v : List BufferPtr) :
    Except LogFault (BufferPtr×List BufferPtr) :=
  match newBuf,v.getLast? with
  | some b,_ => .ok (some b,v)
  | none,none => .error .emptyBack
  | none,some p => do
    let b ← deref p
    pure (some b.reset,v.dropLast)

def recycle (s : AsyncLogging) : Except LogFault AsyncLogging := do
  let v := if 2 < s.needToWriteBufVec.length then s.needToWriteBufVec.take 2
    else s.needToWriteBufVec
  let (newBuf1,v) ← refill s.newBuf1 v
  let (newBuf2,v) ← refill s.newBuf2 v
  pure { s with newBuf1 := newBuf1, newBuf2 := newBuf2, needToWriteBufVec := v, point := .head }

/-- Any thread takes its next step. The writer's wait may time out, so it never blocks. -/
inductive Step : AsyncLogging → AsyncLogging → Prop where
  | append {s t : AsyncLogging} {str : Bytes} (hlen : str.length+1 ≤ newBuffer.avail)
    (h : s.append str = .ok t) : Step s t
  | stop {s : AsyncLogging} : Step s { s with running := false }
  | turn {s : AsyncLogging} (hp : s.point = .head) (hr : s.running = true) :
    Step s { s with point := .locking }
  | collect {s : AsyncLogging} (hp : s.point = .locking) : Step s s.collect
  | write {s t : AsyncLogging} {p : BufferPtr} {todo : List BufferPtr}
    (hp : s.point = .writing (p::todo)) (h : s.write p todo = .ok t) : Step s t
  | recycle {s t : AsyncLogging} (hp : s.point = .writing []) (h : s.recycle = .ok t) : Step s t

def awaiting (s : AsyncLogging) : List BufferPtr :=
  match s.point with
  | .writing todo => todo
  | _ => s.needToWriteBufVec

def Clean (p : BufferPtr) : Prop := ∃ b, p = some b ∧ b.data = []

/-- What the writer has: outside a round two clean buffers and nothing to write; in a
round that found a spare buffer one to get back, in any other both. -/
inductive Writer (s : AsyncLogging) : Prop where
  | outside (hp : s.point = .head ∨ s.point = .locking) (h1 : Clean s.newBuf1)
    (h2 : Clean s.newBuf2) (hv : s.needToWriteBufVec = [])
  | spare (todo : List BufferPtr) (hp : s.point = .writing todo) (h1 : s.newBuf1 = none)
    (h2 : Clean s.newBuf2) (hv : s.needToWriteBufVec.length = 1)
  | bare (todo : List BufferPtr) (hp : s.point = .writing todo) (h1 : s.newBuf1 = none)
    (h2 : s.newBuf2 = none) (hv : 2 ≤ s.needToWriteBufVec.length)

structure Inv (s : AsyncLogging) : Prop where
  cur : s.cur.isSome
  prv : ∀ b, s.prv = some b → b.data = []
  /-- No spare buffer is exactly the sign of a full one. -/
  spare : s.prv = none ↔ s.transBufVec ≠ []
  trans : ∀ p∈s.transBufVec, p.isSome
  need : ∀ p∈s.needToWriteBufVec, p.isSome
  todo : ∀ p∈s.awaiting, p.isSome
  writer : Writer s
  appended : s.rounds.flatten.flatten++vecBytes s.transBufVec++ptrBytes s.cur = s.appended
  written : s.file++vecBytes s.awaiting = (s.rounds.flatMap kept).flatten

variable {s t : AsyncLogging}

theorem Writer.of_eq (h : Writer s) (hp : t.point = s.point) (h1 : t.newBuf1 = s.newBuf1)
    (h2 : t.newBuf2 = s.newBuf2) (hv : t.needToWriteBufVec = s.needToWriteBufVec) :
    Writer t := by
  cases h with
  | outside hp' h1' h2' hv' =>
    exact .outside (hp ▸ hp') (h1 ▸ h1') (h2 ▸ h2') (hv.trans hv')
  | spare todo hp' h1' h2' hv' =>
    exact .spare todo (hp.trans hp') (h1.trans h1') (h2 ▸ h2') (hv ▸ hv')
  | bare todo hp' h1' h2' hv' =>
    exact .bare todo (hp.trans hp') (h1.trans h1') (h2.trans h2') (hv ▸ hv')

theorem kept_map {α β : Type} (f : α → β) (v : List α) : kept (v.map f) = (kept v).map f := by
  unfold kept
  rw [List.length_map]
  split_ifs
  · exact List.map_take.symm
  · rfl

theorem mem_of_kept {α : Type} {v : List α} {x : α} (h : x∈kept v) : x∈v := by
  rw [kept] at h
  split_ifs at h
  · exact List.mem_of_mem_take h
  · exact h

theorem kept_length {α : Type} (v : List α) (h : 2 ≤ v.length) : 2 ≤ (kept v).length := by
  rw [kept]
  split_ifs
  · rw [List.length_take]
    omega
  · exact h

theorem flatten_ptrBytes (v : List BufferPtr) : (v.map ptrBytes).flatten = vecBytes v := rfl

theorem Inv.grown (hs : Inv s) {b d : Buffer} (hb : s.cur = some b) {str : Bytes}
    (hd : d.data = b.data++str) :
    Inv { s with cur := some d, appended := s.appended++str } := by
  have happ := hs.appended
  rw [hb] at happ
  refine { hs with cur := rfl, appended := ?_, writer := hs.writer.of_eq rfl rfl rfl rfl }
  rw [← happ]
  simp [ptrBytes,hd]

theorem Inv.rotated (hs : Inv s) {b d : Buffer} (hb : s.cur = some b) {str : Bytes}
    (hd : d.data = str) :
    Inv { s with transBufVec := s.transBufVec++[some b], cur := some d, prv := none,
                 appended := s.appended++str } := by
  have happ := hs.appended
  rw [hb] at happ
  refine { hs with cur := rfl, prv := ?_, spare := ?_, trans := ?_, appended := ?_,
                   writer := hs.writer.of_eq rfl rfl rfl rfl }
  · simp
  · simp
  · intro p hp
    cases List.mem_append.mp hp with
    | inl hp => exact hs.trans p hp
    | inr hp =>
      rw [List.mem_singleton.mp hp]
      rfl
  · rw [← happ]
    simp [ptrBytes,hd,vecBytes]

theorem Inv.fresh (hs : Inv s) : (s.prv.getD newBuffer).data = [] := by
  cases hp : s.prv with
  | none => rfl
  | some c => exact hs.prv c hp

theorem append_present {b d : Buffer} {str : Bytes} (hr : s.running = true)
    (hlen : str.length < kLargeBuffer) (hb : s.cur = some b) (hfit : str.length+1 ≤ b.avail)
    (hd : b.append str = .ok d) :
    s.append str = .ok { s with cur := some d, appended := s.appended++str } := by
  rw [append,if_neg (by simp [hr]),if_neg (Nat.not_le.mpr hlen),hb]
  simp [deref,hfit,hd,bind,Except.bind,pure,Except.pure]

theorem append_switch {b d : Buffer} {str : Bytes} (hr : s.running = true)
    (hlen : str.length < kLargeBuffer) (hb : s.cur = some b) (hfit : ¬ str.length+1 ≤ b.avail)
    (hd : (if str.length+1 ≤ (s.prv.getD newBuffer).avail then
      (s.prv.getD newBuffer).append str else .ok (s.prv.getD newBuffer)) = .ok d) :
    s.append str = .ok { s with
      transBufVec := s.transBufVec++[some b]
      cur := some d
      prv := none
      appended := s.appended++str } := by
  rw [append,if_neg (by simp [hr]),if_neg (Nat.not_le.mpr hlen),hb]
  simp only [deref,hfit,hd,bind,Except.bind,pure,Except.pure,if_false]

theorem append_ok (hs : Inv s) (hr : s.running = true) {str : Bytes}
    (hlen : str.length+1 ≤ newBuffer.avail) : ∃ t, s.append str = .ok t ∧ Inv t := by
  obtain ⟨b,hb⟩ := Option.isSome_iff_exists.mp hs.cur
  have hshort : str.length < kLargeBuffer := by
    simp only [AdlBuffer.avail,newBuffer,List.length_nil] at hlen
    omega
  by_cases hfit : str.length+1 ≤ b.avail
  · obtain ⟨d,hd,hdata⟩ := b.append_ok (by omega : str.length ≤ b.avail)
    exact ⟨_,append_present hr hshort hb hfit hd,hs.grown hb hdata⟩
  · have hfresh := hs.fresh
    have hroom : str.length+1 ≤ (s.prv.getD newBuffer).avail := by
      rw [AdlBuffer.avail]
      rwa [hfresh]
    obtain ⟨d,hd,hdata⟩ := (s.prv.getD newBuffer).append_ok
      (by omega : str.length ≤ (s.prv.getD newBuffer).avail)
    rw [hfresh,List.nil_append] at hdata
    exact ⟨_,append_switch hr hshort hb hfit (by rw [if_pos hroom,hd]),hs.rotated hb hdata⟩

theorem collect_inv (hs : Inv s) (hp : s.point = .locking) : Inv s.collect := by
  have houtside : Clean s.newBuf1 ∧ Clean s.newBuf2 ∧ s.needToWriteBufVec = [] := by
    cases hs.writer with
    | outside _ h1 h2 hv => exact ⟨h1,h2,hv⟩
    | spare todo hw _ _ _ => cases hp.symm.trans hw
    | bare todo hw _ _ _ => cases hp.symm.trans hw
  obtain ⟨⟨b1,h1,hd1⟩,⟨b2,h2,hd2⟩,hv⟩ := houtside
  have hall : ∀ p∈s.transBufVec++[s.cur], p.isSome := by
    intro p hp
    cases List.mem_append.mp hp with
    | inl hp => exact hs.trans p hp
    | inr hp =>
      rw [List.mem_singleton.mp hp]
      exact hs.cur
  have hkept : ∀ p∈kept (s.transBufVec++[s.cur]), p.isSome := fun p hp => hall p (mem_of_kept hp)
  have hwritten := hs.written
  simp only [awaiting,hp,hv] at hwritten
  refine ⟨?_,?_,?_,?_,hkept,hkept,?_,?_,?_⟩
  · simp [collect,h1]
  · intro b hb
    cases hn : s.prv with
    | none =>
      have he : b2 = b := by simpa [collect,hn,h2] using hb
      rwa [← he]
    | some c =>
      have he : c = b := by simpa [collect,hn] using hb
      rw [← he]
      exact hs.prv c hn
  · cases hn : s.prv with
    | none => simp [collect,hn,h2,hv]
    | some c => simp [collect,hn,hv]
  · simp [collect,hv]
  · cases hn : s.prv with
    | none =>
      have hne := List.length_pos_iff.mpr (hs.spare.mp hn)
      refine .bare _ rfl rfl (by simp [collect,hn]) (kept_length _ ?_)
      rw [List.length_append,List.length_singleton]
      omega
    | some c =>
      have hnil : s.transBufVec = [] := by
        by_contra hne
        exact absurd (hs.spare.mpr hne) (by simp [hn])
      refine .spare _ rfl rfl ⟨b2,by simp [collect,hn,h2],hd2⟩ ?_
      simp [collect,hnil,kept]
  · refine Eq.trans ?_ hs.appended
    simp [collect,flatten_ptrBytes,h1,hd1,hv,ptrBytes,vecBytes]
  · simp only [awaiting,collect,List.flatMap_append,List.flatMap_singleton,List.flatten_append,
      kept_map,flatten_ptrBytes]
    rw [← hwritten]
    simp [vecBytes]

theorem write_ok (hs : Inv s) {p : BufferPtr} {todo : List BufferPtr}
    (hp : s.point = .writing (p::todo)) : ∃ t, s.write p todo = .ok t ∧ Inv t := by
  have htodo := hs.todo
  have hwritten := hs.written
  simp only [awaiting,hp,List.forall_mem_cons] at htodo hwritten
  obtain ⟨b,hb⟩ := Option.isSome_iff_exists.mp htodo.1
  subst hb
  refine ⟨{ s with file := s.file++b.data, point := .writing todo },rfl,
    { hs with todo := htodo.2, writer := ?_, written := ?_ }⟩
  · cases hs.writer with
    | outside hw _ _ _ => simp [hp] at hw
    | spare _ _ h1 h2 hv => exact .spare todo rfl h1 h2 hv
    | bare _ _ h1 h2 hv => exact .bare todo rfl h1 h2 hv
  · rw [← hwritten]
    simp [awaiting,vecBytes,ptrBytes]

theorem two_left {v : List BufferPtr} (hall : ∀ p∈v, p.isSome) (h : 2 ≤ v.length) :
    ∃ b1 b2, (if 2 < v.length then v.take 2 else v) = [some b1,some b2] := by
  obtain ⟨p,w,hv⟩ := List.exists_cons_of_length_pos (by omega : 0 < v.length)
  subst hv
  obtain ⟨q,w,hw⟩ := List.exists_cons_of_length_pos (Nat.le_of_succ_le_succ h : 0 < w.length)
  subst hw
  obtain ⟨b1,hb1⟩ := Option.isSome_iff_exists.mp (hall p (by simp))
  obtain ⟨b2,hb2⟩ := Option.isSome_iff_exists.mp (hall q (by simp))
  subst hb1 hb2
  refine ⟨b1,b2,?_⟩
  cases w with
  | nil => rfl
  | cons r w => simp

theorem recycle_ok (hs : Inv s) (hp : s.point = .writing []) :
    ∃ t, s.recycle = .ok t ∧ Inv t := by
  have hwritten := hs.written
  simp only [awaiting,hp] at hwritten
  have done {b1 b2 : Buffer} (h1 : b1.data = []) (h2 : b2.data = []) :
      Inv { s with newBuf1 := some b1, newBuf2 := some b2, needToWriteBufVec := [],
                   point := .head } :=
    { hs with
      need := by simp
      todo := by simp [awaiting]
      writer := .outside (.inl rfl) ⟨b1,rfl,h1⟩ ⟨b2,rfl,h2⟩ rfl
      written := hwritten }
  cases hs.writer with
  | outside hw _ _ _ => simp [hp] at hw
  | spare _ _ h1 h2 hv =>
    obtain ⟨b2,h2,hd2⟩ := h2
    obtain ⟨x,hx⟩ := List.length_eq_one_iff.mp hv
    obtain ⟨b,hb⟩ := Option.isSome_iff_exists.mp (hs.need x (by simp [hx]))
    subst hb
    refine ⟨_,?_,@done b.reset b2 rfl hd2⟩
    simp only [recycle,h1,h2,hx,List.length_singleton]
    rfl
  | bare _ _ h1 h2 hv =>
    obtain ⟨b1,b2,hcut⟩ := two_left hs.need hv
    refine ⟨_,?_,@done b2.reset b1.reset rfl rfl⟩
    simp only [recycle,h1,h2,hcut]
    rfl

theorem step_inv (h : Step s t) (hs : Inv s) : Inv t := by
  cases h with
  | @append _ str hlen h =>
    cases hr : s.running with
    | false => simp [append,hr] at h
    | true =>
      obtain ⟨u,hu,hi⟩ := append_ok hs hr hlen
      rwa [← Except.ok.inj (h.symm.trans hu)] at hi
  | stop => exact { hs with writer := hs.writer.of_eq rfl rfl rfl rfl }
  | turn hp hr =>
    have htodo := hs.todo
    have hwritten := hs.written
    simp only [awaiting,hp] at htodo hwritten
    refine { hs with todo := htodo, writer := ?_, written := hwritten }
    cases hs.writer with
    | outside _ h1 h2 hv => exact .outside (.inr rfl) h1 h2 hv
    | spare _ hw _ _ _ => cases hp.symm.trans hw
    | bare _ hw _ _ _ => cases hp.symm.trans hw
  | collect hp => exact collect_inv hs hp
  | write hp h =>
    obtain ⟨u,hu,hi⟩ := write_ok hs hp
    rwa [← Except.ok.inj (h.symm.trans hu)] at hi
  | recycle hp h =>
    obtain ⟨u,hu,hi⟩ := recycle_ok hs hp
    rwa [← Except.ok.inj (h.symm.trans hu)] at hi

theorem create_inv : Inv {} := by
  refine ⟨rfl,?_,by simp,by simp,by simp,by simp [awaiting],?_,rfl,rfl⟩
  · intro b hb
    rw [← Option.some.inj hb]
    rfl
  · exact .outside (.inl rfl) ⟨_,rfl,rfl⟩ ⟨_,rfl,rfl⟩ rfl

theorem Inv.nothing_dropped (hs : Inv s) (hsmall : ∀ r∈s.rounds, r.length < 25) :
    s.file++vecBytes s.awaiting++vecBytes s.transBufVec++ptrBytes s.cur = s.appended := by
  have hkept : ∀ r∈s.rounds, kept r = id r := fun r hr => if_neg (Nat.not_le.mpr (hsmall r hr))
  rw [hs.written,List.flatMap_def,List.map_congr_left hkept,List.map_id]
  exact hs.appended

/-- Over every run of the pipeline, appending never meets a null pointer, a round begins
with its two buffers and an empty vector and can be finished, and the bytes in the file,
in the vectors and in the present buffer are the messages in their order, but for what a
round of 25 buffers or more drops behind its first two. -/
theorem log_pipeline (h : Relation.ReflTransGen Step {} s) :
    s.cur.isSome ∧
    (s.running = true → ∀ str : Bytes, str.length+1 ≤ newBuffer.avail →
      ∃ t, s.append str = .ok t) ∧
    (s.point = .head ∨ s.point = .locking →
      s.newBuf1.isSome ∧ s.newBuf2.isSome ∧ s.needToWriteBufVec = []) ∧
    (∀ p todo, s.point = .writing (p::todo) → ∃ t, s.write p todo = .ok t) ∧
    (s.point = .writing [] → ∃ t, s.recycle = .ok t) ∧
    s.rounds.flatten.flatten++vecBytes s.transBufVec++ptrBytes s.cur = s.appended ∧
    s.file++vecBytes s.awaiting = (s.rounds.flatMap kept).flatten ∧
    ((∀ r∈s.rounds, r.length < 25) →
      s.file++vecBytes s.awaiting++vecBytes s.transBufVec++ptrBytes s.cur = s.appended) := by
  have hs := invariant_of_run (fun _ _ hi hst => step_inv hst hi) h create_inv
  refine ⟨hs.cur,?_,?_,?_,?_,hs.appended,hs.written,?_⟩
  · intro hr str hlen
    obtain ⟨t,ht,_⟩ := append_ok hs hr hlen
    exact ⟨t,ht⟩
  · intro hp
    cases hs.writer with
    | outside _ h1 h2 hv =>
      obtain ⟨b1,h1,_⟩ := h1
      obtain ⟨b2,h2,_⟩ := h2
      exact ⟨by simp [h1],by simp [h2],hv⟩
    | spare _ hw _ _ _ => simp [hw] at hp
    | bare _ hw _ _ _ => simp [hw] at hp
  · intro p todo hp
    obtain ⟨t,ht,_⟩ := write_ok hs hp
    exact ⟨t,ht⟩
  · intro hp
    obtain ⟨t,ht,_⟩ := recycle_ok hs hp
    exact ⟨t,ht⟩
  · exact hs.nothing_dropped

def oneRound : AsyncLogging where
  cur := some ⟨[66],by decide⟩
  file := [65]
  rounds := [[[65]]]
  appended := [65,66]

theorem oneRound_reached : Relation.ReflTransGen Step {} oneRound :=
  .head (@Step.append _ _ [65] (by decide) rfl) <| .head (.turn rfl rfl) <|
  .head (.collect rfl) <| .head (.write rfl rfl) <| .head (.recycle rfl rfl) <|
  .head (@Step.append _ _ [66] (by decide) rfl) .refl

theorem log_pipeline_oneRound :
    oneRound.cur.isSome ∧
    (oneRound.running = true → ∀ str : Bytes, str.length+1 ≤ newBuffer.avail →
      ∃ t, oneRound.append str = .ok t) ∧
    (oneRound.point = .head ∨ oneRound.point = .locking →
      oneRound.newBuf1.isSome ∧ oneRound.newBuf2.isSome ∧ oneRound.needToWriteBufVec = []) ∧
    (∀ p todo, oneRound.point = .writing (p::todo) → ∃ t, oneRound.write p todo = .ok t) ∧
    (oneRound.point = .writing [] → ∃ t, oneRound.recycle = .ok t) ∧
    oneRound.rounds.flatten.flatten++vecBytes oneRound.transBufVec++ptrBytes oneRound.cur =
      oneRound.appended ∧
    oneRound.file++vecBytes oneRound.awaiting = (oneRound.rounds.flatMap kept).flatten ∧
    ((∀ r∈oneRound.rounds, r.length < 25) →
      oneRound.file++vecBytes oneRound.awaiting++vecBytes oneRound.transBufVec++
        ptrBytes oneRound.cur = oneRound.appended) :=
  log_pipeline oneRound_reached

end AsyncLogging
end AdlServer.Log
