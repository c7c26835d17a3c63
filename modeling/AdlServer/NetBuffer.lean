import AdlServer.Cpp

/-! The growing byte buffer of `net/netBuffer`: its indices, its compaction and its
doubling, and the read loop that fills it. `realloc` is assumed to succeed. -/
namespace AdlServer.Net
open Program Memory Cpp

/-- `size` is what `malloc` or `realloc` last gave; `alloc` is what the code
believes. -/
structure NetBuffer where
  buf : Mem
  size : Int
  r : Int := 0
  w : Int := 0
  alloc : Int

/-- What one `read` or `pread` answers; no bytes is the end of the file. -/
inductive ReadAnswer where
  | bytes (s : Bytes)
  | fail (e : Errno)
  deriving DecidableEq

/-- What `readFd` returns, and what it leaves behind its two pointers. -/
structure ReadReturn where
  n : Int
  savedErrno : Option Errno := none
  writeClosed : Bool := false
  deriving DecidableEq

namespace NetBuffer

def create (initSize : Int) (memory : Mem) : NetBuffer where
  buf := memory
  size := initSize
  alloc := initSize

def readable (b : NetBuffer) : Int := b.w-b.r

def writeable (b : NetBuffer) : Int := b.alloc-b.w

def checkCanMoveToLeft (b : NetBuffer) : Bool := 0 < b.r

/-- `while (writeable() <= len) alloc_ *= 2;` and `realloc`, which keeps the
bytes and leaves the new ones as they happen to be. -/
def expansion (b : NetBuffer) (len : Int) : Prog Fault NetBuffer := do
  let alloc ← Prog.loop (fun alloc => pure <|
    if alloc-b.w ≤ len then .again (wrapInt (alloc*2)) else .leave alloc) b.alloc
  pure { b with alloc := alloc, size := alloc }

/-- `memmove(buf_, buf_ + r_, w_ - r_)`, when there is room on the left. -/
def moveToLeft (b : NetBuffer) : Prog Fault NetBuffer :=
  if b.checkCanMoveToLeft then do
    inside (0 ≤ b.w-b.r ∧ b.w ≤ b.size)
    pure { b with buf := memmove b.buf 0 b.r (b.w-b.r), w := b.w-b.r, r := 0 }
  else pure b

def checkCapcity (b : NetBuffer) (len : Int) : Prog Fault NetBuffer :=
  if b.writeable ≤ len then do
    let b ← b.moveToLeft
    if b.writeable ≤ len then b.expansion len else pure b
  else pure b

def store (b : NetBuffer) : Bytes → Prog Fault NetBuffer
  | [] => pure b
  | c::s => do
    inside (0 ≤ b.w ∧ b.w < b.size)
    store { b with buf := poke b.buf b.w c, w := b.w+1 } s

def append (b : NetBuffer) (s : Bytes) : Prog Fault NetBuffer := do
  let b ← b.checkCapcity s.length
  b.store s

def retrieve (b : NetBuffer) (len : Int) : Prog Fault NetBuffer := do
  check .retrieve (len ≤ b.readable)
  pure { b with r := b.r+len }

def retrieveAsString (b : NetBuffer) (len : Nat) : Prog Fault (Bytes×NetBuffer) := do
  check .retrieveAsString (len ≤ b.readable)
  let result := slice b.buf b.r (b.r+len)
  let b ← b.retrieve len
  pure (result,b)

def retrieveAll (b : NetBuffer) : NetBuffer := { b with r := 0, w := 0 }

def retrieveAllAsString (b : NetBuffer) : Prog Fault (Bytes×NetBuffer) :=
  b.retrieveAsString b.readable.toNat

def reset (b : NetBuffer) : NetBuffer := { b with r := 0, w := 0 }

/-- `if (writeable() <= 0.2 * alloc_) checkCapcity(4096);`, exactly so on `int`s. -/
def checkSmall (b : NetBuffer) : Prog Fault NetBuffer :=
  if 5*b.writeable ≤ b.alloc then b.checkCapcity 4096 else pure b

section
variable {σ : Type}

/-- What the loop of `readFd` carries: the descriptor's own state, the buffer, and
the two counts. -/
structure ReadState (σ : Type) where
  source : σ
  buffer : NetBuffer
  getSize : Int := 0
  allSize : Int := 0

/-- One turn of `readFd`. `read` is asked for a count, at an offset for `pread` and
at the descriptor's position without one. -/
def readTurn (read : σ → Int → Option Int → σ×ReadAnswer) (sendFileOffset : Int)
    (s : ReadState σ) :
    Prog Fault (Turn (ReadState σ) (ReadReturn×σ×NetBuffer)) :=
  let offset := if 0 < sendFileOffset then some (sendFileOffset+s.getSize) else none
  let (source,answer) := read s.source s.buffer.writeable offset
  match answer with
  | .fail .EINTR => pure (.again { s with source := source, getSize := -1 })
  | .fail .EAGAIN => pure (.leave ({ n := s.allSize },source,s.buffer))
  | .fail e => pure (.leave ({ n := -1, savedErrno := some e },source,s.buffer))
  | .bytes [] => pure (.leave ({ n := 0, writeClosed := true },source,s.buffer))
  | .bytes got => do
    let b ← s.buffer.store got
    let b ← b.checkSmall
    pure (.again {
      source := source, buffer := b, getSize := got.length, allSize := s.allSize+got.length })

def readFd (read : σ → Int → Option Int → σ×ReadAnswer) (source : σ) (b : NetBuffer)
    (sendFileOffset : Int) : Prog Fault (ReadReturn×σ×NetBuffer) :=
  Prog.loop (readTurn read sendFileOffset) { source := source, buffer := b }

end

/-- A socket: what `read` will answer, and what it has been asked for and has
delivered. When the answers are used up nothing more has arrived. -/
structure Socket where
  answers : List ReadAnswer
  asked : List Int := []
  received : Bytes := []

/-- The kernel never delivers more than was asked for. -/
def Socket.read (s : Socket) (count : Int) (_offset : Option Int) : Socket×ReadAnswer :=
  let s' := { s with answers := s.answers.tail, asked := s.asked++[count] }
  match s.answers with
  | [] => (s',.fail .EAGAIN)
  | .fail e::_ => (s',.fail e)
  | .bytes c::_ =>
    ({ s' with received := s.received++c.take count.toNat },.bytes (c.take count.toNat))

/-! What the operations do to the unread bytes. -/

def contents (b : NetBuffer) : Bytes := slice b.buf b.r b.w

structure InBounds (b : NetBuffer) : Prop where
  r_nonneg : 0 ≤ b.r
  r_le : b.r ≤ b.w
  w_le : b.w ≤ b.alloc
  alloc_pos : 0 < b.alloc
  owned : b.alloc = b.size

/-- Between operations a byte is always free. -/
structure Wf (b : NetBuffer) : Prop extends InBounds b where
  w_lt : b.w < b.alloc

structure Holds (b : NetBuffer) (s : Bytes) : Prop where
  wf : b.Wf
  contents_eq : b.contents = s

variable {b : NetBuffer}

theorem InBounds.length_contents (h : b.InBounds) : (b.contents.length:Int) = b.readable := by
  have := h.r_le
  rw [contents,readable]
  rw [length_slice]
  omega

theorem Holds.readable {s : Bytes} (h : b.Holds s) : b.readable = s.length := by
  rw [← h.contents_eq,h.wf.length_contents]

theorem create_holds {initSize : Int} (h : 1 ≤ initSize) (memory : Mem) :
    (create initSize memory).Holds [] := by
  refine ⟨⟨⟨Int.le_refl 0,Int.le_refl 0,?_,?_,rfl⟩,?_⟩,slice_self _ _⟩
  · simp only [create]
    omega
  · simp only [create]
    omega
  · simp only [create]
    omega

theorem Wf.writeable_pos (h : b.Wf) : 1 ≤ b.writeable := by
  have := h.w_lt
  rw [writeable]
  omega

theorem doubling_ensures (w len alloc : Int) :
    Prog.Ensures (Prog.loop (fun alloc => (pure <|
      if alloc-w ≤ len then .again (wrapInt (alloc*2)) else .leave alloc :
        Prog Fault (Turn Int Int))) alloc) (fun alloc => len < alloc-w) fun _ => False := by
  refine Prog.ensures_loop (fun _ => True) ?_ _ trivial
  intro alloc _
  apply Prog.ensures_pure
  by_cases hle : alloc-w ≤ len
  · simp [hle,Prog.Kept]
  · rw [if_neg hle]
    exact Int.not_le.mp hle

theorem expansion_ensures {len : Int} (h : b.InBounds) (hlen : 0 ≤ len) :
    Prog.Ensures (b.expansion len)
      (fun b' => b'.Holds b.contents ∧ len < b'.writeable) fun _ => False := by
  have hr := h.r_nonneg
  have hw := h.r_le
  rw [expansion]
  refine (doubling_ensures b.w len b.alloc).bind fun alloc ha =>
    Prog.ensures_pure ⟨⟨⟨⟨hr,hw,?_,?_,rfl⟩,?_⟩,rfl⟩,ha⟩
  · dsimp only
    omega
  · dsimp only
    omega
  · dsimp only
    omega

theorem expansion_halts {len : Int} (h : b.InBounds) (hsum : b.w+len < 2^30) :
    (b.expansion len).Halts := by
  refine Prog.halts_bind ?_ fun alloc _ => Prog.halts_pure _
  refine Prog.loop_halts (fun alloc => 0 < alloc) (fun alloc => (b.w+len+1-alloc).toNat) ?_ ?_
    _ h.alloc_pos
  · exact fun alloc _ => Prog.halts_pure _
  · intro alloc alloc' hpos ht
    rw [Prog.returns_pure] at ht
    split_ifs at ht with hle
    cases ht
    rw [wrapInt_of_range (by omega) (by omega)]
    omega

theorem moveToLeft_returns (h : b.InBounds) :
    ∃ b', b.moveToLeft.Returns b' ∧ b'.InBounds ∧ b'.contents = b.contents ∧ b'.r = 0 := by
  have hr := h.r_nonneg
  have hw := h.r_le
  have ha := h.w_le
  by_cases hm : 0 < b.r
  · refine ⟨{ b with buf := memmove b.buf 0 b.r (b.w-b.r), w := b.w-b.r, r := 0 },
      ?_,⟨Int.le_refl 0,?_,?_,h.alloc_pos,h.owned⟩,?_,rfl⟩
    · have hin : 0 ≤ b.w-b.r ∧ b.w ≤ b.size := by
        have := h.owned
        omega
      simp only [moveToLeft,checkCanMoveToLeft,hm,decide_true,if_true,inside_pos hin,
        Prog.returns_pure_bind,Prog.returns_pure]
    · dsimp only
      omega
    · dsimp only
      omega
    · have hs := slice_memmove b.buf 0 b.r (b.w-b.r)
      have hw : b.r+(b.w-b.r) = b.w := by omega
      simp only [Int.zero_add,hw] at hs
      exact hs
  · refine ⟨b,?_,h,rfl,by omega⟩
    simp [moveToLeft,checkCanMoveToLeft,hm]

theorem checkCapcity_ensures {len : Int} (h : b.InBounds) (hlen : 0 ≤ len) :
    Prog.Ensures (b.checkCapcity len)
      (fun b' => b'.Holds b.contents ∧ len < b'.writeable) fun _ => False := by
  have room {c : NetBuffer} (hc : c.InBounds) (he : c.contents = b.contents)
      (hfit : ¬ c.writeable ≤ len) : c.Holds b.contents ∧ len < c.writeable := by
    rw [writeable] at hfit ⊢
    exact ⟨⟨⟨hc,by omega⟩,he⟩,by omega⟩
  rw [checkCapcity]
  by_cases hfit : b.writeable ≤ len
  · obtain ⟨c,hc,hin,he,-⟩ := moveToLeft_returns h
    rw [if_pos hfit]
    intro o ho
    rw [hc.ends_bind] at ho
    by_cases hfit' : c.writeable ≤ len
    · rw [if_pos hfit'] at ho
      rw [← he]
      exact expansion_ensures hin hlen o ho
    · rw [if_neg hfit'] at ho
      have hpure : Prog.Ensures (pure c : Prog Fault NetBuffer)
          (fun b' => b'.Holds b.contents ∧ len < b'.writeable) fun _ => False :=
        Prog.ensures_pure (room hin he hfit')
      exact hpure o ho
  · rw [if_neg hfit]
    exact Prog.ensures_pure (room h rfl hfit)

theorem checkCapcity_halts {len : Int} (h : b.InBounds) (hsum : b.readable+len < 2^30) :
    (b.checkCapcity len).Halts := by
  rw [checkCapcity]
  by_cases hfit : b.writeable ≤ len
  · obtain ⟨c,hc,hin,he,hr⟩ := moveToLeft_returns h
    have hcw : c.w+len < 2^30 := by
      have h1 := hin.length_contents
      have h2 := h.length_contents
      rw [he,h2] at h1
      unfold readable at h1 hsum
      omega
    rw [if_pos hfit]
    refine Prog.halts_bind hc.halts fun c' hc' => ?_
    rw [hc'.unique hc]
    by_cases hfit' : c.writeable ≤ len
    · rw [if_pos hfit']
      exact expansion_halts hin hcw
    · rw [if_neg hfit']
      exact Prog.halts_pure _
  · rw [if_neg hfit]
    exact Prog.halts_pure _

theorem checkSmall_ensures (h : b.InBounds) :
    Prog.Ensures b.checkSmall (fun b' => b'.Holds b.contents) fun _ => False := by
  rw [checkSmall]
  by_cases hsmall : 5*b.writeable ≤ b.alloc
  · rw [if_pos hsmall]
    exact (checkCapcity_ensures h (by omega)).mono (fun _ hb => hb.1) fun _ => id
  · rw [if_neg hsmall]
    refine Prog.ensures_pure ⟨⟨h,?_⟩,rfl⟩
    have := h.alloc_pos
    rw [writeable] at hsmall
    omega

theorem checkSmall_halts (h : b.InBounds) (hsum : b.readable+4096 < 2^30) :
    b.checkSmall.Halts := by
  rw [checkSmall]
  by_cases hsmall : 5*b.writeable ≤ b.alloc
  · rw [if_pos hsmall]
    exact checkCapcity_halts h hsum
  · rw [if_neg hsmall]
    exact Prog.halts_pure _

theorem store_returns {s : Bytes} (h : b.InBounds) (hfit : s.length ≤ b.writeable) :
    ∃ b', (b.store s).Returns b' ∧ b'.InBounds ∧ b'.contents = b.contents++s ∧
      b'.writeable = b.writeable-s.length := by
  induction s generalizing b with
  | nil => exact ⟨b,Prog.returns_self _,h,by simp,by simp⟩
  | cons c s ih =>
    have hr := h.r_nonneg
    have hw := h.r_le
    have ho := h.owned
    rw [writeable] at hfit
    simp only [List.length_cons] at hfit
    have hin : 0 ≤ b.w ∧ b.w < b.size := by omega
    obtain ⟨b',hb',hin',hc,hroom⟩ := @ih { b with buf := poke b.buf b.w c, w := b.w+1 }
      ⟨hr,by dsimp only; omega,by dsimp only; omega,h.alloc_pos,ho⟩
      (by unfold writeable; dsimp only; omega)
    refine ⟨b',?_,hin',?_,?_⟩
    · rw [store]
      rw [inside_pos hin,Prog.returns_pure_bind]
      exact hb'
    · rw [hc]
      unfold contents
      dsimp only
      rw [slice_poke b.buf c hw]
      simp
    · rw [hroom]
      unfold writeable
      simp only [List.length_cons]
      omega

theorem append_ensures (h : b.Wf) (s : Bytes) :
    Prog.Ensures (b.append s) (fun b' => b'.Holds (b.contents++s)) fun _ => False := by
  refine (checkCapcity_ensures h.toInBounds (by omega)).bind ?_
  intro c ⟨hc,hroom⟩ o ho
  obtain ⟨b',hb',hin,he,hw⟩ := store_returns (s := s) hc.wf.toInBounds (by omega)
  rw [hb'.ends_iff] at ho
  subst ho
  refine ⟨⟨hin,?_⟩,by rw [he,hc.contents_eq]⟩
  unfold writeable at hw hroom
  omega

theorem append_returns (h : b.Wf) {s : Bytes} (hsum : b.readable+s.length < 2^30) :
    ∃ b', (b.append s).Returns b' ∧ b'.Holds (b.contents++s) := by
  refine (append_ensures h s).returns (Prog.halts_bind (checkCapcity_halts h.toInBounds hsum) ?_)
  intro c hc
  obtain ⟨hh,hroom⟩ := (checkCapcity_ensures h.toInBounds (by omega)).result hc
  obtain ⟨b',hb',-⟩ := store_returns (s := s) hh.wf.toInBounds (by omega)
  exact hb'.halts

theorem retrieve_returns (h : b.Wf) {len : Int} (h0 : 0 ≤ len) (hle : len ≤ b.readable) :
    ∃ b', (b.retrieve len).Returns b' ∧ b'.Holds (b.contents.drop len.toNat) := by
  have hr := h.r_nonneg
  have hle' : b.r+len ≤ b.w := by
    rw [readable] at hle
    omega
  refine ⟨{ b with r := b.r+len },?_,⟨⟨⟨?_,?_,h.w_le,h.alloc_pos,h.owned⟩,h.w_lt⟩,?_⟩⟩
  · rw [retrieve]
    rw [check_pos .retrieve hle]
    simp
  · dsimp only
    omega
  · dsimp only
    omega
  · have hd := slice_drop b.buf (by omega : b.r ≤ b.r+len) hle'
    have hlen : b.r+len-b.r = len := by omega
    rw [hlen] at hd
    exact hd.symm

theorem retrieve_ensures (h : b.Wf) {len : Int} (h0 : 0 ≤ len) :
    Prog.Ensures (b.retrieve len) (fun b' => b'.Holds (b.contents.drop len.toNat))
      (· = .assertion .retrieve) := by
  by_cases hle : len ≤ b.readable
  · obtain ⟨b',hb',hh⟩ := retrieve_returns h h0 hle
    intro o ho
    rw [(hb'.ends_iff o).mp ho]
    exact hh
  · refine Prog.Ensures.bind (Q := fun _ => len ≤ b.readable) ?_ fun _ h => absurd h hle
    exact ensures_check .retrieve fun _ => rfl

theorem retrieveAsString_returns (h : b.Wf) {len : Nat} (hle : len ≤ b.readable) :
    ∃ b', (b.retrieveAsString len).Returns (b.contents.take len,b') ∧
      b'.Holds (b.contents.drop len) := by
  obtain ⟨b',hb',hh⟩ := retrieve_returns h (by omega) hle
  refine ⟨b',?_,hh⟩
  have ht := slice_take b.buf (by omega : b.r ≤ b.r+len)
    (by unfold readable at hle; omega : b.r+len ≤ b.w)
  have hlen : (b.r+(len:Int)-b.r).toNat = len := by omega
  rw [hlen] at ht
  rw [retrieveAsString]
  rw [check_pos .retrieveAsString hle,Prog.returns_pure_bind]
  refine hb'.bind ?_
  rw [Prog.returns_pure,contents,ht]

theorem retrieveAll_holds (h : b.Wf) : b.retrieveAll.Holds [] := by
  have := h.alloc_pos
  exact ⟨⟨⟨Int.le_refl 0,Int.le_refl 0,Int.le_of_lt this,this,h.owned⟩,this⟩,slice_self _ _⟩

section
variable {σ : Type} {read : σ → Int → Option Int → σ×ReadAnswer} {I : σ → Bytes → Prop}

/-- What a descriptor has delivered so far, call by call, when every call asks for
at least one byte. -/
def Delivers (read : σ → Int → Option Int → σ×ReadAnswer) (I : σ → Bytes → Prop) : Prop :=
  ∀ s got n offset, 1 ≤ n → I s got → match read s n offset with
    | (s',.bytes c) => c.length ≤ n ∧ I s' (got++c)
    | (s',.fail _) => I s' got

def Answered (ret : ReadReturn) (got : Bytes) : Prop :=
  ret = { n := got.length } ∨ ret = { n := 0, writeClosed := true } ∨
    ∃ e, ret = { n := -1, savedErrno := some e }

def Appended (b : NetBuffer) (I : σ → Bytes → Prop) (r : ReadReturn×σ×NetBuffer) : Prop :=
  ∃ got, Answered r.1 got ∧ I r.2.1 got ∧ r.2.2.Holds (b.contents++got)

def Filling (b : NetBuffer) (I : σ → Bytes → Prop) (s : ReadState σ) : Prop :=
  ∃ got : Bytes, s.allSize = got.length ∧ I s.source got ∧ s.buffer.Holds (b.contents++got)

theorem readTurn_ensures (hread : Delivers read I) (offset : Int) {s : ReadState σ}
    (h : Filling b I s) :
    Prog.Ensures (readTurn read offset s) (Prog.Kept (Filling b I) (Appended b I))
      fun _ => False := by
  obtain ⟨got,hall,hI,hh⟩ := h
  have hask := hread s.source got s.buffer.writeable
    (if 0 < offset then some (offset+s.getSize) else none) hh.wf.writeable_pos hI
  rw [readTurn]
  dsimp only
  generalize read s.source s.buffer.writeable
    (if 0 < offset then some (offset+s.getSize) else none) = answer at hask ⊢
  obtain ⟨source,answer⟩ := answer
  cases answer with
  | fail e =>
    dsimp only at hask
    have other : Prog.Ensures (pure (.leave ({ n := -1, savedErrno := some e },source,s.buffer)) :
        Prog Fault (Turn (ReadState σ) (ReadReturn×σ×NetBuffer)))
        (Prog.Kept (Filling b I) (Appended b I)) fun _ => False :=
      Prog.ensures_pure ⟨got,.inr (.inr ⟨e,rfl⟩),hask,hh⟩
    cases e with
    | EINTR => exact Prog.ensures_pure ⟨got,hall,hask,hh⟩
    | EAGAIN => exact Prog.ensures_pure ⟨got,.inl (by rw [hall]),hask,hh⟩
    | EPIPE => exact other
    | ECONNRESET => exact other
    | EBADF => exact other
    | other n => exact other
  | bytes c =>
    obtain ⟨hfit,hI'⟩ := hask
    cases c with
    | nil =>
      rw [List.append_nil] at hI'
      exact Prog.ensures_pure ⟨got,.inr (.inl rfl),hI',hh⟩
    | cons a c =>
      obtain ⟨d,hd,hin,he,hroom⟩ := store_returns hh.wf.toInBounds hfit
      rw [hh.contents_eq,List.append_assoc] at he
      intro o ho
      rw [hd.ends_bind] at ho
      refine (checkSmall_ensures hin).bind ?_ o ho
      intro d' hd'
      rw [he] at hd'
      refine Prog.ensures_pure ⟨got++a::c,?_,hI',hd'⟩
      simp only [hall,List.length_append]
      omega

theorem readFd_ensures (hread : Delivers read I) (offset : Int) {source : σ} (h : b.Wf)
    (hI : I source []) :
    Prog.Ensures (readFd read source b offset) (Appended b I) fun _ => False :=
  Prog.ensures_loop (Filling b I) (fun _ hs => readTurn_ensures hread offset hs) _
    ⟨[],rfl,hI,h,by simp⟩

end

end NetBuffer
end AdlServer.Net
