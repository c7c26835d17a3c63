import AdlServer.Runs
import AdlServer.TcpConnection

/-! `tcp_echo_service` of `coro/co_echo_service`, from one suspension to the next. What an
`io_work` is given to receive into or to send from is the span `buf` into `storage`. -/
namespace AdlServer.Coro
open Memory Runs Cpp
open Net (sizeT sizeT_of_range)

inductive Point where
  | RecvData | SendData | returned
  deriving DecidableEq, Repr

structure Span where
  data : Int
  size : Nat
  deriving DecidableEq, Repr

def reserved : Nat := 3900

def wholeStorage : Span := ⟨0,reserved⟩

/-- The frame of the coroutine while it waits to be resumed. -/
structure EchoService where
  point : Point := .RecvData
  rsz : Int := 0
  ssz : Int := 0
  buf : Span := wholeStorage
  storage : Mem := fun _ => 0

namespace EchoService

/-- What `send` is offered. -/
def offered (s : EchoService) : Bytes := slice s.storage s.buf.data (s.buf.data+s.buf.size)

def resumeRecv (s : EchoService) (storage : Mem) (r : Int) : EchoService :=
  let s := { s with storage := storage, rsz := wrapInt r }
  if s.rsz = 0 then { s with point := .returned }
  else { s with buf := ⟨0,sizeT s.rsz⟩, point := .SendData }

def resumeSend (s : EchoService) (r : Int) (errno : Option Errno) : EchoService :=
  let s := { s with ssz := wrapInt r }
  if s.ssz = -1 ∧ errno = some .EPIPE then { s with point := .returned }
  else if s.ssz = s.rsz then { s with buf := wholeStorage, point := .RecvData }
  else
    let s := { s with rsz := wrapInt (s.rsz-s.ssz) }
    { s with buf := ⟨s.ssz,sizeT s.rsz⟩, point := .SendData }

end EchoService

/-- The service with its peer: the block received last, the results of its sends so far, and
all bytes received and accepted. -/
structure Echo where
  code : EchoService := {}
  block : Bytes := []
  sent : List Nat := []
  received : Bytes := []
  accepted : Bytes := []

namespace Echo

inductive Action where
  | recv (block : Bytes)
  | eof
  | send (n : Nat)

/-- A block comes in, the peer closes, or some of the bytes offered are accepted. -/
inductive Step : Echo → Action → Echo → Prop where
  | recv {s : Echo} {block : Bytes} (hp : s.code.point = .RecvData) (h0 : 1 ≤ block.length)
    (hlen : block.length ≤ s.code.buf.size) :
    Step s (.recv block) {
      code := s.code.resumeRecv (store s.code.storage s.code.buf.data block) block.length
      block := block
      received := s.received++block
      accepted := s.accepted }
  | eof {s : Echo} (hp : s.code.point = .RecvData) :
    Step s .eof { s with code := s.code.resumeRecv s.code.storage 0 }
  | send {s : Echo} {n : Nat} (hp : s.code.point = .SendData) (h0 : 1 ≤ n)
    (hlen : n ≤ s.code.buf.size) :
    Step s (.send n) { s with
      code := s.code.resumeSend n none
      sent := s.sent++[n]
      accepted := s.accepted++s.code.offered.take n }

/-- What is accepted is what has been received, in its order, and all of it whenever the
service goes back to receiving. -/
def Exact (s : Echo) : Prop :=
  s.accepted<+:s.received ∧ (s.code.point = .RecvData → s.accepted = s.received)

def lastSent (s : Echo) : Nat := s.sent.getLast?.getD 0

/-- The next `n` bytes of the block behind the last send are those behind all sends. -/
def Aligned (s : Echo) (n : Nat) : Prop :=
  (s.block.drop s.lastSent).take n = (s.block.drop s.sent.sum).take n

def Action.Misses (s : Echo) : Action → Prop
  | .send n => ¬ s.Aligned n
  | _ => False

structure Sending (s : Echo) (before : Bytes) : Prop where
  point : s.code.point = .SendData
  block : slice s.code.storage 0 s.block.length = s.block
  size : s.block.length ≤ reserved
  rsz : s.code.rsz+s.sent.sum = s.block.length
  pos : 0 < s.code.rsz
  buf : s.code.buf = ⟨s.lastSent,s.code.rsz.toNat⟩
  last : s.lastSent ≤ s.sent.sum
  received : s.received = before++s.block
  accepted : s.accepted.length = before.length+s.sent.sum

structure Idle (s : Echo) : Prop where
  point : s.code.point ≠ .SendData
  buf : s.code.point = .RecvData → s.code.buf = wholeStorage
  accepted : s.accepted.length = s.received.length

inductive Inv (s : Echo) : Prop where
  | idle (h : Idle s)
  | sending (before : Bytes) (h : Sending s before)

variable {s t : Echo} {a : Action} {as : List (Echo×Action)} {n : Nat} {before : Bytes}

theorem Sending.offered_eq (h : Sending s before) :
    s.code.offered = (s.block.drop s.lastSent).take s.code.rsz.toNat := by
  have hrsz := h.rsz
  have hlast := h.last
  have hpos := h.pos
  have hwhole : slice s.code.storage 0 s.block.length =
      slice s.code.storage 0 s.lastSent++slice s.code.storage s.lastSent s.block.length :=
    slice_append _ (by omega) (by omega)
  have hdrop : s.block.drop s.lastSent = slice s.code.storage s.lastSent s.block.length := by
    conv_lhs => rw [← h.block,hwhole]
    exact List.drop_left' (by rw [length_slice]; omega)
  have htake := slice_take s.code.storage (a := s.lastSent)
    (b := s.lastSent+(s.code.rsz.toNat:Int)) (c := s.block.length) (by omega) (by omega)
  have hn : ((s.lastSent:Int)+(s.code.rsz.toNat:Int)-s.lastSent).toNat = s.code.rsz.toNat := by
    omega
  rw [hn] at htake
  rw [EchoService.offered,h.buf,hdrop,htake]

theorem Sending.taken (h : Sending s before) (hn : n ≤ s.code.buf.size) :
    n ≤ s.code.rsz ∧ s.code.offered.take n = (s.block.drop s.lastSent).take n ∧
      (s.code.offered.take n).length = n := by
  have hrsz := h.rsz
  have hlast := h.last
  have hpos := h.pos
  rw [h.buf] at hn
  dsimp only at hn
  have htaken : s.code.offered.take n = (s.block.drop s.lastSent).take n := by
    rw [h.offered_eq,List.take_take,Nat.min_eq_left hn]
  refine ⟨by omega,htaken,?_⟩
  rw [htaken,List.length_take,List.length_drop]
  omega

theorem wrapInt_small {x : Int} (h : 0 ≤ x) (h' : x ≤ reserved) : wrapInt x = x := by
  have hsize : reserved = 3900 := rfl
  exact wrapInt_of_range (by omega) (by omega)

theorem sizeT_small {x : Int} (h : 0 ≤ x) (h' : x ≤ reserved) : sizeT x = x.toNat := by
  have hsize : reserved = 3900 := rfl
  exact sizeT_of_range h (by omega)

theorem resumeRecv_block (c : EchoService) (storage : Mem) {r : Int} (h : 1 ≤ r)
    (h' : r ≤ reserved) : c.resumeRecv storage r =
      { c with storage := storage, rsz := r, buf := ⟨0,r.toNat⟩, point := .SendData } := by
  have h0 : r ≠ 0 := by omega
  rw [EchoService.resumeRecv,wrapInt_small (by omega) h']
  dsimp only
  rw [if_neg h0,sizeT_small (by omega) h']

theorem resumeSend_all (c : EchoService) (h : 1 ≤ c.rsz) (h' : c.rsz ≤ reserved) :
    c.resumeSend c.rsz none =
      { c with ssz := c.rsz, buf := wholeStorage, point := .RecvData } := by
  rw [EchoService.resumeSend,wrapInt_small (by omega) h']
  dsimp only
  rw [if_neg (fun he => by cases he.2),if_pos rfl]

theorem resumeSend_part (c : EchoService) {r : Int} (h : 1 ≤ r) (hr : r < c.rsz)
    (h' : c.rsz ≤ reserved) : c.resumeSend r none =
      { c with ssz := r, rsz := c.rsz-r, buf := ⟨r,(c.rsz-r).toNat⟩, point := .SendData } := by
  rw [EchoService.resumeSend,wrapInt_small (by omega) (by omega)]
  dsimp only
  rw [if_neg (fun he => by cases he.2),if_neg (Int.ne_of_lt hr),
    wrapInt_small (by omega) (by omega),sizeT_small (by omega) (by omega)]

theorem resumeRecv_eof (c : EchoService) (storage : Mem) :
    c.resumeRecv storage 0 = { c with storage := storage, rsz := 0, point := .returned } := by
  rw [EchoService.resumeRecv,wrapInt_small (Int.le_refl 0) (Int.zero_le_ofNat _)]
  dsimp only
  rw [if_pos rfl]

theorem recv_inv {block : Bytes} (h : Step s (.recv block) t) (hs : Inv s) :
    s.code.point = .RecvData ∧ t.accepted = s.accepted ∧ t.received = s.received++block ∧
      Sending t s.received := by
  cases h with
  | recv hp h0 hlen =>
    cases hs with
    | sending _ h => cases hp.symm.trans h.point
    | idle h =>
      have hblock := slice_store s.code.storage (a := 0) (p := 0) block (Int.le_refl 0)
      rw [slice_self,List.nil_append,Int.zero_add] at hblock
      rw [h.buf hp] at hlen ⊢
      have hcode := resumeRecv_block s.code (store s.code.storage 0 block)
        (r := block.length) (by omega) (Int.ofNat_le.mpr hlen)
      rw [wholeStorage,hcode]
      exact ⟨hp,rfl,rfl,rfl,hblock,hlen,Int.add_zero _,by dsimp only; omega,rfl,Nat.le_refl 0,rfl,
        h.accepted⟩

theorem send_inv (h : Step s (.send n) t) (hs : Inv s) : ∃ before, Sending s before ∧
    n ≤ s.code.rsz ∧ t.received = s.received ∧
    t.accepted = s.accepted++(s.block.drop s.lastSent).take n ∧
    t.accepted.length = s.accepted.length+n ∧
    ((Idle t ∧ t.code.point = .RecvData) ∨ Sending t before) := by
  cases h with
  | send hp h0 hlen =>
    cases hs with
    | idle h => exact absurd hp h.point
    | sending before h =>
      obtain ⟨hn,htaken,hcount⟩ := h.taken hlen
      have hrsz := h.rsz
      have hsize := h.size
      have hpos := h.pos
      have haccepted := h.accepted
      have hreceived := congrArg List.length h.received
      rw [List.length_append] at hreceived
      rw [← htaken]
      refine ⟨before,h,hn,rfl,rfl,by rw [List.length_append,hcount],?_⟩
      by_cases hall : (n:Int) = s.code.rsz
      · have hcode := resumeSend_all s.code (by omega) (by omega)
        rw [← hall] at hcode
        rw [hcode]
        refine .inl ⟨⟨by simp,fun _ => rfl,?_⟩,rfl⟩
        dsimp only
        rw [List.length_append,hcount]
        omega
      · have hcode := resumeSend_part s.code (r := n) (by omega) (by omega) (by omega)
        rw [hcode]
        refine .inr ⟨rfl,h.block,hsize,?_,?_,?_,?_,h.received,?_⟩
        · dsimp only
          rw [List.sum_append,List.sum_singleton]
          omega
        · dsimp only
          omega
        · simp [lastSent]
        · simp [lastSent]
        · dsimp only
          rw [List.length_append,hcount,List.sum_append,List.sum_singleton]
          omega

theorem step_inv (h : Step s a t) (hs : Inv s) : Inv t := by
  cases a with
  | recv block =>
    obtain ⟨_,_,_,ht⟩ := recv_inv h hs
    exact .sending _ ht
  | send n =>
    obtain ⟨before,_,_,_,_,_,hcases⟩ := send_inv h hs
    cases hcases with
    | inl ht => exact .idle ht.1
    | inr ht => exact .sending before ht
  | eof =>
    cases h with
    | eof hp =>
      cases hs with
      | sending _ h => cases hp.symm.trans h.point
      | idle h =>
        rw [resumeRecv_eof]
        exact .idle ⟨by simp,by simp,h.accepted⟩

theorem start_inv : Inv {} := .idle ⟨by simp,fun _ => rfl,rfl⟩

theorem prefix_iff {accepted before block piece : Bytes} {k n : Nat}
    (h : accepted<+:before++block) (hlen : accepted.length = before.length+k)
    (hpiece : piece.length = n) :
    accepted++piece<+:before++block ↔ piece = (block.drop k).take n := by
  have hbegin : accepted = before++block.take k := by
    rw [List.prefix_iff_eq_take.mp h,hlen,List.take_append,Nat.add_sub_cancel_left,
      List.take_of_length_le (Nat.le_add_right _ _)]
  have hblock : before++block = before++block.take k++block.drop k := by
    rw [List.append_assoc,List.take_append_drop]
  rw [hbegin,hblock,List.prefix_append_right_inj,List.prefix_iff_eq_take,hpiece]

theorem step_exact_iff (hs : Inv s) (hexact : Exact s) (h : Step s a t) :
    Exact t ↔ ¬ a.Misses s := by
  cases a with
  | recv block =>
    obtain ⟨hp,haccepted,hreceived,ht⟩ := recv_inv h hs
    refine ⟨fun _ => id,fun _ => ⟨?_,fun hp' => ?_⟩⟩
    · rw [haccepted,hreceived,hexact.2 hp]
      exact List.prefix_append _ _
    · cases ht.point.symm.trans hp'
  | eof =>
    refine ⟨fun _ => id,fun _ => ?_⟩
    cases h with
    | eof hp =>
      rw [resumeRecv_eof]
      exact ⟨hexact.1,by simp⟩
  | send n =>
    obtain ⟨before,h,hn,hreceived,haccepted,hcount,hcases⟩ := send_inv h hs
    have hprefix := hexact.1
    rw [h.received] at hprefix
    have hpiece : ((s.block.drop s.lastSent).take n).length = n := by
      rw [haccepted,List.length_append] at hcount
      omega
    have hiff := prefix_iff hprefix h.accepted hpiece
    rw [← haccepted,← h.received,← hreceived] at hiff
    change _ ↔ ¬ ¬ Aligned s n
    rw [not_not,Aligned,← hiff]
    refine ⟨And.left,fun hright => ⟨hright,fun hp => ?_⟩⟩
    cases hcases with
    | inl ht => exact hright.eq_of_length ht.1.accepted
    | inr ht => cases ht.point.symm.trans hp

/-- The service echoes exactly all along a run exactly if each send happens to begin with
the right bytes. -/
theorem echoes_iff (h : Run Step {} as s) :
    (∀ x∈visited as s, Exact x) ↔ ∀ p∈as, ∀ n, p.2 = .send n → p.1.Aligned n := by
  have hall := h.good_iff (fun _ _ _ hs h => step_inv h hs)
    (fun _ _ _ hs hexact h => step_exact_iff hs hexact h)
    start_inv ⟨List.prefix_refl _,fun _ => rfl⟩
  rw [hall]
  refine forall₂_congr fun p _ => ?_
  cases p with
  | mk x a =>
    cases a with
    | recv _ => simp [Action.Misses]
    | eof => simp [Action.Misses]
    | send n => simp [Action.Misses]

theorem threeSends_reached : ∃ as s, Run Step {} as s ∧ s.received = [1,2,3] ∧
    s.accepted = [1,2,2] :=
  ⟨_,_,.cons (@Step.recv {} [1,2,3] rfl (by decide) (by decide)) <|
    .cons (@Step.send _ 1 rfl (by decide) (by decide)) <|
    .cons (@Step.send _ 1 rfl (by decide) (by decide)) <|
    .cons (@Step.send _ 1 rfl (by decide) (by decide)) <| .nil _,rfl,rfl⟩

theorem echoes_iff_threeSends : ∃ as s, Run Step {} as s ∧
    ((∀ x∈visited as s, Exact x) ↔ ∀ p∈as, ∀ n, p.2 = .send n → p.1.Aligned n) := by
  obtain ⟨as,s,h,_⟩ := threeSends_reached
  exact ⟨as,s,h,echoes_iff h⟩

theorem byte_repeated : ¬ ∀ (as : List (Echo×Action)) (s : Echo), Run Step {} as s →
    ∀ x∈visited as s, Exact x := by
  intro hall
  obtain ⟨as,s,h,hreceived,haccepted⟩ := threeSends_reached
  have hprefix := (hall as s h s (by simp [visited])).1
  rw [hreceived,haccepted] at hprefix
  exact absurd hprefix (by decide)

end Echo
end AdlServer.Coro
