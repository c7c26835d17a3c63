import AdlServer.Fifo
import AdlServer.NetBuffer

/-! `netBuffer` over a socket, as a queue of bytes. -/
namespace AdlServer.Net
open Program Memory Cpp
namespace NetBuffer
variable {b : NetBuffer}

def dataLength : List ReadAnswer → Nat
  | [] => 0
  | .bytes c::answers => c.length+dataLength answers
  | .fail _::answers => dataLength answers

def Socket.Received (s : Socket) (got : Bytes) : Prop :=
  s.received = got ∧ ∀ n∈s.asked, 1 ≤ n

theorem Socket.delivers : Delivers Socket.read Socket.Received := by
  intro s got n offset hn ⟨hrec,hask⟩
  have hask' : ∀ k∈s.asked++[n], 1 ≤ k := by
    intro k hk
    cases List.mem_append.mp hk with
    | inl hk => exact hask k hk
    | inr hk => rwa [List.mem_singleton.mp hk]
  rw [Socket.read]
  cases hs : s.answers with
  | nil => exact ⟨hrec,hask'⟩
  | cons a answers =>
    cases a with
    | fail e => exact ⟨hrec,hask'⟩
    | bytes c =>
      refine ⟨?_,?_,hask'⟩
      · have := List.length_take_le n.toNat c
        omega
      · simp [hrec]

theorem Socket.delivers_bounded (total : Nat) :
    Delivers Socket.read fun s got => got.length+dataLength s.answers ≤ total := by
  intro s got n offset hn hle
  rw [Socket.read]
  cases hs : s.answers with
  | nil => simpa [hs] using hle
  | cons a answers =>
    cases a with
    | fail e => simpa [hs,dataLength] using hle
    | bytes c =>
      have hlen := List.length_take_le n.toNat c
      have hlen' := List.length_take_le' n.toNat c
      simp only [hs,dataLength] at hle
      refine ⟨by omega,?_⟩
      simp only [List.length_append,List.tail_cons]
      omega

theorem readTurn_socket_again {offset : Int} {s s' : ReadState Socket}
    (h : (readTurn Socket.read offset s).Returns (.again s')) :
    s'.source.answers.length < s.source.answers.length := by
  rw [readTurn,Socket.read] at h
  cases hs : s.source.answers with
  | nil => simp [hs] at h
  | cons a answers =>
    cases a with
    | fail e =>
      cases e with
      | EINTR =>
        simp only [hs,Prog.returns_pure,Turn.again.injEq] at h
        simp [h]
      | EAGAIN => simp [hs] at h
      | EPIPE => simp [hs] at h
      | ECONNRESET => simp [hs] at h
      | EBADF => simp [hs] at h
      | other n => simp [hs] at h
    | bytes c =>
      simp only [hs] at h
      cases hc : c.take s.buffer.writeable.toNat with
      | nil => simp [hc] at h
      | cons x c' =>
        simp only [hc] at h
        obtain ⟨d,-,h⟩ := (Prog.returns_bind _ _ _).mp h
        obtain ⟨e,-,h⟩ := (Prog.returns_bind _ _ _).mp h
        simp only [Prog.returns_pure,Turn.again.injEq] at h
        simp [h]

theorem readTurn_socket_halts (offset : Int) {s : ReadState Socket} (h : s.buffer.Wf)
    (hsum : s.buffer.readable+dataLength s.source.answers+4096 < 2^30) :
    (readTurn Socket.read offset s).Halts := by
  rw [readTurn,Socket.read]
  cases hs : s.source.answers with
  | nil => exact Prog.halts_pure _
  | cons a answers =>
    cases a with
    | fail e => cases e <;> exact Prog.halts_pure _
    | bytes c =>
      have hlen := List.length_take_le s.buffer.writeable.toNat c
      have hlen' := List.length_take_le' s.buffer.writeable.toNat c
      have hpos := h.writeable_pos
      simp only [hs,dataLength] at hsum
      dsimp only
      generalize c.take s.buffer.writeable.toNat = got at hlen hlen' ⊢
      cases got with
      | nil => exact Prog.halts_pure _
      | cons x got =>
        obtain ⟨d,hd,hin,he,hroom⟩ := store_returns h.toInBounds
          (by omega : ((x::got).length:Int) ≤ s.buffer.writeable)
        have hread : d.readable+4096 < 2^30 := by
          have h1 := hin.length_contents
          have h2 := h.length_contents
          rw [he,List.length_append] at h1
          omega
        refine Prog.halts_bind hd.halts fun d' hd' => ?_
        rw [hd'.unique hd]
        exact Prog.halts_bind (checkSmall_halts hin hread) fun _ _ =>
          Prog.halts_pure _

theorem readFd_socket_halts (offset : Int) (answers : List ReadAnswer) (h : b.Wf)
    (hsum : b.readable+dataLength answers+4096 < 2^30) :
    (readFd Socket.read { answers := answers } b offset).Halts := by
  have hD := Socket.delivers_bounded (dataLength answers)
  refine Prog.loop_halts
    (Filling b fun s got => got.length+dataLength s.answers ≤ dataLength answers)
    (fun s => s.source.answers.length) ?_ ?_ _ ⟨[],rfl,by simp,h,by simp⟩
  · intro s ⟨got,hall,hI,hh⟩
    refine readTurn_socket_halts offset hh.wf ?_
    have h1 := hh.readable
    have h2 := h.length_contents
    simp only [List.length_append] at h1
    omega
  · intro s s' hs hagain
    exact ⟨(readTurn_ensures hD offset hs).result hagain,readTurn_socket_again hagain⟩

/-! Runs of operations. -/

inductive BufferOp where
  | append (s : Bytes)
  | retrieve (len : Int)
  | retrieveAsString (len : Nat)
  | retrieveAllAsString
  | retrieveAll
  | reset
  | readFd (answers : List ReadAnswer)

/-- What an operation lets one see: the string it returns, and on a socket the
counts it asked for and the bytes it was given. -/
structure Output where
  taken : Option Bytes := none
  asked : List Int := []
  received : Bytes := []

def BufferOp.apply (op : BufferOp) (b : NetBuffer) : Prog Fault (Output×NetBuffer) :=
  match op with
  | .append s => do
    let b ← b.append s
    pure ({},b)
  | .retrieve len => do
    let b ← b.retrieve len
    pure ({},b)
  | .retrieveAsString len => do
    let (s,b) ← b.retrieveAsString len
    pure ({ taken := some s },b)
  | .retrieveAllAsString => do
    let (s,b) ← b.retrieveAllAsString
    pure ({ taken := some s },b)
  | .retrieveAll => pure ({},b.retrieveAll)
  | .reset => pure ({},b.reset)
  | .readFd answers => do
    let (_,socket,b) ← NetBuffer.readFd Socket.read { answers := answers } b 0
    pure ({ asked := socket.asked, received := socket.received },b)

def BufferOp.abstract (op : BufferOp) (received : Bytes) : Fifo.Op UInt8 :=
  match op with
  | .append s => .enqueue s
  | .retrieve len => .dequeue len.toNat
  | .retrieveAsString len => .dequeue len
  | .retrieveAllAsString => .drain
  | .retrieveAll => .clear
  | .reset => .clear
  | .readFd _ => .enqueue received

/-- The bounds within which an operation is called on contents `q`. -/
def BufferOp.Legal (q : Bytes) : BufferOp → Prop
  | .append s => q.length+s.length+4096 < 2^30
  | .retrieve len => 0 ≤ len ∧ len ≤ q.length
  | .retrieveAsString len => len ≤ q.length
  | .readFd answers => q.length+dataLength answers+4096 < 2^30
  | _ => True

instance (q : Bytes) : (op : BufferOp) → Decidable (op.Legal q)
  | .append _ => inferInstanceAs (Decidable (_ < _))
  | .retrieve _ => inferInstanceAs (Decidable (_ ∧ _))
  | .retrieveAsString _ => inferInstanceAs (Decidable (_ ≤ _))
  | .retrieveAllAsString => .isTrue trivial
  | .retrieveAll => .isTrue trivial
  | .reset => .isTrue trivial
  | .readFd _ => inferInstanceAs (Decidable (_ < _))

def run (b : NetBuffer) : List BufferOp → Prog Fault (List (BufferOp×Output)×NetBuffer)
  | [] => pure ([],b)
  | op::ops => do
    let (out,b) ← op.apply b
    let (outs,b) ← run b ops
    pure ((op,out)::outs,b)

def Legal (b : NetBuffer) : List BufferOp → Prop
  | [] => True
  | op::ops => op.Legal b.contents ∧
    ∀ out b', (op.apply b).Returns (out,b') → Legal b' ops

/-- What was done and seen is what a queue of bytes does. -/
inductive Queued : Bytes → List (BufferOp×Output) → Bytes → Prop where
  | nil (q : Bytes) : Queued q [] q
  | cons {q q' : Bytes} {op : BufferOp} {out : Output} {outs : List (BufferOp×Output)}
    (taken : ∀ s, out.taken = some s → s = (Fifo.step q (op.abstract out.received)).1)
    (rest : Queued (Fifo.step q (op.abstract out.received)).2 outs q') :
    Queued q ((op,out)::outs) q'

theorem BufferOp.apply_returns (op : BufferOp) (h : b.Wf) (hop : op.Legal b.contents) :
    ∃ out b', (op.apply b).Returns (out,b') ∧
      b'.Holds (Fifo.step b.contents (op.abstract out.received)).2 ∧
      (∀ s, out.taken = some s →
        s = (Fifo.step b.contents (op.abstract out.received)).1) ∧
      ∀ n∈out.asked, 1 ≤ n := by
  have hlen := h.length_contents
  cases op with
  | append s =>
    have hsum : (b.contents.length:Int)+s.length+4096 < 2^30 := by
      rw [BufferOp.Legal] at hop
      omega
    obtain ⟨b',hb',hh⟩ := append_returns h (s := s) (by omega)
    exact ⟨{},b',hb'.bind (by simp),hh,by simp,by simp⟩
  | retrieve len =>
    obtain ⟨b',hb',hh⟩ := retrieve_returns h hop.1 (by rw [← hlen]; exact hop.2)
    exact ⟨{},b',hb'.bind (by simp),hh,by simp,by simp⟩
  | retrieveAsString len =>
    have hle : (len:Int) ≤ b.readable := by
      rw [BufferOp.Legal] at hop
      omega
    obtain ⟨b',hb',hh⟩ := retrieveAsString_returns h hle
    refine ⟨{ taken := some (b.contents.take len) },b',hb'.bind (by simp),hh,?_,by simp⟩
    intro s hs
    exact (Option.some.inj hs).symm
  | retrieveAllAsString =>
    obtain ⟨b',hb',hh⟩ := @retrieveAsString_returns b h b.readable.toNat (by omega)
    have hn : b.readable.toNat = b.contents.length := by omega
    rw [hn,List.take_length] at hb'
    rw [hn,List.drop_length] at hh
    have hall : b.retrieveAllAsString.Returns (b.contents,b') := by
      change (b.retrieveAsString b.readable.toNat).Returns _
      rwa [hn]
    refine ⟨{ taken := some b.contents },b',hall.bind (by simp),hh,?_,by simp⟩
    intro s hs
    exact (Option.some.inj hs).symm
  | retrieveAll =>
    exact ⟨{},b.retrieveAll,Prog.returns_self _,retrieveAll_holds h,by simp,by simp⟩
  | reset =>
    exact ⟨{},b.reset,Prog.returns_self _,retrieveAll_holds h,by simp,by simp⟩
  | readFd answers =>
    have hsum : b.readable+dataLength answers+4096 < 2^30 := by
      rw [BufferOp.Legal] at hop
      omega
    have hfresh : Socket.Received { answers := answers } [] := ⟨rfl,by simp⟩
    obtain ⟨⟨ret,socket,b'⟩,hr,got,-,⟨hrec,hask⟩,hh⟩ :=
      (readFd_ensures Socket.delivers 0 h hfresh).returns (readFd_socket_halts 0 answers h hsum)
    refine ⟨{ asked := socket.asked, received := socket.received },b',hr.bind (by simp),
      ?_,by simp,hask⟩
    dsimp only at hrec hh ⊢
    rw [hrec]
    exact hh

theorem legal_cons {q : Bytes} {op : BufferOp} {ops : List BufferOp} (h : b.Holds q)
    (hop : op.Legal q) (hrest : ∀ (out : Output) (b' : NetBuffer),
      b'.Holds (Fifo.step q (op.abstract out.received)).2 → Legal b' ops) :
    Legal b (op::ops) := by
  rw [← h.contents_eq] at hop hrest
  refine ⟨hop,fun out b' hb' => ?_⟩
  obtain ⟨out',b'',hr,hh,-⟩ := op.apply_returns h.wf hop
  cases hb'.unique hr
  exact hrest out b' hh

theorem run_refines (ops : List BufferOp) (h : b.Wf) (hops : Legal b ops) :
    ∃ outs b', (run b ops).Returns (outs,b') ∧ b'.Wf ∧ Queued b.contents outs b'.contents ∧
      ∀ e∈outs, ∀ n∈e.2.asked, 1 ≤ n := by
  induction ops generalizing b with
  | nil => exact ⟨[],b,Prog.returns_self _,h,.nil _,by simp⟩
  | cons op ops ih =>
    obtain ⟨out,c,hc,hh,htaken,hask⟩ := op.apply_returns h hops.1
    obtain ⟨outs,b',hb',hwf,hq,hasks⟩ := ih hh.wf (hops.2 out c hc)
    refine ⟨(op,out)::outs,b',hc.bind (hb'.bind (by simp)),hwf,.cons htaken ?_,?_⟩
    · rwa [hh.contents_eq] at hq
    · intro e he
      cases List.mem_cons.mp he with
      | inl he => rwa [he]
      | inr he => exact hasks e he

/-- From any size on, `netBuffer` is a queue of bytes: every run of operations
within their bounds returns, shows what the queue shows and leaves its contents,
with the indices in order and a byte free, and no read asks for nothing. -/
theorem netBuffer_refines_fifo (initSize : Int) (memory : Mem) (h : 1 ≤ initSize)
    (ops : List BufferOp) (hops : Legal (create initSize memory) ops) :
    ∃ outs b, (run (create initSize memory) ops).Returns (outs,b) ∧
      Queued [] outs b.contents ∧
      (0 ≤ b.r ∧ b.r ≤ b.w ∧ b.w < b.alloc ∧ b.alloc = b.size) ∧
      ∀ e∈outs, ∀ n∈e.2.asked, 1 ≤ n := by
  have hc := create_holds h memory
  obtain ⟨outs,b,hr,hwf,hq,hasks⟩ := run_refines ops hc.wf hops
  rw [hc.contents_eq] at hq
  exact ⟨outs,b,hr,hq,⟨hwf.r_nonneg,hwf.r_le,hwf.w_lt,hwf.owned⟩,hasks⟩

def smallOps : List BufferOp :=
  [.append [1,2],.retrieve 1,.append [3,4],
    .readFd [.bytes [5],.fail .EINTR,.bytes [6,7],.fail .EAGAIN],.retrieveAllAsString]

theorem legal_smallOps : Legal (create 1 fun _ => 0) smallOps := by
  refine legal_cons (create_holds (by decide) _) (by decide) ?_
  intro _ b (hb : b.Holds [1,2])
  refine legal_cons hb (by decide) ?_
  intro _ b (hb : b.Holds [2])
  refine legal_cons hb (by decide) ?_
  intro _ b (hb : b.Holds [2,3,4])
  refine legal_cons hb (by decide) ?_
  intro _ b hb
  exact legal_cons hb trivial fun _ _ _ => trivial

theorem netBuffer_refines_fifo_small :
    ∃ outs b, (run (create 1 fun _ => 0) smallOps).Returns (outs,b) ∧
      outs.map (fun e => (e.2.asked,e.2.received,e.2.taken)) =
        [([],[],none),([],[],none),([],[],none),([1,8188,8188,8186],[5,6,7],none),
          ([],[],some [2,3,4,5,6,7])] ∧
      Queued [] outs b.contents ∧
      (0 ≤ b.r ∧ b.r ≤ b.w ∧ b.w < b.alloc ∧ b.alloc = b.size) ∧
      ∀ e∈outs, ∀ n∈e.2.asked, 1 ≤ n := by
  have hseen : ∃ outs b, (run (create 1 fun _ => 0) smallOps).Returns (outs,b) ∧
      outs.map (fun e => (e.2.asked,e.2.received,e.2.taken)) =
        [([],[],none),([],[],none),([],[],none),([1,8188,8188,8186],[5,6,7],none),
          ([],[],some [2,3,4,5,6,7])] :=
    ⟨_,_,⟨60,rfl⟩,rfl⟩
  obtain ⟨outs,b,hr,hq⟩ := netBuffer_refines_fifo 1 (fun _ => 0) (by decide) smallOps legal_smallOps
  obtain ⟨outs',b',hr',hseen⟩ := hseen
  cases hr.unique hr'
  exact ⟨outs,b,hr,hseen,hq⟩

end NetBuffer
end AdlServer.Net
