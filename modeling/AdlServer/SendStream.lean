import AdlServer.ConnLifecycle

/-! What a connected `TcpConnection` sends, as a queue of bytes between its callers and
the kernel: messages go in, what the kernel accepts comes out. -/
namespace AdlServer.Net
open Program Memory Cpp

def WriteAnswer.taken (m : Bytes) : WriteAnswer → Nat
  | .accept n => (m.take n).length
  | .fail _ => 0

namespace Conn
variable {c d : Conn} {sockfd : Int}

/-- The connection is open and its buffer waits exactly when it watches to write. -/
structure Streaming (sockfd : Int) (c : Conn) : Prop where
  established : At sockfd .established c
  state : c.state = .kConnected
  writing : c.channel.isWriting = true ↔ c.outputBuffer.contents ≠ []
  complete : ∀ n, .writeComplete n∈c.trace → n = 0

def Carries (c d : Conn) (m : Bytes) : Prop :=
  ∃ ops, Fifo.Lossless ops ∧ Fifo.inputs ops = m ∧
    d.accepted = c.accepted++(Fifo.run c.outputBuffer.contents ops).1 ∧
    d.outputBuffer.contents = (Fifo.run c.outputBuffer.contents ops).2

theorem Carries.refl (c : Conn) : Carries c c [] :=
  ⟨[],by simp [Fifo.Lossless],rfl,by simp [Fifo.run],rfl⟩

theorem carries_act (c : Conn) (a : Act) : Carries c (c.act a) [] :=
  ⟨[],by simp [Fifo.Lossless],rfl,by simp [Fifo.run,act],rfl⟩

theorem Carries.trans {e : Conn} {m n : Bytes} (h : Carries c d m) (h' : Carries d e n) :
    Carries c e (m++n) := by
  obtain ⟨ops,hl,hi,ha,hc⟩ := h
  obtain ⟨ops',hl',hi',ha',hc'⟩ := h'
  refine ⟨ops++ops',?_,?_,?_,?_⟩
  · intro op hop
    cases List.mem_append.mp hop with
    | inl hop => exact hl op hop
    | inr hop => exact hl' op hop
  · rw [← hi,← hi']
    simp [Fifo.inputs]
  · rw [Fifo.run_append,ha',ha,hc,List.append_assoc]
  · rw [Fifo.run_append,hc',hc]

theorem Carries.stream {m : Bytes} (h : Carries c d m) :
    d.accepted++d.outputBuffer.contents = c.accepted++c.outputBuffer.contents++m := by
  obtain ⟨ops,hl,hi,ha,hc⟩ := h
  rw [ha,hc,List.append_assoc,Fifo.run_conserves _ hl,hi,List.append_assoc]

theorem carries_split {m : Bytes} {k : Nat} (hk : k ≠ 0 → c.outputBuffer.contents = [])
    (ha : d.accepted = c.accepted++m.take k)
    (hc : d.outputBuffer.contents = c.outputBuffer.contents++m.drop k) : Carries c d m := by
  refine ⟨[.enqueue m,.dequeue k],by simp [Fifo.Lossless],by simp [Fifo.inputs,Fifo.Op.input],?_⟩
  by_cases h0 : k = 0
  · subst h0
    simpa [Fifo.run,Fifo.step] using And.intro ha hc
  · rw [hk h0] at hc ⊢
    simpa [Fifo.run,Fifo.step] using And.intro ha hc

/-- An answer that does not end the connection. -/
def NotFatal : WriteAnswer → Prop
  | .accept _ => True
  | .fail e => e ≠ .EPIPE ∧ e ≠ .ECONNRESET

theorem idle_iff (h : Streaming sockfd c) :
    c.idle = true ↔ c.outputBuffer.contents = [] := by
  have hlen := h.established.output.length_contents
  rw [idle]
  by_cases hc : c.outputBuffer.contents = []
  · have hw : c.channel.isWriting = false := by
      cases hw : c.channel.isWriting with
      | false => rfl
      | true => exact absurd hc (h.writing.mp hw)
    rw [hc] at hlen
    simp [hc,hw,← hlen]
  · simp [hc,h.writing.mpr hc]

structure FirstWrite (sockfd : Int) (c : Conn) (m : Bytes) (k : Nat) (r : Conn×Sent) : Prop where
  streaming : Streaming sockfd r.1
  output : r.1.outputBuffer = c.outputBuffer
  accepted : r.1.accepted = c.accepted++m.take k
  nwrote : r.2.nwrote = k
  remaining : r.2.remaining = m.length-k
  noFault : r.2.faultError = false

theorem act_streaming (h : Streaming sockfd c) {a : Act} (ha : Plain a)
    (hn : ∀ n, a ≠ .writeComplete n) : Streaming sockfd (c.act a) := by
  refine ⟨act_at h.established ha,h.state,h.writing,fun n hm => ?_⟩
  cases List.mem_append.mp hm with
  | inl hm => exact h.complete n hm
  | inr hm => exact absurd (List.mem_singleton.mp hm).symm (hn n)

theorem accepted_streaming (h : Streaming sockfd c) (s : Bytes) :
    Streaming sockfd ({ c with accepted := c.accepted++s }.act (.wrote s)) :=
  @act_streaming { c with accepted := c.accepted++s } sockfd
    ⟨{ h.established with },h.state,h.writing,h.complete⟩ _ trivial (by simp)

theorem close_streaming (h : Streaming sockfd c) (fd : Int) : Streaming sockfd (c.close fd) :=
  @act_streaming { c with files := Function.update c.files fd none } sockfd
    ⟨{ h.established with },h.state,h.writing,h.complete⟩ _ trivial (by simp)

theorem queueWriteComplete_streaming (h : Streaming sockfd c)
    (he : c.outputBuffer.contents = []) : Streaming sockfd c.queueWriteComplete := by
  have hlen := h.established.output.length_contents
  rw [he] at hlen
  refine queueWriteComplete_cases h ⟨?_,h.state,h.writing,?_⟩
  · exact act_at (queue_at h.established (.inl rfl)) trivial
  · intro n hn
    cases List.mem_append.mp hn with
    | inl hn => exact h.complete n hn
    | inr hn =>
      have hsame := List.mem_singleton.mp hn
      injection hsame with hsame
      rw [hsame,← hlen]
      rfl

@[simp] theorem queueWriteComplete_outputBuffer (c : Conn) :
    c.queueWriteComplete.outputBuffer = c.outputBuffer :=
  @queueWriteComplete_cases c (fun d => d.outputBuffer = c.outputBuffer) rfl rfl

@[simp] theorem queueWriteComplete_accepted (c : Conn) :
    c.queueWriteComplete.accepted = c.accepted :=
  @queueWriteComplete_cases c (fun d => d.accepted = c.accepted) rfl rfl

def taken (c : Conn) (m : Bytes) (a : WriteAnswer) : Nat := if c.idle then a.taken m else 0

structure Same (c d : Conn) : Prop where
  state : d.state = c.state
  channel : d.channel = c.channel
  outputBuffer : d.outputBuffer = c.outputBuffer
  accepted : d.accepted = c.accepted
  files : d.files = c.files

theorem told_same (c : Conn) (p : Prop) [Decidable p] :
    Same c (if p then c.queueWriteComplete else c) := by
  split_ifs
  · exact queueWriteComplete_cases ⟨rfl,rfl,rfl,rfl,rfl⟩ ⟨rfl,rfl,rfl,rfl,rfl⟩
  · exact ⟨rfl,rfl,rfl,rfl,rfl⟩

structure Tried (c : Conn) (m : Bytes) (a : WriteAnswer) (r : Conn×Sent) : Prop where
  state : r.1.state = c.state
  channel : r.1.channel = c.channel
  output : r.1.outputBuffer = c.outputBuffer
  accepted : r.1.accepted = c.accepted++m.take (a.taken m)
  nwrote : r.2.nwrote = a.taken m
  remaining : r.2.remaining = m.length-a.taken m
  files : ∀ fd, fd ≠ -1 → r.1.files fd = c.files fd
  fault : r.2.faultError = false ↔ NotFatal a

theorem directWrite_tried (c : Conn) (m : Bytes) (a : WriteAnswer) :
    Tried c m a (c.directWrite (some m) (-1) 0 a) := by
  cases a with
  | fail e =>
    refine ⟨rfl,rfl,rfl,(List.append_nil _).symm,rfl,rfl,fun _ _ => rfl,?_⟩
    simp [directWrite,fileMode,write,NotFatal]
  | accept n =>
    have ht : m.take (m.take n).length = m.take n := by simp
    have htold := told_same ({ c with accepted := c.accepted++m.take n }.act (.wrote (m.take n)))
      (messageLen (some m)-(m.take n).length = 0)
    refine ⟨htold.state,htold.channel,htold.outputBuffer,?_,rfl,rfl,fun fd hfd => ?_,?_⟩
    · simp only [WriteAnswer.taken]
      rw [ht]
      exact htold.accepted
    · refine (Function.update_of_ne hfd _ _).trans ?_
      exact congrFun htold.files fd
    · exact iff_of_true rfl trivial

theorem directWrite_message (h : Streaming sockfd c) (he : c.outputBuffer.contents = [])
    (m : Bytes) {a : WriteAnswer} (ha : NotFatal a) :
    FirstWrite sockfd c m (a.taken m) (c.directWrite (some m) (-1) 0 a) := by
  have ht := directWrite_tried c m a
  refine ⟨?_,ht.output,ht.accepted,ht.nwrote,ht.remaining,ht.fault.mpr ha⟩
  cases a with
  | fail e => exact act_streaming h trivial (by simp)
  | accept n =>
    have hw := accepted_streaming h (m.take n)
    simp only [directWrite,fileMode,write,Option.isNone_some,Bool.false_and,Bool.false_eq_true,
      if_false,Option.getD_some]
    apply close_streaming
    split_ifs
    · exact queueWriteComplete_streaming hw he
    · exact hw

theorem tryFirst_message (h : Streaming sockfd c) (m : Bytes) {a : WriteAnswer}
    (ha : NotFatal a) :
    FirstWrite sockfd c m (c.taken m a) (c.tryFirst (some m) (-1) 0 a) := by
  rw [taken]
  by_cases hi : c.idle
  · rw [if_pos hi,tryFirst_idle hi]
    exact directWrite_message h ((idle_iff h).mp hi) m ha
  · rw [if_neg hi,tryFirst_busy hi]
    exact ⟨h,rfl,by simp,rfl,rfl,rfl⟩

theorem contents_of_taken (h : Streaming sockfd c) {m : Bytes} {a : WriteAnswer}
    (hk : c.taken m a ≠ 0) : c.outputBuffer.contents = [] := by
  rw [taken] at hk
  split_ifs at hk with hi
  · exact (idle_iff h).mp hi
  · exact absurd rfl hk

theorem enableWriting_writes (c : Conn) :
    (c.onChannel Channel.enableWriting).channel.isWriting = true := by
  have hev := updateChannel_events c.poller ()
    { c.channel with events := c.channel.events|||kWriteEvent }
  rw [Channel.isWriting]
  exact (congrArg (·&&&kWriteEvent != 0) hev).trans (bne_iff_ne.mpr (enableWriting_write _))

theorem disableWriting_idle (c : Conn) :
    (c.onChannel Channel.disableWriting).channel.isWriting = false := by
  have hev := updateChannel_events c.poller ()
    { c.channel with events := c.channel.events&&&~~~kWriteEvent }
  rw [Channel.isWriting]
  refine (congrArg (·&&&kWriteEvent != 0) hev).trans ?_
  simp [disableWriting_write]

theorem watch_streaming (h : At sockfd .established c) (hs : c.state = .kConnected)
    (hne : c.outputBuffer.contents ≠ []) (hc : ∀ n, .writeComplete n∈c.trace → n = 0) :
    Streaming sockfd (if !c.channel.isWriting then c.onChannel Channel.enableWriting else c) := by
  cases hw : c.channel.isWriting with
  | true => exact ⟨h,hs,by simp [hw,hne],hc⟩
  | false => exact ⟨enableWriting_at h,hs,iff_of_true (enableWriting_writes c) hne,hc⟩

@[simp] theorem watch_outputBuffer (c : Conn) :
    (if !c.channel.isWriting then c.onChannel Channel.enableWriting else c).outputBuffer =
      c.outputBuffer := by
  split_ifs
  · rfl
  · rfl

@[simp] theorem watch_accepted (c : Conn) :
    (if !c.channel.isWriting then c.onChannel Channel.enableWriting else c).accepted =
      c.accepted := by
  split_ifs
  · rfl
  · rfl

structure Buffered (sockfd : Int) (c : Conn) (s : Bytes) (d : Conn) : Prop where
  streaming : Streaming sockfd d
  accepted : d.accepted = c.accepted
  contents : d.outputBuffer.contents = c.outputBuffer.contents++s

theorem bufferRest_appends (h : c.outputBuffer.Wf) (m : Bytes) (sent : Sent) :
    Prog.Ensures (c.bufferRest (some m) (-1) sent [])
      (fun d => ∃ e : Conn, ∃ b, b.Holds (c.outputBuffer.contents++m.drop sent.nwrote) ∧
        e = { c with outputBuffer := b } ∧
        d = if !e.channel.isWriting then e.onChannel Channel.enableWriting else e)
      fun _ => False := by
  have hcopy : Prog.Ensures (c.copyMessage (m.drop sent.nwrote))
      (fun e => ∃ b, b.Holds (c.outputBuffer.contents++m.drop sent.nwrote) ∧
        e = { c with outputBuffer := b }) fun _ => False :=
    (NetBuffer.append_ensures h _).bind fun b hb => Prog.ensures_pure ⟨b,hb,rfl⟩
  refine hcopy.bind fun e he => Prog.ensures_pure ?_
  obtain ⟨b,hb,he⟩ := he
  exact ⟨e,b,hb,he,rfl⟩

theorem bufferRest_message (h : Streaming sockfd c) {m : Bytes} {sent : Sent}
    (hs : m.drop sent.nwrote ≠ []) :
    Prog.Ensures (c.bufferRest (some m) (-1) sent []) (Buffered sockfd c (m.drop sent.nwrote))
      fun _ => False := by
  refine (bufferRest_appends h.established.output m sent).mono (fun d hd => ?_) fun _ => id
  obtain ⟨e,b,hb,he,hd⟩ := hd
  subst he hd
  refine ⟨watch_streaming { h.established with output := hb.wf } h.state ?_ h.complete,?_,?_⟩
  · rw [hb.contents_eq]
    simp [hs]
  · rw [watch_accepted]
  · rw [watch_outputBuffer,hb.contents_eq]

theorem bufferRest_message_halts (h : Streaming sockfd c) {m : Bytes} {sent : Sent}
    (hsum : c.outputBuffer.contents.length+(m.drop sent.nwrote).length < 2^30) :
    (c.bufferRest (some m) (-1) sent []).Halts := by
  have hlen := h.established.output.length_contents
  obtain ⟨b,hb,_⟩ := @NetBuffer.append_returns _ h.established.output (m.drop sent.nwrote)
    (by omega)
  refine Prog.halts_bind (Prog.halts_bind hb.halts fun _ _ => ?_) fun _ _ => ?_
  · exact Prog.halts_pure _
  · exact Prog.halts_pure _

theorem send_eq (h : Streaming sockfd c) (m : Bytes) {a : WriteAnswer} (ha : NotFatal a) :
    ∃ r, FirstWrite sockfd c m (c.taken m a) r ∧ c.send m a =
      if m.drop (c.taken m a) ≠ [] then r.1.bufferRest (some m) (-1) r.2 [] else pure r.1 := by
  have hf := tryFirst_message h m ha
  refine ⟨_,hf,?_⟩
  rw [send]
  rw [if_pos h.state,sendInLoop_eq (by simp [h.state])]
  generalize c.tryFirst (some m) (-1) 0 a = r at hf ⊢
  have hr := hf.remaining
  rw [check_pos .sendInLoop (by simp [hr,messageLen]),Prog.pure_bind]
  have hleft : r.2.left = true ↔ m.drop (c.taken m a) ≠ [] := by
    rw [Sent.left_iff,hr,ne_eq (m.drop _),List.drop_eq_nil_iff]
    exact ⟨fun hl => by omega,fun hl => ⟨hf.noFault,by omega⟩⟩
  by_cases hd : m.drop (c.taken m a) ≠ []
  · rw [if_pos hd,if_pos (hleft.mpr hd)]
  · rw [if_neg hd,if_neg (fun hl => hd (hleft.mp hl))]

theorem send_ensures (h : Streaming sockfd c) (m : Bytes) {a : WriteAnswer} (ha : NotFatal a) :
    Prog.Ensures (c.send m a) (fun d => Streaming sockfd d ∧ Carries c d m) fun _ => False := by
  obtain ⟨⟨d,sent⟩,hf,he⟩ := send_eq h m ha
  rw [he]
  by_cases hd : m.drop (c.taken m a) = []
  · rw [if_neg (not_not.mpr hd)]
    refine Prog.ensures_pure ⟨hf.streaming,carries_split (contents_of_taken h) hf.accepted ?_⟩
    rw [hf.output,hd,List.append_nil]
  · rw [if_pos hd]
    refine (bufferRest_message hf.streaming (by rwa [hf.nwrote])).mono ?_ fun _ => id
    intro e hb
    refine ⟨hb.streaming,carries_split (contents_of_taken h) (hb.accepted.trans hf.accepted) ?_⟩
    rw [hb.contents,hf.output,hf.nwrote]

theorem send_halts (h : Streaming sockfd c) {m : Bytes} {a : WriteAnswer} (ha : NotFatal a)
    (hsum : c.outputBuffer.contents.length+(m.drop (c.taken m a)).length < 2^30) :
    (c.send m a).Halts := by
  obtain ⟨⟨d,sent⟩,hf,he⟩ := send_eq h m ha
  rw [he]
  split_ifs
  · refine bufferRest_message_halts hf.streaming ?_
    rwa [hf.output,hf.nwrote]
  · exact Prog.halts_pure _

theorem flushed_streaming (h : At sockfd .established c) (hs : c.state = .kConnected)
    (he : c.outputBuffer.contents = []) (hc : ∀ n, .writeComplete n∈c.trace → n = 0) :
    Streaming sockfd c.flushed ∧ c.flushed.outputBuffer = c.outputBuffer ∧
      c.flushed.accepted = c.accepted := by
  have hoff := disableWriting_idle c
  have hstream : Streaming sockfd (c.onChannel Channel.disableWriting) :=
    ⟨disableWriting_at h,hs,by rw [hoff]; exact iff_of_false (by simp) (not_not.mpr he),hc⟩
  have hq := queueWriteComplete_streaming hstream he
  rw [flushed]
  rw [if_neg (by simp [hq.state])]
  exact ⟨hq,queueWriteComplete_outputBuffer _,queueWriteComplete_accepted _⟩

theorem settled_streaming (h : At sockfd .established c) (hs : c.state = .kConnected)
    (hw : c.channel.isWriting = true) (hc : ∀ n, .writeComplete n∈c.trace → n = 0) :
    Streaming sockfd (if c.outputBuffer.readable = 0 then c.flushed else c) ∧
      (if c.outputBuffer.readable = 0 then c.flushed else c).outputBuffer = c.outputBuffer ∧
      (if c.outputBuffer.readable = 0 then c.flushed else c).accepted = c.accepted := by
  have hlen := h.output.length_contents
  by_cases hr : c.outputBuffer.readable = 0
  · rw [if_pos hr]
    exact flushed_streaming h hs (List.eq_nil_of_length_eq_zero (by omega)) hc
  · rw [if_neg hr]
    have hne : c.outputBuffer.contents ≠ [] := by
      intro he
      rw [he] at hlen
      exact hr hlen.symm
    exact ⟨⟨h,hs,iff_of_true hw hne,hc⟩,rfl,rfl⟩

theorem carries_taken (n : Nat)
    (ha : d.accepted = c.accepted++c.outputBuffer.contents.take n)
    (hc : d.outputBuffer.contents =
      c.outputBuffer.contents.drop (c.outputBuffer.contents.take n).length) :
    Carries c d [] :=
  ⟨[.dequeue (c.outputBuffer.contents.take n).length],by simp [Fifo.Lossless],rfl,
    by simp [Fifo.run,Fifo.step,ha],hc⟩

theorem handleWrite_returns (h : Streaming sockfd c) (a : WriteAnswer) :
    ∃ d, (c.handleWrite a).Returns d ∧ Streaming sockfd d ∧ Carries c d [] := by
  rw [handleWrite]
  by_cases hw : c.channel.isWriting
  · rw [if_pos hw]
    cases a with
    | fail e =>
      exact ⟨_,Prog.returns_self _,act_streaming h trivial (by simp),carries_act c _⟩
    | accept n =>
      have hd := accepted_streaming h (c.outputBuffer.contents.take n)
      have hlen := h.established.output.length_contents
      have hk := List.length_take_le' n c.outputBuffer.contents
      dsimp only [write]
      by_cases hpos : 0 < (c.outputBuffer.contents.take n).length
      · obtain ⟨b,hb,hh⟩ := NetBuffer.retrieve_returns h.established.output
          (Int.natCast_nonneg (c.outputBuffer.contents.take n).length) (by omega)
        obtain ⟨hs,hout,hacc⟩ := @settled_streaming
          { { c with accepted := c.accepted++c.outputBuffer.contents.take n }.act
              (.wrote (c.outputBuffer.contents.take n)) with outputBuffer := b } sockfd
          { hd.established with output := hh.wf } hd.state hw hd.complete
        rw [if_pos hpos]
        refine ⟨_,hb.bind (Prog.returns_self _),hs,carries_taken n hacc ?_⟩
        rw [hout,hh.contents_eq,Int.toNat_natCast]
      · have hnil := List.eq_nil_of_length_eq_zero (Nat.eq_zero_of_not_pos hpos)
        rw [if_neg hpos]
        refine ⟨_,Prog.returns_self _,hd,carries_taken n rfl ?_⟩
        rw [hnil]
        rfl
  · rw [if_neg hw]
    exact ⟨c,Prog.returns_self c,h,Carries.refl c⟩

/-! Runs of a connection that its loop has established. -/

def connected (sockfd : Int) (reading writeComplete : Bool) (input output : Mem) : Conn :=
  ({ newConnection sockfd reading writeComplete input output with
    pendingFunctors := [] }.addConnectInLoop.setState .kConnected).onChannel Channel.enableReading

theorem run_newConnection (sockfd : Int) (reading writeComplete : Bool) (input output : Mem)
    (es : List Event) :
    run (newConnection sockfd reading writeComplete input output)
        (.runFunctor []::.runFunctor []::es) =
      run (connected sockfd reading writeComplete input output) es := rfl

theorem connected_streaming (sockfd : Int) (reading writeComplete : Bool) (input output : Mem) :
    Streaming sockfd (connected sockfd reading writeComplete input output) := by
  have hout := NetBuffer.create_holds (by decide : (1:Int) ≤ 4096) output
  have hrun := @run_ensures _ sockfd [.runFunctor [],.runFunctor []] (by simp [Lived])
    ⟨.queued,newConnection_at sockfd reading writeComplete input output⟩
  rw [run_newConnection] at hrun
  obtain ⟨s,hs⟩ := hrun.result (Prog.returns_self _)
  cases hs.established_of_open (.inl rfl)
  refine ⟨hs,rfl,iff_of_false ?_ (not_not.mpr hout.contents_eq),?_⟩
  · have hmask : (connected sockfd reading writeComplete input output).channel.events =
        kNoneEvent|||kReadEvent := rfl
    rw [Channel.isWriting]
    rw [hmask]
    decide
  · intro n hn
    simp [connected,newConnection,queueInLoop,addConnectInLoop,setState,onChannel,act] at hn

def Steps (P : Conn → Event → Prop) (c : Conn) : List Event → Prop
  | [] => True
  | e::es => P c e ∧ ∀ d, (c.step e).Returns d → Steps P d es

theorem steps_cons {P : Conn → Event → Prop} {ev : Event} {es : List Event}
    (hd : (c.step ev).Returns d) : Steps P c (ev::es) ↔ P c ev ∧ Steps P d es := by
  refine and_congr_right fun _ => ⟨fun h => h d hd,fun h f hf => ?_⟩
  rwa [hf.unique hd]

/-- The events of plain sending. -/
inductive PlainEvent : Event → Prop where
  | send (m : Bytes) (a : WriteAnswer) (h : NotFatal a) : PlainEvent (.call (.send m a))
  | handleWrite (a : WriteAnswer) : PlainEvent (.handleWrite a)

/-- The buffered bytes stay below `2^30`. -/
def Within (c : Conn) : Event → Prop
  | .call (.send m a) =>
    c.outputBuffer.contents.length+(m.drop (c.taken m a)).length < 2^30
  | _ => True

def Event.message : Event → Bytes
  | .call (.send m _) => m
  | _ => []

theorem step_plain {e : Event} (he : PlainEvent e) (hb : Within c e) (h : Streaming sockfd c) :
    ∃ d, (c.step e).Returns d ∧ Streaming sockfd d ∧ Carries c d e.message := by
  cases he with
  | send m a ha => exact (send_ensures h m ha).returns (send_halts h ha hb)
  | handleWrite a => exact handleWrite_returns h a

theorem run_plain {es : List Event} (hes : ∀ e∈es, PlainEvent e) (hb : Steps Within c es)
    (h : Streaming sockfd c) :
    ∃ d, (run c es).Returns d ∧ Streaming sockfd d ∧ Carries c d (es.flatMap Event.message) := by
  induction es generalizing c with
  | nil => exact ⟨c,Prog.returns_self _,h,Carries.refl c⟩
  | cons e es ih =>
    obtain ⟨d,hd,hs,hc⟩ := step_plain (hes e List.mem_cons_self) hb.1 h
    obtain ⟨f,hf,hs',hc'⟩ := ih (fun g hg => hes g (List.mem_cons_of_mem e hg)) (hb.2 d hd) hs
    exact ⟨f,hd.bind hf,hs',hc.trans hc'⟩

theorem Carries.length_le {m : Bytes} (h : Carries c d m) :
    d.outputBuffer.contents.length ≤ c.outputBuffer.contents.length+m.length := by
  have hs := congrArg List.length h.stream
  obtain ⟨ops,_,_,ha,_⟩ := h
  have hl := congrArg List.length ha
  simp only [List.length_append] at hs hl
  omega

theorem within_of_total {es : List Event} (hes : ∀ e∈es, PlainEvent e) (h : Streaming sockfd c)
    (hsum : c.outputBuffer.contents.length+(es.flatMap Event.message).length < 2^30) :
    Steps Within c es := by
  induction es generalizing c with
  | nil => trivial
  | cons e es ih =>
    rw [List.flatMap_cons,List.length_append] at hsum
    have hb : Within c e := by
      cases hes e List.mem_cons_self with
      | handleWrite a => trivial
      | send m a ha =>
        simp only [Event.message] at hsum
        simp only [Within,List.length_drop]
        omega
    refine ⟨hb,fun d hd => ?_⟩
    obtain ⟨d',hd',hs,hc⟩ := step_plain (hes e List.mem_cons_self) hb h
    rw [hd'.unique hd] at hs hc
    have := hc.length_le
    exact ih (fun f hf => hes f (List.mem_cons_of_mem e hf)) hs (by omega)

/-- Over every run of plain sends and write events, what the kernel has accepted and
what waits are the messages in their order; the kernel watches for writing exactly while
something waits; and a completed write is told only when nothing does. -/
theorem plain_stream (sockfd : Int) (reading writeComplete : Bool) (input output : Mem)
    (es : List Event) (hes : ∀ e∈es, PlainEvent e)
    (hb : Steps Within (connected sockfd reading writeComplete input output) es) :
    ∃ c, (run (newConnection sockfd reading writeComplete input output)
        (.runFunctor []::.runFunctor []::es)).Returns c ∧
      c.accepted++c.outputBuffer.contents = es.flatMap Event.message ∧
      (c.channel.isWriting = true ↔ c.outputBuffer.contents ≠ []) ∧
      (∃ mask, c.poller.interest sockfd = some (mask,()) ∧
        (mask&&&EPOLLOUT ≠ 0 ↔ c.outputBuffer.contents ≠ [])) ∧
      ∀ n, .writeComplete n∈c.trace → n = 0 := by
  have hout := NetBuffer.create_holds (by decide : (1:Int) ≤ 4096) output
  obtain ⟨c,hc,hs,hcarry⟩ := run_plain hes hb
    (connected_streaming sockfd reading writeComplete input output)
  have hint := hs.established.agrees.interest
  have hl : c.channel.status = .LISTEN := hs.established.status
  rw [hs.established.fd,if_pos hl] at hint
  refine ⟨c,?_,?_,hs.writing,⟨_,hint,?_⟩,hs.complete⟩
  · rw [run_newConnection]
    exact hc
  · have hnil : (connected sockfd reading writeComplete input output).outputBuffer.contents =
        [] := hout.contents_eq
    rw [hcarry.stream,hnil]
    rfl
  · rw [← hs.writing]
    rw [Channel.isWriting,kWriteEvent]
    rw [bne_iff_ne]

def twoMessages : List Event :=
  [.call (.send [1,2,3] (.accept 1)),.call (.send [4] (.fail .EAGAIN)),.handleWrite (.accept 2),
    .handleWrite (.accept 9)]

theorem plain_stream_twoMessages :
    ∃ c, (run (newConnection 5 false true (fun _ => 0) fun _ => 0)
        (.runFunctor []::.runFunctor []::twoMessages)).Returns c ∧
      c.accepted++c.outputBuffer.contents = twoMessages.flatMap Event.message ∧
      (c.channel.isWriting = true ↔ c.outputBuffer.contents ≠ []) ∧
      (∃ mask, c.poller.interest 5 = some (mask,()) ∧
        (mask&&&EPOLLOUT ≠ 0 ↔ c.outputBuffer.contents ≠ [])) ∧
      ∀ n, .writeComplete n∈c.trace → n = 0 := by
  have hes : ∀ e∈twoMessages, PlainEvent e := by
    simp only [twoMessages,List.forall_mem_cons]
    exact ⟨.send _ _ trivial,.send _ _ ⟨by decide,by decide⟩,.handleWrite _,.handleWrite _,by simp⟩
  refine plain_stream 5 false true _ _ twoMessages hes ?_
  exact within_of_total hes (connected_streaming _ _ _ _ _) (by decide)

end Conn
end AdlServer.Net
