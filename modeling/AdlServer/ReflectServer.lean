import AdlServer.RejectedConnection

/-! The reflection server: it sends back what it receives. -/
namespace AdlServer.Reflect
open Program Memory Cpp Net Conn
variable {c d : Conn} {sockfd : Int}

def reflectionMessageCallback (answer : WriteAnswer) (c : Conn) : Prog Fault Conn := do
  let content := c.inputBuffer.contents
  let len := c.inputBuffer.readable
  let c ← c.send content answer
  let b ← c.inputBuffer.retrieve len
  pure { c with inputBuffer := b }

def defaultConnectionCallback (c : Conn) : Prog Fault Conn := pure c

/-- What the loop does for a connection, with the kernel's answers: to the reads, to the write
of the callback and to that of `handleWrite`. -/
inductive ReflectEvent where
  | handleEvent (revents : Events) (answers : List ReadAnswer) (sent flushed : WriteAnswer)
  | runFunctor

def reflectStep (c : Conn) : ReflectEvent → Prog Fault Conn
  | .handleEvent revents answers sent flushed =>
    if c.poller.interest c.channel.fd = none then pure c
    else c.handleEvent (reflectionMessageCallback sent) revents answers flushed
  | .runFunctor => c.runFunctor defaultConnectionCallback

def reflectRun (c : Conn) : List ReflectEvent → Prog Fault Conn
  | [] => pure c
  | ev::evs => do
    let c ← reflectStep c ev
    reflectRun c evs

def Fair (answers : List ReadAnswer) : Prop :=
  ∀ e, .fail e∈answers → e = .EINTR ∨ e = .EAGAIN

namespace ReflectEvent

def data : ReflectEvent → Nat
  | .handleEvent _ answers _ _ => NetBuffer.dataLength answers
  | .runFunctor => 0

/-- A hang-up comes alone, and no write of the callback fails for good. -/
def Lawful : ReflectEvent → Prop
  | .handleEvent revents _ sent _ => HangsUpAlone revents ∧ NotFatal sent
  | .runFunctor => True

def Smooth : ReflectEvent → Prop
  | .handleEvent _ answers _ _ => Fair answers
  | .runFunctor => True

end ReflectEvent

def Accounted (c : Conn) : Prop :=
  c.accepted++c.outputBuffer.contents++c.inputBuffer.contents = c.received

/-- What every step of the server keeps of a connection; nothing waits to be sent back if all
the reads were `smooth`. -/
structure Echoing (sockfd : Int) (smooth : Prop) (c : Conn) : Prop where
  life : Alive sockfd c
  state : c.state ≠ .kDisconnecting
  writing : c.state ≠ .kDisconnected → (c.channel.isWriting = true ↔ c.outputBuffer.contents ≠ [])
  complete : ∀ n, .writeComplete n∈c.trace → n = 0
  accounted : Accounted c
  drained : smooth → c.state ≠ .kDisconnected → c.inputBuffer.contents = []

section
variable {smooth : Prop}

theorem Echoing.streaming (h : Echoing sockfd smooth c) (hs : c.state = .kConnected) :
    Streaming sockfd c := by
  obtain ⟨s,hat⟩ := h.life
  cases hat.established_of_open (.inl hs)
  exact ⟨hat,hs,h.writing (by simp [hs]),h.complete⟩

theorem Echoing.streaming_of_registered (h : Echoing sockfd smooth c)
    (hreg : c.poller.interest c.channel.fd ≠ none) : Streaming sockfd c := by
  obtain ⟨s,hat⟩ := h.life
  have hl : c.channel.status = .LISTEN := by
    by_contra hne
    rw [hat.agrees.interest,if_neg hne] at hreg
    exact hreg rfl
  rw [hat.status] at hl
  cases s with
  | established => exact h.streaming (hat.state.resolve_right h.state)
  | queued => cases hl
  | added => cases hl
  | closing => cases hl
  | gone => cases hl

theorem echoing_of_streaming (h : Streaming sockfd c) (ha : Accounted c)
    (hd : smooth → c.inputBuffer.contents = []) : Echoing sockfd smooth c :=
  ⟨⟨_,h.established⟩,by simp [h.state],fun _ => h.writing,h.complete,ha,fun hs _ => hd hs⟩

end

/-! The callback. -/

theorem callback_returns (h : Streaming sockfd c) {sent : WriteAnswer} (hsent : NotFatal sent)
    (hsum : c.outputBuffer.contents.length+c.inputBuffer.contents.length < 2^30) :
    ∃ d, (reflectionMessageCallback sent c).Returns d ∧ Streaming sockfd d ∧
      Carries c d c.inputBuffer.contents ∧ d.inputBuffer.contents = [] ∧
      d.received = c.received := by
  obtain ⟨e,he,hs,hc⟩ := (send_ensures h c.inputBuffer.contents hsent).returns
    (send_halts h hsent (by rw [List.length_drop]; omega))
  obtain ⟨hbuffer,hreceived⟩ := apply_sameInput (u := .send c.inputBuffer.contents sent) trivial he
  have hlen := h.established.input.length_contents
  have hreadable : 0 ≤ c.inputBuffer.readable := by omega
  obtain ⟨b,hb,hh⟩ := NetBuffer.retrieve_returns hs.established.input
    hreadable (by rw [hbuffer])
  refine ⟨{ e with inputBuffer := b },?_,?_,hc,?_,hreceived⟩
  · exact he.bind (hb.bind (Prog.returns_self _))
  · exact ⟨{ hs.established with input := hh.wf },hs.state,hs.writing,hs.complete⟩
  · rw [hh.contents_eq,hbuffer,← hlen,Int.toNat_natCast]
    exact List.drop_length

/-! Reading. -/

theorem readTurn_fair {offset : Int} {s : NetBuffer.ReadState NetBuffer.Socket}
    (h : Fair s.source.answers) :
    Prog.Ensures (NetBuffer.readTurn NetBuffer.Socket.read offset s)
      (Prog.Kept (fun s => Fair s.source.answers) fun r => r.1.savedErrno = none)
      fun _ => True := by
  have htail : Fair s.source.answers.tail := fun e he => h e (List.mem_of_mem_tail he)
  rw [NetBuffer.readTurn,NetBuffer.Socket.read]
  cases hs : s.source.answers with
  | nil => exact Prog.ensures_pure rfl
  | cons a answers =>
    rw [hs] at h htail
    cases a with
    | fail e =>
      obtain rfl | rfl := h e List.mem_cons_self
      · exact Prog.ensures_pure htail
      · exact Prog.ensures_pure rfl
    | bytes m =>
      dsimp only
      cases m.take s.buffer.writeable.toNat with
      | nil => exact Prog.ensures_pure rfl
      | cons x got =>
        refine (Prog.ensures_true _).bind fun b _ => ?_
        exact (Prog.ensures_true _).bind fun b _ => Prog.ensures_pure htail

theorem readFd_fair {answers : List ReadAnswer} {b : NetBuffer} (h : Fair answers) :
    Prog.Ensures (NetBuffer.readFd NetBuffer.Socket.read { answers := answers } b 0)
      (fun r => r.1.savedErrno = none) fun _ => True :=
  Prog.ensures_loop (fun s => Fair s.source.answers) (fun _ hs => readTurn_fair hs) _ h

theorem readFd_accounted (answers : List ReadAnswer) (h : c.inputBuffer.Wf)
    (hsum : c.inputBuffer.contents.length+NetBuffer.dataLength answers+4096 < 2^30) :
    ∃ ret socket b, (NetBuffer.readFd NetBuffer.Socket.read { answers := answers } c.inputBuffer
        0).Returns (ret,socket,b) ∧
      NetBuffer.Answered ret socket.received ∧ (Fair answers → ret.savedErrno = none) ∧
      socket.received.length ≤ NetBuffer.dataLength answers ∧
      b.Holds (c.inputBuffer.contents++socket.received) := by
  have hfresh : NetBuffer.Socket.Received { answers := answers } [] := ⟨rfl,by simp⟩
  have hlen := h.length_contents
  obtain ⟨⟨ret,socket,b⟩,hr,got,hans,⟨hrec,-⟩,hh⟩ :=
    (NetBuffer.readFd_ensures NetBuffer.Socket.delivers 0 h hfresh).returns
      (NetBuffer.readFd_socket_halts 0 answers h (by omega))
  obtain ⟨got',-,hbound,hh'⟩ := (NetBuffer.readFd_ensures
    (NetBuffer.Socket.delivers_bounded (NetBuffer.dataLength answers)) 0 h (by simp)).result hr
  have hgot : got' = got := by
    have he := hh'.contents_eq.symm.trans hh.contents_eq
    exact List.append_cancel_left he
  dsimp only at hans hrec hh hbound
  rw [← hrec] at hans hh hgot
  rw [hgot] at hbound
  exact ⟨ret,socket,b,hr,hans,fun hf => (readFd_fair hf).result hr,by omega,hh⟩

/-! Closing, and what follows it. -/

theorem handleClose_echoing (h : Streaming sockfd c) (ha : Accounted c) (smooth : Prop) :
    ∃ d, c.handleClose.Returns d ∧ Echoing sockfd smooth d ∧ d.received = c.received ∧
      d.channel.isWriting = false := by
  have hr : c.handleClose.Returns
      ((c.setState .kDisconnected).onChannel Channel.disableAll).closeCallback := by
    rw [handleClose,check_pos .handleClose (.inl h.state)]
    exact Prog.returns_self _
  have hat := (handleClose_ensures h.established).result hr
  refine ⟨_,hr,⟨⟨_,hat⟩,by simp [closeCallback,removeConnectionInLoop,rmConnectInLoop,
    queueInLoop,act,onChannel,setState],fun hs => absurd rfl hs,?_,ha,fun _ hs => absurd rfl hs⟩,
    rfl,hat.not_writing (by simp)⟩
  intro n hn
  refine h.complete n ?_
  simpa [closeCallback,removeConnectionInLoop,rmConnectInLoop,queueInLoop,act,onChannel,
    setState] using hn

theorem handleWrite_echoing {smooth : Prop} (h : Streaming sockfd c) (ha : Accounted c)
    (hd : smooth → c.inputBuffer.contents = []) (a : WriteAnswer) :
    ∃ d, (c.handleWrite a).Returns d ∧ Echoing sockfd smooth d ∧ d.received = c.received := by
  obtain ⟨d,hr,hs,hc⟩ := handleWrite_returns h a
  obtain ⟨hbuffer,hreceived⟩ := handleWrite_sameInput hr
  refine ⟨d,hr,echoing_of_streaming hs ?_ ?_,hreceived⟩
  · have hstream := hc.stream
    rw [List.append_nil] at hstream
    rw [Accounted,hstream,hbuffer,hreceived]
    exact ha
  · rwa [hbuffer]

def Settled (sockfd : Int) (d : Conn) : Prop :=
  Streaming sockfd d ∨ d.channel.isWriting = false

theorem handleRead_echoing {smooth : Prop} {answers : List ReadAnswer} {sent : WriteAnswer}
    (h : Streaming sockfd c) (ha : Accounted c) (hd : smooth → c.inputBuffer.contents = [])
    (hsent : NotFatal sent)
    (hsum : c.received.length+NetBuffer.dataLength answers+4096 < 2^30) :
    ∃ d, (c.handleRead (reflectionMessageCallback sent) answers).Returns d ∧
      Echoing sockfd (smooth ∧ Fair answers) d ∧ Settled sockfd d ∧
      d.received.length ≤ c.received.length+NetBuffer.dataLength answers := by
  have hall := congrArg List.length ha
  simp only [List.length_append] at hall
  obtain ⟨ret,socket,b,hr,hans,hfair,hbound,hh⟩ :=
    readFd_accounted answers h.established.input (by omega)
  generalize he : ({ c with inputBuffer := b, received := c.received++socket.received } : Conn) = e
  have hstream : Streaming sockfd e := by
    subst he
    exact ⟨{ h.established with input := hh.wf },h.state,h.writing,h.complete⟩
  have hinput : e.inputBuffer.contents = c.inputBuffer.contents++socket.received := by
    subst he
    exact hh.contents_eq
  have hacc : Accounted e := by
    rw [Accounted,hinput]
    subst he
    rw [← ha]
    simp only [List.append_assoc]
  have hlen : e.received.length = c.received.length+socket.received.length := by
    subst he
    exact List.length_append
  have hacc' := congrArg List.length hacc
  simp only [List.length_append] at hacc'
  suffices hrest : ∃ d, (if ret.writeClosed then e.handleClose
      else if 0 < ret.n then reflectionMessageCallback sent e else pure e).Returns d ∧
      Echoing sockfd (smooth ∧ Fair answers) d ∧ Settled sockfd d ∧
      d.received = e.received by
    obtain ⟨d,hd,hecho,hset,hrec⟩ := hrest
    refine ⟨d,hr.bind ?_,hecho,hset,by rw [hrec]; omega⟩
    dsimp only
    rwa [he]
  by_cases hw : ret.writeClosed
  · obtain ⟨d,hd,hecho,hrec,hoff⟩ := handleClose_echoing hstream hacc (smooth ∧ Fair answers)
    rw [if_pos hw]
    exact ⟨d,hd,hecho,.inr hoff,hrec⟩
  · rw [if_neg hw]
    by_cases hn : 0 < ret.n
    · rw [if_pos hn]
      obtain ⟨d,hd,hs,hc,hempty,hrec⟩ := callback_returns hstream hsent (by omega)
      refine ⟨d,hd,echoing_of_streaming hs ?_ fun _ => hempty,.inl hs,hrec⟩
      rw [Accounted,hempty,List.append_nil,hrec,hc.stream]
      exact hacc
    · rw [if_neg hn]
      refine ⟨e,Prog.returns_self e,echoing_of_streaming hstream hacc ?_,.inl hstream,rfl⟩
      -- nothing was read: the other two ways `readFd` returns are excluded
      rintro ⟨hsmooth,hanswers⟩
      have hnone := hfair hanswers
      rw [hinput,hd hsmooth,List.nil_append]
      obtain hret | hret | ⟨err,hret⟩ := hans
      · rw [hret] at hn
        exact List.eq_nil_of_length_eq_zero (by dsimp only at hn; omega)
      · rw [hret] at hw
        exact absurd rfl hw
      · rw [hret] at hnone
        cases hnone

theorem flush_echoing {smooth : Prop} (h : Echoing sockfd smooth c) (hset : Settled sockfd c)
    (out : Prop) [Decidable out] (a : WriteAnswer) :
    ∃ d, (if out then c.handleWrite a else pure c).Returns d ∧ Echoing sockfd smooth d ∧
      d.received = c.received := by
  by_cases hout : out
  · rw [if_pos hout]
    cases hset with
    | inl hs =>
      exact handleWrite_echoing hs h.accounted (fun hp => h.drained hp (by simp [hs.state])) a
    | inr hoff =>
      rw [handleWrite_idle hoff]
      exact ⟨c,Prog.returns_self c,h,rfl⟩
  · rw [if_neg hout]
    exact ⟨c,Prog.returns_self c,h,rfl⟩

theorem handleEvent_echoing {smooth : Prop} {revents : Events} {answers : List ReadAnswer}
    {sent : WriteAnswer} (h : Echoing sockfd smooth c) (hs : Streaming sockfd c)
    (hrev : HangsUpAlone revents) (hsent : NotFatal sent)
    (hsum : c.received.length+NetBuffer.dataLength answers+4096 < 2^30) (flushed : WriteAnswer) :
    ∃ d, (c.handleEvent (reflectionMessageCallback sent) revents answers flushed).Returns d ∧
      Echoing sockfd (smooth ∧ Fair answers) d ∧
      d.received.length ≤ c.received.length+NetBuffer.dataLength answers := by
  have hdrained : smooth → c.inputBuffer.contents = [] :=
    fun hp => h.drained hp (by simp [hs.state])
  suffices hread : ∃ e f, (c.onHup revents).Returns e ∧
      (e.onReadable (reflectionMessageCallback sent) revents answers).Returns f ∧
      Echoing sockfd (smooth ∧ Fair answers) f ∧ Settled sockfd f ∧
      f.received.length ≤ c.received.length+NetBuffer.dataLength answers by
    obtain ⟨e,f,he,hf,hecho,hset,hle⟩ := hread
    obtain ⟨d,hd,hecho',hrec⟩ := flush_echoing hecho hset (revents&&&EPOLLOUT ≠ 0) flushed
    exact ⟨d,he.bind (hf.bind hd),hecho',by rwa [hrec]⟩
  by_cases hhup : revents&&&EPOLLHUP ≠ 0 ∧ revents&&&EPOLLIN = 0
  · obtain ⟨d,hd,hecho,hrec,hoff⟩ := handleClose_echoing hs h.accounted (smooth ∧ Fair answers)
    have hnot : ¬ revents&&&(EPOLLIN|||EPOLLPRI|||EPOLLRDHUP) ≠ 0 :=
      not_not.mpr (not_readable hrev hhup)
    refine ⟨d,d,?_,?_,hecho,.inr hoff,by rw [hrec]; omega⟩
    · rw [onHup,if_pos hhup]
      exact hd
    · rw [onReadable,if_neg hnot]
      exact Prog.returns_self d
  · have hup : (c.onHup revents).Returns c := by
      rw [onHup,if_neg hhup]
      exact Prog.returns_self c
    by_cases hread : revents&&&(EPOLLIN|||EPOLLPRI|||EPOLLRDHUP) ≠ 0
    · obtain ⟨d,hd,hecho,hset,hle⟩ := handleRead_echoing hs h.accounted hdrained hsent hsum
      refine ⟨c,d,hup,?_,hecho,hset,hle⟩
      rw [onReadable,if_pos hread]
      exact hd
    · refine ⟨c,c,hup,?_,echoing_of_streaming hs h.accounted fun hp => hdrained hp.1,.inl hs,
        by omega⟩
      rw [onReadable,if_neg hread]
      exact Prog.returns_self c

/-! The tasks of the connection. -/

theorem enableReading_writing (c : Conn) :
    (c.onChannel Channel.enableReading).channel.isWriting = c.channel.isWriting := by
  have hev := updateChannel_events c.poller ()
    { c.channel with events := c.channel.events|||kReadEvent }
  have hd : kReadEvent&&&kWriteEvent = 0#32 := by decide
  rw [Channel.isWriting,Channel.isWriting]
  refine (congrArg (·&&&kWriteEvent != 0) hev).trans ?_
  dsimp only
  rw [BitVec.and_or_distrib_right,hd,BitVec.or_zero]

structure Aside (c d : Conn) : Prop where
  state : d.state ≠ .kDisconnecting
  alive : d.state ≠ .kDisconnected → c.state ≠ .kDisconnected
  writing : d.state ≠ .kDisconnected → d.channel.isWriting = c.channel.isWriting
  output : d.outputBuffer = c.outputBuffer
  accepted : d.accepted = c.accepted
  complete : ∀ n, .writeComplete n∈d.trace → .writeComplete n∈c.trace

theorem Echoing.aside {smooth : Prop} (h : Echoing sockfd smooth c) (hlife : Alive sockfd d)
    (ha : Aside c d) (hi : SameInput c d) : Echoing sockfd smooth d := by
  refine ⟨hlife,ha.state,?_,fun n hn => h.complete n (ha.complete n hn),?_,?_⟩
  · intro hs
    rw [ha.writing hs,ha.output]
    exact h.writing (ha.alive hs)
  · rw [Accounted,ha.accepted,ha.output,hi.buffer,hi.received]
    exact h.accounted
  · intro hp hs
    rw [hi.buffer]
    exact h.drained hp (ha.alive hs)

theorem connecting_of_pending {s : Stage} {fs : List Functor} (h : At sockfd s c)
    (hp : c.pendingFunctors = .connectEstablished::fs) : c.state = .kConnecting := by
  have hpending := h.pending
  have hstate := h.state
  rw [hp] at hpending
  cases s with
  | queued => exact hstate
  | added => exact hstate
  | established => exact absurd (hpending _ List.mem_cons_self) (by simp [Stage.Side])
  | closing => exact absurd (hpending.2 _ List.mem_cons_self) (by simp [Stage.Side])
  | gone => exact absurd (hpending _ List.mem_cons_self) (by simp [Stage.Side])

theorem runFunctor_aside (h : Echoing sockfd smooth c) :
    ∃ d, (c.runFunctor defaultConnectionCallback).Returns d ∧ Aside c d := by
  obtain ⟨s,hat⟩ := h.life
  rw [runFunctor]
  cases hp : c.pendingFunctors with
  | nil => exact ⟨c,Prog.returns_self c,h.state,id,fun _ => rfl,rfl,rfl,fun _ => id⟩
  | cons f fs =>
    cases f with
    | addConnectInLoop =>
      exact ⟨_,Prog.returns_self _,h.state,id,fun _ => rfl,rfl,rfl,by simp [addConnectInLoop,act]⟩
    | connectEstablished =>
      have hs := connecting_of_pending hat hp
      dsimp only
      rw [connectEstablished]
      rw [check_pos .connectEstablished hs]
      refine ⟨_,Prog.returns_self _,by simp [onChannel,setState,act],fun _ => by simp [hs],?_,rfl,
        rfl,?_⟩
      · exact fun _ => enableReading_writing _
      · simp [onChannel,setState,act]
    | writeCompleteCallback =>
      exact ⟨_,Prog.returns_self _,h.state,id,fun _ => rfl,rfl,rfl,fun _ => id⟩
    | forceCloseInLoop =>
      dsimp only
      rw [forceCloseInLoop]
      by_cases hs : c.state = .kConnected ∨ c.state = .kDisconnecting
      · rw [if_pos hs,handleClose]
        rw [check_pos .handleClose hs]
        refine ⟨_,Prog.returns_self _,?_⟩
        refine ⟨by simp [closeCallback,removeConnectionInLoop,rmConnectInLoop,queueInLoop,act,
          onChannel,setState],fun hd => absurd rfl hd,fun hd => absurd rfl hd,rfl,rfl,?_⟩
        simp [closeCallback,removeConnectionInLoop,rmConnectInLoop,queueInLoop,act,onChannel,
          setState]
      · rw [if_neg hs]
        exact ⟨_,Prog.returns_self _,h.state,id,fun _ => rfl,rfl,rfl,fun _ => id⟩
    | connectDestroyed =>
      dsimp only
      rw [connectDestroyed,disconnect]
      by_cases hs : (({ c with pendingFunctors := fs } : Conn).act
          (.connectDestroyed c.state)).state = .kConnected
      · rw [if_pos hs]
        refine ⟨_,(Prog.returns_self _).bind (Prog.returns_self _),?_⟩
        refine ⟨by simp [act,onChannel,setState],fun hd => absurd rfl hd,
          fun hd => absurd rfl hd,rfl,rfl,?_⟩
        simp [act,onChannel,setState]
      · rw [if_neg hs]
        refine ⟨_,(Prog.returns_self _).bind (Prog.returns_self _),h.state,id,fun _ => rfl,rfl,rfl,
          ?_⟩
        simp [act,onChannel]

theorem defaultConnectionCallback_keeps : Keeps defaultConnectionCallback :=
  fun _ _ _ h => Prog.ensures_pure h

theorem runFunctor_echoing {smooth : Prop} (h : Echoing sockfd smooth c) :
    ∃ d, (c.runFunctor defaultConnectionCallback).Returns d ∧ Echoing sockfd smooth d ∧
      d.received = c.received := by
  obtain ⟨s,hat⟩ := h.life
  obtain ⟨d,hd,ha⟩ := runFunctor_aside h
  have hlife := (runFunctor_ensures defaultConnectionCallback_keeps hat).result hd
  have hi := runFunctor_sameInput hd
  exact ⟨d,hd,h.aside hlife ha hi,hi.received⟩

/-! Runs. -/

def incoming (evs : List ReflectEvent) : Nat := (evs.map ReflectEvent.data).sum

theorem step_echoing {smooth : Prop} {ev : ReflectEvent} (h : Echoing sockfd smooth c)
    (hev : ev.Lawful) (hsum : c.received.length+ev.data+4096 < 2^30) :
    ∃ d, (reflectStep c ev).Returns d ∧ Echoing sockfd (smooth ∧ ev.Smooth) d ∧
      d.received.length ≤ c.received.length+ev.data := by
  cases ev with
  | handleEvent revents answers sent flushed =>
    rw [reflectStep]
    by_cases hreg : c.poller.interest c.channel.fd = none
    · rw [if_pos hreg]
      exact ⟨c,Prog.returns_self c,{ h with drained := fun hp => h.drained hp.1 },by omega⟩
    · rw [if_neg hreg]
      exact handleEvent_echoing h (h.streaming_of_registered hreg) hev.1 hev.2 hsum flushed
  | runFunctor =>
    obtain ⟨d,hd,hecho,hrec⟩ := runFunctor_echoing h
    exact ⟨d,hd,{ hecho with drained := fun hp => hecho.drained hp.1 },by rw [hrec]; omega⟩

theorem run_echoing {smooth : Prop} {evs : List ReflectEvent} (h : Echoing sockfd smooth c)
    (hevs : ∀ ev∈evs, ev.Lawful) (hsum : c.received.length+incoming evs+4096 < 2^30) :
    ∃ d, (reflectRun c evs).Returns d ∧ Echoing sockfd (smooth ∧ ∀ ev∈evs, ev.Smooth) d := by
  induction evs generalizing c smooth with
  | nil => exact ⟨c,Prog.returns_self c,{ h with drained := fun hp => h.drained hp.1 }⟩
  | cons ev evs ih =>
    rw [incoming,List.map_cons,List.sum_cons] at hsum
    obtain ⟨e,he,hecho,hle⟩ := step_echoing h (hevs ev List.mem_cons_self) (by omega)
    obtain ⟨d,hd,hecho'⟩ := ih hecho (fun f hf => hevs f (List.mem_cons_of_mem ev hf))
      (by rw [incoming]; omega)
    refine ⟨d,he.bind hd,{ hecho' with drained := fun hp => hecho'.drained ⟨⟨hp.1,?_⟩,?_⟩ }⟩
    · exact hp.2 ev List.mem_cons_self
    · exact fun f hf => hp.2 f (List.mem_cons_of_mem ev hf)

theorem newConnection_echoing (sockfd : Int) (reading : Bool) (input output : Mem) :
    Echoing sockfd True (newConnection sockfd reading false input output) := by
  have hin := NetBuffer.create_holds (by decide : (1:Int) ≤ 4096) input
  have hout := NetBuffer.create_holds (by decide : (1:Int) ≤ 4096) output
  refine ⟨⟨_,newConnection_at sockfd reading false input output⟩,by simp [newConnection,queueInLoop],
    fun _ => iff_of_false ?_ (not_not.mpr hout.contents_eq),?_,?_,fun _ _ => hin.contents_eq⟩
  · rw [(newConnection_at sockfd reading false input output).not_writing (by simp)]
    simp
  · simp [newConnection,queueInLoop]
  · exact congrArg₂ (· ++ ·) hout.contents_eq hin.contents_eq

/-- The server answers every connection with what it has received, in order, without loss and
without repetition: what the kernel has taken, what still waits for it and what has not been
passed on make up the input. A connection still open watches to write exactly as long as
something waits, and if none of its reads has failed for good everything has been passed on. -/
theorem reflect_echoes (sockfd : Int) (reading : Bool) (input output : Mem)
    (evs : List ReflectEvent) (hevs : ∀ ev∈evs, ev.Lawful) (hsum : incoming evs+4096 < 2^30) :
    ∃ d, (reflectRun (newConnection sockfd reading false input output) evs).Returns d ∧
      d.accepted++d.outputBuffer.contents++d.inputBuffer.contents = d.received ∧
      (d.state = .kConnected → (d.channel.isWriting = true ↔ d.outputBuffer.contents ≠ []) ∧
        ((∀ ev∈evs, ev.Smooth) → d.accepted++d.outputBuffer.contents = d.received)) := by
  obtain ⟨d,hd,hecho⟩ := run_echoing (newConnection_echoing sockfd reading input output) hevs
    (by simp [newConnection,queueInLoop]; omega)
  refine ⟨d,hd,hecho.accounted,fun hs => ⟨hecho.writing (by simp [hs]),fun hsmooth => ?_⟩⟩
  have hall := hecho.accounted
  rw [Accounted,hecho.drained ⟨trivial,hsmooth⟩ (by simp [hs]),List.append_nil] at hall
  exact hall

def twoRounds : List ReflectEvent :=
  [.runFunctor,.runFunctor,
    .handleEvent EPOLLIN [.bytes [65,66,67]] (.accept 2) (.accept 0),
    .handleEvent (EPOLLIN|||EPOLLOUT) [.fail .EINTR,.bytes [68]] (.accept 0) (.accept 9)]

theorem reflect_echoes_twoRounds :
    ∃ d, (reflectRun (newConnection 7 false false (fun _ => 0) (fun _ => 0)) twoRounds).Returns d ∧
      d.accepted++d.outputBuffer.contents++d.inputBuffer.contents = d.received ∧
      (d.state = .kConnected → (d.channel.isWriting = true ↔ d.outputBuffer.contents ≠ []) ∧
        ((∀ ev∈twoRounds, ev.Smooth) → d.accepted++d.outputBuffer.contents = d.received)) := by
  refine reflect_echoes 7 false _ _ twoRounds ?_ (by decide)
  intro ev hev
  simp only [twoRounds,List.mem_cons,List.not_mem_nil,or_false] at hev
  obtain rfl | rfl | rfl | rfl := hev
  · trivial
  · trivial
  · exact ⟨by unfold HangsUpAlone; decide,by simp [NotFatal]⟩
  · exact ⟨by unfold HangsUpAlone; decide,by simp [NotFatal]⟩

end AdlServer.Reflect
