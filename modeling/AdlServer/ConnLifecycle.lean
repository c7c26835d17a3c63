import AdlServer.BufferRefinement
import AdlServer.TcpConnection

/-! The life of a connection, in five stages: queued, added to the loop, established,
closing, gone. -/
namespace AdlServer.Net
open Program Memory Cpp

def states (t : List Act) : List StateE := t.filterMap fun
  | .setState s => some s
  | _ => none

def destroyed (t : List Act) : List StateE := t.filterMap fun
  | .connectDestroyed s => some s
  | _ => none

def adds (t : List Act) : Nat := t.count .addConnect

def closes (t : List Act) : Nat := t.count .closeCallback

inductive Stage where
  | queued | added | established | closing | gone
  deriving DecidableEq

namespace Stage

def inSet : Stage → Bool
  | .added | .established => true
  | _ => false

def status : Stage → Status
  | .queued | .added => .INIT
  | .established => .LISTEN
  | .closing => .NOT_LISTEN
  | .gone => .DELETED

def State : Stage → StateE → Prop
  | .queued,s | .added,s => s = .kConnecting
  | .established,s => s = .kConnected ∨ s = .kDisconnecting
  | .closing,s | .gone,s => s = .kDisconnected

/-- A functor that may wait without being the next step of the life. -/
def Side (f : Functor) : Prop := f = .writeCompleteCallback ∨ f = .forceCloseInLoop

def Pending : Stage → List Functor → Prop
  | .queued,fs => fs = [.addConnectInLoop,.connectEstablished]
  | .added,fs => fs = [.connectEstablished]
  | .established,fs | .gone,fs => ∀ f∈fs, Side f
  | .closing,fs => fs.count .connectDestroyed = 1 ∧ ∀ f∈fs, Side f ∨ f = .connectDestroyed

def Mask : Stage → Channel → Prop
  | .established,c => c.isReading = true
  | _,c => c.noEvent = true

def Story : Stage → List Act → Prop
  | .queued,t => adds t = 0 ∧ closes t = 0 ∧ destroyed t = [] ∧ .kDisconnected∉states t
  | .added,t | .established,t =>
    adds t = 1 ∧ closes t = 0 ∧ destroyed t = [] ∧ .kDisconnected∉states t
  | .closing,t => adds t = 1 ∧ closes t = 1 ∧ destroyed t = [] ∧
    ∃ before, states t = before++[.kDisconnected] ∧ .kDisconnected∉before
  | .gone,t => adds t = 1 ∧ closes t = 1 ∧ destroyed t = [.kDisconnected] ∧
    ∃ before, states t = before++[.kDisconnected] ∧ .kDisconnected∉before

end Stage

structure At (sockfd : Int) (s : Stage) (c : Conn) : Prop where
  fd : c.channel.fd = sockfd
  agrees : Agrees c.poller () c.channel
  input : c.inputBuffer.Wf
  output : c.outputBuffer.Wf
  state : s.State c.state
  last : (states c.trace).getLastD .kConnecting = c.state
  pending : s.Pending c.pendingFunctors
  connectSet : c.connectSet = s.inSet
  status : c.channel.status = s.status
  mask : s.Mask c.channel
  story : s.Story c.trace

section
variable {c : Conn} {s : Stage} {sockfd : Int}

theorem At.not_open (h : At sockfd s c) (hs : s ≠ .established) :
    ¬ (c.state = .kConnected ∨ c.state = .kDisconnecting) := by
  have connecting (he : c.state = .kConnecting) :
      ¬ (c.state = .kConnected ∨ c.state = .kDisconnecting) := by simp [he]
  have disconnected (he : c.state = .kDisconnected) :
      ¬ (c.state = .kConnected ∨ c.state = .kDisconnecting) := by simp [he]
  cases s with
  | established => exact absurd rfl hs
  | queued => exact connecting h.state
  | added => exact connecting h.state
  | closing => exact disconnected h.state
  | gone => exact disconnected h.state

theorem At.established_of_open (h : At sockfd s c)
    (hs : c.state = .kConnected ∨ c.state = .kDisconnecting) : s = .established := by
  by_contra hne
  exact h.not_open hne hs

theorem At.not_writing (h : At sockfd s c) (hs : s ≠ .established) :
    c.channel.isWriting = false := by
  apply Channel.isWriting_of_noEvent
  have := h.mask
  cases s with
  | established => exact absurd rfl hs
  | queued => exact this
  | added => exact this
  | closing => exact this
  | gone => exact this

end

def Spared (e : Fault) : Prop :=
  e ≠ .assertion .connectEstablished ∧ e ≠ .assertion .handleClose

namespace Conn
variable {c : Conn} {s : Stage} {sockfd : Int}

section
variable (t u : List Act)

@[simp] theorem states_append : states (t++u) = states t++states u := List.filterMap_append
@[simp] theorem destroyed_append : destroyed (t++u) = destroyed t++destroyed u :=
  List.filterMap_append
@[simp] theorem adds_append : adds (t++u) = adds t+adds u := List.count_append
@[simp] theorem closes_append : closes (t++u) = closes t+closes u := List.count_append

end

def Plain : Act → Prop
  | .wrote _ | .file _ _ | .writeComplete _ | .shutdownWrite _ _ => True
  | _ => False

theorem plain_story {a : Act} (ha : Plain a) :
    states [a] = [] ∧ destroyed [a] = [] ∧ adds [a] = 0 ∧ closes [a] = 0 := by
  cases a with
  | wrote s => exact ⟨rfl,rfl,rfl,rfl⟩
  | file op fd => exact ⟨rfl,rfl,rfl,rfl⟩
  | writeComplete n => exact ⟨rfl,rfl,rfl,rfl⟩
  | shutdownWrite n s => exact ⟨rfl,rfl,rfl,rfl⟩
  | addConnect => exact ha.elim
  | setState s => exact ha.elim
  | closeCallback => exact ha.elim
  | connectDestroyed s => exact ha.elim

theorem act_at (h : At sockfd s c) {a : Act} (ha : Plain a) : At sockfd s (c.act a) := by
  obtain ⟨hs,hd,ha,hc⟩ := plain_story ha
  refine { h with last := ?_, story := ?_ }
  · simpa [act,hs] using h.last
  · have := h.story
    cases s <;> simpa [act,Stage.Story,hs,hd,ha,hc] using this

theorem disconnecting_at (h : At sockfd .established c) :
    At sockfd .established (c.setState .kDisconnecting) := by
  obtain ⟨ha,hc,hd,hn⟩ := h.story
  refine { h with state := .inr rfl, last := ?_, story := ?_ }
  · simp [setState,act,states]
  · refine ⟨?_,?_,?_,?_⟩
    · simpa [setState,act,adds] using ha
    · simpa [setState,act,closes] using hc
    · simpa [setState,act,destroyed] using hd
    · simpa [setState,act,states] using hn

theorem queue_at (h : At sockfd .established c) {f : Functor} (hf : Stage.Side f) :
    At sockfd .established (c.queueInLoop f) := by
  refine { h with pending := ?_ }
  intro g hg
  cases List.mem_append.mp hg with
  | inl hg => exact h.pending g hg
  | inr hg => rwa [List.mem_singleton.mp hg]

theorem queueWriteComplete_cases {P : Conn → Prop} (h : P c)
    (hq : P ((c.queueInLoop .writeCompleteCallback).act
      (.writeComplete c.outputBuffer.readable))) : P c.queueWriteComplete := by
  unfold queueWriteComplete
  by_cases hw : c.writeCompleteCallback
  · rwa [if_pos hw]
  · rwa [if_neg hw]

theorem queueWriteComplete_at (h : At sockfd .established c) :
    At sockfd .established c.queueWriteComplete :=
  queueWriteComplete_cases h (act_at (queue_at h (.inl rfl)) trivial)

theorem write_at (h : At sockfd s c) (m : Bytes) (answer : WriteAnswer) :
    At sockfd s (c.write m answer).1 := by
  cases answer with
  | accept n =>
    exact @act_at { c with accepted := c.accepted++m.take n } s sockfd { h with } _ trivial
  | fail e => exact act_at h trivial

theorem write_frame (c : Conn) (m : Bytes) (answer : WriteAnswer) :
    (c.write m answer).1.outputBuffer = c.outputBuffer ∧
      ∀ n, (c.write m answer).2 = .ok n → n ≤ m.length := by
  cases answer with
  | fail e => exact ⟨rfl,fun n hn => by cases hn⟩
  | accept k =>
    refine ⟨rfl,fun n hn => ?_⟩
    have := Except.ok.inj hn
    rw [← this]
    exact List.length_take_le' k m

theorem close_at (h : At sockfd s c) (fd : Int) : At sockfd s (c.close fd) :=
  @act_at { c with files := Function.update c.files fd none } s sockfd { h with } _ trivial

theorem sendfile_at (h : At sockfd s c) (fd : Int) (count : Nat) (answer : WriteAnswer) :
    At sockfd s (c.sendfile fd count answer).1 := by
  have hc : At sockfd s (c.act (.file .sendfile fd)) := act_at h trivial
  unfold sendfile
  dsimp only
  generalize c.act (.file .sendfile fd) = c at hc ⊢
  cases hf : c.files fd with
  | none => exact hc
  | some f =>
    cases answer with
    | fail e => exact hc
    | accept n =>
      dsimp only
      refine act_at ?_ trivial
      exact { hc with }

theorem onChannel_at (h : At sockfd .established c)
    {op : Channel → Unit → Epoller Unit → Channel×Epoller Unit} {e : Events}
    (hop : op c.channel () c.poller =
      c.poller.updateChannel () { c.channel with events := e })
    (he : e&&&kReadEvent = c.channel.events&&&kReadEvent) :
    At sockfd .established (c.onChannel op) := by
  obtain ⟨hu,hev⟩ := updateChannel_spec h.agrees e
  have hst := updateChannel_status c.poller () { c.channel with events := e }
  have hread : (c.poller.updateChannel () { c.channel with events := e }).1.isReading = true := by
    have hm : c.channel.isReading = true := h.mask
    rw [Channel.isReading] at hm ⊢
    rwa [hev,he]
  have hno : ({ c.channel with events := e } : Channel).noEvent = false := by
    cases hn : ({ c.channel with events := e } : Channel).noEvent with
    | false => rfl
    | true =>
      have hf := Channel.isReading_of_noEvent hn
      have hm : c.channel.isReading = true := h.mask
      rw [Channel.isReading] at hf hm
      dsimp only at hf
      rw [he,hm] at hf
      cases hf
  rw [onChannel]
  rw [hop]
  refine { h with
    fd := hu.fd.trans h.fd, agrees := hu.agrees, status := ?_, mask := hread }
  rw [hst,hno]
  rfl

theorem enableWriting_at (h : At sockfd .established c) :
    At sockfd .established (c.onChannel Channel.enableWriting) :=
  onChannel_at h rfl (enableWriting_read _)

theorem disableWriting_at (h : At sockfd .established c) :
    At sockfd .established (c.onChannel Channel.disableWriting) :=
  onChannel_at h rfl (disableWriting_read _)

theorem shutdownWriteInLoop_at (h : At sockfd s c) : At sockfd s c.shutdownWriteInLoop := by
  rw [shutdownWriteInLoop]
  by_cases hw : (!c.channel.isWriting) = true
  · rw [if_pos hw]
    exact act_at h trivial
  · rw [if_neg hw]
    exact h

theorem directWrite_at (h : At sockfd .established c) (message : Option Bytes) (fd size : Int)
    (answer : WriteAnswer) : At sockfd .established (c.directWrite message fd size answer).1 :=
  directWrite_rule (sendfile_at h fd _ answer) (write_at h _ answer)
    (fun _ hd => queueWriteComplete_at hd) fun _ hd => close_at hd fd

theorem fileSource_delivers : NetBuffer.Delivers FileSource.read fun _ _ => True := by
  intro s got n offset hn _
  rw [FileSource.read]
  cases s.file with
  | none => trivial
  | some f =>
    have count (k : Nat) (hk : k ≤ n.toNat) (t : Bytes) : (t.take k).length ≤ n := by
      have := List.length_take_le k t
      omega
    cases s.answers with
    | nil => exact ⟨count _ (Nat.le_refl _) _,trivial⟩
    | cons a answers =>
      cases a with
      | fail e => trivial
      | count k => exact ⟨count _ (Nat.min_le_right _ _) _,trivial⟩

theorem copyFile_ensures (h : At sockfd .established c) (fd : Int) (nwrote : Nat)
    (reads : List FileAnswer) :
    Prog.Ensures (c.copyFile fd nwrote reads) (At sockfd .established) fun _ => False := by
  have hc : At sockfd .established (c.act (.file .read fd)) := act_at h trivial
  refine (NetBuffer.readFd_ensures fileSource_delivers _ hc.output trivial).bind ?_
  intro ⟨ret,source,b⟩ ⟨got,_,_,hb⟩
  refine Prog.ensures_pure (close_at ?_ fd)
  exact { hc with output := hb.wf }

theorem copyMessage_ensures (h : At sockfd .established c) (rest : Bytes) :
    Prog.Ensures (c.copyMessage rest) (At sockfd .established) fun _ => False := by
  refine (NetBuffer.append_ensures h.output rest).bind fun b hb => Prog.ensures_pure ?_
  exact { h with output := hb.wf }

theorem bufferRest_ensures (h : At sockfd .established c) (message : Option Bytes) (fd : Int)
    (sent : Sent) (reads : List FileAnswer) :
    Prog.Ensures (c.bufferRest message fd sent reads) (At sockfd .established) fun _ => False := by
  refine Prog.Ensures.bind (Q := At sockfd .established) ?_ fun d hd => Prog.ensures_pure ?_
  · by_cases hm : fileMode message fd
    · rw [if_pos hm]
      exact copyFile_ensures h fd _ reads
    · rw [if_neg hm]
      exact copyMessage_ensures h _
  · by_cases hw : (!d.channel.isWriting) = true
    · rw [if_pos hw]
      exact enableWriting_at hd
    · rw [if_neg hw]
      exact hd

def tryFirst (c : Conn) (message : Option Bytes) (fd size : Int) (answer : WriteAnswer) :
    Conn×Sent :=
  if c.idle then c.directWrite message fd size answer
  else (c,{ remaining := messageLen message })

theorem tryFirst_idle (hi : c.idle = true) (message : Option Bytes) (fd size : Int)
    (answer : WriteAnswer) :
    c.tryFirst message fd size answer = c.directWrite message fd size answer := if_pos hi

theorem tryFirst_busy (hi : ¬ c.idle = true) (message : Option Bytes) (fd size : Int)
    (answer : WriteAnswer) :
    c.tryFirst message fd size answer = (c,{ remaining := messageLen message }) := if_neg hi

def Sent.left (sent : Sent) : Bool := !sent.faultError && sent.remaining ≠ 0

theorem Sent.left_iff {sent : Sent} :
    sent.left = true ↔ sent.faultError = false ∧ sent.remaining ≠ 0 := by
  simp [left]

theorem sendInLoop_eq (hs : c.state ≠ .kDisconnected) (message : Option Bytes) (fd size : Int)
    (answer : WriteAnswer) (reads : List FileAnswer) :
    c.sendInLoop message fd size answer reads =
      check .sendInLoop (message.isNone ∨
          (c.tryFirst message fd size answer).2.remaining ≤ messageLen message) >>= fun _ =>
        if (c.tryFirst message fd size answer).2.left then
          (c.tryFirst message fd size answer).1.bufferRest message fd
            (c.tryFirst message fd size answer).2 reads
        else pure (c.tryFirst message fd size answer).1 := by
  rw [sendInLoop]
  rw [if_neg hs]
  rfl

theorem sendInLoop_halves {Q : Conn → Prop} {E : Fault → Prop} (hs : c.state ≠ .kDisconnected)
    {message : Option Bytes} {fd size : Int} {answer : WriteAnswer} {reads : List FileAnswer}
    (hE : E (.assertion .sendInLoop))
    (hleft : (c.tryFirst message fd size answer).2.left = true →
      Prog.Ensures ((c.tryFirst message fd size answer).1.bufferRest message fd
        (c.tryFirst message fd size answer).2 reads) Q E)
    (hdone : (c.tryFirst message fd size answer).2.left = false →
      Q (c.tryFirst message fd size answer).1) :
    Prog.Ensures (c.sendInLoop message fd size answer reads) Q E := by
  rw [sendInLoop_eq hs]
  refine (ensures_check .sendInLoop fun _ => hE).bind fun _ _ => ?_
  cases hl : (c.tryFirst message fd size answer).2.left with
  | true => exact hleft hl
  | false => exact Prog.ensures_pure (hdone hl)

theorem tryFirst_at (h : At sockfd .established c) (message : Option Bytes) (fd size : Int)
    (answer : WriteAnswer) : At sockfd .established (c.tryFirst message fd size answer).1 := by
  by_cases hi : c.idle
  · rw [tryFirst_idle hi]
    exact directWrite_at h message fd size answer
  · rw [tryFirst_busy hi]
    exact h

theorem sendInLoop_ensures (h : At sockfd .established c) (message : Option Bytes) (fd size : Int)
    (answer : WriteAnswer) (reads : List FileAnswer) :
    Prog.Ensures (c.sendInLoop message fd size answer reads) (At sockfd .established) Spared := by
  by_cases hd : c.state = .kDisconnected
  · rw [sendInLoop]
    rw [if_pos hd]
    exact Prog.ensures_pure h
  · have hw := tryFirst_at h message fd size answer
    refine sendInLoop_halves hd ⟨by simp,by simp⟩ (fun _ => ?_) fun _ => hw
    exact (bufferRest_ensures hw message fd _ reads).mono (fun _ => id) fun _ => False.elim

theorem shutdown_at (h : At sockfd s c) : At sockfd s c.shutdown := by
  rw [shutdown]
  by_cases hc : c.state = .kConnected
  · rw [if_pos hc]
    cases h.established_of_open (.inl hc)
    exact shutdownWriteInLoop_at (disconnecting_at h)
  · rw [if_neg hc]
    exact h

theorem forceClose_at (h : At sockfd s c) : At sockfd s c.forceClose := by
  rw [forceClose]
  by_cases hc : c.state = .kConnected ∨ c.state = .kDisconnecting
  · rw [if_pos hc]
    cases h.established_of_open hc
    exact queue_at (disconnecting_at h) (.inr rfl)
  · rw [if_neg hc]
    exact h

def Allowed : UserCall → Prop
  | .startRead | .stopRead => False
  | .retrieve len => 0 ≤ len
  | _ => True

theorem apply_ensures {u : UserCall} (hu : Allowed u) (h : At sockfd s c) :
    Prog.Ensures (u.apply c) (At sockfd s) Spared := by
  have inOpen {message : Option Bytes} {fd size : Int} {answer : WriteAnswer}
      {reads : List FileAnswer} : Prog.Ensures
        (if c.state = .kConnected then c.sendInLoop message fd size answer reads else pure c)
        (At sockfd s) Spared := by
    by_cases hc : c.state = .kConnected
    · rw [if_pos hc]
      cases h.established_of_open (.inl hc)
      exact sendInLoop_ensures h _ _ _ _ _
    · rw [if_neg hc]
      exact Prog.ensures_pure h
  cases u with
  | send message answer => exact inOpen
  | sendFile fd size answer reads =>
    change Prog.Ensures (c.sendFile fd size answer reads) _ _
    rw [sendFile]
    by_cases hfd : fd < 0
    · rw [if_pos hfd]
      exact Prog.ensures_pure h
    · rw [if_neg hfd]
      exact inOpen
  | shutdown => exact Prog.ensures_pure (shutdown_at h)
  | forceClose => exact Prog.ensures_pure (forceClose_at h)
  | startRead => exact hu.elim
  | stopRead => exact hu.elim
  | retrieve len =>
    refine ((NetBuffer.retrieve_ensures h.input hu).mono (fun _ => id) ?_).bind fun b hb => ?_
    · intro e he
      rw [he]
      exact ⟨by simp,by simp⟩
    · refine Prog.ensures_pure ?_
      exact { h with input := hb.wf }
  | retrieveAll =>
    refine Prog.ensures_pure ?_
    exact { h with input := (NetBuffer.retrieveAll_holds h.input).wf }
  | xopen fd content =>
    change Prog.Ensures (if 0 ≤ fd ∧ fd ≠ c.channel.fd ∧ c.files fd = none then _ else _) _ _
    by_cases hfd : 0 ≤ fd ∧ fd ≠ c.channel.fd ∧ c.files fd = none
    · rw [if_pos hfd]
      refine Prog.ensures_pure (act_at ?_ trivial)
      exact { h with }
    · rw [if_neg hfd]
      exact Prog.ensures_pure h

theorem calls_ensures {us : List UserCall} (hus : ∀ u∈us, Allowed u) (h : At sockfd s c) :
    Prog.Ensures (calls us c) (At sockfd s) Spared := by
  induction us generalizing c with
  | nil => exact Prog.ensures_pure h
  | cons u us ih =>
    refine (apply_ensures (hus u List.mem_cons_self) h).bind fun d hd => ?_
    exact ih (fun v hv => hus v (List.mem_cons_of_mem u hv)) hd

theorem count_side {fs : List Functor} (h : ∀ f∈fs, Stage.Side f) :
    fs.count .connectDestroyed = 0 := by
  apply List.count_eq_zero.mpr
  intro hm
  cases h _ hm with
  | inl he => cases he
  | inr he => cases he

theorem handleClose_ensures (h : At sockfd .established c) :
    Prog.Ensures c.handleClose (At sockfd .closing) Spared := by
  obtain ⟨hadd,hclose,hdest,hstates⟩ := h.story
  obtain ⟨hu,hev⟩ := updateChannel_spec h.agrees kNoneEvent
  have hno : (c.poller.updateChannel () { c.channel with events := kNoneEvent }).1.noEvent =
      true := by
    rw [Channel.noEvent]
    rw [hev]
    rfl
  have hopen : c.state = .kConnected ∨ c.state = .kDisconnecting := h.state
  rw [handleClose]
  rw [check_pos .handleClose hopen]
  refine Prog.Ensures.bind (Prog.ensures_pure (Q := fun _ => True) trivial) fun _ _ => ?_
  refine Prog.ensures_pure ⟨hu.fd.trans h.fd,hu.agrees,h.input,h.output,rfl,?_,?_,rfl,?_,hno,?_⟩
  · simp [closeCallback,removeConnectionInLoop,rmConnectInLoop,queueInLoop,act,onChannel,
      setState,states]
  · constructor
    · simp [closeCallback,removeConnectionInLoop,rmConnectInLoop,queueInLoop,act,onChannel,
        setState,count_side h.pending]
    · intro f hf
      cases List.mem_append.mp hf with
      | inl hf => exact .inl (h.pending f hf)
      | inr hf => exact .inr (List.mem_singleton.mp hf)
  · have hst := updateChannel_status c.poller () { c.channel with events := kNoneEvent }
    have hl : c.channel.status = .LISTEN := h.status
    rw [hl] at hst
    exact hst
  · refine ⟨?_,?_,?_,states c.trace,?_,hstates⟩
    · simpa [closeCallback,removeConnectionInLoop,rmConnectInLoop,queueInLoop,act,onChannel,
        setState,adds] using hadd
    · simpa [closeCallback,removeConnectionInLoop,rmConnectInLoop,queueInLoop,act,onChannel,
        setState,closes] using hclose
    · simpa [closeCallback,removeConnectionInLoop,rmConnectInLoop,queueInLoop,act,onChannel,
        setState,destroyed] using hdest
    · simp [closeCallback,removeConnectionInLoop,rmConnectInLoop,queueInLoop,act,onChannel,
        setState,states]

def Alive (sockfd : Int) (c : Conn) : Prop := ∃ s, At sockfd s c

theorem Alive.of_at {p : Prog Fault Conn} (h : Prog.Ensures p (At sockfd s) Spared) :
    Prog.Ensures p (Alive sockfd) Spared := h.mono (fun _ hd => ⟨s,hd⟩) fun _ => id

theorem forceCloseInLoop_ensures (h : At sockfd s c) :
    Prog.Ensures c.forceCloseInLoop (Alive sockfd) Spared := by
  rw [forceCloseInLoop]
  by_cases hc : c.state = .kConnected ∨ c.state = .kDisconnecting
  · rw [if_pos hc]
    cases h.established_of_open hc
    exact Alive.of_at (handleClose_ensures h)
  · rw [if_neg hc]
    exact Prog.ensures_pure ⟨s,h⟩

section
variable {callback : Conn → Prog Fault Conn}

def Keeps (callback : Conn → Prog Fault Conn) : Prop :=
  ∀ sockfd s c, At sockfd s c → Prog.Ensures (callback c) (At sockfd s) Spared

theorem handleRead_ensures (hcb : Keeps callback) (answers : List ReadAnswer)
    (h : At sockfd .established c) :
    Prog.Ensures (c.handleRead callback answers) (Alive sockfd) Spared := by
  have hfresh : NetBuffer.Socket.Received { answers := answers } [] := ⟨rfl,by simp⟩
  refine ((NetBuffer.readFd_ensures NetBuffer.Socket.delivers 0 h.input hfresh).mono
    (fun _ => id) fun _ => False.elim).bind ?_
  intro ⟨ret,socket,b⟩ ⟨got,_,_,hb⟩
  have hc : At sockfd .established
      { c with inputBuffer := b, received := c.received++socket.received } :=
    { h with input := hb.wf }
  dsimp only
  by_cases hw : ret.writeClosed
  · rw [if_pos hw]
    exact Alive.of_at (handleClose_ensures hc)
  · rw [if_neg hw]
    by_cases hn : 0 < ret.n
    · rw [if_pos hn]
      exact Alive.of_at (hcb _ _ _ hc)
    · rw [if_neg hn]
      exact Prog.ensures_pure ⟨_,hc⟩

theorem flushed_at (h : At sockfd .established c) : At sockfd .established c.flushed := by
  have hc := queueWriteComplete_at (disableWriting_at h)
  unfold flushed
  dsimp only
  split_ifs
  · exact shutdownWriteInLoop_at hc
  · exact hc

theorem handleWrite_ensures (answer : WriteAnswer) (h : At sockfd s c) :
    Prog.Ensures (c.handleWrite answer) (At sockfd s) Spared := by
  rw [handleWrite]
  by_cases hw : c.channel.isWriting
  · have hs : s = .established := by
      by_contra hne
      rw [h.not_writing hne] at hw
      cases hw
    subst hs
    rw [if_pos hw]
    have hd := write_at h c.outputBuffer.contents answer
    obtain ⟨hout,hfit⟩ := write_frame c c.outputBuffer.contents answer
    have hlen := h.output.length_contents
    generalize c.write c.outputBuffer.contents answer = r at hd hout hfit ⊢
    obtain ⟨d,nwrote⟩ := r
    cases nwrote with
    | error e => exact Prog.ensures_pure hd
    | ok n =>
      have hn := hfit n rfl
      dsimp only at hd hout ⊢
      by_cases hpos : 0 < n
      · rw [if_pos hpos]
        obtain ⟨b,hb,hh⟩ := NetBuffer.retrieve_returns hd.output (by omega : 0 ≤ (n:Int))
          (by rw [hout]; omega)
        intro o ho
        rw [hb.ends_bind] at ho
        have hd' : At sockfd .established { d with outputBuffer := b } :=
          { hd with output := hh.wf }
        refine Prog.ensures_pure ?_ o ho
        split_ifs
        · exact flushed_at hd'
        · exact hd'
      · rw [if_neg hpos]
        exact Prog.ensures_pure hd
  · rw [if_neg hw]
    exact Prog.ensures_pure h

/-- A hang-up without input comes without urgent data and without the end of the peer's, as it
does where these come only together with input. -/
def HangsUpAlone (revents : Events) : Prop :=
  revents&&&EPOLLHUP ≠ 0 → revents&&&EPOLLIN = 0 →
    revents&&&EPOLLPRI = 0 ∧ revents&&&EPOLLRDHUP = 0

theorem not_readable {revents : Events} (h : HangsUpAlone revents)
    (hhup : revents&&&EPOLLHUP ≠ 0 ∧ revents&&&EPOLLIN = 0) :
    revents&&&(EPOLLIN|||EPOLLPRI|||EPOLLRDHUP) = 0 := by
  obtain ⟨hpri,hrdhup⟩ := h hhup.1 hhup.2
  rw [BitVec.and_or_distrib_left,BitVec.and_or_distrib_left,hhup.2,hpri,hrdhup]
  rfl

theorem handleEvent_ensures (hcb : Keeps callback) {revents : Events}
    (hrev : HangsUpAlone revents) (answers : List ReadAnswer) (answer : WriteAnswer)
    (h : At sockfd .established c) :
    Prog.Ensures (c.handleEvent callback revents answers answer) (Alive sockfd) Spared := by
  have write {d : Conn} (hd : Alive sockfd d) : Prog.Ensures
      (if revents&&&EPOLLOUT ≠ 0 then d.handleWrite answer else pure d)
      (Alive sockfd) Spared := by
    obtain ⟨s,hd⟩ := hd
    by_cases hout : revents&&&EPOLLOUT ≠ 0
    · rw [if_pos hout]
      exact Alive.of_at (handleWrite_ensures answer hd)
    · rw [if_neg hout]
      exact Prog.ensures_pure ⟨s,hd⟩
  rw [handleEvent,onHup]
  by_cases hhup : revents&&&EPOLLHUP ≠ 0 ∧ revents&&&EPOLLIN = 0
  · rw [if_pos hhup]
    refine (handleClose_ensures h).bind fun d hd => ?_
    have hread : ¬ revents&&&(EPOLLIN|||EPOLLPRI|||EPOLLRDHUP) ≠ 0 :=
      not_not.mpr (not_readable hrev hhup)
    rw [onReadable]
    rw [if_neg hread]
    exact (Prog.ensures_pure (Q := Alive sockfd) ⟨_,hd⟩).bind fun _ => write
  · rw [if_neg hhup]
    refine (Prog.ensures_pure (Q := At sockfd .established) h).bind fun d hd => ?_
    refine Prog.Ensures.bind (Q := Alive sockfd) ?_ fun _ => write
    rw [onReadable]
    by_cases hread : revents&&&(EPOLLIN|||EPOLLPRI|||EPOLLRDHUP) ≠ 0
    · rw [if_pos hread]
      exact handleRead_ensures hcb answers hd
    · rw [if_neg hread]
      exact Prog.ensures_pure ⟨_,hd⟩

theorem establish_at (h : At sockfd .added c) : At sockfd .established
    (({ c with pendingFunctors := [] } : Conn).setState .kConnected |>.onChannel
      Channel.enableReading) := by
  obtain ⟨ha,hc,hd,hs⟩ := h.story
  obtain ⟨hu,hev⟩ := updateChannel_spec h.agrees (c.channel.events|||kReadEvent)
  have hst := updateChannel_status c.poller ()
    { c.channel with events := c.channel.events|||kReadEvent }
  have hinit : c.channel.status = .INIT := h.status
  rw [hinit] at hst
  have hlisten : (c.poller.updateChannel ()
      { c.channel with events := c.channel.events|||kReadEvent }).1.status = .LISTEN := by
    simpa using hst
  have hread : (c.poller.updateChannel ()
      { c.channel with events := c.channel.events|||kReadEvent }).1.isReading = true := by
    rw [Channel.isReading]
    rw [hev]
    simpa using enableReading_read c.channel.events
  refine ⟨hu.fd.trans h.fd,hu.agrees,h.input,h.output,.inl rfl,?_,?_,h.connectSet,hlisten,
    hread,?_,?_,?_,?_⟩
  · simp [onChannel,setState,act,states]
  · simp [onChannel,setState,act,Stage.Pending]
  · simpa [onChannel,setState,act,adds] using ha
  · simpa [onChannel,setState,act,closes] using hc
  · simpa [onChannel,setState,act,destroyed] using hd
  · simpa [onChannel,setState,act,states] using hs

theorem connectDestroyed_ensures (callback : Conn → Prog Fault Conn) {fs : List Functor}
    (h : At sockfd .closing c) (hside : ∀ f∈fs, Stage.Side f) :
    Prog.Ensures (({ c with pendingFunctors := fs } : Conn).connectDestroyed callback)
      (Alive sockfd) Spared := by
  have hstate : c.state = .kDisconnected := h.state
  obtain ⟨ha,hc,hd,before,hs,hb⟩ := h.story
  obtain ⟨hu,hst⟩ := removeChannel_spec h.agrees
  rw [connectDestroyed,disconnect]
  rw [if_neg (by simp [act,hstate])]
  refine (Prog.ensures_pure (Q := (· = _)) rfl).bind fun d hd' => ?_
  subst hd'
  refine Prog.ensures_pure ⟨.gone,hu.fd.trans h.fd,hu.agrees,h.input,h.output,hstate,?_,hside,
    h.connectSet,hst,?_,?_,?_,?_,before,?_,hb⟩
  · simpa [onChannel,act,states] using h.last
  · exact h.mask
  · simpa [onChannel,act,adds] using ha
  · simpa [onChannel,act,closes] using hc
  · simpa [onChannel,act,destroyed,hstate] using hd
  · simpa [onChannel,act,states] using hs

theorem addConnectInLoop_at {fs : List Functor} (h : At sockfd .queued c)
    (hfs : fs = [.connectEstablished]) :
    At sockfd .added ({ c with pendingFunctors := fs } : Conn).addConnectInLoop := by
  obtain ⟨ha,hc,hd,hs⟩ := h.story
  refine { h with pending := hfs, connectSet := rfl, last := ?_, story := ⟨?_,?_,?_,?_⟩ }
  · simpa [addConnectInLoop,act,states] using h.last
  · simpa [addConnectInLoop,act,adds] using ha
  · simpa [addConnectInLoop,act,closes] using hc
  · simpa [addConnectInLoop,act,destroyed] using hd
  · simpa [addConnectInLoop,act,states] using hs

theorem connectEstablished_ensures (hcb : Keeps callback) {fs : List Functor}
    (h : At sockfd .added c) (hfs : fs = []) :
    Prog.Ensures (({ c with pendingFunctors := fs } : Conn).connectEstablished callback)
      (At sockfd .established) Spared := by
  have hstate : c.state = .kConnecting := h.state
  subst hfs
  rw [connectEstablished]
  rw [check_pos .connectEstablished hstate,Prog.pure_bind]
  exact hcb _ _ _ (establish_at h)

theorem ne_of_side {f : Functor} (hf : Stage.Side f) : f ≠ .connectDestroyed := by
  intro he
  subst he
  cases hf with
  | inl hf => cases hf
  | inr hf => cases hf

theorem side_of_count {fs : List Functor} (hcount : fs.count .connectDestroyed = 0)
    (hall : ∀ f∈fs, Stage.Side f ∨ f = .connectDestroyed) : ∀ f∈fs, Stage.Side f := by
  intro f hf
  cases hall f hf with
  | inl hs => exact hs
  | inr he => exact absurd (he ▸ hf) (List.count_eq_zero.mp hcount)

theorem runFunctor_side (hcb : Keeps callback) {f : Functor} {fs : List Functor}
    (hf : Stage.Side f) (hfs : c.pendingFunctors = f::fs)
    (h : At sockfd s { c with pendingFunctors := fs }) :
    Prog.Ensures (c.runFunctor callback) (Alive sockfd) Spared := by
  rw [runFunctor]
  rw [hfs]
  cases hf with
  | inl hf =>
    subst hf
    exact Alive.of_at (hcb _ _ _ h)
  | inr hf =>
    subst hf
    exact forceCloseInLoop_ensures h

theorem runFunctor_ensures (hcb : Keeps callback) (h : At sockfd s c) :
    Prog.Ensures (c.runFunctor callback) (Alive sockfd) Spared := by
  have hp := h.pending
  cases hfs : c.pendingFunctors with
  | nil =>
    rw [runFunctor]
    rw [hfs]
    exact Prog.ensures_pure ⟨s,h⟩
  | cons f fs =>
    rw [hfs] at hp
    cases s with
    | queued =>
      obtain ⟨hf,hfs'⟩ := List.cons.inj hp
      subst hf
      rw [runFunctor]
      rw [hfs]
      exact Prog.ensures_pure ⟨.added,addConnectInLoop_at h hfs'⟩
    | added =>
      obtain ⟨hf,hfs'⟩ := List.cons.inj hp
      subst hf
      rw [runFunctor]
      rw [hfs]
      exact Alive.of_at (connectEstablished_ensures hcb h hfs')
    | established =>
      exact runFunctor_side hcb (hp f List.mem_cons_self) hfs
        { h with pending := fun g hg => hp g (List.mem_cons_of_mem f hg) }
    | gone =>
      exact runFunctor_side hcb (hp f List.mem_cons_self) hfs
        { h with pending := fun g hg => hp g (List.mem_cons_of_mem f hg) }
    | closing =>
      obtain ⟨hcount,hall⟩ := hp
      have hall' : ∀ g∈fs, Stage.Side g ∨ g = .connectDestroyed :=
        fun g hg => hall g (List.mem_cons_of_mem f hg)
      cases hall f List.mem_cons_self with
      | inl hf =>
        rw [List.count_cons_of_ne (ne_of_side hf)] at hcount
        exact runFunctor_side hcb hf hfs { h with pending := ⟨hcount,hall'⟩ }
      | inr hf =>
        subst hf
        rw [runFunctor]
        rw [hfs]
        exact connectDestroyed_ensures callback h (side_of_count (by simpa using hcount) hall')

end

/-- The events of the life cycle: any handled event but a hang-up that leaves something to
read and no input, any allowed calls, and pending functors in their order. -/
def Lived : Event → Prop
  | .call u => Allowed u
  | .handleWrite _ => True
  | .handleEvent revents _ us _ => HangsUpAlone revents ∧ ∀ u∈us, Allowed u
  | .runFunctor us => ∀ u∈us, Allowed u

theorem step_ensures {e : Event} (he : Lived e) (h : Alive sockfd c) :
    Prog.Ensures (c.step e) (Alive sockfd) Spared := by
  obtain ⟨s,h⟩ := h
  have keeps {us : List UserCall} (hus : ∀ u∈us, Allowed u) : Keeps (calls us) :=
    fun _ _ _ h => calls_ensures hus h
  cases e with
  | call u => exact Alive.of_at (apply_ensures he h)
  | handleWrite answer =>
    exact Alive.of_at (handleWrite_ensures answer h)
  | runFunctor us => exact runFunctor_ensures (keeps he) h
  | handleEvent revents answers us answer =>
    change Prog.Ensures (if c.poller.interest c.channel.fd = none then pure c
      else c.handleEvent (calls us) revents answers answer) _ _
    by_cases hreg : c.poller.interest c.channel.fd = none
    · rw [if_pos hreg]
      exact Prog.ensures_pure ⟨s,h⟩
    · rw [if_neg hreg]
      have hs : s = .established := by
        have hl : c.channel.status = .LISTEN := by
          by_contra hne
          rw [h.agrees.interest,if_neg hne] at hreg
          exact hreg rfl
        rw [h.status] at hl
        cases s with
        | established => rfl
        | queued => cases hl
        | added => cases hl
        | closing => cases hl
        | gone => cases hl
      subst hs
      exact handleEvent_ensures (keeps he.2) he.1 answers answer h

theorem run_ensures {es : List Event} (hes : ∀ e∈es, Lived e) (h : Alive sockfd c) :
    Prog.Ensures (run c es) (Alive sockfd) Spared := by
  induction es generalizing c with
  | nil => exact Prog.ensures_pure h
  | cons e es ih =>
    refine (step_ensures (hes e List.mem_cons_self) h).bind fun d hd => ?_
    exact ih (fun f hf => hes f (List.mem_cons_of_mem e hf)) hd

theorem newConnection_at (sockfd : Int) (reading writeComplete : Bool) (input output : Mem) :
    At sockfd .queued (newConnection sockfd reading writeComplete input output) :=
  ⟨rfl,⟨rfl,rfl,by simp [newConnection,queueInLoop]⟩,
    (NetBuffer.create_holds (by decide) input).wf,
    (NetBuffer.create_holds (by decide) output).wf,rfl,rfl,rfl,rfl,rfl,rfl,
    rfl,rfl,rfl,by simp [newConnection,queueInLoop,states]⟩

/-- What can be said of a connection at any time: `kDisconnected` is the last state it
takes, it is closed and destroyed at most once and in that order, it is in `connectSet_`
from its addition to its close, and destroyed it is gone from poller and kernel. -/
structure Lifecycle (sockfd : Int) (c : Conn) : Prop where
  final : ∀ before after, states c.trace = before++.kDisconnected::after → after = []
  last : (states c.trace).getLastD .kConnecting = c.state
  closed_once : closes c.trace ≤ 1
  destroyed_once : (destroyed c.trace).length ≤ 1
  destroyed_disconnected : ∀ s∈destroyed c.trace, s = .kDisconnected
  connectSet : c.connectSet = true ↔ .addConnect∈c.trace ∧ .closeCallback∉c.trace
  gone : destroyed c.trace ≠ [] → c.channel.status = .DELETED ∧
    c.poller.channels sockfd = none ∧ c.poller.interest sockfd = none

theorem final_of_snoc {l before : List StateE} {x : StateE} (hl : l = before++[x])
    (hx : x∉before) (b a : List StateE) (he : l = b++x::a) : a = [] := by
  rw [hl] at he
  cases List.append_eq_append_iff.mp he with
  | inl he =>
    obtain ⟨y,_,hy⟩ := he
    cases y with
    | nil => exact (List.cons.inj hy).2.symm
    | cons _ y => simp at hy
  | inr he =>
    obtain ⟨y,hy,hz⟩ := he
    cases y with
    | nil => exact (List.cons.inj hz).2
    | cons z y =>
      have hzx := (List.cons.inj hz).1
      exact absurd (by rw [hy,hzx]; simp) hx

theorem disconnected_final (h : At sockfd s c) (before after : List StateE)
    (he : states c.trace = before++.kDisconnected::after) : after = [] := by
  have hstory := h.story
  have never (hs : .kDisconnected∉states c.trace) : after = [] := by
    rw [he] at hs
    simp at hs
  cases s with
  | queued => exact never hstory.2.2.2
  | added => exact never hstory.2.2.2
  | established => exact never hstory.2.2.2
  | closing =>
    obtain ⟨_,_,_,front,hs,hb⟩ := hstory
    exact final_of_snoc hs hb before after he
  | gone =>
    obtain ⟨_,_,_,front,hs,hb⟩ := hstory
    exact final_of_snoc hs hb before after he

theorem lifecycle_of_at (h : At sockfd s c) : Lifecycle sockfd c := by
  have hadd : .addConnect∈c.trace ↔ 0 < adds c.trace := List.count_pos_iff.symm
  have hclose : .closeCallback∉c.trace ↔ closes c.trace = 0 := List.count_eq_zero.symm
  have hstory := h.story
  have hstatus := h.status
  have hch := h.agrees.channels
  have hint := h.agrees.interest
  rw [h.fd] at hch hint
  refine ⟨disconnected_final h,h.last,?_,?_,?_,?_,?_⟩
  · cases s <;> simp [hstory.2.1]
  · cases s <;> simp [hstory.2.2.1]
  · cases s <;> simp [hstory.2.2.1]
  · rw [hadd,hclose,h.connectSet]
    cases s <;> simp [hstory.1,hstory.2.1,Stage.inSet]
  · cases s with
    | queued => simp [hstory.2.2.1]
    | added => simp [hstory.2.2.1]
    | established => simp [hstory.2.2.1]
    | closing => simp [hstory.2.2.1]
    | gone =>
      have hd : c.channel.status = .DELETED := hstatus
      simp [hd,hch,hint]

/-- Over every run of a connection's loop from `newConnection` on, the two assertions
hold and the life is as it should be. -/
theorem conn_lifecycle (sockfd : Int) (reading writeComplete : Bool) (input output : Mem)
    (es : List Event) (hes : ∀ e∈es, Lived e) :
    (∀ e, (run (newConnection sockfd reading writeComplete input output) es).Ends (.error e) →
      e ≠ .assertion .connectEstablished ∧ e ≠ .assertion .handleClose) ∧
    ∀ c, (run (newConnection sockfd reading writeComplete input output) es).Returns c →
      Lifecycle sockfd c := by
  have hrun := run_ensures hes
    ⟨.queued,newConnection_at sockfd reading writeComplete input output⟩
  refine ⟨fun e he => hrun _ he,fun c hc => ?_⟩
  obtain ⟨s,hs⟩ := hrun.result hc
  exact lifecycle_of_at hs

def shortLife : List Event :=
  [.runFunctor [],.runFunctor [.send [1,2] (.accept 1)],.call .forceClose,
    .handleEvent (EPOLLIN|||EPOLLRDHUP|||EPOLLOUT) [.bytes [3,4],.bytes []] [] (.accept 9),
    .runFunctor [],.runFunctor [],.runFunctor []]

theorem conn_lifecycle_short :
    (∀ e, (run (newConnection 5 false true (fun _ => 0) fun _ => 0) shortLife).Ends (.error e) →
      e ≠ .assertion .connectEstablished ∧ e ≠ .assertion .handleClose) ∧
    ∀ c, (run (newConnection 5 false true (fun _ => 0) fun _ => 0) shortLife).Returns c →
      Lifecycle 5 c :=
  conn_lifecycle 5 false true _ _ shortLife
    (by simp [shortLife,Lived,Allowed,HangsUpAlone,EPOLLIN,EPOLLRDHUP,EPOLLPRI,EPOLLHUP,EPOLLOUT])

end Conn
end AdlServer.Net
