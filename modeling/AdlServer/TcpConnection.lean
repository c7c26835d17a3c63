import AdlServer.Epoller
import AdlServer.NetBuffer

/-! A `TcpConnection` in its loop's thread: its state, its channel and buffers, what
the loop and the server hold of it, and the kernel's side of its socket. In that
thread `runInLoop` runs at once and `queueInLoop` appends. What the user's callbacks
do is a parameter of every handler that runs one. -/
namespace AdlServer.Net
open Program Memory Cpp

inductive StateE where
  | kDisconnected | kConnecting | kConnected | kDisconnecting
  deriving DecidableEq, Repr

/-- What `write` or `sendfile` answers: it takes at most what it is offered. -/
inductive WriteAnswer where
  | accept (n : Nat)
  | fail (e : Errno)
  deriving DecidableEq

inductive Functor where
  | addConnectInLoop | connectEstablished | writeCompleteCallback | forceCloseInLoop
  | connectDestroyed
  deriving DecidableEq, Repr

structure OpenFile where
  content : Bytes
  offset : Nat := 0
  deriving DecidableEq

inductive FileOp where
  | opened | sendfile | read | close
  deriving DecidableEq, Repr

inductive Act where
  | addConnect
  | setState (s : StateE)
  | wrote (s : Bytes)
  | file (op : FileOp) (fd : Int)
  | writeComplete (buffered : Int)
  | shutdownWrite (buffered : Int) (accepted : Bytes)
  | closeCallback
  | connectDestroyed (s : StateE)
  deriving DecidableEq

/-- `reading_` is not initialised. `accepted` and `received` are the socket's bytes
on the kernel's side, `files` the other open descriptors. -/
structure Conn where
  state : StateE := .kConnecting
  reading : Bool
  channel : Channel
  inputBuffer : NetBuffer
  outputBuffer : NetBuffer
  writeCompleteCallback : Bool
  poller : Epoller Unit := {}
  pendingFunctors : List Functor := []
  connectSet : Bool := false
  accepted : Bytes := []
  received : Bytes := []
  files : Int → Option OpenFile := fun _ => none
  trace : List Act := []

def sizeT (x : Int) : Nat := (x%2^64).toNat

theorem sizeT_of_range {x : Int} (h : 0 ≤ x) (h' : x < 2^64) : sizeT x = x.toNat := by
  rw [sizeT]
  omega

theorem sizeT_nat {n : Nat} (h : n < 2^64) : sizeT n = n := by
  rw [sizeT_of_range (Int.natCast_nonneg n) (by omega)]
  exact Int.toNat_natCast n

namespace Conn

def act (c : Conn) (a : Act) : Conn := { c with trace := c.trace++[a] }

def setState (c : Conn) (s : StateE) : Conn := { c with state := s }.act (.setState s)

def queueInLoop (c : Conn) (f : Functor) : Conn :=
  { c with pendingFunctors := c.pendingFunctors++[f] }

def onChannel (c : Conn) (op : Channel → Unit → Epoller Unit → Channel×Epoller Unit) : Conn :=
  let (channel,poller) := op c.channel () c.poller
  { c with channel := channel, poller := poller }

def queueWriteComplete (c : Conn) : Conn :=
  if c.writeCompleteCallback then
    (c.queueInLoop .writeCompleteCallback).act (.writeComplete c.outputBuffer.readable)
  else c

def write (c : Conn) (s : Bytes) (answer : WriteAnswer) : Conn×Except Errno Nat :=
  match answer with
  | .accept n =>
    ({ c with accepted := c.accepted++s.take n }.act (.wrote (s.take n)),.ok (s.take n).length)
  | .fail e => (c.act (.wrote []),.error e)

def sendfile (c : Conn) (inFd : Int) (count : Nat) (answer : WriteAnswer) :
    Conn×Except Errno Nat :=
  let c := c.act (.file .sendfile inFd)
  match c.files inFd,answer with
  | none,_ => (c,.error .EBADF)
  | some _,.fail e => (c,.error e)
  | some f,.accept n =>
    let s := (f.content.drop f.offset).take (min n count)
    let f := { f with offset := f.offset+s.length }
    ({ c with accepted := c.accepted++s, files := Function.update c.files inFd (some f) }.act
      (.wrote s),.ok s.length)

def close (c : Conn) (fd : Int) : Conn :=
  { c with files := Function.update c.files fd none }.act (.file .close fd)

/-! Reading a file with `read` and `pread`. -/

inductive FileAnswer where
  | count (n : Nat)
  | fail (e : Errno)
  deriving DecidableEq

structure FileSource where
  file : Option OpenFile
  answers : List FileAnswer

/-- A read of a file gives at least a byte unless the file ends there; `pread` does
not move the position. -/
def FileSource.read (s : FileSource) (count : Int) (offset : Option Int) :
    FileSource×ReadAnswer :=
  match s.file,s.answers with
  | none,_ => (s,.fail .EBADF)
  | some _,.fail e::answers => ({ s with answers := answers },.fail e)
  | some f,answers =>
    let n := match answers with
      | .count n::_ => min (max 1 n) count.toNat
      | _ => count.toNat
    let got := (f.content.drop ((offset.map Int.toNat).getD f.offset)).take n
    let f := if offset.isNone then { f with offset := f.offset+got.length } else f
    ({ file := some f, answers := answers.tail },.bytes got)

/-! Sending. -/

structure Sent where
  nwrote : Nat := 0
  remaining : Nat
  faultError : Bool := false

def fileMode (message : Option Bytes) (sendFileFd : Int) : Bool :=
  message.isNone && sendFileFd != 0

def messageLen (message : Option Bytes) : Nat := (message.getD []).length

def idle (c : Conn) : Bool := !c.channel.isWriting && c.outputBuffer.readable = 0

def directWrite (c : Conn) (message : Option Bytes) (sendFileFd sendFileSize : Int)
    (answer : WriteAnswer) : Conn×Sent :=
  let (c,nwrote) :=
    if fileMode message sendFileFd then c.sendfile sendFileFd (sizeT sendFileSize) answer
    else c.write (message.getD []) answer
  match nwrote with
  | .ok n =>
    let remaining :=
      if fileMode message sendFileFd then sizeT (sendFileSize-n) else messageLen message-n
    let c := if remaining = 0 then c.queueWriteComplete else c
    (c.close sendFileFd,{ nwrote := n, remaining := remaining })
  | .error e =>
    (c,{ remaining := messageLen message, faultError := e = .EPIPE || e = .ECONNRESET })

def copyFile (c : Conn) (fd : Int) (nwrote : Nat) (reads : List FileAnswer) :
    Prog Fault Conn := do
  let c := c.act (.file .read fd)
  let (_,_,b) ← NetBuffer.readFd FileSource.read
    { file := c.files fd, answers := reads } c.outputBuffer nwrote
  pure ({ c with outputBuffer := b }.close fd)

def copyMessage (c : Conn) (rest : Bytes) : Prog Fault Conn := do
  let b ← c.outputBuffer.append rest
  pure { c with outputBuffer := b }

/-- The second half of `sendInLoop`: what is left goes to the output buffer. -/
def bufferRest (c : Conn) (message : Option Bytes) (sendFileFd : Int) (sent : Sent)
    (reads : List FileAnswer) : Prog Fault Conn := do
  let c ← (if fileMode message sendFileFd then c.copyFile sendFileFd sent.nwrote reads
    else c.copyMessage ((message.getD []).drop sent.nwrote))
  pure (if !c.channel.isWriting then c.onChannel Channel.enableWriting else c)

def sendInLoop (c : Conn) (message : Option Bytes) (sendFileFd sendFileSize : Int)
    (answer : WriteAnswer) (reads : List FileAnswer) : Prog Fault Conn :=
  if c.state = .kDisconnected then pure c
  else do
    let (c,sent) :=
      if c.idle then c.directWrite message sendFileFd sendFileSize answer
      else (c,{ remaining := messageLen message })
    check .sendInLoop (message.isNone ∨ sent.remaining ≤ messageLen message)
    if !sent.faultError && sent.remaining ≠ 0 then c.bufferRest message sendFileFd sent reads
    else pure c

def send (c : Conn) (message : Bytes) (answer : WriteAnswer) : Prog Fault Conn :=
  if c.state = .kConnected then c.sendInLoop (some message) (-1) 0 answer [] else pure c

def sendFile (c : Conn) (fd fileSize : Int) (answer : WriteAnswer) (reads : List FileAnswer) :
    Prog Fault Conn :=
  if fd < 0 then pure c
  else if c.state = .kConnected then c.sendInLoop none fd fileSize answer reads
  else pure c

/-! Closing. -/

def shutdownWriteInLoop (c : Conn) : Conn :=
  if !c.channel.isWriting then c.act (.shutdownWrite c.outputBuffer.readable c.accepted)
  else c

def shutdown (c : Conn) : Conn :=
  if c.state = .kConnected then (c.setState .kDisconnecting).shutdownWriteInLoop else c

def forceClose (c : Conn) : Conn :=
  if c.state = .kConnected ∨ c.state = .kDisconnecting then
    (c.setState .kDisconnecting).queueInLoop .forceCloseInLoop
  else c

def rmConnectInLoop (c : Conn) : Conn := { c with connectSet := false }

def removeConnectionInLoop (c : Conn) : Conn :=
  (c.queueInLoop .connectDestroyed).rmConnectInLoop

def closeCallback (c : Conn) : Conn := (c.act .closeCallback).removeConnectionInLoop

def handleClose (c : Conn) : Prog Fault Conn := do
  check .handleClose (c.state = .kConnected ∨ c.state = .kDisconnecting)
  pure ((c.setState .kDisconnected).onChannel Channel.disableAll).closeCallback

def forceCloseInLoop (c : Conn) : Prog Fault Conn :=
  if c.state = .kConnected ∨ c.state = .kDisconnecting then c.handleClose else pure c

/-! Events. -/

def handleRead (c : Conn) (messageCallback : Conn → Prog Fault Conn)
    (answers : List ReadAnswer) : Prog Fault Conn := do
  let (ret,socket,b) ←
    NetBuffer.readFd NetBuffer.Socket.read { answers := answers } c.inputBuffer 0
  let c := { c with inputBuffer := b, received := c.received++socket.received }
  if ret.writeClosed then c.handleClose
  else if 0 < ret.n then messageCallback c
  else pure c

def flushed (c : Conn) : Conn :=
  let c := (c.onChannel Channel.disableWriting).queueWriteComplete
  if c.state = .kDisconnecting then c.shutdownWriteInLoop else c

def handleWrite (c : Conn) (answer : WriteAnswer) : Prog Fault Conn :=
  if c.channel.isWriting then
    match c.write c.outputBuffer.contents answer with
    | (c,.ok n) =>
      if 0 < n then do
        let b ← c.outputBuffer.retrieve n
        let c := { c with outputBuffer := b }
        pure (if c.outputBuffer.readable = 0 then c.flushed else c)
      else pure c
    | (c,.error _) => pure c
  else pure c

def onHup (c : Conn) (revents : Events) : Prog Fault Conn :=
  if revents&&&EPOLLHUP ≠ 0 ∧ revents&&&EPOLLIN = 0 then c.handleClose else pure c

def onReadable (c : Conn) (messageCallback : Conn → Prog Fault Conn) (revents : Events)
    (answers : List ReadAnswer) : Prog Fault Conn :=
  if revents&&&(EPOLLIN|||EPOLLPRI|||EPOLLRDHUP) ≠ 0 then c.handleRead messageCallback answers
  else pure c

def handleEvent (c : Conn) (messageCallback : Conn → Prog Fault Conn) (revents : Events)
    (answers : List ReadAnswer) (answer : WriteAnswer) : Prog Fault Conn := do
  let c ← c.onHup revents
  let c ← c.onReadable messageCallback revents answers
  if revents&&&EPOLLOUT ≠ 0 then c.handleWrite answer else pure c

def connectEstablished (c : Conn) (connectionCallback : Conn → Prog Fault Conn) :
    Prog Fault Conn := do
  check .connectEstablished (c.state = .kConnecting)
  connectionCallback ((c.setState .kConnected).onChannel Channel.enableReading)

def disconnect (c : Conn) (connectionCallback : Conn → Prog Fault Conn) : Prog Fault Conn :=
  if c.state = .kConnected then
    connectionCallback ((c.setState .kDisconnected).onChannel Channel.disableAll)
  else pure c

def connectDestroyed (c : Conn) (connectionCallback : Conn → Prog Fault Conn) :
    Prog Fault Conn := do
  let c ← (c.act (.connectDestroyed c.state)).disconnect connectionCallback
  pure (c.onChannel Channel.remove)

def addConnectInLoop (c : Conn) : Conn := { c with connectSet := true }.act .addConnect

def startReadInLoop (c : Conn) : Conn :=
  if !c.reading || !c.channel.isReading then
    { c.onChannel Channel.enableReading with reading := true }
  else c

def stopReadInLoop (c : Conn) : Conn :=
  if c.reading || c.channel.isReading then
    { c.onChannel Channel.disableReading with reading := false }
  else c

/-! What user code may do with a connection, and the steps of a run. -/

/-- A call from the loop's thread, with the kernel's answers to it. The last ones
are for the input buffer and for files of the user's own. -/
inductive UserCall where
  | send (message : Bytes) (answer : WriteAnswer)
  | sendFile (fd fileSize : Int) (answer : WriteAnswer) (reads : List FileAnswer)
  | shutdown
  | forceClose
  | startRead
  | stopRead
  | retrieve (len : Int)
  | retrieveAll
  | xopen (fd : Int) (content : Bytes)

def UserCall.apply (c : Conn) : UserCall → Prog Fault Conn
  | .send message answer => c.send message answer
  | .sendFile fd fileSize answer reads => c.sendFile fd fileSize answer reads
  | .shutdown => pure c.shutdown
  | .forceClose => pure c.forceClose
  | .startRead => pure c.startReadInLoop
  | .stopRead => pure c.stopReadInLoop
  | .retrieve len => do
    let b ← c.inputBuffer.retrieve len
    pure { c with inputBuffer := b }
  | .retrieveAll => pure { c with inputBuffer := c.inputBuffer.retrieveAll }
  | .xopen fd content =>
    if 0 ≤ fd ∧ fd ≠ c.channel.fd ∧ c.files fd = none then
      pure ({ c with files := Function.update c.files fd (some { content := content }) }.act
        (.file .opened fd))
    else pure c

def calls (us : List UserCall) (c : Conn) : Prog Fault Conn :=
  match us with
  | [] => pure c
  | u::us => do
    let c ← u.apply c
    calls us c

def runFunctor (c : Conn) (callback : Conn → Prog Fault Conn) : Prog Fault Conn :=
  match c.pendingFunctors with
  | [] => pure c
  | f::fs =>
    let c := { c with pendingFunctors := fs }
    match f with
    | .addConnectInLoop => pure c.addConnectInLoop
    | .connectEstablished => c.connectEstablished callback
    | .writeCompleteCallback => callback c
    | .forceCloseInLoop => c.forceCloseInLoop
    | .connectDestroyed => c.connectDestroyed callback

inductive Event where
  | call (u : UserCall)
  | handleWrite (answer : WriteAnswer)
  | handleEvent (revents : Events) (answers : List ReadAnswer) (us : List UserCall)
    (answer : WriteAnswer)
  | runFunctor (us : List UserCall)

/-- An event is handled only while the channel is registered. -/
def step (c : Conn) : Event → Prog Fault Conn
  | .call u => u.apply c
  | .handleWrite answer => c.handleWrite answer
  | .handleEvent revents answers us answer =>
    if c.poller.interest c.channel.fd = none then pure c
    else c.handleEvent (calls us) revents answers answer
  | .runFunctor us => c.runFunctor (calls us)

def run (c : Conn) : List Event → Prog Fault Conn
  | [] => pure c
  | e::es => do
    let c ← c.step e
    run c es

/-- `TcpServer::newConnection`: both tasks are queued on the sub-loop. -/
def newConnection (sockfd : Int) (reading writeCompleteCallback : Bool)
    (input output : Mem) : Conn :=
  let c : Conn := {
    reading := reading
    channel := { fd := sockfd }
    inputBuffer := .create 4096 input
    outputBuffer := .create 4096 output
    writeCompleteCallback := writeCompleteCallback }
  (c.queueInLoop .addConnectInLoop).queueInLoop .connectEstablished

section
variable {P : Conn → Prop} {c : Conn}

theorem directWrite_rule {message : Option Bytes} {fd size : Int} {answer : WriteAnswer}
    (hsend : P (c.sendfile fd (sizeT size) answer).1)
    (hwrite : P (c.write (message.getD []) answer).1)
    (hqueue : ∀ d, P d → P d.queueWriteComplete) (hclose : ∀ d, P d → P (d.close fd)) :
    P (c.directWrite message fd size answer).1 := by
  have hw : P (if fileMode message fd then c.sendfile fd (sizeT size) answer
      else c.write (message.getD []) answer).1 := by
    by_cases hm : fileMode message fd
    · rw [if_pos hm]
      exact hsend
    · rw [if_neg hm]
      exact hwrite
  rw [directWrite]
  generalize (if fileMode message fd then c.sendfile fd (sizeT size) answer
    else c.write (message.getD []) answer) = r at hw ⊢
  obtain ⟨d,nwrote⟩ := r
  cases nwrote with
  | error e => exact hw
  | ok n =>
    refine hclose _ ?_
    generalize (if fileMode message fd then sizeT (size-n) else messageLen message-n) = rest
    by_cases hrest : rest = 0
    · rw [if_pos hrest]
      exact hqueue d hw
    · rw [if_neg hrest]
      exact hw

theorem handleWrite_rule {answer : WriteAnswer} (hidle : P c)
    (hwrite : P (c.write c.outputBuffer.contents answer).1)
    (hbuffer : ∀ d b, P d → P { d with outputBuffer := b })
    (hflushed : ∀ d, P d → P d.flushed) :
    Prog.Ensures (c.handleWrite answer) P fun _ => True := by
  rw [handleWrite]
  by_cases hw : c.channel.isWriting
  · rw [if_pos hw]
    generalize c.write c.outputBuffer.contents answer = r at hwrite ⊢
    obtain ⟨d,nwrote⟩ := r
    cases nwrote with
    | error e => exact Prog.ensures_pure hwrite
    | ok n =>
      dsimp only
      by_cases hn : 0 < n
      · rw [if_pos hn]
        refine (Prog.ensures_true _).bind fun b _ => Prog.ensures_pure ?_
        have hb := hbuffer d b hwrite
        by_cases hr : b.readable = 0
        · rw [if_pos hr]
          exact hflushed _ hb
        · rw [if_neg hr]
          exact hb
      · rw [if_neg hn]
        exact Prog.ensures_pure hwrite
  · rw [if_neg hw]
    exact Prog.ensures_pure hidle

end

end Conn
end AdlServer.Net
