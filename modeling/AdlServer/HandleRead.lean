import AdlServer.BufferGrowth
import AdlServer.TcpConnection

/-! `TcpConnection::handleRead`: what becomes of the bytes that one round of reads delivers,
when the round ends with nothing more and when it ends with the end of the stream. -/
namespace AdlServer.Net
open Program Memory Cpp NetBuffer

inductive ReadResult where
  | piece (c : Bytes)
  | interrupted

namespace ReadResult

def answer : ReadResult → ReadAnswer
  | .piece c => .bytes c
  | .interrupted => .fail .EINTR

def bytes : ReadResult → Bytes
  | .piece c => c
  | .interrupted => []

end ReadResult

/-- The answers of a whole round. -/
def roundAnswers (results : List ReadResult) (closed : Bool) : List ReadAnswer :=
  results.map ReadResult.answer++[endAnswer closed]

def roundBytes (results : List ReadResult) : Bytes := results.flatMap ReadResult.bytes

/-- A read gives at least a byte, and no more than `readFd` asks for as it fills `b`. -/
def Granted (b : NetBuffer) : List ReadResult → Prop
  | [] => True
  | .interrupted::results => Granted b results
  | .piece c::results => c ≠ [] ∧ c.length ≤ b.writeable ∧
    ∀ d e, (b.store c).Returns d → d.checkSmall.Returns e → Granted e results

def RoundLeft (closed : Bool) (total : Bytes) (s : Socket) (b : NetBuffer) (rest : Bytes) : Prop :=
  ∃ results, s.answers = roundAnswers results closed ∧ Granted b results ∧
    roundBytes results = rest ∧ s.received++rest = total

theorem socket_feeds (closed : Bool) (total : Bytes) :
    Feeds Socket.read closed (RoundLeft closed total) (fun s => s.received = total)
      fun s => s.answers.length := by
  intro s b rest hwf hrest
  obtain ⟨results,hanswers,hgranted,hbytes,htotal⟩ := hrest
  cases results with
  | nil =>
    refine .ended (Socket.read s b.writeable none).1 ?_ hbytes.symm ?_
    · cases closed <;> simp [Socket.read,hanswers,roundAnswers,endAnswer]
    · have hnil : rest = [] := hbytes.symm
      rw [hnil,List.append_nil] at htotal
      cases closed <;> simp [Socket.read,hanswers,roundAnswers,endAnswer,htotal]
  | cons r results =>
    cases r with
    | interrupted =>
      refine .interrupted (Socket.read s b.writeable none).1 ?_
        ⟨results,?_,hgranted,hbytes,?_⟩ ?_
      · simp [Socket.read,hanswers,roundAnswers,ReadResult.answer]
      · simp [Socket.read,hanswers,roundAnswers,ReadResult.answer]
      · simpa [Socket.read,hanswers,roundAnswers,ReadResult.answer] using htotal
      · simp [Socket.read,hanswers,roundAnswers,ReadResult.answer]
    | piece c =>
      obtain ⟨hne,hfit,hnext⟩ := hgranted
      have htake : c.take b.writeable.toNat = c := List.take_of_length_le (by omega)
      refine .got (Socket.read s b.writeable none).1 c (roundBytes results) ?_ hne hbytes.symm hfit
        (fun d e hd he => ⟨results,?_,hnext d e hd he,rfl,?_⟩) ?_
      · simp [Socket.read,hanswers,roundAnswers,ReadResult.answer,htake]
      · simp [Socket.read,hanswers,roundAnswers,ReadResult.answer]
      · rw [← htotal,← hbytes]
        simp [Socket.read,hanswers,roundAnswers,ReadResult.answer,htake,roundBytes,
          ReadResult.bytes]
      · simp [Socket.read,hanswers,roundAnswers,ReadResult.answer]

theorem readFd_round {b : NetBuffer} {results : List ReadResult} (closed : Bool) (hwf : b.Wf)
    (hgranted : Granted b results)
    (hroom : Growable b.alloc (b.readable+(roundBytes results).length)) :
    ∃ socket b', (readFd Socket.read { answers := roundAnswers results closed } b 0).Returns
        (endReturn closed (roundBytes results).length,socket,b') ∧
      b'.Holds (b.contents++roundBytes results) ∧ socket.received = roundBytes results := by
  have hleft : RoundLeft closed (roundBytes results) { answers := roundAnswers results closed } b
      (roundBytes results) := ⟨results,rfl,hgranted,rfl,rfl⟩
  obtain ⟨socket,b',hret,hh,hdone⟩ := feeds_returns (socket_feeds closed (roundBytes results))
    (s := { source := { answers := roundAnswers results closed }, buffer := b }) hwf hleft
    (.inr hroom)
  refine ⟨socket,b',?_,hh,hdone⟩
  rwa [Int.zero_add] at hret

namespace Conn
variable {c : Conn} {results : List ReadResult} {closed : Bool}

/-- The callback is called first, on all unread bytes, the new ones among them; whatever else
the round brings about comes after it. -/
def CallbackFirst (c : Conn) (results : List ReadResult) (closed : Bool) : Prop :=
  ∃ (d : Conn) (after : Conn → Prog Fault Conn),
    d = { c with inputBuffer := d.inputBuffer, received := c.received++roundBytes results } ∧
    d.inputBuffer.Holds (c.inputBuffer.contents++roundBytes results) ∧
    ∀ (messageCallback : Conn → Prog Fault Conn) (o : Except Fault Conn),
      (c.handleRead messageCallback (roundAnswers results closed)).Ends o ↔
        (messageCallback d >>= after).Ends o

theorem handleRead_open (hwf : c.inputBuffer.Wf) (hgranted : Granted c.inputBuffer results)
    (hne : roundBytes results ≠ [])
    (hroom : Growable c.inputBuffer.alloc (c.inputBuffer.readable+(roundBytes results).length)) :
    c.CallbackFirst results false := by
  obtain ⟨socket,b',hret,hh,hrec⟩ := readFd_round false hwf hgranted hroom
  have hpos : (0:Int) < (roundBytes results).length := by
    have := List.length_pos_iff.mpr hne
    omega
  refine ⟨{ c with inputBuffer := b', received := c.received++roundBytes results },pure,rfl,hh,
    fun messageCallback o => ?_⟩
  rw [handleRead]
  rw [hret.ends_bind]
  rw [Prog.ends_bind_pure]
  simp only [endReturn,hrec,hpos,Bool.false_eq_true,if_false,if_true]

theorem handleRead_closed (hwf : c.inputBuffer.Wf) (hgranted : Granted c.inputBuffer results)
    (hroom : Growable c.inputBuffer.alloc (c.inputBuffer.readable+(roundBytes results).length)) :
    ∃ d : Conn, d.inputBuffer.Holds (c.inputBuffer.contents++roundBytes results) ∧
      ∀ messageCallback o, (c.handleRead messageCallback (roundAnswers results true)).Ends o ↔
        d.handleClose.Ends o := by
  obtain ⟨socket,b',hret,hh,_⟩ := readFd_round true hwf hgranted hroom
  refine ⟨{ c with inputBuffer := b', received := c.received++socket.received },hh,
    fun messageCallback o => ?_⟩
  rw [handleRead]
  rw [hret.ends_bind]
  rfl

theorem handleRead_endless (hwf : c.inputBuffer.Wf) (hgranted : Granted c.inputBuffer results)
    (hne : roundBytes results ≠ [])
    (hroom : ¬ Growable c.inputBuffer.alloc (c.inputBuffer.readable+(roundBytes results).length))
    (messageCallback : Conn → Prog Fault Conn) :
    ¬ (c.handleRead messageCallback (roundAnswers results closed)).Halts := by
  have hleft : RoundLeft closed (roundBytes results) { answers := roundAnswers results closed }
      c.inputBuffer (roundBytes results) := ⟨results,rfl,hgranted,rfl,rfl⟩
  have hendless := feeds_endless (socket_feeds closed (roundBytes results))
    (s := { source := { answers := roundAnswers results closed }, buffer := c.inputBuffer })
    hwf hleft hne hroom
  exact Prog.not_halts_bind hendless _

theorem CallbackFirst.throws (h : c.CallbackFirst results closed) (e : Fault) :
    (c.handleRead (fun _ => Prog.throw e) (roundAnswers results closed)).Ends (.error e) := by
  obtain ⟨d,after,_,_,hends⟩ := h
  exact (hends _ _).mpr (Prog.throws_bind ((Prog.ends_throw e _).mpr rfl) after)

theorem CallbackFirst.growable (h : c.CallbackFirst results closed) (hwf : c.inputBuffer.Wf)
    (hgranted : Granted c.inputBuffer results) (hne : roundBytes results ≠ []) :
    Growable c.inputBuffer.alloc (c.inputBuffer.readable+(roundBytes results).length) := by
  by_contra hroom
  exact handleRead_endless hwf hgranted hne hroom _ ⟨_,h.throws .overrun⟩

theorem not_callbackFirst_closed (hwf : c.inputBuffer.Wf)
    (hgranted : Granted c.inputBuffer results)
    (hroom : Growable c.inputBuffer.alloc (c.inputBuffer.readable+(roundBytes results).length)) :
    ¬ c.CallbackFirst results true := by
  intro h
  obtain ⟨d,_,hclose⟩ := handleRead_closed hwf hgranted hroom
  have h1 := (hclose _ _).mp (h.throws .overrun)
  have h2 := (hclose _ _).mp (h.throws .lengthError)
  cases Prog.Ends.unique h1 h2

/-- What has been read is delivered before anything else happens exactly if the round does
not end with the end of the stream, and the buffer can grow to hold it. -/
theorem handleRead_delivers_iff (hwf : c.inputBuffer.Wf) (hgranted : Granted c.inputBuffer results)
    (hne : roundBytes results ≠ []) :
    c.CallbackFirst results closed ↔ closed = false ∧
      Growable c.inputBuffer.alloc (c.inputBuffer.readable+(roundBytes results).length) := by
  constructor
  · intro h
    have hroom := h.growable hwf hgranted hne
    refine ⟨?_,hroom⟩
    by_contra hclosed
    rw [Bool.not_eq_false] at hclosed
    rw [hclosed] at h
    exact not_callbackFirst_closed hwf hgranted hroom h
  · intro h
    obtain ⟨hopen,hroom⟩ := h
    rw [hopen]
    exact handleRead_open hwf hgranted hne hroom

def reader : Conn where
  state := .kConnected
  reading := true
  channel := { fd := 5 }
  inputBuffer := create 1024 fun _ => 0
  outputBuffer := create 1024 fun _ => 0
  writeCompleteCallback := false

theorem reader_wf : reader.inputBuffer.Wf := (create_holds (by decide) _).wf

theorem reader_granted : Granted reader.inputBuffer [.piece [65]] :=
  ⟨by simp,by decide,fun _ _ _ _ => trivial⟩

theorem reader_growable :
    Growable reader.inputBuffer.alloc (reader.inputBuffer.readable+1) :=
  growable_of_small (by decide) (by decide)

theorem byte_undelivered : ¬ ∀ (c : Conn) (results : List ReadResult) (closed : Bool),
    c.inputBuffer.Wf → Granted c.inputBuffer results → roundBytes results ≠ [] →
    c.CallbackFirst results closed := by
  intro hall
  exact not_callbackFirst_closed reader_wf reader_granted reader_growable
    (hall reader [.piece [65]] true reader_wf reader_granted (by simp [roundBytes,ReadResult.bytes]))

theorem handleRead_delivers_iff_byte :
    reader.CallbackFirst [.piece [65]] false ↔ false = false ∧
      Growable reader.inputBuffer.alloc
        (reader.inputBuffer.readable+(roundBytes [.piece [65]]).length) :=
  handleRead_delivers_iff reader_wf reader_granted (by simp [roundBytes,ReadResult.bytes])

end Conn
end AdlServer.Net
