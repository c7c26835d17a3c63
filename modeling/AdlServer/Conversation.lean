import AdlServer.ResponseFraming
import AdlServer.RejectedConnection

/-! A conversation over one connection of the web server: requests that keep it alive, each in
a round of its own, and what is sent for them. -/
namespace AdlServer.Http
open Program Memory Cpp Net Conn
variable {c d e : Conn} {sockfd : Int} {sys : System} {request : HttpRequest}

/-! Nothing closes the connection. -/

def Unforced (c : Conn) : Prop := .forceCloseInLoop∉c.pendingFunctors

theorem queueWriteComplete_unforced (h : Unforced c) : Unforced c.queueWriteComplete := by
  rw [queueWriteComplete]
  split_ifs
  · simpa [Unforced,queueInLoop,act] using h
  · exact h

theorem write_unforced (h : Unforced c) (m : Bytes) (a : WriteAnswer) :
    Unforced (c.write m a).1 := by
  cases a <;> exact h

theorem sendfile_unforced (h : Unforced c) (fd : Int) (count : Nat) (a : WriteAnswer) :
    Unforced (c.sendfile fd count a).1 := by
  unfold sendfile
  dsimp only
  split <;> exact h

theorem tryFirst_unforced (h : Unforced c) (m : Option Bytes) (fd size : Int) (a : WriteAnswer) :
    Unforced (c.tryFirst m fd size a).1 := by
  rw [tryFirst]
  split_ifs
  · exact directWrite_rule (sendfile_unforced h fd _ a) (write_unforced h _ a)
      (fun _ => queueWriteComplete_unforced) fun _ hd => hd
  · exact h

theorem bufferRest_unforced (h : Unforced c) (m : Option Bytes) (fd : Int) (sent : Sent)
    (reads : List FileAnswer) :
    Prog.Ensures (c.bufferRest m fd sent reads) Unforced fun _ => True := by
  rw [bufferRest]
  refine Prog.Ensures.bind (Q := Unforced) ?_ fun d hd => Prog.ensures_pure ?_
  · split_ifs
    · exact (Prog.ensures_true _).bind fun _ _ => Prog.ensures_pure h
    · exact (Prog.ensures_true _).bind fun _ _ => Prog.ensures_pure h
  · split_ifs <;> exact hd

theorem sendInLoop_unforced (h : Unforced c) (m : Option Bytes) (fd size : Int) (a : WriteAnswer)
    (reads : List FileAnswer) :
    Prog.Ensures (c.sendInLoop m fd size a reads) Unforced fun _ => True := by
  by_cases hs : c.state = .kDisconnected
  · rw [sendInLoop,if_pos hs]
    exact Prog.ensures_pure h
  · have ht := tryFirst_unforced h m fd size a
    exact sendInLoop_halves hs trivial (fun _ => bufferRest_unforced ht m fd _ reads) fun _ => ht

def Mild : UserCall → Prop
  | .forceClose => False
  | _ => True

theorem apply_unforced {u : UserCall} (hu : Mild u) (h : Unforced c) :
    Prog.Ensures (u.apply c) Unforced fun _ => True := by
  cases u with
  | send m a =>
    change Prog.Ensures (c.send m a) _ _
    rw [send]
    split_ifs
    · exact sendInLoop_unforced h _ _ _ _ _
    · exact Prog.ensures_pure h
  | sendFile fd size a reads =>
    change Prog.Ensures (c.sendFile fd size a reads) _ _
    rw [sendFile]
    split_ifs
    · exact Prog.ensures_pure h
    · exact sendInLoop_unforced h _ _ _ _ _
    · exact Prog.ensures_pure h
  | shutdown =>
    refine Prog.ensures_pure ?_
    rw [shutdown,shutdownWriteInLoop]
    split_ifs <;> exact h
  | forceClose => exact hu.elim
  | startRead =>
    refine Prog.ensures_pure ?_
    rw [startReadInLoop]
    split_ifs <;> exact h
  | stopRead =>
    refine Prog.ensures_pure ?_
    rw [stopReadInLoop]
    split_ifs <;> exact h
  | retrieve len => exact (Prog.ensures_true _).bind fun _ _ => Prog.ensures_pure h
  | retrieveAll => exact Prog.ensures_pure h
  | xopen fd content =>
    unfold UserCall.apply
    dsimp only
    split_ifs <;> exact Prog.ensures_pure h

theorem calls_unforced {us : List UserCall} (hus : ∀ u∈us, Mild u) (h : Unforced c) :
    Prog.Ensures (calls us c) Unforced fun _ => True := by
  induction us generalizing c with
  | nil => exact Prog.ensures_pure h
  | cons u us ih =>
    exact (apply_unforced (hus u List.mem_cons_self) h).bind fun d hd =>
      ih (fun v hv => hus v (List.mem_cons_of_mem u hv)) hd

theorem handleWrite_unforced (h : Unforced c) (a : WriteAnswer) :
    Prog.Ensures (c.handleWrite a) Unforced fun _ => True := by
  refine handleWrite_rule (P := fun d => Unforced d) h (write_unforced h _ a) (fun _ _ hd => hd)
    fun d hd => ?_
  have hq : Unforced (d.onChannel Channel.disableWriting).queueWriteComplete :=
    queueWriteComplete_unforced hd
  rw [flushed,shutdownWriteInLoop]
  split_ifs <;> exact hq

/-! One response. -/

def replyBody (sys : System) (request : HttpRequest) : Bytes :=
  if request.line.method = some .GET then sys.page.content else savedText request.line.url

def reply (sys : System) (request : HttpRequest) : Bytes :=
  message request (Cpp.toString (replyBody sys request).length) (replyBody sys request)

/-- The answers of the system to a request that keeps the connection. A page must be there, and
the kernel take it at once behind everything else; a POST may meet any kernel. -/
inductive Answerable (c : Conn) (sys : System) (request : HttpRequest) : Prop where
  | page {size : Int} (hg : GetsFile c sys request size) (hk : TakesFile sys request)
    (he : c.outputBuffer.contents = []) (hfd : sys.page.fd ≠ 0) (hsize : size < 2^31)
  | posted (hm : request.line.method = some .POST) (hhead : NotFatal sys.head)
    (hbody : NotFatal sys.body)

theorem send_carries (h : Streaming sockfd c) {m : Bytes} {a : WriteAnswer} (ha : NotFatal a)
    (hsum : c.outputBuffer.contents.length+m.length < 2^30) :
    ∃ d, (c.send m a).Returns d ∧ Streaming sockfd d ∧ c.Carries d m :=
  (send_ensures h m ha).returns (send_halts h ha (by rw [List.length_drop]; omega))

theorem respond_carries (h : Streaming sockfd c) {r : HttpRespond} (hfd : ¬ (0 < r.fd ∧ 0 < r.size))
    (hsize : r.body.length = sizeT r.size) {head body : WriteAnswer} (hhead : NotFatal head)
    (hbody : NotFatal body) (reads : List FileAnswer)
    (hsum : c.outputBuffer.contents.length+(r.lineHead++r.body).length < 2^30) :
    ∃ d, (calls (r.respond head body reads) c).Returns d ∧ Streaming sockfd d ∧
      c.Carries d (r.lineHead++r.body) := by
  rw [List.length_append] at hsum
  obtain ⟨e,he,hs,hc⟩ := send_carries h (m := r.lineHead) hhead (by omega)
  have hlen := hc.length_le
  obtain ⟨d,hd,hs',hc'⟩ := send_carries hs (m := r.body) hbody (by omega)
  refine ⟨d,?_,hs',hc.trans hc'⟩
  rw [HttpRespond.respond,if_neg hfd,if_pos hsize]
  exact he.bind ((calls_one _ _ _).mpr hd)

theorem answer_kept (hm : request.line.method = some .POST) (hk : keepsAlive request = true) :
    (answer sys request).1 = (postRespond request).respond sys.head sys.body sys.reads := by
  rw [answer,hm]
  simp [hk,postRespond]

theorem postRespond_size (request : HttpRequest) :
    (postRespond request).size = wrapInt (savedText request.line.url).length := by
  simp only [postRespond,savedRespond,HttpRespond.setBody,HttpRespond.addContentSize,
    HttpRespond.addHeader,savedText]

theorem post_replies (h : Streaming sockfd c) (hm : request.line.method = some .POST)
    (hk : keepsAlive request = true) (hhead : NotFatal sys.head) (hbody : NotFatal sys.body)
    (hsum : c.outputBuffer.contents.length+(reply sys request).length < 2^30) :
    ∃ d, (calls (answer sys request).1 c).Returns d ∧ Streaming sockfd d ∧
      c.Carries d (reply sys request) := by
  have htext : replyBody sys request = savedText request.line.url := by
    rw [replyBody,if_neg (by simp [hm])]
  rw [reply,message_body,htext] at hsum ⊢
  rw [List.length_append] at hsum
  have hwrap : wrapInt (savedText request.line.url).length = (savedText request.line.url).length :=
    wrapInt_of_range (by omega) (by omega)
  have hhd := postRespond_lineHead request
  rw [hwrap,(intString_eq_iff _ _).mpr rfl] at hhd
  have hsize := postRespond_size request
  rw [hwrap] at hsize
  have hbd : (postRespond request).body = savedText request.line.url := rfl
  have hfd : (postRespond request).fd = -1 := rfl
  rw [answer_kept hm hk,← hhd,← hbd]
  refine respond_carries h (by omega) ?_ hhead hbody _ ?_
  · rw [hbd,hsize,sizeT_nat (by omega)]
  · rw [hhd,hbd,List.length_append]
    omega

theorem carries_same (hacc : d.accepted = c.accepted) (hout : d.outputBuffer = c.outputBuffer) :
    c.Carries d [] :=
  carries_split (k := 0) (fun h => absurd rfl h) (by simpa using hacc) (by simp [hout])

theorem page_carries (h : Streaming sockfd c) (he : c.outputBuffer.contents = [])
    {r : HttpRespond} {content : Bytes} (hfile : c.files r.fd = some { content := content })
    (hfd : 0 < r.fd) (hsize : r.size = content.length) (hlt : r.size < 2^31) (hbody : r.body = [])
    {head body : WriteAnswer} (hhead : Willing head r.lineHead.length)
    (htakes : Willing body content.length) (reads : List FileAnswer) :
    ∃ d, (calls (r.respond head body reads) c).Returns d ∧ Streaming sockfd d ∧
      c.Carries d (r.lineHead++content) := by
  obtain ⟨e,hsend,hs,hout,hacc⟩ := send_taken h he hhead
  have he' : e.outputBuffer.contents = [] := by rw [hout,he]
  have hc : c.Carries e r.lineHead := by
    refine carries_split (k := r.lineHead.length) (fun _ => he) ?_ ?_
    · rw [hacc,List.take_length]
    · rw [hout,List.drop_length,List.append_nil]
  have hkept : e.files r.fd = some { content := content } :=
    ((send_head h.state (lineHead_ne_nil r) head hsend).files r.fd (by omega)).trans hfile
  obtain ⟨k,rfl,hk⟩ := htakes
  suffices hrest : ∃ d, (calls (if 0 < r.fd ∧ 0 < r.size then [.sendFile r.fd r.size (.accept k) reads]
      else if r.body.length = sizeT r.size then [.send r.body (.accept k)] else []) e).Returns d ∧
      Streaming sockfd d ∧ e.Carries d content by
    obtain ⟨d,hd,hs',hc'⟩ := hrest
    exact ⟨d,hsend.bind hd,hs',hc.trans hc'⟩
  by_cases hpos : 0 < r.size
  · have hready : FileReady e (.call (.sendFile r.fd r.size (.accept k) reads)) :=
      ⟨by omega,by omega,hlt,_,hkept,rfl,hsize.symm⟩
    have hwhole : TakenWhole e (.call (.sendFile r.fd r.size (.accept k) reads)) :=
      ⟨by omega,(idle_iff hs).mpr he',k,rfl,by omega⟩
    obtain ⟨d,hd,hs',hc'⟩ := sendFile_whole hs hready hwhole
    have hoff : e.offered (.call (.sendFile r.fd r.size (.accept k) reads)) = content := by
      simp [offered,hkept]
    rw [hoff] at hc'
    rw [if_pos ⟨hfd,hpos⟩]
    exact ⟨d,(calls_one _ _ _).mpr hd,hs',hc'⟩
  · have hnil : content = [] := List.eq_nil_of_length_eq_zero (by omega)
    have hzero : r.size = 0 := by rw [hsize,hnil]; rfl
    obtain ⟨d,hd,hs',hc'⟩ := send_carries hs (m := []) (a := .accept k) trivial (by rw [he']; decide)
    rw [if_neg (fun hp => hpos hp.2),if_pos (by rw [hbody,hzero]; rfl),hbody,hnil]
    exact ⟨d,(calls_one _ _ _).mpr hd,hs',hc'⟩

theorem page_replies {size : Int} (h : Streaming sockfd c) (he : c.outputBuffer.contents = [])
    (hg : GetsFile c sys request size) (hk : TakesFile sys request)
    (hkeep : keepsAlive request = true) (hfd : sys.page.fd ≠ 0) (hsize : size < 2^31) :
    ∃ d, (calls (answer sys request).1 c).Returns d ∧ Streaming sockfd d ∧
      c.Carries d (reply sys request) := by
  have hloc := hg.located
  have hlen := hg.content
  have h0 : 0 ≤ sys.page.fd := (hg.fresh.resolve_left hg.fd).1
  have hrfd : (getRespond sys request).fd = sys.page.fd := by rw [getRespond,hloc]; rfl
  have hrsize : (getRespond sys request).size = wrapInt size := by rw [getRespond,hloc]; rfl
  have hrbody : (getRespond sys request).body = [] := by rw [getRespond]; rfl
  rw [wrapInt_of_range (by omega) hsize] at hrsize
  have hstate : (parseUrl sys request.line.url).state = ._200Ok := by rw [hloc]
  have hhd := getRespond_lineHead hstate
  rw [hrsize,← hlen,(intString_eq_iff _ _).mpr rfl] at hhd
  obtain ⟨b,hb,hs,hout,hsame,hfile⟩ := opened_streaming h hg.fresh hg.fd
  obtain ⟨d,hd,hs',hc⟩ := page_carries (r := getRespond sys request) hs (by rw [hout,he])
    (by rw [hrfd]; exact hfile) (by omega) (by rw [hrsize,hlen]) (by omega) hrbody hk.head hk.body
    sys.reads
  refine ⟨d,?_,hs',?_⟩
  · rw [answer_get hg.method,hloc,if_neg (by dsimp only; omega),hkeep]
    refine (calls_append _ _ _ _).mpr ⟨d,(calls_append _ _ _ _).mpr ⟨b,?_,hd⟩,Prog.returns_self d⟩
    simpa [Located.calls] using hb
  · have hall := (carries_same hsame hout).trans hc
    rw [hhd,List.nil_append,← message_body] at hall
    rw [reply,replyBody,if_pos hg.method]
    exact hall

theorem answer_replies (h : Streaming sockfd c) (ha : Answerable c sys request)
    (hk : keepsAlive request = true)
    (hsum : c.outputBuffer.contents.length+(reply sys request).length < 2^30) :
    ∃ d, (calls (answer sys request).1 c).Returns d ∧ Streaming sockfd d ∧
      c.Carries d (reply sys request) := by
  cases ha with
  | page hg htakes he hfd hsize => exact page_replies h he hg htakes hk hfd hsize
  | posted hm hhead hbody => exact post_replies h hm hk hhead hbody hsum

theorem respond_mild (r : HttpRespond) (head body : WriteAnswer) (reads : List FileAnswer) :
    ∀ u∈r.respond head body reads, Mild u := by
  intro u hu
  rw [HttpRespond.respond] at hu
  split_ifs at hu <;> simp only [List.mem_cons,List.not_mem_nil,or_false] at hu
  · obtain rfl | rfl := hu <;> trivial
  · obtain rfl | rfl := hu <;> trivial
  · subst hu
    trivial

theorem answer_mild (ha : Answerable c sys request) (hk : keepsAlive request = true) :
    ∀ u∈(answer sys request).1, Mild u := by
  intro u hu
  cases ha with
  | page hg htakes he hfd hsize =>
    have h0 : 0 ≤ sys.page.fd := (hg.fresh.resolve_left hg.fd).1
    rw [answer_get hg.method,hg.located,if_neg (by dsimp only; omega),hk] at hu
    simp only [Located.calls,List.flatMap_cons,List.flatMap_nil,Page.opened,List.mem_append,
      List.append_nil,if_neg hg.fd,List.mem_singleton,Bool.not_true,Bool.false_eq_true,
      if_false] at hu
    cases hu with
    | inl hu =>
      subst hu
      trivial
    | inr hu => exact respond_mild _ _ _ _ u hu
  | posted hm hhead hbody =>
    rw [answer_kept hm hk] at hu
    exact respond_mild _ _ _ _ u hu

/-! One round: a request is received, served and answered. -/

theorem input_streaming (h : Streaming sockfd c) {b : NetBuffer} (hb : b.Wf) (s : Bytes) :
    Streaming sockfd { c with inputBuffer := b, received := s } :=
  ⟨{ h.established with input := hb },h.state,h.writing,h.complete⟩

theorem Answerable.input (ha : Answerable c sys request) (b : NetBuffer) (s : Bytes) :
    Answerable { c with inputBuffer := b, received := s } sys request := by
  cases ha with
  | page hg htakes he hfd hsize => exact .page { hg with fresh := hg.fresh } htakes he hfd hsize
  | posted hm hhead hbody => exact .posted hm hhead hbody

structure Conversing (sockfd : Int) (c : Conn) : Prop where
  streaming : Streaming sockfd c
  drained : c.inputBuffer.contents = []
  unforced : Unforced c

theorem serve_replies {r : RawRequest} (h : Streaming sockfd c) (hc : c.inputBuffer.contents = r.text)
    (hlen : r.text.length < 2^31) (ha : Answerable c sys r.request)
    (hk : keepsAlive r.request = true) (hf : Unforced c)
    (hsum : c.outputBuffer.contents.length+(reply sys r.request).length < 2^30) :
    ∃ d, (serve sys c).Returns d ∧ Conversing sockfd d ∧ c.Carries d (reply sys r.request) ∧
      d.received = c.received := by
  have hwf := h.established.input
  have hread := hwf.length_contents
  rw [hc] at hread
  have hall : slice (shift c.inputBuffer.buf c.inputBuffer.r) 0 c.inputBuffer.readable =
      r.text++[] := by rw [slice_peek,hc,List.append_nil]
  obtain ⟨p,hp,hs,hreq⟩ := parse_accepts r (by omega) hall
  have hsize : r.request.parseSize = r.text.length := rfl
  have h0 : 0 ≤ r.request.parseSize := by omega
  obtain ⟨b,hb,hh⟩ := NetBuffer.retrieve_returns hwf h0 (by omega)
  rw [hc,hsize,Int.toNat_natCast,List.drop_length] at hh
  obtain ⟨d,hd,hs',hcarries⟩ := answer_replies (input_streaming h hh.wf c.received)
    (ha.input b c.received) hk hsum
  have hsame := calls_sameInput (answer_outward sys r.request) hd
  have hcalm := (calls_unforced (answer_mild ha hk) (c := { c with inputBuffer := b })
    hf).result hd
  refine ⟨d,?_,⟨hs',?_,hcalm⟩,hcarries,hsame.received⟩
  · refine Prog.Returns.bind
      (a := ⟨b,[r.request],(answer sys r.request).1,(answer sys r.request).2⟩) (hp.bind ?_) hd
    rw [hs,hreq]
    exact hb.bind (Prog.returns_self _)
  · rw [hsame.buffer]
    exact hh.contents_eq

/-! The conversation. -/

/-- What the loop does for the connection: a round with a request, room for output, or a task. -/
inductive Exchange where
  | request (r : RawRequest) (sys : System) (revents : Events) (results : List ReadResult)
    (flushed : WriteAnswer)
  | writable (sys : System) (revents : Events) (flushed : WriteAnswer)
  | task

namespace Exchange

def event : Exchange → ServerEvent
  | .request _ sys revents results flushed =>
    .handleEvent sys revents (roundAnswers results false) flushed
  | .writable sys revents flushed => .handleEvent sys revents [] flushed
  | .task => .runFunctor

def text : Exchange → Bytes
  | .request r _ _ _ _ => r.text
  | _ => []

def replied : Exchange → Bytes
  | .request r sys _ _ _ => reply sys r.request
  | _ => []

/-- The reads of a round give one whole request, which keeps the connection and can be answered;
otherwise there is nothing to read. -/
def Lawful (c : Conn) : Exchange → Prop
  | .request r sys revents results _ =>
    revents&&&(EPOLLIN|||EPOLLPRI|||EPOLLRDHUP) ≠ 0 ∧
      ¬ (revents&&&EPOLLHUP ≠ 0 ∧ revents&&&EPOLLIN = 0) ∧ Granted c.inputBuffer results ∧
      roundBytes results = r.text ∧ keepsAlive r.request = true ∧ Answerable c sys r.request
  | .writable _ revents _ =>
    revents&&&(EPOLLIN|||EPOLLPRI|||EPOLLRDHUP) = 0 ∧ revents&&&EPOLLHUP = 0
  | .task => True

end Exchange

def Lawfully (c : Conn) : List Exchange → Prop
  | [] => True
  | x::xs => x.Lawful c ∧ ∀ d, (serverStep c x.event).Returns d → Lawfully d xs

def converse (c : Conn) : List Exchange → Prog Fault Conn
  | [] => pure c
  | x::xs => do
    let c ← serverStep c x.event
    converse c xs

theorem registered_of_streaming (h : Streaming sockfd c) : c.poller.interest c.channel.fd ≠ none := by
  have hl : c.channel.status = .LISTEN := h.established.status
  rw [h.established.agrees.interest,if_pos hl]
  simp

theorem flush_conversing (h : Conversing sockfd c) (out : Prop) [Decidable out] (a : WriteAnswer) :
    ∃ d, (if out then c.handleWrite a else pure c).Returns d ∧ Conversing sockfd d ∧
      c.Carries d [] ∧ d.received = c.received := by
  by_cases hout : out
  · rw [if_pos hout]
    obtain ⟨d,hd,hs,hc⟩ := handleWrite_returns h.streaming a
    have hsame := handleWrite_sameInput hd
    refine ⟨d,hd,⟨hs,?_,(handleWrite_unforced h.unforced a).result hd⟩,hc,hsame.received⟩
    rw [hsame.buffer]
    exact h.drained
  · rw [if_neg hout]
    exact ⟨c,Prog.returns_self c,h,Carries.refl c,rfl⟩

theorem handleRead_converses {r : RawRequest} {results : List ReadResult}
    (h : Conversing sockfd c) (hg : Granted c.inputBuffer results)
    (hbytes : roundBytes results = r.text) (hin : r.text.length+4096 < 2^30)
    (ha : Answerable c sys r.request) (hk : keepsAlive r.request = true)
    (hsum : c.outputBuffer.contents.length+(reply sys r.request).length < 2^30) :
    ∃ d, (c.handleRead (serve sys) (roundAnswers results false)).Returns d ∧
      Conversing sockfd d ∧ c.Carries d (reply sys r.request) ∧
      d.received = c.received++r.text := by
  have hwf := h.streaming.established.input
  have hlen := hwf.length_contents
  rw [h.drained,List.length_nil] at hlen
  obtain ⟨socket,b,hread,hh,hrec⟩ := readFd_round false hwf hg
    (NetBuffer.growable_of_small hwf.alloc_pos (by rw [hbytes]; omega))
  rw [hbytes,h.drained,List.nil_append] at hh
  rw [hbytes] at hread hrec
  obtain ⟨d,hd,hconv,hc,hreceived⟩ := serve_replies
    (input_streaming h.streaming hh.wf (c.received++socket.received)) hh.contents_eq (by omega)
    (ha.input b _) hk h.unforced hsum
  refine ⟨d,hread.bind ?_,hconv,hc,by rw [hreceived,hrec]⟩
  have hpos : (0:Int) < r.text.length := by simp [RawRequest.text,headText]; omega
  simp only [NetBuffer.endReturn,Bool.false_eq_true,if_false,hpos,if_true]
  exact hd

theorem runFunctor_converses (h : Conversing sockfd c) :
    ∃ d, (c.runFunctor pure).Returns d ∧ Conversing sockfd d ∧ c.Carries d [] ∧
      d.received = c.received := by
  have hside : ∀ f∈c.pendingFunctors, Stage.Side f := h.streaming.established.pending
  have hcalm := h.unforced
  rw [runFunctor]
  rw [Unforced] at hcalm
  cases hp : c.pendingFunctors with
  | nil => exact ⟨c,Prog.returns_self c,h,Carries.refl c,rfl⟩
  | cons f fs =>
    rw [hp] at hside hcalm
    cases hside f List.mem_cons_self with
    | inr hf =>
      subst hf
      exact absurd List.mem_cons_self hcalm
    | inl hf =>
      subst hf
      have hat : At sockfd .established { c with pendingFunctors := fs } :=
        { h.streaming.established with
          pending := fun f hf => hside f (List.mem_cons_of_mem _ hf) }
      refine ⟨{ c with pendingFunctors := fs },Prog.returns_self _,⟨?_,h.drained,?_⟩,
        carries_same rfl rfl,rfl⟩
      · exact ⟨hat,h.streaming.state,h.streaming.writing,h.streaming.complete⟩
      · exact fun hm => hcalm (List.mem_cons_of_mem _ hm)

theorem exchange_converses {x : Exchange} (h : Conversing sockfd c) (hx : x.Lawful c)
    (hin : x.text.length+4096 < 2^30)
    (hsum : c.outputBuffer.contents.length+x.replied.length < 2^30) :
    ∃ d, (serverStep c x.event).Returns d ∧ Conversing sockfd d ∧ c.Carries d x.replied ∧
      d.received = c.received++x.text := by
  have hreg := registered_of_streaming h.streaming
  cases x with
  | task =>
    obtain ⟨d,hd,hconv,hc,hrec⟩ := runFunctor_converses h
    exact ⟨d,hd,hconv,hc,hrec.trans (List.append_nil _).symm⟩
  | writable sys revents flushed =>
    obtain ⟨hnone,hhup⟩ := hx
    obtain ⟨d,hd,hconv,hc,hrec⟩ := flush_conversing h (revents&&&EPOLLOUT ≠ 0) flushed
    refine ⟨d,?_,hconv,hc,hrec.trans (List.append_nil _).symm⟩
    rw [Exchange.event,serverStep,if_neg hreg,handleEvent,onHup,if_neg (fun hp => hp.1 hhup)]
    refine (Prog.returns_self c).bind (Prog.Returns.bind (a := c) ?_ hd)
    rw [onReadable,if_neg (not_not.mpr hnone)]
    exact Prog.returns_self c
  | request r sys revents results flushed =>
    obtain ⟨hread,hhup,hg,hbytes,hk,ha⟩ := hx
    obtain ⟨e,he,hconv,hc,hrec⟩ := handleRead_converses h hg hbytes hin ha hk hsum
    obtain ⟨d,hd,hconv',hc',hrec'⟩ := flush_conversing hconv (revents&&&EPOLLOUT ≠ 0) flushed
    refine ⟨d,?_,hconv',?_,hrec'.trans hrec⟩
    · rw [Exchange.event,serverStep,if_neg hreg,handleEvent,onHup,if_neg hhup]
      refine (Prog.returns_self c).bind (Prog.Returns.bind (a := e) ?_ hd)
      rw [onReadable,if_pos hread]
      exact he
    · have hall := hc.trans hc'
      rwa [List.append_nil] at hall

theorem converse_returns {xs : List Exchange} (h : Conversing sockfd c) (hxs : Lawfully c xs)
    (hin : (xs.flatMap Exchange.text).length+4096 < 2^30)
    (hsum : c.outputBuffer.contents.length+(xs.flatMap Exchange.replied).length < 2^30) :
    ∃ d, (converse c xs).Returns d ∧ Conversing sockfd d ∧
      c.Carries d (xs.flatMap Exchange.replied) ∧
      d.received = c.received++xs.flatMap Exchange.text := by
  induction xs generalizing c with
  | nil => exact ⟨c,Prog.returns_self c,h,Carries.refl c,(List.append_nil _).symm⟩
  | cons x xs ih =>
    rw [List.flatMap_cons,List.length_append] at hin hsum
    obtain ⟨e,he,hconv,hc,hrec⟩ := exchange_converses h hxs.1 (by omega) (by omega)
    have hlen := hc.length_le
    obtain ⟨d,hd,hconv',hc',hrec'⟩ := ih hconv (hxs.2 e he) (by omega) (by omega)
    refine ⟨d,he.bind hd,hconv',hc.trans hc',?_⟩
    rw [hrec',hrec,List.flatMap_cons,List.append_assoc]

/-- Where every request arrives in a round of its own and keeps the connection, the server
answers one after the other: what it has sent, with what still waits for the kernel, is exactly
the responses in the order of the requests, each announcing the length of its own body; all of
the input has been used; and the connection is still open. -/
theorem keep_alive_conversation (sockfd : Int) (reading : Bool) (input output : Mem)
    (xs : List Exchange) (hxs : Lawfully (connected sockfd reading false input output) xs)
    (hin : (xs.flatMap Exchange.text).length+4096 < 2^30)
    (hsum : (xs.flatMap Exchange.replied).length < 2^30) :
    ∃ d, (converse (connected sockfd reading false input output) xs).Returns d ∧
      d.state = .kConnected ∧ d.received = xs.flatMap Exchange.text ∧
      d.inputBuffer.contents = [] ∧
      d.accepted++d.outputBuffer.contents = xs.flatMap Exchange.replied := by
  have hstart := connected_streaming sockfd reading false input output
  have hout : (connected sockfd reading false input output).outputBuffer.contents = [] :=
    (NetBuffer.create_holds (by decide : (1:Int) ≤ 4096) output).contents_eq
  have hbegin : Conversing sockfd (connected sockfd reading false input output) := by
    refine ⟨hstart,(NetBuffer.create_holds (by decide : (1:Int) ≤ 4096) input).contents_eq,?_⟩
    simp [Unforced,connected,newConnection,queueInLoop,addConnectInLoop,setState,onChannel,act]
  obtain ⟨d,hd,hconv,hc,hrec⟩ := converse_returns hbegin hxs hin
    (by rw [hout,List.length_nil]; omega)
  refine ⟨d,hd,hconv.streaming.state,?_,hconv.drained,?_⟩
  · rw [hrec]
    rfl
  · have hstream := hc.stream
    rw [hout] at hstream
    exact hstream

def onePage : List Exchange :=
  [.request keepAliveRaw quiet EPOLLIN [.interrupted,.piece keepAliveRaw.text] (.accept 0),
    .writable quiet EPOLLOUT (.accept 5),.task]

theorem onePage_lawfully : Lawfully (connected 5 false false (fun _ => 0) fun _ => 0) onePage := by
  refine ⟨⟨by decide,by decide,?_,by simp [roundBytes,ReadResult.bytes],by decide,?_⟩,
    fun d _ => ⟨⟨by decide,by decide⟩,fun e _ => ⟨trivial,fun f _ => trivial⟩⟩⟩
  · exact ⟨by decide,by decide,fun d e _ _ => trivial⟩
  · have hg : GetsFile idleConn quiet keepAliveRaw.request 2 :=
      ⟨rfl,by decide,.inr ⟨by decide,by decide,rfl⟩,rfl,rfl⟩
    exact .page hg ⟨⟨4096,rfl,by decide⟩,⟨4096,rfl,by decide⟩⟩ idleConn_streaming.2 (by decide)
      (by decide)

theorem keep_alive_conversation_onePage :
    ∃ d, (converse (connected 5 false false (fun _ => 0) fun _ => 0) onePage).Returns d ∧
      d.state = .kConnected ∧ d.received = onePage.flatMap Exchange.text ∧
      d.inputBuffer.contents = [] ∧
      d.accepted++d.outputBuffer.contents = onePage.flatMap Exchange.replied :=
  keep_alive_conversation 5 false _ _ onePage onePage_lawfully (by decide) (by decide)

end AdlServer.Http
