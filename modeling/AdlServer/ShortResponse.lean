import AdlServer.HttpServer
import AdlServer.GracefulShutdown

/-! The answer to a POST on a connection that is not kept alive: what has been written of
it when the connection closes. -/
namespace AdlServer.Http
open Program Memory Cpp Net Conn
variable {c d e : Conn} {total sent : Bytes}

def serve (sys : System) (c : Conn) : Prog Fault Conn := do
  let handled ← httpMessageCallback sys c.inputBuffer
  calls handled.calls { c with inputBuffer := handled.buf }

def passed (us : List UserCall) : Bytes := us.flatMap fun
  | .send m _ => m
  | _ => []

/-- What the loop does for the connection when the request has been answered. -/
inductive Flushing : Event → Prop where
  | handleWrite (a : WriteAnswer) : Flushing (.handleWrite a)
  | runFunctor : Flushing (.runFunctor [])

/-- Where `forceCloseInLoop` has its turn on an open connection, nothing is buffered. -/
def Emptied (c : Conn) : Event → Prop
  | .runFunctor _ => c.pendingFunctors.head? = some .forceCloseInLoop →
    c.state = .kConnected ∨ c.state = .kDisconnecting → c.outputBuffer.contents = []
  | _ => True

structure Owes (total : Bytes) (c : Conn) : Prop where
  output : c.outputBuffer.Wf
  state : c.state = .kDisconnecting
  stream : c.accepted++c.outputBuffer.contents = total
  unclosed : .closeCallback∉c.trace

structure ClosedWith (sent : Bytes) (c : Conn) : Prop where
  state : c.state = .kDisconnected
  accepted : c.accepted = sent
  writing : c.channel.isWriting = false
  closed : .closeCallback∈c.trace

/-! Until it closes. -/

theorem handleWrite_owes (h : Owes total c) {a : WriteAnswer}
    (hd : (c.handleWrite a).Returns d) : Owes total d := by
  have unclosed {d : Conn} (hg : Grows (· ≠ .closeCallback) c d) : .closeCallback∉d.trace :=
    hg.not_mem (by simp) h.unclosed
  cases (handleWrite_steps h.output a).result hd with
  | idle hw => exact h
  | failed hw => exact ⟨h.output,h.state,h.stream,unclosed (.snoc rfl (by simp))⟩
  | @moved t rest b hw ht hb hleft =>
    exact ⟨hb.wf,h.state,(moved_stream ht hb).trans h.stream,unclosed (.snoc rfl (by simp))⟩
  | @flushed t b hw ht hne hb =>
    obtain ⟨hst,hacc,hout,hg⟩ := flushed_frame (c.moved t b)
    have ht' : c.outputBuffer.contents = t++[] := by rw [ht,List.append_nil]
    have hmoved : Grows (· ≠ .closeCallback) c (c.moved t b) := .snoc rfl (by simp)
    refine ⟨hout ▸ hb.wf,hst.trans h.state,?_,unclosed (hmoved.trans hg)⟩
    rw [hacc,hout]
    exact (moved_stream ht' hb).trans h.stream

theorem handleClose_closedWith (c : Conn) :
    Prog.Ensures c.handleClose (ClosedWith c.accepted) fun _ => True := by
  refine (Prog.ensures_true _).bind fun _ _ => Prog.ensures_pure ⟨rfl,rfl,?_,?_⟩
  · apply Channel.isWriting_of_noEvent
    rw [Channel.noEvent]
    exact decide_eq_true (updateChannel_events _ _ _)
  · simp [closeCallback,removeConnectionInLoop,rmConnectInLoop,queueInLoop,act]

theorem runFunctor_owes (h : Owes total c) (hd : (c.runFunctor (calls [])).Returns d) :
    (c.pendingFunctors.head? ≠ some .forceCloseInLoop ∧ Owes total d) ∨
    (c.pendingFunctors.head? = some .forceCloseInLoop ∧ ClosedWith c.accepted d) := by
  cases runFunctor_closing (.inl h.state) hd with
  | aside hf hst hacc hout hw hg =>
    refine .inl ⟨fun hhead => ?_,hout ▸ h.output,hst.trans h.state,?_,?_⟩
    · cases h.state.symm.trans (hf hhead)
    · rw [hacc,hout,h.stream]
    · exact hg.not_mem (by simp) h.unclosed
  | @closes fs hst hf hd =>
    refine .inr ⟨by rw [hf]; rfl,?_⟩
    exact (handleClose_closedWith { c with pendingFunctors := fs }).result hd

/-! Once it has closed. -/

theorem handleWrite_closedWith (h : ClosedWith sent c) {a : WriteAnswer}
    (hd : (c.handleWrite a).Returns d) : ClosedWith sent d := by
  rw [handleWrite_idle h.writing] at hd
  cases (Prog.returns_pure _ _).mp hd
  exact h

theorem runFunctor_closedWith (h : ClosedWith sent c) (hd : (c.runFunctor (calls [])).Returns d) :
    ClosedWith sent d := by
  cases runFunctor_closing (.inr h.state) hd with
  | aside hf hst hacc hout hw hg =>
    obtain ⟨acts,ht,_⟩ := hg
    refine ⟨hst.trans h.state,hacc.trans h.accepted,hw.trans h.writing,?_⟩
    rw [ht]
    exact List.mem_append_left _ h.closed
  | closes hst hf hd => cases h.state.symm.trans hst

/-! Runs. -/

theorem run_closedWith {es : List Event} (hes : ∀ ev∈es, Flushing ev) (h : ClosedWith sent d)
    (hrun : (run d es).Returns e) : ClosedWith sent e ∧ Steps Emptied d es := by
  induction es generalizing d with
  | nil =>
    cases (Prog.returns_pure _ _).mp hrun
    exact ⟨h,trivial⟩
  | cons ev es ih =>
    obtain ⟨f,hf,hrest⟩ := (Prog.returns_bind _ _ _).mp hrun
    have hes' : ∀ ev∈es, Flushing ev := fun ev hev => hes ev (List.mem_cons_of_mem _ hev)
    rw [steps_cons hf]
    cases hes ev List.mem_cons_self with
    | handleWrite a =>
      obtain ⟨he,hs⟩ := ih hes' (handleWrite_closedWith h hf) hrest
      exact ⟨he,trivial,hs⟩
    | runFunctor =>
      obtain ⟨he,hs⟩ := ih hes' (runFunctor_closedWith h hf) hrest
      refine ⟨he,fun _ hopen => ?_,hs⟩
      simp [h.state] at hopen

theorem run_owes {es : List Event} (hes : ∀ ev∈es, Flushing ev) (h : Owes total d)
    (hrun : (run d es).Returns e) :
    (.closeCallback∈e.trace → e.accepted = total) ↔ Steps Emptied d es := by
  induction es generalizing d with
  | nil =>
    cases (Prog.returns_pure _ _).mp hrun
    exact iff_of_true (fun hc => absurd hc h.unclosed) trivial
  | cons ev es ih =>
    obtain ⟨f,hf,hrest⟩ := (Prog.returns_bind _ _ _).mp hrun
    have hes' : ∀ ev∈es, Flushing ev := fun ev hev => hes ev (List.mem_cons_of_mem _ hev)
    rw [steps_cons hf]
    cases hes ev List.mem_cons_self with
    | handleWrite a =>
      rw [ih hes' (handleWrite_owes h hf) hrest]
      exact ⟨fun hs => ⟨trivial,hs⟩,fun hs => hs.2⟩
    | runFunctor =>
      cases runFunctor_owes h hf with
      | inl ho =>
        rw [ih hes' ho.2 hrest]
        exact ⟨fun hs => ⟨fun hh => absurd hh ho.1,hs⟩,fun hs => hs.2⟩
      | inr hc =>
        obtain ⟨he,hs⟩ := run_closedWith hes' hc.2 hrest
        have hdrained : d.accepted = total ↔ d.outputBuffer.contents = [] := by
          rw [← h.stream]
          exact List.self_eq_append_right
        rw [he.accepted,hdrained]
        constructor
        · exact fun hnil => ⟨fun _ _ => hnil he.closed,hs⟩
        · exact fun hall _ => hall.1 hc.1 (.inr h.state)

/-! The answer. -/

inductive PlainSend : UserCall → Prop where
  | mk (m : Bytes) (a : WriteAnswer) (h : NotFatal a) : PlainSend (.send m a)

theorem calls_append (us vs : List UserCall) (c d : Conn) :
    (calls (us++vs) c).Returns d ↔ ∃ e, (calls us c).Returns e ∧ (calls vs e).Returns d := by
  induction us generalizing c with
  | nil => simp [calls]
  | cons u us ih =>
    simp only [List.cons_append,calls,Prog.returns_bind,ih]
    constructor
    · intro h
      obtain ⟨f,hf,e,he,hd⟩ := h
      exact ⟨e,⟨f,hf,he⟩,hd⟩
    · intro h
      obtain ⟨e,⟨f,hf,he⟩,hd⟩ := h
      exact ⟨f,hf,e,he,hd⟩

theorem calls_sends {us : List UserCall} (hus : ∀ u∈us, PlainSend u) (h : c.outputBuffer.Wf)
    (hs : c.state = .kConnected) (hd : (calls us c).Returns d) :
    Passes c d (passed us) ∧ SentOnly (-1) c d := by
  induction us generalizing c with
  | nil =>
    cases (Prog.returns_pure _ _).mp hd
    exact ⟨.refl h,.of_eq rfl rfl⟩
  | cons u us ih =>
    obtain ⟨f,hf,hrest⟩ := (Prog.returns_bind _ _ _).mp hd
    cases hus u List.mem_cons_self with
    | mk m a ha =>
      obtain ⟨hp,hsent⟩ := send_passes h hs ha hf
      obtain ⟨hp',hsent'⟩ := ih (fun v hv => hus v (List.mem_cons_of_mem _ hv)) hp.output
        (hsent.state.trans hs) hrest
      exact ⟨hp.trans hp',hsent.trans hsent'⟩

theorem answer_post {sys : System} {request : HttpRequest}
    (hm : request.line.method = some .POST) (hk : keepsAlive request = false)
    (hhead : NotFatal sys.head) (hbody : NotFatal sys.body) :
    ∃ us, (answer sys request).1 = us++[.forceClose] ∧ ∀ u∈us, PlainSend u := by
  have hsends (r : HttpRespond) (hfd : r.fd = -1) (u : UserCall)
      (hu : u∈r.respond sys.head sys.body sys.reads) : PlainSend u := by
    rw [HttpRespond.respond] at hu
    rw [hfd,if_neg (by omega)] at hu
    cases List.mem_cons.mp hu with
    | inl hu =>
      rw [hu]
      exact .mk _ _ hhead
    | inr hu =>
      split_ifs at hu
      · rw [List.mem_singleton.mp hu]
        exact .mk _ _ hbody
      · cases hu
  rw [answer]
  rw [hm,hk]
  exact ⟨_,rfl,hsends _ rfl⟩

theorem httpMessageCallback_success {sys : System} {buf : NetBuffer} {p : HttpParser}
    (hp : (parse (shift buf.buf buf.r) buf.readable).Returns p) (hs : p.finalState = .success) :
    Prog.Ensures (httpMessageCallback sys buf)
      (fun handled => handled.calls = (answer sys p.request).1) fun _ => True := by
  refine Prog.Ensures.bind (Q := (· = p)) (fun o ho => ?_) fun q hq => ?_
  · rw [(hp.ends_iff o).mp ho]
    exact rfl
  · subst hq
    rw [hs]
    exact (Prog.ensures_true _).bind fun b _ => Prog.ensures_pure rfl

theorem serve_owes {sys : System} {p : HttpParser} (hout : c.outputBuffer.Wf)
    (hst : c.state = .kConnected) (hun : .closeCallback∉c.trace)
    (hp : (parse (shift c.inputBuffer.buf c.inputBuffer.r) c.inputBuffer.readable).Returns p)
    (hs : p.finalState = .success) (hm : p.request.line.method = some .POST)
    (hk : keepsAlive p.request = false) (hhead : NotFatal sys.head) (hbody : NotFatal sys.body)
    (hd : (serve sys c).Returns d) :
    Owes (c.accepted++c.outputBuffer.contents++passed (answer sys p.request).1) d := by
  obtain ⟨handled,hh,hcalls⟩ := (Prog.returns_bind _ _ _).mp hd
  obtain ⟨us,hus,hplain⟩ := answer_post hm hk hhead hbody
  rw [(httpMessageCallback_success hp hs).result hh,hus] at hcalls
  obtain ⟨f,hf,hlast⟩ := (calls_append _ _ _ _).mp hcalls
  obtain ⟨hpass,hsent⟩ := @calls_sends { c with inputBuffer := handled.buf } f us hplain hout hst hf
  have hcl : d = (f.setState .kDisconnecting).queueInLoop .forceCloseInLoop := by
    have hopen : f.state = .kConnected ∨ f.state = .kDisconnecting :=
      .inl (hsent.state.trans hst)
    obtain ⟨g,hg,hend⟩ := (Prog.returns_bind _ _ _).mp hlast
    cases (Prog.returns_pure _ _).mp hg
    cases (Prog.returns_pure _ _).mp hend
    exact if_pos hopen
  have hnone : passed (us++[.forceClose]) = passed us := by simp [passed]
  subst hcl
  rw [hus,hnone]
  refine ⟨hpass.output,rfl,hpass.stream,?_⟩
  have hunf : .closeCallback∉f.trace :=
    (hsent.trace.mono fun _ => sending_unclosed).not_mem (by simp) hun
  simpa [setState,queueInLoop,act] using hunf

/-- Of a short POST's answer everything has been accepted when the connection closes
exactly if in every such run `forceCloseInLoop` finds an empty buffer. -/
theorem short_response_iff (sys : System) (c : Conn) {p : HttpParser} {d e : Conn}
    {es : List Event} (hout : c.outputBuffer.Wf) (hst : c.state = .kConnected)
    (hun : .closeCallback∉c.trace)
    (hp : (parse (shift c.inputBuffer.buf c.inputBuffer.r) c.inputBuffer.readable).Returns p)
    (hs : p.finalState = .success) (hm : p.request.line.method = some .POST)
    (hk : keepsAlive p.request = false) (hhead : NotFatal sys.head) (hbody : NotFatal sys.body)
    (hd : (serve sys c).Returns d) (hes : ∀ ev∈es, Flushing ev) (hrun : (run d es).Returns e) :
    (.closeCallback∈e.trace →
      e.accepted = c.accepted++c.outputBuffer.contents++passed (answer sys p.request).1) ↔
    Steps Emptied d es :=
  run_owes hes (serve_owes hout hst hun hp hs hm hk hhead hbody hd) hrun

def shortPost : Request where
  method := .POST
  url := [47,97]
  version := http11
  headers := [(contentLength,[49])]
  body := [120]
  url_no_space := by decide
  url_no_cr := by decide
  version_known := http11_known
  key_no_space := by decide
  key_no_cr := by decide
  value_no_cr := by decide
  framed := by decide

def posted : Conn :=
  { connected 5 false false (fun _ => 0) fun _ => 0 with inputBuffer := holding shortPost.serialise }

theorem posted_parsed : ∃ p,
    (parse (shift posted.inputBuffer.buf posted.inputBuffer.r) posted.inputBuffer.readable).Returns
        p ∧ p.finalState = .success ∧ p.request = (shortPost.raw (by decide)).request := by
  have hh := holding_holds shortPost.serialise (by decide)
  have hin : posted.inputBuffer = holding shortPost.serialise := rfl
  have hc : posted.inputBuffer.contents = shortPost.serialise := hin ▸ hh.contents_eq
  refine @parse_accepts _ _ (shortPost.raw (by decide)) [] (by decide) ?_
  rw [List.append_nil,shortPost.raw_text]
  exact (slice_peek posted.inputBuffer).trans hc

theorem posted_open : posted.outputBuffer.Wf ∧ posted.state = .kConnected ∧
    .closeCallback∉posted.trace := by
  have hout := NetBuffer.create_holds (by decide : (1:Int) ≤ 4096) fun _ => 0
  exact ⟨hout.wf,rfl,by decide⟩

theorem posted_short {p : HttpParser} (hreq : p.request = (shortPost.raw (by decide)).request) :
    p.request.line.method = some .POST ∧ keepsAlive p.request = false := by
  rw [hreq]
  exact ⟨rfl,by decide⟩

def busy : System := { quiet with head := .accept 1, body := .fail .EAGAIN }

theorem busy_run : ∃ d e, (serve busy posted).Returns d ∧ (run d [.runFunctor []]).Returns e ∧
    .closeCallback∈e.trace ∧ e.accepted = [72] :=
  ⟨_,_,⟨60,rfl⟩,⟨5,rfl⟩,by decide,rfl⟩

theorem short_response_cut : ¬ ∀ (sys : System) (c : Conn) (p : HttpParser) (d e : Conn)
    (es : List Event), c.outputBuffer.Wf → c.state = .kConnected → .closeCallback∉c.trace →
    (parse (shift c.inputBuffer.buf c.inputBuffer.r) c.inputBuffer.readable).Returns p →
    p.finalState = .success → p.request.line.method = some .POST →
    keepsAlive p.request = false → NotFatal sys.head → NotFatal sys.body →
    (serve sys c).Returns d → (∀ ev∈es, Flushing ev) → (run d es).Returns e →
    .closeCallback∈e.trace →
    e.accepted = c.accepted++c.outputBuffer.contents++passed (answer sys p.request).1 := by
  intro hall
  have hparsed := posted_parsed
  obtain ⟨p,hp,hs,hreq⟩ := hparsed
  obtain ⟨hm,hk⟩ := posted_short hreq
  obtain ⟨d,e,hd,hrun,hcl,hacc⟩ := busy_run
  obtain ⟨hout,hst,hun⟩ := posted_open
  have htotal := hall busy posted p d e [.runFunctor []] hout hst hun hp hs hm hk trivial
    ⟨by decide,by decide⟩ hd (by simp [Flushing.runFunctor]) hrun hcl
  rw [hacc,hreq] at htotal
  have hsecond := congrArg (fun s : Bytes => s[1]?) htotal
  exact absurd hsecond (by decide)

theorem short_response_iff_busy : ∃ p d e,
    (parse (shift posted.inputBuffer.buf posted.inputBuffer.r) posted.inputBuffer.readable).Returns
      p ∧ (serve busy posted).Returns d ∧ (run d [.runFunctor []]).Returns e ∧
    ((.closeCallback∈e.trace → e.accepted =
        posted.accepted++posted.outputBuffer.contents++passed (answer busy p.request).1) ↔
      Steps Emptied d [.runFunctor []]) := by
  have hparsed := posted_parsed
  obtain ⟨p,hp,hs,hreq⟩ := hparsed
  obtain ⟨hm,hk⟩ := posted_short hreq
  obtain ⟨d,e,hd,hrun,hcl,hacc⟩ := busy_run
  obtain ⟨hout,hst,hun⟩ := posted_open
  exact ⟨p,d,e,hp,hd,hrun,short_response_iff busy posted hout hst hun hp hs hm hk trivial
    ⟨by decide,by decide⟩ hd (by simp [Flushing.runFunctor]) hrun⟩

end AdlServer.Http
