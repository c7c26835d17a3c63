import AdlServer.Runs
import AdlServer.BufferOverflow
import AdlServer.HandleRead
import AdlServer.ParseVerdict
import AdlServer.ShortResponse

/-! A connection of the server after a request it has rejected: the input is discarded and
`shutdown` called, but reading goes on, and no callback asks for the state. -/
namespace AdlServer.Net
open Program Memory Cpp

namespace Conn
variable {c d e : Conn}

structure SameInput (c d : Conn) : Prop where
  buffer : d.inputBuffer = c.inputBuffer
  received : d.received = c.received

theorem SameInput.refl (c : Conn) : SameInput c c := ⟨rfl,rfl⟩

theorem SameInput.trans (h : SameInput c d) (h' : SameInput d e) : SameInput c e :=
  ⟨h'.buffer.trans h.buffer,h'.received.trans h.received⟩

theorem SameInput.after (h : SameInput d e) (hb : d.inputBuffer = c.inputBuffer)
    (hr : d.received = c.received) : SameInput c e := .trans ⟨hb,hr⟩ h

theorem queueWriteComplete_sameInput (c : Conn) : SameInput c c.queueWriteComplete := by
  rw [queueWriteComplete]
  split_ifs <;> exact ⟨rfl,rfl⟩

theorem shutdownWriteInLoop_sameInput (c : Conn) : SameInput c c.shutdownWriteInLoop := by
  rw [shutdownWriteInLoop]
  split_ifs <;> exact ⟨rfl,rfl⟩

theorem shutdown_sameInput (c : Conn) : SameInput c c.shutdown := by
  rw [shutdown]
  split_ifs
  · exact (shutdownWriteInLoop_sameInput _).after rfl rfl
  · exact .refl c

theorem forceClose_sameInput (c : Conn) : SameInput c c.forceClose := by
  rw [forceClose]
  split_ifs <;> exact ⟨rfl,rfl⟩

theorem sendfile_sameInput (c : Conn) (fd : Int) (count : Nat) (a : WriteAnswer) :
    SameInput c (c.sendfile fd count a).1 := by
  unfold sendfile
  dsimp only
  split <;> exact ⟨rfl,rfl⟩

theorem write_sameInput (c : Conn) (s : Bytes) (a : WriteAnswer) : SameInput c (c.write s a).1 := by
  cases a <;> exact ⟨rfl,rfl⟩

theorem directWrite_sameInput (c : Conn) (m : Option Bytes) (fd size : Int) (a : WriteAnswer) :
    SameInput c (c.directWrite m fd size a).1 :=
  directWrite_rule (P := fun d => SameInput c d) (sendfile_sameInput c fd _ a)
    (write_sameInput c _ a) (fun d hd => hd.trans (queueWriteComplete_sameInput d))
    fun _ hd => hd.trans ⟨rfl,rfl⟩

theorem bufferRest_sameInput {m : Option Bytes} {fd : Int} {sent : Sent}
    {reads : List FileAnswer} (hd : (c.bufferRest m fd sent reads).Returns d) :
    SameInput c d := by
  obtain ⟨e,he,hd⟩ := (Prog.returns_bind _ _ _).mp hd
  have hrest : SameInput c e := by
    split_ifs at he
    · obtain ⟨⟨_,_,b⟩,_,he⟩ := (Prog.returns_bind _ _ _).mp he
      cases (Prog.returns_pure _ _).mp he
      exact ⟨rfl,rfl⟩
    · obtain ⟨b,_,he⟩ := (Prog.returns_bind _ _ _).mp he
      cases (Prog.returns_pure _ _).mp he
      exact ⟨rfl,rfl⟩
  cases (Prog.returns_pure _ _).mp hd
  refine hrest.trans ?_
  split_ifs <;> exact ⟨rfl,rfl⟩

theorem sendInLoop_sameInput {m : Option Bytes} {fd size : Int} {a : WriteAnswer}
    {reads : List FileAnswer} (hd : (c.sendInLoop m fd size a reads).Returns d) :
    SameInput c d := by
  rw [sendInLoop] at hd
  by_cases hs : c.state = .kDisconnected
  · rw [if_pos hs] at hd
    cases (Prog.returns_pure _ _).mp hd
    exact .refl c
  · rw [if_neg hs] at hd
    have htried : SameInput c (if c.idle then c.directWrite m fd size a
        else (c,{ remaining := messageLen m })).1 := by
      split_ifs
      · exact directWrite_sameInput c m fd size a
      · exact .refl c
    generalize (if c.idle then c.directWrite m fd size a
      else (c,{ remaining := messageLen m })) = tried at hd htried
    obtain ⟨u,_,hd⟩ := (Prog.returns_bind _ _ _).mp hd
    split_ifs at hd
    · exact htried.trans (bufferRest_sameInput hd)
    · cases (Prog.returns_pure _ _).mp hd
      exact htried

def UserCall.Outward : UserCall → Prop
  | .retrieve _ => False
  | .retrieveAll => False
  | _ => True

theorem apply_sameInput {u : UserCall} (hu : u.Outward) (hd : (u.apply c).Returns d) :
    SameInput c d := by
  cases u with
  | send m a =>
    change (c.send m a).Returns d at hd
    rw [send] at hd
    split_ifs at hd
    · exact sendInLoop_sameInput hd
    · cases (Prog.returns_pure _ _).mp hd
      exact .refl c
  | sendFile fd size a reads =>
    change (c.sendFile fd size a reads).Returns d at hd
    rw [sendFile] at hd
    split_ifs at hd
    · cases (Prog.returns_pure _ _).mp hd
      exact .refl c
    · exact sendInLoop_sameInput hd
    · cases (Prog.returns_pure _ _).mp hd
      exact .refl c
  | shutdown =>
    cases (Prog.returns_pure _ _).mp hd
    exact shutdown_sameInput c
  | forceClose =>
    cases (Prog.returns_pure _ _).mp hd
    exact forceClose_sameInput c
  | startRead =>
    cases (Prog.returns_pure _ _).mp hd
    rw [startReadInLoop]
    split_ifs <;> exact ⟨rfl,rfl⟩
  | stopRead =>
    cases (Prog.returns_pure _ _).mp hd
    rw [stopReadInLoop]
    split_ifs <;> exact ⟨rfl,rfl⟩
  | retrieve len => exact hu.elim
  | retrieveAll => exact hu.elim
  | xopen fd content =>
    unfold UserCall.apply at hd
    dsimp only at hd
    split_ifs at hd <;> cases (Prog.returns_pure _ _).mp hd <;> exact ⟨rfl,rfl⟩

theorem calls_sameInput {us : List UserCall} (hus : ∀ u∈us, u.Outward)
    (hd : (calls us c).Returns d) : SameInput c d := by
  induction us generalizing c with
  | nil =>
    cases (Prog.returns_pure _ _).mp hd
    exact .refl _
  | cons u us ih =>
    obtain ⟨e,he,hd⟩ := (Prog.returns_bind _ _ _).mp hd
    exact (apply_sameInput (hus u List.mem_cons_self) he).trans
      (ih (fun v hv => hus v (List.mem_cons_of_mem _ hv)) hd)

theorem flushed_sameInput (c : Conn) : SameInput c c.flushed := by
  have hq : SameInput c (c.onChannel Channel.disableWriting).queueWriteComplete :=
    (queueWriteComplete_sameInput _).after rfl rfl
  rw [flushed]
  split_ifs
  · exact hq.trans (shutdownWriteInLoop_sameInput _)
  · exact hq

theorem handleWrite_sameInput {a : WriteAnswer} (hd : (c.handleWrite a).Returns d) :
    SameInput c d := by
  have hall : Prog.Ensures (c.handleWrite a) (SameInput c) fun _ => True :=
    handleWrite_rule (P := fun d => SameInput c d) (.refl c)
      (write_sameInput c c.outputBuffer.contents a) (fun _ _ he => he.trans ⟨rfl,rfl⟩)
      fun e he => he.trans (flushed_sameInput e)
  exact hall.result hd

theorem handleClose_sameInput (hd : c.handleClose.Returns d) : SameInput c d := by
  obtain ⟨u,_,hd⟩ := (Prog.returns_bind _ _ _).mp hd
  cases (Prog.returns_pure _ _).mp hd
  exact ⟨rfl,rfl⟩

theorem runFunctor_sameInput (hd : (c.runFunctor pure).Returns d) : SameInput c d := by
  rw [runFunctor] at hd
  cases hp : c.pendingFunctors with
  | nil =>
    rw [hp] at hd
    cases (Prog.returns_pure _ _).mp hd
    exact .refl c
  | cons f fs =>
    rw [hp] at hd
    cases f with
    | addConnectInLoop | writeCompleteCallback =>
      cases (Prog.returns_pure _ _).mp hd
      exact ⟨rfl,rfl⟩
    | connectEstablished =>
      obtain ⟨u,_,hd⟩ := (Prog.returns_bind _ _ _).mp hd
      cases (Prog.returns_pure _ _).mp hd
      exact ⟨rfl,rfl⟩
    | forceCloseInLoop =>
      dsimp only at hd
      rw [forceCloseInLoop] at hd
      split_ifs at hd
      · exact (handleClose_sameInput hd).after rfl rfl
      · cases (Prog.returns_pure _ _).mp hd
        exact ⟨rfl,rfl⟩
    | connectDestroyed =>
      obtain ⟨e,he,hd⟩ := (Prog.returns_bind _ _ _).mp hd
      rw [disconnect] at he
      cases (Prog.returns_pure _ _).mp hd
      split_ifs at he <;> cases (Prog.returns_pure _ _).mp he <;> exact ⟨rfl,rfl⟩

end Conn
end AdlServer.Net

namespace AdlServer.Http
open Program Memory Cpp Net Conn
variable {c c' d : Conn} {buf : NetBuffer} {s t : Bytes}

/-! The connection of the server, event by event. -/

inductive ServerEvent where
  | handleEvent (sys : System) (revents : Events) (answers : List ReadAnswer)
    (answer : WriteAnswer)
  | runFunctor

def serverStep (c : Conn) : ServerEvent → Prog Fault Conn
  | .handleEvent sys revents answers answer =>
    if c.poller.interest c.channel.fd = none then pure c
    else c.handleEvent (serve sys) revents answers answer
  | .runFunctor => c.runFunctor pure

inductive Invoked (c : Conn) : ServerEvent → Conn → Prop where
  | mk {e : Conn} {sys : System} {revents : Events} {answers : List ReadAnswer} {answer : WriteAnswer}
    {ret : ReadReturn} {socket : NetBuffer.Socket} {b : NetBuffer}
    (hreg : c.poller.interest c.channel.fd ≠ none) (hup : (c.onHup revents).Returns e)
    (hin : revents&&&(EPOLLIN|||EPOLLPRI|||EPOLLRDHUP) ≠ 0)
    (hread : (NetBuffer.readFd NetBuffer.Socket.read { answers := answers } e.inputBuffer
      0).Returns (ret,socket,b)) (hopen : ret.writeClosed = false) (hgot : 0 < ret.n) :
    Invoked c (.handleEvent sys revents answers answer)
      { e with inputBuffer := b, received := e.received++socket.received }

/-- In some run from `c`, `messageCallback_` is called with these connections. The last of the
calls need not return. -/
inductive Invocations : Conn → List Conn → Prop where
  | nil (c : Conn) : Invocations c []
  | last {c d : Conn} {ev : ServerEvent} (h : Invoked c ev d) : Invocations c [d]
  | invoked {c c' d : Conn} {ev : ServerEvent} {ds : List Conn} (h : Invoked c ev d)
    (hs : (serverStep c ev).Returns c') (hds : Invocations c' ds) : Invocations c (d::ds)
  | aside {c c' : Conn} {ev : ServerEvent} {ds : List Conn} (h : ∀ d, ¬ Invoked c ev d)
    (hs : (serverStep c ev).Returns c') (hds : Invocations c' ds) : Invocations c ds

def Takes (state : FinnalState) (d : Conn) : Prop :=
  ∃ p, (parse (shift d.inputBuffer.buf d.inputBuffer.r) d.inputBuffer.readable).Returns p ∧
    p.finalState = state

theorem Takes.unique {state state' : FinnalState} (h : Takes state d) (h' : Takes state' d) :
    state = state' := by
  obtain ⟨p,hp,hs⟩ := h
  obtain ⟨p',hp',hs'⟩ := h'
  rw [← hs,← hs',hp.unique hp']

/-! What becomes of the input. -/

theorem answer_outward (sys : System) (request : HttpRequest) :
    ∀ u∈(answer sys request).1, u.Outward := by
  have hrespond (r : HttpRespond) (u : UserCall)
      (hu : u∈r.respond sys.head sys.body sys.reads) : u.Outward := by
    rw [HttpRespond.respond] at hu
    split_ifs at hu <;> simp at hu
    · obtain rfl | rfl := hu <;> trivial
    · obtain rfl | rfl := hu <;> trivial
    · subst hu
      trivial
  have hclose (kep : Bool) (u : UserCall)
      (hu : u∈if !kep then [UserCall.forceClose] else []) : u.Outward := by
    cases kep <;> simp at hu
    subst hu
    trivial
  have hpage (l : Located) (u : UserCall) (hu : u∈l.calls) : u.Outward := by
    obtain ⟨o,_,hu⟩ := List.mem_flatMap.mp hu
    rw [Page.opened] at hu
    split_ifs at hu <;> simp at hu
    subst hu
    trivial
  intro u hu
  rw [answer] at hu
  cases hm : request.line.method with
  | none =>
    rw [hm] at hu
    exact hclose _ u hu
  | some m =>
    rw [hm] at hu
    cases m with
    | GET =>
      dsimp only at hu
      by_cases hfd : (parseUrl sys request.line.url).fd < 0
      · rw [if_pos hfd] at hu
        cases List.mem_append.mp hu with
        | inl hu => exact hpage _ u hu
        | inr hu =>
          rw [List.mem_singleton.mp hu]
          trivial
      · rw [if_neg hfd] at hu
        cases List.mem_append.mp hu with
        | inl hu =>
          cases List.mem_append.mp hu with
          | inl hu => exact hpage _ u hu
          | inr hu => exact hrespond _ u hu
        | inr hu => exact hclose _ u hu
    | POST =>
      cases List.mem_append.mp hu with
      | inl hu => exact hrespond _ u hu
      | inr hu => exact hclose _ u hu

inductive Treated (d e : Conn) : Prop where
  | served {b : NetBuffer} {len : Int} (h : Takes .success d)
    (hb : (d.inputBuffer.retrieve len).Returns b)
    (he : SameInput { d with inputBuffer := b } e)
  | waits (h : Takes .incomplete d) (he : SameInput d e)
  | rejected (h : Takes .failed d)
    (he : SameInput { d with inputBuffer := d.inputBuffer.retrieveAll } e)

theorem serve_treats {sys : System} {e : Conn} (he : (serve sys d).Returns e) : Treated d e := by
  obtain ⟨handled,hh,he⟩ := (Prog.returns_bind _ _ _).mp he
  obtain ⟨p,hp,hh⟩ := (Prog.returns_bind _ _ _).mp hh
  cases hs : p.finalState with
  | success =>
    rw [hs] at hh
    obtain ⟨b,hb,hh⟩ := (Prog.returns_bind _ _ _).mp hh
    cases (Prog.returns_pure _ _).mp hh
    exact .served ⟨p,hp,hs⟩ hb (calls_sameInput (answer_outward sys p.request) he)
  | incomplete =>
    rw [hs] at hh
    cases (Prog.returns_pure _ _).mp hh
    exact .waits ⟨p,hp,hs⟩ (calls_sameInput (by simp) he)
  | failed =>
    rw [hs] at hh
    cases (Prog.returns_pure _ _).mp hh
    refine .rejected ⟨p,hp,hs⟩ (calls_sameInput ?_ he)
    intro u hu
    rw [List.mem_singleton.mp hu]
    trivial

theorem onHup_sameInput {revents : Events} (h : (c.onHup revents).Returns d) : SameInput c d := by
  rw [onHup] at h
  split_ifs at h
  · exact handleClose_sameInput h
  · cases (Prog.returns_pure _ _).mp h
    exact .refl _

theorem Invoked.ends {sys : System} {revents : Events} {answers : List ReadAnswer}
    {answer : WriteAnswer} (h : Invoked c (.handleEvent sys revents answers answer) d)
    (o : Except Fault Conn) :
    (serverStep c (.handleEvent sys revents answers answer)).Ends o ↔
      (serve sys d >>= fun e =>
        if revents&&&EPOLLOUT ≠ 0 then e.handleWrite answer else pure e).Ends o := by
  cases h with
  | @mk e _ _ _ _ ret socket b hreg hup hin hread hopen hgot =>
    have hcall (o : Except Fault Conn) :
        (e.onReadable (serve sys) revents answers).Ends o ↔ (serve sys { e with
          inputBuffer := b, received := e.received++socket.received }).Ends o := by
      rw [onReadable,if_pos hin,handleRead,hread.ends_bind]
      dsimp only
      rw [if_neg (by simp [hopen]),if_pos hgot]
    rw [serverStep,if_neg hreg,handleEvent,hup.ends_bind,Prog.ends_bind,Prog.ends_bind]
    simp only [Prog.Returns,hcall]

theorem Invoked.treats {ev : ServerEvent} (h : Invoked c ev d)
    (hs : (serverStep c ev).Returns c') : Treated d c' := by
  cases ev with
  | runFunctor => cases h
  | handleEvent sys revents answers answer =>
    obtain ⟨e,he,hs⟩ := (Prog.returns_bind _ _ _).mp ((h.ends _).mp hs)
    have hwrite : SameInput e c' := by
      split_ifs at hs
      · exact handleWrite_sameInput hs
      · cases (Prog.returns_pure _ _).mp hs
        exact .refl _
    cases serve_treats he with
    | served h hb he => exact .served h hb (he.trans hwrite)
    | waits h he => exact .waits h (he.trans hwrite)
    | rejected h he => exact .rejected h (he.trans hwrite)

inductive Aside (c c' : Conn) : Prop where
  | same (h : SameInput c c')
  | read {answers : List ReadAnswer} {ret : ReadReturn} {socket : NetBuffer.Socket}
    {b : NetBuffer} (hread : (NetBuffer.readFd NetBuffer.Socket.read { answers := answers }
      c.inputBuffer 0).Returns (ret,socket,b))
    (h : SameInput { c with inputBuffer := b, received := c.received++socket.received } c')

theorem serverStep_aside {ev : ServerEvent} (hn : ∀ d, ¬ Invoked c ev d)
    (hs : (serverStep c ev).Returns c') : Aside c c' := by
  cases ev with
  | runFunctor => exact .same (runFunctor_sameInput hs)
  | handleEvent sys revents answers answer =>
    change (if c.poller.interest c.channel.fd = none then pure c
      else c.handleEvent (serve sys) revents answers answer).Returns c' at hs
    by_cases hreg : c.poller.interest c.channel.fd = none
    · rw [if_pos hreg] at hs
      cases (Prog.returns_pure _ _).mp hs
      exact .same (.refl _)
    · rw [if_neg hreg] at hs
      obtain ⟨f,hf,hs⟩ := (Prog.returns_bind _ _ _).mp hs
      obtain ⟨e,he,hs⟩ := (Prog.returns_bind _ _ _).mp hs
      have hup := onHup_sameInput hf
      have hwrite : SameInput e c' := by
        split_ifs at hs
        · exact handleWrite_sameInput hs
        · cases (Prog.returns_pure _ _).mp hs
          exact .refl _
      rw [onReadable] at he
      by_cases hin : revents&&&(EPOLLIN|||EPOLLPRI|||EPOLLRDHUP) ≠ 0
      · rw [if_pos hin,handleRead] at he
        obtain ⟨⟨ret,socket,b⟩,hread,he⟩ := (Prog.returns_bind _ _ _).mp he
        have hread' := hread
        rw [hup.buffer] at hread'
        refine .read hread' (.trans (d := { f with
          inputBuffer := b, received := f.received++socket.received }) ⟨rfl,?_⟩ ?_)
        · exact congrArg (·++socket.received) hup.received
        · refine .trans ?_ hwrite
          dsimp only at he
          by_cases hopen : ret.writeClosed
          · rw [if_pos hopen] at he
            exact handleClose_sameInput he
          · rw [if_neg hopen] at he
            rw [if_neg (fun hgot => hn _ (.mk hreg hf hin hread (by simpa using hopen) hgot))] at he
            cases (Prog.returns_pure _ _).mp he
            exact .refl _
      · rw [if_neg hin] at he
        cases (Prog.returns_pure _ _).mp he
        exact .same (hup.trans hwrite)

theorem Invoked.ready {ev : ServerEvent} (h : Invoked c ev d) (hc : c.inputBuffer.Ready) :
    d.inputBuffer.Ready := by
  cases h with
  | mk hreg hup hin hread hopen hgot =>
    rw [(onHup_sameInput hup).buffer] at hread
    exact NetBuffer.readFd_ready hc hread

theorem Treated.ready (h : Treated c d) (hc : c.inputBuffer.Ready) : d.inputBuffer.Ready := by
  cases h with
  | served h hb he =>
    rw [he.buffer]
    exact NetBuffer.retrieve_ready hc hb
  | waits h he =>
    rw [he.buffer]
    exact hc
  | rejected h he =>
    rw [he.buffer]
    exact ⟨hc.toSound.retrieveAll,hc.alloc_pos⟩

theorem Aside.ready (h : Aside c d) (hc : c.inputBuffer.Ready) : d.inputBuffer.Ready := by
  cases h with
  | same h =>
    rw [h.buffer]
    exact hc
  | read hread h =>
    rw [h.buffer]
    exact NetBuffer.readFd_ready hc hread

def Since (t : Bytes) (c : Conn) : Prop := ∃ s, c.inputBuffer.Holds s ∧ c.received = t++s

theorem Since.same (h : Since t c) (hs : SameInput c d) : Since t d := by
  obtain ⟨s,hh,hr⟩ := h
  exact ⟨s,hs.buffer ▸ hh,hs.received.trans hr⟩

theorem Since.read (h : Since t c) {answers : List ReadAnswer} {ret : ReadReturn}
    {socket : NetBuffer.Socket} {b : NetBuffer} (hread : (NetBuffer.readFd NetBuffer.Socket.read
      { answers := answers } c.inputBuffer 0).Returns (ret,socket,b)) :
    Since t { c with inputBuffer := b, received := c.received++socket.received } := by
  obtain ⟨s,hh,hr⟩ := h
  have hfresh : NetBuffer.Socket.Received { answers := answers } [] := ⟨rfl,by simp⟩
  obtain ⟨got,_,hgot,hb⟩ :=
    (NetBuffer.readFd_ensures NetBuffer.Socket.delivers 0 hh.wf hfresh).result hread
  rw [hh.contents_eq] at hb
  refine ⟨s++got,hb,?_⟩
  change c.received++socket.received = t++(s++got)
  rw [hr,hgot.1,List.append_assoc]

theorem Invoked.since {ev : ServerEvent} (h : Invoked c ev d) (hc : Since t c) : Since t d := by
  cases h with
  | mk hreg hup hin hread hopen hgot => exact (hc.same (onHup_sameInput hup)).read hread

theorem Aside.since (h : Aside c d) (hc : Since t c) : Since t d := by
  cases h with
  | same h => exact hc.same h
  | read hread h => exact (hc.read hread).same h

theorem Treated.since (h : Treated c d) (hs : ¬ Takes .success c) (hf : ¬ Takes .failed c)
    (hc : Since t c) : Since t d := by
  cases h with
  | served h hb he => exact absurd h hs
  | waits h he => exact hc.same he
  | rejected h he => exact absurd h hf

theorem Treated.fresh (h : Treated c d) (hf : Takes .failed c) (hc : c.inputBuffer.Ready) :
    Since c.received d := by
  cases h with
  | served h hb he => cases h.unique hf
  | waits h he => cases h.unique hf
  | rejected h he =>
    refine ⟨[],?_,by rw [he.received,List.append_nil]⟩
    rw [he.buffer]
    exact hc.toSound.retrieveAll_holds

/-! Runs. -/

section
variable {before mid after ds : List Conn} {e : Conn}

theorem Invocations.reaches (h : Invocations c ds) (hc : c.inputBuffer.Ready)
    (hds : ds = before++d::e::after) :
    d.inputBuffer.Ready ∧ ∃ c', Treated d c' ∧ Invocations c' (e::after) := by
  induction h generalizing before with
  | nil => simp at hds
  | last h =>
    have := congrArg List.length hds
    simp at this
    omega
  | @invoked c c' x ev ds h hs hrest ih =>
    cases before with
    | nil =>
      obtain ⟨rfl,rfl⟩ := List.cons.inj hds
      exact ⟨h.ready hc,c',h.treats hs,hrest⟩
    | cons y before =>
      exact ih ((h.treats hs).ready (h.ready hc)) (List.cons.inj hds).2
  | aside h hs hrest ih => exact ih ((serverStep_aside h hs).ready hc) hds

theorem Invocations.keeps (h : Invocations c ds) (hds : ds = mid++e::after)
    (hmid : ∀ x∈mid, ¬ Takes .failed x ∧ ¬ Takes .success x) (hc : Since t c) : Since t e := by
  induction h generalizing mid with
  | nil => simp at hds
  | last h =>
    cases mid with
    | nil =>
      obtain ⟨rfl,_⟩ := List.cons.inj hds
      exact h.since hc
    | cons x mid => simp at hds
  | @invoked c c' x ev ds h hs hrest ih =>
    cases mid with
    | nil =>
      obtain ⟨rfl,_⟩ := List.cons.inj hds
      exact h.since hc
    | cons y mid =>
      obtain ⟨rfl,hrest'⟩ := List.cons.inj hds
      obtain ⟨hf,hsucc⟩ := hmid _ List.mem_cons_self
      exact ih hrest' (fun z hz => hmid z (List.mem_cons_of_mem _ hz))
        ((h.treats hs).since hsucc hf (h.since hc))
  | aside h hs hrest ih => exact ih hds hmid ((serverStep_aside h hs).since hc)

end

/-! Which input is rejected, and which is executed. -/

/-- What `parse` takes for a bad request: a method that is not supported, a version that is not
known, a header line without a space, or a POST with more data but no length. -/
inductive BadRequest (buf : Mem) (len : Int) : Prop where
  | badMethod (line : Bytes) (h : LineIn (slice buf 0 len) line)
    (hg : ¬ Method.GET.text<+:line) (hp : ¬ Method.POST.text<+:line)
  | badVersion (line url t : Bytes) (m : Method) (h : LineIn (slice buf 0 len) line)
    (hl : line = m.text++SP::(url++SP::t)) (hu : SP∉url) (ht : t ≠ [])
    (hk : ¬ knownVersion (versionBytes buf m url))
  | noSpace (l : RawLine) (hs : List RawHeader) (seg rest : Bytes)
    (h : slice buf 0 len = l.text++(headersText hs++(seg++CR::LF::rest))) (hne : seg ≠ [])
    (hcr : CR∉seg) (hsp : SP∉seg)
  | noLength (l : RawLine) (hs : List RawHeader) (rest : Bytes) (hm : l.method = .POST)
    (h : slice buf 0 len = headText l hs++rest) (hne : rest ≠ [])
    (hf : (addHeaders {} hs).find contentLength = none)

def Bad (d : Conn) : Prop :=
  BadRequest (shift d.inputBuffer.buf d.inputBuffer.r) d.inputBuffer.readable

/-- In front of the data stands a GET with a complete head, or a POST with a complete head, more
data, and a positive length that as an `int` sum with the head does not pass them. -/
def Runnable (data : Bytes) : Prop :=
  ∃ (l : RawLine) (hs : List RawHeader) (rest : Bytes), data = headText l hs++rest ∧
    (l.method = .GET ∨ l.method = .POST ∧ rest ≠ [] ∧ ∃ kv v,
      (addHeaders {} hs).find contentLength = some kv ∧ (stoi kv.2).Returns v ∧ 0 < v ∧
      wrapInt ((headText l hs).length+v) ≤ data.length)

theorem takes_failed_iff (h0 : 0 ≤ d.inputBuffer.readable) : Takes .failed d ↔ Bad d := by
  constructor
  · intro hf
    obtain ⟨p,hp,hs⟩ := hf
    obtain ⟨o,ho⟩ := answer_exists (shift d.inputBuffer.buf d.inputBuffer.r) d.inputBuffer.readable
    have hh : (Outcome.verdict .failed p.request).Holds
      (shift d.inputBuffer.buf d.inputBuffer.r) d.inputBuffer.readable := ⟨p,hp,hs,rfl⟩
    have heq := hh.unique (ho.holds h0)
    cases ho with
    | badMethod line h hg hp => exact .badMethod line h hg hp
    | badVersion line url t m h hl hu ht hk => exact .badVersion line url t m h hl hu ht hk
    | noSpace l hs seg rest h hne hcr hsp => exact .noSpace l hs seg rest h hne hcr hsp
    | noLength l hs rest hm h hne hf => exact .noLength l hs rest hm h hne hf
    | nothing | lastCr | noVersion | lineOnly | openHead | spaceFirst | loneCr | get | noBody
    | badLength | notPositive | shortBody | body => cases heq
  · intro hb
    have verdict {request : HttpRequest} (hh : (Outcome.verdict .failed request).Holds
        (shift d.inputBuffer.buf d.inputBuffer.r) d.inputBuffer.readable) : Takes .failed d := by
      obtain ⟨p,hp,hs,_⟩ := hh
      exact ⟨p,hp,hs⟩
    cases hb with
    | badMethod line h hg hp => exact verdict (holds_badMethod h0 h hg hp)
    | badVersion line url t m h hl hu ht hk => exact verdict (holds_badVersion h0 h hl hu ht hk)
    | noSpace l hs seg rest h hne hcr hsp => exact verdict (holds_noSpace h hne hcr hsp)
    | noLength l hs rest hm h hne hf => exact verdict (holds_noLength hm h hne hf)

theorem takes_success_iff (h : d.inputBuffer.Wf) :
    Takes .success d ↔ Runnable d.inputBuffer.contents := by
  have hlen := h.length_contents
  have hdata := slice_peek d.inputBuffer
  constructor
  · intro hs
    obtain ⟨p,hp,hs⟩ := hs
    obtain ⟨l,hds,rest,hl,hcase⟩ := parse_success_inv (by omega) hp hs
    refine ⟨l,hds,rest,hdata.symm.trans hl,?_⟩
    cases hcase with
    | inl hget => exact .inl hget.1
    | inr hpost =>
      obtain ⟨hm,hne,kv,v,hf,hv,hpos,hw,_⟩ := hpost
      exact .inr ⟨hm,hne,kv,v,hf,hv,hpos,by rwa [hlen]⟩
  · intro hr
    obtain ⟨l,hds,rest,hl,hcase⟩ := hr
    have hl' := hdata.trans hl
    cases hcase with
    | inl hget =>
      obtain ⟨p,hp,hs,_⟩ := holds_get hget hl'
      exact ⟨p,hp,hs⟩
    | inr hpost =>
      obtain ⟨hm,hne,kv,v,hf,hv,hpos,hw⟩ := hpost
      rw [hlen] at hw
      obtain ⟨p,hp,hs,_⟩ := holds_body ⟨hl',hne,hm,hf⟩ hv hpos hw
      exact ⟨p,hp,hs⟩

/-! The claim: a rejected connection executes nothing more. -/

/-- After a call that takes the branch of a failure none takes that of a success. -/
def NothingMore (ds : List Conn) : Prop :=
  ∀ before d mid e after, ds = before++d::(mid++e::after) → Takes .failed d → ¬ Takes .success e

/-- What has been received between two calls. -/
def receivedSince (d e : Conn) : Bytes := e.received.drop d.received.length

section
variable {before mid after ds : List Conn} {e : Conn}

theorem Invocations.buffered (h : Invocations c ds) (hc : c.inputBuffer.Ready)
    (hds : ds = before++d::(mid++e::after)) (hf : Takes .failed d)
    (hmid : ∀ x∈mid, ¬ Takes .failed x ∧ ¬ Takes .success x) :
    e.inputBuffer.Holds (receivedSince d e) := by
  have hreach : d.inputBuffer.Ready ∧ ∃ c', Treated d c' ∧ Invocations c' (mid++e::after) := by
    cases mid with
    | nil => exact h.reaches hc hds
    | cons x mid => exact h.reaches hc hds
  obtain ⟨hd,c',ht,hrest⟩ := hreach
  obtain ⟨s,hs,hr⟩ := hrest.keeps rfl hmid (ht.fresh hf hd)
  rwa [receivedSince,hr,List.drop_left]

theorem Invocations.ready (h : Invocations c ds) (hc : c.inputBuffer.Ready) (hd : d∈ds) :
    d.inputBuffer.Ready := by
  induction h with
  | nil => cases hd
  | last h =>
    rw [List.mem_singleton.mp hd]
    exact h.ready hc
  | invoked h hs hrest ih =>
    cases List.mem_cons.mp hd with
    | inl hd =>
      rw [hd]
      exact h.ready hc
    | inr hd => exact ih ((h.treats hs).ready (h.ready hc)) hd
  | aside h hs hrest ih => exact ih ((serverStep_aside h hs).ready hc) hd

/-- Nothing is executed after a rejection exactly if what is received after one never begins,
before the next, with a request that `parse` takes. -/
theorem rejected_executes_nothing_iff (sockfd : Int) (reading writeComplete : Bool)
    (input output : Mem) (ds : List Conn)
    (h : Invocations (newConnection sockfd reading writeComplete input output) ds) :
    NothingMore ds ↔ ∀ before d mid e after, ds = before++d::(mid++e::after) → Bad d →
      (∀ x∈mid, ¬ Bad x) → ¬ Runnable (receivedSince d e) := by
  have hc : (newConnection sockfd reading writeComplete input output).inputBuffer.Ready :=
    ⟨NetBuffer.create_sound (by decide) (by decide) input,(by decide : (0:Int) < 4096)⟩
  constructor
  · intro hn before d mid e after hds hbad hmid hrun
    have bad (x : Conn) (hx : x∈ds) : Takes .failed x ↔ Bad x :=
      takes_failed_iff (h.ready hc hx).readable_nonneg
    have hf := (bad d (by simp [hds])).mpr hbad
    have hidle : ∀ x∈mid, ¬ Takes .failed x ∧ ¬ Takes .success x := by
      intro x hx
      refine ⟨fun hfx => hmid x hx ((bad x (by simp [hds,hx])).mp hfx),fun hsx => ?_⟩
      obtain ⟨mid1,mid2,hsplit⟩ := List.append_of_mem hx
      exact hn before d mid1 x (mid2++e::after) (by simp [hds,hsplit]) hf hsx
    have hh := h.buffered hc hds hf hidle
    refine hn before d mid e after hds hf ((takes_success_iff hh.wf).mpr ?_)
    rwa [hh.contents_eq]
  · intro hno before d mid e after hds hf hs
    obtain ⟨before',d',mid',e',after',hsplit,hf',hs',hmid'⟩ :=
      Runs.exists_adjacent (P := Takes .failed) (Q := Takes .success) d e mid hf hs
    have hds' : ds = (before++before')++d'::(mid'++e'::(after'++after)) := by
      have htake : ds = before++((d::(mid++[e]))++after) := by simp [hds]
      rw [htake,hsplit]
      simp
    have bad (x : Conn) (hx : x∈ds) : Takes .failed x ↔ Bad x :=
      takes_failed_iff (h.ready hc hx).readable_nonneg
    have hh := h.buffered hc hds' hf' hmid'
    refine hno _ d' mid' e' _ hds' ((bad d' (by simp [hds'])).mp hf') (fun x hx hbad => ?_) ?_
    · exact (hmid' x hx).1 ((bad x (by simp [hds',hx])).mpr hbad)
    · rw [← hh.contents_eq]
      exact (takes_success_iff hh.wf).mp hs'

end

/-! A bad request, and then a good one. -/

def bytewise (s : Bytes) : List ReadResult := s.map fun a => .piece [a]

theorem bytewise_bytes (s : Bytes) : roundBytes (bytewise s) = s := by
  induction s with
  | nil => rfl
  | cons a s ih => exact congrArg (a::·) ih

theorem bytewise_granted (h : buf.Wf) (s : Bytes) : Granted buf (bytewise s) := by
  induction s generalizing buf with
  | nil => trivial
  | cons a s ih =>
    have hroom : (([a] : Bytes).length:Int) ≤ buf.writeable := h.writeable_pos
    refine ⟨by simp,hroom,fun d e hd he => ?_⟩
    obtain ⟨d',hd',hin,_⟩ := NetBuffer.store_returns h.toInBounds hroom
    cases hd.unique hd'
    exact ih ((NetBuffer.checkSmall_ensures hin).result he).wf

def delivery (s : Bytes) : ServerEvent :=
  .handleEvent quiet EPOLLIN (roundAnswers (bytewise s) false) (.accept 0)

theorem delivery_invokes (hreg : c.poller.interest c.channel.fd ≠ none) (hc : c.inputBuffer.Wf)
    (hne : s ≠ []) (hsmall : c.inputBuffer.readable+s.length+4096 < 2^30) :
    ∃ d, Invoked c (delivery s) d ∧ d.inputBuffer.Holds (c.inputBuffer.contents++s) ∧
      d.channel = c.channel ∧ d.poller = c.poller := by
  obtain ⟨socket,b,hread,hh,_⟩ := readFd_round false hc (bytewise_granted hc s) (by
    rw [bytewise_bytes]
    exact NetBuffer.growable_of_small hc.alloc_pos hsmall)
  rw [bytewise_bytes] at hread hh
  have hpos := List.length_pos_iff.mpr hne
  have hup : (c.onHup EPOLLIN).Returns c := by
    rw [onHup,if_neg (by decide)]
    exact Prog.returns_self c
  refine ⟨_,.mk hreg hup (by decide) hread rfl ?_,hh,rfl,rfl⟩
  change 0 < (s.length:Int)
  omega

def reject (d : Conn) : Conn := { d with inputBuffer := d.inputBuffer.retrieveAll }.shutdown

theorem reject_channel (d : Conn) : (reject d).channel = d.channel ∧ (reject d).poller = d.poller := by
  rw [reject,shutdown]
  split_ifs
  · rw [shutdownWriteInLoop]
    split_ifs <;> exact ⟨rfl,rfl⟩
  · exact ⟨rfl,rfl⟩

theorem delivery_rejected (h : Invoked c (delivery s) d) (hf : Takes .failed d) :
    (serverStep c (delivery s)).Returns (reject d) := by
  obtain ⟨p,hp,hs⟩ := hf
  have hcall : (httpMessageCallback quiet d.inputBuffer).Returns
      { buf := d.inputBuffer.retrieveAll, calls := [.shutdown] } := by
    refine hp.bind ?_
    rw [hs]
    exact Prog.returns_self _
  have hserve : (serve quiet d).Returns (reject d) := hcall.bind (Prog.returns_self _)
  refine (h.ends _).mpr (hserve.bind ?_)
  rw [if_neg (by decide)]
  exact Prog.returns_self _

def noMethod : Bytes := [88,13,10]

def fresh : Conn := newConnection 5 false false (fun _ => 0) fun _ => 0

def opened : Conn := connected 5 false false (fun _ => 0) fun _ => 0

theorem noMethod_bad (h : d.inputBuffer.Holds noMethod) : Takes .failed d := by
  refine (takes_failed_iff (by rw [h.readable]; omega)).mpr (.badMethod noMethod ?_ (by decide) (by decide))
  rw [slice_peek,h.contents_eq]
  exact .ended [88] [] rfl (by decide)

def rootLine : RawLine where
  method := .GET
  url := [47]
  version := http11
  junk := []
  url_no_space := slash_no_space
  version_known := http11_known
  clean := by decide

theorem getRoot_runs (h : d.inputBuffer.Holds getRoot) : Takes .success d :=
  (takes_success_iff h.wf).mpr ⟨rootLine,[],[],h.contents_eq,.inl rfl⟩

theorem rejected_run : ∃ d e, Invocations fresh [d,e] ∧ Takes .failed d ∧ Takes .success e := by
  have hin := NetBuffer.create_holds (by decide : (1:Int) ≤ 4096) fun _ => 0
  obtain ⟨d,hd,hdata,hchannel,hpoller⟩ := @delivery_invokes opened noMethod (by decide) hin.wf
    (by decide) (by decide)
  have hf := noMethod_bad hdata
  have hempty : (reject d).inputBuffer.Holds [] := by
    rw [reject,(shutdown_sameInput _).buffer]
    exact NetBuffer.retrieveAll_holds hdata.wf
  obtain ⟨e,he,hdata',_⟩ := @delivery_invokes (reject d) getRoot (by
    rw [(reject_channel d).1,(reject_channel d).2,hchannel,hpoller]
    decide) hempty.wf (by decide) (by rw [hempty.readable]; decide)
  rw [hempty.contents_eq] at hdata'
  refine ⟨d,e,?_,hf,getRoot_runs hdata'⟩
  refine .aside (fun _ (h : Invoked _ .runFunctor _) => by cases h) ⟨0,rfl⟩ ?_
  refine .aside (fun _ (h : Invoked _ .runFunctor _) => by cases h) ⟨0,rfl⟩ ?_
  exact .invoked hd (delivery_rejected hd hf) (.last he)

theorem rejected_executes_more : ¬ ∀ (sockfd : Int) (reading writeComplete : Bool)
    (input output : Mem) (ds : List Conn),
    Invocations (newConnection sockfd reading writeComplete input output) ds → NothingMore ds := by
  intro h
  obtain ⟨d,e,hrun,hf,hs⟩ := rejected_run
  exact h 5 false false _ _ [d,e] hrun [] d [] e [] rfl hf hs

theorem rejected_executes_nothing_iff_run : ∃ d e, Invocations fresh [d,e] ∧
    (NothingMore [d,e] ↔ ∀ before x mid y after, [d,e] = before++x::(mid++y::after) → Bad x →
      (∀ z∈mid, ¬ Bad z) → ¬ Runnable (receivedSince x y)) := by
  obtain ⟨d,e,hrun,_⟩ := rejected_run
  exact ⟨d,e,hrun,rejected_executes_nothing_iff 5 false false _ _ [d,e] hrun⟩

end AdlServer.Http
