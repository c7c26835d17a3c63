import AdlServer.WriteSide

/-! How a connection shuts its write side: after `shutdown` or `forceClose`, and not before
all that it took over has been written. -/
namespace AdlServer.Net
open Program Memory Cpp
namespace Conn
variable {c d : Conn} {sockfd : Int} {sent : Bytes}

/-- What an event adds to the messages taken over, which are those of `kConnected`. -/
def takes (c : Conn) (e : Event) : Bytes := if c.state = .kConnected then e.message else []

/-- From `c` to `d` through the events, which made the connection take over `sent`. -/
inductive Takes : Conn → List Event → Bytes → Conn → Prop where
  | nil (c : Conn) : Takes c [] [] c
  | cons {c d f : Conn} {e : Event} {es : List Event} {sent : Bytes}
    (h : (c.step e).Returns d) (hs : Takes d es sent f) : Takes c (e::es) (c.takes e++sent) f

/-- The events of sending and closing. A callback makes no calls of its own: those it could
make may come as events behind it. -/
inductive ClosingEvent : Event → Prop where
  | send (m : Bytes) (a : WriteAnswer) (h : NotFatal a) : ClosingEvent (.call (.send m a))
  | shutdown : ClosingEvent (.call .shutdown)
  | forceClose : ClosingEvent (.call .forceClose)
  | handleWrite (a : WriteAnswer) : ClosingEvent (.handleWrite a)
  | runFunctor : ClosingEvent (.runFunctor [])

/-- The four stages of a connection that has taken over `sent`. -/
inductive Graceful (sockfd : Int) (c : Conn) (sent : Bytes) : Prop where
  | connected (h : Streaming sockfd c) (hs : c.accepted++c.outputBuffer.contents = sent)
    (ht : shutdowns c.trace = [])
  | draining (h : Flow sockfd c) (hd : c.state = .kDisconnecting)
    (hs : c.accepted++c.outputBuffer.contents = sent) (ht : shutdowns c.trace = [])
  | shut (h : Flow sockfd c) (hd : c.state = .kDisconnecting)
    (hw : c.channel.isWriting = false) (ht : shutdowns c.trace = [(0,sent)])
  | closed {s : Stage} (h : At sockfd s c) (hd : c.state = .kDisconnected)
    (ht : shutdowns c.trace = [] ∨ shutdowns c.trace = [(0,sent)])

theorem send_refused (hs : c.state ≠ .kConnected) (m : Bytes) (a : WriteAnswer) :
    c.send m a = pure c := if_neg hs

theorem handleWrite_idle (hw : c.channel.isWriting = false) (a : WriteAnswer) :
    c.handleWrite a = pure c := if_neg (by simp [hw])

theorem not_writing_of_disconnected {s : Stage} (h : At sockfd s c)
    (hd : c.state = .kDisconnected) : c.channel.isWriting = false := by
  refine h.not_writing fun hs => ?_
  subst hs
  cases h.state with
  | inl hc => cases hc.symm.trans hd
  | inr hc => cases hc.symm.trans hd

theorem send_streaming (h : Streaming sockfd c) {m : Bytes} {a : WriteAnswer} (ha : NotFatal a)
    (hd : (c.send m a).Returns d) : Streaming sockfd d ∧
      d.accepted++d.outputBuffer.contents = c.accepted++c.outputBuffer.contents++m ∧
      shutdowns d.trace = shutdowns c.trace := by
  obtain ⟨hs,hc⟩ := (send_ensures h m ha).result hd
  refine ⟨hs,hc.stream,?_⟩
  rw [send] at hd
  rw [if_pos h.state] at hd
  exact ((sendInLoop_sentOnly c _ _ _ _ _).result hd).shutdowns

theorem shutdown_refused (hs : c.state ≠ .kConnected) : c.shutdown = c := if_neg hs

theorem shutdown_graceful (h : Graceful sockfd c sent) : Graceful sockfd c.shutdown sent := by
  cases h with
  | connected h hs ht =>
    obtain ⟨hf,hd,hstream,htrace⟩ := shutdown_flow h.flow h.state
    rw [hs] at hstream
    cases htrace with
    | inl hg =>
      exact .draining hf hd hstream ((hg.shutdowns not_mute_shutdownWrite).trans ht)
    | inr hsh =>
      obtain ⟨hw,hsh⟩ := hsh
      rw [hf.not_writing hw,List.append_nil] at hstream
      refine .shut hf hd hw ?_
      rw [hsh.shutdowns,ht,hstream]
      rfl
  | draining h hd hs ht =>
    rw [shutdown_refused (by simp [hd])]
    exact .draining h hd hs ht
  | shut h hd hw ht =>
    rw [shutdown_refused (by simp [hd])]
    exact .shut h hd hw ht
  | closed h hd ht =>
    rw [shutdown_refused (by simp [hd])]
    exact .closed h hd ht

theorem forceClose_graceful (h : Graceful sockfd c sent) : Graceful sockfd c.forceClose sent := by
  cases h with
  | connected h hs ht =>
    obtain ⟨hf,hd,_,hstream,hg⟩ := forceClose_flow h.flow
    exact .draining hf hd (hstream.trans hs) ((hg.shutdowns not_mute_shutdownWrite).trans ht)
  | draining h hd hs ht =>
    obtain ⟨hf,hd,_,hstream,hg⟩ := forceClose_flow h
    exact .draining hf hd (hstream.trans hs) ((hg.shutdowns not_mute_shutdownWrite).trans ht)
  | shut h hd hw ht =>
    obtain ⟨hf,hd,hchan,_,hg⟩ := forceClose_flow h
    exact .shut hf hd (by rw [hchan,hw]) ((hg.shutdowns not_mute_shutdownWrite).trans ht)
  | closed h hd ht =>
    have he : c.forceClose = c := if_neg (by simp [hd])
    rw [he]
    exact .closed h hd ht

theorem handleWrite_graceful (h : Graceful sockfd c sent) {a : WriteAnswer}
    (hd : (c.handleWrite a).Returns d) : Graceful sockfd d sent := by
  have idle (hw : c.channel.isWriting = false) : d = c := by
    rw [handleWrite_idle hw] at hd
    exact (Prog.returns_pure _ _).mp hd
  cases h with
  | connected h hs ht =>
    obtain ⟨e,he,hstream,hcarry⟩ := handleWrite_returns h a
    have hfl := (handleWrite_flushes h.flow a).result hd
    cases he.unique hd
    refine .connected hstream ?_ ?_
    · rw [hcarry.stream,List.append_nil,hs]
    · cases hfl.trace with
      | inl hg => rw [hg.shutdowns not_sending_shutdownWrite,ht]
      | inr hsh => simp [h.state] at hsh
  | draining h hst hs ht =>
    have hfl := (handleWrite_flushes h a).result hd
    have hst' := hfl.state.trans hst
    cases hfl.trace with
    | inl hg =>
      refine .draining hfl.flow hst' (hfl.stream.trans hs) ?_
      rw [hg.shutdowns not_sending_shutdownWrite,ht]
    | inr hsh =>
      obtain ⟨_,hw,hsh⟩ := hsh
      have hstream := hfl.stream.trans hs
      rw [hfl.flow.not_writing hw,List.append_nil] at hstream
      refine .shut hfl.flow hst' hw ?_
      rw [hsh.shutdowns,ht,hstream]
      rfl
  | shut h hst hw ht =>
    rw [idle hw]
    exact .shut h hst hw ht
  | closed h hst ht =>
    rw [idle (not_writing_of_disconnected h hst)]
    exact .closed h hst ht

theorem calls_keep_nothing : Keeps (calls []) := fun _ _ _ h => Prog.ensures_pure h

theorem handleClose_mute (c : Conn) : Prog.Ensures c.handleClose
    (fun d => d.state = .kDisconnected ∧ Grows Mute c d) fun _ => True := by
  refine (Prog.ensures_true _).bind fun _ _ => Prog.ensures_pure ⟨rfl,?_⟩
  have hset : Grows Mute c (c.setState .kDisconnected) := .snoc rfl (.setState _)
  exact hset.trans (.snoc rfl .closeCallback)

theorem runFunctor_open (h : At sockfd .established c) (hd : (c.runFunctor (calls [])).Returns d) :
    (At sockfd .established d ∧ ∃ fs, d = { c with pendingFunctors := fs }) ∨
    ∃ s, At sockfd s d ∧ d.state = .kDisconnected ∧ Grows Mute c d := by
  have hp := h.pending
  rw [runFunctor] at hd
  cases hfs : c.pendingFunctors with
  | nil =>
    rw [hfs] at hd
    cases (Prog.returns_pure _ _).mp hd
    exact .inl ⟨h,c.pendingFunctors,rfl⟩
  | cons f fs =>
    rw [hfs] at hd hp
    have hrest : At sockfd .established { c with pendingFunctors := fs } :=
      { h with pending := fun g hg => hp g (List.mem_cons_of_mem f hg) }
    cases hp f List.mem_cons_self with
    | inl hf =>
      subst hf
      cases (Prog.returns_pure _ _).mp hd
      exact .inl ⟨hrest,fs,rfl⟩
    | inr hf =>
      subst hf
      obtain ⟨s,hs⟩ := (forceCloseInLoop_ensures hrest).result hd
      have hopen : c.state = .kConnected ∨ c.state = .kDisconnecting := h.state
      have he : ({ c with pendingFunctors := fs } : Conn).forceCloseInLoop =
        ({ c with pendingFunctors := fs } : Conn).handleClose := if_pos hopen
      dsimp only at hd
      rw [he] at hd
      obtain ⟨hst,ht⟩ := (handleClose_mute _).result hd
      exact .inr ⟨s,hs,hst,ht⟩

inductive ClosingStep (c : Conn) : Conn → Prop where
  | aside {d : Conn}
    (hf : c.pendingFunctors.head? = some .forceCloseInLoop → c.state = .kDisconnected)
    (hst : d.state = c.state) (hacc : d.accepted = c.accepted)
    (hout : d.outputBuffer = c.outputBuffer)
    (hw : d.channel.isWriting = c.channel.isWriting)
    (hg : Grows (fun a => Mute a ∧ a ≠ .closeCallback) c d) : ClosingStep c d
  | closes {d : Conn} {fs : List Functor} (hst : c.state = .kDisconnecting)
    (hf : c.pendingFunctors = .forceCloseInLoop::fs)
    (hd : ({ c with pendingFunctors := fs } : Conn).handleClose.Returns d) : ClosingStep c d

theorem runFunctor_closing (hst : c.state = .kDisconnecting ∨ c.state = .kDisconnected)
    (hd : (c.runFunctor (calls [])).Returns d) : ClosingStep c d := by
  rw [runFunctor] at hd
  cases hfs : c.pendingFunctors with
  | nil =>
    rw [hfs] at hd
    cases (Prog.returns_pure _ _).mp hd
    exact .aside (by simp [hfs]) rfl rfl rfl rfl (.of_eq rfl)
  | cons f fs =>
    rw [hfs] at hd
    cases f with
    | addConnectInLoop =>
      cases (Prog.returns_pure _ _).mp hd
      exact .aside (by simp [hfs]) rfl rfl rfl rfl (.snoc rfl ⟨.addConnect,by simp⟩)
    | connectEstablished =>
      have hno : ¬ ({ c with pendingFunctors := fs } : Conn).state = .kConnecting := by
        cases hst with
        | inl hst => simp [hst]
        | inr hst => simp [hst]
      dsimp only [connectEstablished] at hd
      simp [check,hno,Prog.returns_bind] at hd
    | writeCompleteCallback =>
      cases (Prog.returns_pure _ _).mp hd
      exact .aside (by simp [hfs]) rfl rfl rfl rfl (.of_eq rfl)
    | forceCloseInLoop =>
      dsimp only [forceCloseInLoop] at hd
      cases hst with
      | inl hst =>
        rw [if_pos (.inr hst)] at hd
        exact .closes hst hfs hd
      | inr hst =>
        have hno : ¬ (c.state = .kConnected ∨ c.state = .kDisconnecting) := by simp [hst]
        rw [if_neg hno] at hd
        cases (Prog.returns_pure _ _).mp hd
        exact .aside (fun _ => hst) rfl rfl rfl rfl (.of_eq rfl)
    | connectDestroyed =>
      have hno : ¬ c.state = .kConnected := by
        cases hst with
        | inl hst => simp [hst]
        | inr hst => simp [hst]
      dsimp only [connectDestroyed,disconnect,act] at hd
      rw [if_neg hno,Prog.pure_bind] at hd
      cases (Prog.returns_pure _ _).mp hd
      exact .aside (by simp [hfs]) rfl rfl rfl rfl (.snoc rfl ⟨.connectDestroyed _,by simp⟩)

theorem runFunctor_closed {s : Stage} (h : At sockfd s c) (hst : c.state = .kDisconnected)
    (hd : (c.runFunctor (calls [])).Returns d) :
    ∃ s, At sockfd s d ∧ d.state = .kDisconnected ∧ Grows Mute c d := by
  obtain ⟨s',hs'⟩ := (runFunctor_ensures calls_keep_nothing h).result hd
  cases runFunctor_closing (.inr hst) hd with
  | aside hf hst' hacc hout hw hg => exact ⟨s',hs',hst'.trans hst,hg.mono fun _ ha => ha.1⟩
  | closes hst' hf hd => cases hst.symm.trans hst'

theorem runFunctor_graceful (h : Graceful sockfd c sent)
    (hd : (c.runFunctor (calls [])).Returns d) : Graceful sockfd d sent := by
  cases h with
  | connected h hs ht =>
    cases runFunctor_open h.established hd with
    | inl ho =>
      obtain ⟨hat,fs,he⟩ := ho
      subst he
      exact .connected ⟨hat,h.state,h.writing,h.complete⟩ hs ht
    | inr hc =>
      obtain ⟨s,hat,hst,hg⟩ := hc
      exact .closed hat hst (.inl ((hg.shutdowns not_mute_shutdownWrite).trans ht))
  | draining h hst hs ht =>
    cases runFunctor_open h.established hd with
    | inl ho =>
      obtain ⟨hat,fs,he⟩ := ho
      subst he
      exact .draining ⟨hat,h.writing⟩ hst hs ht
    | inr hc =>
      obtain ⟨s,hat,hst,hg⟩ := hc
      exact .closed hat hst (.inl ((hg.shutdowns not_mute_shutdownWrite).trans ht))
  | shut h hst hw ht =>
    cases runFunctor_open h.established hd with
    | inl ho =>
      obtain ⟨hat,fs,he⟩ := ho
      subst he
      exact .shut ⟨hat,h.writing⟩ hst hw ht
    | inr hc =>
      obtain ⟨s,hat,hst,hg⟩ := hc
      exact .closed hat hst (.inr ((hg.shutdowns not_mute_shutdownWrite).trans ht))
  | closed h hst ht =>
    obtain ⟨s,hat,hst,hg⟩ := runFunctor_closed h hst hd
    exact .closed hat hst (by rwa [hg.shutdowns not_mute_shutdownWrite])

theorem send_graceful (h : Graceful sockfd c sent) {m : Bytes} {a : WriteAnswer} (ha : NotFatal a)
    (hd : (c.send m a).Returns d) :
    Graceful sockfd d (sent++c.takes (.call (.send m a))) := by
  have refused (hs : c.state ≠ .kConnected) :
      Graceful sockfd d (sent++c.takes (.call (.send m a))) := by
    rw [send_refused hs] at hd
    cases (Prog.returns_pure _ _).mp hd
    have hnone : c.takes (.call (.send m a)) = [] := if_neg hs
    rwa [hnone,List.append_nil]
  cases h with
  | connected h hs ht =>
    obtain ⟨hstream,hcarry,hsh⟩ := send_streaming h ha hd
    have htakes : c.takes (.call (.send m a)) = m := if_pos h.state
    rw [htakes]
    exact .connected hstream (by rw [hcarry,hs]) (hsh.trans ht)
  | draining h hst hs ht => exact refused (by simp [hst])
  | shut h hst hw ht => exact refused (by simp [hst])
  | closed h hst ht => exact refused (by simp [hst])

theorem step_graceful {e : Event} (he : ClosingEvent e) (h : Graceful sockfd c sent)
    (hd : (c.step e).Returns d) : Graceful sockfd d (sent++c.takes e) := by
  have silent (hm : e.message = []) (h : Graceful sockfd d sent) :
      Graceful sockfd d (sent++c.takes e) := by
    rw [takes]
    rw [hm,ite_self,List.append_nil]
    exact h
  cases he with
  | send m a ha => exact send_graceful h ha hd
  | shutdown =>
    cases (Prog.returns_pure _ _).mp hd
    exact silent rfl (shutdown_graceful h)
  | forceClose =>
    cases (Prog.returns_pure _ _).mp hd
    exact silent rfl (forceClose_graceful h)
  | handleWrite a => exact silent rfl (handleWrite_graceful h hd)
  | runFunctor => exact silent rfl (runFunctor_graceful h hd)

theorem run_graceful {es : List Event} {new : Bytes} (hrun : Takes c es new d)
    (hes : ∀ e∈es, ClosingEvent e) (h : Graceful sockfd c sent) :
    Graceful sockfd d (sent++new) := by
  induction hrun generalizing sent with
  | nil c => rwa [List.append_nil]
  | cons hstep _ ih =>
    rw [← List.append_assoc]
    exact ih (fun e he => hes e (List.mem_cons_of_mem _ he))
      (step_graceful (hes _ List.mem_cons_self) h hstep)

theorem connected_graceful (sockfd : Int) (reading writeComplete : Bool) (input output : Mem) :
    Graceful sockfd (connected sockfd reading writeComplete input output) [] := by
  have hout := NetBuffer.create_holds (by decide : (1:Int) ≤ 4096) output
  refine .connected (connected_streaming sockfd reading writeComplete input output) ?_ rfl
  exact hout.contents_eq

/-- In every run of sends, closings, write events and pending functors, the write side is
shut at most once, and then with nothing buffered and all that was taken over accepted. -/
theorem graceful_shutdown (sockfd : Int) (reading writeComplete : Bool) (input output : Mem)
    (es : List Event) (hes : ∀ e∈es, ClosingEvent e) {sent : Bytes} {c : Conn}
    (hrun : Takes (connected sockfd reading writeComplete input output) es sent c) :
    (shutdowns c.trace).length ≤ 1 ∧
    ∀ buffered accepted, .shutdownWrite buffered accepted∈c.trace →
      buffered = 0 ∧ accepted = sent := by
  have h := run_graceful hrun hes (connected_graceful sockfd reading writeComplete input output)
  rw [List.nil_append] at h
  have hsh : shutdowns c.trace = [] ∨ shutdowns c.trace = [(0,sent)] := by
    cases h with
    | connected h hs ht => exact .inl ht
    | draining h hd hs ht => exact .inl ht
    | shut h hd hw ht => exact .inr ht
    | closed h hd ht => exact ht
  have mem {n : Int} {s : Bytes} (hm : .shutdownWrite n s∈c.trace) : (n,s)∈shutdowns c.trace :=
    List.mem_filterMap.mpr ⟨_,hm,rfl⟩
  cases hsh with
  | inl hsh =>
    rw [hsh]
    refine ⟨Nat.zero_le 1,fun n s hm => ?_⟩
    have := mem hm
    simp [hsh] at this
  | inr hsh =>
    rw [hsh]
    refine ⟨Nat.le_refl 1,fun n s hm => ?_⟩
    have := mem hm
    simpa [hsh] using this

def closingRun : List Event :=
  [.call (.send [1,2,3] (.accept 1)),.call .shutdown,.call (.send [9] (.accept 1)),
    .handleWrite (.accept 2)]

theorem closingRun_closing : ∀ e∈closingRun, ClosingEvent e := by
  simp only [closingRun,List.forall_mem_cons]
  exact ⟨.send _ _ trivial,.shutdown,.send _ _ trivial,.handleWrite _,by simp⟩

theorem closingRun_takes :
    ∃ c, Takes (connected 5 false true (fun _ => 0) fun _ => 0) closingRun [1,2,3] c ∧
      shutdowns c.trace = [(0,[1,2,3])] :=
  ⟨_,.cons ⟨30,rfl⟩ (.cons ⟨30,rfl⟩ (.cons ⟨30,rfl⟩ (.cons ⟨30,rfl⟩ (.nil _)))),rfl⟩

theorem graceful_shutdown_closingRun :
    ∃ c, Takes (connected 5 false true (fun _ => 0) fun _ => 0) closingRun [1,2,3] c ∧
      (shutdowns c.trace).length ≤ 1 ∧
      ∀ buffered accepted, .shutdownWrite buffered accepted∈c.trace →
        buffered = 0 ∧ accepted = [1,2,3] := by
  obtain ⟨c,hc,_⟩ := closingRun_takes
  exact ⟨c,hc,graceful_shutdown 5 false true _ _ closingRun closingRun_closing hc⟩

end Conn
end AdlServer.Net
