import AdlServer.GracefulShutdown
import AdlServer.Threads

/-! A connection whose `send` is called from other threads as well. They test `state_`
there and queue `sendInLoop`, which tests it again, for something else, in the loop. -/
namespace AdlServer.Net
open Program Memory Cpp Threads

namespace Act

def shuts : Act → Bool
  | .shutdownWrite _ _ => true
  | _ => false

def writes : Act → Bool
  | .wrote _ | .file .sendfile _ => true
  | _ => false

end Act

/-- Nothing is written once the write side is shut. -/
def Silent (t : List Act) : Prop := t.Pairwise fun a b => ¬ (a.shuts ∧ b.writes)

instance (t : List Act) : Decidable (Silent t) :=
  inferInstanceAs (Decidable (t.Pairwise fun a b => ¬ (a.shuts ∧ b.writes)))

theorem mem_shutdowns_iff {t : List Act} : shutdowns t ≠ [] ↔ ∃ a∈t, a.shuts = true := by
  have hone (a : Act) : shutdowns [a] ≠ [] ↔ a.shuts = true := by cases a <;> simp [shutdowns,Act.shuts]
  induction t with
  | nil => simp [shutdowns]
  | cons a t ih =>
    have happ : shutdowns (a::t) = shutdowns [a]++shutdowns t := shutdowns_append [a] t
    rw [happ,Ne,List.append_eq_nil_iff,not_and_or,List.exists_mem_cons_iff]
    exact or_congr (hone a) ih

theorem silent_of_unshut {t : List Act} (h : shutdowns t = []) : Silent t := by
  refine List.pairwise_of_forall_mem_list fun a ha b _ hab => ?_
  exact mem_shutdowns_iff.mpr ⟨a,ha,hab.1⟩ h

theorem Silent.append {t u : List Act} (h : Silent t) (hu : ∀ a∈u, a.writes = false) :
    Silent (t++u) := by
  refine List.pairwise_append.mpr ⟨h,?_,fun a _ b hb hab => ?_⟩
  · refine List.pairwise_of_forall_mem_list fun a _ b hb hab => ?_
    simp [hu b hb] at hab
  · simp [hu b hb] at hab

theorem Silent.of_before {t u : List Act} (h : Silent u) (ht : t <+: u) : Silent t :=
  h.sublist ht.sublist

theorem not_silent_append {t u : List Act} (ht : shutdowns t ≠ []) (hu : ∃ b∈u, b.writes = true) :
    ¬ Silent (t++u) := by
  intro h
  obtain ⟨a,ha,hs⟩ := mem_shutdowns_iff.mp ht
  obtain ⟨b,hb,hw⟩ := hu
  exact (List.pairwise_append.mp h).2.2 a ha b hb ⟨hs,hw⟩

/-- What waits in the loop: the connection's own next functor, or a message of another
thread. -/
inductive Task where
  | own
  | send (m : Bytes)

/-- Another thread: in no call, or in `send` behind the test of `state_`. A call that finds
another state than `kConnected` returns. -/
inductive Sender where
  | outside
  | checked (m : Bytes)

structure Shared where
  conn : Conn
  queue : List Task := []
  senders : List Sender

namespace Shared
open Conn

def queued (c d : Conn) : List Task :=
  List.replicate (d.pendingFunctors.length-c.pendingFunctors.length) .own

def popped (c : Conn) : Conn := { c with pendingFunctors := c.pendingFunctors.tail }

inductive OwnEvent : Event → Prop where
  | send (m : Bytes) (a : WriteAnswer) : OwnEvent (.call (.send m a))
  | shutdown : OwnEvent (.call .shutdown)
  | forceClose : OwnEvent (.call .forceClose)
  | handleWrite (a : WriteAnswer) : OwnEvent (.handleWrite a)

inductive Action where
  | check | queue | own | functor | sendInLoop
  deriving DecidableEq

inductive Step : Shared → Action → Shared → Prop where
  | check {s : Shared} {ts : List Sender} {m : Bytes} (hc : s.conn.state = .kConnected)
    (h : Move .outside (.checked m) s.senders ts) : Step s .check { s with senders := ts }
  | queue {s : Shared} {ts : List Sender} {m : Bytes}
    (h : Move (.checked m) .outside s.senders ts) :
    Step s .queue { s with senders := ts, queue := s.queue++[.send m] }
  | own {s : Shared} {e : Event} {d : Conn} (he : OwnEvent e) (h : (s.conn.step e).Returns d) :
    Step s .own { s with conn := d, queue := s.queue++queued s.conn d }
  | functor {s : Shared} {rest : List Task} {d : Conn} (hq : s.queue = .own::rest)
    (h : (s.conn.step (.runFunctor [])).Returns d) :
    Step s .functor { s with conn := d, queue := rest++queued (popped s.conn) d }
  | sendInLoop {s : Shared} {rest : List Task} {m : Bytes} {a : WriteAnswer} {d : Conn}
    (hq : s.queue = .send m::rest) (h : (s.conn.sendInLoop (some m) (-1) 0 a []).Returns d) :
    Step s .sendInLoop { s with conn := d, queue := rest++queued s.conn d }

inductive Run : Shared → List (Shared×Action) → Shared → Prop where
  | nil (s : Shared) : Run s [] s
  | cons {s t u : Shared} {a : Action} {as : List (Shared×Action)} (h : Step s a t)
    (hs : Run t as u) : Run s ((s,a)::as) u

/-- A message of another thread has its turn with the write side shut and the connection
not closed yet. -/
def Late (s : Shared) (a : Action) : Prop :=
  a = .sendInLoop ∧ shutdowns s.conn.trace ≠ [] ∧ s.conn.state ≠ .kDisconnected

variable {s t u : Shared} {a : Action} {as : List (Shared×Action)} {sockfd : Int} {c d : Conn}

/-! No step takes anything back from the trace. -/

theorem grows_extends {P : Act → Prop} (h : Grows P c d) : c.trace <+: d.trace := by
  obtain ⟨acts,ht,_⟩ := h
  exact ⟨acts,ht.symm⟩

theorem shutdownWriteInLoop_extends (c : Conn) : c.trace <+: c.shutdownWriteInLoop.trace := by
  rw [shutdownWriteInLoop]
  split_ifs
  · exact List.prefix_append _ _
  · exact List.prefix_rfl

theorem handleWrite_extends (c : Conn) (a : WriteAnswer) :
    Prog.Ensures (c.handleWrite a) (c.trace <+: ·.trace) fun _ => True := by
  have hwrote : c.trace <+: (c.write c.outputBuffer.contents a).1.trace := by
    cases a with
    | fail e => exact List.prefix_append _ _
    | accept n => exact List.prefix_append _ _
  exact handleWrite_rule (P := fun d => c.trace <+: d.trace) List.prefix_rfl hwrote
    (fun _ _ hd => hd) fun d hd => hd.trans (grows_extends (flushed_frame d).2.2.2)

theorem shutdown_extends (c : Conn) : c.trace <+: c.shutdown.trace := by
  rw [shutdown]
  split_ifs
  · exact (List.prefix_append _ _).trans (shutdownWriteInLoop_extends (c.setState .kDisconnecting))
  · exact List.prefix_rfl

theorem forceClose_extends (c : Conn) : c.trace <+: c.forceClose.trace := by
  rw [forceClose]
  split_ifs
  · exact List.prefix_append _ _
  · exact List.prefix_rfl

theorem runFunctor_extends (c : Conn) :
    Prog.Ensures (c.runFunctor (calls [])) (c.trace <+: ·.trace) fun _ => True := by
  rw [runFunctor]
  cases c.pendingFunctors with
  | nil => exact Prog.ensures_pure List.prefix_rfl
  | cons f fs =>
    cases f with
    | addConnectInLoop => exact Prog.ensures_pure (List.prefix_append _ _)
    | connectEstablished =>
      exact (Prog.ensures_true _).bind fun _ _ => Prog.ensures_pure (List.prefix_append _ _)
    | writeCompleteCallback => exact Prog.ensures_pure List.prefix_rfl
    | forceCloseInLoop =>
      dsimp only [forceCloseInLoop]
      split_ifs
      · exact (handleClose_mute _).mono (fun d hd => grows_extends hd.2) fun _ => id
      · exact Prog.ensures_pure List.prefix_rfl
    | connectDestroyed =>
      refine Prog.Ensures.bind (Q := (c.trace <+: ·.trace)) ?_ fun d hd => Prog.ensures_pure hd
      rw [disconnect]
      split_ifs
      · refine Prog.ensures_pure ?_
        exact (List.prefix_append _ _).trans (List.prefix_append (c.trace++_) _)
      · exact Prog.ensures_pure (List.prefix_append _ _)

theorem send_extends (c : Conn) (m : Bytes) (a : WriteAnswer) :
    Prog.Ensures (c.send m a) (c.trace <+: ·.trace) fun _ => True := by
  rw [send]
  split_ifs
  · exact (sendInLoop_sentOnly c _ _ _ _ _).mono (fun d hd => grows_extends hd.trace) fun _ => id
  · exact Prog.ensures_pure List.prefix_rfl

theorem Step.extends (h : Step s a t) : s.conn.trace <+: t.conn.trace := by
  cases h with
  | check hc hm => exact List.prefix_rfl
  | queue hm => exact List.prefix_rfl
  | functor hq h => exact (runFunctor_extends _).result h
  | sendInLoop hq h => exact grows_extends ((sendInLoop_sentOnly _ _ _ _ _ _).result h).trace
  | own he h =>
    cases he with
    | send m a => exact (send_extends _ m a).result h
    | handleWrite a => exact (handleWrite_extends _ a).result h
    | shutdown =>
      cases (Prog.returns_pure _ _).mp h
      exact shutdown_extends _
    | forceClose =>
      cases (Prog.returns_pure _ _).mp h
      exact forceClose_extends _

theorem Run.extends (h : Run s as t) : s.conn.trace <+: t.conn.trace := by
  induction h with
  | nil s => exact List.prefix_rfl
  | cons hstep _ ih => exact hstep.extends.trans ih

/-! As long as no message is late. -/

inductive Quiet (sockfd : Int) (c : Conn) : Prop where
  | unshut (h : Flow sockfd c) (ht : shutdowns c.trace = [])
  | shut (h : Flow sockfd c) (hd : c.state = .kDisconnecting)
    (hw : c.channel.isWriting = false) (ht : shutdowns c.trace ≠ []) (hs : Silent c.trace)
  | closed {s : Stage} (h : At sockfd s c) (hd : c.state = .kDisconnected) (hs : Silent c.trace)

theorem Quiet.silent (h : Quiet sockfd c) : Silent c.trace := by
  cases h with
  | unshut h ht => exact silent_of_unshut ht
  | shut h hd hw ht hs => exact hs
  | closed h hd hs => exact hs

theorem not_mute_writes {b : Act} (h : Mute b) : b.writes = false := by
  cases h <;> rfl

theorem silent_of_mute (h : Silent c.trace) (hg : Grows Mute c d) : Silent d.trace := by
  obtain ⟨acts,ht,hall⟩ := hg
  rw [ht]
  exact h.append fun b hb => not_mute_writes (hall b hb)

theorem silent_of_shuts (h : shutdowns c.trace = []) (hs : Shuts c d) :
    Silent d.trace ∧ shutdowns d.trace ≠ [] := by
  refine ⟨?_,by rw [hs.shutdowns]; simp⟩
  obtain ⟨acts,ht,hacts⟩ := hs
  rw [ht]
  refine (silent_of_unshut ?_).append (by simp [Act.writes])
  rw [shutdowns_append,h,hacts]
  rfl

theorem sent_quiet (h : Flow sockfd c) (ht : shutdowns c.trace = []) {m : Bytes} {a : WriteAnswer}
    (hd : (c.sendInLoop (some m) (-1) 0 a []).Returns d) : Quiet sockfd d := by
  refine .unshut ((sendInLoop_flow h m a).result hd) ?_
  rw [((sendInLoop_sentOnly c _ _ _ _ _).result hd).shutdowns,ht]

theorem send_quiet (h : Quiet sockfd c) {m : Bytes} {a : WriteAnswer}
    (hd : (c.send m a).Returns d) : Quiet sockfd d := by
  have refused (hs : c.state ≠ .kConnected) : Quiet sockfd d := by
    rw [send_refused hs] at hd
    cases (Prog.returns_pure _ _).mp hd
    exact h
  by_cases hs : c.state = .kConnected
  · cases h with
    | unshut h ht =>
      rw [send] at hd
      rw [if_pos hs] at hd
      exact sent_quiet h ht hd
    | shut h hst hw ht hsil => exact refused (by simp [hst])
    | closed h hst hsil => exact refused (by simp [hst])
  · exact refused hs

theorem shutdown_quiet (h : Quiet sockfd c) : Quiet sockfd c.shutdown := by
  by_cases hs : c.state = .kConnected
  · cases h with
    | unshut h ht =>
      obtain ⟨hf,hd,_,htrace⟩ := shutdown_flow h hs
      cases htrace with
      | inl hg => exact .unshut hf ((hg.shutdowns not_mute_shutdownWrite).trans ht)
      | inr hsh =>
        obtain ⟨hsil,hne⟩ := silent_of_shuts ht hsh.2
        exact .shut hf hd hsh.1 hne hsil
    | shut h hst hw ht hsil => simp [hst] at hs
    | closed h hst hsil => simp [hst] at hs
  · rwa [shutdown_refused hs]

theorem forceClose_quiet (h : Quiet sockfd c) : Quiet sockfd c.forceClose := by
  cases h with
  | unshut h ht =>
    obtain ⟨hf,_,_,_,hg⟩ := forceClose_flow h
    exact .unshut hf ((hg.shutdowns not_mute_shutdownWrite).trans ht)
  | shut h hd hw ht hs =>
    obtain ⟨hf,hst,hchan,_,hg⟩ := forceClose_flow h
    refine .shut hf hst (by rw [hchan,hw]) ?_ (silent_of_mute hs hg)
    rwa [hg.shutdowns not_mute_shutdownWrite]
  | closed h hd hs =>
    have he : c.forceClose = c := if_neg (by simp [hd])
    rw [he]
    exact .closed h hd hs

theorem handleWrite_quiet (h : Quiet sockfd c) {a : WriteAnswer}
    (hd : (c.handleWrite a).Returns d) : Quiet sockfd d := by
  have idle (hw : c.channel.isWriting = false) : Quiet sockfd d := by
    rw [handleWrite_idle hw] at hd
    cases (Prog.returns_pure _ _).mp hd
    exact h
  cases h with
  | unshut h ht =>
    have hfl := (handleWrite_flushes h a).result hd
    cases hfl.trace with
    | inl hg => exact .unshut hfl.flow ((hg.shutdowns not_sending_shutdownWrite).trans ht)
    | inr hsh =>
      obtain ⟨hst,hw,hsh⟩ := hsh
      obtain ⟨hsil,hne⟩ := silent_of_shuts ht hsh
      exact .shut hfl.flow (hfl.state.trans hst) hw hne hsil
  | shut h hst hw ht hs => exact idle hw
  | closed h hst hs => exact idle (not_writing_of_disconnected h hst)

theorem runFunctor_quiet (h : Quiet sockfd c) (hd : (c.runFunctor (calls [])).Returns d) :
    Quiet sockfd d := by
  cases h with
  | unshut h ht =>
    cases runFunctor_open h.established hd with
    | inl ho =>
      obtain ⟨hat,fs,he⟩ := ho
      subst he
      exact .unshut ⟨hat,h.writing⟩ ht
    | inr hc =>
      obtain ⟨s,hat,hst,hg⟩ := hc
      exact .closed hat hst (silent_of_mute (silent_of_unshut ht) hg)
  | shut h hst hw ht hs =>
    cases runFunctor_open h.established hd with
    | inl ho =>
      obtain ⟨hat,fs,he⟩ := ho
      subst he
      exact .shut ⟨hat,h.writing⟩ hst hw ht hs
    | inr hc =>
      obtain ⟨s,hat,hst,hg⟩ := hc
      exact .closed hat hst (silent_of_mute hs hg)
  | closed h hst hs =>
    obtain ⟨s,hat,hst',hg⟩ := runFunctor_closed h hst hd
    exact .closed hat hst' (silent_of_mute hs hg)

theorem Step.quiet (h : Step s a t) (hs : Quiet sockfd s.conn) (hl : ¬ Late s a) :
    Quiet sockfd t.conn := by
  cases h with
  | check hc hm => exact hs
  | queue hm => exact hs
  | functor hq h => exact runFunctor_quiet hs h
  | sendInLoop hq h =>
    cases hs with
    | unshut hf ht => exact sent_quiet hf ht h
    | shut hf hd hw ht hsil => exact absurd ⟨rfl,ht,by simp [hd]⟩ hl
    | closed hat hd hsil =>
      rw [Conn.sendInLoop] at h
      rw [if_pos hd] at h
      cases (Prog.returns_pure _ _).mp h
      exact .closed hat hd hsil
  | own he h =>
    cases he with
    | send m a => exact send_quiet hs h
    | handleWrite a => exact handleWrite_quiet hs h
    | shutdown =>
      cases (Prog.returns_pure _ _).mp h
      exact shutdown_quiet hs
    | forceClose =>
      cases (Prog.returns_pure _ _).mp h
      exact forceClose_quiet hs

/-! A message that is late is written. -/

theorem directWrite_wrote (c : Conn) (m : Bytes) (a : WriteAnswer) :
    ∃ s, c.trace++[.wrote s] <+: (c.directWrite (some m) (-1) 0 a).1.trace := by
  cases a with
  | fail e => exact ⟨[],List.prefix_rfl⟩
  | accept n =>
    have written (d : Conn) (p : Prop) [Decidable p] :
        d.trace <+: ((if p then d.queueWriteComplete else d).close (-1)).trace := by
      refine List.IsPrefix.trans ?_ (List.prefix_append _ _)
      split_ifs
      · exact grows_extends (queueWriteComplete_sentOnly (-1) d).trace
      · exact List.prefix_rfl
    exact ⟨m.take n,written ({ c with accepted := c.accepted++m.take n }.act (.wrote (m.take n)))
      (messageLen (some m)-(m.take n).length = 0)⟩

theorem sendInLoop_wrote (hi : c.idle = true) (hs : c.state ≠ .kDisconnected) (m : Bytes)
    (a : WriteAnswer) : Prog.Ensures (c.sendInLoop (some m) (-1) 0 a [])
      (fun d => ∃ s, c.trace++[.wrote s] <+: d.trace) fun _ => True := by
  obtain ⟨s,hs'⟩ := directWrite_wrote c m a
  rw [← tryFirst_idle hi] at hs'
  refine sendInLoop_halves hs trivial (fun _ => ?_) fun _ => ⟨s,hs'⟩
  refine (bufferRest_sentOnly _ _ _ _ _).mono (fun e he => ⟨s,?_⟩) fun _ => id
  exact hs'.trans (grows_extends he.trace)

theorem Step.late_written (h : Step s a t) (hs : Quiet sockfd s.conn) (hl : Late s a) :
    ¬ Silent t.conn.trace := by
  obtain ⟨he,hne,hopen⟩ := hl
  subst he
  cases h with
  | sendInLoop hq h =>
    cases hs with
    | unshut hf ht => exact absurd ht hne
    | closed hat hd hsil => exact absurd hd hopen
    | shut hf hd hw ht hsil =>
      have hi : s.conn.idle = true := by
        simp [idle,hw,readable_of_nil hf.established (hf.not_writing hw)]
      obtain ⟨w,hp⟩ := (sendInLoop_wrote hi hopen _ _).result h
      intro hsilent
      exact not_silent_append ht ⟨.wrote w,List.mem_singleton.mpr rfl,rfl⟩
        (hsilent.of_before hp)

theorem Run.silent_iff (h : Run s as t) (hs : Quiet sockfd s.conn) :
    Silent t.conn.trace ↔ ∀ sa∈as, ¬ Late sa.1 sa.2 := by
  induction h with
  | nil s => exact iff_of_true hs.silent (by simp)
  | @cons s t u a as hstep hrun ih =>
    rw [List.forall_mem_cons]
    by_cases hl : Late s a
    · refine iff_of_false (fun hu => ?_) fun hall => hall.1 hl
      exact hstep.late_written hs hl (hu.of_before hrun.extends)
    · rw [ih (hstep.quiet hs hl)]
      exact ⟨fun hall => ⟨hl,hall⟩,fun hall => hall.2⟩

def established (sockfd : Int) (reading writeComplete : Bool) (input output : Mem)
    (threads : Nat) : Shared where
  conn := connected sockfd reading writeComplete input output
  senders := List.replicate threads .outside

/-- In every run the socket is left alone after `shutdownWrite` exactly if no message of
another thread has its turn between that and `handleClose`. -/
theorem cross_thread_silent_iff (sockfd : Int) (reading writeComplete : Bool) (input output : Mem)
    (threads : Nat) (steps : List (Shared×Action)) (s : Shared)
    (h : Run (established sockfd reading writeComplete input output threads) steps s) :
    Silent s.conn.trace ↔ ∀ sa∈steps, ¬ Late sa.1 sa.2 :=
  h.silent_iff (.unshut (connected_streaming sockfd reading writeComplete input output).flow rfl)

theorem late_run : ∃ steps s,
    Run (established 5 false true (fun _ => 0) (fun _ => 0) 1) steps s ∧
      steps.map Prod.snd = [.check,.own,.queue,.sendInLoop] ∧
      s.conn.trace = [.addConnect,.setState .kConnected,.setState .kDisconnecting,
        .shutdownWrite 0 [],.wrote [9],.writeComplete 0,.file .close (-1)] :=
  ⟨_,_,.cons (.check (m := [9]) rfl (.mk [] []))
    (.cons (.own .shutdown ⟨30,rfl⟩)
    (.cons (.queue (.mk [] []))
    (.cons (.sendInLoop (a := .accept 1) rfl ⟨30,rfl⟩) (.nil _)))),rfl,rfl⟩

theorem cross_thread_written : ¬ ∀ (sockfd : Int) (reading writeComplete : Bool) (input output : Mem)
    (threads : Nat) (steps : List (Shared×Action)) (s : Shared),
    Run (established sockfd reading writeComplete input output threads) steps s →
      Silent s.conn.trace := by
  intro hall
  obtain ⟨steps,s,hrun,_,ht⟩ := late_run
  have hs := hall _ _ _ _ _ _ _ _ hrun
  rw [ht] at hs
  exact absurd hs (by decide)

theorem cross_thread_silent_iff_late : ∃ steps s,
    Run (established 5 false true (fun _ => 0) (fun _ => 0) 1) steps s ∧
      (Silent s.conn.trace ↔ ∀ sa∈steps, ¬ Late sa.1 sa.2) := by
  obtain ⟨steps,s,hrun,_⟩ := late_run
  exact ⟨steps,s,hrun,cross_thread_silent_iff 5 false true _ _ 1 steps s hrun⟩

end Shared
end AdlServer.Net
