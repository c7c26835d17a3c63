import AdlServer.CrossThreadSend

/-! What the threads that call `send` on one connection get through: each message as a
whole, and in the order in which they were queued. The queued functor has a raw `this` and the
message's pointer; the connection is taken to be there when it runs. -/
namespace AdlServer.Net
open Program Memory Cpp Threads

/-- What waits in the loop: the connection's own next functor, or the `message` and `len` that
a thread, by its number, has called `send` with. The bytes are still the caller's. -/
inductive Post where
  | own
  | send (thread : Nat) (message : Int) (len : Nat)

inductive SendCall where
  | outside
  | checked (message : Int) (len : Nat)

/-- `asked` keeps the calls of `send` that found `kConnected`, from the test in the loop's
thread or from the queueing in another, and `taken` those whose `sendInLoop` found the
connection open, each with the bytes that lay there at the time. The loop's own thread is
`none`. -/
structure Posts where
  conn : Conn
  memory : Mem
  queue : List Post := []
  senders : List SendCall
  asked : List (Option Nat×Bytes) := []
  taken : List (Option Nat×Bytes) := []

namespace Posts
open Conn

def queued (c d : Conn) : List Post :=
  List.replicate (d.pendingFunctors.length-c.pendingFunctors.length) .own

def ownCall (c : Conn) (m : Bytes) : List (Option Nat×Bytes) :=
  if c.state = .kConnected then [(none,m)] else []

def bytesAt (memory : Mem) (message : Int) (len : Nat) : Bytes :=
  slice memory message (message+len)

/-- The messages that wait in the loop, as they lie in memory. -/
def waiting (memory : Mem) (q : List Post) : List (Nat×Bytes) := q.filterMap fun
  | .own => none
  | .send i message len => some (i,bytesAt memory message len)

/-- Any thread takes its next step. Memory may change anywhere but where a queued message
lies, whose owner has to keep it until the functor has run; and the kernel's answers to a
message do not end the connection. -/
inductive Step : Posts → Posts → Prop where
  | store {s : Posts} {memory : Mem}
    (hkept : waiting memory s.queue = waiting s.memory s.queue) :
    Step s { s with memory := memory }
  | check {s : Posts} {before after : List SendCall} {message : Int} {len : Nat}
    (hc : s.conn.state = .kConnected) (hs : s.senders = before++.outside::after) :
    Step s { s with senders := before++.checked message len::after }
  | queue {s : Posts} {before after : List SendCall} {message : Int} {len : Nat}
    (hs : s.senders = before++.checked message len::after) :
    Step s { s with
      senders := before++.outside::after
      queue := s.queue++[.send before.length message len]
      asked := s.asked++[(some before.length,bytesAt s.memory message len)] }
  | send {s : Posts} {m : Bytes} {a : WriteAnswer} {d : Conn} (ha : NotFatal a)
    (h : (s.conn.send m a).Returns d) :
    Step s { s with
      conn := d
      queue := s.queue++queued s.conn d
      asked := s.asked++ownCall s.conn m
      taken := s.taken++ownCall s.conn m }
  | shutdown {s : Posts} : Step s { s with
      conn := s.conn.shutdown
      queue := s.queue++queued s.conn s.conn.shutdown }
  | forceClose {s : Posts} : Step s { s with
      conn := s.conn.forceClose
      queue := s.queue++queued s.conn s.conn.forceClose }
  | handleWrite {s : Posts} {a : WriteAnswer} {d : Conn} (h : (s.conn.handleWrite a).Returns d) :
    Step s { s with conn := d, queue := s.queue++queued s.conn d }
  | functor {s : Posts} {rest : List Post} {d : Conn} (hq : s.queue = .own::rest)
    (h : (s.conn.runFunctor (calls [])).Returns d) :
    Step s { s with conn := d, queue := rest++queued (Shared.popped s.conn) d }
  | sendInLoop {s : Posts} {rest : List Post} {i : Nat} {message : Int} {len : Nat}
    {a : WriteAnswer} {d : Conn} (hq : s.queue = .send i message len::rest) (ha : NotFatal a)
    (h : (s.conn.sendInLoop (some (bytesAt s.memory message len)) (-1) 0 a []).Returns d) :
    Step s { s with
      conn := d
      queue := rest++queued s.conn d
      taken := s.taken++(if s.conn.state = .kDisconnected then []
        else [(some i,bytesAt s.memory message len)]) }

def established (sockfd : Int) (reading writeComplete : Bool) (input output memory : Mem)
    (threads : Nat) : Posts where
  conn := connected sockfd reading writeComplete input output
  memory := memory
  senders := List.replicate threads .outside

variable {s t : Posts} {c d : Conn} {sockfd : Int} {memory : Mem}

/-! One message through an open connection. -/

theorem contents_of_idle (h : Flow sockfd c) (hi : c.idle = true) : c.outputBuffer.contents = [] := by
  refine h.not_writing ?_
  rw [idle] at hi
  simpa using And.left (Bool.and_eq_true_iff.mp hi)

theorem sendInLoop_stream (h : Flow sockfd c) (hs : c.state ≠ .kDisconnected) (m : Bytes)
    {a : WriteAnswer} (ha : NotFatal a) :
    Prog.Ensures (c.sendInLoop (some m) (-1) 0 a [])
      (fun d => d.accepted++d.outputBuffer.contents = c.accepted++c.outputBuffer.contents++m)
      fun _ => True := by
  by_cases hi : c.idle = true
  · have ht := directWrite_tried c m a
    have hempty := contents_of_idle h hi
    have htry : c.tryFirst (some m) (-1) 0 a = c.directWrite (some m) (-1) 0 a := tryFirst_idle hi _ _ _ _
    have hwf : (c.tryFirst (some m) (-1) 0 a).1.outputBuffer.Wf := by
      rw [htry,ht.output]
      exact h.established.output
    refine sendInLoop_halves hs trivial (fun _ => ?_) fun hdone => ?_
    · refine (bufferRest_appends hwf m _).mono (fun d hd => ?_) fun _ _ => trivial
      obtain ⟨e,b,hb,he,rfl⟩ := hd
      rw [watch_accepted,watch_outputBuffer,he,hb.contents_eq,htry,ht.accepted,ht.output,ht.nwrote,
        hempty,List.nil_append,List.append_assoc,List.take_append_drop,List.append_nil]
    · have hall : m.length ≤ a.taken m := by
        rw [htry] at hdone
        have hrest := ht.remaining
        have hfault := ht.fault.mpr ha
        simp [Sent.left,hfault] at hdone
        omega
      rw [htry,ht.accepted,ht.output,hempty,List.take_of_length_le hall,List.append_nil,
        List.append_nil]
  · have htry : c.tryFirst (some m) (-1) 0 a = (c,{ remaining := messageLen (some m) }) :=
      tryFirst_busy hi _ _ _ _
    have hwf : (c.tryFirst (some m) (-1) 0 a).1.outputBuffer.Wf := by
      rw [htry]
      exact h.established.output
    refine sendInLoop_halves hs trivial (fun _ => ?_) fun hdone => ?_
    · refine (bufferRest_appends hwf m _).mono (fun d hd => ?_) fun _ _ => trivial
      obtain ⟨e,b,hb,he,rfl⟩ := hd
      rw [watch_accepted,watch_outputBuffer,he,hb.contents_eq,htry,List.append_assoc]
      rfl
    · have hnil : m = [] := by
        rw [htry] at hdone
        simpa [Sent.left,messageLen] using hdone
      rw [htry,hnil,List.append_nil]

theorem handleClose_accepted (c : Conn) :
    Prog.Ensures c.handleClose (·.accepted = c.accepted) fun _ => True :=
  (Prog.ensures_true _).bind fun _ _ => Prog.ensures_pure rfl

theorem runFunctor_accepted (c : Conn) :
    Prog.Ensures (c.runFunctor (calls [])) (·.accepted = c.accepted) fun _ => True := by
  rw [runFunctor]
  cases c.pendingFunctors with
  | nil => exact Prog.ensures_pure rfl
  | cons f fs =>
    cases f with
    | addConnectInLoop => exact Prog.ensures_pure rfl
    | connectEstablished => exact (Prog.ensures_true _).bind fun _ _ => Prog.ensures_pure rfl
    | writeCompleteCallback => exact Prog.ensures_pure rfl
    | forceCloseInLoop =>
      dsimp only [forceCloseInLoop]
      split_ifs
      · exact handleClose_accepted _
      · exact Prog.ensures_pure rfl
    | connectDestroyed =>
      refine Prog.Ensures.bind (Q := (·.accepted = c.accepted)) ?_ fun d hd => Prog.ensures_pure hd
      rw [disconnect]
      split_ifs
      · exact Prog.ensures_pure rfl
      · exact Prog.ensures_pure rfl

/-! Whose messages they are. -/

def other : Option Nat×Bytes → Option (Nat×Bytes)
  | (some i,m) => some (i,m)
  | (none,_) => none

def others (l : List (Option Nat×Bytes)) : List (Nat×Bytes) := l.filterMap other

def ownOnes (l : List (Option Nat×Bytes)) : List (Option Nat×Bytes) := l.filter fun p => p.1.isNone

def texts (l : List (Option Nat×Bytes)) : Bytes := l.flatMap Prod.snd

theorem waiting_append (q r : List Post) :
    waiting memory (q++r) = waiting memory q++waiting memory r := List.filterMap_append

theorem waiting_queued (c d : Conn) : waiting memory (queued c d) = [] := by
  rw [waiting,queued,List.filterMap_replicate_of_none rfl]

theorem others_append (k l : List (Option Nat×Bytes)) : others (k++l) = others k++others l :=
  List.filterMap_append

theorem texts_append (k l : List (Option Nat×Bytes)) : texts (k++l) = texts k++texts l :=
  List.flatMap_append

theorem others_ownCall (c : Conn) (m : Bytes) : others (ownCall c m) = [] := by
  rw [ownCall]
  split_ifs
  · rfl
  · rfl

/-- What has been taken is what was asked for, in its order, up to what waits; and it is the
stream. Once the connection is closed nothing is added. -/
inductive Delivery (sockfd : Int) (s : Posts) : Prop where
  | flowing (h : Flow sockfd s.conn)
    (hstream : s.conn.accepted++s.conn.outputBuffer.contents = texts s.taken)
    (hothers : others s.taken++waiting s.memory s.queue = others s.asked)
  | closed {st : Stage} (h : At sockfd st s.conn) (hd : s.conn.state = .kDisconnected)
    (hstream : s.conn.accepted<+:texts s.taken) (hothers : others s.taken<+:others s.asked)

structure Aside (s t : Posts) : Prop where
  waiting : waiting t.memory t.queue = waiting s.memory s.queue
  asked : t.asked = s.asked
  taken : t.taken = s.taken

theorem Delivery.goesOn (h : Delivery sockfd s) (ha : Aside s t)
    (hflow : Flow sockfd s.conn → Flow sockfd t.conn ∧
      t.conn.accepted++t.conn.outputBuffer.contents =
        s.conn.accepted++s.conn.outputBuffer.contents)
    (hclosed : ∀ st, At sockfd st s.conn → s.conn.state = .kDisconnected →
      (∃ st, At sockfd st t.conn) ∧ t.conn.state = .kDisconnected ∧
        t.conn.accepted = s.conn.accepted) : Delivery sockfd t := by
  cases h with
  | flowing h hstream hothers =>
    obtain ⟨hf,hs⟩ := hflow h
    refine .flowing hf ?_ ?_
    · rw [hs,hstream,ha.taken]
    · rw [ha.taken,ha.waiting,ha.asked,hothers]
  | closed h hd hstream hothers =>
    obtain ⟨⟨st,hat⟩,hst,hacc⟩ := hclosed _ h hd
    refine .closed hat hst ?_ ?_
    · rwa [hacc,ha.taken]
    · rwa [ha.taken,ha.asked]

theorem aside_queued (s : Posts) (d : Conn) :
    Aside s { s with conn := d, queue := s.queue++queued s.conn d } := by
  refine ⟨?_,rfl,rfl⟩
  rw [waiting_append,waiting_queued,List.append_nil]

theorem functor_delivery {rest : List Post} (hq : s.queue = .own::rest)
    (hd : (s.conn.runFunctor (calls [])).Returns d) (h : Delivery sockfd s) :
    Delivery sockfd { s with conn := d, queue := rest++queued (Shared.popped s.conn) d } := by
  have hacc := (runFunctor_accepted s.conn).result hd
  have hwait : waiting s.memory (rest++queued (Shared.popped s.conn) d) =
      waiting s.memory s.queue := by
    rw [waiting_append,waiting_queued,List.append_nil,hq]
    rfl
  cases h with
  | flowing h hstream hothers =>
    cases runFunctor_open h.established hd with
    | inl ho =>
      obtain ⟨hat,fs,he⟩ := ho
      refine .flowing ?_ ?_ (by rw [hwait]; exact hothers)
      · rw [he] at hat ⊢
        exact ⟨hat,h.writing⟩
      · rw [he]
        exact hstream
    | inr hc =>
      obtain ⟨st,hat,hst,_⟩ := hc
      refine .closed hat hst ?_ ?_
      · rw [hacc,← hstream]
        exact List.prefix_append _ _
      · rw [← hothers]
        exact List.prefix_append _ _
  | closed h hst hstream hothers =>
    obtain ⟨st,hat,hst,_⟩ := runFunctor_closed h hst hd
    exact .closed hat hst (by rw [hacc]; exact hstream) hothers

theorem send_delivery {m : Bytes} {a : WriteAnswer} (ha : NotFatal a)
    (hd : (s.conn.send m a).Returns d) (h : Delivery sockfd s) :
    Delivery sockfd { s with
      conn := d
      queue := s.queue++queued s.conn d
      asked := s.asked++ownCall s.conn m
      taken := s.taken++ownCall s.conn m } := by
  have hwait : waiting s.memory (s.queue++queued s.conn d) = waiting s.memory s.queue :=
    (aside_queued s d).waiting
  by_cases hs : s.conn.state = .kConnected
  · have hcall : ownCall s.conn m = [(none,m)] := if_pos hs
    cases h with
    | flowing h hstream hothers =>
      rw [send,if_pos hs] at hd
      refine .flowing ((sendInLoop_flow h m a).result hd) ?_ ?_
      · have hcarried := (sendInLoop_stream h (by simp [hs]) m ha).result hd
        rw [texts_append,hcarried,hstream,hcall]
        simp [texts]
      · rw [others_append,others_append,others_ownCall,List.append_nil,List.append_nil,hwait]
        exact hothers
    | closed h hst hstream hothers => cases hs.symm.trans hst
  · have hcall : ownCall s.conn m = [] := if_neg hs
    rw [send_refused hs] at hd
    cases (Prog.returns_pure _ _).mp hd
    rw [hcall,List.append_nil,List.append_nil]
    exact h.goesOn (aside_queued s s.conn) (fun hf => ⟨hf,rfl⟩) fun st hat hst => ⟨⟨st,hat⟩,hst,rfl⟩

theorem sendInLoop_delivery {rest : List Post} {i : Nat} {message : Int} {len : Nat} {m : Bytes}
    {a : WriteAnswer} (hq : s.queue = .send i message len::rest)
    (hm : bytesAt s.memory message len = m) (ha : NotFatal a)
    (hd : (s.conn.sendInLoop (some m) (-1) 0 a []).Returns d) (h : Delivery sockfd s) :
    Delivery sockfd { s with
      conn := d
      queue := rest++queued s.conn d
      taken := s.taken++(if s.conn.state = .kDisconnected then [] else [(some i,m)]) } := by
  have hwait : waiting s.memory s.queue = (i,m)::waiting s.memory (rest++queued s.conn d) := by
    rw [waiting_append,waiting_queued,List.append_nil,hq,← hm]
    rfl
  cases h with
  | flowing h hstream hothers =>
    have hopen : s.conn.state ≠ .kDisconnected := by
      have hst : s.conn.state = .kConnected ∨ s.conn.state = .kDisconnecting := h.established.state
      cases hst with
      | inl hst => simp [hst]
      | inr hst => simp [hst]
    rw [if_neg hopen]
    refine .flowing ((sendInLoop_flow h m a).result hd) ?_ ?_
    · rw [texts_append,(sendInLoop_stream h hopen m ha).result hd,hstream]
      simp [texts]
    · rw [others_append,List.append_assoc]
      rw [hwait] at hothers
      exact hothers
  | closed h hst hstream hothers =>
    rw [sendInLoop,if_pos hst] at hd
    cases (Prog.returns_pure _ _).mp hd
    rw [if_pos hst,List.append_nil]
    exact .closed h hst hstream hothers

theorem Step.delivery (hstep : Step s t) (h : Delivery sockfd s) : Delivery sockfd t := by
  cases hstep with
  | store hkept =>
    exact h.goesOn ⟨hkept,rfl,rfl⟩ (fun hf => ⟨hf,rfl⟩) fun st hat hst => ⟨⟨st,hat⟩,hst,rfl⟩
  | check hc hs =>
    exact h.goesOn ⟨rfl,rfl,rfl⟩ (fun hf => ⟨hf,rfl⟩) fun st hat hst => ⟨⟨st,hat⟩,hst,rfl⟩
  | queue hs =>
    cases h with
    | flowing h hstream hothers =>
      refine .flowing h hstream ?_
      rw [waiting_append,others_append,← hothers,List.append_assoc]
      rfl
    | closed h hst hstream hothers =>
      refine .closed h hst hstream ?_
      rw [others_append]
      exact hothers.trans (List.prefix_append _ _)
  | send ha hd => exact send_delivery ha hd h
  | shutdown =>
    refine h.goesOn (aside_queued s _) (fun hf => ?_) fun st hat hst => ?_
    · by_cases hs : s.conn.state = .kConnected
      · obtain ⟨hf,_,hstream,_⟩ := shutdown_flow hf hs
        exact ⟨hf,hstream⟩
      · rw [shutdown_refused hs]
        exact ⟨hf,rfl⟩
    · rw [shutdown_refused (by simp [hst])]
      exact ⟨⟨st,hat⟩,hst,rfl⟩
  | forceClose =>
    refine h.goesOn (aside_queued s _) (fun hf => ?_) fun st hat hst => ?_
    · obtain ⟨hf,_,_,hstream,_⟩ := forceClose_flow hf
      exact ⟨hf,hstream⟩
    · have he : s.conn.forceClose = s.conn := if_neg (by simp [hst])
      rw [he]
      exact ⟨⟨st,hat⟩,hst,rfl⟩
  | @handleWrite a d hd =>
    refine h.goesOn (aside_queued s _) (fun hf => ?_) fun st hat hst => ?_
    · have hfl := (handleWrite_flushes hf a).result hd
      exact ⟨hfl.flow,hfl.stream⟩
    · rw [handleWrite_idle (not_writing_of_disconnected hat hst)] at hd
      cases (Prog.returns_pure _ _).mp hd
      exact ⟨⟨st,hat⟩,hst,rfl⟩
  | functor hq hd => exact functor_delivery hq hd h
  | sendInLoop hq ha hd => exact sendInLoop_delivery hq rfl ha hd h

theorem Step.ownOnes (hstep : Step s t) (h : ownOnes s.taken = ownOnes s.asked) :
    ownOnes t.taken = ownOnes t.asked := by
  cases hstep with
  | store hkept => exact h
  | check hc hs => exact h
  | queue hs =>
    rw [Posts.ownOnes,Posts.ownOnes,List.filter_append]
    simpa [Posts.ownOnes] using h
  | send ha hd =>
    rw [Posts.ownOnes,Posts.ownOnes,List.filter_append,List.filter_append]
    exact congrArg (·++_) h
  | shutdown => exact h
  | forceClose => exact h
  | handleWrite hd => exact h
  | functor hq hd => exact h
  | sendInLoop hq ha hd =>
    rw [Posts.ownOnes,List.filter_append]
    split_ifs
    · simpa [Posts.ownOnes] using h
    · simpa [Posts.ownOnes] using h

/-- For any number of threads and in every run: the bytes the kernel has taken and those that
wait to be written are whole messages, one behind the other; those of the other threads
come in the order in which they were queued, and none is missing but those still queued;
those of the loop come in theirs. A connection that is closed has sent a beginning of it. -/
theorem cross_thread_stream (sockfd : Int) (reading writeComplete : Bool)
    (input output memory : Mem) (threads : Nat) {s : Posts}
    (h : Relation.ReflTransGen Step
      (established sockfd reading writeComplete input output memory threads) s) :
    (s.conn.state ≠ .kDisconnected →
      s.conn.accepted++s.conn.outputBuffer.contents = texts s.taken ∧
      others s.taken++waiting s.memory s.queue = others s.asked) ∧
    s.conn.accepted<+:texts s.taken ∧ others s.taken<+:others s.asked ∧
    ownOnes s.taken = ownOnes s.asked := by
  have hstart : Delivery sockfd
      (established sockfd reading writeComplete input output memory threads) :=
    .flowing (connected_streaming sockfd reading writeComplete input output).flow rfl rfl
  have hs := invariant_of_run (I := Delivery sockfd) (fun _ _ hi hst => hst.delivery hi) h hstart
  have hown := invariant_of_run (I := fun s : Posts => ownOnes s.taken = ownOnes s.asked)
    (fun _ _ hi hst => hst.ownOnes hi) h rfl
  cases hs with
  | flowing _ hstream hothers =>
    refine ⟨fun _ => ⟨hstream,hothers⟩,?_,?_,hown⟩
    · rw [← hstream]
      exact List.prefix_append _ _
    · rw [← hothers]
      exact List.prefix_append _ _
  | closed _ hst hstream hothers => exact ⟨fun hne => absurd hst hne,hstream,hothers,hown⟩

theorem cross_thread_stream_two : ∃ s : Posts,
    Relation.ReflTransGen Step
      (established 5 false true (fun _ => 0) (fun _ => 0) (fun _ => 9) 2) s ∧
    s.memory 1 = 7 ∧ s.taken = [(none,[8]),(some 1,[9])] ∧ s.conn.accepted = [8] ∧
    (s.conn.state ≠ .kDisconnected →
      s.conn.accepted++s.conn.outputBuffer.contents = texts s.taken ∧
      others s.taken++waiting s.memory s.queue = others s.asked) ∧
    s.conn.accepted<+:texts s.taken ∧ others s.taken<+:others s.asked ∧
    ownOnes s.taken = ownOnes s.asked := by
  have hone : List.replicate 2 SendCall.outside = [.outside]++.outside::[] := rfl
  have hchecked : [SendCall.outside,.checked 0 1] = [.outside]++.checked 0 1::[] := rfl
  have hfull : NotFatal (.fail .EAGAIN) := ⟨by decide,by decide⟩
  have hrun : ∃ s : Posts,
      Relation.ReflTransGen Step
        (established 5 false true (fun _ => 0) (fun _ => 0) (fun _ => 9) 2) s ∧
      s.memory 1 = 7 ∧ s.taken = [(none,[8]),(some 1,[9])] ∧ s.conn.accepted = [8] :=
    ⟨_,.head (.check rfl hone) (.head (.queue hchecked)
      (.head (@Step.store _ (fun i => if i = 0 then 9 else 7) rfl)
      (.head (.send (m := [8]) (a := .accept 1) trivial ⟨30,rfl⟩)
      (.head (.sendInLoop (a := .fail .EAGAIN) rfl hfull ⟨30,rfl⟩) .refl)))),rfl,rfl,rfl⟩
  obtain ⟨s,hrun,hmem,htaken,hacc⟩ := hrun
  exact ⟨s,hrun,hmem,htaken,hacc,cross_thread_stream 5 false true _ _ _ 2 hrun⟩

end Posts
end AdlServer.Net
