import AdlServer.ConnLifecycle
import AdlServer.Runs

/-! One sub-loop with all its connections: who holds a `shared_ptr` to which of them, when
their objects are destroyed, and which raw pointers to them are left. Every connection has
its own part of what `Epoller` and the kernel keep by descriptor, and of
`pendingFunctors_`; the loop keeps the order of the pending tasks by their owners. Nobody but
these, and `newConnection` until it returns, keeps a `TcpConnectionPtr`, and only callbacks
call a connection. -/
namespace AdlServer.Net
open Program Memory Cpp Runs

/-! What a handler queues stands behind what was queued before. -/

namespace Conn
variable {c : Conn} {fs : List Functor} {callback : Conn → Prog Fault Conn}

def Waiting (fs : List Functor) (c : Conn) : Prop := fs <+: c.pendingFunctors

theorem Waiting.refl (c : Conn) : Waiting c.pendingFunctors c := List.prefix_rfl

theorem queueInLoop_waiting (h : Waiting fs c) (f : Functor) : Waiting fs (c.queueInLoop f) :=
  h.trans (List.prefix_append c.pendingFunctors [f])

theorem queueWriteComplete_waiting (h : Waiting fs c) : Waiting fs c.queueWriteComplete :=
  queueWriteComplete_cases h (queueInLoop_waiting h .writeCompleteCallback)

theorem write_waiting (h : Waiting fs c) (m : Bytes) (answer : WriteAnswer) :
    Waiting fs (c.write m answer).1 := by
  cases answer with
  | accept n => exact h
  | fail e => exact h

theorem sendfile_waiting (h : Waiting fs c) (fd : Int) (count : Nat) (answer : WriteAnswer) :
    Waiting fs (c.sendfile fd count answer).1 := by
  have hc : Waiting fs (c.act (.file .sendfile fd)) := h
  unfold sendfile
  dsimp only
  generalize c.act (.file .sendfile fd) = c at hc ⊢
  cases c.files fd with
  | none => exact hc
  | some f =>
    cases answer with
    | accept n => exact hc
    | fail e => exact hc

theorem tryFirst_waiting (h : Waiting fs c) (message : Option Bytes) (fd size : Int)
    (answer : WriteAnswer) : Waiting fs (c.tryFirst message fd size answer).1 := by
  by_cases hi : c.idle
  · rw [tryFirst_idle hi]
    exact directWrite_rule (sendfile_waiting h fd _ answer) (write_waiting h _ answer)
      (fun _ hd => queueWriteComplete_waiting hd) fun _ hd => hd
  · rw [tryFirst_busy hi]
    exact h

theorem bufferRest_waiting (h : Waiting fs c) (message : Option Bytes) (fd : Int) (sent : Sent)
    (reads : List FileAnswer) :
    Prog.Ensures (c.bufferRest message fd sent reads) (Waiting fs) fun _ => True := by
  refine Prog.Ensures.bind (Q := Waiting fs) ?_ fun d hd => Prog.ensures_pure ?_
  · by_cases hm : fileMode message fd
    · rw [if_pos hm]
      exact (Prog.ensures_true _).bind fun _ _ => Prog.ensures_pure h
    · rw [if_neg hm]
      exact (Prog.ensures_true _).bind fun _ _ => Prog.ensures_pure h
  · by_cases hw : (!d.channel.isWriting) = true
    · rw [if_pos hw]
      exact hd
    · rw [if_neg hw]
      exact hd

theorem sendInLoop_waiting (h : Waiting fs c) (message : Option Bytes) (fd size : Int)
    (answer : WriteAnswer) (reads : List FileAnswer) :
    Prog.Ensures (c.sendInLoop message fd size answer reads) (Waiting fs) fun _ => True := by
  by_cases hd : c.state = .kDisconnected
  · rw [sendInLoop]
    rw [if_pos hd]
    exact Prog.ensures_pure h
  · have hw := tryFirst_waiting h message fd size answer
    exact sendInLoop_halves hd trivial (fun _ => bufferRest_waiting hw message fd _ reads)
      fun _ => hw

theorem apply_waiting (h : Waiting fs c) (u : UserCall) :
    Prog.Ensures (u.apply c) (Waiting fs) fun _ => True := by
  have inOpen {message : Option Bytes} {fd size : Int} {answer : WriteAnswer}
      {reads : List FileAnswer} : Prog.Ensures
        (if c.state = .kConnected then c.sendInLoop message fd size answer reads else pure c)
        (Waiting fs) fun _ => True := by
    by_cases hc : c.state = .kConnected
    · rw [if_pos hc]
      exact sendInLoop_waiting h _ _ _ _ _
    · rw [if_neg hc]
      exact Prog.ensures_pure h
  cases u with
  | send message answer => exact inOpen
  | sendFile fd size answer reads =>
    change Prog.Ensures (c.sendFile fd size answer reads) _ _
    rw [sendFile]
    by_cases hfd : fd < 0
    · rw [if_pos hfd]
      exact Prog.ensures_pure h
    · rw [if_neg hfd]
      exact inOpen
  | shutdown =>
    refine Prog.ensures_pure ?_
    rw [shutdown,shutdownWriteInLoop]
    split_ifs
    · exact h
    · exact h
    · exact h
  | forceClose =>
    refine Prog.ensures_pure ?_
    rw [forceClose]
    split_ifs
    · exact queueInLoop_waiting h .forceCloseInLoop
    · exact h
  | startRead =>
    refine Prog.ensures_pure ?_
    rw [startReadInLoop]
    split_ifs
    · exact h
    · exact h
  | stopRead =>
    refine Prog.ensures_pure ?_
    rw [stopReadInLoop]
    split_ifs
    · exact h
    · exact h
  | retrieve len => exact (Prog.ensures_true _).bind fun _ _ => Prog.ensures_pure h
  | retrieveAll => exact Prog.ensures_pure h
  | xopen fd content =>
    change Prog.Ensures (if 0 ≤ fd ∧ fd ≠ c.channel.fd ∧ c.files fd = none then _ else _) _ _
    split_ifs
    · exact Prog.ensures_pure h
    · exact Prog.ensures_pure h

theorem calls_waiting (us : List Conn.UserCall) (h : Waiting fs c) :
    Prog.Ensures (calls us c) (Waiting fs) fun _ => True := by
  induction us generalizing c with
  | nil => exact Prog.ensures_pure h
  | cons u us ih => exact (apply_waiting h u).bind fun _ hd => ih hd

def Queues (callback : Conn → Prog Fault Conn) : Prop :=
  ∀ fs c, Waiting fs c → Prog.Ensures (callback c) (Waiting fs) fun _ => True

def calling (us : Conn → List UserCall) (c : Conn) : Prog Fault Conn := calls (us c) c

theorem queues_calling (us : Conn → List UserCall) : Queues (calling us) :=
  fun _ c h => calls_waiting (us c) h

theorem keeps_calling {us : Conn → List UserCall}
    (hus : ∀ c, c.inputBuffer.Wf → ∀ u∈us c, Allowed u) : Keeps (calling us) :=
  fun _ _ c hc => calls_ensures (hus c hc.input) hc

theorem handleClose_waiting (h : Waiting fs c) :
    Prog.Ensures c.handleClose (Waiting fs) fun _ => True :=
  (Prog.ensures_true _).bind fun _ _ =>
    Prog.ensures_pure (h.trans (List.prefix_append c.pendingFunctors [.connectDestroyed]))

theorem forceCloseInLoop_waiting (h : Waiting fs c) :
    Prog.Ensures c.forceCloseInLoop (Waiting fs) fun _ => True := by
  rw [forceCloseInLoop]
  split_ifs
  · exact handleClose_waiting h
  · exact Prog.ensures_pure h

theorem handleRead_waiting (hcb : Queues callback) (answers : List ReadAnswer)
    (h : Waiting fs c) :
    Prog.Ensures (c.handleRead callback answers) (Waiting fs) fun _ => True := by
  refine (Prog.ensures_true _).bind fun ⟨ret,socket,b⟩ _ => ?_
  dsimp only
  split_ifs
  · exact handleClose_waiting h
  · exact hcb _ _ h
  · exact Prog.ensures_pure h

theorem handleWrite_waiting (answer : WriteAnswer) (h : Waiting fs c) :
    Prog.Ensures (c.handleWrite answer) (Waiting fs) fun _ => True := by
  refine handleWrite_rule h (write_waiting h _ answer) (fun _ _ hd => hd) fun d hd => ?_
  have hq := queueWriteComplete_waiting (c := d.onChannel Channel.disableWriting) hd
  rw [flushed,shutdownWriteInLoop]
  split_ifs
  · exact hq
  · exact hq
  · exact hq

theorem handleEvent_waiting (hcb : Queues callback) (revents : Events)
    (answers : List ReadAnswer) (answer : WriteAnswer) (h : Waiting fs c) :
    Prog.Ensures (c.handleEvent callback revents answers answer) (Waiting fs) fun _ => True := by
  refine Prog.Ensures.bind (Q := Waiting fs) ?_ fun d hd => ?_
  · rw [onHup]
    split_ifs
    · exact handleClose_waiting h
    · exact Prog.ensures_pure h
  · refine Prog.Ensures.bind (Q := Waiting fs) ?_ fun e he => ?_
    · rw [onReadable]
      split_ifs
      · exact handleRead_waiting hcb answers hd
      · exact Prog.ensures_pure hd
    · split_ifs
      · exact handleWrite_waiting answer he
      · exact Prog.ensures_pure he

theorem runFunctor_waiting (hcb : Queues callback) :
    Prog.Ensures (c.runFunctor callback) (Waiting c.pendingFunctors.tail) fun _ => True := by
  rw [runFunctor]
  cases hfs : c.pendingFunctors with
  | nil => exact Prog.ensures_pure List.nil_prefix
  | cons f fs =>
    have h : Waiting fs { c with pendingFunctors := fs } := List.prefix_rfl
    cases f with
    | addConnectInLoop => exact Prog.ensures_pure h
    | connectEstablished => exact (Prog.ensures_true _).bind fun _ _ => hcb _ _ h
    | writeCompleteCallback => exact hcb _ _ h
    | forceCloseInLoop => exact forceCloseInLoop_waiting h
    | connectDestroyed =>
      refine Prog.Ensures.bind (Q := Waiting fs) ?_ fun _ hd => Prog.ensures_pure hd
      rw [disconnect]
      split_ifs
      · exact hcb _ _ h
      · exact Prog.ensures_pure h

end Conn

/-- A `TcpConnection` object. While `queuing`, `newConnection` has not queued its second task
yet, which is in the connection's part from the start; while `held`, it has not returned and
has a reference of its own. `gone` says that the destructor has run and has closed the socket. -/
structure Member where
  conn : Conn
  queuing : Bool := true
  held : Bool := true
  gone : Bool := false

structure Member.Continues (m n : Member) : Prop where
  fd : n.conn.channel.fd = m.conn.channel.fd
  queuing : n.queuing = true → m.queuing = true
  held : n.held = true → m.held = true
  gone : m.gone = true → n.gone = true

theorem Member.Continues.refl (m : Member) : m.Continues m := ⟨rfl,id,id,id⟩

theorem Member.Continues.trans {m n o : Member} (h : m.Continues n) (h' : n.Continues o) :
    m.Continues o :=
  ⟨h'.fd.trans h.fd,h.queuing∘h'.queuing,h.held∘h'.held,h'.gone∘h.gone⟩

/-- Where `loop()` is: before `poll`, among the events of `activeChannels_` that are still
to be handled, or in `doPendingFunctors` with the vector `functors`, of which `rest` has
not run yet. Connections stand by their index. -/
inductive Phase where
  | poll
  | handleEvents (active : List (Nat×Events))
  | doPendingFunctors (functors rest : List Nat)

def Phase.active : Phase → List (Nat×Events)
  | .handleEvents active => active
  | _ => []

def Phase.functors : Phase → List Nat
  | .doPendingFunctors functors _ => functors
  | _ => []

def Phase.rest : Phase → List Nat
  | .doPendingFunctors _ rest => rest
  | _ => []

/-- `pending` has the owners of `pendingFunctors_`. -/
structure SubLoop where
  members : List Member := []
  pending : List Nat := []
  phase : Phase := .poll

namespace SubLoop

/-- How many `shared_ptr`s there are to a connection: that of `newConnection`, that of
`connectSet_`, and one in every task, until the vector it is in is destroyed. -/
def references (s : SubLoop) (i : Nat) (m : Member) : Nat :=
  m.held.toNat+m.conn.connectSet.toNat+s.pending.count i+s.phase.functors.count i

def settle (s : SubLoop) : SubLoop :=
  { s with members := s.members.mapIdx fun i m =>
      if s.references i m = 0 then { m with gone := true } else m }

def tasks (s : SubLoop) (i : Nat) : Nat := s.phase.rest.count i+s.pending.count i

def handler (s : SubLoop) (i : Nat) (p : Conn → Prog Fault Conn) : Prog Fault SubLoop :=
  match s.members[i]? with
  | none => pure s
  | some m => do
    let c ← p m.conn
    let added := c.pendingFunctors.length-(s.tasks i+m.queuing.toNat)
    pure { s with members := s.members.set i { m with conn := c }
                  pending := s.pending++List.replicate added i }.settle

/-- A step, with what the kernel and the callbacks bring to it: the main loop's thread in
`TcpServer::newConnection`, which queues two tasks and returns, or `loop()` in its own thread. -/
inductive Input where
  | addConnect (sockfd : Int) (reading writeCompleteCallback : Bool) (input output : Mem)
  | connectEstablished (i : Nat)
  | returns (i : Nat)
  | poll (events : List (Nat×Events))
  | handleEvent (answers : List ReadAnswer) (us : Conn → List Conn.UserCall)
    (answer : WriteAnswer)
  | swap
  | runFunctor (us : Conn → List Conn.UserCall)
  | destroyFunctors

def step (s : SubLoop) : Input → Prog Fault SubLoop
  | .addConnect sockfd reading writeCompleteCallback input output =>
    let c := Conn.newConnection sockfd reading writeCompleteCallback input output
    pure { s with members := s.members++[{ conn := c }]
                  pending := s.pending++[s.members.length] }
  | .connectEstablished i =>
    match s.members[i]? with
    | some m =>
      if m.queuing then
        pure { s with members := s.members.set i { m with queuing := false }
                      pending := s.pending++[i] }
      else pure s
    | none => pure s
  | .returns i =>
    match s.members[i]? with
    | some m =>
      if m.queuing then pure s
      else pure { s with members := s.members.set i { m with held := false } }.settle
    | none => pure s
  | .poll events =>
    match s.phase with
    | .poll => pure { s with phase := .handleEvents events }
    | _ => pure s
  | .handleEvent answers us answer =>
    match s.phase with
    | .handleEvents ((i,revents)::active) =>
      { s with phase := .handleEvents active }.handler i
        (·.handleEvent (Conn.calling us) revents answers answer)
    | _ => pure s
  | .swap =>
    match s.phase with
    | .handleEvents [] => pure { s with phase := .doPendingFunctors s.pending s.pending
                                        pending := [] }
    | _ => pure s
  | .runFunctor us =>
    match s.phase with
    | .doPendingFunctors functors (i::rest) =>
      { s with phase := .doPendingFunctors functors rest }.handler i
        (·.runFunctor (Conn.calling us))
    | _ => pure s
  | .destroyFunctors =>
    match s.phase with
    | .doPendingFunctors _ [] => pure { s with phase := .poll }.settle
    | _ => pure s

def Registered (s : SubLoop) (i : Nat) : Prop :=
  ∃ m, s.members[i]? = some m ∧ m.conn.poller.interest m.conn.channel.fd ≠ none

def NotASocket (s : SubLoop) (fd : Int) : Prop :=
  ∀ m∈s.members, m.gone = false → m.conn.channel.fd ≠ fd

/-- The calls of a callback: none that start or stop reading, and none that send a file, which
`sendInLoop` may close twice. -/
def Callback (us : Conn → List Conn.UserCall) : Prop :=
  ∀ c, c.inputBuffer.Wf → ∀ u∈us c, Conn.Allowed u ∧
    ∀ fd size answer reads, u ≠ .sendFile fd size answer reads

/-- What the kernel promises: `accept` gives a descriptor that is not in use, and `epoll_wait`
reports registered descriptors, each of them once. -/
def Lawful (s : SubLoop) : Input → Prop
  | .addConnect sockfd _ _ _ _ => s.NotASocket sockfd
  | .poll events => (events.map Prod.fst).Nodup ∧
    ∀ e∈events, s.Registered e.1 ∧ Conn.HangsUpAlone e.2
  | .handleEvent _ us _ | .runFunctor us => Callback us
  | .connectEstablished _ | .returns _ | .swap | .destroyFunctors => True

def Step (s : SubLoop) (a : Input) (t : SubLoop) : Prop := s.Lawful a ∧ (s.step a).Returns t

variable {s t : SubLoop} {i j : Nat} {m : Member} {a : Input} {as : List (SubLoop×Input)}

structure Fits (s : SubLoop) (i : Nat) (m : Member) : Prop where
  life : Conn.Alive m.conn.channel.fd m.conn
  queue : m.conn.pendingFunctors.length = s.tasks i+m.queuing.toNat
  queuing : m.queuing = true → .connectEstablished∈m.conn.pendingFunctors
  held : m.queuing = true → m.held = true
  gone : m.gone = true → s.references i m = 0

def SocketsApart (s : SubLoop) : Prop :=
  ∀ (i j : Nat) (m n : Member), s.members[i]? = some m → s.members[j]? = some n →
    m.gone = false → n.gone = false → m.conn.channel.fd = n.conn.channel.fd → i = j

structure Inv (s : SubLoop) : Prop where
  members : ∀ i m, s.members[i]? = some m → s.Fits i m
  known : ∀ i∈s.pending++s.phase.functors, i < s.members.length
  rest : ∀ i, s.phase.rest.count i ≤ s.phase.functors.count i
  nodup : (s.phase.active.map Prod.fst).Nodup
  active : ∀ e∈s.phase.active, s.Registered e.1 ∧ Conn.HangsUpAlone e.2
  sockets : s.SocketsApart

def Settled (s : SubLoop) : Prop :=
  ∀ i m, s.members[i]? = some m → s.references i m = 0 → m.gone = true

def Continues (s t : SubLoop) : Prop :=
  ∀ (i : Nat) (m : Member), s.members[i]? = some m → ∃ n, t.members[i]? = some n ∧ m.Continues n

theorem Continues.of_eq (h : t.members = s.members) : s.Continues t := by
  intro i m hm
  exact ⟨m,by rw [h,hm],.refl m⟩

theorem Continues.trans {u : SubLoop} (h : s.Continues t) (h' : t.Continues u) :
    s.Continues u := by
  intro i m hm
  obtain ⟨n,hn,hmn⟩ := h i m hm
  obtain ⟨o,ho,hno⟩ := h' i n hn
  exact ⟨o,ho,hmn.trans hno⟩

theorem Continues.set {n : Member} (hm : s.members[i]? = some m) (h : m.Continues n)
    (ht : t.members = s.members.set i n) : s.Continues t := by
  intro j o ho
  rw [ht]
  by_cases hj : j = i
  · subst hj
    rw [hm] at ho
    obtain rfl := Option.some.inj ho
    exact ⟨n,List.getElem?_set_self (List.getElem?_eq_some_iff.mp hm).1,h⟩
  · exact ⟨o,by rwa [List.getElem?_set_ne (Ne.symm hj)],.refl o⟩

structure After (s t : SubLoop) : Prop where
  inv : Inv t
  settled : t.Settled
  continues : s.Continues t

theorem After.phase {p : Phase} (h : After { s with phase := p } t) : s.After t :=
  ⟨h.inv,h.settled,h.continues⟩

/-! One connection, by its stage. -/

theorem registered_iff {fd : Int} {st : Stage} {c : Conn} (h : At fd st c) :
    c.poller.interest c.channel.fd ≠ none ↔ st = .established := by
  rw [h.agrees.interest,h.status]
  cases st <;> simp [Stage.status]

theorem not_establishing {fd : Int} {c : Conn} (h : At fd .established c) :
    .connectEstablished∉c.pendingFunctors := by
  intro hmem
  cases h.pending _ hmem with
  | inl he => cases he
  | inr he => cases he

theorem Fits.last (h : s.Fits i m) (hrest : s.phase.rest.count i ≤ s.phase.functors.count i)
    (h0 : s.references i m = 0) : At m.conn.channel.fd .gone m.conn := by
  obtain ⟨st,hst⟩ := h.life
  have hqueue := h.queue
  rw [references] at h0
  have hqueuing : m.queuing = false := by
    cases hq : m.queuing with
    | false => rfl
    | true =>
      rw [h.held hq,Bool.toNat_true] at h0
      omega
  rw [tasks,hqueuing,Bool.toNat_false] at hqueue
  have hnone : m.conn.pendingFunctors = [] := List.length_eq_zero_iff.mp (by omega)
  have hset : m.conn.connectSet = false := by
    cases hc : m.conn.connectSet with
    | false => rfl
    | true =>
      rw [hc,Bool.toNat_true] at h0
      omega
  have hpending := hst.pending
  have hin := hst.connectSet
  rw [hnone] at hpending
  rw [hset] at hin
  cases st with
  | gone => exact hst
  | queued => cases hpending
  | added => cases hpending
  | established => cases hin
  | closing => cases hpending.1

theorem Fits.present (h : s.Fits i m) (h0 : 0 < s.references i m) : m.gone = false := by
  cases hg : m.gone with
  | false => rfl
  | true =>
    rw [h.gone hg] at h0
    omega

theorem Fits.present_of_established (h : s.Fits i m)
    (hst : At m.conn.channel.fd .established m.conn) : m.gone = false := by
  refine h.present ?_
  have hset : m.conn.connectSet = true := hst.connectSet
  rw [references,hset,Bool.toNat_true]
  omega

/-! Destroying what nobody refers to. -/

theorem getElem_settle (s : SubLoop) (i : Nat) :
    s.settle.members[i]? = (s.members[i]?).map fun m =>
      if s.references i m = 0 then { m with gone := true } else m :=
  List.getElem?_mapIdx

theorem settle_cases (hm : s.settle.members[i]? = some m) : ∃ n, s.members[i]? = some n ∧
    m.conn = n.conn ∧ m.queuing = n.queuing ∧ m.held = n.held ∧
    (m.gone = false → n.gone = false) ∧ m.gone = (n.gone || decide (s.references i n = 0)) := by
  rw [getElem_settle] at hm
  obtain ⟨n,hn,hm⟩ := Option.map_eq_some_iff.mp hm
  by_cases h0 : s.references i n = 0
  · rw [if_pos h0] at hm
    subst hm
    exact ⟨n,hn,rfl,rfl,rfl,by simp,by simp [h0]⟩
  · rw [if_neg h0] at hm
    subst hm
    exact ⟨n,hn,rfl,rfl,rfl,id,by simp [h0]⟩

theorem references_congr {n : Member} (hc : m.conn = n.conn) (hh : m.held = n.held) :
    s.settle.references i m = s.references i n := by
  rw [references,references,hc,hh]
  rfl

theorem Registered.settle (h : s.Registered i) : s.settle.Registered i := by
  obtain ⟨m,hm,hreg⟩ := h
  refine ⟨if s.references i m = 0 then { m with gone := true } else m,?_,?_⟩
  · rw [getElem_settle,hm,Option.map_some]
  · split_ifs
    · exact hreg
    · exact hreg

theorem settle_continues (s : SubLoop) : s.Continues s.settle := by
  intro i m hm
  rw [getElem_settle,hm,Option.map_some]
  refine ⟨_,rfl,?_⟩
  split_ifs
  · exact ⟨rfl,id,id,fun _ => rfl⟩
  · exact .refl m

theorem settle_inv (h : Inv s) : Inv s.settle ∧ s.settle.Settled := by
  refine ⟨⟨?_,?_,h.rest,h.nodup,fun e he => ?_,?_⟩,?_⟩
  · intro i m hm
    obtain ⟨n,hn,hconn,hqueuing,hheld,_,hgone⟩ := settle_cases hm
    have hf := h.members i n hn
    refine ⟨?_,?_,?_,?_,fun hg => ?_⟩
    · rw [hconn]
      exact hf.life
    · rw [hconn,hqueuing]
      exact hf.queue
    · rw [hconn,hqueuing]
      exact hf.queuing
    · rw [hqueuing,hheld]
      exact hf.held
    · rw [references_congr hconn hheld]
      rw [hg] at hgone
      cases hn' : n.gone with
      | true => exact hf.gone hn'
      | false =>
        rw [hn',Bool.false_or] at hgone
        exact of_decide_eq_true hgone.symm
  · intro i hi
    have := h.known i hi
    simpa [settle] using this
  · exact ⟨(h.active e he).1.settle,(h.active e he).2⟩
  · intro i j m n hm hn hmg hng hfd
    obtain ⟨m',hm',hmc,_,_,hmp,_⟩ := settle_cases hm
    obtain ⟨n',hn',hnc,_,_,hnp,_⟩ := settle_cases hn
    rw [hmc,hnc] at hfd
    exact h.sockets i j m' n' hm' hn' (hmp hmg) (hnp hng) hfd
  · intro i m hm h0
    obtain ⟨n,_,hconn,_,hheld,_,hgone⟩ := settle_cases hm
    rw [references_congr hconn hheld] at h0
    rw [hgone,h0]
    simp

theorem settle_after (h : Inv t) (hst : s.Continues t) : s.After t.settle :=
  ⟨(settle_inv h).1,(settle_inv h).2,hst.trans (settle_continues t)⟩

/-! One object replaced. -/

theorem set_cases {n o : Member} (hm : s.members[i]? = some m)
    (ho : (s.members.set i n)[j]? = some o) : j = i ∧ o = n ∨ j ≠ i ∧ s.members[j]? = some o := by
  by_cases hj : j = i
  · subst hj
    rw [List.getElem?_set_self (List.getElem?_eq_some_iff.mp hm).1] at ho
    exact .inl ⟨rfl,(Option.some.inj ho).symm⟩
  · rw [List.getElem?_set_ne (Ne.symm hj)] at ho
    exact .inr ⟨hj,ho⟩

theorem SocketsApart.set {n : Member} (h : s.SocketsApart) (hm : s.members[i]? = some m)
    (hfd : n.conn.channel.fd = m.conn.channel.fd) (hgone : n.gone = m.gone)
    (ht : t.members = s.members.set i n) : t.SocketsApart := by
  have before {j : Nat} {o : Member} (ho : t.members[j]? = some o) :
      ∃ o', s.members[j]? = some o' ∧ o'.gone = o.gone ∧
        o'.conn.channel.fd = o.conn.channel.fd := by
    rw [ht] at ho
    cases set_cases hm ho with
    | inl ho =>
      obtain ⟨rfl,rfl⟩ := ho
      exact ⟨m,hm,hgone.symm,hfd.symm⟩
    | inr ho => exact ⟨o,ho.2,rfl,rfl⟩
  intro j k o o' ho ho' hog hog' heq
  obtain ⟨p,hp,hpg,hpf⟩ := before ho
  obtain ⟨q,hq,hqg,hqf⟩ := before ho'
  exact h j k p q hp hq (hpg.trans hog) (hqg.trans hog') (by rw [hpf,hqf,heq])

theorem Registered.set {n : Member} {k : Nat} (h : s.Registered k) (hm : s.members[i]? = some m)
    (hconn : n.conn = m.conn) (ht : t.members = s.members.set i n) : t.Registered k := by
  obtain ⟨o,ho,hreg⟩ := h
  rw [Registered,ht]
  by_cases hk : k = i
  · subst hk
    rw [hm] at ho
    obtain rfl := Option.some.inj ho
    exact ⟨n,List.getElem?_set_self (List.getElem?_eq_some_iff.mp hm).1,by rwa [hconn]⟩
  · exact ⟨o,by rwa [List.getElem?_set_ne (Ne.symm hk)],hreg⟩

/-! A handler of one connection. -/

/-- Connection `i` is about to run a handler behind which its tasks `fs` still wait; the
others are as they should be. -/
structure Ready (s : SubLoop) (i : Nat) (m : Member) (fs : List Functor) : Prop where
  member : s.members[i]? = some m
  present : m.gone = false
  others : ∀ j n, j ≠ i → s.members[j]? = some n → s.Fits j n
  queue : fs.length = s.tasks i+m.queuing.toNat
  queuing : m.queuing = true → .connectEstablished∈fs
  held : m.queuing = true → m.held = true
  known : ∀ i∈s.pending++s.phase.functors, i < s.members.length
  rest : ∀ i, s.phase.rest.count i ≤ s.phase.functors.count i
  nodup : (s.phase.active.map Prod.fst).Nodup
  active : ∀ e∈s.phase.active, e.1 ≠ i ∧ s.Registered e.1 ∧ Conn.HangsUpAlone e.2
  sockets : s.SocketsApart

theorem Ready.inv {fs : List Functor} {c : Conn} (h : s.Ready i m fs)
    (hc : Conn.Alive m.conn.channel.fd c) (hfs : Conn.Waiting fs c) :
    Inv { s with members := s.members.set i { m with conn := c }
                 pending := s.pending++List.replicate
                   (c.pendingFunctors.length-(s.tasks i+m.queuing.toNat)) i } := by
  have hi : i < s.members.length := (List.getElem?_eq_some_iff.mp h.member).1
  have hlen : s.tasks i+m.queuing.toNat ≤ c.pendingFunctors.length := by
    rw [← h.queue]
    exact hfs.length_le
  have hfd : c.channel.fd = m.conn.channel.fd := by
    obtain ⟨st,hst⟩ := hc
    exact hst.fd
  refine ⟨fun j n hn => ?_,fun j hj => ?_,h.rest,h.nodup,fun e he => ?_,
    h.sockets.set (n := { m with conn := c }) h.member hfd rfl rfl⟩
  · cases set_cases h.member hn with
    | inl hn =>
      obtain ⟨rfl,rfl⟩ := hn
      refine ⟨?_,?_,fun hq => ?_,h.held,fun hg => ?_⟩
      · dsimp only
        rwa [hfd]
      · simp only [tasks,List.count_append,List.count_replicate_self] at hlen ⊢
        omega
      · exact hfs.subset (h.queuing hq)
      · exact absurd (h.present.symm.trans hg) (by simp)
    | inr hn =>
      have hf := h.others j n hn.1 hn.2
      have hcount (k : Nat) : (s.pending++List.replicate k i).count j = s.pending.count j := by
        rw [List.count_append,List.count_replicate,if_neg (by simpa using Ne.symm hn.1)]
        exact Nat.add_zero _
      refine ⟨hf.life,?_,hf.queuing,hf.held,fun hg => ?_⟩
      · have := hf.queue
        simp only [tasks,hcount] at this ⊢
        exact this
      · have := hf.gone hg
        simp only [references,hcount] at this ⊢
        exact this
  · rw [List.length_set]
    rw [List.append_assoc] at hj
    cases List.mem_append.mp hj with
    | inl hj => exact h.known j (List.mem_append_left _ hj)
    | inr hj =>
      cases List.mem_append.mp hj with
      | inl hj =>
        rw [List.eq_of_mem_replicate hj]
        exact hi
      | inr hj => exact h.known j (List.mem_append_right _ hj)
  · obtain ⟨hne,⟨n,hn,hreg⟩,hin⟩ := h.active e he
    exact ⟨⟨n,by rwa [List.getElem?_set_ne (Ne.symm hne)],hreg⟩,hin⟩

theorem handler_ensures {fs : List Functor} {p : Conn → Prog Fault Conn} (h : s.Ready i m fs)
    (halive : Prog.Ensures (p m.conn) (Conn.Alive m.conn.channel.fd) Spared)
    (hwaiting : Prog.Ensures (p m.conn) (Conn.Waiting fs) fun _ => True) :
    Prog.Ensures (s.handler i p) s.After Spared := by
  rw [handler,h.member]
  dsimp only
  have hboth : Prog.Ensures (p m.conn)
      (fun c => Conn.Alive m.conn.channel.fd c ∧ Conn.Waiting fs c) Spared := by
    intro o ho
    cases o with
    | ok c => exact ⟨halive _ ho,hwaiting _ ho⟩
    | error e => exact halive _ ho
  refine hboth.bind fun c hc => Prog.ensures_pure (settle_after (h.inv hc.1 hc.2) ?_)
  obtain ⟨st,hst⟩ := hc.1
  exact .set (n := { m with conn := c }) h.member ⟨hst.fd,id,id,id⟩ rfl


/-! The steps. -/

theorem Fits.congr (h : s.Fits i m) (htasks : t.tasks i = s.tasks i)
    (hrefs : t.references i m ≤ s.references i m) : t.Fits i m := by
  refine ⟨h.life,?_,h.queuing,h.held,fun hg => ?_⟩
  · rw [htasks]
    exact h.queue
  · have := h.gone hg
    omega

theorem Registered.established (hm : s.members[i]? = some m) (hf : s.Fits i m)
    (h : s.Registered i) : At m.conn.channel.fd .established m.conn := by
  obtain ⟨n,hn,hreg⟩ := h
  rw [hm] at hn
  obtain rfl := Option.some.inj hn
  obtain ⟨st,hst⟩ := hf.life
  obtain rfl := (registered_iff hst).mp hreg
  exact hst

theorem count_other (pending : List Nat) (hj : j ≠ i) :
    (pending++[i]).count j = pending.count j := by
  rw [List.count_append,List.count_singleton,if_neg (by simpa using Ne.symm hj)]
  exact Nat.add_zero _

theorem Inv.known_snoc (h : Inv s) (hj : j∈(s.pending++[i])++s.phase.functors) :
    j < s.members.length ∨ j = i := by
  rw [List.append_assoc] at hj
  cases List.mem_append.mp hj with
  | inl hj => exact .inl (h.known j (List.mem_append_left _ hj))
  | inr hj =>
    cases List.mem_cons.mp hj with
    | inl hj => exact .inr hj
    | inr hj => exact .inl (h.known j (List.mem_append_right _ hj))

theorem addConnect_after (h : Inv s) (hset : s.Settled) {sockfd : Int} {c : Conn}
    (hfree : s.NotASocket sockfd) (hc : At sockfd .queued c) :
    s.After { s with members := s.members++[{ conn := c }]
                     pending := s.pending++[s.members.length] } := by
  set t : SubLoop := { s with members := s.members++[{ conn := c }]
                              pending := s.pending++[s.members.length] } with ht
  have hnew : s.members.length∉s.pending++s.phase.functors :=
    fun hm => Nat.lt_irrefl _ (h.known _ hm)
  rw [List.mem_append,not_or] at hnew
  have hpending : s.pending.count s.members.length = 0 := List.count_eq_zero.mpr hnew.1
  have hfunctors : s.phase.functors.count s.members.length = 0 := List.count_eq_zero.mpr hnew.2
  have hrest := h.rest s.members.length
  have split {j : Nat} {n : Member} (hn : t.members[j]? = some n) :
      j < s.members.length ∧ s.members[j]? = some n ∨
        j = s.members.length ∧ n = { conn := c } := by
    rcases Nat.lt_trichotomy j s.members.length with hj | hj | hj
    · rw [List.getElem?_append_left hj] at hn
      exact .inl ⟨hj,hn⟩
    · subst hj
      rw [List.getElem?_concat_length] at hn
      exact .inr ⟨rfl,(Option.some.inj hn).symm⟩
    · rw [List.getElem?_eq_none (by rw [List.length_append]; exact hj)] at hn
      cases hn
  refine ⟨⟨fun j n hn => ?_,fun j hj => ?_,h.rest,h.nodup,fun e he => ?_,?_⟩,?_,fun j n hn => ?_⟩
  · cases split hn with
    | inl hn =>
      have hcount := count_other s.pending (Nat.ne_of_lt hn.1)
      refine (h.members j n hn.2).congr ?_ (Nat.le_of_eq ?_)
      · rw [tasks,tasks,hcount]
      · rw [references,references,hcount]
    | inr hn =>
      obtain ⟨rfl,rfl⟩ := hn
      have hfd := hc.fd
      have hqueued : c.pendingFunctors = [.addConnectInLoop,.connectEstablished] := hc.pending
      subst hfd
      refine ⟨⟨.queued,hc⟩,?_,fun _ => ?_,fun _ => rfl,fun hg => by cases hg⟩
      · rw [tasks]
        rw [hqueued]
        rw [List.count_append,hpending,List.count_singleton_self,Bool.toNat_true]
        rw [hfunctors] at hrest
        change 2 = s.phase.rest.count _+(0+1)+1
        omega
      · rw [hqueued]
        exact List.mem_cons_of_mem _ List.mem_cons_self
  · rw [List.length_append]
    cases h.known_snoc hj with
    | inl hj => exact Nat.lt_succ_of_lt hj
    | inr hj => exact Nat.lt_succ_of_le (Nat.le_of_eq hj)
  · obtain ⟨⟨n,hn,hreg⟩,hin⟩ := h.active e he
    have hlt := (List.getElem?_eq_some_iff.mp hn).1
    exact ⟨⟨n,by rwa [List.getElem?_append_left hlt],hreg⟩,hin⟩
  · intro j k n n' hn hn' hng hng' heq
    cases split hn with
    | inl hn =>
      cases split hn' with
      | inl hn' => exact h.sockets j k n n' hn.2 hn'.2 hng hng' heq
      | inr hn' =>
        obtain ⟨rfl,rfl⟩ := hn'
        exact absurd (heq.trans hc.fd) (hfree n (List.mem_of_getElem? hn.2) hng)
    | inr hn =>
      obtain ⟨rfl,rfl⟩ := hn
      cases split hn' with
      | inl hn' =>
        exact absurd (heq.symm.trans hc.fd) (hfree n' (List.mem_of_getElem? hn'.2) hng')
      | inr hn' => exact hn'.1.symm
  · intro j n hn h0
    cases split hn with
    | inl hn =>
      refine hset j n hn.2 ?_
      rw [← h0]
      rw [references,references,count_other s.pending (Nat.ne_of_lt hn.1)]
    | inr hn =>
      obtain ⟨rfl,rfl⟩ := hn
      rw [references,List.count_append,List.count_singleton_self] at h0
      omega
  · have hlt := (List.getElem?_eq_some_iff.mp hn).1
    exact ⟨n,by rwa [List.getElem?_append_left hlt],.refl n⟩

theorem connectEstablished_inv (h : Inv s) (hm : s.members[i]? = some m)
    (hqueuing : m.queuing = true) :
    Inv { s with members := s.members.set i { m with queuing := false }
                 pending := s.pending++[i] } := by
  have hi : i < s.members.length := (List.getElem?_eq_some_iff.mp hm).1
  refine ⟨fun j n hn => ?_,fun j hj => ?_,h.rest,h.nodup,fun e he => ?_,
    h.sockets.set (n := { m with queuing := false }) hm rfl rfl rfl⟩
  · cases set_cases hm hn with
    | inl hn =>
      obtain ⟨rfl,rfl⟩ := hn
      have hf := h.members j m hm
      have hqueue := hf.queue
      refine ⟨hf.life,?_,(fun hq => by cases hq),(fun hq => by cases hq),fun hg => ?_⟩
      · rw [tasks,hqueuing,Bool.toNat_true] at hqueue
        rw [tasks,List.count_append,List.count_singleton_self,Bool.toNat_false]
        dsimp only
        omega
      · have h0 := hf.gone hg
        rw [references,hf.held hqueuing,Bool.toNat_true] at h0
        omega
    | inr hn =>
      have hcount := count_other s.pending hn.1
      refine (h.members j n hn.2).congr ?_ (Nat.le_of_eq ?_)
      · rw [tasks,tasks,hcount]
      · rw [references,references,hcount]
  · rw [List.length_set]
    cases h.known_snoc hj with
    | inl hj => exact hj
    | inr hj =>
      rw [hj]
      exact hi
  · exact ⟨(h.active e he).1.set (n := { m with queuing := false }) hm rfl rfl,(h.active e he).2⟩

theorem connectEstablished_settled (hset : s.Settled) (hm : s.members[i]? = some m) :
    Settled { s with members := s.members.set i { m with queuing := false }
                     pending := s.pending++[i] } := by
  intro j n hn h0
  cases set_cases hm hn with
  | inl hn =>
    obtain ⟨rfl,rfl⟩ := hn
    rw [references,List.count_append,List.count_singleton_self] at h0
    omega
  | inr hn =>
    refine hset j n hn.2 ?_
    rw [← h0]
    rw [references,references,count_other s.pending hn.1]

theorem returns_inv (h : Inv s) (hm : s.members[i]? = some m) (hqueuing : ¬ m.queuing = true) :
    Inv { s with members := s.members.set i { m with held := false } } := by
  refine ⟨fun j n hn => ?_,fun j hj => ?_,h.rest,h.nodup,fun e he => ?_,
    h.sockets.set (n := { m with held := false }) hm rfl rfl rfl⟩
  · cases set_cases hm hn with
    | inl hn =>
      obtain ⟨rfl,rfl⟩ := hn
      have hf := h.members j m hm
      refine ⟨hf.life,hf.queue,hf.queuing,fun hq => absurd hq hqueuing,fun hg => ?_⟩
      have h0 := hf.gone hg
      rw [references] at h0
      rw [references,Bool.toNat_false]
      dsimp only
      omega
    | inr hn => exact (h.members j n hn.2).congr rfl (Nat.le_refl _)
  · rw [List.length_set]
    exact h.known j hj
  · exact ⟨(h.active e he).1.set (n := { m with held := false }) hm rfl rfl,(h.active e he).2⟩

theorem handleEvent_ensures {revents : Events} {active : List (Nat×Events)} (h : Inv s)
    (hphase : s.phase = .handleEvents ((i,revents)::active)) {us : Conn → List Conn.UserCall}
    (hus : Callback us) (answers : List ReadAnswer) (answer : WriteAnswer) :
    Prog.Ensures ({ s with phase := .handleEvents active }.handler i
      (·.handleEvent (Conn.calling us) revents answers answer)) s.After Spared := by
  obtain ⟨members,pending,phase⟩ := s
  subst hphase
  obtain ⟨hreg,hin⟩ := h.active (i,revents) List.mem_cons_self
  have hnodup := List.nodup_cons.mp h.nodup
  obtain ⟨m,hm,_⟩ := id hreg
  have hf := h.members i m hm
  have hst := hreg.established hm hf
  have hkeeps := Conn.keeps_calling fun c hc u hu => (hus c hc u hu).1
  have hready : Ready { members := members, pending := pending, phase := .handleEvents active } i m
      m.conn.pendingFunctors := by
    refine ⟨hm,hf.present_of_established hst,fun j n _ hn => ?_,hf.queue,hf.queuing,hf.held,
      h.known,h.rest,hnodup.2,fun e he => ⟨?_,h.active e (List.mem_cons_of_mem _ he)⟩,h.sockets⟩
    · exact (h.members j n hn).congr rfl (Nat.le_refl _)
    · intro hei
      exact hnodup.1 (List.mem_map.mpr ⟨e,he,hei⟩)
  have hens := handler_ensures (p := (·.handleEvent (Conn.calling us) revents answers answer))
    hready (Conn.handleEvent_ensures hkeeps hin answers answer hst)
    (Conn.handleEvent_waiting (Conn.queues_calling us) revents answers answer (.refl _))
  exact hens.mono (fun _ ht => ht.phase) fun _ he => he

theorem runFunctor_ensures {functors rest : List Nat} (h : Inv s)
    (hphase : s.phase = .doPendingFunctors functors (i::rest)) {us : Conn → List Conn.UserCall}
    (hus : Callback us) :
    Prog.Ensures ({ s with phase := .doPendingFunctors functors rest }.handler i
      (·.runFunctor (Conn.calling us))) s.After Spared := by
  obtain ⟨members,pending,phase⟩ := s
  subst hphase
  have hrest : (i::rest).count i ≤ functors.count i := h.rest i
  rw [List.count_cons_self] at hrest
  have hi : i < members.length := h.known i
    (List.mem_append_right _ (List.count_pos_iff.mp (by dsimp only [Phase.functors]; omega)))
  obtain ⟨m,hm⟩ : ∃ m, members[i]? = some m := ⟨_,List.getElem?_eq_getElem hi⟩
  have hf := h.members i m hm
  obtain ⟨st,hst⟩ := id hf.life
  have hkeeps := Conn.keeps_calling fun c hc u hu => (hus c hc u hu).1
  have hqueue : m.conn.pendingFunctors.length = (i::rest).count i+pending.count i+m.queuing.toNat :=
    hf.queue
  rw [List.count_cons_self] at hqueue
  have hready : Ready { members := members, pending := pending
                        phase := .doPendingFunctors functors rest } i m
      m.conn.pendingFunctors.tail := by
    refine ⟨hm,hf.present ?_,fun j n hj hn => ?_,?_,fun hqueuing => ?_,hf.held,h.known,fun j => ?_,
      List.nodup_nil,fun e he => ?_,h.sockets⟩
    · simp only [references,Phase.functors]
      omega
    · refine (h.members j n hn).congr ?_ (Nat.le_refl _)
      simp [tasks,Phase.rest,List.count_cons_of_ne (Ne.symm hj)]
    · rw [List.length_tail]
      simp only [tasks,Phase.rest]
      omega
    · -- only the first task of a connection runs before `newConnection` has queued the second
      have hmem := hf.queuing hqueuing
      have hpending := hst.pending
      cases st with
      | queued =>
        have hp : m.conn.pendingFunctors = [.addConnectInLoop,.connectEstablished] := hpending
        rw [hp]
        exact List.mem_cons_self
      | added =>
        have hp : m.conn.pendingFunctors = [.connectEstablished] := hpending
        rw [hp,hqueuing,Bool.toNat_true] at hqueue
        dsimp only [List.length_singleton] at hqueue
        omega
      | established => exact absurd hmem (not_establishing hst)
      | closing =>
        cases hpending.2 _ hmem with
        | inl hs => cases hs with
          | inl he => cases he
          | inr he => cases he
        | inr he => cases he
      | gone =>
        cases hpending _ hmem with
        | inl he => cases he
        | inr he => cases he
    · have := h.rest j
      simp only [Phase.rest,Phase.functors] at this ⊢
      exact Nat.le_trans (List.count_le_count_cons) this
    · cases he
  have hens := handler_ensures (p := (·.runFunctor (Conn.calling us))) hready
    (Conn.runFunctor_ensures hkeeps hst) (Conn.runFunctor_waiting (Conn.queues_calling us))
  exact hens.mono (fun _ ht => ht.phase) fun _ he => he

theorem connectEstablished_after (h : Inv s) (hset : s.Settled) (hm : s.members[i]? = some m)
    (hqueuing : m.queuing = true) :
    s.After { s with members := s.members.set i { m with queuing := false }
                     pending := s.pending++[i] } :=
  ⟨connectEstablished_inv h hm hqueuing,connectEstablished_settled hset hm,
    .set (n := { m with queuing := false }) hm ⟨rfl,(fun hq => by cases hq),id,id⟩ rfl⟩

theorem returns_after (h : Inv s) (hm : s.members[i]? = some m) (hqueuing : ¬ m.queuing = true) :
    s.After { s with members := s.members.set i { m with held := false } }.settle :=
  settle_after (returns_inv h hm hqueuing)
    (.set (n := { m with held := false }) hm ⟨rfl,id,(fun hh => by cases hh),id⟩ rfl)

theorem poll_after {events : List (Nat×Events)} (h : Inv s) (hset : s.Settled)
    (hphase : s.phase = .poll) (hnodup : (events.map Prod.fst).Nodup)
    (hevents : ∀ e∈events, s.Registered e.1 ∧ Conn.HangsUpAlone e.2) :
    s.After { s with phase := .handleEvents events } := by
  obtain ⟨members,pending,phase⟩ := s
  subst hphase
  exact ⟨⟨fun i m hm => (h.members i m hm).congr rfl (Nat.le_refl _),h.known,h.rest,hnodup,hevents,
    h.sockets⟩,hset,.of_eq rfl⟩

theorem swap_after (h : Inv s) (hset : s.Settled) (hphase : s.phase = .handleEvents []) :
    s.After { s with phase := .doPendingFunctors s.pending s.pending
                     pending := [] } := by
  obtain ⟨members,pending,phase⟩ := s
  subst hphase
  have refs (i : Nat) (m : Member) :
      references { members := members, pending := []
                   phase := .doPendingFunctors pending pending } i m =
        references { members := members, pending := pending, phase := .handleEvents [] } i m := by
    simp [references,Phase.functors]
  refine ⟨⟨fun i m hm => (h.members i m hm).congr ?_ (Nat.le_of_eq (refs i m)),fun i hi => ?_,
    fun _ => Nat.le_refl _,List.nodup_nil,fun e he => ?_,h.sockets⟩,fun i m hm h0 => ?_,.of_eq rfl⟩
  · simp [tasks,Phase.rest]
  · exact h.known i (by simpa [Phase.functors] using hi)
  · cases he
  · exact hset i m hm ((refs i m).symm.trans h0)

theorem destroyFunctors_after {functors : List Nat} (h : Inv s)
    (hphase : s.phase = .doPendingFunctors functors []) :
    s.After { s with phase := .poll }.settle := by
  obtain ⟨members,pending,phase⟩ := s
  subst hphase
  refine settle_after ⟨fun i m hm => (h.members i m hm).congr rfl ?_,fun i hi => ?_,
    fun _ => Nat.le_refl _,List.nodup_nil,fun e he => ?_,h.sockets⟩ (.of_eq rfl)
  · simp [references,Phase.functors]
  · exact h.known i (List.mem_append_left _ (by simpa [Phase.functors] using hi))
  · cases he

theorem step_ensures (h : Inv s) (hset : s.Settled) (ha : s.Lawful a) :
    Prog.Ensures (s.step a) s.After Spared := by
  have nothing : Prog.Ensures (pure s : Prog Fault SubLoop) s.After Spared :=
    Prog.ensures_pure ⟨h,hset,.of_eq rfl⟩
  cases a with
  | addConnect sockfd reading writeComplete input output =>
    exact Prog.ensures_pure (addConnect_after h hset ha
      (Conn.newConnection_at sockfd reading writeComplete input output))
  | connectEstablished i =>
    rw [step]
    split
    · rename_i m hm
      split_ifs with hqueuing
      · exact Prog.ensures_pure (connectEstablished_after h hset hm hqueuing)
      · exact nothing
    · exact nothing
  | returns i =>
    rw [step]
    split
    · rename_i m hm
      split_ifs with hqueuing
      · exact nothing
      · exact Prog.ensures_pure (returns_after h hm hqueuing)
    · exact nothing
  | poll events =>
    rw [step]
    split
    · rename_i hphase
      exact Prog.ensures_pure (poll_after h hset hphase ha.1 ha.2)
    · exact nothing
  | handleEvent answers us answer =>
    rw [step]
    split
    · rename_i i revents active hphase
      exact handleEvent_ensures h hphase ha answers answer
    · exact nothing
  | swap =>
    rw [step]
    split
    · rename_i hphase
      exact Prog.ensures_pure (swap_after h hset hphase)
    · exact nothing
  | runFunctor us =>
    rw [step]
    split
    · rename_i functors i rest hphase
      exact runFunctor_ensures h hphase ha
    · exact nothing
  | destroyFunctors =>
    rw [step]
    split
    · rename_i functors hphase
      exact Prog.ensures_pure (destroyFunctors_after h hphase)
    · exact nothing

theorem run_inv (h : Run Step s as t) (hs : Inv s) (hset : s.Settled) : Inv t ∧ t.Settled := by
  induction h with
  | nil => exact ⟨hs,hset⟩
  | cons hstep _ ih =>
    have hu := (step_ensures hs hset hstep.1).result hstep.2
    exact ih hu.inv hu.settled

theorem empty_inv : Inv {} ∧ Settled {} := by
  have nobody {i : Nat} {m : Member} : ¬ ({} : SubLoop).members[i]? = some m := by simp
  refine ⟨⟨fun i m hm => absurd hm nobody,fun i hi => ?_,fun _ => Nat.le_refl _,List.nodup_nil,
    fun e he => ?_,fun i j m n hm => absurd hm nobody⟩,fun i m hm => absurd hm nobody⟩
  · cases hi
  · cases he


/-- No pointer dangles: what `activeChannels_`, the tasks, the kernel's interest list and
`Epoller`'s table refer to is there, and of a connection that is waiting for its turn in
`activeChannels_` the channel still listens. An object is destroyed only when disconnected
and out of all of these, and no two objects share a descriptor. -/
structure Safe (s : SubLoop) : Prop where
  active : ∀ e∈s.phase.active, ∃ m, s.members[e.1]? = some m ∧ m.gone = false ∧
    m.conn.channel.status = .LISTEN
  tasks : ∀ i∈s.pending++s.phase.functors, ∃ m, s.members[i]? = some m ∧ m.gone = false
  gone : ∀ m∈s.members, m.gone = true → m.conn.state = .kDisconnected ∧
    m.conn.channel.status = .DELETED ∧ m.conn.poller.interest m.conn.channel.fd = none ∧
    m.conn.poller.channels m.conn.channel.fd = none
  sockets : s.SocketsApart

theorem Inv.safe (h : Inv s) : s.Safe := by
  refine ⟨fun e he => ?_,fun i hi => ?_,fun m hm hgone => ?_,h.sockets⟩
  · obtain ⟨m,hm,hreg⟩ := (h.active e he).1
    have hf := h.members e.1 m hm
    have hst := Registered.established hm hf ⟨m,hm,hreg⟩
    exact ⟨m,hm,hf.present_of_established hst,hst.status⟩
  · have hlt := h.known i hi
    refine ⟨s.members[i],List.getElem?_eq_getElem hlt,?_⟩
    refine (h.members i _ (List.getElem?_eq_getElem hlt)).present ?_
    rw [references]
    cases List.mem_append.mp hi with
    | inl hi =>
      have := List.count_pos_iff.mpr hi
      omega
    | inr hi =>
      have := List.count_pos_iff.mpr hi
      omega
  · obtain ⟨i,hi⟩ := List.getElem?_of_mem hm
    have hf := h.members i m hi
    have hst := hf.last (h.rest i) (hf.gone hgone)
    have hint := hst.agrees.interest
    have hch := hst.agrees.channels
    rw [hst.status] at hint hch
    exact ⟨hst.state,hst.status,hint,hch⟩

theorem taken {u : SubLoop} (a : Input) (ha : s.Lawful a) (ht : (s.step a).Returns t)
    (h : Run Step t as u) : Run Step s ((s,a)::as) u := .cons ⟨ha,ht⟩ h

theorem comesAndGoes : ∃ as s, Run Step {} as s ∧ s.phase = .poll ∧ s.pending = [] ∧
    (∀ m∈s.members, m.held = false) ∧ s.members.map Member.gone = [true] := by
  refine ⟨_,_,taken (.addConnect 5 false false (fun _ => 0) fun _ => 0) (fun m hm => nomatch hm)
      ⟨0,rfl⟩
    (taken (.connectEstablished 0) trivial ⟨0,rfl⟩
    (taken (.returns 0) trivial ⟨0,rfl⟩
    (taken (.poll []) ⟨List.nodup_nil,fun e he => nomatch he⟩ ⟨0,rfl⟩
    (taken .swap trivial ⟨0,rfl⟩
    (taken (.runFunctor fun _ => []) (fun _ _ u hu => nomatch hu) ⟨0,rfl⟩
    (taken (.runFunctor fun _ => []) (fun _ _ u hu => nomatch hu) ⟨0,rfl⟩
    (taken .destroyFunctors trivial ⟨0,rfl⟩
    (taken (.poll [(0,EPOLLIN)]) ⟨by simp,?_⟩ ⟨0,rfl⟩
    (taken (.handleEvent [.bytes []] (fun _ => []) (.accept 0)) (fun _ _ u hu => nomatch hu) ⟨3,rfl⟩
    (taken .swap trivial ⟨0,rfl⟩
    (taken (.runFunctor fun _ => []) (fun _ _ u hu => nomatch hu) ⟨0,rfl⟩
    (taken .destroyFunctors trivial ⟨0,rfl⟩ (.nil _))))))))))))),rfl,rfl,?_,rfl⟩
  · intro e he
    cases List.mem_singleton.mp he
    exact ⟨⟨_,rfl,by decide⟩,by simp [Conn.HangsUpAlone,EPOLLIN,EPOLLHUP]⟩
  · intro m hm
    cases List.mem_singleton.mp hm
    rfl

/-- Over every run of a sub-loop, whatever comes in and in whatever order the threads go on,
no pointer to a connection dangles, and the assertions of the next step hold. -/
theorem subLoop_safe (h : Run Step {} as s) : s.Safe ∧
    ∀ a, s.Lawful a → ∀ e, (s.step a).Ends (.error e) →
      e ≠ .assertion .connectEstablished ∧ e ≠ .assertion .handleClose := by
  obtain ⟨hs,hset⟩ := run_inv h empty_inv.1 empty_inv.2
  exact ⟨hs.safe,fun a ha e he => step_ensures hs hset ha _ he⟩

theorem subLoop_safe_closed : ∃ s : SubLoop, s.members.map Member.gone = [true] ∧ s.Safe ∧
    ∀ a, s.Lawful a → ∀ e, (s.step a).Ends (.error e) →
      e ≠ .assertion .connectEstablished ∧ e ≠ .assertion .handleClose := by
  obtain ⟨as,s,hrun,_,_,_,hgone⟩ := comesAndGoes
  exact ⟨s,hgone,subLoop_safe hrun⟩

def Open (c : Conn) : Prop := c.state = .kConnected ∨ c.state = .kDisconnecting

theorem Inv.idle (hs : Inv s) (hset : s.Settled) (hphase : s.phase = .poll)
    (hpending : s.pending = []) (hheld : ∀ m∈s.members, m.held = false) (hm : m∈s.members) :
    (m.gone = false ↔ m.conn.connectSet = true) ∧ (m.gone = false ↔ Open m.conn) ∧
      (m.gone = false ↔ m.conn.poller.interest m.conn.channel.fd ≠ none) := by
  obtain ⟨i,hi⟩ := List.getElem?_of_mem hm
  have hf := hs.members i m hi
  obtain ⟨st,hst⟩ := id hf.life
  have hqueue := hf.queue
  have hqueuing : m.queuing = false := by
    rw [Bool.eq_false_iff]
    exact fun hq => Bool.noConfusion ((hheld m hm).symm.trans (hf.held hq))
  have hrefs : s.references i m = m.conn.connectSet.toNat := by
    rw [references,hphase,hpending,hheld m hm]
    simp [Phase.functors]
  have hnone : m.conn.pendingFunctors = [] := by
    rw [tasks,hphase,hpending,hqueuing] at hqueue
    exact List.length_eq_zero_iff.mp (by simpa [Phase.rest] using hqueue)
  have hin : m.conn.connectSet = st.inSet := hst.connectSet
  have hreg := registered_iff hst
  have hp := hst.pending
  rw [hnone] at hp
  cases st with
  | queued => cases hp
  | added => cases hp
  | closing => cases hp.1
  | established =>
    have hgone := hf.present_of_established hst
    exact ⟨by simp [hgone,hin,Stage.inSet],iff_of_true hgone hst.state,iff_of_true hgone (hreg.mpr rfl)⟩
  | gone =>
    have hgone : m.gone = true := hset i m hi (by rw [hrefs,hin]; rfl)
    have hstate : m.conn.state = .kDisconnected := hst.state
    refine ⟨by simp [hgone,hin,Stage.inSet],?_,?_⟩
    · simp [hgone,Open,hstate]
    · rw [hreg]
      simp [hgone]

/-- When the loop has nothing left to do, the objects that are there are those of
`connectSet_`, the open connections, and those whose channels the kernel watches. -/
theorem subLoop_leaks_nothing (h : Run Step {} as s) (hphase : s.phase = .poll)
    (hpending : s.pending = []) (hheld : ∀ m∈s.members, m.held = false) :
    ∀ m∈s.members, (m.gone = false ↔ m.conn.connectSet = true) ∧
      (m.gone = false ↔ Open m.conn) ∧
      (m.gone = false ↔ m.conn.poller.interest m.conn.channel.fd ≠ none) := by
  obtain ⟨hs,hset⟩ := run_inv h empty_inv.1 empty_inv.2
  exact fun m hm => hs.idle hset hphase hpending hheld hm

theorem subLoop_leaks_nothing_closed : ∃ s : SubLoop, s.members.map Member.gone = [true] ∧
    ∀ m∈s.members, (m.gone = false ↔ m.conn.connectSet = true) ∧
      (m.gone = false ↔ Open m.conn) ∧
      (m.gone = false ↔ m.conn.poller.interest m.conn.channel.fd ≠ none) := by
  obtain ⟨as,s,hrun,hphase,hpending,hheld,hgone⟩ := comesAndGoes
  exact ⟨s,hgone,subLoop_leaks_nothing hrun hphase hpending hheld⟩

end SubLoop
end AdlServer.Net
