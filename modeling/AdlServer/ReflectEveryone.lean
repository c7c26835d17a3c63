import AdlServer.Reclaiming
import AdlServer.ReflectServer

/-! The reflection server as a whole: any number of sub-loops and connections, with
`reflectionMessageCallback` as the only callback. -/
namespace AdlServer.Net
open Program Memory Cpp Runs

namespace SubLoop
variable {s t : SubLoop} {i j : Nat} {m n : Member} {a : Input} {c d : Conn}

inductive Handled (s : SubLoop) (j : Nat) (c : Conn) : Input → Conn → Prop where
  | handleEvent {revents : Events} {active : List (Nat×Events)} {answers : List ReadAnswer}
    {us : Conn → List Conn.UserCall} {answer : WriteAnswer} {d : Conn}
    (hphase : s.phase = .handleEvents ((j,revents)::active))
    (hd : (c.handleEvent (Conn.calling us) revents answers answer).Returns d) :
    Handled s j c (.handleEvent answers us answer) d
  | runFunctor {us : Conn → List Conn.UserCall} {d : Conn}
    (hd : (c.runFunctor (Conn.calling us)).Returns d) : Handled s j c (.runFunctor us) d

inductive Became (s : SubLoop) (a : Input) (j : Nat) (d : Conn) : Prop where
  | kept {m : Member} (hm : s.members[j]? = some m) (h : d = m.conn)
  | handled {m : Member} (hm : s.members[j]? = some m) (h : Handled s j m.conn a d)
  | made {sockfd : Int} {reading writeComplete : Bool} {input output : Mem}
    (ha : a = .addConnect sockfd reading writeComplete input output)
    (h : d = Conn.newConnection sockfd reading writeComplete input output)

theorem settle_conn (hn : s.settle.members[j]? = some n) :
    ∃ m, s.members[j]? = some m ∧ n.conn = m.conn := by
  obtain ⟨m,hm,hconn,_⟩ := settle_cases hn
  exact ⟨m,hm,hconn⟩

theorem set_conn {k : Nat} {o : Member} (hm : s.members[k]? = some m) (hconn : o.conn = m.conn)
    (hn : (s.members.set k o)[j]? = some n) : ∃ p, s.members[j]? = some p ∧ n.conn = p.conn := by
  cases set_cases hm hn with
  | inl hn =>
    obtain ⟨rfl,rfl⟩ := hn
    exact ⟨m,hm,hconn⟩
  | inr hn => exact ⟨n,hn.2,rfl⟩

theorem handler_became {phase : Phase} {p : Conn → Prog Fault Conn}
    (hp : ∀ (m : Member) (d : Conn), s.members[i]? = some m → (p m.conn).Returns d →
      Handled s i m.conn a d)
    (ht : ({ s with phase := phase }.handler i p).Returns t) (hn : t.members[j]? = some n) :
    Became s a j n.conn := by
  rw [handler] at ht
  split at ht
  · cases (Prog.returns_pure _ _).mp ht
    exact .kept hn rfl
  · rename_i m hm
    obtain ⟨c,hc,hd⟩ := (Prog.returns_bind _ _ _).mp ht
    cases (Prog.returns_pure _ _).mp hd
    obtain ⟨o,ho,hconn⟩ := settle_conn hn
    rw [hconn]
    by_cases hj : j = i
    · subst hj
      dsimp only at ho
      rw [List.getElem?_set_self (List.getElem?_eq_some_iff.mp hm).1] at ho
      rw [← Option.some.inj ho]
      exact .handled hm (hp m c hm hc)
    · dsimp only at ho
      rw [List.getElem?_set_ne (Ne.symm hj)] at ho
      exact .kept ho rfl

theorem step_became (ht : (s.step a).Returns t) (hn : t.members[j]? = some n) :
    Became s a j n.conn := by
  have stays (hst : (pure s : Prog Fault SubLoop).Returns t) : Became s a j n.conn := by
    cases (Prog.returns_pure _ _).mp hst
    exact .kept hn rfl
  cases a with
  | addConnect sockfd reading writeComplete input output =>
    cases (Prog.returns_pure _ _).mp ht
    by_cases hj : j < s.members.length
    · rw [List.getElem?_append_left hj] at hn
      exact .kept hn rfl
    · have hlen := (List.getElem?_eq_some_iff.mp hn).1
      rw [List.length_append,List.length_singleton] at hlen
      have hlast : j = s.members.length := by omega
      subst hlast
      rw [List.getElem?_concat_length] at hn
      exact .made rfl (by rw [← Option.some.inj hn])
  | connectEstablished k =>
    rw [step] at ht
    split at ht
    · rename_i m hm
      split_ifs at ht
      · cases (Prog.returns_pure _ _).mp ht
        obtain ⟨o,ho,hconn⟩ := set_conn (o := { m with queuing := false }) hm rfl hn
        exact .kept ho hconn
      · exact stays ht
    · exact stays ht
  | returns k =>
    rw [step] at ht
    split at ht
    · rename_i m hm
      split_ifs at ht
      · exact stays ht
      · cases (Prog.returns_pure _ _).mp ht
        obtain ⟨o,ho,hconn⟩ := settle_conn hn
        obtain ⟨p,hp,hconn'⟩ := set_conn (o := { m with held := false }) hm rfl ho
        exact .kept hp (hconn.trans hconn')
    · exact stays ht
  | poll events =>
    rw [step] at ht
    split at ht
    · cases (Prog.returns_pure _ _).mp ht
      exact .kept hn rfl
    · exact stays ht
  | handleEvent answers us answer =>
    rw [step] at ht
    split at ht
    · rename_i i revents active hphase
      exact handler_became (fun m d _ hd => .handleEvent hphase hd) ht hn
    · exact stays ht
  | swap =>
    rw [step] at ht
    split at ht
    · cases (Prog.returns_pure _ _).mp ht
      exact .kept hn rfl
    · exact stays ht
  | runFunctor us =>
    rw [step] at ht
    split at ht
    · exact handler_became (fun m d _ hd => .runFunctor hd) ht hn
    · exact stays ht
  | destroyFunctors =>
    rw [step] at ht
    split at ht
    · cases (Prog.returns_pure _ _).mp ht
      obtain ⟨m,hm,hconn⟩ := settle_conn hn
      exact .kept hm hconn
    · exact stays ht

theorem handler_returns {phase : Phase} {p : Conn → Prog Fault Conn}
    (hp : ∀ m, s.members[i]? = some m → ∃ d, (p m.conn).Returns d) :
    ∃ t, ({ s with phase := phase }.handler i p).Returns t := by
  rw [handler]
  split
  · exact ⟨_,Prog.returns_self _⟩
  · rename_i m hm
    obtain ⟨d,hd⟩ := hp m hm
    exact ⟨_,hd.bind (Prog.returns_self _)⟩

end SubLoop
end AdlServer.Net

namespace AdlServer.Reflect
open Program Memory Cpp Runs Net Conn
variable {s t : TcpServer} {a : TcpServer.Input} {as : List (TcpServer×TcpServer.Input)}

def reflection (sent : WriteAnswer) (c : Conn) : List UserCall :=
  [.send c.inputBuffer.contents sent,.retrieve c.inputBuffer.readable]

theorem calling_reflection (sent : WriteAnswer) :
    calling (reflection sent) = reflectionMessageCallback sent := by
  funext c
  change (c.send c.inputBuffer.contents sent >>= fun d => _) = c.send _ sent >>= fun d => _
  congr
  funext d
  exact Prog.bind_pure _

/-- The input is one of the reflection server: its callback on every message, whose write does
not fail for good, and no callback else. -/
def Reflects : TcpServer.Input → Prop
  | .addConnect _ writeCompleteCallback _ _ => writeCompleteCallback = false
  | .subLoop _ (.handleEvent _ us _) => ∃ sent, NotFatal sent ∧ us = reflection sent
  | .subLoop _ (.runFunctor us) => us = fun _ => []
  | _ => True

def Room (s : TcpServer) (a : TcpServer.Input) : Prop :=
  ∀ i l j revents active answers us answer m, a = .subLoop i (.handleEvent answers us answer) →
    s.loops[i]? = some l → l.phase = .handleEvents ((j,revents)::active) →
    l.members[j]? = some m →
    m.conn.received.length+NetBuffer.dataLength answers+4096 < 2^30

structure Lawful (s : TcpServer) (a : TcpServer.Input) : Prop where
  lawful : s.Lawful a
  reflects : Reflects a
  room : Room s a

def Step (s : TcpServer) (a : TcpServer.Input) (t : TcpServer) : Prop :=
  Lawful s a ∧ (s.step a).Returns t

def Smooth : TcpServer.Input → Prop
  | .subLoop _ (.handleEvent answers _ _) => Fair answers
  | _ => True

def Echoes (smooth : Prop) (s : TcpServer) : Prop :=
  ∀ l∈s.loops, ∀ m∈l.members, Echoing m.conn.channel.fd smooth m.conn

section
variable {smooth : Prop} {l : SubLoop} {b : SubLoop.Input} {i j : Nat} {m : Member} {c d : Conn}

theorem Echoing.mono {sockfd : Int} {smooth' : Prop} (h : Echoing sockfd smooth c)
    (hs : smooth' → smooth) : Echoing sockfd smooth' c :=
  { h with drained := fun hp => h.drained (hs hp) }

theorem Echoing.fd {sockfd : Int} (h : Echoing sockfd smooth c) : c.channel.fd = sockfd := by
  obtain ⟨st,hst⟩ := h.life
  exact hst.fd

theorem handled_echoing (hl : l.Inv) (h : Echoing m.conn.channel.fd smooth m.conn)
    (hlaw : Lawful s (.subLoop i b)) (hi : s.loops[i]? = some l) (hm : l.members[j]? = some m)
    (hd : SubLoop.Handled l j m.conn b d) :
    Echoing d.channel.fd (smooth ∧ Smooth (.subLoop i b)) d := by
  cases hd with
  | @handleEvent revents active answers us answer _ hphase hd =>
    obtain ⟨sent,hsent,rfl⟩ := hlaw.reflects
    rw [calling_reflection] at hd
    obtain ⟨hreg,hrev⟩ := hl.active (j,revents) (by rw [hphase]; exact List.mem_cons_self)
    obtain ⟨k,hk,hreg⟩ := hreg
    rw [hm] at hk
    obtain rfl := Option.some.inj hk
    obtain ⟨e,he,hecho,_⟩ := handleEvent_echoing h (h.streaming_of_registered hreg) hrev hsent
      (hlaw.room i l j revents active answers _ answer m rfl hi hphase hm) answer
    obtain rfl := hd.unique he
    rw [hecho.fd]
    exact hecho
  | runFunctor hd =>
    obtain rfl := hlaw.reflects
    obtain ⟨e,he,hecho,_⟩ := runFunctor_echoing h
    obtain rfl := Prog.Returns.unique hd he
    rw [hecho.fd]
    exact hecho.mono And.left

end

theorem step_echoes {smooth : Prop} (hs : s.Inv) (h : Echoes smooth s) (hstep : Step s a t) :
    Echoes (smooth ∧ Smooth a) t := by
  obtain ⟨hlaw,ht⟩ := hstep
  intro u hu n hn
  obtain ⟨i,hi⟩ := List.getElem?_of_mem hu
  obtain ⟨j,hj⟩ := List.getElem?_of_mem hn
  have hlt := (List.getElem?_eq_some_iff.mp hi).1
  rw [TcpServer.loops_length ht] at hlt
  obtain ⟨l,hl⟩ : ∃ l, s.loops[i]? = some l := ⟨_,List.getElem?_eq_getElem hlt⟩
  have hmem := List.mem_of_getElem? hl
  cases TcpServer.step_loop hs hlaw.lawful ht hl with
  | aside hi' _ =>
    rw [hi] at hi'
    obtain rfl := Option.some.inj hi'
    exact (h u hmem n hn).mono And.left
  | @step _ b hi' hab _ hu' _ =>
    rw [hi] at hi'
    obtain rfl := Option.some.inj hi'
    cases SubLoop.step_became hu' hj with
    | kept hm hconn =>
      rw [hconn]
      exact (h l hmem _ (List.mem_of_getElem? hm)).mono And.left
    | handled hm hhandled =>
      have hab' : a = .subLoop i b := by
        cases hab with
        | addConnect => cases hhandled
        | connectEstablished => cases hhandled
        | returns => cases hhandled
        | subLoop => rfl
      subst hab'
      exact handled_echoing (hs.loops l hmem).1 (h l hmem _ (List.mem_of_getElem? hm)) hlaw hl hm
        hhandled
    | made hb hconn =>
      subst hb
      cases hab with
      | addConnect =>
        have hnone := hlaw.reflects
        subst hnone
        rw [hconn]
        exact (newConnection_echoing _ _ _ _).mono fun _ => trivial
      | subLoop hb => cases hb

theorem made_returns (l : SubLoop) {b : SubLoop.Input} {k : Nat}
    (hb : b = .connectEstablished k ∨ b = .returns k) : ∃ u, (l.step b).Returns u := by
  obtain rfl | rfl := hb
  · rw [SubLoop.step]
    split
    · split_ifs
      · exact ⟨_,Prog.returns_self _⟩
      · exact ⟨_,Prog.returns_self _⟩
    · exact ⟨_,Prog.returns_self _⟩
  · rw [SubLoop.step]
    split
    · split_ifs
      · exact ⟨_,Prog.returns_self _⟩
      · exact ⟨_,Prog.returns_self _⟩
    · exact ⟨_,Prog.returns_self _⟩

theorem loop_returns {smooth : Prop} {i : Nat} {l : SubLoop} {b : SubLoop.Input} (hl : l.Inv)
    (h : ∀ m∈l.members, Echoing m.conn.channel.fd smooth m.conn)
    (hlaw : Lawful s (.subLoop i b)) (hi : s.loops[i]? = some l) : ∃ u, (l.step b).Returns u := by
  have stays : ∃ u, (pure l : Prog Fault SubLoop).Returns u := ⟨l,Prog.returns_self l⟩
  cases b with
  | addConnect sockfd reading writeComplete input output => exact ⟨_,Prog.returns_self _⟩
  | connectEstablished k => exact made_returns l (.inl rfl)
  | returns k => exact made_returns l (.inr rfl)
  | poll events =>
    rw [SubLoop.step]
    split
    · exact ⟨_,Prog.returns_self _⟩
    · exact stays
  | handleEvent answers us answer =>
    rw [SubLoop.step]
    split
    · rename_i j revents active hphase
      refine SubLoop.handler_returns fun m hm => ?_
      obtain ⟨sent,hsent,rfl⟩ := hlaw.reflects
      obtain ⟨⟨k,hk,hreg⟩,hrev⟩ := hl.active (j,revents) (by rw [hphase]; exact List.mem_cons_self)
      rw [hm] at hk
      obtain rfl := Option.some.inj hk
      have hecho := h m (List.mem_of_getElem? hm)
      obtain ⟨d,hd,_⟩ := handleEvent_echoing hecho (hecho.streaming_of_registered hreg) hrev hsent
        (hlaw.room i l j revents active answers _ answer m rfl hi hphase hm) answer
      rw [calling_reflection]
      exact ⟨d,hd⟩
    · exact stays
  | swap =>
    rw [SubLoop.step]
    split
    · exact ⟨_,Prog.returns_self _⟩
    · exact stays
  | runFunctor us =>
    rw [SubLoop.step]
    split
    · refine SubLoop.handler_returns fun m hm => ?_
      obtain rfl := hlaw.reflects
      obtain ⟨d,hd,_⟩ := runFunctor_echoing (h m (List.mem_of_getElem? hm))
      exact ⟨d,hd⟩
    · exact stays
  | destroyFunctors =>
    rw [SubLoop.step]
    split
    · exact ⟨_,Prog.returns_self _⟩
    · exact stays

theorem inLoop_returns {i : Nat} {b : SubLoop.Input} {main : AtMain}
    (h : ∀ l, s.loops[i]? = some l → ∃ u, (l.step b).Returns u) :
    ∃ t, (s.inLoop i b main).Returns t := by
  rw [TcpServer.inLoop]
  split
  · exact ⟨s,Prog.returns_self s⟩
  · rename_i l hl
    obtain ⟨u,hu⟩ := h l hl
    exact ⟨_,hu.bind (Prog.returns_self _)⟩

theorem step_returns {smooth : Prop} (hs : s.Inv) (h : Echoes smooth s) (hlaw : Lawful s a) :
    ∃ t, (s.step a).Returns t := by
  have stays : ∃ t, (pure s : Prog Fault TcpServer).Returns t := ⟨s,Prog.returns_self s⟩
  cases a with
  | accept sockfd =>
    rw [TcpServer.step]
    split
    · exact ⟨_,Prog.returns_self _⟩
    · exact stays
  | getNextLoop =>
    rw [TcpServer.step]
    split
    · exact ⟨_,Prog.returns_self _⟩
    · exact stays
  | addConnect reading writeComplete input output =>
    rw [TcpServer.step]
    split
    · exact inLoop_returns fun l _ => ⟨_,Prog.returns_self _⟩
    · exact stays
  | connectEstablished =>
    rw [TcpServer.step]
    split
    · exact inLoop_returns fun l _ => made_returns l (.inl rfl)
    · exact stays
  | returns =>
    rw [TcpServer.step]
    split
    · exact inLoop_returns fun l _ => made_returns l (.inr rfl)
    · exact stays
  | subLoop i b =>
    exact inLoop_returns fun l hl => loop_returns (hs.loops l (List.mem_of_getElem? hl)).1
      (h l (List.mem_of_getElem? hl)) hlaw hl

theorem run_echoes {smooth : Prop} (h : Run Step s as t) (hs : s.Inv) (he : Echoes smooth s) :
    t.Inv ∧ Echoes (smooth ∧ ∀ p∈as, Smooth p.2) t := by
  induction h generalizing smooth with
  | nil s => exact ⟨hs,fun l hl m hm => (he l hl m hm).mono And.left⟩
  | @cons s u t a as hstep _ ih =>
    have hu := (TcpServer.step_ensures hs hstep.1.lawful).result hstep.2
    obtain ⟨ht,hecho⟩ := ih hu (step_echoes hs he hstep)
    refine ⟨ht,fun l hl m hm => (hecho l hl m hm).mono fun hp => ?_⟩
    exact ⟨⟨hp.1,hp.2 _ List.mem_cons_self⟩,fun p hmem => hp.2 p (List.mem_cons_of_mem _ hmem)⟩

/-- The whole reflection server, over every run: on every connection of every loop what the
kernel has taken, what waits for it and what has not been passed on make up what has come in;
an open connection watches to write exactly as long as something waits, and passes on all that
it has received if no read has failed for good. No step throws, and none runs for ever. -/
theorem server_reflects (n : Nat) (h : Run Step (TcpServer.create n) as s) :
    (∀ l∈s.loops, ∀ m∈l.members,
      m.conn.accepted++m.conn.outputBuffer.contents++m.conn.inputBuffer.contents =
        m.conn.received ∧
      (m.conn.state = .kConnected →
        (m.conn.channel.isWriting = true ↔ m.conn.outputBuffer.contents ≠ []) ∧
        ((∀ p∈as, Smooth p.2) →
          m.conn.accepted++m.conn.outputBuffer.contents = m.conn.received))) ∧
    ∀ a, Lawful s a → ∃ t, (s.step a).Returns t := by
  have hnone : Echoes True (TcpServer.create n) := by
    intro l hl m hm
    rw [List.eq_of_mem_replicate hl] at hm
    cases hm
  obtain ⟨hs,hecho⟩ := run_echoes h (TcpServer.create_inv n) hnone
  refine ⟨fun l hl m hm => ?_,fun a ha => step_returns hs hecho ha⟩
  have he := hecho l hl m hm
  refine ⟨he.accounted,fun hc => ⟨he.writing (by simp [hc]),fun hsmooth => ?_⟩⟩
  have hall := he.accounted
  rw [Accounted,he.drained ⟨trivial,hsmooth⟩ (by simp [hc]),List.append_nil] at hall
  exact hall

theorem taken {u : TcpServer} (a : TcpServer.Input) (ha : s.Lawful a) (hr : Reflects a)
    (hroom : Room s a) (ht : (s.step a).Returns t) (h : Run Step t as u) :
    Run Step s ((s,a)::as) u := .cons ⟨⟨ha,hr,hroom⟩,ht⟩ h

theorem roomy {i : Nat} {b : SubLoop.Input} (hb : ∀ answers us answer,
    b ≠ .handleEvent answers us answer) : Room s (.subLoop i b) := by
  intro i' l j revents active answers us answer m hab
  cases hab
  exact absurd rfl (hb answers us answer)

theorem unread (ha : ∀ i b, a ≠ .subLoop i b) : Room s a := by
  intro i l j revents active answers us answer m hab
  exact absurd hab (ha _ _)

theorem comes : ∃ as, Run Step (TcpServer.create 2) as TcpServer.oneConnection :=
  ⟨_,taken (.accept 5) (TcpServer.unused [] rfl (by decide)) trivial (unread (by simp)) ⟨0,rfl⟩
    (taken .getNextLoop trivial trivial (unread (by simp)) ⟨0,rfl⟩
    (taken (.addConnect false false (fun _ => 0) fun _ => 0) trivial rfl (unread (by simp)) ⟨0,rfl⟩
    (taken .connectEstablished trivial trivial (unread (by simp)) ⟨0,rfl⟩
    (taken (.subLoop 0 (.poll [])) (TcpServer.silent (by simp)) trivial (roomy (by simp)) ⟨0,rfl⟩
    (taken (.subLoop 0 .swap) (TcpServer.silent (by simp)) trivial (roomy (by simp)) ⟨0,rfl⟩
    (taken (.subLoop 0 (.runFunctor fun _ => [])) (TcpServer.silent (by simp)) rfl
      (roomy (by simp)) ⟨0,rfl⟩
    (taken (.subLoop 0 (.runFunctor fun _ => [])) (TcpServer.silent (by simp)) rfl
      (roomy (by simp)) ⟨0,rfl⟩
    (taken .returns trivial trivial (unread (by simp)) ⟨0,rfl⟩
    (taken (t := TcpServer.oneConnection) (.subLoop 0 .destroyFunctors)
      (TcpServer.silent (by simp)) trivial (roomy (by simp)) ⟨0,rfl⟩ (.nil _))))))))))⟩

theorem threeBytes : ∃ as s, Run Step (TcpServer.create 2) as s ∧ ∃ l m, s.loops = [l,{}] ∧
    l.members = [m] ∧ m.conn.received = [65,66,67] ∧ m.conn.accepted = [65,66] := by
  obtain ⟨as,h⟩ := comes
  refine ⟨_,_,h.append
    (taken (.subLoop 0 (.poll [(0,EPOLLIN)])) ⟨rfl,?_⟩ trivial (roomy (by simp)) ⟨0,rfl⟩
    (taken (.subLoop 0 (.handleEvent [.bytes [65,66,67]] (reflection (.accept 2)) (.accept 0)))
      ⟨rfl,?_⟩ ⟨.accept 2,trivial,rfl⟩ ?_ ⟨3,rfl⟩ (.nil _))),_,_,rfl,rfl,rfl,rfl⟩
  · rintro l hl
    cases hl
    refine ⟨by simp,fun e he => ?_⟩
    cases List.mem_singleton.mp he
    exact ⟨⟨_,rfl,by decide⟩,by simp [Conn.HangsUpAlone,EPOLLIN,EPOLLHUP]⟩
  · rintro l - c hc u hu
    simp only [reflection,List.mem_cons,List.not_mem_nil,or_false] at hu
    obtain rfl | rfl := hu
    · exact ⟨trivial,by simp⟩
    · refine ⟨?_,by simp⟩
      have hlen := hc.length_contents
      change 0 ≤ c.inputBuffer.readable
      omega
  · rintro i l j revents active answers us answer m hab hl hphase hm
    cases hab
    cases hl
    cases hphase
    cases hm
    decide

theorem server_reflects_threeBytes : ∃ as s, Run Step (TcpServer.create 2) as s ∧
    (∃ l m, s.loops = [l,{}] ∧ l.members = [m] ∧ m.conn.received = [65,66,67] ∧
      m.conn.accepted = [65,66]) ∧
    (∀ l∈s.loops, ∀ m∈l.members,
      m.conn.accepted++m.conn.outputBuffer.contents++m.conn.inputBuffer.contents =
        m.conn.received ∧
      (m.conn.state = .kConnected →
        (m.conn.channel.isWriting = true ↔ m.conn.outputBuffer.contents ≠ []) ∧
        ((∀ p∈as, Smooth p.2) →
          m.conn.accepted++m.conn.outputBuffer.contents = m.conn.received))) ∧
    ∀ a, Lawful s a → ∃ t, (s.step a).Returns t := by
  obtain ⟨as,s,h,hs⟩ := threeBytes
  exact ⟨as,s,h,hs,server_reflects 2 h⟩

end AdlServer.Reflect
