import AdlServer.ClosedConnection
import AdlServer.TcpServer

/-! What becomes of a closed connection: its object lasts until its loop has run the tasks
that it still has, and these do not queue others. -/
namespace AdlServer.Net
open Program Memory Cpp Runs

namespace Conn
variable {c d : Conn}

structure Rests (fs : List Functor) (d : Conn) : Prop where
  state : d.state = .kDisconnected
  pending : d.pendingFunctors = fs

theorem apply_rests (hs : c.state = .kDisconnected) {u : UserCall} (hd : (u.apply c).Returns d) :
    Rests c.pendingFunctors d := by
  have hopen : c.state ≠ .kConnected := by simp [hs]
  have refused (h : (pure c : Prog Fault Conn).Returns d) : Rests c.pendingFunctors d := by
    cases (Prog.returns_pure _ _).mp h
    exact ⟨hs,rfl⟩
  cases u with
  | send m a =>
    change (c.send m a).Returns d at hd
    rw [send_refused hopen] at hd
    exact refused hd
  | sendFile fd size a reads =>
    change (c.sendFile fd size a reads).Returns d at hd
    rw [sendFile] at hd
    rw [if_neg hopen,ite_self] at hd
    exact refused hd
  | shutdown =>
    change (pure c.shutdown : Prog Fault Conn).Returns d at hd
    rw [shutdown_refused hopen] at hd
    exact refused hd
  | forceClose =>
    change (pure c.forceClose : Prog Fault Conn).Returns d at hd
    rw [forceClose] at hd
    rw [if_neg (by simp [hs])] at hd
    exact refused hd
  | startRead =>
    cases (Prog.returns_pure _ _).mp hd
    rw [startReadInLoop]
    split_ifs
    · exact ⟨hs,rfl⟩
    · exact ⟨hs,rfl⟩
  | stopRead =>
    cases (Prog.returns_pure _ _).mp hd
    rw [stopReadInLoop]
    split_ifs
    · exact ⟨hs,rfl⟩
    · exact ⟨hs,rfl⟩
  | retrieve len =>
    obtain ⟨b,_,hb⟩ := (Prog.returns_bind _ _ _).mp hd
    cases (Prog.returns_pure _ _).mp hb
    exact ⟨hs,rfl⟩
  | retrieveAll =>
    cases (Prog.returns_pure _ _).mp hd
    exact ⟨hs,rfl⟩
  | xopen fd content =>
    simp only [UserCall.apply] at hd
    split_ifs at hd
    · cases (Prog.returns_pure _ _).mp hd
      exact ⟨hs,rfl⟩
    · exact refused hd

theorem calls_rests {us : List UserCall} (hs : c.state = .kDisconnected) (hd : (calls us c).Returns d) :
    Rests c.pendingFunctors d := by
  induction us generalizing c with
  | nil =>
    cases (Prog.returns_pure _ _).mp hd
    exact ⟨hs,rfl⟩
  | cons u us ih =>
    obtain ⟨e,he,hrest⟩ := (Prog.returns_bind _ _ _).mp hd
    obtain ⟨hstate,hpending⟩ := apply_rests hs he
    rw [← hpending]
    exact ih hstate hrest

theorem runFunctor_rests {us : Conn → List UserCall} (hs : c.state = .kDisconnected)
    (hd : (c.runFunctor (calling us)).Returns d) : Rests c.pendingFunctors.tail d := by
  rw [runFunctor] at hd
  cases hfs : c.pendingFunctors with
  | nil =>
    rw [hfs] at hd
    cases (Prog.returns_pure _ _).mp hd
    exact ⟨hs,hfs⟩
  | cons f fs =>
    rw [hfs] at hd
    have hpop : { c with pendingFunctors := fs }.state = .kDisconnected := hs
    cases f with
    | addConnectInLoop =>
      cases (Prog.returns_pure _ _).mp hd
      exact ⟨hs,rfl⟩
    | connectEstablished =>
      dsimp only [connectEstablished] at hd
      simp [check,hs,Prog.returns_bind] at hd
    | writeCompleteCallback => exact calls_rests hpop hd
    | forceCloseInLoop =>
      have hno : ¬ (c.state = .kConnected ∨ c.state = .kDisconnecting) := by simp [hs]
      dsimp only [forceCloseInLoop] at hd
      rw [if_neg hno] at hd
      cases (Prog.returns_pure _ _).mp hd
      exact ⟨hs,rfl⟩
    | connectDestroyed =>
      have hopen : ¬ ({ c with pendingFunctors := fs }.act (.connectDestroyed c.state)).state =
          .kConnected := by simp [act,hs]
      dsimp only [connectDestroyed,disconnect] at hd
      rw [if_neg hopen,Prog.pure_bind] at hd
      cases (Prog.returns_pure _ _).mp hd
      exact ⟨hs,rfl⟩

end Conn

def Phase.running : Phase → Bool
  | .doPendingFunctors _ _ => true
  | _ => false

def Phase.finished : Phase → Bool
  | .doPendingFunctors _ [] => true
  | _ => false

namespace SubLoop
variable {s t : SubLoop} {i j : Nat} {m n : Member} {a : Input}

def Closed (s : SubLoop) (i : Nat) : Prop :=
  ∃ m, s.members[i]? = some m ∧ m.conn.state = .kDisconnected

def endsRound (s : SubLoop) : Input → Bool
  | .destroyFunctors => s.phase.finished
  | _ => false

/-- The tasks of a closed connection last for `n` rounds at most: there are none, or all that
is left of them is in the vector of the round that runs. -/
def Lasts (i : Nat) : Nat → SubLoop → Prop
  | 0,s => s.Closed i ∧ s.pending.count i = 0 ∧ s.phase.functors.count i = 0
  | 1,s => s.Closed i ∧ (s.phase.running = true → s.pending.count i = 0)
  | _,s => s.Closed i

theorem closed_unlisted (hf : s.Fits i m) (hs : m.conn.state = .kDisconnected) :
    m.queuing = false ∧ m.conn.connectSet = false := by
  obtain ⟨st,hst⟩ := hf.life
  have hstate := hst.state
  have hset := hst.connectSet
  have hpending := hst.pending
  rw [hs] at hstate
  have hnot : .connectEstablished∉m.conn.pendingFunctors := by
    intro hmem
    cases st with
    | queued => cases hstate
    | added => cases hstate
    | established => exact not_establishing hst hmem
    | closing =>
      cases hpending.2 _ hmem with
      | inl he => cases he with
        | inl he => cases he
        | inr he => cases he
      | inr he => cases he
    | gone =>
      cases hpending _ hmem with
      | inl he => cases he
      | inr he => cases he
  refine ⟨Bool.eq_false_iff.mpr fun hqueuing => hnot (hf.queuing hqueuing),?_⟩
  cases st with
  | queued => cases hstate
  | added => cases hstate
  | established =>
    cases hstate with
    | inl he => cases he
    | inr he => cases he
  | closing => exact hset
  | gone => exact hset

theorem Closed.settle (h : s.Closed i) : s.settle.Closed i := by
  obtain ⟨m,hm,hs⟩ := h
  refine ⟨if s.references i m = 0 then { m with gone := true } else m,?_,?_⟩
  · rw [getElem_settle,hm,Option.map_some]
  · split_ifs
    · exact hs
    · exact hs

structure Quiet (i : Nat) (s t : SubLoop) : Prop where
  closed : t.Closed i
  pending : t.pending.count i ≤ s.pending.count i
  functors : t.phase.functors.count i ≤ s.phase.functors.count i+s.pending.count i
  phase : t.phase.running = true → s.phase.running = true ∨ t.pending.count i = 0

theorem handler_quiet (phase : Phase) {p : Conn → Prog Fault Conn}
    (hm : s.members[i]? = some m) (hs : m.conn.state = .kDisconnected)
    (hfunctors : phase.functors = s.phase.functors)
    (hrun : phase.running = true → s.phase.running = true)
    (hp : j = i → ∀ c, (p m.conn).Returns c → c.state = .kDisconnected ∧
      c.pendingFunctors.length ≤ tasks { s with phase := phase } i+m.queuing.toNat)
    (ht : ({ s with phase := phase }.handler j p).Returns t) : Quiet i s t := by
  have hcount : phase.functors.count i ≤ s.phase.functors.count i+s.pending.count i := by
    rw [hfunctors]
    exact Nat.le_add_right _ _
  rw [handler] at ht
  split at ht
  · cases (Prog.returns_pure _ _).mp ht
    exact ⟨⟨m,hm,hs⟩,Nat.le_refl _,hcount,fun h => .inl (hrun h)⟩
  · rename_i n hn
    obtain ⟨c,hc,hd⟩ := (Prog.returns_bind _ _ _).mp ht
    cases (Prog.returns_pure _ _).mp hd
    dsimp only at hn
    by_cases hj : j = i
    · subst hj
      rw [hm] at hn
      obtain rfl := Option.some.inj hn
      obtain ⟨hstate,hlen⟩ := hp rfl c hc
      refine ⟨Closed.settle ⟨{ m with conn := c },?_,hstate⟩,?_,hcount,fun h => .inl (hrun h)⟩
      · exact List.getElem?_set_self (List.getElem?_eq_some_iff.mp hm).1
      · rw [Nat.sub_eq_zero_of_le hlen]
        change (s.pending++[]).count j ≤ _
        rw [List.append_nil]
    · refine ⟨Closed.settle ⟨m,?_,hs⟩,?_,hcount,fun h => .inl (hrun h)⟩
      · exact (List.getElem?_set_ne hj).trans hm
      · change (s.pending++List.replicate _ j).count i ≤ _
        rw [List.count_append,List.count_replicate,if_neg (by simpa using hj)]
        exact Nat.le_refl _

theorem connectEstablished_quiet {k : Nat} {n : Member} (h : Inv s) (hc : s.Closed i)
    (hn : s.members[k]? = some n) (hqueuing : n.queuing = true) :
    Quiet i s { s with members := s.members.set k { n with queuing := false }
                       pending := s.pending++[k] } := by
  obtain ⟨m,hm,hs⟩ := hc
  have hk : k ≠ i := by
    rintro rfl
    rw [hm] at hn
    obtain rfl := Option.some.inj hn
    rw [(closed_unlisted (h.members k m hm) hs).1] at hqueuing
    cases hqueuing
  refine ⟨⟨m,?_,hs⟩,?_,Nat.le_add_right _ _,.inl⟩
  · exact (List.getElem?_set_ne hk).trans hm
  · exact Nat.le_of_eq (count_other s.pending hk.symm)

theorem returns_quiet {k : Nat} {n : Member} (hc : s.Closed i) (hn : s.members[k]? = some n) :
    Quiet i s { s with members := s.members.set k { n with held := false } }.settle := by
  obtain ⟨m,hm,hs⟩ := hc
  refine ⟨Closed.settle ?_,Nat.le_refl _,Nat.le_add_right _ _,.inl⟩
  by_cases hk : k = i
  · subst hk
    rw [hm] at hn
    obtain rfl := Option.some.inj hn
    exact ⟨{ m with held := false },
      List.getElem?_set_self (List.getElem?_eq_some_iff.mp hm).1,hs⟩
  · exact ⟨m,(List.getElem?_set_ne hk).trans hm,hs⟩

theorem step_quiet (h : Inv s) (ht : (s.step a).Returns t) (hc : s.Closed i) : Quiet i s t := by
  have stays (hst : (pure s : Prog Fault SubLoop).Returns t) : Quiet i s t := by
    cases (Prog.returns_pure _ _).mp hst
    exact ⟨hc,Nat.le_refl _,Nat.le_add_right _ _,.inl⟩
  obtain ⟨m,hm,hs⟩ := id hc
  have hf := h.members i m hm
  have hi := (List.getElem?_eq_some_iff.mp hm).1
  cases a with
  | addConnect sockfd reading writeComplete input output =>
    cases (Prog.returns_pure _ _).mp ht
    refine ⟨⟨m,?_,hs⟩,?_,Nat.le_add_right _ _,.inl⟩
    · exact (List.getElem?_append_left hi).trans hm
    · exact Nat.le_of_eq (count_other s.pending (Nat.ne_of_lt hi))
  | connectEstablished k =>
    rw [step] at ht
    split at ht
    · rename_i n hn
      split_ifs at ht with hqueuing
      · cases (Prog.returns_pure _ _).mp ht
        exact connectEstablished_quiet h hc hn hqueuing
      · exact stays ht
    · exact stays ht
  | returns k =>
    rw [step] at ht
    split at ht
    · rename_i n hn
      split_ifs at ht with hqueuing
      · exact stays ht
      · cases (Prog.returns_pure _ _).mp ht
        exact returns_quiet hc hn
    · exact stays ht
  | poll events =>
    rw [step] at ht
    split at ht
    · cases (Prog.returns_pure _ _).mp ht
      exact ⟨hc,Nat.le_refl _,Nat.zero_le _,fun hr => by cases hr⟩
    · exact stays ht
  | handleEvent answers us answer =>
    rw [step] at ht
    split at ht
    · rename_i j revents active hphase
      refine handler_quiet (.handleEvents active) hm hs (by rw [hphase]; rfl)
        (fun hr => by cases hr) (fun hj => ?_) ht
      -- a closed connection is not among the active ones
      subst hj
      have hactive := (h.active (j,revents) (by rw [hphase]; exact List.mem_cons_self)).1
      have hst := Registered.established hm hf hactive
      have hopen := hst.state
      rw [hs] at hopen
      cases hopen with
      | inl he => cases he
      | inr he => cases he
    · exact stays ht
  | swap =>
    rw [step] at ht
    split at ht
    · cases (Prog.returns_pure _ _).mp ht
      exact ⟨hc,Nat.zero_le _,Nat.le_add_left _ _,fun _ => .inr rfl⟩
    · exact stays ht
  | runFunctor us =>
    rw [step] at ht
    split at ht
    · rename_i functors j rest hphase
      refine handler_quiet (.doPendingFunctors functors rest) hm hs (by rw [hphase]; rfl)
        (fun _ => by rw [hphase]; rfl) (fun hj c hcall => ?_) ht
      subst hj
      have hrests := Conn.runFunctor_rests hs hcall
      refine ⟨hrests.state,?_⟩
      have hqueue := hf.queue
      rw [tasks,hphase] at hqueue
      rw [hrests.pending,List.length_tail,hqueue]
      simp only [tasks,Phase.rest,List.count_cons_self]
      omega
    · exact stays ht
  | destroyFunctors =>
    rw [step] at ht
    split at ht
    · cases (Prog.returns_pure _ _).mp ht
      exact ⟨Closed.settle ⟨m,hm,hs⟩,Nat.le_refl _,Nat.zero_le _,fun hr => by cases hr⟩
    · exact stays ht

theorem endsRound_phase (ht : (s.step a).Returns t) (hend : s.endsRound a = true) :
    s.phase.running = true ∧ t.phase = .poll := by
  cases a with
  | destroyFunctors =>
    change s.phase.finished = true at hend
    rw [step] at ht
    split at ht
    · rename_i functors hphase
      rw [(Prog.returns_pure _ _).mp ht]
      exact ⟨by rw [hphase]; rfl,rfl⟩
    · rename_i hno
      unfold Phase.finished at hend
      split at hend
      · rename_i functors hphase
        exact absurd hphase (hno functors)
      · cases hend
  | _ => cases hend

/-- With every round that ends there is one less to wait for. -/
theorem step_lasts {k : Nat} (h : Inv s) (ht : (s.step a).Returns t) (hl : s.Lasts i k) :
    t.Lasts i (k-(s.endsRound a).toNat) := by
  match k with
  | 0 =>
    rw [Nat.zero_sub]
    obtain ⟨hc,hpending,hfunctors⟩ := hl
    have hq := step_quiet h ht hc
    have hpending' := hq.pending
    have hfunctors' := hq.functors
    exact ⟨hq.closed,by omega,by omega⟩
  | 1 =>
    have hq := step_quiet h ht hl.1
    have hpending := hq.pending
    cases hend : s.endsRound a with
    | true =>
      obtain ⟨hrun,hphase⟩ := endsRound_phase ht hend
      have h0 := hl.2 hrun
      exact ⟨hq.closed,by omega,by rw [hphase]; rfl⟩
    | false =>
      refine ⟨hq.closed,fun hr => ?_⟩
      cases hq.phase hr with
      | inl hr =>
        have h0 := hl.2 hr
        omega
      | inr h0 => exact h0
  | k+2 =>
    have hq := step_quiet h ht hl
    cases hend : s.endsRound a with
    | false => exact hq.closed
    | true =>
      cases k with
      | zero =>
        refine ⟨hq.closed,fun hr => ?_⟩
        rw [(endsRound_phase ht hend).2] at hr
        cases hr
      | succ k => exact hq.closed

theorem Lasts.gone (hl : s.Lasts i 0) (h : Inv s) (hset : s.Settled) :
    ∃ m, s.members[i]? = some m ∧ (m.held = false → m.gone = true) := by
  obtain ⟨⟨m,hm,hs⟩,hpending,hfunctors⟩ := hl
  refine ⟨m,hm,fun hheld => hset i m hm ?_⟩
  rw [references,hheld,(closed_unlisted (h.members i m hm) hs).2,hpending,hfunctors]
  rfl

end SubLoop

namespace TcpServer
variable {s t : TcpServer} {i j : Nat} {l u : SubLoop} {m : Member} {a : Input}
  {as bs : List (TcpServer×Input)}

def endsRound (i : Nat) (p : TcpServer×Input) : Bool :=
  match p.2 with
  | .subLoop k a => k == i && (p.1.loops[i]?).any (·.endsRound a)
  | _ => false

inductive Brings (i : Nat) : Input → SubLoop.Input → Prop where
  | addConnect {sockfd : Int} {reading writeCompleteCallback : Bool} {input output : Mem} :
    Brings i (.addConnect reading writeCompleteCallback input output)
      (.addConnect sockfd reading writeCompleteCallback input output)
  | connectEstablished {k : Nat} : Brings i .connectEstablished (.connectEstablished k)
  | returns {k : Nat} : Brings i .returns (.returns k)
  | subLoop {b : SubLoop.Input} (hb : b.ofLoop = true) : Brings i (.subLoop i b) b

inductive LoopStep (i : Nat) (s : TcpServer) (a : Input) (l : SubLoop) (t : TcpServer) : Prop where
  | aside (h : t.loops[i]? = some l) (hend : endsRound i (s,a) = false)
  | step {u : SubLoop} {b : SubLoop.Input} (h : t.loops[i]? = some u) (hab : Brings i a b)
    (hb : l.Lawful b)
    (hu : (l.step b).Returns u) (hend : endsRound i (s,a) = l.endsRound b)

theorem inLoop_step {b : SubLoop.Input} {main : AtMain} (ht : (s.inLoop j b main).Returns t)
    (hl : s.loops[i]? = some l) : i ≠ j ∧ t.loops[i]? = some l ∨
      i = j ∧ ∃ u, t.loops[i]? = some u ∧ (l.step b).Returns u := by
  rw [inLoop] at ht
  split at ht
  · rename_i hj
    cases (Prog.returns_pure _ _).mp ht
    refine .inl ⟨?_,hl⟩
    rintro rfl
    rw [hl] at hj
    cases hj
  · rename_i k hk
    obtain ⟨u,hu,hret⟩ := (Prog.returns_bind _ _ _).mp ht
    cases (Prog.returns_pure _ _).mp hret
    rw [foldl_close_loops]
    by_cases hij : i = j
    · subst hij
      rw [hl] at hk
      obtain rfl := Option.some.inj hk
      exact .inr ⟨rfl,u,List.getElem?_set_self (List.getElem?_eq_some_iff.mp hl).1,hu⟩
    · exact .inl ⟨hij,by rwa [List.getElem?_set_ne (Ne.symm hij)]⟩

theorem step_loop (h : Inv s) (ha : s.Lawful a) (ht : (s.step a).Returns t)
    (hl : s.loops[i]? = some l) : LoopStep i s a l t := by
  have stays (hend : endsRound i (s,a) = false) (hst : (pure s : Prog Fault TcpServer).Returns t) :
      LoopStep i s a l t := by
    cases (Prog.returns_pure _ _).mp hst
    exact .aside hl hend
  cases a with
  | accept sockfd =>
    rw [step] at ht
    split at ht
    · cases (Prog.returns_pure _ _).mp ht
      exact .aside hl rfl
    · exact stays rfl ht
  | getNextLoop =>
    rw [step] at ht
    split at ht
    · cases (Prog.returns_pure _ _).mp ht
      exact .aside hl rfl
    · exact stays rfl ht
  | addConnect reading writeComplete input output =>
    rw [step] at ht
    split at ht
    · rename_i sockfd j hm
      rcases inLoop_step ht hl with ⟨_,hi⟩ | ⟨_,u,hi,hu⟩
      · exact .aside hi rfl
      · exact .step (b := .addConnect sockfd reading writeComplete input output) hi .addConnect
          (h.chosen_free hm hl) hu rfl
    · exact stays rfl ht
  | connectEstablished =>
    rw [step] at ht
    split at ht
    · rename_i j conn hm
      rcases inLoop_step ht hl with ⟨_,hi⟩ | ⟨_,u,hi,hu⟩
      · exact .aside hi rfl
      · exact .step (b := .connectEstablished conn) hi .connectEstablished trivial hu rfl
    · exact stays rfl ht
  | returns =>
    rw [step] at ht
    split at ht
    · rename_i j conn hm
      rcases inLoop_step ht hl with ⟨_,hi⟩ | ⟨_,u,hi,hu⟩
      · exact .aside hi rfl
      · exact .step (b := .returns conn) hi .returns trivial hu rfl
    · exact stays rfl ht
  | subLoop j b =>
    rcases inLoop_step ht hl with ⟨hne,hi⟩ | ⟨rfl,u,hi,hu⟩
    · exact .aside hi (by simp [endsRound,Ne.symm hne])
    · exact .step hi (.subLoop ha.1) (ha.2 l hl) hu (by simp [endsRound,hl])

def Lasts (i j k : Nat) (s : TcpServer) : Prop := ∃ l, s.loops[i]? = some l ∧ l.Lasts j k

theorem step_lasts {k : Nat} (h : Inv s) (hst : Step s a t) (hl : s.Lasts i j k) :
    t.Lasts i j (k-(endsRound i (s,a)).toNat) := by
  obtain ⟨l,hl,hlasts⟩ := hl
  cases step_loop h hst.1 hst.2 hl with
  | aside hi hend =>
    rw [hend]
    exact ⟨l,hi,hlasts⟩
  | step hi _ hb hu hend =>
    rw [hend]
    exact ⟨_,hi,SubLoop.step_lasts (h.loops l (List.mem_of_getElem? hl)).1 hu hlasts⟩

/-- A connection that is closed has its object destroyed, and its descriptor closed, by the
time its loop has left `doPendingFunctors` once, or twice if it is there, unless the
`newConnection` that made it has still not returned; whatever the other threads do, and
whatever its own callbacks do. -/
theorem closed_connection_goes (n : Nat) (h : Run Step (create n) as s) (h' : Run Step s bs t)
    (hl : s.loops[i]? = some l) (hm : l.members[j]? = some m)
    (hclosed : m.conn.state = .kDisconnected)
    (hrounds : (if l.phase.running then 2 else 1) ≤ bs.countP (endsRound i)) :
    ∃ u n, t.loops[i]? = some u ∧ u.members[j]? = some n ∧
      (t.main.conn ≠ some (i,j) → n.gone = true) := by
  have hstart : s.Lasts i j (if l.phase.running then 2 else 1) := by
    refine ⟨l,hl,?_⟩
    split_ifs with hrun
    · exact ⟨m,hm,hclosed⟩
    · exact ⟨⟨m,hm,hclosed⟩,fun hr => absurd hr hrun⟩
  have hs := run_inv h (create_inv n)
  have hend := h'.countdown (endsRound i) (fun _ _ _ hs hst => (step_ensures hs hst.1).result hst.2)
    (fun _ _ _ _ hs hst => step_lasts hs hst) hs hstart
  rw [Nat.sub_eq_zero_of_le hrounds] at hend
  obtain ⟨u,hu,hlasts⟩ := hend
  have ht := run_inv h' hs
  obtain ⟨hinv,hset⟩ := ht.loops u (List.mem_of_getElem? hu)
  obtain ⟨n,hn,hgone⟩ := hlasts.gone hinv hset
  refine ⟨u,n,hu,hn,fun hmain => hgone ?_⟩
  rw [Bool.eq_false_iff]
  exact fun hheld => hmain ((ht.held i u hu).held j n hn hheld)

theorem goesByPeer : ∃ as bs s cs t, Run Step (create 2) as oneConnection ∧
    Run Step oneConnection bs s ∧ Run Step s cs t ∧ t.opened = [] ∧ t.main = .outside ∧
    cs.countP (endsRound 0) = 1 ∧
    ∃ l m, s.loops[0]? = some l ∧ l.members[0]? = some m ∧ m.conn.state = .kDisconnected ∧
      l.phase.running = false := by
  obtain ⟨as,h⟩ := comes
  refine ⟨as,_,_,_,_,h,
    taken (.subLoop 0 (.poll [(0,EPOLLIN)])) ⟨rfl,?_⟩ ⟨0,rfl⟩
    (taken (.subLoop 0 (.handleEvent [.bytes []] (fun _ => []) (.accept 0)))
      ⟨rfl,fun _ _ _ _ u hu => nomatch hu⟩ ⟨3,rfl⟩ (.nil _)),
    taken (.subLoop 0 .swap) (silent (by simp)) ⟨0,rfl⟩
    (taken (.subLoop 0 (.runFunctor fun _ => [])) (silent (by simp)) ⟨0,rfl⟩
    (taken (.subLoop 0 .destroyFunctors) (silent (by simp)) ⟨0,rfl⟩ (.nil _))),
    rfl,rfl,rfl,_,_,rfl,rfl,rfl,rfl⟩
  rintro l hl
  cases hl
  refine ⟨by simp,fun e he => ?_⟩
  cases List.mem_singleton.mp he
  exact ⟨⟨_,rfl,by decide⟩,by simp [Conn.HangsUpAlone,EPOLLIN,EPOLLHUP]⟩

theorem closed_connection_goes_byPeer : ∃ t : TcpServer, t.opened = [] ∧ t.main = .outside ∧
    ∃ u n, t.loops[0]? = some u ∧ u.members[0]? = some n ∧
      (t.main.conn ≠ some (0,0) → n.gone = true) := by
  obtain ⟨as,bs,s,cs,t,h,h',h'',ht,hmain,hcount,l,m,hl,hm,hclosed,hrun⟩ := goesByPeer
  exact ⟨t,ht,hmain,
    closed_connection_goes 2 (h.append h') h'' hl hm hclosed (by rw [hrun,hcount]; decide)⟩

theorem descriptors_length (h : ∀ m∈l.members, m.gone = false ↔ m.conn.connectSet = true) :
    l.descriptors.length = l.connectSize := by
  rw [SubLoop.descriptors,SubLoop.connectSize,List.length_filterMap_eq_countP]
  refine List.countP_congr fun m hm => ?_
  rw [← h m hm]
  cases m.gone with
  | true => simp
  | false => simp

/-- Every thread waiting for something to do, the descriptors that are open are those of the
open connections, each watched by the loop whose `connectSet_` has it, and as many as the
sizes that `getNextLoop` compares add up to. -/
theorem idle_descriptors (n : Nat) (h : Run Step (create n) as s) (hmain : s.main = .outside)
    (hidle : ∀ l∈s.loops, l.phase = .poll ∧ l.pending = []) :
    s.opened.length = (s.loops.map SubLoop.connectSize).sum ∧
    ∀ fd, fd∈s.opened ↔ ∃ l∈s.loops, ∃ m∈l.members, m.conn.channel.fd = fd ∧
      SubLoop.Open m.conn ∧ m.conn.connectSet = true ∧ m.conn.poller.interest fd ≠ none := by
  have hs := run_inv h (create_inv n)
  have howners := hs.owners
  rw [hmain] at howners
  have idle {l : SubLoop} (hl : l∈s.loops) {m : Member} (hm : m∈l.members) :
      (m.gone = false ↔ m.conn.connectSet = true) ∧ (m.gone = false ↔ SubLoop.Open m.conn) ∧
        (m.gone = false ↔ m.conn.poller.interest m.conn.channel.fd ≠ none) := by
    obtain ⟨i,hi⟩ := List.getElem?_of_mem hl
    refine (hs.loops l hl).1.idle (hs.loops l hl).2 (hidle l hl).1 (hidle l hl).2 (fun k hk => ?_) hm
    obtain ⟨j,hj⟩ := List.getElem?_of_mem hk
    refine Bool.eq_false_iff.mpr fun hheld => ?_
    have hat := (hs.held i l hi).held j k hj hheld
    rw [hmain] at hat
    cases hat
  constructor
  · rw [howners.length_eq]
    change (s.loops.flatMap SubLoop.descriptors).length = _
    rw [List.length_flatMap]
    refine congrArg List.sum (List.map_congr_left fun l hl => ?_)
    exact descriptors_length fun m hm => (idle hl hm).1
  · intro fd
    rw [howners.mem_iff]
    change fd∈s.loops.flatMap SubLoop.descriptors ↔ _
    rw [List.mem_flatMap]
    constructor
    · rintro ⟨l,hl,hfd⟩
      obtain ⟨m,hm,hgone,hfd⟩ := SubLoop.mem_descriptors.mp hfd
      obtain ⟨hset,hopen,hreg⟩ := idle hl hm
      exact ⟨l,hl,m,hm,hfd,hopen.mp hgone,hset.mp hgone,hfd ▸ hreg.mp hgone⟩
    · rintro ⟨l,hl,m,hm,hfd,hopen,_,_⟩
      exact ⟨l,hl,SubLoop.mem_descriptors.mpr ⟨m,hm,(idle hl hm).2.1.mpr hopen,hfd⟩⟩

theorem idle_descriptors_one : oneConnection.opened = [5] ∧
    oneConnection.opened.length = (oneConnection.loops.map SubLoop.connectSize).sum ∧
    ∀ fd, fd∈oneConnection.opened ↔ ∃ l∈oneConnection.loops, ∃ m∈l.members,
      m.conn.channel.fd = fd ∧ SubLoop.Open m.conn ∧ m.conn.connectSet = true ∧
      m.conn.poller.interest fd ≠ none := by
  obtain ⟨as,h⟩ := comes
  refine ⟨rfl,idle_descriptors 2 h rfl fun l hl => ?_⟩
  simp only [oneConnection,List.mem_cons,List.not_mem_nil,or_false] at hl
  obtain rfl | rfl := hl
  · exact ⟨rfl,rfl⟩
  · exact ⟨rfl,rfl⟩

end TcpServer
end AdlServer.Net
