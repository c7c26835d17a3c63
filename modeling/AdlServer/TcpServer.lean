import AdlServer.Holders
import AdlServer.MinElement
import AdlServer.SendStream
import AdlServer.SubLoop

/-! `TcpServer` with all its sub-loops: the main loop takes a descriptor from `accept` and
hands it on in a `TcpConnection` to the sub-loop that `getNextLoop` chooses, and the
destructor of the connection closes it. Every loop goes on in its own thread. -/
namespace AdlServer.Net
open Program Memory Cpp Runs Holders

namespace SubLoop

def descriptors (s : SubLoop) : List Int :=
  s.members.filterMap fun m => if m.gone then none else some m.conn.channel.fd

def closed (s t : SubLoop) : List Int :=
  (s.members.zip t.members).filterMap fun p =>
    if !p.1.gone && p.2.gone then some p.1.conn.channel.fd else none

def connectSize (s : SubLoop) : Nat := s.members.countP (·.conn.connectSet)

def Input.ofLoop : Input → Bool
  | .addConnect .. | .connectEstablished _ | .returns _ => false
  | _ => true

end SubLoop

/-- Where the main loop is in `Acceptor::handleRead`: before `accept`, or in `newConnection`
with the descriptor it was given. -/
inductive AtMain where
  | outside
  | accepted (sockfd : Int)
  | chosen (sockfd : Int) (loop : Nat)
  | added (loop conn : Nat)
  | queued (loop conn : Nat)

def AtMain.conn : AtMain → Option (Nat×Nat)
  | .added loop conn | .queued loop conn => some (loop,conn)
  | _ => none

def AtMain.holds : AtMain → List Int
  | .accepted sockfd | .chosen sockfd _ => [sockfd]
  | _ => []

/-- Of the descriptors that `accept` has given, `opened` have not been closed; `failed` counts
the destructors whose `sock::close` has met none of these. (`sendInLoop` calls it as well, for
`-1` where it sends no file.) -/
structure TcpServer where
  loops : List SubLoop
  main : AtMain := .outside
  opened : List Int := []
  failed : Nat := 0

namespace TcpServer

def create (n : Nat) : TcpServer where
  loops := List.replicate n {}

def close (s : TcpServer) (sockfd : Int) : TcpServer :=
  if sockfd∈s.opened then { s with opened := s.opened.erase sockfd }
  else { s with failed := s.failed+1 }

def inLoop (s : TcpServer) (i : Nat) (a : SubLoop.Input) (main : AtMain) : Prog Fault TcpServer :=
  match s.loops[i]? with
  | none => pure s
  | some l => do
    let u ← l.step a
    pure ((l.closed u).foldl close { s with loops := s.loops.set i u, main := main })

inductive Input where
  | accept (sockfd : Int)
  | getNextLoop
  | addConnect (reading writeCompleteCallback : Bool) (input output : Mem)
  | connectEstablished
  | returns
  | subLoop (i : Nat) (a : SubLoop.Input)

def step (s : TcpServer) : Input → Prog Fault TcpServer
  | .accept sockfd =>
    match s.main with
    | .outside => pure { s with main := .accepted sockfd, opened := sockfd::s.opened }
    | _ => pure s
  | .getNextLoop =>
    match s.main,minElement (s.loops.map SubLoop.connectSize) with
    | .accepted sockfd,some i => pure { s with main := .chosen sockfd i }
    | _,_ => pure s
  | .addConnect reading writeCompleteCallback input output =>
    match s.main with
    | .chosen sockfd i =>
      let conn := ((s.loops[i]?).map (·.members.length)).getD 0
      s.inLoop i (.addConnect sockfd reading writeCompleteCallback input output) (.added i conn)
    | _ => pure s
  | .connectEstablished =>
    match s.main with
    | .added i conn => s.inLoop i (.connectEstablished conn) (.queued i conn)
    | _ => pure s
  | .returns =>
    match s.main with
    | .queued i conn => s.inLoop i (.returns conn) .outside
    | _ => pure s
  | .subLoop i a => s.inLoop i a s.main

/-- What the kernel promises: `accept` gives a descriptor that is not open; and what
`SubLoop` asks of the steps of a loop. -/
def Lawful (s : TcpServer) : Input → Prop
  | .accept sockfd => sockfd∉s.opened
  | .subLoop i a => a.ofLoop = true ∧ ∀ l, s.loops[i]? = some l → l.Lawful a
  | .getNextLoop | .addConnect .. | .connectEstablished | .returns => True

def Step (s : TcpServer) (a : Input) (t : TcpServer) : Prop := s.Lawful a ∧ (s.step a).Returns t

end TcpServer

namespace SubLoop
variable {s t : SubLoop} {i : Nat} {m n : Member} {a : Input} {fd : Int}

theorem mem_descriptors : fd∈s.descriptors ↔ ∃ m∈s.members, m.gone = false ∧ m.conn.channel.fd = fd := by
  rw [descriptors,List.mem_filterMap]
  constructor
  · rintro ⟨m,hm,hfd⟩
    cases hg : m.gone with
    | true => simp [hg] at hfd
    | false => exact ⟨m,hm,hg,by simpa [hg] using hfd⟩
  · rintro ⟨m,hm,hg,hfd⟩
    exact ⟨m,hm,by simp [hg,hfd]⟩

theorem descriptors_perm (h : s.Continues t) (hlen : t.members.length = s.members.length) :
    s.descriptors.Perm (s.closed t++t.descriptors) := by
  have hall : List.Forall₂ Member.Continues s.members t.members := by
    refine List.forall₂_iff_get.mpr ⟨hlen.symm,fun j hj hj' => ?_⟩
    obtain ⟨n,hn,hcont⟩ := h j _ (List.getElem?_eq_getElem hj)
    obtain ⟨_,rfl⟩ := List.getElem?_eq_some_iff.mp hn
    exact hcont
  rw [descriptors,closed,descriptors]
  generalize s.members = ms at hall
  generalize t.members = ns at hall
  induction hall with
  | nil => exact .refl _
  | @cons m n ms ns hmn _ ih =>
    rw [List.zip_cons_cons,List.filterMap_cons,List.filterMap_cons,List.filterMap_cons]
    cases hm : m.gone with
    | true => simpa [hm,hmn.gone hm] using ih
    | false =>
      cases hn : n.gone with
      | true => simpa [hm,hn] using ih.cons m.conn.channel.fd
      | false =>
        rw [hmn.fd]
        simpa [hm,hn] using (ih.cons m.conn.channel.fd).trans List.perm_middle.symm

theorem closed_self (s : SubLoop) (new : List Member) :
    s.closed { t with members := s.members++new } = [] := by
  rw [closed]
  dsimp only
  induction s.members with
  | nil => rfl
  | cons m ms ih => simpa [List.filterMap_cons] using ih

theorem step_length (ha : a.ofLoop = true) (ht : (s.step a).Returns t) :
    t.members.length = s.members.length := by
  have stays (hs : (pure s : Prog Fault SubLoop).Returns t) : t.members.length = s.members.length := by
    rw [(Prog.returns_pure _ _).mp hs]
  have settled (u : SubLoop) : u.settle.members.length = u.members.length := List.length_mapIdx
  have handled {phase : Phase} {i : Nat} {p : Conn → Prog Fault Conn}
      (hs : ({ s with phase := phase }.handler i p).Returns t) :
      t.members.length = s.members.length := by
    rw [handler] at hs
    split at hs
    · rw [(Prog.returns_pure _ _).mp hs]
    · obtain ⟨c,_,hc⟩ := (Prog.returns_bind _ _ _).mp hs
      rw [(Prog.returns_pure _ _).mp hc,settled,List.length_set]
  cases a with
  | addConnect sockfd reading writeComplete input output => cases ha
  | connectEstablished i => cases ha
  | returns i => cases ha
  | poll events =>
    rw [step] at ht
    split at ht
    · rw [(Prog.returns_pure _ _).mp ht]
    · exact stays ht
  | handleEvent answers us answer =>
    rw [step] at ht
    split at ht
    · exact handled ht
    · exact stays ht
  | swap =>
    rw [step] at ht
    split at ht
    · rw [(Prog.returns_pure _ _).mp ht]
    · exact stays ht
  | runFunctor us =>
    rw [step] at ht
    split at ht
    · exact handled ht
    · exact stays ht
  | destroyFunctors =>
    rw [step] at ht
    split at ht
    · rw [(Prog.returns_pure _ _).mp ht,settled]
    · exact stays ht

theorem addConnect_perm (c : Conn) (pending : List Nat) :
    ([c.channel.fd]++s.descriptors).Perm
      (s.closed { s with members := s.members++[{ conn := c }], pending := pending }++
        descriptors { s with members := s.members++[{ conn := c }], pending := pending }) := by
  have hnew : descriptors { s with members := s.members++[{ conn := c }], pending := pending } =
      s.descriptors++[c.channel.fd] := by simp [descriptors]
  have hclosed : s.closed { s with members := s.members++[{ conn := c }], pending := pending } = [] :=
    closed_self (t := { s with pending := pending }) s [{ conn := c }]
  rw [hnew,hclosed]
  exact List.perm_append_comm

theorem connectEstablished_queuing {k : Nat} (ht : (s.step (.connectEstablished k)).Returns t)
    (hm : t.members[k]? = some m) : m.queuing = false := by
  rw [step] at ht
  cases hk : s.members[k]? with
  | none =>
    rw [hk] at ht
    cases (Prog.returns_pure _ _).mp ht
    rw [hk] at hm
    cases hm
  | some n =>
    rw [hk] at ht
    dsimp only at ht
    by_cases hqueuing : n.queuing = true
    · rw [if_pos hqueuing] at ht
      cases (Prog.returns_pure _ _).mp ht
      rw [List.getElem?_set_self (List.getElem?_eq_some_iff.mp hk).1] at hm
      rw [← Option.some.inj hm]
    · rw [if_neg hqueuing] at ht
      cases (Prog.returns_pure _ _).mp ht
      rw [hk] at hm
      rw [← Option.some.inj hm]
      exact Bool.eq_false_iff.mpr hqueuing

theorem returns_held {k : Nat} (ht : (s.step (.returns k)).Returns t)
    (hqueued : ∀ m, s.members[k]? = some m → m.queuing = false) (hm : t.members[k]? = some m) :
    m.held = false := by
  rw [step] at ht
  cases hk : s.members[k]? with
  | none =>
    rw [hk] at ht
    cases (Prog.returns_pure _ _).mp ht
    rw [hk] at hm
    cases hm
  | some n =>
    rw [hk] at ht
    dsimp only at ht
    rw [hqueued n hk,if_neg Bool.false_ne_true] at ht
    cases (Prog.returns_pure _ _).mp ht
    obtain ⟨o,ho,_,_,hoheld,_,_⟩ := settle_cases hm
    dsimp only at ho
    rw [List.getElem?_set_self (List.getElem?_eq_some_iff.mp hk).1] at ho
    rw [hoheld,← Option.some.inj ho]

theorem newConnection_length {k : Nat} (ha : a = .connectEstablished k ∨ a = .returns k)
    (ht : (s.step a).Returns t) : t.members.length = s.members.length := by
  obtain rfl | rfl := ha
  · rw [step] at ht
    split at ht
    · split_ifs at ht
      · rw [(Prog.returns_pure _ _).mp ht]
        exact List.length_set
      · rw [(Prog.returns_pure _ _).mp ht]
    · rw [(Prog.returns_pure _ _).mp ht]
  · rw [step] at ht
    split at ht
    · split_ifs at ht
      · rw [(Prog.returns_pure _ _).mp ht]
      · rw [(Prog.returns_pure _ _).mp ht]
        exact List.length_mapIdx.trans List.length_set
    · rw [(Prog.returns_pure _ _).mp ht]

theorem Continues.before (h : s.Continues t) (hlen : t.members.length = s.members.length)
    (hn : t.members[i]? = some n) : ∃ m, s.members[i]? = some m ∧ m.Continues n := by
  have hlt := (List.getElem?_eq_some_iff.mp hn).1
  rw [hlen] at hlt
  obtain ⟨o,ho,hcont⟩ := h i _ (List.getElem?_eq_getElem hlt)
  rw [hn] at ho
  obtain rfl := Option.some.inj ho
  exact ⟨_,List.getElem?_eq_getElem hlt,hcont⟩

end SubLoop

namespace TcpServer
variable {s t : TcpServer} {i j : Nat} {l u : SubLoop} {m : Member} {a : Input}
  {as bs : List (TcpServer×Input)}

structure Held (main : AtMain) (i : Nat) (l : SubLoop) : Prop where
  queuing : ∀ (j : Nat) (m : Member), l.members[j]? = some m → m.queuing = true → main = .added i j
  held : ∀ (j : Nat) (m : Member), l.members[j]? = some m → m.held = true → main.conn = some (i,j)

def InRange (n : Nat) : AtMain → Prop
  | .chosen _ i | .added i _ | .queued i _ => i < n
  | _ => True

/-- The descriptors not closed yet belong, one for one, to the objects that are there, but for
one that the main loop may be about to hand on. -/
structure Inv (s : TcpServer) : Prop where
  loops : ∀ l∈s.loops, l.Inv ∧ l.Settled
  nodup : s.opened.Nodup
  owners : s.opened.Perm (s.main.holds++s.loops.flatMap SubLoop.descriptors)
  held : ∀ (i : Nat) (l : SubLoop), s.loops[i]? = some l → Held s.main i l
  inRange : InRange s.loops.length s.main
  failed : s.failed = 0

theorem foldl_close {back rest : List Int} (h : s.opened.Perm (back++rest)) :
    (back.foldl close s).opened.Perm rest ∧ (back.foldl close s).failed = s.failed ∧
      (back.foldl close s).loops = s.loops ∧ (back.foldl close s).main = s.main := by
  induction back generalizing s with
  | nil => exact ⟨h,rfl,rfl,rfl⟩
  | cons fd back ih =>
    have hmem : fd∈s.opened := h.mem_iff.mpr List.mem_cons_self
    have herase := h.erase fd
    rw [List.cons_append,List.erase_cons_head] at herase
    have hclose : s.close fd = { s with opened := s.opened.erase fd } := if_pos hmem
    rw [List.foldl_cons,hclose]
    exact ih herase

theorem foldl_close_loops (back : List Int) (s : TcpServer) :
    (back.foldl close s).loops = s.loops := by
  induction back generalizing s with
  | nil => rfl
  | cons fd back ih =>
    rw [List.foldl_cons,ih,close]
    split_ifs
    · rfl
    · rfl

theorem loops_length (ht : (s.step a).Returns t) : t.loops.length = s.loops.length := by
  have stays (hst : (pure s : Prog Fault TcpServer).Returns t) : t.loops.length = s.loops.length := by
    rw [(Prog.returns_pure _ _).mp hst]
  have inside {i : Nat} {b : SubLoop.Input} {main : AtMain}
      (hin : (s.inLoop i b main).Returns t) : t.loops.length = s.loops.length := by
    rw [inLoop] at hin
    split at hin
    · exact stays hin
    · obtain ⟨u,_,hu⟩ := (Prog.returns_bind _ _ _).mp hin
      rw [(Prog.returns_pure _ _).mp hu,foldl_close_loops,List.length_set]
  cases a with
  | accept sockfd =>
    rw [step] at ht
    split at ht
    · rw [(Prog.returns_pure _ _).mp ht]
    · exact stays ht
  | getNextLoop =>
    rw [step] at ht
    split at ht
    · rw [(Prog.returns_pure _ _).mp ht]
    · exact stays ht
  | addConnect reading writeComplete input output =>
    rw [step] at ht
    split at ht
    · exact inside ht
    · exact stays ht
  | connectEstablished =>
    rw [step] at ht
    split at ht
    · exact inside ht
    · exact stays ht
  | returns =>
    rw [step] at ht
    split at ht
    · exact inside ht
    · exact stays ht
  | subLoop i b => exact inside ht

theorem inLoop_inv {main : AtMain} {new : List Int} (h : Inv s) (hl : s.loops[i]? = some l)
    (hu : u.Inv ∧ u.Settled) (hperm : (new++l.descriptors).Perm (l.closed u++u.descriptors))
    (hholds : s.main.holds = new++main.holds) (hheld : Held main i u)
    (hothers : ∀ (k : Nat) (l : SubLoop), k ≠ i → s.loops[k]? = some l → Held main k l)
    (hrange : InRange s.loops.length main) :
    Inv ((l.closed u).foldl close { s with loops := s.loops.set i u, main := main }) := by
  have hopened : s.opened.Perm
      (l.closed u++(main.holds++(s.loops.set i u).flatMap SubLoop.descriptors)) := by
    refine h.owners.trans ?_
    rw [hholds]
    have hex := (exchange hl hperm).append_left main.holds
    refine ((List.perm_append_comm.append_right _).trans ?_).trans
      (List.perm_append_comm_assoc _ _ _)
    rw [List.append_assoc]
    exact hex
  obtain ⟨hperm',hfailed,hloops,hmain⟩ := foldl_close
    (s := { s with loops := s.loops.set i u, main := main }) hopened
  refine ⟨?_,?_,?_,?_,?_,?_⟩
  · rw [hloops]
    intro k hk
    cases List.mem_or_eq_of_mem_set hk with
    | inl hk => exact h.loops k hk
    | inr hk => rwa [hk]
  · have hn := hopened.nodup_iff.mp h.nodup
    exact hperm'.nodup_iff.mpr (List.nodup_append.mp hn).2.1
  · rw [hloops,hmain]
    exact hperm'
  · rw [hloops,hmain]
    intro k l' hk
    by_cases hki : k = i
    · subst hki
      rw [List.getElem?_set_self (List.getElem?_eq_some_iff.mp hl).1] at hk
      obtain rfl := Option.some.inj hk
      exact hheld
    · rw [List.getElem?_set_ne (Ne.symm hki)] at hk
      exact hothers k l' hki hk
  · rw [hloops,hmain,List.length_set]
    exact hrange
  · exact hfailed.trans h.failed

theorem inLoop_ensures {main : AtMain} (new : List Int) {b : SubLoop.Input} (h : Inv s)
    (hl : s.loops[i]? = some l) (hb : l.Lawful b)
    (hgo : ∀ u, (l.step b).Returns u → l.After u →
      (new++l.descriptors).Perm (l.closed u++u.descriptors) ∧ Held main i u)
    (hholds : s.main.holds = new++main.holds)
    (hothers : ∀ (k : Nat) (l : SubLoop), k ≠ i → s.loops[k]? = some l → Held main k l)
    (hrange : InRange s.loops.length main) : Prog.Ensures (s.inLoop i b main) Inv Spared := by
  obtain ⟨hinv,hset⟩ := h.loops l (List.mem_of_getElem? hl)
  have hstep : Prog.Ensures (l.step b) (fun u => l.After u ∧ (l.step b).Returns u) Spared := by
    intro o ho
    have hens := SubLoop.step_ensures hinv hset hb _ ho
    cases o with
    | ok u => exact ⟨hens,ho⟩
    | error e => exact hens
  rw [inLoop,hl]
  refine hstep.bind fun u hu => Prog.ensures_pure ?_
  obtain ⟨hperm,hheld⟩ := hgo u hu.2 hu.1
  exact inLoop_inv h hl ⟨hu.1.inv,hu.1.settled⟩ hperm hholds hheld hothers hrange

theorem Held.none {main main' : AtMain} (h : Held main i l) (hm : main.conn = none) :
    Held main' i l := by
  have free (j : Nat) (m : Member) (hj : l.members[j]? = some m) : m.held ≠ true := by
    intro hheld
    cases hm.symm.trans (h.held j m hj hheld)
  refine ⟨fun j m hj hq => ?_,fun j m hj hheld => absurd hheld (free j m hj)⟩
  rw [h.queuing j m hj hq] at hm
  cases hm

theorem Held.elsewhere {main main' : AtMain} {k : Nat} (h : Held main i l)
    (hm : main.conn = some (k,j)) (hne : i ≠ k) : Held main' i l := by
  have free (j' : Nat) (m : Member) (hj : l.members[j']? = some m) : m.held ≠ true := by
    intro hheld
    obtain ⟨rfl,_⟩ := Prod.mk.inj (Option.some.inj ((h.held j' m hj hheld).symm.trans hm))
    exact hne rfl
  refine ⟨fun j' m hj hq => ?_,fun j' m hj hheld => absurd hheld (free j' m hj)⟩
  rw [h.queuing j' m hj hq] at hm
  obtain ⟨rfl,_⟩ := Prod.mk.inj (Option.some.inj hm)
  exact absurd rfl hne

theorem Held.continues {main : AtMain} (h : Held main i l) (hcont : l.Continues u)
    (hlen : u.members.length = l.members.length) : Held main i u := by
  constructor
  · intro j n hj hq
    obtain ⟨m,hmj,hmn⟩ := hcont.before hlen hj
    exact h.queuing j m hmj (hmn.queuing hq)
  · intro j n hj hheld
    obtain ⟨m,hmj,hmn⟩ := hcont.before hlen hj
    exact h.held j m hmj (hmn.held hheld)

theorem Inv.chosen_free {sockfd : Int} (h : Inv s) (hm : s.main = .chosen sockfd j)
    (hl : s.loops[i]? = some l) : l.NotASocket sockfd := by
  intro m hmem hgone hfd
  have hn := h.owners.nodup_iff.mp h.nodup
  rw [hm] at hn
  have hin : sockfd∈s.loops.flatMap SubLoop.descriptors :=
    List.mem_flatMap.mpr ⟨l,List.mem_of_getElem? hl,
      SubLoop.mem_descriptors.mpr ⟨m,hmem,hgone,hfd⟩⟩
  exact (List.nodup_cons.mp hn).1 hin

/-! The steps of the server, one by one. -/

theorem accept_inv {sockfd : Int} (h : Inv s) (hm : s.main = .outside) (hfree : sockfd∉s.opened) :
    Inv { s with main := .accepted sockfd, opened := sockfd::s.opened } := by
  have howners := h.owners
  have hheld := h.held
  rw [hm] at howners hheld
  exact ⟨h.loops,List.nodup_cons.mpr ⟨hfree,h.nodup⟩,howners.cons sockfd,
    fun i l hl => (hheld i l hl).none rfl,trivial,h.failed⟩

theorem getNextLoop_inv {sockfd : Int} (h : Inv s) (hm : s.main = .accepted sockfd)
    (hi : minElement (s.loops.map SubLoop.connectSize) = some i) :
    Inv { s with main := .chosen sockfd i } := by
  obtain ⟨size,hfirst⟩ := minElement_spec hi
  have hlt : i < s.loops.length := by simpa using hfirst.lt_length
  have howners := h.owners
  have hheld := h.held
  rw [hm] at howners hheld
  exact ⟨h.loops,h.nodup,howners,fun i l hl => (hheld i l hl).none rfl,hlt,h.failed⟩

/-- The new object is the only one that the main loop refers to. -/
theorem addConnect_held {sockfd : Int} {c : Conn} (h : Held (.chosen sockfd j) i l) :
    Held (.added i l.members.length) i { l with members := l.members++[{ conn := c }],
                                                pending := l.pending++[l.members.length] } := by
  have last (k : Nat) (m : Member) (hk : (l.members++[{ conn := c }])[k]? = some m)
      (hmheld : m.held = true ∨ m.queuing = true) : k = l.members.length := by
    by_cases hlt : k < l.members.length
    · rw [List.getElem?_append_left hlt] at hk
      cases hmheld with
      | inl hmheld => cases h.held k m hk hmheld
      | inr hmqueuing => cases h.queuing k m hk hmqueuing
    · have hlen := (List.getElem?_eq_some_iff.mp hk).1
      rw [List.length_append,List.length_singleton] at hlen
      omega
  constructor
  · intro k m hk hq
    rw [last k m hk (.inr hq)]
  · intro k m hk hmheld
    rw [last k m hk (.inl hmheld)]
    rfl

theorem addConnect_ensures {sockfd : Int} (h : Inv s) (hm : s.main = .chosen sockfd i)
    (hl : s.loops[i]? = some l) (reading writeComplete : Bool) (input output : Mem) :
    Prog.Ensures (s.inLoop i (.addConnect sockfd reading writeComplete input output)
      (.added i l.members.length)) Inv Spared := by
  have hheld := h.held
  rw [hm] at hheld
  refine inLoop_ensures (b := .addConnect sockfd reading writeComplete input output)
    [sockfd] h hl (h.chosen_free hm hl) (fun u hu _ => ?_) (by rw [hm]; rfl)
    (fun k l' _ hl' => (hheld k l' hl').none rfl) (List.getElem?_eq_some_iff.mp hl).1
  cases (Prog.returns_pure _ _).mp hu
  exact ⟨SubLoop.addConnect_perm
    (Conn.newConnection sockfd reading writeComplete input output) _,addConnect_held (hheld i l hl)⟩

theorem connectEstablished_ensures {conn : Nat} (h : Inv s) (hm : s.main = .added i conn)
    (hl : s.loops[i]? = some l) :
    Prog.Ensures (s.inLoop i (.connectEstablished conn) (.queued i conn)) Inv Spared := by
  have hheld := h.held
  rw [hm] at hheld
  refine inLoop_ensures (b := .connectEstablished conn) [] h hl trivial
    (fun u hu hafter => ?_) (by rw [hm]; rfl)
    (fun k l' hk hl' => (hheld k l' hl').elsewhere rfl hk) (List.getElem?_eq_some_iff.mp hl).1
  have hlen := SubLoop.newConnection_length (.inl rfl) hu
  have hcont := (hheld i l hl).continues hafter.continues hlen
  refine ⟨SubLoop.descriptors_perm hafter.continues hlen,fun j n hj hq => ?_,hcont.held⟩
  cases hcont.queuing j n hj hq
  rw [SubLoop.connectEstablished_queuing hu hj] at hq
  cases hq

theorem returns_ensures {conn : Nat} (h : Inv s) (hm : s.main = .queued i conn)
    (hl : s.loops[i]? = some l) :
    Prog.Ensures (s.inLoop i (.returns conn) .outside) Inv Spared := by
  have hheld := h.held
  rw [hm] at hheld
  have hqueued (j : Nat) (m : Member) (hj : l.members[j]? = some m) : m.queuing = false := by
    rw [Bool.eq_false_iff]
    intro hq
    cases (hheld i l hl).queuing j m hj hq
  refine inLoop_ensures (b := .returns conn) [] h hl trivial (fun u hu hafter => ?_)
    (by rw [hm]; rfl) (fun k l' hk hl' => (hheld k l' hl').elsewhere rfl hk) trivial
  have hlen := SubLoop.newConnection_length (.inr rfl) hu
  have hcont := (hheld i l hl).continues hafter.continues hlen
  refine ⟨SubLoop.descriptors_perm hafter.continues hlen,fun j n hj hq => ?_,
    fun j n hj hnheld => ?_⟩
  · cases hcont.queuing j n hj hq
  · obtain ⟨_,rfl⟩ := Prod.mk.inj (Option.some.inj (hcont.held j n hj hnheld))
    rw [SubLoop.returns_held hu (hqueued _) hj] at hnheld
    cases hnheld

theorem subLoop_ensures {b : SubLoop.Input} (h : Inv s) (hb : b.ofLoop = true)
    (ha : ∀ l, s.loops[i]? = some l → l.Lawful b) :
    Prog.Ensures (s.inLoop i b s.main) Inv Spared := by
  cases hl : s.loops[i]? with
  | none =>
    rw [inLoop,hl]
    exact Prog.ensures_pure h
  | some l =>
    refine inLoop_ensures [] h hl (ha l hl) (fun u hu hafter => ?_) rfl
      (fun k l' _ hl' => h.held k l' hl') h.inRange
    have hlen := SubLoop.step_length hb hu
    exact ⟨SubLoop.descriptors_perm hafter.continues hlen,
      (h.held i l hl).continues hafter.continues hlen⟩

/-- The loop that the main loop is at. -/
theorem Inv.loop (h : Inv s) (hi : InRange s.loops.length s.main → i < s.loops.length) :
    ∃ l, s.loops[i]? = some l := ⟨_,List.getElem?_eq_getElem (hi h.inRange)⟩

theorem step_ensures (h : Inv s) (ha : s.Lawful a) : Prog.Ensures (s.step a) Inv Spared := by
  have nothing : Prog.Ensures (pure s : Prog Fault TcpServer) Inv Spared := Prog.ensures_pure h
  cases a with
  | accept sockfd =>
    rw [step]
    split
    · rename_i hm
      exact Prog.ensures_pure (accept_inv h hm ha)
    · exact nothing
  | getNextLoop =>
    rw [step]
    split
    · rename_i sockfd i hm hi
      exact Prog.ensures_pure (getNextLoop_inv h hm hi)
    · exact nothing
  | addConnect reading writeComplete input output =>
    rw [step]
    split
    · rename_i sockfd i hm
      obtain ⟨l,hl⟩ := h.loop (i := i) fun hr => by rwa [hm] at hr
      have hens := addConnect_ensures h hm hl reading writeComplete input output
      simpa only [hl,Option.map_some,Option.getD_some] using hens
    · exact nothing
  | connectEstablished =>
    rw [step]
    split
    · rename_i i conn hm
      obtain ⟨l,hl⟩ := h.loop (i := i) fun hr => by rwa [hm] at hr
      exact connectEstablished_ensures h hm hl
    · exact nothing
  | returns =>
    rw [step]
    split
    · rename_i i conn hm
      obtain ⟨l,hl⟩ := h.loop (i := i) fun hr => by rwa [hm] at hr
      exact returns_ensures h hm hl
    · exact nothing
  | subLoop i b => exact subLoop_ensures h ha.1 ha.2

theorem run_inv (h : Run Step s as t) (hs : Inv s) : Inv t := by
  induction h with
  | nil => exact hs
  | cons hstep _ ih => exact ih ((step_ensures hs hstep.1).result hstep.2)

theorem create_inv (n : Nat) : Inv (create n) := by
  have empty {l : SubLoop} (hl : l∈(create n).loops) : l = {} := List.eq_of_mem_replicate hl
  refine ⟨fun l hl => ?_,List.nodup_nil,?_,fun i l hl => ⟨fun j m hm => ?_,fun j m hm => ?_⟩,
    trivial,rfl⟩
  · rw [empty hl]
    exact SubLoop.empty_inv
  · have hnone : (create n).loops.flatMap SubLoop.descriptors = [] := by
      rw [List.flatMap_eq_nil_iff]
      intro l hl
      rw [empty hl]
      rfl
    rw [hnone]
    exact .refl _
  · rw [empty (List.mem_of_getElem? hl)] at hm
    simp at hm
  · rw [empty (List.mem_of_getElem? hl)] at hm
    simp at hm

/-- Every descriptor of `accept` that has not been closed belongs to one object of one loop,
or is in the main loop's hands; no object has lost its own, and none was closed twice. -/
structure Owned (s : TcpServer) : Prop where
  loops : ∀ l∈s.loops, l.Safe
  nodup : s.opened.Nodup
  owners : s.opened.Perm (s.main.holds++s.loops.flatMap SubLoop.descriptors)
  apart : ∀ (i j : Nat) (l u : SubLoop) (fd : Int), s.loops[i]? = some l → s.loops[j]? = some u →
    fd∈l.descriptors → fd∈u.descriptors → i = j
  failed : s.failed = 0

theorem Inv.owned (h : Inv s) : s.Owned := by
  refine ⟨fun l hl => (h.loops l hl).1.safe,h.nodup,h.owners,fun i j l u fd hl hu hfd hfd' => ?_,
    h.failed⟩
  have hn := h.owners.nodup_iff.mp h.nodup
  exact same_holder (List.nodup_append.mp hn).2.1 hl hu hfd hfd'

theorem taken {u : TcpServer} (a : Input) (ha : s.Lawful a) (ht : (s.step a).Returns t)
    (h : Run Step t as u) : Run Step s ((s,a)::as) u := .cons ⟨ha,ht⟩ h

theorem silent {a : SubLoop.Input} (ha : a = .swap ∨ a = .runFunctor (fun _ => []) ∨ a = .destroyFunctors ∨
    a = .poll []) : s.Lawful (.subLoop i a) := by
  rcases ha with rfl | rfl | rfl | rfl
  · exact ⟨rfl,fun _ _ => trivial⟩
  · exact ⟨rfl,fun _ _ _ _ u hu => nomatch hu⟩
  · exact ⟨rfl,fun _ _ => trivial⟩
  · exact ⟨rfl,fun _ _ => ⟨List.nodup_nil,fun e he => nomatch he⟩⟩

theorem unused {sockfd : Int} (opened : List Int) (h : s.opened = opened)
    (hfree : sockfd∉opened) : s.Lawful (.accept sockfd) := by
  change sockfd∉s.opened
  rwa [h]

def oneConnection : TcpServer where
  loops := [{ members := [{ conn := Conn.connected 5 false false (fun _ => 0) fun _ => 0
                            queuing := false
                            held := false }] },{}]
  opened := [5]

theorem comes : ∃ as, Run Step (create 2) as oneConnection :=
  ⟨_,taken (.accept 5) (unused [] rfl (by decide)) ⟨0,rfl⟩
    (taken .getNextLoop trivial ⟨0,rfl⟩
    (taken (.addConnect false false (fun _ => 0) fun _ => 0) trivial ⟨0,rfl⟩
    (taken .connectEstablished trivial ⟨0,rfl⟩
    (taken (.subLoop 0 (.poll [])) (silent (by simp)) ⟨0,rfl⟩
    (taken (.subLoop 0 .swap) (silent (by simp)) ⟨0,rfl⟩
    (taken (.subLoop 0 (.runFunctor fun _ => [])) (silent (by simp)) ⟨0,rfl⟩
    (taken (.subLoop 0 (.runFunctor fun _ => [])) (silent (by simp)) ⟨0,rfl⟩
    (taken .returns trivial ⟨0,rfl⟩
    (taken (t := oneConnection) (.subLoop 0 .destroyFunctors) (silent (by simp)) ⟨0,rfl⟩
    (.nil _))))))))))⟩

theorem givenAgain : ∃ as s, Run Step (create 2) as s ∧ s.opened = [5] ∧
    s.loops.map SubLoop.descriptors = [[],[]] := by
  obtain ⟨as,h⟩ := comes
  refine ⟨_,_,h.append (taken (.subLoop 0 (.poll [(0,EPOLLIN)])) ⟨rfl,?_⟩ ⟨0,rfl⟩
    (taken (.subLoop 0 (.handleEvent [.bytes []] (fun _ => []) (.accept 0)))
      ⟨rfl,fun _ _ _ _ u hu => nomatch hu⟩ ⟨3,rfl⟩
    (taken (.subLoop 0 .swap) (silent (by simp)) ⟨0,rfl⟩
    (taken (.subLoop 0 (.runFunctor fun _ => [])) (silent (by simp)) ⟨0,rfl⟩
    (taken (.subLoop 0 .destroyFunctors) (silent (by simp)) ⟨0,rfl⟩
    (taken (.accept 5) (unused [] rfl (by decide)) ⟨0,rfl⟩ (.nil _))))))),rfl,rfl⟩
  rintro l hl
  cases hl
  refine ⟨by simp,fun e he => ?_⟩
  cases List.mem_singleton.mp he
  exact ⟨⟨_,rfl,by decide⟩,by simp [Conn.HangsUpAlone,EPOLLIN,EPOLLHUP]⟩

/-- With any number of sub-loops, and in whatever order the main loop and these go on, the
descriptors belong to the connections, and no assertion of the next step fails. -/
theorem server_owns_descriptors (n : Nat) (h : Run Step (create n) as s) : s.Owned ∧
    ∀ a, s.Lawful a → ∀ e, (s.step a).Ends (.error e) →
      e ≠ .assertion .connectEstablished ∧ e ≠ .assertion .handleClose := by
  have hs := run_inv h (create_inv n)
  exact ⟨hs.owned,fun a ha e he => step_ensures hs ha _ he⟩

theorem server_owns_descriptors_again : ∃ s : TcpServer, s.opened = [5] ∧
    s.loops.map SubLoop.descriptors = [[],[]] ∧ s.Owned ∧
    ∀ a, s.Lawful a → ∀ e, (s.step a).Ends (.error e) →
      e ≠ .assertion .connectEstablished ∧ e ≠ .assertion .handleClose := by
  obtain ⟨as,s,h,hopened,hdescriptors⟩ := givenAgain
  exact ⟨s,hopened,hdescriptors,server_owns_descriptors 2 h⟩

end TcpServer
end AdlServer.Net
