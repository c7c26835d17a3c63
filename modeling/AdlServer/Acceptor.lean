import AdlServer.Program
import AdlServer.SlotTable
import Mathlib.Data.List.Perm.Basic

/-! `Acceptor::handleRead`: the accept loop against the kernel's backlog and the process's
descriptor table, with the spare descriptor `idleFd_`. -/
namespace AdlServer.Net
open Program SlotTable

inductive AcceptErrno where
  | EMFILE | EINTR | EAGAIN | other
  deriving DecidableEq, Repr

/-- What a descriptor refers to: something of the rest of the process, `/dev/null`, or the
`k`-th connection. -/
inductive Desc where
  | other | null | conn (k : Nat)
  deriving DecidableEq, Repr

structure Kernel where
  table : List (Option Desc)
  backlog : List Nat
  closed : List Nat := []

namespace Kernel

/-- `accept` on the listening socket, which does not block: a full table is an error before
an empty backlog is. -/
def accept (k : Kernel) : Except AcceptErrno (Nat×Nat×Kernel) :=
  match lowest k.table,k.backlog with
  | none,_ => .error .EMFILE
  | some _,[] => .error .EAGAIN
  | some i,c::rest => .ok (i,c,{ k with table := k.table.set i (some (.conn c)), backlog := rest })

def close (k : Kernel) : Int → Kernel
  | .ofNat i => match k.table[i]? with
    | some (some (.conn c)) => { k with table := k.table.set i none, closed := k.closed++[c] }
    | some (some _) => { k with table := k.table.set i none }
    | _ => k
  | .negSucc _ => k

def openNull (k : Kernel) : Int×Kernel :=
  match lowest k.table with
  | some i => (i,{ k with table := k.table.set i (some .null) })
  | none => (-1,k)

end Kernel

/-- `handed` keeps the connections that `newConnectionCallback_`, if there is one, has been
called with; it keeps their descriptors open. -/
structure Acceptor where
  kernel : Kernel
  idleFd : Int
  newConnectionCallback : Bool
  handed : List Nat := []

namespace Acceptor

def refuse (s : Acceptor) : Acceptor :=
  let k := s.kernel.close s.idleFd
  let (idleFd,k) := match k.accept with
    | .ok (connfd,_,k) => ((connfd : Int),k)
    | .error _ => (-1,k)
  let k := k.close idleFd
  let (idleFd,k) := k.openNull
  { s with kernel := k, idleFd := idleFd }

def turn (s : Acceptor) : Prog Empty (Turn Acceptor Acceptor) :=
  match s.kernel.accept with
  | .ok (connfd,conn,k) =>
    if s.newConnectionCallback then
      pure (.again { s with kernel := k, handed := s.handed++[conn] })
    else pure (.again { s with kernel := k.close connfd })
  | .error .EMFILE => pure (.again s.refuse)
  | .error .EINTR => pure (.again s)
  | .error .EAGAIN => pure (.leave s)
  | .error .other => pure (.again s)

def handleRead (s : Acceptor) : Prog Empty Acceptor := Prog.loop turn s

def Spare (s : Acceptor) : Prop :=
  ∃ i : Nat, s.idleFd = i ∧ s.kernel.table[i]? = some (some .null)

/-- From `s` to `t` every pending connection has been handed over once or closed. -/
structure Served (s t : Acceptor) : Prop where
  pending : ∃ given dropped, t.handed = s.handed++given ∧
    t.kernel.closed = s.kernel.closed++dropped ∧ (given++dropped).Perm s.kernel.backlog
  spare : t.Spare

/-- There is a descriptor for each pending connection that is to be kept, and one more. -/
def Room (s : Acceptor) : Prop :=
  if s.newConnectionCallback then s.kernel.backlog.length < free s.kernel.table
  else 0 < free s.kernel.table

instance (s : Acceptor) : Decidable s.Room := by
  unfold Room
  infer_instance

variable {s t : Acceptor}

theorem accept_full {k : Kernel} (h : free k.table = 0) : k.accept = .error .EMFILE := by
  rw [Kernel.accept,lowest_eq_none_iff.mpr h]

theorem accept_empty {k : Kernel} (h : 0 < free k.table) (hb : k.backlog = []) :
    k.accept = .error .EAGAIN := by
  obtain ⟨i,hi⟩ := lowest_of_free h
  rw [Kernel.accept,hi,hb]

theorem accept_conn {k : Kernel} (h : 0 < free k.table) {c : Nat} {rest : List Nat}
    (hb : k.backlog = c::rest) :
    ∃ i : Nat, k.table[i]? = some none ∧ k.accept =
      .ok (i,c,{ k with table := k.table.set i (some (.conn c)), backlog := rest }) := by
  obtain ⟨i,hi⟩ := lowest_of_free h
  exact ⟨i,lowest_free hi,by rw [Kernel.accept,hi,hb]⟩

theorem close_accepted {table : List (Option Desc)} {i : Nat} (hi : i < table.length) (c : Nat)
    (b ds : List Nat) :
    Kernel.close ⟨table.set i (some (.conn c)),b,ds⟩ i = ⟨table.set i none,b,ds++[c]⟩ := by
  unfold Kernel.close
  simp [List.getElem?_set_self hi]

theorem close_none (k : Kernel) : k.close (-1) = k := rfl

theorem refuse_full (hfull : free s.kernel.table = 0) (hs : s.Spare) :
    s.refuse = { s with kernel := { s.kernel with
      backlog := s.kernel.backlog.tail
      closed := s.kernel.closed++s.kernel.backlog.head?.toList } } := by
  obtain ⟨i,hidle,hi⟩ := hs
  obtain ⟨⟨table,backlog,closed⟩,idleFd,callback,handed⟩ := s
  dsimp only at hfull hidle hi ⊢
  subst hidle
  obtain ⟨hlt,_⟩ := List.getElem?_eq_some_iff.mp hi
  have hlow := lowest_clear hfull hlt
  have hclose : Kernel.close ⟨table,backlog,closed⟩ i =
      ⟨table.set i none,backlog,closed⟩ := by
    unfold Kernel.close
    simp [hi]
  have hnull (b ds : List Nat) : Kernel.openNull ⟨table.set i none,b,ds⟩ =
      ((i : Int),⟨table,b,ds⟩) := by
    rw [Kernel.openNull]
    simp only [hlow,set_back hi none]
  rw [refuse]
  cases backlog with
  | nil =>
    have haccept : Kernel.accept ⟨table.set i none,[],closed⟩ = .error .EAGAIN := by
      rw [Kernel.accept]
      simp only [hlow]
    simp [hclose,haccept,close_none,hnull]
  | cons c rest =>
    have haccept : Kernel.accept ⟨table.set i none,c::rest,closed⟩ =
        .ok (i,c,⟨table.set i (some (.conn c)),rest,closed⟩) := by
      rw [Kernel.accept]
      simp only [hlow,List.set_set]
    simp [hclose,haccept,close_accepted hlt,hnull]

theorem turn_hands (hcb : s.newConnectionCallback = true) (hs : s.Spare)
    (hfree : 0 < free s.kernel.table) {c : Nat} {rest : List Nat}
    (hb : s.kernel.backlog = c::rest) :
    ∃ t, s.turn.Returns (.again t) ∧ t.Spare ∧ t.newConnectionCallback = true ∧
      t.handed = s.handed++[c] ∧ t.kernel.closed = s.kernel.closed ∧ t.kernel.backlog = rest ∧
      free t.kernel.table+1 = free s.kernel.table := by
  obtain ⟨i,hi,haccept⟩ := accept_conn hfree hb
  obtain ⟨j,hidle,hj⟩ := hs
  have hne : i ≠ j := by
    intro hij
    rw [hij,hj] at hi
    cases hi
  refine ⟨{ s with kernel := ⟨s.kernel.table.set i (some (.conn c)),rest,s.kernel.closed⟩,
                   handed := s.handed++[c] },?_,⟨j,hidle,?_⟩,hcb,rfl,rfl,rfl,
    free_fill hi (.conn c)⟩
  · rw [turn,haccept]
    simp [hcb]
  · rw [List.getElem?_set_ne hne]
    exact hj

theorem turn_closes (hcb : s.newConnectionCallback = false) (hs : s.Spare)
    (hfree : 0 < free s.kernel.table) {c : Nat} {rest : List Nat}
    (hb : s.kernel.backlog = c::rest) :
    ∃ t, s.turn.Returns (.again t) ∧ t.Spare ∧ t.newConnectionCallback = false ∧
      t.handed = s.handed ∧ t.kernel.closed = s.kernel.closed++[c] ∧ t.kernel.backlog = rest ∧
      free t.kernel.table = free s.kernel.table := by
  obtain ⟨i,hi,haccept⟩ := accept_conn hfree hb
  obtain ⟨hlt,_⟩ := List.getElem?_eq_some_iff.mp hi
  have hback := set_back hi (some (.conn c))
  rw [List.set_set] at hback
  refine ⟨{ s with kernel := ⟨s.kernel.table,rest,s.kernel.closed++[c]⟩ },?_,hs,hcb,
    rfl,rfl,rfl,rfl⟩
  rw [turn,haccept]
  simp [hcb,close_accepted hlt,hback]

theorem turn_refuses (hfull : free s.kernel.table = 0) : s.turn.Returns (.again s.refuse) := by
  rw [turn,accept_full hfull]
  simp

theorem turn_leaves (hfree : 0 < free s.kernel.table) (hb : s.kernel.backlog = []) :
    s.turn.Returns (.leave s) := by
  rw [turn,accept_empty hfree hb]
  simp

theorem Served.cons {u : Acceptor} {given dropped : List Nat}
    (hg : t.handed = s.handed++given) (hd : t.kernel.closed = s.kernel.closed++dropped)
    (hp : given++dropped++t.kernel.backlog = s.kernel.backlog) (h : Served t u) :
    Served s u := by
  obtain ⟨given',dropped',hg',hd',hp'⟩ := h.pending
  refine ⟨⟨given++given',dropped++dropped',?_,?_,?_⟩,h.spare⟩
  · rw [hg',hg,List.append_assoc]
  · rw [hd',hd,List.append_assoc]
  · calc given++given'++(dropped++dropped')
        = given++(given'++(dropped++dropped')) := List.append_assoc _ _ _
      List.Perm _ (given++(dropped++(given'++dropped'))) :=
        (List.perm_append_comm_assoc given' dropped dropped').append_left given
      List.Perm _ (given++(dropped++t.kernel.backlog)) := (hp'.append_left dropped).append_left given
      _ = s.kernel.backlog := by rw [← hp,List.append_assoc]

theorem handleRead_served (hs : s.Spare) (hroom : s.Room) :
    ∃ t, s.handleRead.Returns t ∧ Served s t := by
  generalize hb : s.kernel.backlog = backlog
  induction backlog generalizing s with
  | nil =>
    have hfree : 0 < free s.kernel.table := by
      rw [Room] at hroom
      split_ifs at hroom <;> omega
    refine ⟨s,Prog.returns_loop_leave (turn_leaves hfree hb),⟨⟨[],[],by simp,by simp,?_⟩,hs⟩⟩
    rw [hb]
    rfl
  | cons c rest ih =>
    cases hcb : s.newConnectionCallback with
    | true =>
      simp only [Room,hcb,if_true,hb,List.length_cons] at hroom
      obtain ⟨t,ht,hspare,hcbt,hg,hd,hbt,hfree⟩ := turn_hands hcb hs (by omega) hb
      have hroomt : t.Room := by
        simp only [Room,hcbt,if_true,hbt]
        omega
      obtain ⟨u,hu,hserved⟩ := ih hspare hroomt hbt
      refine ⟨u,(Prog.ends_loop_again t ht _).mpr hu,
        .cons hg (hd.trans (List.append_nil _).symm) ?_ hserved⟩
      rw [hbt,hb]
      rfl
    | false =>
      simp only [Room,hcb,Bool.false_eq_true,if_false] at hroom
      obtain ⟨t,ht,hspare,hcbt,hg,hd,hbt,hfree⟩ := turn_closes hcb hs hroom hb
      have hroomt : t.Room := by
        simp only [Room,hcbt,Bool.false_eq_true,if_false]
        omega
      obtain ⟨u,hu,hserved⟩ := ih hspare hroomt hbt
      refine ⟨u,(Prog.ends_loop_again t ht _).mpr hu,
        .cons (hg.trans (List.append_nil _).symm) hd ?_ hserved⟩
      rw [hbt,hb]
      rfl

theorem handleRead_endless (hs : s.Spare) (hroom : ¬ s.Room) : ¬ s.handleRead.Halts := by
  refine Prog.loop_endless (fun s => s.Spare ∧ ¬ s.Room) (fun s h => ?_) s ⟨hs,hroom⟩
  obtain ⟨hspare,hno⟩ := h
  by_cases hfull : free s.kernel.table = 0
  · refine ⟨s.refuse,turn_refuses hfull,?_⟩
    rw [refuse_full hfull hspare]
    refine ⟨hspare,?_⟩
    simp [Room,hfull]
  · -- a callback, and at least as many connections as descriptors
    have hcb : s.newConnectionCallback = true := by
      by_contra hcb
      simp only [Room,hcb] at hno
      exact hno (by simpa using Nat.pos_of_ne_zero hfull)
    simp only [Room,hcb,if_true] at hno
    cases hb : s.kernel.backlog with
    | nil =>
      rw [hb,List.length_nil] at hno
      omega
    | cons c rest =>
      obtain ⟨t,ht,hspare',hcbt,_,_,hbt,hfree⟩ := turn_hands hcb hspare (by omega) hb
      refine ⟨t,ht,hspare',?_⟩
      rw [hb,List.length_cons] at hno
      simp only [Room,hcbt,if_true,hbt]
      omega

/-- The accept loop ends, with every pending connection handed over or closed and the spare
descriptor open, exactly if there are descriptors enough. -/
theorem handleRead_serves_iff (hs : s.Spare) :
    (∃ t, s.handleRead.Returns t ∧ Served s t) ↔ s.Room := by
  constructor
  · intro h
    obtain ⟨t,ht,_⟩ := h
    by_contra hroom
    exact handleRead_endless hs hroom ht.halts
  · exact handleRead_served hs

def exhausted : Acceptor where
  kernel := { table := [some .null], backlog := [7] }
  idleFd := 0
  newConnectionCallback := true

theorem exhausted_endless : ¬ ∀ s : Acceptor, s.Spare →
    ∃ t, s.handleRead.Returns t ∧ Served s t := by
  intro hall
  have hspare : exhausted.Spare := ⟨0,rfl,rfl⟩
  obtain ⟨t,ht,_⟩ := hall exhausted hspare
  exact handleRead_endless hspare (by decide) ht.halts

def enough : Acceptor where
  kernel := { table := [some .null,none,none], backlog := [7] }
  idleFd := 0
  newConnectionCallback := true

theorem handleRead_serves_iff_enough :
    (∃ t, enough.handleRead.Returns t ∧ Served enough t) ↔ enough.Room :=
  handleRead_serves_iff ⟨0,rfl,rfl⟩

end Acceptor
end AdlServer.Net
