import AdlServer.BoundedBlockingQueue

/-! `base/BlockingQueue.h`, which never makes a producer wait. -/
namespace AdlServer.Base
open Threads

structure BlockingQueue (α : Type) where
  queue : List α := []
  clients : List (Client α)
  inserted : List α := []
  removed : List α := []

namespace BlockingQueue
variable {α : Type}

def put (q : List α) (x : α) : List α := q++[x]

def take : List α → Option (α×List α)
  | [] => none
  | t::q => some (t,q)

/-- Any thread takes its next step; those that wait may also wake of themselves. -/
inductive Step : BlockingQueue α → BlockingQueue α → Prop where
  | call {s : BlockingQueue α} {ts : List (Client α)} (call : Call α)
    (h : Move .outside (.calling call) s.clients ts) : Step s { s with clients := ts }
  | put {s : BlockingQueue α} {ts us : List (Client α)} {x : α}
    (h : Move (.calling (.put x)) .outside s.clients ts)
    (hn : NotifyOne (Client.waits .notEmpty) Client.wake ts us) :
    Step s { s with queue := put s.queue x, clients := us, inserted := s.inserted++[x] }
  | wait {s : BlockingQueue α} {ts : List (Client α)} {p : Client α}
    (hp : Client.Enters .take p) (hq : take s.queue = none)
    (h : Move p (.waiting .take) s.clients ts) : Step s { s with clients := ts }
  | take {s : BlockingQueue α} {ts : List (Client α)} {p : Client α} {t : α} {q : List α}
    (hp : Client.Enters .take p) (hq : take s.queue = some (t,q))
    (h : Move p .outside s.clients ts) :
    Step s { s with queue := q, clients := ts, removed := s.removed++[t] }
  | wake {s : BlockingQueue α} {ts : List (Client α)}
    (h : Move (.waiting .take) (.woken .take) s.clients ts) : Step s { s with clients := ts }

def create (α : Type) (n : Nat) : BlockingQueue α where
  clients := List.replicate n .outside

def bounded {β : Type} (q : β) (s : BlockingQueue α) : BoundedBlockingQueue β α where
  queue := q
  clients := s.clients
  inserted := s.inserted
  removed := s.removed

variable {s t : BlockingQueue α} {c : Nat} {β : Type} {boost : CircularBuffer β α} {b : β}

def Unhindered (s : BlockingQueue α) : Prop := s.clients.countP (Client.waits .notFull) = 0

theorem enters_unhindered {p : Client α} (h : Client.Enters .take p) : p.waits .notFull = false := by
  cases h with
  | calling => rfl
  | woken => rfl

theorem Step.unhindered (h : Step s t) (hs : Unhindered s) : Unhindered t := by
  rw [Unhindered] at hs ⊢
  cases h with
  | call call h => rwa [h.countP_same rfl]
  | put h hn => rwa [(BoundedBlockingQueue.notify_other (by decide) hn).1,h.countP_same rfl]
  | wait hp hq h => rwa [h.countP_same (enters_unhindered hp)]
  | take hp hq h => rwa [h.countP_same (enters_unhindered hp)]
  | wake h => rwa [h.countP_same rfl]

theorem Step.inserted_le (h : Step s t) : s.inserted.length ≤ t.inserted.length := by
  cases h with
  | call call h => exact Nat.le_refl _
  | put h hn => simp
  | wait hp hq h => exact Nat.le_refl _
  | take hp hq h => exact Nat.le_refl _
  | wake h => exact Nat.le_refl _

structure Keeps (boost : CircularBuffer β α) (c : Nat) (q : List α) (b : β) : Prop where
  items : boost.items b = q
  capacity : boost.capacity b = c

theorem put_bounded (hboost : boost.Documented) {q : List α} {x : α} (h : Keeps boost c q b)
    (hroom : q.length < c) : ∃ b', Keeps boost c (put q x) b' ∧
      BoundedBlockingQueue.locked boost b (.put x) = some (b',[x],[]) := by
  have hfull : boost.full b = false := by
    rw [Bool.eq_false_iff,Ne,hboost.full b,h.items,h.capacity]
    exact Nat.ne_of_lt hroom
  refine ⟨boost.pushBack b x,⟨?_,(hboost.capacity_pushBack b x).trans h.capacity⟩,?_⟩
  · rw [hboost.items_pushBack b x hfull,h.items,put]
  · simp [BoundedBlockingQueue.locked,BoundedBlockingQueue.put,hfull]

theorem wait_bounded (hboost : boost.Documented) {q : List α} (h : Keeps boost c q b)
    (hq : take q = none) : BoundedBlockingQueue.locked boost b .take = none := by
  have hnil : q = [] := by
    cases q with
    | nil => rfl
    | cons t q => cases hq
  have hempty : boost.empty b = true := (hboost.empty b).mpr (h.items.trans hnil)
  simp [BoundedBlockingQueue.locked,BoundedBlockingQueue.take,hempty]

theorem take_bounded (hboost : boost.Documented) {q rest : List α} {x : α} (h : Keeps boost c q b)
    (hq : take q = some (x,rest)) : ∃ b', Keeps boost c rest b' ∧
      BoundedBlockingQueue.locked boost b .take = some (b',[],[x]) := by
  have hcons : q = x::rest := by
    cases q with
    | nil => cases hq
    | cons y ys => simpa [take] using hq
  have hitems : boost.items b = x::rest := h.items.trans hcons
  have hempty : boost.empty b = false := by
    rw [Bool.eq_false_iff,Ne,hboost.empty b,hitems]
    exact List.cons_ne_nil _ _
  have hfront : boost.front b hempty = x := by
    have hhead := hboost.front b hempty
    rw [hitems] at hhead
    exact (Option.some.inj hhead).symm
  refine ⟨boost.popFront b,⟨?_,(hboost.capacity_popFront b hempty).trans h.capacity⟩,?_⟩
  · rw [hboost.items_popFront b hempty,hitems,List.tail_cons]
  · simp [BoundedBlockingQueue.locked,BoundedBlockingQueue.take,hempty,hfront]

theorem Step.bounded (hboost : boost.Documented) (h : Step s t) (hb : Keeps boost c s.queue b)
    (hs : Unhindered s) (hroom : s.queue.length < c) :
    ∃ b', Keeps boost c t.queue b' ∧
      BoundedBlockingQueue.Step boost (s.bounded b) (t.bounded b') := by
  cases h with
  | call call h => exact ⟨b,hb,.call call h⟩
  | put h hn =>
    obtain ⟨b',hb',hlocked⟩ := put_bounded hboost hb hroom
    have hstep := BoundedBlockingQueue.Step.finish (s := s.bounded b) .calling hlocked h hn
    exact ⟨b',hb',by simpa [BlockingQueue.bounded] using hstep⟩
  | wait hp hq h => exact ⟨b,hb,.wait hp (wait_bounded hboost hb hq) h⟩
  | @take ts p x q hp hq h =>
    obtain ⟨b',hb',hlocked⟩ := take_bounded hboost hb hq
    have hnobody : ts.countP (Client.waits .notFull) = 0 := by
      rwa [h.countP_same (enters_unhindered hp)]
    have hstep := BoundedBlockingQueue.Step.finish (s := s.bounded b) hp hlocked h (.nobody hnobody)
    exact ⟨b',hb',by simpa [BlockingQueue.bounded] using hstep⟩
  | wake h => exact ⟨b,hb,.wake .take h⟩

theorem Step.queue_lt (h : Step s t) (hc : t.inserted.length < c)
    (hfifo : s.removed++s.queue = s.inserted) : s.queue.length < c := by
  have hle := h.inserted_le
  have hl := congrArg List.length hfifo
  rw [List.length_append] at hl
  omega

theorem create_unhindered (α : Type) (n : Nat) : Unhindered (create α n) := by
  simp [Unhindered,create,List.countP_replicate,Client.waits]

theorem Step.fifo (h : Step s t) (hs : s.removed++s.queue = s.inserted) :
    t.removed++t.queue = t.inserted := by
  cases h with
  | call call h => exact hs
  | put h hn => rw [BlockingQueue.put,← List.append_assoc,hs]
  | wait hp hq h => exact hs
  | @take ts p x q hp hq h =>
    have hqueue : s.queue = x::q := by
      cases hsq : s.queue with
      | nil => simp [hsq,BlockingQueue.take] at hq
      | cons y ys => simpa [hsq,BlockingQueue.take] using hq
    rw [List.append_assoc,← hs,hqueue]
    rfl
  | wake h => exact hs

theorem run_bounded (hboost : boost.Documented) {n : Nat}
    (h : Relation.ReflTransGen Step (create α n) s) (hc : s.inserted.length < c) :
    ∃ b, Keeps boost c s.queue b ∧ Relation.ReflTransGen (BoundedBlockingQueue.Step boost)
      (BoundedBlockingQueue.create boost c n) (s.bounded b) := by
  induction h with
  | refl => exact ⟨_,⟨hboost.items_ofCapacity c,hboost.capacity_ofCapacity c⟩,.refl⟩
  | tail hrun hstep ih =>
    have hfifo := invariant_of_run (I := fun s : BlockingQueue α => s.removed++s.queue = s.inserted)
      (fun _ _ hi hst => hst.fifo hi) hrun rfl
    have hfree := invariant_of_run (fun _ _ hi hst => Step.unhindered hst hi) hrun
      (create_unhindered α n)
    obtain ⟨b,hb,hbounded⟩ := ih (Nat.lt_of_le_of_lt hstep.inserted_le hc)
    obtain ⟨b',hb',hnext⟩ := hstep.bounded hboost hb hfree (hstep.queue_lt hc hfifo)
    exact ⟨b',hb',hbounded.tail hnext⟩

/-- In every run what is removed and what is queued is what was inserted, in that order; no
consumer sleeps over an element that nobody is on the way to take; and a bounded queue with
room for all that was inserted could have gone through the same run, so that no producer
ever waits. -/
theorem blocking_queue (n : Nat) {s : BlockingQueue α}
    (h : Relation.ReflTransGen Step (create α n) s) :
    s.removed++s.queue = s.inserted ∧
    ¬ (0 < s.clients.countP (Client.waits .notEmpty) ∧
      s.clients.countP (Client.called .notEmpty) < s.queue.length) ∧
    s.clients.countP (Client.waits .notFull) = 0 ∧
    ∀ (β : Type) (boost : CircularBuffer β α), boost.Documented → ∀ c, s.inserted.length < c →
      ∃ b, boost.items b = s.queue ∧ Relation.ReflTransGen (BoundedBlockingQueue.Step boost)
        (BoundedBlockingQueue.create boost c n) (s.bounded b) := by
  have hfifo := invariant_of_run (I := fun s : BlockingQueue α => s.removed++s.queue = s.inserted)
    (fun _ _ hi hst => hst.fifo hi) h rfl
  have hfree := invariant_of_run (fun _ _ hi hst => Step.unhindered hst hi) h (create_unhindered α n)
  obtain ⟨b,hb,hrun⟩ := run_bounded Ring.documented h (Nat.lt_succ_self _)
  have hinv := invariant_of_run
    (fun _ _ hi hst => BoundedBlockingQueue.step_inv Ring.documented hst hi) hrun
    (BoundedBlockingQueue.create_inv Ring.documented _ n)
  have hlost := hinv.noneLost .notEmpty
  simp only [Tally.NoneLost,BoundedBlockingQueue.tally,BoundedBlockingQueue.available,bounded,
    hb.items] at hlost
  refine ⟨hfifo,by omega,hfree,fun β boost hboost c hc => ?_⟩
  obtain ⟨b,hb,hrun⟩ := run_bounded hboost h hc
  exact ⟨b,hb.items,hrun⟩

def handedOver : BlockingQueue Nat where
  queue := [5]
  clients := [.woken .take,.outside]
  inserted := [5]

theorem handedOver_reached : Relation.ReflTransGen Step (create Nat 2) handedOver :=
  .head (.call .take (.mk [] [Client.outside])) <|
  .head (.wait .calling rfl (.mk [] [Client.outside])) <|
  .head (.call (.put 5) (.mk [Client.waiting .take] [])) <|
  .head (.put (.mk [Client.waiting .take] []) (.one rfl (.mk [] [Client.outside]))) .refl

theorem blocking_queue_handedOver :
    handedOver.removed++handedOver.queue = handedOver.inserted ∧
    ¬ (0 < handedOver.clients.countP (Client.waits .notEmpty) ∧
      handedOver.clients.countP (Client.called .notEmpty) < handedOver.queue.length) ∧
    handedOver.clients.countP (Client.waits .notFull) = 0 ∧
    ∀ (β : Type) (boost : CircularBuffer β Nat), boost.Documented →
      ∀ c, handedOver.inserted.length < c →
        ∃ b, boost.items b = handedOver.queue ∧
          Relation.ReflTransGen (BoundedBlockingQueue.Step boost)
            (BoundedBlockingQueue.create boost c 2) (handedOver.bounded b) :=
  blocking_queue 2 handedOver_reached

end BlockingQueue
end AdlServer.Base
