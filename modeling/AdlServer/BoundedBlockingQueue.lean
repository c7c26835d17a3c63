import AdlServer.Threads

/-! `base/BoundedBlockingQueue.h`. Its mutex makes a critical section one step, from the
lock to the return or to the wait; the two overloads of `put` differ in nothing that is
modelled. -/
namespace AdlServer.Base
open Threads

/-- What is called of `boost::circular_buffer`, which is no part of the sources: buffers are
of type `β`, and `items` are what lies between `begin()` and `end()`. -/
structure CircularBuffer (β α : Type) where
  ofCapacity : Nat → β
  capacity : β → Nat
  items : β → List α
  full : β → Bool
  empty : β → Bool
  pushBack : β → α → β
  front : (b : β) → empty b = false → α
  popFront : β → β

/-- What its documentation says of these calls. -/
structure CircularBuffer.Documented {β α : Type} (boost : CircularBuffer β α) : Prop where
  capacity_ofCapacity : ∀ c, boost.capacity (boost.ofCapacity c) = c
  items_ofCapacity : ∀ c, boost.items (boost.ofCapacity c) = []
  full : ∀ b, boost.full b = true ↔ (boost.items b).length = boost.capacity b
  empty : ∀ b, boost.empty b = true ↔ boost.items b = []
  items_pushBack : ∀ b t, boost.full b = false →
    boost.items (boost.pushBack b t) = boost.items b++[t]
  capacity_pushBack : ∀ b t, boost.capacity (boost.pushBack b t) = boost.capacity b
  front : ∀ b h, (boost.items b).head? = some (boost.front b h)
  items_popFront : ∀ b, boost.empty b = false →
    boost.items (boost.popFront b) = (boost.items b).tail
  capacity_popFront : ∀ b, boost.empty b = false →
    boost.capacity (boost.popFront b) = boost.capacity b

inductive Cv where
  | notEmpty | notFull
  deriving DecidableEq, Repr

inductive Call (α : Type) where
  | put (t : α)
  | take

/-- Where a thread is. Awakened, it has yet to get the lock and to test again. -/
inductive Client (α : Type) where
  | outside
  | calling (call : Call α)
  | waiting (call : Call α)
  | woken (call : Call α)

namespace Call
variable {α : Type}

def waitsFor : Call α → Cv
  | .put _ => .notFull
  | .take => .notEmpty

def notifies : Call α → Cv
  | .put _ => .notEmpty
  | .take => .notFull

end Call

namespace Client
variable {α : Type}

def waits (cv : Cv) : Client α → Bool
  | .waiting call => call.waitsFor = cv
  | _ => false

def called (cv : Cv) : Client α → Bool
  | .woken call => call.waitsFor = cv
  | _ => false

def wake : Client α → Client α
  | .waiting call => .woken call
  | p => p

inductive Enters (call : Call α) : Client α → Prop where
  | calling : Enters call (.calling call)
  | woken : Enters call (.woken call)

@[simp] theorem waits_waiting (cv : Cv) (call : Call α) :
    (Client.waiting call).waits cv = decide (call.waitsFor = cv) := rfl

@[simp] theorem waits_woken (cv : Cv) (call : Call α) :
    (Client.woken call).waits cv = false := rfl

@[simp] theorem called_woken (cv : Cv) (call : Call α) :
    (Client.woken call).called cv = decide (call.waitsFor = cv) := rfl

@[simp] theorem called_waiting (cv : Cv) (call : Call α) :
    (Client.waiting call).called cv = false := rfl

@[simp] theorem called_outside (cv : Cv) : (Client.outside : Client α).called cv = false := rfl

theorem sleeping (cv : Cv) : Sleeping (waits cv) (called cv) (wake (α := α)) where
  wakes p hp := by
    cases p with
    | waiting call => exact ⟨rfl,hp⟩
    | outside => cases hp
    | calling call => cases hp
    | woken call => cases hp
  apart p hp := by
    cases p with
    | waiting call => rfl
    | outside => cases hp
    | calling call => cases hp
    | woken call => cases hp

end Client

structure BoundedBlockingQueue (β α : Type) where
  queue : β
  clients : List (Client α)
  inserted : List α := []
  removed : List α := []

namespace BoundedBlockingQueue
variable {β α : Type} (boost : CircularBuffer β α)

def put (b : β) (t : α) : Option β :=
  if boost.full b then none else some (boost.pushBack b t)

def take (b : β) : Option (α×β) :=
  if h : boost.empty b = false then some (boost.front b h,boost.popFront b) else none

def locked (b : β) : Call α → Option (β×List α×List α)
  | .put t => (put boost b t).map fun q => (q,[t],[])
  | .take => (take boost b).map fun r => (r.2,[],[r.1])

/-- Any thread takes its next step; those that wait may also wake of themselves. -/
inductive Step : BoundedBlockingQueue β α → BoundedBlockingQueue β α → Prop where
  | call {s : BoundedBlockingQueue β α} {ts : List (Client α)} (call : Call α)
    (h : Move .outside (.calling call) s.clients ts) : Step s { s with clients := ts }
  | wait {s : BoundedBlockingQueue β α} {ts : List (Client α)} {p : Client α} {call : Call α}
    (hp : Client.Enters call p) (hq : locked boost s.queue call = none)
    (h : Move p (.waiting call) s.clients ts) : Step s { s with clients := ts }
  | finish {s : BoundedBlockingQueue β α} {ts us : List (Client α)} {p : Client α}
    {call : Call α} {q : β} {ins outs : List α}
    (hp : Client.Enters call p) (hq : locked boost s.queue call = some (q,ins,outs))
    (h : Move p .outside s.clients ts)
    (hn : NotifyOne (Client.waits call.notifies) Client.wake ts us) :
    Step s { queue := q, clients := us, inserted := s.inserted++ins, removed := s.removed++outs }
  | wake {s : BoundedBlockingQueue β α} {ts : List (Client α)} (call : Call α)
    (h : Move (.waiting call) (.woken call) s.clients ts) : Step s { s with clients := ts }

def create (maxSize n : Nat) : BoundedBlockingQueue β α where
  queue := boost.ofCapacity maxSize
  clients := List.replicate n .outside

def available (b : β) : Cv → Nat
  | .notEmpty => (boost.items b).length
  | .notFull => boost.capacity b-(boost.items b).length

def tally (s : BoundedBlockingQueue β α) (cv : Cv) : Tally where
  available := available boost s.queue cv
  asleep := s.clients.countP (Client.waits cv)
  woken := s.clients.countP (Client.called cv)

structure Inv (c : Nat) (s : BoundedBlockingQueue β α) : Prop where
  capacity : boost.capacity s.queue = c
  bounded : (boost.items s.queue).length ≤ c
  fifo : s.removed++boost.items s.queue = s.inserted
  noneLost : ∀ cv, (s.tally boost cv).NoneLost

variable {boost} {s t : BoundedBlockingQueue β α}

theorem put_some {b q : β} {t : α} (h : put boost b t = some q) :
    boost.full b = false ∧ q = boost.pushBack b t := by
  rw [put] at h
  cases hf : boost.full b with
  | true => simp [hf] at h
  | false => exact ⟨rfl,by simpa [hf] using h.symm⟩

theorem take_some (hboost : boost.Documented) {b q : β} {t : α} (h : take boost b = some (t,q)) :
    boost.items b = t::boost.items q ∧ boost.capacity q = boost.capacity b := by
  rw [take] at h
  by_cases he : boost.empty b = false
  · rw [dif_pos he] at h
    obtain ⟨rfl,rfl⟩ := Prod.mk.inj (Option.some.inj h)
    rw [hboost.items_popFront b he]
    exact ⟨(List.cons_head?_tail (hboost.front b he)).symm,hboost.capacity_popFront b he⟩
  · rw [dif_neg he] at h
    cases h

theorem available_of_none (hboost : boost.Documented) {b : β} {call : Call α}
    (h : locked boost b call = none) : available boost b call.waitsFor = 0 := by
  cases call with
  | put t =>
    have hf : boost.full b = true := by
      by_contra hf
      simp [locked,put,hf] at h
    have hl := (hboost.full b).mp hf
    simp only [available,Call.waitsFor,hl]
    omega
  | take =>
    have he : boost.empty b = true := by
      by_contra he
      simp [locked,take,he] at h
    simp [available,Call.waitsFor,(hboost.empty b).mp he]

structure Finished (boost : CircularBuffer β α) (b : β) (call : Call α) (q : β)
    (ins outs : List α) : Prop where
  capacity : boost.capacity q = boost.capacity b
  bounded : (boost.items q).length ≤ boost.capacity q
  fifo : outs++boost.items q = boost.items b++ins
  took : available boost q call.waitsFor+1 = available boost b call.waitsFor
  added : available boost q call.notifies = available boost b call.notifies+1

theorem finished (hboost : boost.Documented) {b q : β} {call : Call α} {ins outs : List α}
    (hb : (boost.items b).length ≤ boost.capacity b)
    (h : locked boost b call = some (q,ins,outs)) : Finished boost b call q ins outs := by
  cases call with
  | put t =>
    simp only [locked,Option.map_eq_some_iff,Prod.mk.injEq] at h
    obtain ⟨q',hq,he,hins,houts⟩ := h
    obtain ⟨hf,hq⟩ := put_some hq
    subst he hins houts hq
    have hitems := hboost.items_pushBack b t hf
    have hcap := hboost.capacity_pushBack b t
    have hne : (boost.items b).length ≠ boost.capacity b := by
      rw [Ne,← hboost.full b,hf]
      exact Bool.false_ne_true
    have hl := congrArg List.length hitems
    rw [List.length_append,List.length_singleton] at hl
    refine ⟨hcap,?_,hitems,?_,?_⟩
    · omega
    · simp only [available,Call.waitsFor]
      omega
    · simp only [available,Call.notifies]
      omega
  | take =>
    simp only [locked,Option.map_eq_some_iff,Prod.mk.injEq] at h
    obtain ⟨⟨t,q'⟩,hq,he,hins,houts⟩ := h
    obtain ⟨hitems,hcap⟩ := take_some hboost hq
    subst he hins houts
    have hl := congrArg List.length hitems
    rw [List.length_cons] at hl
    refine ⟨hcap,?_,?_,?_,?_⟩
    · dsimp only
      omega
    · simp [hitems]
    · simp only [available,Call.waitsFor]
      omega
    · simp only [available,Call.notifies]
      omega

theorem enters_counts {call : Call α} {p : Client α} (h : Client.Enters call p) (cv : Cv) :
    p.waits cv = false ∧ (cv ≠ call.waitsFor → p.called cv = false) := by
  cases h with
  | calling => exact ⟨rfl,fun _ => rfl⟩
  | woken => exact ⟨rfl,fun hne => by simpa [Client.called] using hne.symm⟩

theorem Call.cv_cases (call : Call α) (cv : Cv) :
    cv = call.waitsFor ∧ cv ≠ call.notifies ∨ cv = call.notifies ∧ cv ≠ call.waitsFor := by
  cases call <;> cases cv <;> simp [Call.waitsFor,Call.notifies]

theorem tally_eq (cv : Cv) (hq : available boost t.queue cv = available boost s.queue cv)
    (hw : t.clients.countP (Client.waits cv) = s.clients.countP (Client.waits cv))
    (hc : t.clients.countP (Client.called cv) = s.clients.countP (Client.called cv)) :
    t.tally boost cv = s.tally boost cv := by
  unfold tally
  rw [hq,hw,hc]

section
variable {ts us : List (Client α)} {p : Client α} {call : Call α}

theorem wait_tally (hboost : boost.Documented) (cv : Cv) (hp : Client.Enters call p)
    (hq : locked boost s.queue call = none) (h : Move p (.waiting call) s.clients ts) :
    ({ s with clients := ts } : BoundedBlockingQueue β α).tally boost cv = s.tally boost cv ∨
      Tally.Step (s.tally boost cv)
        (({ s with clients := ts } : BoundedBlockingQueue β α).tally boost cv) := by
  obtain ⟨hpw,hpc⟩ := enters_counts hp cv
  by_cases hcv : cv = call.waitsFor
  · have hc := h.countP (Client.called cv)
    have hw := h.countP_entered hpw (by simp [hcv])
    subst hcv
    refine .inr (.sleep (available_of_none hboost hq) rfl hw ?_)
    simp only [tally,Client.called_waiting,Bool.toNat_false] at hc ⊢
    omega
  · have hw := h.countP_same (f := Client.waits cv)
      (by simpa [hpw] using Ne.symm hcv)
    exact .inl (tally_eq cv rfl hw (h.countP_same (hpc hcv)))

theorem notify_other {cv cv' : Cv} (hne : cv ≠ cv')
    (h : NotifyOne (Client.waits cv') Client.wake ts us) :
    us.countP (Client.waits cv) = ts.countP (Client.waits cv) ∧
      us.countP (Client.called cv) = ts.countP (Client.called cv) := by
  have hsame (p : Client α) (hp : p.waits cv' = true) :
      p.wake.waits cv = p.waits cv ∧ p.wake.called cv = p.called cv := by
    cases p with
    | waiting other =>
      have ho : other.waitsFor = cv' := by simpa [Client.waits] using hp
      simp [Client.wake,Client.waits,Client.called,ho,hne.symm]
    | outside => exact ⟨rfl,rfl⟩
    | calling other => exact ⟨rfl,rfl⟩
    | woken other => exact ⟨rfl,rfl⟩
  exact ⟨h.countP_eq fun p hp => (hsame p hp).1,h.countP_eq fun p hp => (hsame p hp).2⟩

theorem finish_tally (cv : Cv) {q : β} {ins outs : List α}
    (hp : Client.Enters call p) (hf : Finished boost s.queue call q ins outs)
    (h : Move p .outside s.clients ts)
    (hn : NotifyOne (Client.waits call.notifies) Client.wake ts us) (ins' outs' : List α) :
    Tally.Step (s.tally boost cv) (({ queue := q, clients := us, inserted := ins', removed := outs' } :
      BoundedBlockingQueue β α).tally boost cv) := by
  obtain ⟨hpw,hpc⟩ := enters_counts hp cv
  have hw : ts.countP (Client.waits cv) = s.clients.countP (Client.waits cv) := h.countP_same hpw
  cases Call.cv_cases call cv with
  | inl hcv =>
    obtain ⟨hcv,hne⟩ := hcv
    obtain ⟨hnw,hnc⟩ := notify_other hne hn
    have hc := h.countP (Client.called cv)
    have hp1 := Bool.toNat_le (p.called cv)
    subst hcv
    refine .take hf.took (hnw.trans hw) ?_
    simp only [tally,hnc,Client.called_outside,Bool.toNat_false] at hc ⊢
    omega
  | inr hcv =>
    obtain ⟨hcv,hne⟩ := hcv
    have hc : ts.countP (Client.called cv) = s.clients.countP (Client.called cv) :=
      h.countP_same (hpc hne)
    subst hcv
    cases hn.tally (Client.sleeping call.notifies) with
    | inl hn => exact .addWakes hf.added (hn.1.trans hw) (hn.2.trans (congrArg (·+1) hc))
    | inr hn =>
      obtain ⟨h0,hus⟩ := hn
      subst hus
      exact .addUnseen hf.added (hw.symm.trans h0) hw hc

theorem wake_tally (cv : Cv) (h : Move (.waiting call) (.woken call) s.clients ts) :
    ({ s with clients := ts } : BoundedBlockingQueue β α).tally boost cv = s.tally boost cv ∨
      Tally.Step (s.tally boost cv)
        (({ s with clients := ts } : BoundedBlockingQueue β α).tally boost cv) := by
  by_cases hcv : cv = call.waitsFor
  · exact .inr (.wake rfl (h.countP_left (by simp [hcv]) rfl)
      (h.countP_entered rfl (by simp [hcv])))
  · refine .inl (tally_eq cv rfl (h.countP_same ?_) (h.countP_same ?_))
    · simpa using Ne.symm hcv
    · simpa using Ne.symm hcv

end

theorem step_tally (hboost : boost.Documented) (h : Step boost s t)
    (hb : (boost.items s.queue).length ≤ boost.capacity s.queue) (cv : Cv) :
    t.tally boost cv = s.tally boost cv ∨ Tally.Step (s.tally boost cv) (t.tally boost cv) := by
  cases h with
  | call call hm => exact .inl (tally_eq cv rfl (hm.countP_same rfl) (hm.countP_same rfl))
  | wait hp hq hm => exact wait_tally hboost cv hp hq hm
  | finish hp hq hm hn => exact .inr (finish_tally cv hp (finished hboost hb hq) hm hn _ _)
  | wake call hm => exact wake_tally cv hm

theorem step_inv (hboost : boost.Documented) {c : Nat} (h : Step boost s t) (hs : Inv boost c s) :
    Inv boost c t := by
  have hb : (boost.items s.queue).length ≤ boost.capacity s.queue := by
    rw [hs.capacity]
    exact hs.bounded
  have hlost (cv : Cv) : (t.tally boost cv).NoneLost := by
    cases step_tally hboost h hb cv with
    | inl he =>
      rw [he]
      exact hs.noneLost cv
    | inr ht => exact ht.noneLost (hs.noneLost cv)
  cases h with
  | call call hm => exact ⟨hs.capacity,hs.bounded,hs.fifo,hlost⟩
  | wait hp hq hm => exact ⟨hs.capacity,hs.bounded,hs.fifo,hlost⟩
  | wake call hm => exact ⟨hs.capacity,hs.bounded,hs.fifo,hlost⟩
  | finish hp hq hm hn =>
    have hf := finished hboost hb hq
    have hc := hf.capacity.trans hs.capacity
    refine ⟨hc,hc ▸ hf.bounded,?_,hlost⟩
    rw [List.append_assoc,hf.fifo,← List.append_assoc,hs.fifo]

theorem create_inv (hboost : boost.Documented) (c n : Nat) : Inv boost c (create boost c n) := by
  have hitems := hboost.items_ofCapacity c
  refine ⟨hboost.capacity_ofCapacity c,?_,?_,fun cv => .inl ?_⟩
  · simp [create,hitems]
  · simp [create,hitems]
  · simp [create,tally,List.countP_replicate,Client.waits]

/-- Whatever the threads do and in which order: the queue keeps within its capacity, what
is removed is a prefix of what is inserted, and no consumer sleeps over an element, nor a
producer over a free slot, that nobody is on the way to take. -/
theorem bounded_blocking_queue (hboost : boost.Documented) (c n : Nat)
    (h : Relation.ReflTransGen (Step boost) (create boost c n) s) :
    (boost.items s.queue).length ≤ c ∧ s.removed <+: s.inserted ∧
    ¬ (0 < s.clients.countP (Client.waits .notEmpty) ∧
      s.clients.countP (Client.called .notEmpty) < (boost.items s.queue).length) ∧
    ¬ (0 < s.clients.countP (Client.waits .notFull) ∧
      s.clients.countP (Client.called .notFull) < c-(boost.items s.queue).length) := by
  have hs := invariant_of_run (fun _ _ hi hst => step_inv hboost hst hi) h (create_inv hboost c n)
  have hne := hs.noneLost .notEmpty
  have hnf := hs.noneLost .notFull
  simp only [Tally.NoneLost,tally,available,hs.capacity] at hne hnf
  exact ⟨hs.bounded,⟨_,hs.fifo⟩,by omega,by omega⟩

end BoundedBlockingQueue

/-- A buffer that keeps its elements in their order; a full one overwrites its front. -/
structure Ring (α : Type) where
  capacity : Nat
  items : List α := []

namespace Ring
variable {α : Type}

def pushBack (r : Ring α) (t : α) : Ring α :=
  { r with items := if r.items.length = r.capacity then (r.items++[t]).tail else r.items++[t] }

def circularBuffer : CircularBuffer (Ring α) α where
  ofCapacity c := { capacity := c }
  capacity := capacity
  items := items
  full r := r.items.length = r.capacity
  empty r := r.items.isEmpty
  pushBack := pushBack
  front r h := r.items.head (List.isEmpty_eq_false_iff.mp h)
  popFront r := { r with items := r.items.tail }

theorem documented : (circularBuffer (α := α)).Documented where
  capacity_ofCapacity _ := rfl
  items_ofCapacity _ := rfl
  full _ := decide_eq_true_iff
  empty _ := List.isEmpty_iff
  items_pushBack _ _ h := if_neg (of_decide_eq_false h)
  capacity_pushBack _ _ := rfl
  front _ h := List.head?_eq_some_head (List.isEmpty_eq_false_iff.mp h)
  items_popFront _ _ := rfl
  capacity_popFront _ _ := rfl

end Ring

namespace BoundedBlockingQueue

def handed : BoundedBlockingQueue (Ring Nat) Nat where
  queue := { capacity := 1, items := [5] }
  clients := [.woken .take,.outside]
  inserted := [5]

theorem handed_reached :
    Relation.ReflTransGen (Step Ring.circularBuffer) (create Ring.circularBuffer 1 2) handed :=
  .head (.call .take (.mk [] [Client.outside])) <|
  .head (.wait .calling rfl (.mk [] [Client.outside])) <|
  .head (.call (.put 5) (.mk [Client.waiting .take] [])) <|
  .head (.finish .calling rfl (.mk [Client.waiting .take] []) (.one rfl (.mk [] [Client.outside]))) .refl

theorem bounded_blocking_queue_handed :
    (Ring.circularBuffer.items handed.queue).length ≤ 1 ∧ handed.removed <+: handed.inserted ∧
    ¬ (0 < handed.clients.countP (Client.waits .notEmpty) ∧
      handed.clients.countP (Client.called .notEmpty) <
        (Ring.circularBuffer.items handed.queue).length) ∧
    ¬ (0 < handed.clients.countP (Client.waits .notFull) ∧
      handed.clients.countP (Client.called .notFull) <
        1-(Ring.circularBuffer.items handed.queue).length) :=
  bounded_blocking_queue Ring.documented 1 2 handed_reached

end BoundedBlockingQueue
end AdlServer.Base
