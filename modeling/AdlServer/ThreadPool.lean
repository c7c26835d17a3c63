import AdlServer.Threads
import Mathlib.Data.List.Count

/-! `base/threadPool.h`: its workers, the threads that call `addTask`, and the destructor.
Tasks are numbered by their calls. Only the queue is under the mutex: `running_state` and
the notifications are not. -/
namespace AdlServer.Base
open Threads

/-- `entering` and `woken` are on the way to the lock; `falling` holds it and is about to
block in `wait`. -/
inductive Worker where
  | head | entering | falling | waiting | woken
  | running (task : Nat)
  | exited
  deriving DecidableEq, Repr

/-- `checked` has seen `running_state`; `pushed` has yet to notify and to return. -/
inductive Adder where
  | outside
  | checked (task : Nat)
  | pushed (task : Nat)
  deriving DecidableEq, Repr

/-- `started` keeps what had been accepted before. -/
inductive Destructor where
  | idle
  | started (accepted : List Nat)
  | stored | joining | returned
  deriving DecidableEq, Repr

namespace Worker

def waits (w : Worker) : Bool := w = .waiting

def wake : Worker → Worker
  | .waiting => .woken
  | w => w

def locks (w : Worker) : Bool := w = .falling

def has (t : Nat) (w : Worker) : Bool := w = .running t

/-- Past the test of the loop, and not yet past that of the task queue. -/
def between : Worker → Bool
  | .entering | .falling | .waiting | .woken => true
  | _ => false

inductive Enters : Worker → Prop where
  | entering : Enters .entering
  | woken : Enters .woken

end Worker

namespace Adder

def hasChecked (t : Nat) (a : Adder) : Bool := a = .checked t

def hasPushed (t : Nat) (a : Adder) : Bool := a = .pushed t

end Adder

structure ThreadPool where
  runningState : Bool := true
  tasks : List Nat := []
  workers : List Worker
  adders : List Adder
  destructor : Destructor := .idle
  created : Nat := 0
  accepted : List Nat := []
  executed : List Nat := []

namespace ThreadPool

def create (size callers : Nat) : ThreadPool where
  workers := List.replicate (if size < 1 then 1 else size) .head
  adders := List.replicate callers .outside

def unlocked (s : ThreadPool) : Prop := s.workers.countP Worker.locks = 0

def tested (runningState : Bool) : List Nat → Worker×List Nat
  | t::ts => (.running t,ts)
  | [] => (if runningState then .falling else .exited,[])

def store (s : ThreadPool) : ThreadPool := { s with runningState := false, destructor := .stored }

inductive Step : ThreadPool → ThreadPool → Prop where
  | check {s : ThreadPool} {as : List Adder} (hr : s.runningState = true)
    (h : Move .outside (.checked s.created) s.adders as) :
    Step s { s with adders := as, created := s.created+1 }
  | push {s : ThreadPool} {as : List Adder} {t : Nat} (hl : s.unlocked)
    (h : Move (.checked t) (.pushed t) s.adders as) :
    Step s { s with adders := as, tasks := s.tasks++[t] }
  | accept {s : ThreadPool} {as : List Adder} {ws : List Worker} {t : Nat}
    (h : Move (.pushed t) .outside s.adders as)
    (hn : NotifyOne Worker.waits Worker.wake s.workers ws) :
    Step s { s with adders := as, workers := ws, accepted := s.accepted++[t] }
  | enter {s : ThreadPool} {ws : List Worker} (hr : s.runningState = true)
    (h : Move .head .entering s.workers ws) : Step s { s with workers := ws }
  | leave {s : ThreadPool} {ws : List Worker} (hr : s.runningState = false)
    (h : Move .head .exited s.workers ws) : Step s { s with workers := ws }
  | test {s : ThreadPool} {ws : List Worker} {p : Worker} (hp : p.Enters) (hl : s.unlocked)
    (h : Move p (tested s.runningState s.tasks).1 s.workers ws) :
    Step s { s with workers := ws, tasks := (tested s.runningState s.tasks).2 }
  | wait {s : ThreadPool} {ws : List Worker} (h : Move .falling .waiting s.workers ws) :
    Step s { s with workers := ws }
  | wake {s : ThreadPool} {ws : List Worker} (h : Move .waiting .woken s.workers ws) :
    Step s { s with workers := ws }
  | run {s : ThreadPool} {ws : List Worker} {t : Nat} (h : Move (.running t) .head s.workers ws) :
    Step s { s with workers := ws, executed := s.executed++[t] }
  | start {s : ThreadPool} (hd : s.destructor = .idle) :
    Step s { s with destructor := .started s.accepted }
  | store {s : ThreadPool} {accepted : List Nat} (hd : s.destructor = .started accepted) :
    Step s s.store
  | notify {s : ThreadPool} (hd : s.destructor = .stored) :
    Step s { s with workers := notifyAll Worker.waits Worker.wake s.workers,
                    destructor := .joining }
  | join {s : ThreadPool} (hd : s.destructor = .joining) (h : ∀ w∈s.workers, w = .exited) :
    Step s { s with destructor := .returned }

def Reaches : ThreadPool → ThreadPool → Prop := Relation.ReflTransGen Step

def landed (s : ThreadPool) (t : Nat) : Nat :=
  s.tasks.count t+s.workers.countP (Worker.has t)+s.executed.count t

structure Inv (s : ThreadPool) : Prop where
  once : ∀ t, s.adders.countP (Adder.hasChecked t)+s.landed t = if t < s.created then 1 else 0
  returned : ∀ t, s.adders.countP (Adder.hasPushed t)+s.accepted.count t = s.landed t

variable {s u : ThreadPool}

theorem has_wake (t : Nat) (w : Worker) (hw : w.waits = true) :
    w.wake.has t = w.has t := by
  cases of_decide_eq_true hw
  rfl

theorem tested_landed {p : Worker} {ws : List Worker} (hp : p.Enters)
    (h : Move p (tested s.runningState s.tasks).1 s.workers ws) (t : Nat) :
    ({ s with workers := ws, tasks := (tested s.runningState s.tasks).2 } : ThreadPool).landed t =
      s.landed t := by
  have hc := h.countP (Worker.has t)
  have hpt : p.has t = false := by
    cases hp with
    | entering => rfl
    | woken => rfl
  rw [hpt] at hc
  unfold landed
  cases hs : s.tasks with
  | nil =>
    have hno : (tested s.runningState []).1.has t = false := by
      unfold tested
      split_ifs <;> rfl
    rw [hs,hno] at hc
    simp only [tested,Bool.toNat_false] at hc ⊢
    omega
  | cons x xs =>
    rw [hs] at hc
    have hx : ((Worker.running x).has t).toNat = if x == t then 1 else 0 := by
      by_cases hxt : x = t <;> simp [Worker.has,hxt]
    simp only [tested,List.count_cons,Bool.toNat_false,hx] at hc ⊢
    omega

theorem run_landed {ws : List Worker} {x : Nat} (h : Move (.running x) .head s.workers ws)
    (t : Nat) :
    ({ s with workers := ws, executed := s.executed++[x] } : ThreadPool).landed t =
      s.landed t := by
  have hc := h.countP (Worker.has t)
  have hx : ((Worker.running x).has t).toNat = if x == t then 1 else 0 := by
    by_cases hxt : x = t <;> simp [Worker.has,hxt]
  have h0 : (Worker.head.has t).toNat = 0 := rfl
  simp only [landed,List.count_append,List.count_singleton,hx,h0] at hc ⊢
  omega

theorem Inv.of_workers (hs : Inv s) (ha : u.adders = s.adders) (hc : u.created = s.created)
    (hacc : u.accepted = s.accepted) (hl : ∀ t, u.landed t = s.landed t) : Inv u := by
  refine ⟨fun t => ?_,fun t => ?_⟩
  · rw [ha,hc,hl]
    exact hs.once t
  · rw [ha,hacc,hl]
    exact hs.returned t

theorem check_inv {as : List Adder} (hs : Inv s)
    (h : Move .outside (.checked s.created) s.adders as) :
    Inv { s with adders := as, created := s.created+1 } := by
  refine ⟨fun t => ?_,fun t => ?_⟩
  · have ho := hs.once t
    have hc := h.countP (Adder.hasChecked t)
    have hx : ((Adder.checked s.created).hasChecked t).toNat = if t = s.created then 1 else 0 := by
      by_cases ht : t = s.created
      · simp [Adder.hasChecked,ht]
      · simp [Adder.hasChecked,ht,Ne.symm ht]
    have h0 : ((Adder.outside).hasChecked t).toNat = 0 := rfl
    simp only [landed,hx,h0] at ho hc ⊢
    split_ifs at * <;> omega
  · rw [h.countP_same rfl]
    exact hs.returned t

theorem push_inv {as : List Adder} {x : Nat} (hs : Inv s)
    (h : Move (.checked x) (.pushed x) s.adders as) :
    Inv { s with adders := as, tasks := s.tasks++[x] } := by
  have hb (t : Nat) : ((Adder.checked x).hasChecked t).toNat = if x == t then 1 else 0 := by
    by_cases hxt : x = t <;> simp [Adder.hasChecked,hxt]
  have hb' (t : Nat) : ((Adder.pushed x).hasPushed t).toNat = if x == t then 1 else 0 := by
    by_cases hxt : x = t <;> simp [Adder.hasPushed,hxt]
  refine ⟨fun t => ?_,fun t => ?_⟩
  · have ho := hs.once t
    have hc := h.countP (Adder.hasChecked t)
    have h0 : ((Adder.pushed x).hasChecked t).toNat = 0 := rfl
    simp only [landed,List.count_append,List.count_singleton,hb,h0] at ho hc ⊢
    omega
  · have hr := hs.returned t
    have hc := h.countP (Adder.hasPushed t)
    have h0 : ((Adder.checked x).hasPushed t).toNat = 0 := rfl
    simp only [landed,List.count_append,List.count_singleton,hb',h0] at hr hc ⊢
    omega

theorem accept_inv {as : List Adder} {ws : List Worker} {x : Nat} (hs : Inv s)
    (h : Move (.pushed x) .outside s.adders as)
    (hn : NotifyOne Worker.waits Worker.wake s.workers ws) :
    Inv { s with adders := as, workers := ws, accepted := s.accepted++[x] } := by
  have hl (t : Nat) : ws.countP (Worker.has t) = s.workers.countP (Worker.has t) :=
    hn.countP_eq (has_wake t)
  refine ⟨fun t => ?_,fun t => ?_⟩
  · have ho := hs.once t
    rw [h.countP_same rfl]
    simpa only [landed,hl] using ho
  · have hr := hs.returned t
    have hc := h.countP (Adder.hasPushed t)
    have hx : ((Adder.pushed x).hasPushed t).toNat = if x == t then 1 else 0 := by
      by_cases hxt : x = t <;> simp [Adder.hasPushed,hxt]
    have h0 : ((Adder.outside).hasPushed t).toNat = 0 := rfl
    simp only [landed,hl,List.count_append,List.count_singleton,hx,h0] at hr hc ⊢
    omega

theorem step_inv (h : Step s u) (hs : Inv s) : Inv u := by
  have move {p q : Worker} {ws : List Worker} (hm : Move p q s.workers ws)
      (hpq : ∀ t, p.has t = q.has t) (t : Nat) :
      ({ s with workers := ws } : ThreadPool).landed t = s.landed t := by
    simp only [landed,hm.countP_same (hpq t)]
  cases h with
  | check _ hm => exact check_inv hs hm
  | push _ hm => exact push_inv hs hm
  | accept hm hn => exact accept_inv hs hm hn
  | enter _ hm => exact hs.of_workers rfl rfl rfl (move hm fun _ => rfl)
  | leave _ hm => exact hs.of_workers rfl rfl rfl (move hm fun _ => rfl)
  | test hp _ hm => exact hs.of_workers rfl rfl rfl (tested_landed hp hm)
  | wait hm => exact hs.of_workers rfl rfl rfl (move hm fun _ => rfl)
  | wake hm => exact hs.of_workers rfl rfl rfl (move hm fun _ => rfl)
  | run hm => exact hs.of_workers rfl rfl rfl (run_landed hm)
  | start _ => exact hs.of_workers rfl rfl rfl fun _ => rfl
  | store _ => exact hs.of_workers rfl rfl rfl fun _ => rfl
  | notify _ =>
    refine hs.of_workers rfl rfl rfl fun t => ?_
    simp only [landed,notifyAll_countP_eq (has_wake t)]
  | join _ _ => exact hs.of_workers rfl rfl rfl fun _ => rfl

theorem create_inv (size callers : Nat) : Inv (create size callers) := by
  refine ⟨fun t => ?_,fun t => ?_⟩
  · simp [create,landed,List.countP_replicate,Adder.hasChecked,Worker.has]
  · simp [create,landed,List.countP_replicate,Adder.hasPushed,Worker.has]

theorem Inv.accepted (hs : Inv s) {t : Nat} (ht : t∈s.accepted) :
    s.landed t = 1 ∧ s.adders.countP (Adder.hasChecked t) = 0 := by
  have hpos := List.count_pos_iff.mpr ht
  have ho := hs.once t
  have hr := hs.returned t
  split_ifs at ho <;> omega

/-! The end of the pool. -/

/-- Of the queue `queued`, `j` tasks have been taken since `running_state` was cleared.
What came later stands behind, and `accepted` is not among it; each of `k` workers takes
one task as long as there is one. -/
structure Taken (accepted queued : List Nat) (k j : Nat) (later : List Nat) (s : ThreadPool) :
    Prop where
  le : j ≤ queued.length
  tasks : s.tasks = queued.drop j++later
  later : ∀ t∈accepted, t∉later
  workers : s.workers.countP Worker.between+j ≤ k
  all : j < queued.length → s.workers.countP Worker.between+j = k

structure Draining (accepted queued : List Nat) (k : Nat) (s : ThreadPool) : Prop where
  inv : Inv s
  kept : ∀ t∈accepted, t∈s.accepted
  stopped : s.runningState = false
  taken : ∃ j later, Taken accepted queued k j later s

variable {accepted queued : List Nat} {k : Nat}

theorem Taken.of_eq {j : Nat} {later : List Nat} (h : Taken accepted queued k j later s)
    (ht : u.tasks = s.tasks)
    (hw : u.workers.countP Worker.between = s.workers.countP Worker.between) :
    Taken accepted queued k j later u :=
  ⟨h.le,ht.trans h.tasks,h.later,hw ▸ h.workers,hw ▸ h.all⟩

theorem Taken.test {j : Nat} {later : List Nat} {p : Worker} {ws : List Worker}
    (h : Taken accepted queued k j later s) (hr : s.runningState = false) (hp : p.Enters)
    (hm : Move p (tested s.runningState s.tasks).1 s.workers ws) :
    ∃ j later, Taken accepted queued k j later
      { s with workers := ws, tasks := (tested s.runningState s.tasks).2 } := by
  have hpb : p.between = true := by
    cases hp with
    | entering => rfl
    | woken => rfl
  have hqb : (tested s.runningState s.tasks).1.between = false := by
    rw [hr]
    cases s.tasks <;> rfl
  have hc := hm.countP_left hpb hqb
  have hle := h.le
  have hw := h.workers
  have hall := h.all
  by_cases hj : j < queued.length
  · have hsplit : queued.drop j = queued[j]::queued.drop (j+1) := List.drop_eq_getElem_cons hj
    refine ⟨j+1,later,hj,?_,h.later,?_,?_⟩
    · rw [h.tasks,hsplit]
      rfl
    · dsimp only
      omega
    · dsimp only
      omega
  · have hd : queued.drop j = [] := List.drop_eq_nil_of_le (by omega)
    have htasks : s.tasks = later := by rw [h.tasks,hd,List.nil_append]
    refine ⟨j,later.tail,hle,?_,?_,?_,fun hlt => absurd hlt hj⟩
    · rw [hd,List.nil_append,htasks]
      cases later <;> rfl
    · exact fun t ht hmem => h.later t ht (List.mem_of_mem_tail hmem)
    · dsimp only
      omega

theorem between_wake (w : Worker) (hw : w.waits = true) : w.wake.between = w.between := by
  cases of_decide_eq_true hw
  rfl

theorem step_draining (h : Step s u) (hs : Draining accepted queued k s) :
    Draining accepted queued k u := by
  have hi := step_inv h hs.inv
  obtain ⟨j,later,ht⟩ := hs.taken
  cases h with
  | check hr hm => exact ⟨hi,hs.kept,hs.stopped,j,later,ht.of_eq rfl rfl⟩
  | @push as x _ hm =>
    refine ⟨hi,hs.kept,hs.stopped,j,later++[x],ht.le,?_,?_,ht.workers,ht.all⟩
    · rw [ht.tasks,List.append_assoc]
    · intro t hmem hlater
      cases List.mem_append.mp hlater with
      | inl hlater => exact ht.later t hmem hlater
      | inr hlater =>
        have he := List.mem_singleton.mp hlater
        subst he
        have hpos : 0 < s.adders.countP (Adder.hasChecked t) :=
          List.countP_pos_iff.mpr ⟨_,hm.mem,by simp [Adder.hasChecked]⟩
        exact absurd (hs.inv.accepted (hs.kept t hmem)).2 (Nat.ne_of_gt hpos)
  | accept hm hn =>
    refine ⟨hi,fun t ht => List.mem_append_left _ (hs.kept t ht),hs.stopped,j,later,?_⟩
    exact ht.of_eq rfl (hn.countP_eq between_wake)
  | enter hr hm => exact absurd (hr.symm.trans hs.stopped) (by decide)
  | leave hr hm => exact ⟨hi,hs.kept,hs.stopped,j,later,ht.of_eq rfl (hm.countP_same rfl)⟩
  | test hp hl hm => exact ⟨hi,hs.kept,hs.stopped,ht.test hs.stopped hp hm⟩
  | wait hm => exact ⟨hi,hs.kept,hs.stopped,j,later,ht.of_eq rfl (hm.countP_same rfl)⟩
  | wake hm => exact ⟨hi,hs.kept,hs.stopped,j,later,ht.of_eq rfl (hm.countP_same rfl)⟩
  | run hm => exact ⟨hi,hs.kept,hs.stopped,j,later,ht.of_eq rfl (hm.countP_same rfl)⟩
  | start hd => exact ⟨hi,hs.kept,hs.stopped,j,later,ht.of_eq rfl rfl⟩
  | store hd => exact ⟨hi,hs.kept,rfl,j,later,ht.of_eq rfl rfl⟩
  | notify hd =>
    exact ⟨hi,hs.kept,hs.stopped,j,later,ht.of_eq rfl (notifyAll_countP_eq between_wake _)⟩
  | join hd hw => exact ⟨hi,hs.kept,hs.stopped,j,later,ht.of_eq rfl rfl⟩

theorem step_exited (h : Step s u) (he : ∀ w∈s.workers, w = .exited) :
    u.workers = s.workers := by
  have stuck {p q : Worker} {ws : List Worker} (hm : Move p q s.workers ws) (hp : p ≠ .exited) :
      ws = s.workers := absurd (he p hm.mem) hp
  cases h with
  | check hr hm => rfl
  | push hl hm => rfl
  | accept hm hn =>
    cases hn with
    | nobody _ => rfl
    | one hw hm' => exact stuck hm' fun hp => by simp [hp,Worker.waits] at hw
  | enter hr hm => exact stuck hm (by decide)
  | leave hr hm => exact stuck hm (by decide)
  | test hp hl hm =>
    cases hp with
    | entering => exact stuck hm (by decide)
    | woken => exact stuck hm (by decide)
  | wait hm => exact stuck hm (by decide)
  | wake hm => exact stuck hm (by decide)
  | run hm => exact stuck hm (by simp)
  | start hd => rfl
  | store hd => rfl
  | notify hd =>
    refine (List.map_congr_left fun w hw => ?_).trans (List.map_id s.workers)
    rw [he w hw]
    rfl
  | join hd hw => rfl

structure Orderly (s : ThreadPool) : Prop where
  inv : Inv s
  started : ∀ accepted, s.destructor = .started accepted → ∀ t∈accepted, t∈s.accepted
  returned : s.destructor = .returned → ∀ w∈s.workers, w = .exited

theorem step_orderly (h : Step s u) (hs : Orderly s) : Orderly u := by
  have hi := step_inv h hs.inv
  have same (hd : u.destructor = s.destructor) (ha : ∀ t∈s.accepted, t∈u.accepted) : Orderly u := by
    refine ⟨hi,fun acc hacc t ht => ha t (hs.started acc (hd ▸ hacc) t ht),fun hr => ?_⟩
    have he := hs.returned (hd ▸ hr)
    rwa [step_exited h he]
  cases h with
  | check _ _ => exact same rfl fun _ => id
  | push _ _ => exact same rfl fun _ => id
  | accept _ _ => exact same rfl fun _ ht => List.mem_append_left _ ht
  | enter _ _ => exact same rfl fun _ => id
  | leave _ _ => exact same rfl fun _ => id
  | test _ _ _ => exact same rfl fun _ => id
  | wait _ => exact same rfl fun _ => id
  | wake _ => exact same rfl fun _ => id
  | run _ => exact same rfl fun _ => id
  | start _ =>
    refine ⟨hi,fun acc hacc t ht => ?_,fun hr => by cases hr⟩
    cases hacc
    exact ht
  | store _ => exact ⟨hi,(fun _ hacc => by cases hacc),fun hr => by cases hr⟩
  | notify _ => exact ⟨hi,(fun _ hacc => by cases hacc),fun hr => by cases hr⟩
  | join _ hw => exact ⟨hi,(fun _ hacc => by cases hacc),fun _ => hw⟩

theorem create_orderly (size callers : Nat) : Orderly (create size callers) :=
  ⟨create_inv size callers,(fun _ hacc => by cases hacc),fun hr => by cases hr⟩

theorem store_draining {acc : List Nat} (hs : Orderly s) (hd : s.destructor = .started acc) :
    Draining acc s.tasks (s.workers.countP Worker.between) s.store := by
  refine ⟨step_inv (.store hd) hs.inv,hs.started acc hd,rfl,0,[],Nat.zero_le _,?_,?_,?_,?_⟩
  · simp [store]
  · simp
  · simp [store]
  · simp [store]

/-- When the destructor returns, the tasks accepted before it started have been executed,
each once, exactly if at the clearing of `running_state` every one still queued had a
worker between the two tests to take it. -/
theorem accepted_executed_iff (size callers : Nat) {s u : ThreadPool} {accepted : List Nat}
    (hs : Reaches (create size callers) s) (hd : s.destructor = .started accepted)
    (hu : Reaches s.store u) (hr : u.destructor = .returned) :
    (∀ t∈accepted, u.executed.count t = 1) ↔
      ∀ t∈accepted, t∉s.tasks.drop (s.workers.countP Worker.between) := by
  have horder := invariant_of_run (fun _ _ hi hst => step_orderly hst hi) hs
    (create_orderly size callers)
  have hafter := invariant_of_run (fun _ _ hi hst => step_orderly hst hi) hu
    (step_orderly (.store hd) horder)
  have hdrain := invariant_of_run (fun _ _ hi hst => step_draining hst hi) hu
    (store_draining horder hd)
  have hexited := hafter.returned hr
  have hnone (f : Worker → Bool) (hf : f .exited = false) : u.workers.countP f = 0 := by
    refine List.countP_eq_zero.mpr fun w hw => ?_
    rw [hexited w hw,hf]
    simp
  obtain ⟨j,later,ht⟩ := hdrain.taken
  have hw := ht.workers
  have hall := ht.all
  rw [hnone _ rfl] at hw hall
  have hdrop : s.tasks.drop j = s.tasks.drop (s.workers.countP Worker.between) := by
    by_cases hj : j < s.tasks.length
    · rw [← hall hj,Nat.zero_add]
    · rw [List.drop_eq_nil_of_le (by omega),List.drop_eq_nil_of_le (by omega)]
  refine forall₂_congr fun t hmem => ?_
  have hone := (hdrain.inv.accepted (hdrain.kept t hmem)).1
  rw [landed] at hone
  rw [hnone (Worker.has t) rfl] at hone
  have hqueue : t∈u.tasks ↔ t∈s.tasks.drop (s.workers.countP Worker.between) := by
    rw [ht.tasks,hdrop,List.mem_append]
    exact or_iff_left (ht.later t hmem)
  rw [← hqueue,← List.count_eq_zero]
  omega

def oneTask (worker : Worker) : ThreadPool where
  tasks := [0]
  workers := [worker]
  adders := [.outside]
  destructor := .started [0]
  created := 1
  accepted := [0]

theorem oneTask_head : Reaches (create 1 1) (oneTask .head) :=
  .head (.check rfl (.mk [] [])) <| .head (.push rfl (.mk [] [])) <|
  .head (.accept (.mk [] []) (.nobody rfl)) <| .head (.start rfl) .refl

theorem oneTask_entering : Reaches (create 1 1) (oneTask .entering) :=
  .head (.check rfl (.mk [] [])) <| .head (.push rfl (.mk [] [])) <|
  .head (.accept (.mk [] []) (.nobody rfl)) <|
  .head (.enter rfl (.mk [] [])) <| .head (.start rfl) .refl

def oneDone : ThreadPool where
  runningState := false
  workers := [.exited]
  adders := [.outside]
  destructor := .returned
  created := 1
  accepted := [0]
  executed := [0]

theorem oneDone_reached : Reaches (oneTask .entering).store oneDone :=
  .head (.test .entering rfl (.mk [] [])) <| .head (.run (.mk [] [])) <|
  .head (.leave rfl (.mk [] [])) <| .head (.notify rfl) <|
  .head (.join rfl (by decide)) .refl

theorem accepted_executed_iff_oneTask :
    (∀ t∈[0], oneDone.executed.count t = 1) ↔
      ∀ t∈[0], t∉(oneTask .entering).tasks.drop
        ((oneTask .entering).workers.countP Worker.between) :=
  accepted_executed_iff 1 1 oneTask_entering rfl oneDone_reached rfl

theorem accepted_not_executed :
    ∃ s u, Reaches (create 1 1) s ∧ s.destructor = .started [0] ∧ Reaches s.store u ∧
      u.destructor = .returned ∧ ¬ ∀ t∈[0], u.executed.count t = 1 := by
  refine ⟨oneTask .head,{ oneTask .exited with runningState := false, destructor := .returned },
    oneTask_head,rfl,?_,rfl,by decide⟩
  exact .head (.leave rfl (.mk [] [])) <| .head (.notify rfl) <|
    .head (.join rfl (by decide)) .refl

end ThreadPool
end AdlServer.Base
