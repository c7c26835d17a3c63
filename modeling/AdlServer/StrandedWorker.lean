import AdlServer.ThreadPool

/-! The pool's destructor and a worker that is about to sleep: `running_state` and
`notify_all` are outside the mutex, so both can fall between a worker's test and its sleep. -/
namespace AdlServer.Base
open Threads

def Adder.notifies : Adder → Bool
  | .pushed _ => true
  | _ => false

namespace ThreadPool
variable {s u : ThreadPool}

def notified (s : ThreadPool) : ThreadPool :=
  { s with workers := notifyAll Worker.waits Worker.wake s.workers, destructor := .joining }

def Passed (s : ThreadPool) : Prop := s.destructor = .joining ∨ s.destructor = .returned

/-- A worker sleeps although the destructor has notified, and no notification is on its way. -/
def Stranded (s : ThreadPool) : Prop :=
  s.Passed ∧ .waiting∈s.workers ∧ s.adders.countP Adder.notifies = 0

/-! From the clearing of `running_state` on, who is not asleep does not go to sleep. -/

structure Awake (s : ThreadPool) : Prop where
  stopped : s.runningState = false
  none : ∀ w∈s.workers, w ≠ .falling ∧ w ≠ .waiting

theorem move_awake {p q : Worker} {ws : List Worker} (h : Move p q s.workers ws)
    (hq : q ≠ .falling ∧ q ≠ .waiting) (hs : ∀ w∈s.workers, w ≠ .falling ∧ w ≠ .waiting) :
    ∀ w∈ws, w ≠ .falling ∧ w ≠ .waiting := by
  intro w hw
  generalize s.workers = before at h hs
  cases h with
  | mk before after =>
    cases List.mem_append.mp hw with
    | inl hw => exact hs w (List.mem_append_left _ hw)
    | inr hw =>
      cases List.mem_cons.mp hw with
      | inl hw => rwa [hw]
      | inr hw => exact hs w (List.mem_append_right _ (List.mem_cons_of_mem _ hw))

theorem step_awake (h : Step s u) (hs : Awake s) : Awake u := by
  cases h with
  | check _ _ => exact ⟨hs.stopped,hs.none⟩
  | push _ _ => exact ⟨hs.stopped,hs.none⟩
  | accept _ hn =>
    cases hn with
    | nobody _ => exact ⟨hs.stopped,hs.none⟩
    | one hp hm => exact absurd (of_decide_eq_true hp) (hs.none _ hm.mem).2
  | enter hr _ => exact absurd (hr.symm.trans hs.stopped) (by decide)
  | leave _ hm => exact ⟨hs.stopped,move_awake hm (by decide) hs.none⟩
  | test _ _ hm =>
    refine ⟨hs.stopped,move_awake hm ?_ hs.none⟩
    rw [hs.stopped]
    cases s.tasks <;> simp [tested]
  | wait hm => exact absurd rfl (hs.none _ hm.mem).1
  | wake hm => exact absurd rfl (hs.none _ hm.mem).2
  | run hm => exact ⟨hs.stopped,move_awake hm (by decide) hs.none⟩
  | start _ => exact ⟨hs.stopped,hs.none⟩
  | store _ => exact ⟨rfl,hs.none⟩
  | notify _ =>
    refine ⟨hs.stopped,fun w hw => ?_⟩
    obtain ⟨v,hv,rfl⟩ := List.mem_map.mp hw
    have hn := hs.none v hv
    split_ifs with hwaits
    · exact absurd (of_decide_eq_true hwaits) hn.2
    · exact hn
  | join _ _ => exact ⟨hs.stopped,hs.none⟩

def Cleared (s : ThreadPool) : Prop :=
  s.destructor = .stored ∨ s.Passed → s.runningState = false

theorem step_cleared (h : Step s u) (hs : Cleared s) : Cleared u := by
  cases h with
  | check _ _ | push _ _ | accept _ _ | enter _ _ | leave _ _ | test _ _ _ | wait _ | wake _
  | run _ => exact hs
  | start _ => exact fun h => by simp [Passed] at h
  | store _ => exact fun _ => rfl
  | notify hd => exact fun _ => hs (.inl hd)
  | join hd _ => exact fun _ => hs (.inr (.inl hd))

theorem notified_awake (hr : s.runningState = false) (hf : .falling∉s.workers) :
    Awake s.notified := by
  refine ⟨hr,fun w hw => ?_⟩
  obtain ⟨v,hv,rfl⟩ := List.mem_map.mp hw
  split_ifs with hwaits
  · rw [of_decide_eq_true hwaits]
    exact ⟨by decide,by decide⟩
  · refine ⟨fun h => hf (h ▸ hv),fun h => hwaits ?_⟩
    rw [h]
    rfl

/-! A worker that was about to sleep when the destructor notified. -/

theorem notified_none_waits (s : ThreadPool) : s.notified.workers.countP Worker.waits = 0 := by
  refine List.countP_eq_zero.mpr fun w hw => ?_
  obtain ⟨v,_,rfl⟩ := List.mem_map.mp hw
  split_ifs with hwaits
  · rw [of_decide_eq_true hwaits]
    decide
  · exact hwaits

theorem accept_all (h : s.workers.countP Worker.waits = 0) :
    ∃ as accepted, as.countP Adder.notifies = 0 ∧
      Reaches s { s with adders := as, accepted := accepted } := by
  generalize hn : s.adders.countP Adder.notifies = n
  induction n generalizing s with
  | zero => exact ⟨s.adders,s.accepted,hn,.refl⟩
  | succ n ih =>
    obtain ⟨a,ha,hnot⟩ := List.countP_pos_iff.mp (by omega : 0 < s.adders.countP Adder.notifies)
    cases a with
    | outside => cases hnot
    | checked t => cases hnot
    | pushed t =>
      obtain ⟨before,after,hsplit⟩ := List.append_of_mem ha
      have hm : Move (.pushed t) .outside s.adders (before++.outside::after) := by
        rw [hsplit]
        exact .mk before after
      have hcount := hm.countP_left (f := Adder.notifies) rfl rfl
      obtain ⟨as,accepted,has,hreach⟩ := @ih { s with
        adders := before++.outside::after, accepted := s.accepted++[t] } h (by
          dsimp only
          omega)
      exact ⟨as,accepted,has,.head (.accept hm (.nobody h)) hreach⟩

theorem notified_strands (hf : .falling∈s.workers) : ∃ u, Reaches s.notified u ∧ u.Stranded := by
  obtain ⟨as,accepted,has,hreach⟩ := accept_all (notified_none_waits s)
  have hf' : .falling∈s.notified.workers := List.mem_map.mpr ⟨.falling,hf,rfl⟩
  obtain ⟨before,after,hsplit⟩ := List.append_of_mem hf'
  have hm : Move .falling .waiting s.notified.workers (before++.waiting::after) := by
    rw [hsplit]
    exact .mk before after
  exact ⟨_,hreach.tail (.wait hm),.inl rfl,hm.mem_right,has⟩

/-! The claim: no worker is stranded. -/

theorem passed_notified {size callers : Nat} (h : Reaches (create size callers) u)
    (hp : u.Passed) :
    ∃ s, Reaches (create size callers) s ∧ s.destructor = .stored ∧ Reaches s.notified u := by
  induction h with
  | refl => simp [create,Passed] at hp
  | @tail v w hv hst ih =>
    have later (hd : v.Passed) :
        ∃ s, Reaches (create size callers) s ∧ s.destructor = .stored ∧ Reaches s.notified w := by
      obtain ⟨s,hs,hd,hrun⟩ := ih hd
      exact ⟨s,hs,hd,hrun.tail hst⟩
    cases hst with
    | check _ _ | push _ _ | accept _ _ | enter _ _ | leave _ _ | test _ _ _ | wait _ | wake _
    | run _ => exact later hp
    | start _ => simp [Passed] at hp
    | store _ => simp [store,Passed] at hp
    | notify hd => exact ⟨v,hv,hd,.refl⟩
    | join hd _ => exact later (.inl hd)

theorem notified_none_stranded {size callers : Nat} (hs : Reaches (create size callers) s)
    (hd : s.destructor = .stored) (hf : .falling∉s.workers) (hu : Reaches s.notified u) :
    ¬ u.Stranded := by
  intro hstranded
  have hcleared := invariant_of_run (fun _ _ hi hst => step_cleared hst hi) hs
    (fun h => by simp [create,Passed] at h : Cleared (create size callers))
  have hawake := invariant_of_run (fun _ _ hi hst => step_awake hst hi) hu
    (notified_awake (hcleared (.inl hd)) hf)
  exact (hawake.none _ hstranded.2.1).2 rfl

/-- A worker that is stranded was between its test and its sleep, or another was, when the
destructor called `notify_all`; and whenever one is, a worker can be stranded. -/
theorem stranded_iff_falling (size callers : Nat) :
    (∀ u, Reaches (create size callers) u → u.Stranded →
      ∃ s, Reaches (create size callers) s ∧ s.destructor = .stored ∧ .falling∈s.workers ∧
        Reaches s.notified u) ∧
    ∀ s, Reaches (create size callers) s → s.destructor = .stored →
      ((∀ u, Reaches s.notified u → ¬ u.Stranded) ↔ .falling∉s.workers) := by
  constructor
  · intro u hu hstranded
    obtain ⟨s,hs,hd,hrun⟩ := passed_notified hu hstranded.1
    by_cases hf : .falling∈s.workers
    · exact ⟨s,hs,hd,hf,hrun⟩
    · exact absurd hstranded (notified_none_stranded hs hd hf hrun)
  · intro s hs hd
    constructor
    · intro hnone hf
      obtain ⟨u,hu,hstranded⟩ := notified_strands hf
      exact hnone u hu hstranded
    · exact fun hf u hu => notified_none_stranded hs hd hf hu

def closing (worker : Worker) : ThreadPool where
  runningState := false
  workers := [worker]
  adders := []
  destructor := .stored

theorem closing_falling : Reaches (create 1 0) (closing .falling) :=
  .head (.enter rfl (.mk [] [])) <| .head (.test .entering rfl (.mk [] [])) <|
  .head (.start rfl) <| .head (.store rfl) .refl

theorem closing_waiting : Reaches (create 1 0) (closing .waiting) :=
  .head (.enter rfl (.mk [] [])) <| .head (.test .entering rfl (.mk [] [])) <|
  .head (.wait (.mk [] [])) <| .head (.start rfl) <| .head (.store rfl) .refl

theorem worker_stranded : ¬ ∀ (size callers : Nat) (u : ThreadPool), 1 ≤ size →
    Reaches (create size callers) u → ¬ u.Stranded := by
  intro h
  have hlate : Reaches (create 1 0) { closing .waiting with destructor := .joining } :=
    (closing_falling.tail (.notify rfl)).tail (.wait (.mk [] []))
  exact h 1 0 _ (Nat.le_refl 1) hlate ⟨.inl rfl,List.mem_singleton.mpr rfl,rfl⟩

theorem stranded_iff_falling_closing :
    (∀ u, Reaches (closing .waiting).notified u → ¬ u.Stranded) ↔
      .falling∉(closing .waiting).workers :=
  (stranded_iff_falling 1 0).2 (closing .waiting) closing_waiting rfl

end ThreadPool
end AdlServer.Base
