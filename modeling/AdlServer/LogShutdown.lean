import AdlServer.AsyncLogging
import AdlServer.Runs

/-! `asyncLogging::~asyncLogging` among the threads that append and the back end. The wait
for the condition variable may time out, so `notify_one` changes nothing but the turn of the
destructor. -/
namespace AdlServer.Log
open Memory Runs

inductive DestructorAt where
  | outside | stored | notified | returned
  deriving DecidableEq, Repr

/-- `exited`: `threadFunc` has returned. -/
structure Shutdown where
  log : AsyncLogging := {}
  exited : Bool := false
  destructor : DestructorAt := .outside

namespace Shutdown

inductive Action where
  | append (str : Bytes) | backEnd | exit | store | notify | join

/-- Any thread takes its next step; the back end's own neither append nor stop. -/
inductive Step : Shutdown → Action → Shutdown → Prop where
  | append {s : Shutdown} {u : AsyncLogging} {str : Bytes} (h : s.log.append str = .ok u) :
    Step s (.append str) { s with log := u }
  | backEnd {s : Shutdown} {u : AsyncLogging} (h : s.log.Step u)
    (hr : u.running = s.log.running) (ha : u.appended = s.log.appended) :
    Step s .backEnd { s with log := u }
  | exit {s : Shutdown} (hp : s.log.point = .head) (hr : s.log.running = false) :
    Step s .exit { s with exited := true }
  | store {s : Shutdown} (hd : s.destructor = .outside) :
    Step s .store { s with log := { s.log with running := false }, destructor := .stored }
  | notify {s : Shutdown} (hd : s.destructor = .stored) :
    Step s .notify { s with destructor := .notified }
  | join {s : Shutdown} (hd : s.destructor = .notified) (he : s.exited = true) :
    Step s .join { s with destructor := .returned }

end Shutdown

namespace AsyncLogging
variable {s t : AsyncLogging}

/-- What no round will collect once `running_` is false: nothing if the writer is behind the
loop's test and before its turn with the mutex. -/
def leftover (s : AsyncLogging) : Bytes :=
  match s.point with
  | .locking => []
  | _ => vecBytes s.transBufVec++ptrBytes s.cur

def fitting (str : Bytes) : Bytes := if str.length+1 < kLargeBuffer then str else []

theorem fits_iff (str : Bytes) : str.length+1 ≤ newBuffer.avail ↔ str.length+1 < kLargeBuffer := by
  have havail : newBuffer.avail = kLargeBuffer-1 := rfl
  have hpos : 0 < kLargeBuffer := by decide
  omega

theorem fitting_of_room {b : Buffer} {str : Bytes} (h : str.length+1 ≤ b.avail) :
    fitting str = str := by
  have hle : b.avail ≤ newBuffer.avail := by
    simp only [AdlBuffer.avail,newBuffer,List.length_nil]
    omega
  exact if_pos ((fits_iff str).mp (Nat.le_trans h hle))

theorem append_cases {w str : Bytes} (hs : Inv { s with appended := w })
    (h : s.append str = .ok t) :
    s.running = true ∧ ∃ b d, s.cur = some b ∧
      ((d.data = b.data++fitting str ∧
        t = { s with cur := some d, appended := s.appended++str }) ∨
      (d.data = fitting str ∧
        t = { s with transBufVec := s.transBufVec++[some b], cur := some d, prv := none,
                     appended := s.appended++str })) := by
  obtain ⟨b,hb⟩ := Option.isSome_iff_exists.mp hs.cur
  have hfresh := hs.fresh
  dsimp only at hb hfresh
  have hr : s.running = true := by
    by_contra hr
    rw [append,if_pos (by simp [hr])] at h
    cases h
  have hlen : str.length < kLargeBuffer := by
    by_contra hlen
    rw [append,if_neg (by simp [hr]),if_pos (Nat.not_lt.mp hlen)] at h
    cases h
  refine ⟨hr,b,?_⟩
  by_cases hfit : str.length+1 ≤ b.avail
  · obtain ⟨d,hd,hdata⟩ := b.append_ok (by omega : str.length ≤ b.avail)
    have ht := h.symm.trans (append_present hr hlen hb hfit hd)
    exact ⟨d,hb,.inl ⟨by rw [fitting_of_room hfit,hdata],Except.ok.inj ht⟩⟩
  have havail : (s.prv.getD newBuffer).avail = newBuffer.avail := by
    rw [AdlBuffer.avail]
    rw [hfresh]
    rfl
  by_cases hroom : str.length+1 ≤ (s.prv.getD newBuffer).avail
  · obtain ⟨d,hd,hdata⟩ := (s.prv.getD newBuffer).append_ok
      (by omega : str.length ≤ (s.prv.getD newBuffer).avail)
    have ht := h.symm.trans (append_switch hr hlen hb hfit (by rw [if_pos hroom,hd]))
    refine ⟨d,hb,.inr ⟨?_,Except.ok.inj ht⟩⟩
    rw [hdata,hfresh,List.nil_append,fitting,if_pos ((fits_iff str).mp (havail ▸ hroom))]
  · have ht := h.symm.trans (append_switch hr hlen hb hfit (if_neg hroom))
    refine ⟨_,hb,.inr ⟨?_,Except.ok.inj ht⟩⟩
    rw [hfresh,fitting,if_neg fun hlt => hroom (havail ▸ (fits_iff str).mpr hlt)]

theorem append_keeps {w str : Bytes} (hs : Inv { s with appended := w })
    (h : s.append str = .ok t) :
    Inv { t with appended := w++fitting str } ∧ s.running = true ∧ t.running = s.running ∧
      t.appended = s.appended++str := by
  obtain ⟨hr,b,d,hb,hcases⟩ := append_cases hs h
  cases hcases with
  | inl hin =>
    obtain ⟨hd,ht⟩ := hin
    rw [ht]
    exact ⟨hs.grown hb hd,hr,rfl,rfl⟩
  | inr hin =>
    obtain ⟨hd,ht⟩ := hin
    rw [ht]
    exact ⟨hs.rotated hb hd,hr,rfl,rfl⟩

theorem write_with (w : Bytes) (p : BufferPtr) (todo : List BufferPtr) :
    write { s with appended := w } p todo = (s.write p todo).map ({ · with appended := w }) := by
  cases p <;> rfl

theorem recycle_with (w : Bytes) :
    recycle { s with appended := w } = s.recycle.map ({ · with appended := w }) := by
  unfold recycle
  dsimp only
  generalize (if 2 < s.needToWriteBufVec.length then _ else _) = v
  cases refill s.newBuf1 v with
  | error e => rfl
  | ok r =>
    dsimp only [bind,Except.bind]
    cases refill s.newBuf2 r.2 with
    | error e => rfl
    | ok q => rfl

theorem Step.with_appended (h : Step s t) (hr : t.running = s.running)
    (ha : t.appended = s.appended) {w : Bytes} (hs : Inv { s with appended := w }) :
    Inv { t with appended := w } := by
  cases h with
  | @append _ str hlen h =>
    -- nothing but the empty message leaves the history as it was
    obtain ⟨hi,_,_,happ⟩ := append_keeps hs h
    have hnil : str = [] := List.append_right_eq_self.mp (happ.symm.trans ha)
    rwa [hnil,fitting,ite_self,List.append_nil] at hi
  | stop => exact @step_inv { s with appended := w } _ .stop hs
  | turn hp hrun => exact @step_inv { s with appended := w } _ (.turn hp hrun) hs
  | collect hp => exact @step_inv { s with appended := w } _ (.collect hp) hs
  | write hp h =>
    refine @step_inv { s with appended := w } _ (.write hp ?_) hs
    rw [write_with,h]
    rfl
  | recycle hp h =>
    refine @step_inv { s with appended := w } _ (.recycle hp ?_) hs
    rw [recycle_with,h]
    rfl

theorem recycle_frame (h : s.recycle = .ok t) :
    t.point = .head ∧ t.transBufVec = s.transBufVec ∧ t.cur = s.cur := by
  rw [recycle] at h
  dsimp only at h
  generalize (if 2 < s.needToWriteBufVec.length then _ else _) = v at h
  cases h1 : refill s.newBuf1 v with
  | error e =>
    rw [h1] at h
    cases h
  | ok r =>
    rw [h1] at h
    dsimp only [bind,Except.bind] at h
    cases h2 : refill s.newBuf2 r.2 with
    | error e =>
      rw [h2] at h
      cases h
    | ok q =>
      rw [h2] at h
      rw [← Except.ok.inj h]
      exact ⟨rfl,rfl,rfl⟩

theorem Step.leftover_eq (h : Step s t) (hr : s.running = false) {w : Bytes}
    (hs : Inv { s with appended := w }) :
    t.leftover = s.leftover ∧ (s.point = .head → t.point = .head) := by
  cases h with
  | append _ h =>
    obtain ⟨hrun,_⟩ := append_cases hs h
    cases hr.symm.trans hrun
  | stop => exact ⟨rfl,id⟩
  | turn _ hrun => cases hr.symm.trans hrun
  | collect hp =>
    refine ⟨?_,fun hhead => by cases hp.symm.trans hhead⟩
    cases hs.writer with
    | outside _ h1 h2 hv =>
      obtain ⟨b,hb,hd⟩ := h1
      dsimp only at hb hv
      simp [leftover,AsyncLogging.collect,hp,hb,hd,hv,vecBytes,ptrBytes]
    | spare _ hw _ _ _ => cases hp.symm.trans hw
    | bare _ hw _ _ _ => cases hp.symm.trans hw
  | @write _ p todo hp h =>
    refine ⟨?_,fun hhead => by cases hp.symm.trans hhead⟩
    cases p with
    | none => cases h
    | some b =>
      rw [← Except.ok.inj h]
      simp [leftover,hp]
  | recycle hp h =>
    obtain ⟨hpoint,htrans,hcur⟩ := recycle_frame h
    refine ⟨?_,fun _ => hpoint⟩
    simp [leftover,hp,hpoint,htrans,hcur]

end AsyncLogging

namespace Shutdown
open AsyncLogging

namespace Action

def message : Action → Bytes
  | .append str => str
  | _ => []

end Action

structure Inv (w : Bytes) (s : Shutdown) : Prop where
  log : AsyncLogging.Inv { s.log with appended := w }
  running : s.log.running = true ↔ s.destructor = .outside
  exited : s.exited = true → s.log.point = .head ∧ s.log.running = false
  returned : s.destructor = .returned → s.exited = true

variable {s t : Shutdown} {a : Action} {as : List (Shutdown×Action)} {w : Bytes}

theorem fitting_nil : fitting [] = [] := ite_self _

theorem step_inv (h : Step s a t) (hs : Inv w s) :
    Inv (w++fitting a.message) t ∧ t.log.appended = s.log.appended++a.message := by
  cases h with
  | append h =>
    obtain ⟨hi,hrun,hsame,happ⟩ := append_keeps hs.log h
    refine ⟨⟨hi,?_,fun he => ?_,hs.returned⟩,happ⟩
    · rw [← hs.running]
      dsimp only
      rw [hsame]
    · cases hrun.symm.trans (hs.exited he).2
  | backEnd h hr ha =>
    simp only [Action.message,fitting_nil,List.append_nil]
    refine ⟨⟨h.with_appended hr ha hs.log,?_,?_,hs.returned⟩,ha⟩
    · rw [← hs.running]
      dsimp only
      rw [hr]
    · intro he
      obtain ⟨hp,hoff⟩ := hs.exited he
      exact ⟨(h.leftover_eq hoff hs.log).2 hp,hr.trans hoff⟩
  | exit hp hr =>
    simp only [Action.message,fitting_nil,List.append_nil]
    exact ⟨⟨hs.log,hs.running,fun _ => ⟨hp,hr⟩,fun _ => rfl⟩,trivial⟩
  | store hd =>
    simp only [Action.message,fitting_nil,List.append_nil]
    refine ⟨⟨@AsyncLogging.step_inv { s.log with appended := w } _ .stop hs.log,?_,?_,?_⟩,trivial⟩
    · simp
    · exact fun he => ⟨(hs.exited he).1,rfl⟩
    · simp
  | notify hd =>
    simp only [Action.message,fitting_nil,List.append_nil]
    refine ⟨⟨hs.log,?_,hs.exited,?_⟩,trivial⟩
    · rw [hs.running,hd]
      simp
    · simp
  | join hd he =>
    simp only [Action.message,fitting_nil,List.append_nil]
    refine ⟨⟨hs.log,?_,hs.exited,fun _ => he⟩,trivial⟩
    rw [hs.running,hd]
    simp

theorem step_leftover (h : Step s a t) (hs : Inv w s) (hr : s.log.running = false) :
    t.log.running = false ∧ t.log.leftover = s.log.leftover := by
  cases h with
  | append h =>
    obtain ⟨_,hrun,_⟩ := append_keeps hs.log h
    cases hr.symm.trans hrun
  | backEnd h hsame _ => exact ⟨hsame.trans hr,(h.leftover_eq hr hs.log).1⟩
  | exit _ _ => exact ⟨hr,rfl⟩
  | store _ => exact ⟨rfl,rfl⟩
  | notify _ => exact ⟨hr,rfl⟩
  | join _ _ => exact ⟨hr,rfl⟩

def given (as : List (Shutdown×Action)) : Bytes := as.flatMap fun p => p.2.message

def taken (as : List (Shutdown×Action)) : Bytes := as.flatMap fun p => fitting p.2.message

theorem run_inv (h : Run Step s as t) (hs : Inv w s) :
    Inv (w++taken as) t ∧ t.log.appended = s.log.appended++given as := by
  induction h generalizing w with
  | nil => simpa [taken,given] using hs
  | cons h _ ih =>
    obtain ⟨hu,happ⟩ := step_inv h hs
    obtain ⟨ht,happs⟩ := ih hu
    rw [happs,happ]
    simpa [taken,given,List.append_assoc] using ht

theorem run_leftover (h : Run Step s as t) (hs : Inv w s) (hr : s.log.running = false) :
    t.log.leftover = s.log.leftover := by
  induction h generalizing w with
  | nil => rfl
  | cons h _ ih =>
    obtain ⟨hoff,hleft⟩ := step_leftover h hs hr
    rw [ih (step_inv h hs).1 hoff,hleft]

theorem taken_length_le (as : List (Shutdown×Action)) : (taken as).length ≤ (given as).length := by
  induction as with
  | nil => exact Nat.le_refl _
  | cons p as ih =>
    have hone : (fitting p.2.message).length ≤ p.2.message.length := by
      rw [fitting]
      split_ifs
      · exact Nat.le_refl _
      · exact Nat.zero_le _
    simp only [taken,given,List.flatMap_cons,List.length_append] at ih ⊢
    omega

theorem taken_eq_given_iff (as : List (Shutdown×Action)) :
    taken as = given as ↔ ∀ p∈as, p.2.message.length+1 < kLargeBuffer := by
  induction as with
  | nil => simp [taken,given]
  | cons p as ih =>
    have htaken : taken (p::as) = fitting p.2.message++taken as := rfl
    have hgiven : given (p::as) = p.2.message++given as := rfl
    rw [htaken,hgiven,List.forall_mem_cons,← ih]
    by_cases hfit : p.2.message.length+1 < kLargeBuffer
    · rw [fitting,if_pos hfit,List.append_cancel_left_eq]
      exact ⟨fun he => ⟨hfit,he⟩,And.right⟩
    · have hpos : 1 < kLargeBuffer := by decide
      have hle := taken_length_le as
      refine iff_of_false (fun he => ?_) fun h => hfit h.1
      have hlen := congrArg List.length he
      rw [fitting,if_neg hfit,List.nil_append,List.length_append] at hlen
      omega

theorem create_inv : Inv [] {} :=
  ⟨AsyncLogging.create_inv,by simp,(fun h => by cases h),fun h => by cases h⟩

theorem leftover_at_store (h : Run Step {} as s) (hret : s.destructor = .returned) :
    (∀ p∈as, p.2 = .store → p.1.log.leftover = []) ↔ s.log.leftover = [] := by
  have hsame : ∀ p∈as, p.2 = .store → s.log.leftover = p.1.log.leftover := by
    intro p hp hstore
    obtain ⟨before,after,u,_,hbefore,hu,hafter⟩ := h.of_mem hp
    have hi := (run_inv hbefore create_inv).1
    obtain ⟨x,a⟩ := p
    dsimp only at hstore hu hi ⊢
    subst hstore
    have hui := (step_inv hu hi).1
    cases hu with
    | store hd =>
      have hleft := run_leftover hafter hui rfl
      exact hleft
  constructor
  · intro hall
    obtain ⟨p,hp,u,hu,hbefore,hafter⟩ := h.exists_step (P := fun x => x.destructor ≠ .outside)
      (by simp) (by simp [hret])
    have hstore : p.2 = .store := by
      obtain ⟨x,a⟩ := p
      have hx : x.destructor = .outside := not_not.mp hbefore
      cases hu with
      | append _ => exact absurd hx hafter
      | backEnd _ _ _ => exact absurd hx hafter
      | exit _ _ => exact absurd hx hafter
      | store _ => rfl
      | notify hd => cases hx.symm.trans hd
      | join hd _ => cases hx.symm.trans hd
    rw [hsame p hp hstore]
    exact hall p hp hstore
  · intro hnil p hp hstore
    rw [← hsame p hp hstore]
    exact hnil

/-- When the destructor returns, what has been appended is in the file exactly if every
message fits a buffer and the writer, as `running_` was set, was on its way to a round or
had nothing to collect. -/
theorem destructor_writes_all_iff (h : Run Step {} as s) (hret : s.destructor = .returned)
    (hsmall : ∀ r∈s.log.rounds, r.length < 25) :
    s.log.file = s.log.appended ↔
      (∀ p∈as, p.2.message.length+1 < kLargeBuffer) ∧
      ∀ p∈as, p.2 = .store → p.1.log.leftover = [] := by
  obtain ⟨hs,happ⟩ := run_inv h create_inv
  rw [List.nil_append] at hs
  replace happ : s.log.appended = given as := happ
  obtain ⟨hhead,_⟩ := hs.exited (hs.returned hret)
  have hnone : s.log.awaiting = [] := by
    have hneed : s.log.needToWriteBufVec = [] := by
      cases hs.log.writer with
      | outside _ _ _ hv => exact hv
      | spare _ hw _ _ _ => cases hhead.symm.trans hw
      | bare _ hw _ _ _ => cases hhead.symm.trans hw
    simp [awaiting,hhead,hneed]
  have hfile : s.log.file++s.log.leftover = taken as := by
    have hall : s.log.file++vecBytes s.log.awaiting++vecBytes s.log.transBufVec++
        ptrBytes s.log.cur = taken as := hs.log.nothing_dropped hsmall
    have hleft : s.log.leftover = vecBytes s.log.transBufVec++ptrBytes s.log.cur := by
      simp [leftover,hhead]
    rw [hleft,← hall,hnone]
    simp [vecBytes]
  rw [leftover_at_store h hret,← taken_eq_given_iff,happ,← hfile]
  constructor
  · intro he
    have hle := taken_length_le as
    rw [← hfile,← he,List.length_append] at hle
    have hnil : s.log.leftover = [] := List.eq_nil_of_length_eq_zero (by omega)
    exact ⟨by rw [hnil,List.append_nil,he],hnil⟩
  · intro hboth
    obtain ⟨he,hnil⟩ := hboth
    rw [← he,hnil,List.append_nil]

def lostMessage : Shutdown where
  log := { running := false, cur := some ⟨[65],by decide⟩, appended := [65] }
  exited := true
  destructor := .returned

theorem lostMessage_reached : ∃ as, Run Step {} as lostMessage :=
  ⟨_,.cons (@Step.append {} _ [65] rfl) <| .cons (.store rfl) <| .cons (.exit rfl rfl) <|
    .cons (.notify rfl) <| .cons (.join rfl rfl) <| .nil _⟩

theorem message_lost : ¬ ∀ (as : List (Shutdown×Action)) (s : Shutdown), Run Step {} as s →
    s.destructor = .returned → (∀ r∈s.log.rounds, r.length < 25) →
    s.log.file = s.log.appended := by
  intro hall
  obtain ⟨as,h⟩ := lostMessage_reached
  have he := hall as lostMessage h rfl (by simp [lostMessage])
  cases he

theorem destructor_writes_all_iff_lostMessage : ∃ as, Run Step {} as lostMessage ∧
    (lostMessage.log.file = lostMessage.log.appended ↔
      (∀ p∈as, p.2.message.length+1 < kLargeBuffer) ∧
      ∀ p∈as, p.2 = .store → p.1.log.leftover = []) := by
  obtain ⟨as,h⟩ := lostMessage_reached
  exact ⟨as,h,destructor_writes_all_iff h rfl (by simp [lostMessage])⟩

end Shutdown
end AdlServer.Log
