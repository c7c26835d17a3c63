import AdlServer.GracefulShutdown

/-! A closed connection. Its channel is out of the kernel's interest list, and the only
calls that could bring it back are those that start or stop reading. -/
namespace AdlServer.Net
open Program Memory Cpp

section
variable {ι : Type} (p : Epoller ι) (i : ι) (c : Channel)

def Epoller.additions (p : Epoller ι) : Nat := p.calls.countP fun call => call.op = .ADD

theorem update_additions (op : CtlOp) :
    (p.update op i c).additions = p.additions+if op = .ADD then 1 else 0 := by
  have hcalls : (p.update op i c).calls = p.calls++[⟨op,c.fd,(p.interest c.fd).isSome⟩] := by
    unfold Epoller.update Epoller.epollCtl
    cases op <;> cases (p.interest c.fd).isSome <;> rfl
  rw [Epoller.additions]
  rw [hcalls,List.countP_append]
  cases op <;> rfl

theorem updateChannel_additions :
    (p.updateChannel i c).2.additions = p.additions+
      if c.status = .LISTEN ∨ c.status = .NOT_LISTEN ∧ c.noEvent = true then 0 else 1 := by
  have hadd := update_additions p i c .ADD
  unfold Epoller.additions at hadd ⊢
  rw [Epoller.updateChannel]
  cases hs : c.status with
  | INIT => exact hadd
  | DELETED => exact hadd
  | LISTEN =>
    have hdel := update_additions p i c .DEL
    have hmod := update_additions p i c .MOD
    cases hn : c.noEvent with
    | true => simpa [Epoller.additions] using hdel
    | false => simpa [Epoller.additions] using hmod
  | NOT_LISTEN =>
    cases hn : c.noEvent with
    | true => simp
    | false => simpa using hadd

theorem updateChannel_grows : p.additions ≤ (p.updateChannel i c).2.additions := by
  rw [updateChannel_additions]
  exact Nat.le_add_right _ _

theorem removeChannel_additions : (p.removeChannel i c).2.additions = p.additions := by
  rw [Epoller.removeChannel]
  split_ifs
  · exact update_additions _ i c .DEL
  · rfl

end

namespace Conn
variable {c d e : Conn} {us : List UserCall}

def added (c : Conn) : Nat := c.poller.additions

def Unregistered (c : Conn) : Prop := c.poller.interest c.channel.fd = none

/-- Closed, and out of the interest list. -/
structure Asleep (c : Conn) : Prop where
  state : c.state = .kDisconnected
  agrees : Agrees c.poller () c.channel
  idle : c.channel.noEvent = true
  status : c.channel.status = .NOT_LISTEN ∨ c.channel.status = .DELETED

theorem Asleep.not_listen (h : Asleep c) : c.channel.status ≠ .LISTEN := by
  intro hl
  cases h.status with
  | inl hs => cases hl.symm.trans hs
  | inr hs => cases hl.symm.trans hs

theorem Asleep.unregistered (h : Asleep c) : c.Unregistered := by
  rw [Unregistered]
  rw [h.agrees.interest,if_neg h.not_listen]

structure Apart (c d : Conn) : Prop where
  state : d.state = c.state
  channel : d.channel = c.channel
  poller : d.poller = c.poller
  reading : d.reading = c.reading
  pending : ∀ f∈d.pendingFunctors, f∈c.pendingFunctors ∨ Stage.Side f

theorem Apart.of_eq (hs : d.state = c.state) (hc : d.channel = c.channel)
    (hp : d.poller = c.poller) (hr : d.reading = c.reading)
    (hf : d.pendingFunctors = c.pendingFunctors) : Apart c d :=
  ⟨hs,hc,hp,hr,fun _ hm => .inl (hf ▸ hm)⟩

theorem Apart.refl (c : Conn) : Apart c c := .of_eq rfl rfl rfl rfl rfl

theorem Apart.trans (h : Apart c d) (h' : Apart d e) : Apart c e := by
  refine ⟨h'.state.trans h.state,h'.channel.trans h.channel,h'.poller.trans h.poller,
    h'.reading.trans h.reading,fun f hf => ?_⟩
  cases h'.pending f hf with
  | inl hf => exact h.pending f hf
  | inr hf => exact .inr hf

theorem Apart.added (h : Apart c d) : d.added = c.added := by
  unfold Conn.added
  rw [h.poller]

theorem Apart.asleep (h : Apart c d) (hc : Asleep c) : Asleep d := by
  refine ⟨h.state.trans hc.state,?_,?_,?_⟩
  · rw [h.poller,h.channel]
    exact hc.agrees
  · rw [h.channel]
    exact hc.idle
  · rw [h.channel]
    exact hc.status

/-! Calls on a closed connection. -/

/-- The call makes a closed connection's channel known to the kernel again. -/
def UserCall.Arms (c : Conn) : UserCall → Prop
  | .startRead => True
  | .stopRead => c.channel.status = .DELETED ∧ c.reading = true
  | _ => False

inductive ClosedCall (c : Conn) : UserCall → Conn → Prop where
  | aside {u : UserCall} {d : Conn} (hu : u ≠ .startRead ∧ u ≠ .stopRead) (h : Apart c d) :
    ClosedCall c u d
  | start : ClosedCall c .startRead c.startReadInLoop
  | stop : ClosedCall c .stopRead c.stopReadInLoop

theorem apply_closed (hs : c.state = .kDisconnected) {u : UserCall}
    (hd : (u.apply c).Returns d) : ClosedCall c u d := by
  have hopen : c.state ≠ .kConnected := by simp [hs]
  cases u with
  | send m a =>
    change (c.send m a).Returns d at hd
    rw [send_refused hopen] at hd
    cases (Prog.returns_pure _ _).mp hd
    exact .aside (by simp) (.refl c)
  | sendFile fd size a reads =>
    change (c.sendFile fd size a reads).Returns d at hd
    rw [sendFile] at hd
    rw [if_neg hopen,ite_self] at hd
    cases (Prog.returns_pure _ _).mp hd
    exact .aside (by simp) (.refl c)
  | shutdown =>
    cases (Prog.returns_pure _ _).mp hd
    rw [shutdown_refused hopen]
    exact .aside (by simp) (.refl c)
  | forceClose =>
    cases (Prog.returns_pure _ _).mp hd
    have he : c.forceClose = c := if_neg (by simp [hs])
    rw [he]
    exact .aside (by simp) (.refl c)
  | startRead =>
    cases (Prog.returns_pure _ _).mp hd
    exact .start
  | stopRead =>
    cases (Prog.returns_pure _ _).mp hd
    exact .stop
  | retrieve len =>
    obtain ⟨b,_,hb⟩ := (Prog.returns_bind _ _ _).mp hd
    cases (Prog.returns_pure _ _).mp hb
    exact .aside (by simp) (.of_eq rfl rfl rfl rfl rfl)
  | retrieveAll =>
    cases (Prog.returns_pure _ _).mp hd
    exact .aside (by simp) (.of_eq rfl rfl rfl rfl rfl)
  | xopen fd content =>
    simp only [UserCall.apply] at hd
    split_ifs at hd with hfree
    · cases (Prog.returns_pure _ _).mp hd
      exact .aside (by simp) (.of_eq rfl rfl rfl rfl rfl)
    · cases (Prog.returns_pure _ _).mp hd
      exact .aside (by simp) (.refl c)

theorem startReadInLoop_asleep (h : Asleep c) : c.startReadInLoop.added = c.added+1 := by
  have hadd := updateChannel_additions c.poller ()
    { c.channel with events := c.channel.events|||kReadEvent }
  have hno : ({ c.channel with events := c.channel.events|||kReadEvent } : Channel).noEvent =
      false := by
    by_contra hn
    rw [Bool.not_eq_false] at hn
    have hr := Channel.isReading_of_noEvent hn
    simp only [Channel.isReading,bne_eq_false_iff_eq] at hr
    exact enableReading_read _ hr
  rw [hno,if_neg (by simp [h.not_listen])] at hadd
  have he : c.startReadInLoop =
      { c.onChannel Channel.enableReading with reading := true } := by
    rw [startReadInLoop]
    rw [Channel.isReading_of_noEvent h.idle,if_pos (by simp)]
  rw [he]
  exact hadd

theorem disableReading_idle (h : c.channel.noEvent = true) :
    ({ c.channel with events := c.channel.events&&&~~~kReadEvent } : Channel) = c.channel := by
  have he : c.channel.events = kNoneEvent := by simpa [Channel.noEvent] using h
  have hnone : kNoneEvent&&&~~~kReadEvent = kNoneEvent := by decide
  rw [he,hnone,← he]

theorem stopReadInLoop_asleep (h : Asleep c) :
    (c.channel.status = .DELETED ∧ c.reading = true ∧ c.stopReadInLoop.added = c.added+1) ∨
    (¬ (c.channel.status = .DELETED ∧ c.reading = true) ∧
      c.stopReadInLoop.channel = c.channel ∧ c.stopReadInLoop.poller = c.poller ∧
      c.stopReadInLoop.state = c.state ∧ c.stopReadInLoop.reading = false) := by
  have hnot := Channel.isReading_of_noEvent h.idle
  rw [stopReadInLoop]
  rw [hnot,Bool.or_false]
  cases hr : c.reading with
  | false =>
    rw [if_neg (by simp)]
    exact .inr ⟨by simp,rfl,rfl,rfl,hr⟩
  | true =>
    rw [if_pos rfl]
    have hadd := updateChannel_additions c.poller () c.channel
    have hop : c.onChannel Channel.disableReading = c.onChannel fun ch i p => p.updateChannel i ch := by
      unfold onChannel Channel.disableReading
      rw [disableReading_idle h.idle]
    rw [hop]
    cases h.status with
    | inr hdel =>
      rw [if_neg (by simp [hdel])] at hadd
      exact .inl ⟨hdel,rfl,hadd⟩
    | inl hnl =>
      have hsame : c.poller.updateChannel () c.channel = (c.channel,c.poller) := by
        rw [Epoller.updateChannel]
        rw [hnl,h.idle]
        rfl
      refine .inr ⟨by simp [hnl],?_,?_,rfl,rfl⟩
      · simp only [onChannel,hsame]
      · simp only [onChannel,hsame]

theorem startReadInLoop_grows (c : Conn) : c.added ≤ c.startReadInLoop.added := by
  rw [startReadInLoop]
  split_ifs
  · exact updateChannel_grows _ _ _
  · exact Nat.le_refl _

theorem stopReadInLoop_grows (c : Conn) : c.added ≤ c.stopReadInLoop.added := by
  rw [stopReadInLoop]
  split_ifs
  · exact updateChannel_grows _ _ _
  · exact Nat.le_refl _

theorem startReadInLoop_state (c : Conn) : c.startReadInLoop.state = c.state := by
  rw [startReadInLoop]
  split_ifs <;> rfl

theorem stopReadInLoop_state (c : Conn) : c.stopReadInLoop.state = c.state := by
  rw [stopReadInLoop]
  split_ifs <;> rfl

theorem ClosedCall.stays {u : UserCall} (h : ClosedCall c u d) :
    d.state = c.state ∧ c.added ≤ d.added := by
  cases h with
  | aside _ h => exact ⟨h.state,Nat.le_of_eq h.added.symm⟩
  | start => exact ⟨startReadInLoop_state c,startReadInLoop_grows c⟩
  | stop => exact ⟨stopReadInLoop_state c,stopReadInLoop_grows c⟩

theorem calls_closed (hs : c.state = .kDisconnected) (hd : (calls us c).Returns d) :
    d.state = .kDisconnected ∧ c.added ≤ d.added := by
  induction us generalizing c with
  | nil =>
    cases (Prog.returns_pure _ _).mp hd
    exact ⟨hs,Nat.le_refl _⟩
  | cons u us ih =>
    obtain ⟨e,he,hrest⟩ := (Prog.returns_bind _ _ _).mp hd
    obtain ⟨hstate,hadd⟩ := (apply_closed hs he).stays
    obtain ⟨hlast,hadd'⟩ := ih (hstate.trans hs) hrest
    exact ⟨hlast,hadd.trans hadd'⟩

theorem ClosedCall.asleep {u : UserCall} (h : ClosedCall c u d) (hc : Asleep c)
    (hu : ¬ u.Arms c) :
    Asleep d ∧ d.added = c.added ∧ ∀ v : UserCall, v.Arms d ↔ v.Arms c := by
  have arms (hch : d.channel = c.channel)
      (hr : c.channel.status = .DELETED → d.reading = c.reading) (v : UserCall) :
      v.Arms d ↔ v.Arms c := by
    cases v with
    | stopRead =>
      change d.channel.status = .DELETED ∧ _ ↔ c.channel.status = .DELETED ∧ _
      rw [hch]
      exact and_congr_right fun hdel => by rw [hr hdel]
    | _ => exact Iff.rfl
  cases h with
  | aside _ h => exact ⟨h.asleep hc,h.added,arms h.channel fun _ => h.reading⟩
  | start => exact absurd trivial hu
  | stop =>
    cases stopReadInLoop_asleep hc with
    | inl hdel => exact absurd ⟨hdel.1,hdel.2.1⟩ hu
    | inr hsame =>
      obtain ⟨hno,hch,hp,hst,hr⟩ := hsame
      refine ⟨⟨hst.trans hc.state,?_,?_,?_⟩,?_,arms hch fun hdel => ?_⟩
      · rw [hp,hch]
        exact hc.agrees
      · rw [hch]
        exact hc.idle
      · rw [hch]
        exact hc.status
      · unfold added
        rw [hp]
      · rw [hr]
        cases hcr : c.reading with
        | false => rfl
        | true => exact absurd ⟨hdel,hcr⟩ hno

theorem ClosedCall.armed {u : UserCall} (h : ClosedCall c u d) (hc : Asleep c)
    (hu : u.Arms c) : c.added < d.added := by
  cases h with
  | aside hne h =>
    cases u with
    | startRead => exact absurd rfl hne.1
    | stopRead => exact absurd rfl hne.2
    | _ => exact hu.elim
  | start => exact Nat.lt_of_succ_le (Nat.le_of_eq (startReadInLoop_asleep hc).symm)
  | stop =>
    cases stopReadInLoop_asleep hc with
    | inl hdel => exact Nat.lt_of_succ_le (Nat.le_of_eq hdel.2.2.symm)
    | inr hsame => exact absurd hu hsame.1

theorem calls_asleep (h : Asleep c) (hd : (calls us c).Returns d) :
    (Asleep d ∧ d.added = c.added ∧ ∀ u∈us, ¬ u.Arms c) ∨
    (c.added < d.added ∧ ∃ u∈us, u.Arms c) := by
  induction us generalizing c with
  | nil =>
    cases (Prog.returns_pure _ _).mp hd
    exact .inl ⟨h,rfl,by simp⟩
  | cons u us ih =>
    obtain ⟨e,he,hrest⟩ := (Prog.returns_bind _ _ _).mp hd
    have hcall := apply_closed h.state he
    by_cases hu : u.Arms c
    · have hlt := hcall.armed h hu
      have hle := (calls_closed (hcall.stays.1.trans h.state) hrest).2
      exact .inr ⟨Nat.lt_of_lt_of_le hlt hle,u,List.mem_cons_self,hu⟩
    · obtain ⟨hasleep,hadd,harms⟩ := hcall.asleep h hu
      cases ih hasleep hrest with
      | inl hquiet =>
        obtain ⟨hd',hadd',hall⟩ := hquiet
        refine .inl ⟨hd',hadd'.trans hadd,fun v hv => ?_⟩
        cases List.mem_cons.mp hv with
        | inl hv => rwa [hv]
        | inr hv => exact fun ha => hall v hv ((harms v).mpr ha)
      | inr harmed =>
        obtain ⟨hlt,v,hv,ha⟩ := harmed
        exact .inr ⟨hadd ▸ hlt,v,List.mem_cons_of_mem _ hv,(harms v).mp ha⟩

/-! Events on a closed connection. -/

def Event.made (c : Conn) : Event → List UserCall
  | .call u => [u]
  | .runFunctor us => if c.pendingFunctors.head? = some .writeCompleteCallback then us else []
  | _ => []

/-- None of the event's calls brings the channel back. -/
def Heeds (c : Conn) (e : Event) : Prop := ∀ u∈e.made c, ¬ u.Arms c

inductive ClosedEvent (c : Conn) (e : Event) (d : Conn) : Prop where
  | quiet (hd : Asleep d) (ha : d.added = c.added) (he : Heeds c e)
  | armed (ha : c.added < d.added) (he : ¬ Heeds c e)

theorem ClosedEvent.of_apart {e : Event} (hc : Asleep c) (h : Apart c d) (he : e.made c = []) :
    ClosedEvent c e d := .quiet (h.asleep hc) h.added (by simp [Heeds,he])

theorem Asleep.popped (h : Asleep c) (fs : List Functor) :
    Asleep { c with pendingFunctors := fs } := ⟨h.state,h.agrees,h.idle,h.status⟩

theorem connectDestroyed_asleep {callback : Conn → Prog Fault Conn} (h : Asleep c)
    (hd : (c.connectDestroyed callback).Returns d) : Asleep d ∧ d.added = c.added := by
  have hopen : ¬ (c.act (.connectDestroyed c.state)).state = .kConnected := by simp [act,h.state]
  rw [connectDestroyed,disconnect] at hd
  rw [if_neg hopen,Prog.pure_bind] at hd
  cases (Prog.returns_pure _ _).mp hd
  obtain ⟨hu,hst⟩ := removeChannel_spec h.agrees
  exact ⟨⟨h.state,hu.agrees,h.idle,.inr hst⟩,removeChannel_additions c.poller () c.channel⟩

theorem runFunctor_asleep (h : Asleep c) (hd : (c.runFunctor (calls us)).Returns d) :
    ClosedEvent c (.runFunctor us) d := by
  rw [runFunctor] at hd
  cases hfs : c.pendingFunctors with
  | nil =>
    rw [hfs] at hd
    cases (Prog.returns_pure _ _).mp hd
    exact .of_apart h (.refl c) (by simp [Event.made,hfs])
  | cons f fs =>
    rw [hfs] at hd
    have other (hf : f ≠ .writeCompleteCallback) : (Event.runFunctor us).made c = [] := by
      simp [Event.made,hfs,hf]
    have hpop := h.popped fs
    cases f with
    | addConnectInLoop =>
      cases (Prog.returns_pure _ _).mp hd
      exact .quiet ⟨hpop.state,hpop.agrees,hpop.idle,hpop.status⟩ rfl
        (by simp [Heeds,other])
    | connectEstablished =>
      dsimp only [connectEstablished] at hd
      simp [check,h.state,Prog.returns_bind] at hd
    | writeCompleteCallback =>
      have hmade : (Event.runFunctor us).made c = us := by simp [Event.made,hfs]
      cases calls_asleep hpop hd with
      | inl hquiet =>
        obtain ⟨hasleep,hadd,hall⟩ := hquiet
        refine .quiet hasleep hadd fun u hu => ?_
        rw [hmade] at hu
        exact hall u hu
      | inr harmed =>
        obtain ⟨hlt,u,hu,ha⟩ := harmed
        exact .armed hlt fun hheeds => hheeds u (by rwa [hmade]) ha
    | forceCloseInLoop =>
      have hno : ¬ (c.state = .kConnected ∨ c.state = .kDisconnecting) := by simp [h.state]
      dsimp only [forceCloseInLoop] at hd
      rw [if_neg hno] at hd
      cases (Prog.returns_pure _ _).mp hd
      exact .quiet hpop rfl (by simp [Heeds,other])
    | connectDestroyed =>
      obtain ⟨hasleep,hadd⟩ := connectDestroyed_asleep hpop hd
      exact .quiet hasleep hadd (by simp [Heeds,other])

theorem step_asleep (h : Asleep c) {e : Event} (hd : (c.step e).Returns d) :
    ClosedEvent c e d := by
  cases e with
  | call u =>
    have hcall := apply_closed h.state hd
    by_cases hu : u.Arms c
    · exact .armed (hcall.armed h hu) fun hheeds => hheeds u (by simp [Event.made]) hu
    · obtain ⟨hasleep,hadd,_⟩ := hcall.asleep h hu
      exact .quiet hasleep hadd (by simpa [Heeds,Event.made] using hu)
  | handleWrite a =>
    change (c.handleWrite a).Returns d at hd
    rw [handleWrite_idle (Channel.isWriting_of_noEvent h.idle)] at hd
    cases (Prog.returns_pure _ _).mp hd
    exact .of_apart h (.refl c) rfl
  | handleEvent revents answers us a =>
    have hno : c.poller.interest c.channel.fd = none := h.unregistered
    simp only [step,if_pos hno] at hd
    cases (Prog.returns_pure _ _).mp hd
    exact .of_apart h (.refl c) rfl
  | runFunctor us => exact runFunctor_asleep h hd

def Unheard (c : Conn) : Prop :=
  ∀ revents answers us a, c.step (.handleEvent revents answers us a) = pure c

theorem Asleep.unheard (h : Asleep c) : c.Unheard := fun _ _ _ _ => if_pos h.unregistered

/-- In every state that the events lead to, the channel has not been added again since `c`,
the kernel does not know it, and no callback of it runs. -/
def NeverArmed (c : Conn) (es : List Event) : Prop :=
  ∀ before after d, es = before++after → (run c before).Returns d →
    d.added = c.added ∧ d.Unregistered ∧ d.Unheard

theorem run_cons {e : Event} {es : List Event} (hd : (c.step e).Returns d) (o : Except Fault Conn) :
    (run c (e::es)).Ends o ↔ (run d es).Ends o := hd.ends_bind _ o

theorem neverArmed_iff (h : Asleep c) {es : List Event} (hrun : (run c es).Returns d) :
    NeverArmed c es ↔ Steps Heeds c es := by
  induction es generalizing c with
  | nil =>
    refine iff_of_true (fun before after e hes he => ?_) trivial
    have hnil := (List.append_eq_nil_iff.mp hes.symm).1
    subst hnil
    cases (Prog.returns_pure _ _).mp he
    exact ⟨rfl,h.unregistered,h.unheard⟩
  | cons e es ih =>
    obtain ⟨f,hf,hrest⟩ := (Prog.returns_bind _ _ _).mp hrun
    rw [steps_cons hf]
    cases step_asleep h hf with
    | armed ha he =>
      refine iff_of_false (fun hnever => ?_) fun hall => he hall.1
      have hone := (hnever [e] es f rfl ((run_cons hf _).mpr (Prog.returns_self f))).1
      omega
    | quiet hasleep ha he =>
      rw [← ih hasleep hrest]
      constructor
      · intro hnever
        refine ⟨he,fun before after g hes hg => ?_⟩
        have hlater := hnever (e::before) after g (by rw [hes]; rfl) ((run_cons hf _).mpr hg)
        rwa [← ha] at hlater
      · intro hall before after g hes hg
        cases before with
        | nil =>
          cases (Prog.returns_pure _ _).mp hg
          exact ⟨rfl,h.unregistered,h.unheard⟩
        | cons e' before =>
          obtain ⟨he',hes'⟩ := List.cons.inj hes
          subst he'
          rw [← ha]
          exact hall.2 before after g hes' ((run_cons hf _).mp hg)

/-! The way there. -/

structure Awake (c : Conn) : Prop where
  state : c.state ≠ .kDisconnected
  agrees : Agrees c.poller () c.channel
  listed : c.state ≠ .kConnecting → c.channel.status = .LISTEN ∨ c.channel.status = .NOT_LISTEN
  pending : .connectDestroyed∉c.pendingFunctors

theorem side_ne_connectDestroyed {fs gs : List Functor} (h : .connectDestroyed∉fs)
    (hgs : ∀ f∈gs, f∈fs ∨ Stage.Side f) : .connectDestroyed∉gs := by
  intro hm
  cases hgs _ hm with
  | inl hf => exact h hf
  | inr hf => exact ne_of_side hf rfl

theorem Apart.awake (h : Apart c d) (hc : Awake c) : Awake d := by
  refine ⟨?_,?_,?_,side_ne_connectDestroyed hc.pending h.pending⟩
  · rw [h.state]
    exact hc.state
  · rw [h.poller,h.channel]
    exact hc.agrees
  · rw [h.state,h.channel]
    exact hc.listed

theorem updateChannel_listed (p : Epoller Unit) (ch : Channel) :
    (p.updateChannel () ch).1.status = .LISTEN ∨ (p.updateChannel () ch).1.status = .NOT_LISTEN := by
  rw [updateChannel_status]
  split_ifs
  · exact .inr rfl
  · exact .inl rfl

theorem onChannel_awake (h : Awake c) {op : Channel → Unit → Epoller Unit → Channel×Epoller Unit}
    {ev : Events}
    (hop : op c.channel () c.poller = c.poller.updateChannel () { c.channel with events := ev }) :
    Awake (c.onChannel op) := by
  have hu := (updateChannel_spec h.agrees ev).1
  rw [onChannel]
  rw [hop]
  exact ⟨h.state,hu.agrees,fun _ => updateChannel_listed _ _,h.pending⟩

theorem write_apart (c : Conn) (m : Bytes) (a : WriteAnswer) : Apart c (c.write m a).1 := by
  cases a <;> exact .of_eq rfl rfl rfl rfl rfl

theorem sendfile_apart (c : Conn) (fd : Int) (count : Nat) (a : WriteAnswer) :
    Apart c (c.sendfile fd count a).1 := by
  unfold sendfile
  dsimp only
  cases (c.act (.file .sendfile fd)).files fd with
  | none => exact .of_eq rfl rfl rfl rfl rfl
  | some f => cases a <;> exact .of_eq rfl rfl rfl rfl rfl

theorem queueWriteComplete_apart (c : Conn) : Apart c c.queueWriteComplete := by
  refine queueWriteComplete_cases (.refl c) ⟨rfl,rfl,rfl,rfl,fun f hf => ?_⟩
  cases List.mem_append.mp hf with
  | inl hf => exact .inl hf
  | inr hf => exact .inr (.inl (List.mem_singleton.mp hf))

theorem directWrite_apart (c : Conn) (message : Option Bytes) (fd size : Int) (a : WriteAnswer) :
    Apart c (c.directWrite message fd size a).1 :=
  directWrite_rule (P := fun d => Apart c d) (sendfile_apart c fd _ a) (write_apart c _ a)
    (fun d hd => hd.trans (queueWriteComplete_apart d))
    fun _ hd => hd.trans (.of_eq rfl rfl rfl rfl rfl)

theorem tryFirst_apart (c : Conn) (message : Option Bytes) (fd size : Int) (a : WriteAnswer) :
    Apart c (c.tryFirst message fd size a).1 := by
  by_cases hi : c.idle
  · rw [tryFirst_idle hi]
    exact directWrite_apart c message fd size a
  · rw [tryFirst_busy hi]
    exact .refl c

theorem bufferRest_awake (h : Awake c) (message : Option Bytes) (fd : Int) (sent : Sent)
    (reads : List FileAnswer) :
    Prog.Ensures (c.bufferRest message fd sent reads) Awake fun _ => True := by
  refine Prog.Ensures.bind (Q := Apart c) ?_ fun d hd => Prog.ensures_pure ?_
  · split_ifs
    · exact (Prog.ensures_true _).bind fun _ _ => Prog.ensures_pure (.of_eq rfl rfl rfl rfl rfl)
    · exact (Prog.ensures_true _).bind fun _ _ => Prog.ensures_pure (.of_eq rfl rfl rfl rfl rfl)
  · split_ifs
    · exact onChannel_awake (hd.awake h) rfl
    · exact hd.awake h

theorem sendInLoop_awake (h : Awake c) (message : Option Bytes) (fd size : Int)
    (a : WriteAnswer) (reads : List FileAnswer) :
    Prog.Ensures (c.sendInLoop message fd size a reads) Awake fun _ => True := by
  have hfirst := (tryFirst_apart c message fd size a).awake h
  exact sendInLoop_halves h.state trivial (fun _ => bufferRest_awake hfirst _ _ _ _) fun _ => hfirst

theorem disconnecting_awake (h : Awake c) (hs : c.state ≠ .kConnecting) :
    Awake (c.setState .kDisconnecting) := ⟨by simp [setState,act],h.agrees,fun _ => h.listed hs,h.pending⟩

theorem shutdownWriteInLoop_apart (c : Conn) : Apart c c.shutdownWriteInLoop := by
  rw [shutdownWriteInLoop]
  split_ifs
  · exact .of_eq rfl rfl rfl rfl rfl
  · exact .refl c

theorem queueInLoop_awake (h : Awake c) {f : Functor} (hf : Stage.Side f) :
    Awake (c.queueInLoop f) := by
  have hq : Apart c (c.queueInLoop f) := by
    refine ⟨rfl,rfl,rfl,rfl,fun g hg => ?_⟩
    cases List.mem_append.mp hg with
    | inl hg => exact .inl hg
    | inr hg => exact .inr (List.mem_singleton.mp hg ▸ hf)
  exact hq.awake h

theorem apply_awake (h : Awake c) (u : UserCall) :
    Prog.Ensures (u.apply c) Awake fun _ => True := by
  have inOpen (message : Option Bytes) (fd size : Int) (a : WriteAnswer) (reads : List FileAnswer) :
      Prog.Ensures
        (if c.state = .kConnected then c.sendInLoop message fd size a reads else pure c)
        Awake fun _ => True := by
    split_ifs
    · exact sendInLoop_awake h _ _ _ _ _
    · exact Prog.ensures_pure h
  cases u with
  | send m a => exact inOpen _ _ _ _ _
  | sendFile fd size a reads =>
    change Prog.Ensures (c.sendFile fd size a reads) _ _
    rw [sendFile]
    by_cases hfd : fd < 0
    · rw [if_pos hfd]
      exact Prog.ensures_pure h
    · rw [if_neg hfd]
      exact inOpen _ _ _ _ _
  | shutdown =>
    refine Prog.ensures_pure ?_
    rw [shutdown]
    split_ifs with hs
    · exact (shutdownWriteInLoop_apart _).awake (disconnecting_awake h (by simp [hs]))
    · exact h
  | forceClose =>
    refine Prog.ensures_pure ?_
    rw [forceClose]
    split_ifs with hs
    · refine queueInLoop_awake (disconnecting_awake h ?_) (.inr rfl)
      cases hs with
      | inl hs => simp [hs]
      | inr hs => simp [hs]
    · exact h
  | startRead =>
    refine Prog.ensures_pure ?_
    rw [startReadInLoop]
    split_ifs
    · exact { @onChannel_awake c h Channel.enableReading _ rfl with }
    · exact h
  | stopRead =>
    refine Prog.ensures_pure ?_
    rw [stopReadInLoop]
    split_ifs
    · exact { @onChannel_awake c h Channel.disableReading _ rfl with }
    · exact h
  | retrieve len => exact (Prog.ensures_true _).bind fun _ _ => Prog.ensures_pure { h with }
  | retrieveAll => exact Prog.ensures_pure { h with }
  | xopen fd content =>
    simp only [UserCall.apply]
    split_ifs
    · exact Prog.ensures_pure { h with }
    · exact Prog.ensures_pure h

theorem calls_awake (h : Awake c) (us : List UserCall) :
    Prog.Ensures (calls us c) Awake fun _ => True := by
  induction us generalizing c with
  | nil => exact Prog.ensures_pure h
  | cons u us ih => exact (apply_awake h u).bind fun d hd => ih hd

theorem handleClose_asleep (h : Awake c) :
    Prog.Ensures c.handleClose Asleep fun _ => True := by
  refine (ensures_check .handleClose fun _ => trivial).bind fun _ hopen => Prog.ensures_pure ?_
  have hs : c.state ≠ .kConnecting := by
    cases hopen with
    | inl hs => simp [hs]
    | inr hs => simp [hs]
  obtain ⟨hu,hev⟩ := updateChannel_spec h.agrees kNoneEvent
  have hst := updateChannel_status c.poller () { c.channel with events := kNoneEvent }
  rw [if_pos ⟨decide_eq_true rfl,h.listed hs⟩] at hst
  exact ⟨rfl,hu.agrees,decide_eq_true hev,.inl hst⟩

theorem handleWrite_awake (h : Awake c) (a : WriteAnswer) :
    Prog.Ensures (c.handleWrite a) Awake fun _ => True := by
  refine handleWrite_rule h ((write_apart c c.outputBuffer.contents a).awake h)
    (fun d b hd => { hd with }) fun d hd => ?_
  have hoff := (queueWriteComplete_apart _).awake
    (@onChannel_awake d hd Channel.disableWriting _ rfl)
  rw [flushed]
  split_ifs
  · exact (shutdownWriteInLoop_apart _).awake hoff
  · exact hoff

theorem handleRead_awake (h : Awake c) (us : List UserCall) (answers : List ReadAnswer) :
    Prog.Ensures (c.handleRead (calls us) answers) (fun d => Awake d ∨ Asleep d)
      fun _ => True := by
  refine (Prog.ensures_true _).bind fun r _ => ?_
  obtain ⟨ret,socket,b⟩ := r
  have hc : Awake { c with inputBuffer := b, received := c.received++socket.received } :=
    { h with }
  dsimp only
  split_ifs
  · exact (handleClose_asleep hc).mono (fun _ => .inr) fun _ => id
  · exact (calls_awake hc us).mono (fun _ => .inl) fun _ => id
  · exact Prog.ensures_pure (.inl hc)

def Event.HangsUpAlone : Event → Prop
  | .handleEvent revents _ _ _ => Conn.HangsUpAlone revents
  | _ => True

/-- What a step leads to that begins awake: it closes the connection or does not, and only
behind a hang-up that leaves something to read is it unclear what becomes of the channel. -/
structure Woken (e : Event) (d : Conn) : Prop where
  closed : Awake d ∨ d.state = .kDisconnected
  asleep : e.HangsUpAlone → Awake d ∨ Asleep d

theorem Woken.awake (h : Awake d) (e : Event) : Woken e d := ⟨.inl h,fun _ => .inl h⟩

theorem Woken.of_asleep (h : Asleep d) (e : Event) : Woken e d := ⟨.inr h.state,fun _ => .inr h⟩

theorem Woken.of_or (h : Awake d ∨ Asleep d) (e : Event) : Woken e d :=
  h.elim (Woken.awake · e) (Woken.of_asleep · e)

theorem handleWrite_awake_or (h : Awake c ∨ Asleep c) (a : WriteAnswer) :
    Prog.Ensures (c.handleWrite a) (fun d => Awake d ∨ Asleep d) fun _ => True := by
  cases h with
  | inl h => exact (handleWrite_awake h a).mono (fun _ => .inl) fun _ => id
  | inr h =>
    rw [handleWrite_idle (Channel.isWriting_of_noEvent h.idle)]
    exact Prog.ensures_pure (.inr h)

theorem handleEvent_awake (h : Awake c) {revents : Events} (hrev : HangsUpAlone revents)
    (answers : List ReadAnswer) (us : List UserCall) (a : WriteAnswer) :
    Prog.Ensures (c.handleEvent (calls us) revents answers a) (fun d => Awake d ∨ Asleep d)
      fun _ => True := by
  have last {d : Conn} (hd : Awake d ∨ Asleep d) :
      Prog.Ensures (if revents&&&EPOLLOUT ≠ 0 then d.handleWrite a else pure d)
        (fun d => Awake d ∨ Asleep d) fun _ => True := by
    split_ifs
    · exact handleWrite_awake_or hd a
    · exact Prog.ensures_pure hd
  rw [handleEvent,onHup]
  by_cases hhup : revents&&&EPOLLHUP ≠ 0 ∧ revents&&&EPOLLIN = 0
  · rw [if_pos hhup]
    refine (handleClose_asleep h).bind fun d hd => ?_
    rw [onReadable]
    rw [if_neg (not_not.mpr (not_readable hrev hhup))]
    exact (Prog.ensures_pure (Q := fun d => Awake d ∨ Asleep d) (.inr hd)).bind fun _ => last
  · rw [if_neg hhup]
    refine (Prog.ensures_pure (Q := Awake) h).bind fun d hd => ?_
    refine Prog.Ensures.bind (Q := fun d => Awake d ∨ Asleep d) ?_ fun _ => last
    rw [onReadable]
    split_ifs
    · exact handleRead_awake hd us answers
    · exact Prog.ensures_pure (.inl hd)

theorem Awake.popped (h : Awake c) {f : Functor} {fs : List Functor}
    (hfs : c.pendingFunctors = f::fs) : Awake { c with pendingFunctors := fs } :=
  ⟨h.state,h.agrees,h.listed,fun hm => h.pending (hfs ▸ List.mem_cons_of_mem f hm)⟩

theorem runFunctor_awake (h : Awake c) (us : List UserCall) :
    Prog.Ensures (c.runFunctor (calls us)) (fun d => Awake d ∨ Asleep d) fun _ => True := by
  rw [runFunctor]
  cases hfs : c.pendingFunctors with
  | nil => exact Prog.ensures_pure (.inl h)
  | cons f fs =>
    have hpop := h.popped hfs
    cases f with
    | addConnectInLoop => exact Prog.ensures_pure (.inl { hpop with })
    | connectEstablished =>
      refine (ensures_check .connectEstablished fun _ => trivial).bind fun _ _ => ?_
      have hset : Awake
          ((({ c with pendingFunctors := fs } : Conn).setState .kConnected).onChannel
            Channel.enableReading) := by
        obtain ⟨hu,_⟩ := updateChannel_spec h.agrees (c.channel.events|||kReadEvent)
        exact ⟨by simp [onChannel,setState,act],hu.agrees,fun _ => updateChannel_listed _ _,
          hpop.pending⟩
      exact (calls_awake hset us).mono (fun _ => .inl) fun _ => id
    | writeCompleteCallback => exact (calls_awake hpop us).mono (fun _ => .inl) fun _ => id
    | forceCloseInLoop =>
      dsimp only [forceCloseInLoop]
      split_ifs
      · exact (handleClose_asleep hpop).mono (fun _ => .inr) fun _ => id
      · exact Prog.ensures_pure (.inl hpop)
    | connectDestroyed => exact absurd (hfs ▸ List.mem_cons_self) h.pending

/-! Closed is for ever, even where the channel has been armed again. -/

theorem handleClose_closed (hs : c.state = .kDisconnected) : ¬ c.handleClose.Returns d := by
  intro hd
  simp [handleClose,check,hs,Prog.returns_bind] at hd

theorem handleWrite_state (c : Conn) (a : WriteAnswer) :
    Prog.Ensures (c.handleWrite a) (fun d => d.state = c.state) fun _ => True :=
  handleWrite_rule (P := fun d => d.state = c.state) rfl
    (write_apart c c.outputBuffer.contents a).state (fun _ _ hd => hd)
    fun d hd => (flushed_frame d).1.trans hd

theorem handleRead_staysClosed (hs : c.state = .kDisconnected) {answers : List ReadAnswer}
    (hd : (c.handleRead (calls us) answers).Returns d) : d.state = .kDisconnected := by
  obtain ⟨⟨ret,socket,b⟩,_,hd'⟩ := (Prog.returns_bind _ _ _).mp hd
  dsimp only at hd'
  split_ifs at hd'
  · exact absurd hd' (handleClose_closed (by exact hs))
  · exact (calls_closed (by exact hs) hd').1
  · cases (Prog.returns_pure _ _).mp hd'
    exact hs

theorem handleEvent_staysClosed (hs : c.state = .kDisconnected) {revents : Events}
    {answers : List ReadAnswer} {a : WriteAnswer}
    (hd : (c.onReadable (calls us) revents answers >>= fun c =>
      if revents&&&EPOLLOUT ≠ 0 then c.handleWrite a else pure c).Returns d) :
    d.state = .kDisconnected := by
  obtain ⟨f,hf,hlast⟩ := (Prog.returns_bind _ _ _).mp hd
  have hsf : f.state = .kDisconnected := by
    rw [onReadable] at hf
    split_ifs at hf
    · exact handleRead_staysClosed hs hf
    · cases (Prog.returns_pure _ _).mp hf
      exact hs
  split_ifs at hlast
  · exact ((handleWrite_state f a).result hlast).trans hsf
  · cases (Prog.returns_pure _ _).mp hlast
    exact hsf

theorem step_closed (hs : c.state = .kDisconnected) {e : Event} (hd : (c.step e).Returns d) :
    d.state = .kDisconnected := by
  cases e with
  | call u => exact (apply_closed hs hd).stays.1.trans hs
  | handleWrite a => exact ((handleWrite_state c a).result hd).trans hs
  | runFunctor us =>
    change (c.runFunctor (calls us)).Returns d at hd
    rw [runFunctor] at hd
    cases hfs : c.pendingFunctors with
    | nil =>
      rw [hfs] at hd
      cases (Prog.returns_pure _ _).mp hd
      exact hs
    | cons f fs =>
      rw [hfs] at hd
      cases f with
      | addConnectInLoop =>
        cases (Prog.returns_pure _ _).mp hd
        exact hs
      | connectEstablished =>
        dsimp only [connectEstablished] at hd
        simp [check,hs,Prog.returns_bind] at hd
      | writeCompleteCallback => exact (calls_closed (by exact hs) hd).1
      | forceCloseInLoop =>
        dsimp only [forceCloseInLoop] at hd
        rw [if_neg (by simp [hs])] at hd
        cases (Prog.returns_pure _ _).mp hd
        exact hs
      | connectDestroyed =>
        dsimp only [connectDestroyed,disconnect,act] at hd
        rw [if_neg (by simp [hs]),Prog.pure_bind] at hd
        cases (Prog.returns_pure _ _).mp hd
        exact hs
  | handleEvent revents answers us a =>
    simp only [step] at hd
    split_ifs at hd
    · cases (Prog.returns_pure _ _).mp hd
      exact hs
    · obtain ⟨e,he,hrest⟩ := (Prog.returns_bind _ _ _).mp hd
      have hse : e.state = .kDisconnected := by
        rw [onHup] at he
        split_ifs at he
        · exact absurd he (handleClose_closed hs)
        · cases (Prog.returns_pure _ _).mp he
          exact hs
      exact handleEvent_staysClosed hse hrest

theorem run_closed (hs : c.state = .kDisconnected) {es : List Event} (hd : (run c es).Returns d) :
    d.state = .kDisconnected := by
  induction es generalizing c with
  | nil =>
    cases (Prog.returns_pure _ _).mp hd
    exact hs
  | cons e es ih =>
    obtain ⟨f,hf,hrest⟩ := (Prog.returns_bind _ _ _).mp hd
    exact ih (step_closed hs hf) hrest

theorem handleEvent_reading (h : Awake c) {revents : Events} (hrev : ¬ HangsUpAlone revents)
    {answers : List ReadAnswer} {us : List UserCall} {a : WriteAnswer}
    (hd : (c.handleEvent (calls us) revents answers a).Returns d) :
    revents&&&(EPOLLIN|||EPOLLPRI|||EPOLLRDHUP) ≠ 0 ∧
      ∃ e, (c.onHup revents).Returns e ∧ e.state = .kDisconnected := by
  rw [HangsUpAlone] at hrev
  push Not at hrev
  obtain ⟨hhup,hin,hread⟩ := hrev
  obtain ⟨e,he,_⟩ := (Prog.returns_bind _ _ _).mp hd
  refine ⟨fun hnone => ?_,e,he,?_⟩
  · rw [BitVec.and_or_distrib_left,BitVec.and_or_distrib_left,hin] at hnone
    have hboth := BitVec.or_eq_zero_iff.mp hnone
    exact hread (BitVec.or_eq_zero_iff.mp hboth.1).2 hboth.2
  · rw [onHup,if_pos ⟨hhup,hin⟩] at he
    exact ((handleClose_asleep h).result he).state

theorem step_awake (h : Awake c) {e : Event} (hd : (c.step e).Returns d) : Woken e d := by
  cases e with
  | call u => exact .awake ((apply_awake h u).result hd) _
  | handleWrite a => exact .awake ((handleWrite_awake h a).result hd) _
  | runFunctor us => exact .of_or ((runFunctor_awake h us).result hd) _
  | handleEvent revents answers us a =>
    simp only [step] at hd
    split_ifs at hd with hreg
    · cases (Prog.returns_pure _ _).mp hd
      exact .awake h _
    · by_cases hrev : HangsUpAlone revents
      · exact .of_or ((handleEvent_awake h hrev answers us a).result hd) _
      · refine ⟨.inr ?_,fun halone => absurd halone hrev⟩
        obtain ⟨_,e,he,hclosed⟩ := handleEvent_reading h hrev hd
        obtain ⟨e',he',hrest⟩ := (Prog.returns_bind _ _ _).mp hd
        obtain rfl := he.unique he'
        exact handleEvent_staysClosed hclosed hrest

theorem run_awake (h : Awake c) {es : List Event} (hd : (run c es).Returns d)
    (hopen : d.state ≠ .kDisconnected) : Awake d := by
  induction es generalizing c with
  | nil =>
    cases (Prog.returns_pure _ _).mp hd
    exact h
  | cons e es ih =>
    obtain ⟨f,hf,hrest⟩ := (Prog.returns_bind _ _ _).mp hd
    cases (step_awake h hf).closed with
    | inl hawake => exact ih hawake hrest
    | inr hclosed => exact absurd (run_closed hclosed hrest) hopen

/-! The event that closes the connection. -/

/-- The callbacks of a channel, in the order in which `handleEvent` comes to them. -/
inductive Callback where
  | close | read | write
  deriving DecidableEq, Repr

def Callback.Called (revents : Events) : Callback → Prop
  | .close => revents&&&EPOLLHUP ≠ 0 ∧ revents&&&EPOLLIN = 0
  | .read => revents&&&(EPOLLIN|||EPOLLPRI|||EPOLLRDHUP) ≠ 0
  | .write => revents&&&EPOLLOUT ≠ 0

def Callback.before (c : Conn) (messageCallback : Conn → Prog Fault Conn) (revents : Events)
    (answers : List ReadAnswer) : Callback → Prog Fault Conn
  | .close => pure c
  | .read => c.onHup revents
  | .write => do
    let c ← c.onHup revents
    c.onReadable messageCallback revents answers

/-- The event calls the callback of a connection that is closed already. -/
def Event.CallsClosed (c : Conn) (cb : Callback) : Event → Prop
  | .handleEvent revents answers us _ =>
    c.poller.interest c.channel.fd ≠ none ∧ cb.Called revents ∧
      ∃ d, (cb.before c (calls us) revents answers).Returns d ∧ d.state = .kDisconnected
  | _ => False

def Event.Writable : Event → Prop
  | .handleEvent revents _ _ _ => revents&&&EPOLLOUT ≠ 0
  | _ => False

theorem not_callsClosed_of_alone (h : Awake c) {e : Event} (he : e.HangsUpAlone) {cb : Callback}
    (hcb : cb ≠ .write) : ¬ e.CallsClosed c cb := by
  cases e with
  | handleEvent revents answers us a =>
    rintro ⟨_,hcalled,d,hd,hclosed⟩
    cases cb with
    | close =>
      cases (Prog.returns_pure _ _).mp hd
      exact h.state hclosed
    | read =>
      change (c.onHup revents).Returns d at hd
      rw [onHup] at hd
      split_ifs at hd with hhup
      · exact hcalled (not_readable he hhup)
      · cases (Prog.returns_pure _ _).mp hd
        exact h.state hclosed
    | write => exact hcb rfl
  | _ => exact id

theorem handleEvent_taken {revents : Events} {answers : List ReadAnswer} {us : List UserCall}
    {a : WriteAnswer} (hd : (c.step (.handleEvent revents answers us a)).Returns d)
    (hne : d.state ≠ c.state) : c.poller.interest c.channel.fd ≠ none ∧
      (c.handleEvent (calls us) revents answers a).Returns d := by
  simp only [step] at hd
  split_ifs at hd with hreg
  · cases (Prog.returns_pure _ _).mp hd
    exact absurd rfl hne
  · exact ⟨hreg,hd⟩

theorem callsClosed_read (h : Awake c) {e : Event} (he : ¬ e.HangsUpAlone)
    (hd : (c.step e).Returns d) (hclosed : d.state = .kDisconnected) : e.CallsClosed c .read := by
  cases e with
  | handleEvent revents answers us a =>
    obtain ⟨hreg,hd⟩ := handleEvent_taken hd (by rw [hclosed]; exact h.state.symm)
    obtain ⟨hread,f,hf,hfs⟩ := handleEvent_reading h he hd
    exact ⟨hreg,hread,f,hf,hfs⟩
  | _ => exact absurd trivial he

theorem callsClosed_write (h : Awake c) {e : Event} (hd : (c.step e).Returns d)
    (hclosed : d.state = .kDisconnected) : e.CallsClosed c .write ↔ e.Writable := by
  cases e with
  | handleEvent revents answers us a =>
    obtain ⟨hreg,hd⟩ := handleEvent_taken hd (by rw [hclosed]; exact h.state.symm)
    refine ⟨fun hcalls => hcalls.2.1,fun hout => ⟨hreg,hout,?_⟩⟩
    obtain ⟨f,hf,hrest⟩ := (Prog.returns_bind _ _ _).mp hd
    obtain ⟨g,hg,hlast⟩ := (Prog.returns_bind _ _ _).mp hrest
    have hreported : revents&&&EPOLLOUT ≠ 0 := hout
    rw [if_pos hreported] at hlast
    exact ⟨g,hf.bind hg,((handleWrite_state g a).result hlast).symm.trans hclosed⟩
  | _ => exact Iff.rfl

theorem newConnection_awake (sockfd : Int) (reading writeComplete : Bool) (input output : Mem) :
    Awake (newConnection sockfd reading writeComplete input output) :=
  ⟨by simp [newConnection,queueInLoop],(newConnection_at sockfd reading writeComplete input
    output).agrees,fun h => absurd rfl h,by simp [newConnection,queueInLoop]⟩

/-- In every run: the channel of a connection that an event has closed is never added to the
kernel's interest list again, never in it, and none of its callbacks is called any more, not
even by the event itself, exactly if no later call starts to read, or stops to once the
channel has been removed with `reading_` still set, and the event neither hangs up with
something to read nor reports that the socket is writable. The latter calls `handleWrite` of
a closed connection, which does nothing; it aside the condition is the same without it. -/
theorem closed_unarmed_iff (sockfd : Int) (reading writeComplete : Bool) (input output : Mem)
    {before after : List Event} {b c d : Conn} {e : Event}
    (hb : (run (newConnection sockfd reading writeComplete input output) before).Returns b)
    (hopen : b.state ≠ .kDisconnected) (hc : (b.step e).Returns c)
    (hclosed : c.state = .kDisconnected) (hd : (run c after).Returns d) :
    (NeverArmed c after ∧ (∀ cb, ¬ e.CallsClosed b cb) ↔
      Steps Heeds c after ∧ e.HangsUpAlone ∧ ¬ e.Writable) ∧
    (NeverArmed c after ∧ (∀ cb, cb ≠ .write → ¬ e.CallsClosed b cb) ↔
      Steps Heeds c after ∧ e.HangsUpAlone) := by
  have hawake := run_awake (newConnection_awake sockfd reading writeComplete input output) hb hopen
  have hwrite := callsClosed_write hawake hc hclosed
  by_cases hup : e.HangsUpAlone
  · have hiff : NeverArmed c after ↔ Steps Heeds c after := by
      cases (step_awake hawake hc).asleep hup with
      | inl h => exact absurd hclosed h.state
      | inr h => exact neverArmed_iff h hd
    have hother (cb : Callback) (hcb : cb ≠ .write) := not_callsClosed_of_alone hawake hup hcb
    refine ⟨and_congr hiff ⟨fun hnone => ⟨hup,fun hout => hnone .write (hwrite.mpr hout)⟩,?_⟩,
      and_congr hiff (iff_of_true hother hup)⟩
    rintro ⟨_,hout⟩ cb hcalls
    by_cases hcb : cb = .write
    · rw [hcb] at hcalls
      exact hout (hwrite.mp hcalls)
    · exact hother cb hcb hcalls
  · have hread := callsClosed_read hawake hup hc hclosed
    exact ⟨iff_of_false (fun h => h.2 .read hread) fun h => hup h.2.1,
      iff_of_false (fun h => h.2 .read (by decide) hread) fun h => hup h.2⟩

def opening : List Event := [.runFunctor [],.runFunctor []]

def peerCloses : Event := .handleEvent (EPOLLIN|||EPOLLRDHUP) [.bytes []] [] (.accept 0)

theorem startRead_arms : ∃ b c d,
    (run (newConnection 5 false false (fun _ => 0) fun _ => 0) opening).Returns b ∧
    b.state = .kConnected ∧ (b.step peerCloses).Returns c ∧ c.state = .kDisconnected ∧
    (run c [.call .startRead]).Returns d ∧ d.added = 2 ∧ c.added = 1 :=
  ⟨_,_,_,⟨4,rfl⟩,rfl,⟨4,rfl⟩,rfl,⟨4,rfl⟩,rfl,rfl⟩

theorem closed_armed_again : ¬ ∀ (sockfd : Int) (reading writeComplete : Bool)
    (input output : Mem) (before after : List Event) (b c d : Conn) (e : Event),
    (run (newConnection sockfd reading writeComplete input output) before).Returns b →
    b.state ≠ .kDisconnected → (b.step e).Returns c → c.state = .kDisconnected →
    (run c after).Returns d → NeverArmed c after ∧ ∀ cb, ¬ e.CallsClosed b cb := by
  intro hall
  obtain ⟨b,c,d,hb,hopen,hc,hclosed,hd,hadd,hadd'⟩ := startRead_arms
  have hnever := (hall 5 false false _ _ opening [.call .startRead] b c d peerCloses
    hb (by simp [hopen]) hc hclosed hd).1
  have hsame := (hnever [.call .startRead] [] d rfl hd).1
  rw [hadd,hadd'] at hsame
  cases hsame

theorem closed_unarmed_iff_startRead : ∃ b c d,
    (run (newConnection 5 false false (fun _ => 0) fun _ => 0) opening).Returns b ∧
    (b.step peerCloses).Returns c ∧ (run c [.call .startRead]).Returns d ∧
    (NeverArmed c [.call .startRead] ∧ (∀ cb, ¬ peerCloses.CallsClosed b cb) ↔
      Steps Heeds c [.call .startRead] ∧ peerCloses.HangsUpAlone ∧ ¬ peerCloses.Writable) ∧
    (NeverArmed c [.call .startRead] ∧ (∀ cb, cb ≠ .write → ¬ peerCloses.CallsClosed b cb) ↔
      Steps Heeds c [.call .startRead] ∧ peerCloses.HangsUpAlone) := by
  obtain ⟨b,c,d,hb,hopen,hc,hclosed,hd,_,_⟩ := startRead_arms
  exact ⟨b,c,d,hb,hc,hd,closed_unarmed_iff 5 false false _ _ hb (by simp [hopen]) hc hclosed hd⟩

end Conn
end AdlServer.Net
