import AdlServer.Cpp
import Mathlib.Logic.Function.Basic

/-! Channels, the table `Epoller` keeps of them, and the kernel's interest list.
`epoll_ctl` succeeds on a legal call and changes nothing on any other. -/
namespace AdlServer.Net

abbrev Events := BitVec 32

def EPOLLIN : Events := 0x001
def EPOLLPRI : Events := 0x002
def EPOLLOUT : Events := 0x004
def EPOLLHUP : Events := 0x010
def EPOLLRDHUP : Events := 0x2000
def EPOLLET : Events := 0x80000000

def kNoneEvent : Events := EPOLLET
def kReadEvent : Events := EPOLLIN|||EPOLLRDHUP|||EPOLLPRI
def kWriteEvent : Events := EPOLLOUT

inductive Status where
  | INIT | LISTEN | DELETED | NOT_LISTEN
  deriving DecidableEq, Repr

structure Channel where
  fd : Int
  events : Events := kNoneEvent
  status : Status := .INIT
  deriving DecidableEq

namespace Channel

def isWriting (c : Channel) : Bool := c.events&&&kWriteEvent != 0
def isReading (c : Channel) : Bool := c.events&&&kReadEvent != 0
def noEvent (c : Channel) : Bool := c.events = kNoneEvent

end Channel

inductive CtlOp where
  | ADD | DEL | MOD
  deriving DecidableEq, Repr

/-- One call of `epoll_ctl`, and whether its descriptor was registered then. -/
structure Ctl where
  op : CtlOp
  fd : Int
  registered : Bool
  deriving DecidableEq

/-- `ADD` is for unregistered descriptors, `MOD` and `DEL` for registered ones. -/
def Ctl.Legal (c : Ctl) : Prop := c.op = .ADD ↔ c.registered = false

/-- The channels are named by `ι`. `interest` and `calls` are the kernel's side. -/
structure Epoller (ι : Type) where
  channels : Int → Option ι := fun _ => none
  interest : Int → Option (Events×ι) := fun _ => none
  calls : List Ctl := []

variable {ι : Type}

namespace Epoller

def epollCtl (p : Epoller ι) (op : CtlOp) (fd : Int) (event : Events×ι) : Epoller ι :=
  let registered := (p.interest fd).isSome
  let p := { p with calls := p.calls++[⟨op,fd,registered⟩] }
  match op,registered with
  | .ADD,false => { p with interest := Function.update p.interest fd (some event) }
  | .MOD,true => { p with interest := Function.update p.interest fd (some event) }
  | .DEL,true => { p with interest := Function.update p.interest fd none }
  | _,_ => p

def update (p : Epoller ι) (op : CtlOp) (i : ι) (c : Channel) : Epoller ι :=
  p.epollCtl op c.fd (c.events,i)

def updateChannel (p : Epoller ι) (i : ι) (c : Channel) : Channel×Epoller ι :=
  match c.status with
  | .INIT | .DELETED =>
    let p := p.update .ADD i c
    ({ c with status := .LISTEN },
      { p with channels := Function.update p.channels c.fd (some i) })
  | .LISTEN =>
    if c.noEvent then ({ c with status := .NOT_LISTEN },p.update .DEL i c)
    else (c,p.update .MOD i c)
  | .NOT_LISTEN =>
    if !c.noEvent then ({ c with status := .LISTEN },p.update .ADD i c)
    else (c,p)

def removeChannel (p : Epoller ι) (i : ι) (c : Channel) : Channel×Epoller ι :=
  let p := { p with channels := Function.update p.channels c.fd none }
  ({ c with status := .DELETED },if c.status = .LISTEN then p.update .DEL i c else p)

end Epoller

namespace Channel
variable (c : Channel) (i : ι) (p : Epoller ι)

def enableReading : Channel×Epoller ι :=
  p.updateChannel i { c with events := c.events|||kReadEvent }

def disableReading : Channel×Epoller ι :=
  p.updateChannel i { c with events := c.events&&&~~~kReadEvent }

def enableWriting : Channel×Epoller ι :=
  p.updateChannel i { c with events := c.events|||kWriteEvent }

def disableWriting : Channel×Epoller ι :=
  p.updateChannel i { c with events := c.events&&&~~~kWriteEvent }

def disableAll : Channel×Epoller ι := p.updateChannel i { c with events := kNoneEvent }

def remove : Channel×Epoller ι := p.removeChannel i c

end Channel

/-- Channel, table and kernel tell the same of channel `i`. -/
structure Agrees (p : Epoller ι) (i : ι) (c : Channel) : Prop where
  interest : p.interest c.fd = if c.status = .LISTEN then some (c.events,i) else none
  channels : p.channels c.fd =
    if c.status = .LISTEN ∨ c.status = .NOT_LISTEN then some i else none
  idle : c.status = .NOT_LISTEN → c.noEvent = true

structure Touches (fd : Int) (p p' : Epoller ι) : Prop where
  interest : ∀ fd', fd' ≠ fd → p'.interest fd' = p.interest fd'
  channels : ∀ fd', fd' ≠ fd → p'.channels fd' = p.channels fd'
  legal : (∀ call∈p.calls, call.Legal) → ∀ call∈p'.calls, call.Legal

variable {p : Epoller ι} {i : ι} {c : Channel}

theorem Touches.refl (fd : Int) (p : Epoller ι) : Touches fd p p :=
  ⟨fun _ _ => rfl,fun _ _ => rfl,id⟩

theorem Touches.trans {fd : Int} {p p' p'' : Epoller ι} (h : Touches fd p p')
    (h' : Touches fd p' p'') : Touches fd p p'' :=
  ⟨fun fd' hne => (h'.interest fd' hne).trans (h.interest fd' hne),
    fun fd' hne => (h'.channels fd' hne).trans (h.channels fd' hne),
    fun hl => h'.legal (h.legal hl)⟩

theorem touches_channels (p : Epoller ι) (fd : Int) (o : Option ι) :
    Touches fd p { p with channels := Function.update p.channels fd o } :=
  ⟨fun _ _ => rfl,fun _ hne => Function.update_of_ne hne _ _,id⟩

namespace Epoller

theorem update_legal (p : Epoller ι) (op : CtlOp) (i : ι) (c : Channel)
    (h : op = .ADD ↔ p.interest c.fd = none) :
    (p.update op i c).interest c.fd =
        (if op = .DEL then none else some (c.events,i)) ∧
      (p.update op i c).channels = p.channels ∧ Touches c.fd p (p.update op i c) := by
  have legal (call : Ctl) (hcall : call∈p.calls++[⟨op,c.fd,(p.interest c.fd).isSome⟩])
      (hp : ∀ call∈p.calls, call.Legal) : call.Legal := by
    cases List.mem_append.mp hcall with
    | inl hcall => exact hp call hcall
    | inr hcall =>
      rw [List.mem_singleton.mp hcall]
      rw [Ctl.Legal]
      rw [h]
      simp
  unfold update epollCtl
  cases hr : p.interest c.fd with
  | none =>
    have hop : op = .ADD := h.mpr hr
    subst hop
    refine ⟨by simp,rfl,?_,fun _ _ => rfl,?_⟩
    · exact fun fd' hne => by simp [Function.update_of_ne hne]
    · intro hp call hcall
      exact legal call (by simpa [hr] using hcall) hp
  | some e =>
    have hop : op ≠ .ADD := fun he => by simp [h.mp he] at hr
    cases op with
    | ADD => exact absurd rfl hop
    | DEL =>
      refine ⟨by simp,rfl,?_,fun _ _ => rfl,?_⟩
      · exact fun fd' hne => by simp [Function.update_of_ne hne]
      · intro hp call hcall
        exact legal call (by simpa [hr] using hcall) hp
    | MOD =>
      refine ⟨by simp,rfl,?_,fun _ _ => rfl,?_⟩
      · exact fun fd' hne => by simp [Function.update_of_ne hne]
      · intro hp call hcall
        exact legal call (by simpa [hr] using hcall) hp

end Epoller

structure Updated (p : Epoller ι) (i : ι) (c : Channel) (r : Channel×Epoller ι) : Prop where
  agrees : Agrees r.2 i r.1
  fd : r.1.fd = c.fd
  touches : Touches c.fd p r.2

theorem updateChannel_spec (h : Agrees p i c) (e : Events) :
    Updated p i c (p.updateChannel i { c with events := e }) ∧
      (p.updateChannel i { c with events := e }).1.events = e := by
  obtain ⟨fd,events,status⟩ := c
  obtain ⟨hint,hch,hidle⟩ := h
  dsimp only at hint hch hidle ⊢
  have added (hs : status ≠ .LISTEN) := p.update_legal .ADD i ⟨fd,e,status⟩ (by simp [hint,hs])
  have fresh (hs : status ≠ .LISTEN) :
      Updated p i ⟨fd,events,status⟩ (⟨fd,e,.LISTEN⟩,
        { p.update .ADD i ⟨fd,e,status⟩ with
          channels := Function.update (p.update .ADD i ⟨fd,e,status⟩).channels fd (some i) }) :=
    ⟨⟨(added hs).1,by simp,by simp⟩,rfl,(added hs).2.2.trans (touches_channels _ _ _)⟩
  cases status with
  | INIT => exact ⟨fresh (by simp),rfl⟩
  | DELETED => exact ⟨fresh (by simp),rfl⟩
  | LISTEN =>
    by_cases he : e = kNoneEvent
    · have hdel := p.update_legal .DEL i ⟨fd,e,.LISTEN⟩ (by simp [hint])
      simp only [Epoller.updateChannel,Channel.noEvent,he,decide_true,if_true] at hdel ⊢
      refine ⟨⟨⟨hdel.1,?_,by simp [Channel.noEvent]⟩,rfl,hdel.2.2⟩,trivial⟩
      simp [hdel.2.1,hch]
    · have hmod := p.update_legal .MOD i ⟨fd,e,.LISTEN⟩ (by simp [hint])
      simp only [Epoller.updateChannel,Channel.noEvent,he,decide_false,Bool.false_eq_true,
        if_false]
      refine ⟨⟨⟨hmod.1,?_,by simp⟩,rfl,hmod.2.2⟩,trivial⟩
      simp [hmod.2.1,hch]
  | NOT_LISTEN =>
    by_cases he : e = kNoneEvent
    · simp only [Epoller.updateChannel,Channel.noEvent,he,decide_true,Bool.not_true,
        Bool.false_eq_true,if_false]
      exact ⟨⟨⟨by simp [hint],by simp [hch],by simp [Channel.noEvent]⟩,rfl,.refl _ _⟩,trivial⟩
    · have hadd := added (by simp)
      simp only [Epoller.updateChannel,Channel.noEvent,he,decide_false,Bool.not_false,if_true]
      refine ⟨⟨⟨hadd.1,?_,by simp⟩,rfl,hadd.2.2⟩,trivial⟩
      simp [hadd.2.1,hch]

theorem removeChannel_spec (h : Agrees p i c) :
    Updated p i c (p.removeChannel i c) ∧ (p.removeChannel i c).1.status = .DELETED := by
  refine ⟨?_,rfl⟩
  have hout := touches_channels p c.fd none
  by_cases hs : c.status = .LISTEN
  · have hdel := Epoller.update_legal { p with channels := Function.update p.channels c.fd none }
      .DEL i c (by simp [h.interest,hs])
    simp only [Epoller.removeChannel,hs,if_true]
    refine ⟨⟨hdel.1,?_,by simp⟩,rfl,hout.trans hdel.2.2⟩
    simp [hdel.2.1]
  · simp only [Epoller.removeChannel,hs,if_false]
    exact ⟨⟨by simp [h.interest,hs],by simp,by simp⟩,rfl,hout⟩

theorem updateChannel_status (p : Epoller ι) (i : ι) (c : Channel) :
    (p.updateChannel i c).1.status =
      if c.noEvent = true ∧ (c.status = .LISTEN ∨ c.status = .NOT_LISTEN) then .NOT_LISTEN
      else .LISTEN := by
  rw [Epoller.updateChannel]
  cases hs : c.status with
  | INIT => simp
  | DELETED => simp
  | LISTEN => cases hn : c.noEvent <;> simp [hs]
  | NOT_LISTEN => cases hn : c.noEvent <;> simp [hs]

theorem updateChannel_events (p : Epoller ι) (i : ι) (c : Channel) :
    (p.updateChannel i c).1.events = c.events := by
  rw [Epoller.updateChannel]
  cases hs : c.status with
  | INIT => rfl
  | DELETED => rfl
  | LISTEN => cases hn : c.noEvent <;> rfl
  | NOT_LISTEN => cases hn : c.noEvent <;> rfl

/-! The masks are disjoint. -/

theorem enableWriting_read (e : Events) : (e|||kWriteEvent)&&&kReadEvent = e&&&kReadEvent := by
  have hd : kWriteEvent&&&kReadEvent = 0#32 := by decide
  rw [BitVec.and_or_distrib_right,hd,BitVec.or_zero]

theorem disableWriting_read (e : Events) :
    (e&&&~~~kWriteEvent)&&&kReadEvent = e&&&kReadEvent := by
  have hd : ~~~kWriteEvent&&&kReadEvent = kReadEvent := by decide
  rw [BitVec.and_assoc,hd]

theorem or_and_self (e m : Events) : (e|||m)&&&m = m := by
  ext i hi
  simp only [BitVec.getElem_and,BitVec.getElem_or]
  cases e[i] <;> cases m[i] <;> rfl

theorem enableWriting_write (e : Events) : (e|||kWriteEvent)&&&kWriteEvent ≠ 0 := by
  rw [or_and_self]
  decide

theorem enableReading_read (e : Events) : (e|||kReadEvent)&&&kReadEvent ≠ 0 := by
  rw [or_and_self]
  decide

theorem disableWriting_write (e : Events) : (e&&&~~~kWriteEvent)&&&kWriteEvent = 0 := by
  have hd : ~~~kWriteEvent&&&kWriteEvent = 0#32 := by decide
  rw [BitVec.and_assoc,hd,BitVec.and_zero]
  rfl

namespace Channel

theorem isReading_of_noEvent {c : Channel} (h : c.noEvent = true) : c.isReading = false := by
  have he : c.events = kNoneEvent := by simpa [noEvent] using h
  rw [isReading]
  rw [he]
  decide

theorem isWriting_of_noEvent {c : Channel} (h : c.noEvent = true) : c.isWriting = false := by
  have he : c.events = kNoneEvent := by simpa [noEvent] using h
  rw [isWriting]
  rw [he]
  decide

end Channel

/-! Many channels on one loop. -/

inductive ChannelOp where
  | enableReading | disableReading | enableWriting | disableWriting | disableAll | remove
  deriving DecidableEq, Repr

def ChannelOp.apply (op : ChannelOp) (c : Channel) (i : ι) (p : Epoller ι) :
    Channel×Epoller ι :=
  match op with
  | .enableReading => c.enableReading i p
  | .disableReading => c.disableReading i p
  | .enableWriting => c.enableWriting i p
  | .disableWriting => c.disableWriting i p
  | .disableAll => c.disableAll i p
  | .remove => c.remove i p

theorem ChannelOp.apply_spec (op : ChannelOp) (h : Agrees p i c) :
    Updated p i c (op.apply c i p) := by
  cases op with
  | enableReading => exact (updateChannel_spec h _).1
  | disableReading => exact (updateChannel_spec h _).1
  | enableWriting => exact (updateChannel_spec h _).1
  | disableWriting => exact (updateChannel_spec h _).1
  | disableAll => exact (updateChannel_spec h _).1
  | remove => exact (removeChannel_spec h).1

structure Channels (ι : Type) where
  channel : ι → Channel
  poller : Epoller ι := {}

namespace Channels

def create (fd : ι → Int) : Channels ι where
  channel i := { fd := fd i }

section
variable [DecidableEq ι]

def step (s : Channels ι) (op : ι×ChannelOp) : Channels ι :=
  let (c,p) := op.2.apply (s.channel op.1) op.1 s.poller
  { channel := Function.update s.channel op.1 c, poller := p }

def run (s : Channels ι) (ops : List (ι×ChannelOp)) : Channels ι := ops.foldl step s

end

structure Inv (fd : ι → Int) (s : Channels ι) : Prop where
  fds : ∀ i, (s.channel i).fd = fd i
  agrees : ∀ i, Agrees s.poller i (s.channel i)
  legal : ∀ call∈s.poller.calls, call.Legal

variable {fd : ι → Int} {s : Channels ι}

theorem create_inv (fd : ι → Int) : Inv fd (create fd) :=
  ⟨fun _ => rfl,fun _ => ⟨rfl,rfl,by simp [create]⟩,by simp [create]⟩

variable [DecidableEq ι]

theorem step_inv (hfd : Function.Injective fd) (h : Inv fd s) (op : ι×ChannelOp) :
    Inv fd (s.step op) := by
  obtain ⟨i,op⟩ := op
  have hop := op.apply_spec (h.agrees i)
  have htouch := hop.touches
  rw [h.fds i] at htouch
  refine ⟨?_,?_,hop.touches.legal h.legal⟩
  · intro j
    by_cases hj : j = i
    · subst hj
      simpa [step] using hop.fd.trans (h.fds j)
    · simp [step,Function.update_of_ne hj,h.fds j]
  · intro j
    by_cases hj : j = i
    · subst hj
      simpa [step] using hop.agrees
    · have hne : (s.channel j).fd ≠ fd i := by
        rw [h.fds j]
        exact fun he => hj (hfd he)
      have ha := h.agrees j
      simp only [step,Function.update_of_ne hj]
      exact ⟨(htouch.interest _ hne).trans ha.interest,
        (htouch.channels _ hne).trans ha.channels,ha.idle⟩

theorem run_inv (hfd : Function.Injective fd) (h : Inv fd s) (ops : List (ι×ChannelOp)) :
    Inv fd (s.run ops) := by
  induction ops generalizing s with
  | nil => exact h
  | cons op ops ih => exact ih (step_inv hfd h op)

/-- Over every run of operations on channels with their own descriptors, all calls
are legal, and status, mask, table and interest list agree. -/
theorem epoller_agrees (hfd : Function.Injective fd) (ops : List (ι×ChannelOp)) :
    let s := (create fd).run ops
    (∀ call∈s.poller.calls, call.Legal) ∧ ∀ i,
      (∀ mask j, s.poller.interest (fd i) = some (mask,j) ↔
        (s.channel i).status = .LISTEN ∧ mask = (s.channel i).events ∧ j = i) ∧
      (s.poller.channels (fd i) = some i ↔
        (s.channel i).status = .LISTEN ∨ (s.channel i).status = .NOT_LISTEN) ∧
      ((s.channel i).status = .NOT_LISTEN → (s.channel i).noEvent = true) := by
  intro s
  have hinv : Inv fd s := run_inv hfd (create_inv fd) ops
  refine ⟨hinv.legal,fun i => ?_⟩
  obtain ⟨hint,hch,hidle⟩ := hinv.agrees i
  rw [hinv.fds i] at hint hch
  refine ⟨?_,?_,hidle⟩
  · intro mask j
    rw [hint]
    by_cases hs : (s.channel i).status = .LISTEN
    · simp [hs,eq_comm]
    · simp [hs]
  · rw [hch]
    by_cases hs : (s.channel i).status = .LISTEN ∨ (s.channel i).status = .NOT_LISTEN
    · simp [hs]
    · simp [hs]

def readdOps : List (Bool×ChannelOp) :=
  [(true,.enableReading),(false,.disableAll),(true,.enableWriting),(true,.remove),
    (true,.disableReading),(false,.disableWriting)]

theorem epoller_agrees_readd :
    let fd : Bool → Int := fun i => if i then 5 else 7
    let s := (create fd).run readdOps
    (∀ call∈s.poller.calls, call.Legal) ∧ ∀ i,
      (∀ mask j, s.poller.interest (fd i) = some (mask,j) ↔
        (s.channel i).status = .LISTEN ∧ mask = (s.channel i).events ∧ j = i) ∧
      (s.poller.channels (fd i) = some i ↔
        (s.channel i).status = .LISTEN ∨ (s.channel i).status = .NOT_LISTEN) ∧
      ((s.channel i).status = .NOT_LISTEN → (s.channel i).noEvent = true) :=
  epoller_agrees (Bool.injective_iff.mpr (by decide)) readdOps

end Channels
end AdlServer.Net
