import AdlServer.MixedStream
import AdlServer.ShortResponse

/-! The descriptors that answering a GET opens: who closes them, and when. -/
namespace AdlServer.Http
open Program Memory Cpp Net Conn
variable {c d e : Conn} {fd : Int} {ops ops' : List FileOp}

/-- What is done with the descriptor `fd`, in its order. -/
def fileOps (fd : Int) (t : List Act) : List FileOp := t.filterMap fun
  | .file op f => if f = fd then some op else none
  | _ => none

theorem fileOps_append (t u : List Act) : fileOps fd (t++u) = fileOps fd t++fileOps fd u :=
  List.filterMap_append

/-- Closed once, and not used after that. -/
def Released (ops : List FileOp) : Prop := ops.count .close = 1 ∧ ops.getLast? = some .close

instance (ops : List FileOp) : Decidable (Released ops) :=
  inferInstanceAs (Decidable (ops.count .close = 1 ∧ ops.getLast? = some .close))

def since (c d : Conn) : List Act := d.trace.drop c.trace.length

def Ops (fd : Int) (c d : Conn) (ops : List FileOp) : Prop :=
  ∃ t, d.trace = c.trace++t ∧ fileOps fd t = ops

theorem Ops.since (h : Ops fd c d ops) : fileOps fd (since c d) = ops := by
  obtain ⟨t,ht,ho⟩ := h
  rw [Http.since]
  rwa [ht,List.drop_left]

theorem Ops.of_eq (h : d.trace = c.trace) : Ops fd c d [] := ⟨[],by rw [h,List.append_nil],rfl⟩

theorem Ops.trans (h : Ops fd c d ops) (h' : Ops fd d e ops') : Ops fd c e (ops++ops') := by
  obtain ⟨t,ht,ho⟩ := h
  obtain ⟨u,hu,ho'⟩ := h'
  exact ⟨t++u,by rw [hu,ht,List.append_assoc],by rw [fileOps_append,ho,ho']⟩

theorem Ops.of_grows {P : Act → Prop} (h : Grows P c d) (hP : ∀ op, ¬ P (.file op fd)) :
    Ops fd c d [] := by
  obtain ⟨t,ht,hall⟩ := h
  refine ⟨t,ht,List.filterMap_eq_nil_iff.mpr fun a ha => ?_⟩
  cases a with
  | file op f =>
    refine if_neg fun hf => ?_
    subst hf
    exact hP op (hall _ ha)
  | addConnect => rfl
  | setState s => rfl
  | wrote s => rfl
  | writeComplete n => rfl
  | shutdownWrite n s => rfl
  | closeCallback => rfl
  | connectDestroyed s => rfl

theorem not_sending_file {g : Int} (hg : fd ≠ g) (op : FileOp) : ¬ Sending g (.file op fd) := by
  intro h
  cases h
  exact hg rfl

theorem not_mute_file (op : FileOp) : ¬ Mute (.file op fd) := by
  intro h
  cases h

/-! Sending. -/

def HeadGone (m : Bytes) : WriteAnswer → Prop
  | .accept n => m.length ≤ n
  | .fail e => e = .EPIPE ∨ e = .ECONNRESET

theorem bufferRest_writing (c : Conn) (m : Bytes) (sent : Sent) :
    Prog.Ensures (c.bufferRest (some m) (-1) sent [])
      (fun d => d.channel.isWriting = true ∧ d.files = c.files) fun _ => True := by
  have hcopy : Prog.Ensures (c.copyMessage (m.drop sent.nwrote)) (fun d => d.files = c.files)
      fun _ => True := (Prog.ensures_true _).bind fun _ _ => Prog.ensures_pure rfl
  refine hcopy.bind fun d hd => Prog.ensures_pure ?_
  cases hw : d.channel.isWriting with
  | true => exact ⟨hw,hd⟩
  | false => exact ⟨enableWriting_writes d,hd⟩

theorem not_idle_of_writing (h : c.channel.isWriting = true) : ¬ c.idle = true := by
  simp [idle,h]

structure HeadSent (c : Conn) (m : Bytes) (a : WriteAnswer) (d : Conn) : Prop where
  sent : SentOnly (-1) c d
  files : ∀ fd, fd ≠ -1 → d.files fd = c.files fd
  idle : d.idle = true ↔ c.idle = true ∧ HeadGone m a

theorem tried_left_iff {m : Bytes} {a : WriteAnswer} {r : Conn×Sent} (h : Tried c m a r)
    (hm : m ≠ []) : r.2.left = false ↔ HeadGone m a := by
  have hpos := List.length_pos_iff.mpr hm
  have hrem := h.remaining
  have hfault := h.fault
  rw [← Bool.not_eq_true,Sent.left_iff,not_and_not_right]
  cases a with
  | accept n =>
    have hf : r.2.faultError = false := hfault.mpr trivial
    simp only [WriteAnswer.taken,List.length_take] at hrem
    change (r.2.faultError = false → r.2.remaining = 0) ↔ m.length ≤ n
    exact ⟨fun hall => by have := hall hf; omega,fun hle _ => by omega⟩
  | fail e =>
    have hne : r.2.remaining ≠ 0 := by
      rw [hrem]
      exact Nat.pos_iff_ne_zero.mp hpos
    change (r.2.faultError = false → r.2.remaining = 0) ↔ e = .EPIPE ∨ e = .ECONNRESET
    constructor
    · intro hall
      by_contra hno
      exact hne (hall (hfault.mpr ⟨fun h => hno (.inl h),fun h => hno (.inr h)⟩))
    · exact fun he hf => absurd he (not_or.mpr (hfault.mp hf))

theorem tryFirst_head (c : Conn) {m : Bytes} (hm : m ≠ []) (a : WriteAnswer) :
    (∀ fd, fd ≠ -1 → (c.tryFirst (some m) (-1) 0 a).1.files fd = c.files fd) ∧
      (c.idle = true → (c.tryFirst (some m) (-1) 0 a).1.idle = true) ∧
      ((c.tryFirst (some m) (-1) 0 a).2.left = false ↔ c.idle = true ∧ HeadGone m a) := by
  by_cases hi : c.idle = true
  · have ht := directWrite_tried c m a
    rw [tryFirst_idle hi]
    refine ⟨ht.files,fun hi => ?_,?_⟩
    · rw [idle] at hi ⊢
      rwa [ht.channel,ht.output]
    · rw [tried_left_iff ht hm]
      exact (and_iff_right hi).symm
  · rw [tryFirst_busy hi]
    refine ⟨fun _ _ => rfl,fun h => absurd h hi,iff_of_false ?_ fun h => hi h.1⟩
    have hlen : messageLen (some m) ≠ 0 := Nat.pos_iff_ne_zero.mp (List.length_pos_iff.mpr hm)
    simp [Sent.left,hlen]

theorem send_head (hs : c.state = .kConnected) {m : Bytes} (hm : m ≠ []) (a : WriteAnswer)
    (hd : (c.send m a).Returns d) : HeadSent c m a d := by
  obtain ⟨hfiles,hidle,hleft⟩ := tryFirst_head c hm a
  rw [send] at hd
  rw [if_pos hs] at hd
  have hsent := (sendInLoop_sentOnly c _ _ _ _ _).result hd
  cases sendInLoop_returns (by simp [hs]) hd with
  | inl hrest =>
    obtain ⟨hl,hrest⟩ := hrest
    obtain ⟨hw,hf⟩ := (bufferRest_writing _ m _).result hrest
    refine ⟨hsent,fun fd hfd => (congrFun hf fd).trans (hfiles fd hfd),?_⟩
    exact iff_of_false (not_idle_of_writing hw) fun hg => by simp [hleft.mpr hg] at hl
  | inr hdone =>
    obtain ⟨hl,he⟩ := hdone
    have hg := hleft.mp hl
    subst he
    exact ⟨hsent,hfiles,iff_of_true (hidle hg.1) hg⟩

theorem directWrite_closes (c : Conn) {f size : Int} (hf : 0 < f) {content : Bytes}
    (hfile : c.files f = some { content := content }) (n : Nat) :
    Ops f c (c.directWrite none f size (.accept n)).1 [.sendfile,.close] ∧
      (c.directWrite none f size (.accept n)).2.remaining =
        sizeT (size-((content.take (min n (sizeT size))).length:Int)) ∧
      (c.directWrite none f size (.accept n)).2.faultError = false := by
  have hfd : (c.act (.file .sendfile f)).files f = some { content := content } := hfile
  have tried (d : Conn) (s : Bytes) (hd : d.trace = c.trace++[.file .sendfile f]++[.wrote s])
      (p : Prop) [Decidable p] :
      Ops f c ((if p then d.queueWriteComplete else d).close f) [.sendfile,.close] := by
    have hsend : Ops f c d [.sendfile] :=
      ⟨[.file .sendfile f]++[.wrote s],by rw [hd,List.append_assoc],by simp [fileOps]⟩
    have htold : Ops f d (if p then d.queueWriteComplete else d) [] := by
      split_ifs
      · exact .of_grows (queueWriteComplete_sentOnly (-1) d).trace (not_sending_file (by omega))
      · exact .of_eq rfl
    have hclose (d : Conn) : Ops f d (d.close f) [.close] :=
      ⟨[.file .close f],rfl,by simp [fileOps]⟩
    exact (hsend.trans htold).trans (hclose _)
  rw [directWrite]
  rw [fileMode_of_ne (by omega),if_pos rfl]
  unfold sendfile
  simp only [hfd,List.drop_zero]
  exact ⟨tried _ _ rfl _,rfl,trivial⟩

theorem bufferRest_reads (c : Conn) {f : Int} (hf : 0 < f) (sent : Sent)
    (reads : List FileAnswer) :
    Prog.Ensures (c.bufferRest none f sent reads) (Ops f c · [.read,.close]) fun _ => True := by
  rw [bufferRest]
  rw [fileMode_of_ne (by omega),if_pos rfl]
  have hcopy : Prog.Ensures (c.copyFile f sent.nwrote reads) (Ops f c · [.read,.close])
      fun _ => True := by
    refine (Prog.ensures_true _).bind fun r _ => Prog.ensures_pure ?_
    exact ⟨[.file .read f,.file .close f],by simp [close,act],by simp [fileOps]⟩
  refine hcopy.bind fun d hd => Prog.ensures_pure ?_
  split_ifs
  · exact hd.trans (.of_eq rfl)
  · exact hd

theorem file_taken_iff {size : Int} (h0 : 0 < size) (hlt : size < 2^31) (n : Nat) (s : Bytes) :
    sizeT (size-((s.take (min n (sizeT size))).length:Int)) = 0 ↔ size ≤ n ∧ size ≤ s.length := by
  rw [sizeT_of_range (Int.le_of_lt h0) (by omega),List.length_take,sizeT_of_range (by omega)
    (by omega)]
  omega

theorem sendFile_sentOnly {f size : Int} {a : WriteAnswer} {reads : List FileAnswer}
    (hd : (c.sendFile f size a reads).Returns d) : SentOnly f c d := by
  rw [sendFile] at hd
  split_ifs at hd
  · cases (Prog.returns_pure _ _).mp hd
    exact .of_eq rfl rfl
  · exact (sendInLoop_sentOnly c _ _ _ _ _).result hd
  · cases (Prog.returns_pure _ _).mp hd
    exact .of_eq rfl rfl

theorem directWrite_failed (c : Conn) {f size : Int} (hf : 0 < f) (e : Errno) :
    Ops f c (c.directWrite none f size (.fail e)).1 [.sendfile] ∧
      (c.directWrite none f size (.fail e)).2.remaining = 0 := by
  obtain ⟨e',he⟩ := sendfile_fail c f (sizeT size) e
  rw [directWrite]
  rw [fileMode_of_ne (by omega),if_pos rfl,he]
  exact ⟨⟨[.file .sendfile f],rfl,by simp [fileOps]⟩,rfl⟩

theorem sendFile_released_iff {f size : Int} (hf : 0 < f) (h0 : 0 < size) (hlt : size < 2^31)
    {content : Bytes} (hfile : c.files f = some { content := content }) {a : WriteAnswer}
    {reads : List FileAnswer} (hd : (c.sendFile f size a reads).Returns d) :
    ∃ ops, Ops f c d ops ∧ (Released (.opened::ops) ↔ c.state = .kConnected ∧ c.idle = true ∧
      ∃ n : Nat, a = .accept n ∧ size ≤ n ∧ size ≤ content.length) := by
  rw [sendFile] at hd
  rw [if_neg (by omega)] at hd
  by_cases hs : c.state = .kConnected
  · rw [if_pos hs] at hd
    have hhalves := sendInLoop_returns (by simp [hs]) hd
    by_cases hi : c.idle = true
    · rw [tryFirst_idle hi] at hhalves
      cases a with
      | fail e =>
        obtain ⟨hops,hrem⟩ := @directWrite_failed c f size hf e
        cases hhalves with
        | inl hrest => exact absurd hrem (Sent.left_iff.mp hrest.1).2
        | inr hdone =>
          refine ⟨[.sendfile],hdone.2 ▸ hops,iff_of_false (by decide) fun h => ?_⟩
          obtain ⟨_,_,n,hn,_⟩ := h
          cases hn
      | accept n =>
        obtain ⟨hops,hrem,hfault⟩ := @directWrite_closes c f size hf content hfile n
        have hwhole := file_taken_iff h0 hlt n content
        rw [← hrem] at hwhole
        cases hhalves with
        | inl hrest =>
          obtain ⟨hl,hrest⟩ := hrest
          refine ⟨_,hops.trans ((bufferRest_reads _ hf _ reads).result hrest),?_⟩
          refine iff_of_false (by decide) fun h => ?_
          obtain ⟨_,_,k,hk,hsize⟩ := h
          cases hk
          exact (Sent.left_iff.mp hl).2 (hwhole.mpr hsize)
        | inr hdone =>
          obtain ⟨hl,he⟩ := hdone
          have hall : size ≤ n ∧ size ≤ content.length := by
            by_contra hno
            have := Sent.left_iff.mpr ⟨hfault,fun h => hno (hwhole.mp h)⟩
            simp [hl] at this
          exact ⟨_,he ▸ hops,iff_of_true (by decide) ⟨hs,hi,n,rfl,hall⟩⟩
    · rw [tryFirst_busy hi] at hhalves
      cases hhalves with
      | inl hrest => exact absurd rfl (Sent.left_iff.mp hrest.1).2
      | inr hdone =>
        rw [hdone.2]
        exact ⟨[],.of_eq rfl,iff_of_false (by decide) fun h => hi h.2.1⟩
  · rw [if_neg hs] at hd
    cases (Prog.returns_pure _ _).mp hd
    exact ⟨[],.of_eq rfl,iff_of_false (by decide) fun h => hs h.1⟩

/-! Answering. -/

theorem calls_one (u : UserCall) (c d : Conn) :
    (calls [u] c).Returns d ↔ (u.apply c).Returns d := by
  simp [calls,Prog.returns_bind]

theorem send_sentOnly {m : Bytes} {a : WriteAnswer} (hd : (c.send m a).Returns d) :
    SentOnly (-1) c d := by
  rw [send] at hd
  split_ifs at hd
  · exact (sendInLoop_sentOnly c _ _ _ _ _).result hd
  · cases (Prog.returns_pure _ _).mp hd
    exact .of_eq rfl rfl

/-- What it takes to send the response `r`, with the file `content`, at once. -/
structure TakenAtOnce (c : Conn) (r : HttpRespond) (content : Bytes) (head body : WriteAnswer) :
    Prop where
  connected : c.state = .kConnected
  idle : c.idle = true
  head : HeadGone r.lineHead head
  fd : 0 < r.fd
  size : 0 < r.size
  body : ∃ n : Nat, body = .accept n ∧ r.size ≤ n ∧ r.size ≤ content.length

theorem lineHead_ne_nil (r : HttpRespond) : r.lineHead ≠ [] := by simp [HttpRespond.lineHead]

theorem respond_released_iff {r : HttpRespond} (hfd : 0 ≤ r.fd) (hlt : r.size < 2^31)
    {content : Bytes} (hfile : c.files r.fd = some { content := content })
    {head body : WriteAnswer} {reads : List FileAnswer}
    (hd : (calls (r.respond head body reads) c).Returns d) :
    (∀ g, 0 ≤ g → g ≠ r.fd → Ops g c d []) ∧ ∃ ops, Ops r.fd c d ops ∧
      (Released (.opened::ops) ↔ TakenAtOnce c r content head body) := by
  obtain ⟨f,hf,hrest⟩ := (Prog.returns_bind _ _ _).mp hd
  have hsent := send_sentOnly hf
  have hquiet (g : Int) (hg : 0 ≤ g) : Ops g c f [] :=
    .of_grows hsent.trace (not_sending_file (by omega))
  have hhead : f.files r.fd = c.files r.fd ∧
      (f.state = .kConnected ∧ f.idle = true ↔
        c.state = .kConnected ∧ c.idle = true ∧ HeadGone r.lineHead head) := by
    by_cases hs : c.state = .kConnected
    · have hh := send_head hs (lineHead_ne_nil r) head hf
      refine ⟨hh.files r.fd (by omega),?_⟩
      rw [hh.idle,hsent.state]
    · have he : f = c := by
        change (c.send r.lineHead head).Returns f at hf
        rw [send_refused hs] at hf
        exact (Prog.returns_pure _ _).mp hf
      subst he
      exact ⟨rfl,iff_of_false (fun h => hs h.1) fun h => hs h.1⟩
  by_cases hfile' : 0 < r.fd ∧ 0 < r.size
  · rw [if_pos hfile',calls_one] at hrest
    have hrest' : (f.sendFile r.fd r.size body reads).Returns d := hrest
    obtain ⟨ops,hops,hiff⟩ := sendFile_released_iff hfile'.1 hfile'.2 hlt (hhead.1.trans hfile) hrest'
    refine ⟨fun g hg hne => ?_,ops,(hquiet r.fd hfd).trans hops,?_⟩
    · exact (hquiet g hg).trans (.of_grows (sendFile_sentOnly hrest').trace (not_sending_file hne))
    · rw [hiff,← and_assoc,hhead.2]
      constructor
      · intro h
        obtain ⟨⟨hs,hi,hg⟩,hb⟩ := h
        exact ⟨hs,hi,hg,hfile'.1,hfile'.2,hb⟩
      · intro h
        exact ⟨⟨h.connected,h.idle,h.head⟩,h.body⟩
  · rw [if_neg hfile'] at hrest
    have hquiet' (g : Int) (hg : 0 ≤ g) : Ops g f d [] := by
      split_ifs at hrest
      · rw [calls_one] at hrest
        have hrest' : (f.send r.body body).Returns d := hrest
        exact .of_grows (send_sentOnly hrest').trace (not_sending_file (by omega))
      · cases (Prog.returns_pure _ _).mp hrest
        exact .of_eq rfl
    refine ⟨fun g hg _ => (hquiet g hg).trans (hquiet' g hg),[],
      (hquiet r.fd hfd).trans (hquiet' r.fd hfd),?_⟩
    exact iff_of_false (by decide) fun h => hfile' ⟨h.fd,h.size⟩

theorem forceClose_ops (c : Conn) (g : Int) : Ops g c c.forceClose [] := by
  rw [forceClose]
  split_ifs
  · have hset : Grows Mute c ((c.setState .kDisconnecting).queueInLoop .forceCloseInLoop) :=
      .snoc rfl (.setState _)
    exact .of_grows hset not_mute_file
  · exact .of_eq rfl

theorem close_ops {kep : Bool}
    (hd : (calls (if !kep then [.forceClose] else []) c).Returns d) (g : Int) : Ops g c d [] := by
  split_ifs at hd
  · rw [calls_one] at hd
    cases (Prog.returns_pure _ _).mp hd
    exact forceClose_ops c g
  · cases (Prog.returns_pure _ _).mp hd
    exact .of_eq rfl

/-- `open` gives `-1`, or a descriptor that is not in use. -/
def Fresh (c : Conn) (p : Page) : Prop :=
  p.fd = -1 ∨ (0 ≤ p.fd ∧ p.fd ≠ c.channel.fd ∧ c.files p.fd = none)

structure Opened (c : Conn) (p : Page) (d : Conn) : Prop where
  ops : Ops p.fd c d [.opened]
  others : ∀ g, g ≠ p.fd → Ops g c d [] ∧ d.files g = c.files g
  file : d.files p.fd = some { content := p.content }
  state : d.state = c.state
  channel : d.channel = c.channel
  idle : d.idle = c.idle

theorem opened_of_fresh {p : Page} (h : Fresh c p) (hp : p.fd ≠ -1)
    (hd : (calls p.opened c).Returns d) : Opened c p d := by
  rw [Page.opened] at hd
  cases h with
  | inl h => exact absurd h hp
  | inr h =>
    rw [if_neg hp,calls_one] at hd
    unfold UserCall.apply at hd
    dsimp only at hd
    rw [if_pos h] at hd
    cases (Prog.returns_pure _ _).mp hd
    refine ⟨⟨[.file .opened p.fd],rfl,by simp [fileOps]⟩,fun g hg => ⟨⟨[.file .opened p.fd],rfl,?_⟩,?_⟩,
      Function.update_self _ _ _,rfl,rfl,rfl⟩
    · simp [fileOps,hg.symm]
    · exact Function.update_of_ne hg _ _

theorem calls_closed {p : Page} (hp : p.fd = -1) (hd : (calls p.opened c).Returns d) : d = c := by
  rw [Page.opened] at hd
  rw [if_pos hp] at hd
  exact (Prog.returns_pure _ _).mp hd

theorem takenAtOnce_congr {r : HttpRespond} {content : Bytes} {head body : WriteAnswer}
    (hs : d.state = c.state) (hi : d.idle = c.idle) :
    TakenAtOnce d r content head body ↔ TakenAtOnce c r content head body := by
  constructor
  · exact fun h => ⟨hs ▸ h.connected,hi ▸ h.idle,h.head,h.fd,h.size,h.body⟩
  · exact fun h => ⟨hs ▸ h.connected,hi ▸ h.idle,h.head,h.fd,h.size,h.body⟩

theorem answered_released_iff {p : Page} {r : HttpRespond} (hr : r.fd = p.fd) (hp : p.fd ≠ -1)
    (hfresh : Fresh c p) (hlt : r.size < 2^31) {kep : Bool} {head body : WriteAnswer}
    {reads : List FileAnswer}
    (hd : (calls (p.opened++r.respond head body reads++
      (if !kep then [.forceClose] else [])) c).Returns d) :
    (∀ g, 0 ≤ g → g ≠ p.fd → Ops g c d []) ∧ ∃ ops, Ops p.fd c d ops ∧
      (Released ops ↔ TakenAtOnce c r p.content head body) := by
  obtain ⟨f,hf,hclose⟩ := (calls_append _ _ _ _).mp hd
  obtain ⟨b,hb,hresp⟩ := (calls_append _ _ _ _).mp hf
  have ho := opened_of_fresh hfresh hp hb
  have h0 : 0 ≤ p.fd := by
    cases hfresh with
    | inl h => exact absurd h hp
    | inr h => exact h.1
  obtain ⟨hothers,ops,hops,hiff⟩ := respond_released_iff (hr ▸ h0) hlt (hr ▸ ho.file) hresp
  rw [hr] at hothers hops
  refine ⟨fun g hg hne => ?_,_,(ho.ops.trans hops).trans (close_ops hclose _),?_⟩
  · exact ((ho.others g hne).1.trans (hothers g hg hne)).trans (close_ops hclose g)
  · rw [List.append_nil]
    exact hiff.trans (takenAtOnce_congr ho.state ho.idle)

def getRespond (sys : System) (request : HttpRequest) : HttpRespond :=
  pageRespond (({ version := request.line.version } : HttpRespond).addKeepAlive
    (keepsAlive request)) (parseUrl sys request.line.url)

theorem answer_get {sys : System} {request : HttpRequest}
    (hm : request.line.method = some .GET) :
    (answer sys request).1 =
      if (parseUrl sys request.line.url).fd < 0 then
        (parseUrl sys request.line.url).calls++[.forceClose]
      else (parseUrl sys request.line.url).calls++
        (getRespond sys request).respond sys.head sys.body sys.reads++
        (if !keepsAlive request then [.forceClose] else []) := by
  rw [answer]
  rw [hm]
  dsimp only
  split_ifs
  · rfl
  · rfl
  · rfl

def Served (p : Page) : Prop := ∃ st, p.stat = some st ∧ st.regular = true

theorem parseUrl_cases (sys : System) (url : Bytes) :
    (sys.page.fd ≠ -1 ∧ Served sys.page ∧ (parseUrl sys url).fd = sys.page.fd ∧
      (parseUrl sys url).opened = [(cStr (sourcePath url),sys.page)]) ∨
    (¬ (sys.page.fd ≠ -1 ∧ Served sys.page) ∧ (parseUrl sys url).fd = sys.notFound.fd ∧
      (parseUrl sys url).opened =
        [(cStr (sourcePath url),sys.page),(notFoundPath,sys.notFound)]) := by
  unfold parseUrl
  dsimp only
  by_cases hbad : sys.page.fd = -1 ∨ sys.page.stat = none ∨ !(sys.page.lstat sys.st).regular
  · rw [if_pos hbad]
    refine .inr ⟨fun h => ?_,rfl,rfl⟩
    obtain ⟨hfd,st,hst,hreg⟩ := h
    simp [Page.lstat,hfd,hst,hreg] at hbad
  · rw [if_neg hbad]
    rw [not_or,not_or] at hbad
    obtain ⟨hfd,hnone,hreg⟩ := hbad
    refine .inl ⟨hfd,?_,rfl,rfl⟩
    obtain ⟨st,hst⟩ := Option.ne_none_iff_exists'.mp hnone
    refine ⟨st,hst,?_⟩
    simpa [Page.lstat,hfd,hst] using hreg

/-- Nothing could be opened, or only the file that is sent, and all is taken at once. -/
def OneTaken (sys : System) (request : HttpRequest) (c : Conn) : Prop :=
  if sys.page.fd = -1 then
    sys.notFound.fd = -1 ∨
      TakenAtOnce c (getRespond sys request) sys.notFound.content sys.head sys.body
  else Served sys.page ∧
    TakenAtOnce c (getRespond sys request) sys.page.content sys.head sys.body

theorem Fresh.after {p q : Page} (h : Fresh c q) (ho : Opened c p d) (hne : q.fd ≠ p.fd) :
    Fresh d q := by
  rw [Fresh]
  rw [ho.channel,(ho.others q.fd hne).2]
  exact h

theorem vain_ops {sys : System} {request : HttpRequest} (hm : request.line.method = some .GET)
    (hpage : Fresh c sys.page) (hnot : Fresh c sys.notFound)
    (hapart : sys.page.fd = sys.notFound.fd → sys.page.fd = -1) (hp : sys.page.fd ≠ -1)
    (hs : ¬ Served sys.page) (hd : (calls (answer sys request).1 c).Returns d) :
    Ops sys.page.fd c d [.opened] := by
  have hne : sys.page.fd ≠ sys.notFound.fd := fun h => hp (hapart h)
  have h0 : 0 ≤ sys.page.fd := hpage.elim (fun h => absurd h hp) fun h => h.1
  rw [answer_get hm] at hd
  cases parseUrl_cases sys request.line.url with
  | inl h => exact absurd h.2.1 hs
  | inr h =>
    obtain ⟨_,hfd,hopened⟩ := h
    have hcalls : (parseUrl sys request.line.url).calls =
        sys.page.opened++sys.notFound.opened := by simp [Located.calls,hopened]
    rw [hcalls,hfd] at hd
    simp only [List.append_assoc] at hd
    by_cases hn : sys.notFound.fd = -1
    · rw [if_pos (by omega)] at hd
      obtain ⟨f,hf,hrest⟩ := (calls_append _ _ _ _).mp hd
      obtain ⟨g,hg,hclose⟩ := (calls_append _ _ _ _).mp hrest
      rw [calls_closed hn hg,calls_one] at hclose
      cases (Prog.returns_pure _ _).mp hclose
      exact (opened_of_fresh hpage hp hf).ops.trans (forceClose_ops f _)
    · have hn0 : 0 ≤ sys.notFound.fd := hnot.elim (fun h => absurd h hn) fun h => h.1
      rw [if_neg (by omega)] at hd
      obtain ⟨f,hf,hrest⟩ := (calls_append _ _ _ _).mp hd
      have ho := opened_of_fresh hpage hp hf
      rw [← List.append_assoc] at hrest
      have hanswered := answered_released_iff (r := getRespond sys request) hfd hn
        (hnot.after ho hne.symm) (wrapInt_lt _) hrest
      exact ho.ops.trans (hanswered.1 _ h0 hne)

/-- Every descriptor that a GET opens is closed once, and not used after that, exactly if
nothing could be opened or only the file that is sent, and head and file are taken at once. -/
theorem descriptors_released_iff (sys : System) (request : HttpRequest) (c d : Conn)
    (hm : request.line.method = some .GET) (hpage : Fresh c sys.page)
    (hnot : Fresh c sys.notFound)
    (hapart : sys.page.fd = sys.notFound.fd → sys.page.fd = -1)
    (hd : (calls (answer sys request).1 c).Returns d) :
    (∀ o∈(parseUrl sys request.line.url).opened, o.2.fd ≠ -1 →
      Released (fileOps o.2.fd (since c d))) ↔ OneTaken sys request c := by
  rw [OneTaken]
  by_cases hp : sys.page.fd = -1
  · rw [if_pos hp]
    cases parseUrl_cases sys request.line.url with
    | inl h => exact absurd hp h.1
    | inr h =>
      obtain ⟨_,hfd,hopened⟩ := h
      rw [hopened]
      simp only [List.forall_mem_cons,hp,ne_eq,not_true_eq_false,false_implies,true_and,
        List.not_mem_nil,implies_true,and_true]
      by_cases hn : sys.notFound.fd = -1
      · exact iff_of_true (fun h => absurd hn h) (.inl hn)
      · have hcalls : (parseUrl sys request.line.url).calls = sys.notFound.opened := by
          simp [Located.calls,hopened,Page.opened,hp]
        have hn0 : 0 ≤ sys.notFound.fd := hnot.elim (fun h => absurd h hn) fun h => h.1
        rw [answer_get hm,hcalls,hfd,if_neg (by omega)] at hd
        obtain ⟨_,ops,hops,hiff⟩ := answered_released_iff (r := getRespond sys request) hfd hn hnot
          (wrapInt_lt _) hd
        rw [hops.since,hiff]
        exact ⟨fun h => .inr (h hn),fun h _ => h.resolve_left hn⟩
  · rw [if_neg hp]
    by_cases hs : Served sys.page
    · cases parseUrl_cases sys request.line.url with
      | inr h => exact absurd ⟨hp,hs⟩ h.1
      | inl h =>
        obtain ⟨_,_,hfd,hopened⟩ := h
        rw [hopened]
        have hcalls : (parseUrl sys request.line.url).calls = sys.page.opened := by
          simp [Located.calls,hopened]
        have h0 : 0 ≤ sys.page.fd := hpage.elim (fun h => absurd h hp) fun h => h.1
        rw [answer_get hm,hcalls,hfd,if_neg (by omega)] at hd
        obtain ⟨_,ops,hops,hiff⟩ := answered_released_iff (r := getRespond sys request) hfd hp hpage
          (wrapInt_lt _) hd
        simp only [List.forall_mem_cons,List.not_mem_nil,false_implies,implies_true,and_true]
        rw [hops.since,hiff]
        exact ⟨fun h => ⟨hs,h hp⟩,fun h _ => h.2⟩
    · refine iff_of_false (fun hall => ?_) fun h => hs h.1
      have hops := vain_ops hm hpage hnot hapart hp hs hd
      have hmem : ∃ o∈(parseUrl sys request.line.url).opened, o.2 = sys.page := by
        cases parseUrl_cases sys request.line.url with
        | inl h => exact absurd h.2.1 hs
        | inr h =>
          rw [h.2.2]
          exact ⟨_,List.mem_cons_self,rfl⟩
      obtain ⟨o,ho,he⟩ := hmem
      have hrel := hall o ho (he ▸ hp)
      rw [he,hops.since] at hrel
      exact absurd hrel (by decide)

def idleConn : Conn := connected 5 false false (fun _ => 0) fun _ => 0

def halfTaken : System := { quiet with body := .accept 1 }

theorem halfTaken_run : ∃ d, (calls (answer halfTaken keepAliveRaw.request).1 idleConn).Returns d ∧
    fileOps 7 (since idleConn d) = [.opened,.sendfile,.close,.read,.close] :=
  ⟨_,⟨60,rfl⟩,rfl⟩

theorem halfTaken_fresh : Fresh idleConn halfTaken.page ∧ Fresh idleConn halfTaken.notFound ∧
    (halfTaken.page.fd = halfTaken.notFound.fd → halfTaken.page.fd = -1) :=
  ⟨.inr ⟨by decide,by decide,rfl⟩,.inl rfl,by decide⟩

theorem descriptors_closed_twice : ¬ ∀ (sys : System) (request : HttpRequest) (c d : Conn),
    request.line.method = some .GET → Fresh c sys.page → Fresh c sys.notFound →
    (sys.page.fd = sys.notFound.fd → sys.page.fd = -1) →
    (calls (answer sys request).1 c).Returns d →
    ∀ o∈(parseUrl sys request.line.url).opened, o.2.fd ≠ -1 →
      Released (fileOps o.2.fd (since c d)) := by
  intro hall
  obtain ⟨d,hd,hops⟩ := halfTaken_run
  obtain ⟨hpage,hnot,hapart⟩ := halfTaken_fresh
  have hopened : (parseUrl halfTaken keepAliveRaw.request.line.url).opened =
      [(cStr (sourcePath [47]),halfTaken.page)] := rfl
  have hrel := hall halfTaken keepAliveRaw.request idleConn d rfl hpage hnot hapart hd
    (cStr (sourcePath [47]),halfTaken.page) (by rw [hopened]; exact List.mem_singleton.mpr rfl)
    (by decide)
  have hfd : halfTaken.page.fd = 7 := rfl
  rw [hfd,hops] at hrel
  exact absurd hrel (by decide)

theorem descriptors_released_iff_halfTaken : ∃ d,
    (calls (answer halfTaken keepAliveRaw.request).1 idleConn).Returns d ∧
    ((∀ o∈(parseUrl halfTaken keepAliveRaw.request.line.url).opened, o.2.fd ≠ -1 →
        Released (fileOps o.2.fd (since idleConn d))) ↔
      OneTaken halfTaken keepAliveRaw.request idleConn) := by
  obtain ⟨d,hd,_⟩ := halfTaken_run
  obtain ⟨hpage,hnot,hapart⟩ := halfTaken_fresh
  exact ⟨d,hd,descriptors_released_iff halfTaken keepAliveRaw.request idleConn d rfl hpage hnot
    hapart hd⟩

end AdlServer.Http
